import DartLowering.Source.Access

/-!
A directory as a value: what stands at each place below it. A place is the list of names that lead
to it; places outside the directory begin with `..` or, from the root, with `/`, and nothing is
known to stand there but the directories on the way.
-/
namespace DartLowering

inductive Entry
  | file (content : String)
  | folder
  deriving DecidableEq, Repr

structure Directory where
  entries : List (List String × Entry) := []
  deriving DecidableEq, Repr

namespace Directory

abbrev Place := List String

def isAbove (place : Place) : Bool := place.all (· = "..") || place = ["/"]

def find? (d : Directory) (place : Place) : Option Entry :=
  if isAbove place then some .folder else (d.entries.find? fun e => e.1 = place).map (·.2)

def put (place : Place) (entry : Entry) (d : Directory) : Directory :=
  if d.entries.any (·.1 = place) then
    ⟨d.entries.map fun e => if e.1 = place then (place, entry) else e⟩
  else ⟨d.entries ++ [(place, entry)]⟩

/-- Takes out a place with everything below it. -/
def erase (place : Place) (d : Directory) : Directory :=
  ⟨d.entries.filter fun e => !place.isPrefixOf e.1⟩

/-- Takes out what stands at a path. A path that ends in the name of a directory itself takes out
nothing. -/
def remove (path : String) (d : Directory) : Directory :=
  match (Text.split '/' path).getLast? with
  | some "." => d
  | _ => if (Path.elements path).isEmpty then d else d.erase (Path.elements path)

def parent (place : Place) : Place :=
  if place = ["/"] then place
  else if place.all (· = "..") then place ++ [".."]
  else place.dropLast

/-- The longest name that an entry can have, in bytes. -/
def longestName : Nat := 255

/-- The longest path, in bytes. -/
def longestPath : Nat := 4095

/-- The place that is reached from `here` by following names. Each step needs a directory to start
from; the last name need not be there. -/
def follow (d : Directory) (here : Place) : List String → Except AccessFault Place
  | [] => .ok here
  | name :: names =>
      match d.find? here with
      | none => .error .notFound
      | some (.file _) => .error .notDirectory
      | some .folder =>
          if name = "" || name = "." then d.follow here names
          else if name = ".." then d.follow (parent here) names
          else if longestName < name.utf8ByteSize then .error .nameTooLong
          else d.follow (here ++ [name]) names

def start (path : String) : Place := if Path.isRooted path then ["/"] else []

/-- The path has a meaning at all. -/
def checkPath (path : String) : Except AccessFault Unit :=
  if path = "" then .error .notFound
  else if path.toList.contains '\x00' then .error .invalidName
  else if longestPath < path.utf8ByteSize then .error .nameTooLong
  else .ok ()

def entry (d : Directory) (path : String) : Except AccessFault Entry := do
  checkPath path
  let place ← d.follow (start path) (Text.split '/' path)
  match d.find? place with
  | none => .error .notFound
  | some entry => .ok entry

def read (d : Directory) (path : String) : Except AccessError String :=
  match d.entry path with
  | .error fault => .error ⟨"open", path, fault⟩
  | .ok .folder => .error ⟨"read", path, .isDirectory⟩
  | .ok (.file content) => .ok content

/-- Where a file of that path is made. The names before the last lead to a directory, and the last
one is not that of a directory. -/
def target (d : Directory) (path : String) : Except AccessFault Place := do
  checkPath path
  let names := Text.split '/' path
  let known := (names.reverse.dropWhile (· = "")).reverse
  let parent ← d.follow (start path) known.dropLast
  match d.find? parent with
  | none => .error .notFound
  | some (.file _) => .error .notDirectory
  | some .folder =>
      let name := known.getLast?.getD ""
      let isFolderName := names.getLast? = some "" || name = "." || name = ".."
      if isFolderName then .error .isDirectory
      else if longestName < name.utf8ByteSize then .error .nameTooLong
      else
        match d.find? (parent ++ [name]) with
        | some .folder => .error .isDirectory
        | _ => .ok (parent ++ [name])

def write (path content : String) (d : Directory) : Except AccessError Directory :=
  match d.target path with
  | .error fault => .error ⟨"open", path, fault⟩
  | .ok place => .ok (d.put place (.file content))

/-- Makes the directories that `names` lead through, of which `made` are there. Those that were made
stay when a later one cannot be. -/
def makeFrom (d : Directory) (made : String) : List String → Except AccessError Unit × Directory
  | [] => (.ok (), d)
  | name :: names =>
      let path := if made = "" || made = "/" then made ++ name else made ++ "/" ++ name
      match d.entry path with
      | .ok .folder => d.makeFrom path names
      | .ok (.file _) => (.error ⟨"mkdir", path, .notDirectory⟩, d)
      | .error .notFound =>
          match d.follow (start path) (Text.split '/' path) with
          | .error fault => (.error ⟨"mkdir", path, fault⟩, d)
          | .ok place => (d.put place .folder).makeFrom path names
      | .error fault => (.error ⟨"mkdir", path, fault⟩, d)

def makeDirectory (path : String) (d : Directory) : Except AccessError Unit × Directory :=
  d.makeFrom (if Path.isRooted path then "/" else "") (Path.elements path)

/-- The directory with these files; a name that ends in a slash is that of a directory. -/
def ofFiles (files : List (String × String)) : Directory :=
  files.foldl (fun d (path, content) =>
    let names := Path.elements path
    let folders := if path.toList.getLast? = some '/' then names else names.dropLast
    let d := (List.range folders.length).foldl (fun d n =>
      let place := folders.take (n + 1)
      if d.find? place = some .folder then d else d.put place .folder) d
    if folders = names then d else d.put names (.file content)) {}

/-- Everything in the directory, with a slash after the names of directories. -/
def toFiles (d : Directory) : List (String × String) :=
  (d.entries.filter fun e => e.1.head? ≠ some ".." && e.1.head? ≠ some "/").map fun
    | (place, .file content) => (Text.join "/" place, content)
    | (place, .folder) => (Text.join "/" place ++ "/", "")

/-- The names of what stands directly in the directory at `place`, in order. -/
def names (d : Directory) (place : Place) : List String :=
  let here := d.entries.filterMap fun e =>
    if e.1.dropLast = place then e.1.getLast? else none
  (here.filter fun n => n ≠ ".." && n ≠ "/").mergeSort fun a b => !(b < a)

/-- An operation that changes the directory only when it succeeds. -/
def attempt (f : Directory → Except AccessError Directory) :
    StateM Directory (Except AccessError Unit) := do
  match f (← get) with
  | .ok d => set d; return .ok ()
  | .error e => return .error e

/-- The operations on the files of a directory value. -/
def files : Files (StateM Directory) where
  read path := do return (← get).read path
  write path content := attempt (write path content)
  makeDirectory path := modifyGet (makeDirectory path)
  observe path := do
    match (← get).entry path with
    | .ok _ => return none
    | .error fault => return some fault

section

variable {α : Type} {d e : Directory} {f : Directory → Except AccessError Directory}
  {error : AccessError}

theorem run_attempt_of_ok (h : f d = .ok e) : (attempt f).run d = (.ok (), e) := by
  rw [attempt, StateT.run_bind, StateT.run_get, pure_bind]
  simp only [h]
  rfl

theorem run_attempt_of_error (h : f d = .error error) : (attempt f).run d = (.error error, d) := by
  rw [attempt, StateT.run_bind, StateT.run_get, pure_bind]
  simp only [h]
  rfl

variable (d) (path content : String)

theorem run_read_bind (next : Except AccessError String → StateM Directory α) :
    (files.read path >>= next).run d = (next (d.read path)).run d := rfl

theorem run_write_bind (next : Except AccessError Unit → StateM Directory α) :
    (files.write path content >>= next).run d =
      (next ((attempt (write path content)).run d).1).run
        ((attempt (write path content)).run d).2 := rfl

theorem run_makeDirectory_bind (next : Except AccessError Unit → StateM Directory α) :
    (files.makeDirectory path >>= next).run d =
      (next (d.makeDirectory path).1).run (d.makeDirectory path).2 := rfl

end

end DartLowering.Directory
