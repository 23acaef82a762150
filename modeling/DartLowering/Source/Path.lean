import DartLowering.Text.Lines

/-!
Slash-separated path names: last element, extension, directory and the shortest equivalent name.
-/
namespace DartLowering.Path

def chars (path : String) : List Char := path.toList

/-- What follows the last slash. -/
def lastElement (cs : List Char) : List Char := (cs.reverse.takeWhile (· ≠ '/')).reverse

/-- The last element, trailing slashes aside; `.` for the empty path and `/` for slashes alone. -/
def base (path : String) : String :=
  if path.isEmpty then "."
  else
    let name := lastElement (Text.dropTrailing (· = '/') path.toList)
    if name.isEmpty then "/" else String.ofList name

/-- The last element from its last dot on, empty without a dot. -/
def extension (path : String) : String :=
  let name := lastElement path.toList
  if name.contains '.' then
    String.ofList ('.' :: (name.reverse.takeWhile (· ≠ '.')).reverse)
  else ""

def withoutExtension (name path : String) : String :=
  String.ofList (Text.withoutSuffix (extension path).toList name.toList)

/-- One element appended to a cleaned path, kept in reverse. A parent reference removes the element
before it; at the root it means nothing. -/
def pushElement (rooted : Bool) (elements : List String) (e : String) : List String :=
  if e = "" || e = "." then elements
  else if e = ".." then
    match elements with
    | [] => if rooted then [] else [".."]
    | last :: rest => if last = ".." then ".." :: elements else rest
  else e :: elements

def isRooted (path : String) : Bool :=
  match path.toList with
  | '/' :: _ => true
  | _ => false

/-- The elements of the shortest equivalent path. -/
def elements (path : String) : List String :=
  ((Text.split '/' path).foldl (pushElement (isRooted path)) []).reverse

/-- The shortest path with the same meaning. -/
def clean (path : String) : String :=
  let inner := Text.join "/" (elements path)
  if isRooted path then "/" ++ inner else if inner.isEmpty then "." else inner

/-- All but the last element. -/
def directory (path : String) : String :=
  clean (String.ofList (path.toList.reverse.dropWhile (· ≠ '/')).reverse)

def join (directory name : String) : String :=
  if directory.isEmpty then clean name else clean (directory ++ "/" ++ name)

end DartLowering.Path
