import DartLowering.Source.Directory
import DartLowering.Text.Quoted

/-!
Path patterns. A star stands for any bytes but the slash, a question mark for one character other
than the slash, and brackets for one out of a class; a backslash takes the next character as it is.

Stars cut a pattern into chunks. A chunk is laid at the first place where it fits, and what comes
before is never tried again. A chunk that is malformed is noticed when a name gets as far as that.
-/
namespace DartLowering.Golden

/-- What one character of a name may be. -/
inductive PatternItem
  | literal (c : Char)
  | any
  | class (negated : Bool) (ranges : List (Char × Char))
  deriving DecidableEq, Repr

inductive Pattern
  | finished
  | malformed
  /-- Items that fit one after the other, where they stand or, when starred, further on. -/
  | chunk (starred : Bool) (items : List PatternItem) (rest : Pattern)
  deriving DecidableEq, Repr

namespace Pattern

/-- One end of a range. Something has to follow it. -/
def readEnd : List Char → Option (Char × List Char)
  | '\\' :: c :: d :: cs => some (c, d :: cs)
  | '\\' :: _ => none
  | '-' :: _ => none
  | ']' :: _ => none
  | c :: d :: cs => some (c, d :: cs)
  | _ => none

/-- The ranges of a class up to its closing bracket; there is at least one. -/
def readRanges : (fuel : Nat) → List Char → Option (List (Char × Char) × List Char)
  | 0, _ => none
  | fuel + 1, cs =>
      match readEnd cs with
      | none => none
      | some (lo, cs) =>
          let range :=
            match cs with
            | '-' :: cs => (readEnd cs).map fun (hi, cs) => ((lo, hi), cs)
            | cs => some ((lo, lo), cs)
          match range with
          | none => none
          | some (range, ']' :: cs) => some ([range], cs)
          | some (range, cs) => (readRanges fuel cs).map fun (ranges, cs) => (range :: ranges, cs)

/-- The items up to a star or the end. -/
def readItems : (fuel : Nat) → List Char → Option (List PatternItem × List Char)
  | _, [] => some ([], [])
  | 0, _ => none
  | fuel + 1, c :: cs =>
      let before := fun (item : PatternItem) cs =>
        (readItems fuel cs).map fun (items, cs) => (item :: items, cs)
      match c with
      | '*' => some ([], '*' :: cs)
      | '?' => before .any cs
      | '\\' =>
          match cs with
          | [] => none
          | d :: cs => before (.literal d) cs
      | '[' =>
          let (negated, inner) :=
            match cs with
            | '^' :: cs => (true, cs)
            | cs => (false, cs)
          match readRanges inner.length inner with
          | none => none
          | some (ranges, cs) => before (.class negated ranges) cs
      | c => before (.literal c) cs

def readFrom : (fuel : Nat) → List Char → Pattern
  | _, [] => .finished
  | 0, _ => .malformed
  | fuel + 1, cs =>
      match readItems cs.length (cs.dropWhile (· = '*')) with
      | none => .malformed
      | some (items, after) => .chunk (cs.head? = some '*') items (readFrom fuel after)

def ofText (pattern : String) : Pattern := readFrom pattern.length pattern.toList

def slash : UInt8 := 0x2F

/-- The character at the front and the bytes after it. A byte that begins no character counts as the
replacement character. -/
def front : List UInt8 → Option (Char × List UInt8)
  | [] => none
  | b :: bs =>
      match (Text.glyphs ((b :: bs).take 4)).head? with
      | some (.char c) => some (c, (b :: bs).drop c.utf8Size)
      | _ => some (Char.ofNat 0xFFFD, bs)

def inRanges (ranges : List (Char × Char)) (c : Char) : Bool :=
  ranges.any fun (lo, hi) => lo ≤ c && c ≤ hi

/-- The bytes after those that an item stands for. -/
def afterItem (bytes : List UInt8) : PatternItem → Option (List UInt8)
  | .literal c =>
      let spelling := c.toString.toUTF8.toList
      if spelling.isPrefixOf bytes then some (bytes.drop spelling.length) else none
  | .any => if bytes.head? = some slash then none else (front bytes).map (·.2)
  | .class negated ranges =>
      match front bytes with
      | none => none
      | some (c, rest) => if inRanges ranges c = negated then none else some rest

/-- The bytes after a whole chunk. -/
def after (items : List PatternItem) (bytes : List UInt8) : Option (List UInt8) :=
  items.foldlM afterItem bytes

/-- Where a chunk after a star may begin. -/
def starts : List UInt8 → List (List UInt8)
  | [] => [[]]
  | b :: bs => if b = slash then [b :: bs] else (b :: bs) :: starts bs

/-- The pattern describes the whole name; `none` when it turns out to be malformed. The last chunk
has to reach the end of the name. -/
def accepts : Pattern → List UInt8 → Option Bool
  | .finished, name => some name.isEmpty
  | .malformed, _ => none
  | .chunk starred items rest, name =>
      if starred && items.isEmpty && rest = .finished then some (!name.contains slash)
      else
        let places := if starred then starts name else [name]
        let fits := fun place =>
          (after items place).filter fun left => left.isEmpty || rest ≠ .finished
        match places.findSome? fits with
        | none => some false
        | some left => accepts rest left

def isPlain (pattern : String) : Bool :=
  pattern.toList.all fun c => c ≠ '*' && c ≠ '?' && c ≠ '[' && c ≠ '\\'

/-- The names that fit, `none` when one of them shows that the pattern is malformed. -/
def accepted (pattern : Pattern) : List String → Option (List String)
  | [] => some []
  | n :: ns =>
      match pattern.accepts n.toUTF8.toList, accepted pattern ns with
      | some fits, some rest => some (if fits then n :: rest else rest)
      | _, _ => none

/-- The paths of the names in one directory that fit. -/
def matchesIn (d : Directory) (pattern : Pattern) (directory : String) : Option (List String) :=
  match d.entry directory, d.follow (Directory.start directory) (Text.split '/' directory) with
  | .ok .folder, .ok place => (accepted pattern (d.names place)).map (·.map (Path.join directory))
  | _, _ => some []

/-- The paths that fit a pattern whose slashes are cut `depth` times at most, `none` when a part of
the pattern turns out to be malformed. -/
def expand (d : Directory) : (depth : Nat) → String → Option (List String)
  | 0, _ => none
  | depth + 1, pattern =>
      match (ofText pattern).accepts [] with
      | none => none
      | some _ =>
          if isPlain pattern then
            match d.entry pattern with
            | .ok _ => some [pattern]
            | .error _ => some []
          else
            let name := Path.lastElement pattern.toList
            let above := pattern.toList.take (pattern.length - name.length)
            let directory :=
              if above.isEmpty then "."
              else if above = ['/'] then "/"
              else String.ofList above.dropLast
            let inside := matchesIn d (ofText (String.ofList name))
            if isPlain directory then inside directory
            else
              match expand d depth directory with
              | none => none
              | some directories => (directories.mapM inside).map List.flatten

end Pattern

/-- The paths that fit a pattern. -/
def paths (d : Directory) (pattern : String) : Option (List String) :=
  Pattern.expand d (pattern.length + 1) pattern

end DartLowering.Golden
