/-!
Texts as lists of lines. A separator character cuts a text into pieces, one piece more than there
are separators, and joining the pieces with the separator gives the text back.
-/
namespace DartLowering.Text

/-- The pieces of a text between the occurrences of `sep`. -/
def pieces (sep : Char) : List Char → List (List Char)
  | [] => [[]]
  | c :: cs =>
      if c = sep then [] :: pieces sep cs
      else
        match pieces sep cs with
        | [] => [[c]]
        | p :: ps => (c :: p) :: ps

/-- The pieces with `sep` between them. -/
def joined (sep : List Char) : List (List Char) → List Char
  | [] => []
  | [p] => p
  | p :: q :: ps => p ++ sep ++ joined sep (q :: ps)

def split (sep : Char) (s : String) : List String :=
  (pieces sep s.toList).map String.ofList

def join (sep : String) (parts : List String) : String :=
  String.intercalate sep parts

/-- Every carriage return and line feed pair becomes one line feed. -/
def unifyPairs : List Char → List Char
  | [] => []
  | '\r' :: '\n' :: cs => '\n' :: unifyPairs cs
  | c :: cs => c :: unifyPairs cs

theorem unifyPairs_of_no_return {cs : List Char} (h : ∀ c ∈ cs, c ≠ '\r') : unifyPairs cs = cs := by
  fun_induction unifyPairs cs with
  | case1 => rfl
  | case2 cs ih => exact absurd rfl (h '\r' List.mem_cons_self)
  | case3 c cs hpair ih =>
    rw [List.forall_mem_cons] at h
    rw [ih h.2]

/-- A carriage return and line feed pair occurs. -/
def hasPair : List Char → Bool
  | [] => false
  | '\r' :: '\n' :: _ => true
  | _ :: cs => hasPair cs

def dropTrailing (p : Char → Bool) (cs : List Char) : List Char :=
  (cs.reverse.dropWhile p).reverse

def isBlank (c : Char) : Bool := c = ' ' || c = '\t'

/-- Spaces and tabs at the end are dropped. -/
def trimRight (s : String) : String := String.ofList (dropTrailing isBlank s.toList)

/-- `suffix` is dropped from the end once, where it stands there. -/
def withoutSuffix (suffix s : List Char) : List Char :=
  if suffix.isSuffixOf s then s.take (s.length - suffix.length) else s

def spaces (n : Nat) : String := String.ofList (List.replicate n ' ')

/-- Right aligned in a field of `width` characters. -/
def padLeft (width : Nat) (s : String) : String := spaces (width - s.length) ++ s

end DartLowering.Text
