import DartLowering.Text.Decimal
import DartLowering.Text.Printable

/-!
Double-quoted texts. Printable characters stand for themselves, the usual control characters have
letters, and everything else is written by its number: a byte that is no part of a character with
two hexadecimal digits, a code point with four or eight.
-/
namespace DartLowering.Text

/-- What the front of a byte sequence holds: a whole character, or one byte that starts none. -/
inductive Glyph
  | char (c : Char)
  | byte (b : UInt8)

/-- A continuation byte between `lo` and `hi`. -/
def tailByte (lo hi : Nat) (b : UInt8) : Bool := lo ≤ b.toNat && b.toNat ≤ hi

/-- The characters of a byte sequence. A byte that begins no well-formed sequence stands alone. -/
def glyphs : List UInt8 → List Glyph
  | [] => []
  | a :: rest =>
      let n := a.toNat
      if n < 0x80 then .char (Char.ofNat n) :: glyphs rest
      else if 0xC2 ≤ n && n ≤ 0xDF then
        match rest with
        | b :: rest' =>
            if tailByte 0x80 0xBF b then
              .char (Char.ofNat ((n - 0xC0) * 64 + (b.toNat - 0x80))) :: glyphs rest'
            else .byte a :: glyphs (b :: rest')
        | [] => [.byte a]
      else if 0xE0 ≤ n && n ≤ 0xEF then
        let lo := if n = 0xE0 then 0xA0 else 0x80
        let hi := if n = 0xED then 0x9F else 0xBF
        match rest with
        | b :: c :: rest' =>
            if tailByte lo hi b && tailByte 0x80 0xBF c then
              .char (Char.ofNat ((n - 0xE0) * 4096 + (b.toNat - 0x80) * 64 + (c.toNat - 0x80)))
                :: glyphs rest'
            else .byte a :: glyphs (b :: c :: rest')
        | rest' => .byte a :: glyphs rest'
      else if 0xF0 ≤ n && n ≤ 0xF4 then
        let lo := if n = 0xF0 then 0x90 else 0x80
        let hi := if n = 0xF4 then 0x8F else 0xBF
        match rest with
        | b :: c :: d :: rest' =>
            if tailByte lo hi b && tailByte 0x80 0xBF c && tailByte 0x80 0xBF d then
              .char (Char.ofNat ((n - 0xF0) * 262144 + (b.toNat - 0x80) * 4096 +
                (c.toNat - 0x80) * 64 + (d.toNat - 0x80))) :: glyphs rest'
            else .byte a :: glyphs (b :: c :: d :: rest')
        | rest' => .byte a :: glyphs rest'
      else .byte a :: glyphs rest

def escapeChar (c : Char) : List Char :=
  if c = '"' then ['\\', '"']
  else if c = '\\' then ['\\', '\\']
  else if isPrintable c then [c]
  else
    match c.toNat with
    | 7 => ['\\', 'a']
    | 8 => ['\\', 'b']
    | 12 => ['\\', 'f']
    | 10 => ['\\', 'n']
    | 13 => ['\\', 'r']
    | 9 => ['\\', 't']
    | 11 => ['\\', 'v']
    | n =>
        if n < 0x20 || n = 0x7f then '\\' :: 'x' :: hexDigits 2 n
        else if n < 0x10000 then '\\' :: 'u' :: hexDigits 4 n
        else '\\' :: 'U' :: hexDigits 8 n

def Glyph.escape : Glyph → List Char
  | .char c => escapeChar c
  | .byte b => '\\' :: 'x' :: hexDigits 2 b.toNat

def quoteBytes (bytes : List UInt8) : String :=
  String.ofList ('"' :: (glyphs bytes).flatMap Glyph.escape ++ ['"'])

def quote (s : String) : String :=
  String.ofList ('"' :: s.toList.flatMap escapeChar ++ ['"'])

end DartLowering.Text
