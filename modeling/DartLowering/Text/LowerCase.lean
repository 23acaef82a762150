/-!
Lower case, one character for one. Capitals come in runs: neighbouring code points at the same
distance from their small letters, or every second one where capitals and small letters alternate.
The runs are those of version 17 of the Unicode standard.
-/
namespace DartLowering.Text

/-- Capitals above ASCII that their small letters follow: the first of a run, and how many there
are. -/
def alternatingCapitals : List (Nat × Nat) := [
  (0x100, 24), (0x132, 3), (0x139, 8), (0x14a, 23), (0x179, 3), (0x182, 2), (0x187, 1),
  (0x18b, 1), (0x191, 1), (0x198, 1), (0x1a0, 3), (0x1a7, 1), (0x1ac, 1), (0x1af, 1), (0x1b3, 2),
  (0x1b8, 1), (0x1bc, 1), (0x1c5, 1), (0x1c8, 1), (0x1cb, 9), (0x1de, 9), (0x1f2, 2), (0x1f8, 20),
  (0x222, 9), (0x23b, 1), (0x241, 1), (0x246, 5), (0x370, 2), (0x376, 1), (0x3d8, 12), (0x3f7, 1),
  (0x3fa, 1), (0x460, 17), (0x48a, 27), (0x4c1, 7), (0x4d0, 48), (0x1c89, 1), (0x1e00, 75),
  (0x1ea0, 48), (0x2183, 1), (0x2c60, 1), (0x2c67, 3), (0x2c72, 1), (0x2c75, 1), (0x2c80, 50),
  (0x2ceb, 2), (0x2cf2, 1), (0xa640, 23), (0xa680, 14), (0xa722, 7), (0xa732, 31), (0xa779, 2),
  (0xa77e, 5), (0xa78b, 1), (0xa790, 2), (0xa796, 10), (0xa7b4, 8), (0xa7c7, 2), (0xa7cc, 8),
  (0xa7f5, 1)]

/-- The other capitals: the first of a run, how many there are, and how far off the small letters
are. -/
def neighbouringCapitals : List (Nat × Nat × Int) := [
  (0xc0, 23, 32), (0xd8, 7, 32), (0x130, 1, -199), (0x178, 1, -121), (0x181, 1, 210),
  (0x186, 1, 206), (0x189, 2, 205), (0x18e, 1, 79), (0x18f, 1, 202), (0x190, 1, 203),
  (0x193, 1, 205), (0x194, 1, 207), (0x196, 1, 211), (0x197, 1, 209), (0x19c, 1, 211),
  (0x19d, 1, 213), (0x19f, 1, 214), (0x1a6, 1, 218), (0x1a9, 1, 218), (0x1ae, 1, 218),
  (0x1b1, 2, 217), (0x1b7, 1, 219), (0x1c4, 1, 2), (0x1c7, 1, 2), (0x1ca, 1, 2), (0x1f1, 1, 2),
  (0x1f6, 1, -97), (0x1f7, 1, -56), (0x220, 1, -130), (0x23a, 1, 10795), (0x23d, 1, -163),
  (0x23e, 1, 10792), (0x243, 1, -195), (0x244, 1, 69), (0x245, 1, 71), (0x37f, 1, 116),
  (0x386, 1, 38), (0x388, 3, 37), (0x38c, 1, 64), (0x38e, 2, 63), (0x391, 17, 32), (0x3a3, 9, 32),
  (0x3cf, 1, 8), (0x3f4, 1, -60), (0x3f9, 1, -7), (0x3fd, 3, -130), (0x400, 16, 80),
  (0x410, 32, 32), (0x4c0, 1, 15), (0x531, 38, 48), (0x10a0, 38, 7264), (0x10c7, 1, 7264),
  (0x10cd, 1, 7264), (0x13a0, 80, 38864), (0x13f0, 6, 8), (0x1c90, 43, -3008), (0x1cbd, 3, -3008),
  (0x1e9e, 1, -7615), (0x1f08, 8, -8), (0x1f18, 6, -8), (0x1f28, 8, -8), (0x1f38, 8, -8),
  (0x1f48, 6, -8), (0x1f59, 1, -8), (0x1f5b, 1, -8), (0x1f5d, 1, -8), (0x1f5f, 1, -8),
  (0x1f68, 8, -8), (0x1f88, 8, -8), (0x1f98, 8, -8), (0x1fa8, 8, -8), (0x1fb8, 2, -8),
  (0x1fba, 2, -74), (0x1fbc, 1, -9), (0x1fc8, 4, -86), (0x1fcc, 1, -9), (0x1fd8, 2, -8),
  (0x1fda, 2, -100), (0x1fe8, 2, -8), (0x1fea, 2, -112), (0x1fec, 1, -7), (0x1ff8, 2, -128),
  (0x1ffa, 2, -126), (0x1ffc, 1, -9), (0x2126, 1, -7517), (0x212a, 1, -8383), (0x212b, 1, -8262),
  (0x2132, 1, 28), (0x2160, 16, 16), (0x24b6, 26, 26), (0x2c00, 48, 48), (0x2c62, 1, -10743),
  (0x2c63, 1, -3814), (0x2c64, 1, -10727), (0x2c6d, 1, -10780), (0x2c6e, 1, -10749),
  (0x2c6f, 1, -10783), (0x2c70, 1, -10782), (0x2c7e, 2, -10815), (0xa77d, 1, -35332),
  (0xa78d, 1, -42280), (0xa7aa, 1, -42308), (0xa7ab, 1, -42319), (0xa7ac, 1, -42315),
  (0xa7ad, 1, -42305), (0xa7ae, 1, -42308), (0xa7b0, 1, -42258), (0xa7b1, 1, -42282),
  (0xa7b2, 1, -42261), (0xa7b3, 1, 928), (0xa7c4, 1, -48), (0xa7c5, 1, -42307),
  (0xa7c6, 1, -35384), (0xa7cb, 1, -42343), (0xa7dc, 1, -42561), (0xff21, 26, 32),
  (0x10400, 40, 40), (0x104b0, 36, 40), (0x10570, 11, 39), (0x1057c, 15, 39), (0x1058c, 7, 39),
  (0x10594, 2, 39), (0x10c80, 51, 64), (0x10d50, 22, 32), (0x118a0, 32, 32), (0x16e40, 32, 32),
  (0x16ea0, 25, 27), (0x1e900, 34, 34)]

def lowerChar (c : Char) : Char :=
  let n := c.toNat
  if n < 0x80 then c.toLower
  else if alternatingCapitals.any fun (first, count) =>
      first ≤ n && n < first + 2 * count && (n - first) % 2 = 0 then
    Char.ofNat (n + 1)
  else
    match neighbouringCapitals.find? fun (first, count, _) => first ≤ n && n < first + count with
    | some (_, _, shift) => Char.ofNat (n + shift).toNat
    | none => c

def lowerCase (s : String) : String := String.ofList (s.toList.map lowerChar)

end DartLowering.Text
