import DartLowering.Dump.Resolve
import DartLowering.Json.Writer
import DartLowering.Proofs.Placement
import DartLowering.Proofs.Result
import DartLowering.Target.Wrapper

/-!
Two ways to the size of a type. `TypeEnv.sizeOf` goes by the kinds of scalars and `TypeEnv.extent`
by their widths. Both take the size of the innermost element as many times as there are elements,
and they share the layouts of records. So they agree unless the innermost element is a scalar whose
width was given and is not the one of its kind.
-/
namespace DartLowering

open Layout Result

/-- What an array consists of in the end, type names aside. -/
def CType.element : CType → CType
  | .array elem _ _ => elem.element
  | .alias _ underlying => underlying.element
  | t => t

/-- How many innermost elements a type has; an array of no given length has none. -/
def CType.count : CType → Int64
  | .array elem (some n) _ => elem.count * n
  | .array _ none _ => 0
  | .alias _ underlying => underlying.count
  | _ => 1

namespace TypeEnv

variable {env : TypeEnv}

theorem sizeOf_eq_count : ∀ {t : CType} {n : Int64}, env.sizeOf t = .ok n →
    ∃ m, env.sizeOf t.element = .ok m ∧ n = m * t.count
  | .void, n, h | .scalar _, n, h | .pointer _, n, h | .functionPointer _ _ _, n, h
  | .record _, n, h | .object _, n, h | .function _ _ _, n, h =>
    ⟨n, h, (Int64.mul_one n).symm⟩
  | .alias _ t, n, h => sizeOf_eq_count (t := t) h
  | .array elem length isVariable, n, h => by
    rw [sizeOf.eq_def] at h
    dsimp only at h
    split at h
    · cases h
    · cases length with
      | none => cases h
      | some len =>
        obtain ⟨size, hsize, hn⟩ := bind_eq_ok.mp h
        obtain ⟨m, hm, hcount⟩ := sizeOf_eq_count hsize
        cases hn
        refine ⟨m, hm, ?_⟩
        rw [hcount, Int64.mul_assoc]
        rfl

theorem extent_eq_count : ∀ {t : CType} {e : Extent}, env.extent t = .ok e →
    ∃ e', env.extent t.element = .ok e' ∧ e.size = e'.size * t.count
  | .void, e, h | .scalar _, e, h | .pointer _, e, h | .functionPointer _ _ _, e, h
  | .record _, e, h | .object _, e, h | .function _ _ _, e, h =>
    ⟨e, h, (Int64.mul_one e.size).symm⟩
  | .alias _ t, e, h => extent_eq_count (t := t) h
  | .array elem length isVariable, e, h => by
    rw [extent, CType.extent] at h
    split at h
    · cases h
    · obtain ⟨inner, hinner, he⟩ := bind_eq_ok.mp h
      obtain ⟨e', he', hcount⟩ := extent_eq_count (t := elem) hinner
      refine ⟨e', he', ?_⟩
      cases length with
      | none =>
        cases he
        exact Int64.mul_zero.symm
      | some len =>
        dsimp only at he
        cases hl : arrayLayout elem.text inner.size inner.align len with
        | error fault =>
          rw [hl] at he
          cases he
        | ok l =>
          rw [hl] at he
          cases he
          obtain ⟨-, -, -, rfl⟩ := arrayLayout_eq_ok.mp hl
          calc
            len * inner.size = inner.size * len := Int64.mul_comm _ _
            _ = e'.size * (elem.count * len) := by rw [hcount, Int64.mul_assoc]

/-- The innermost element has one size unless it is a scalar, which has one for its kind and one
for its width. -/
theorem element_sizes : ∀ {t : CType} {m : Int64} {e : Extent},
    env.sizeOf t.element = .ok m → env.extent t.element = .ok e →
    (∃ s, t.element = .scalar s ∧ s.kind.bytes? = some m ∧ e.size = s.bits / 8) ∨
      (∀ s, t.element ≠ .scalar s) ∧ m = e.size
  | .array elem _ _, _, _, hsize, hextent => element_sizes (t := elem) hsize hextent
  | .alias _ t, _, _, hsize, hextent => element_sizes (t := t) hsize hextent
  | .void, _, _, _, hextent | .function _ _ _, _, _, _, hextent => by cases hextent
  | .pointer _, _, _, hsize, hextent | .functionPointer _ _ _, _, _, hsize, hextent
  | .object _, _, _, hsize, hextent => by
    cases hsize
    cases hextent
    exact .inr ⟨fun _ => CType.noConfusion, rfl⟩
  | .record tag, _, _, hsize, hextent => by
    obtain ⟨l, hl, hm⟩ := bind_eq_ok.mp hsize
    obtain ⟨l', hl', he⟩ := bind_eq_ok.mp hextent
    have hsame : l' = l := Except.ok.inj (hl'.symm.trans hl)
    cases hm
    cases he
    exact .inr ⟨fun _ => CType.noConfusion, by rw [hsame]⟩
  | .scalar s, m, e, hsize, hextent => by
    have hkind : s.kind.bytes? = some m := by
      change env.sizeOf (.scalar s) = .ok m at hsize
      rw [sizeOf] at hsize
      cases hbytes : s.kind.bytes? with
      | none =>
        rw [hbytes] at hsize
        cases hsize
      | some n =>
        rw [hbytes] at hsize
        exact congrArg some (Except.ok.inj hsize)
    have hwidth : e.size = s.bits / 8 := by
      change (CType.scalar s).extent env.layoutOf = .ok e at hextent
      rw [CType.extent] at hextent
      by_cases hzero : s.bits / 8 = 0
      · rw [if_pos hzero] at hextent
        cases hextent
      · rw [if_neg hzero] at hextent
        cases hextent
        rfl
    exact .inl ⟨s, rfl, hkind, hwidth⟩

/-- The two sizes of a type differ only by the width of the scalars in it. -/
theorem sizes_agree_iff {t : CType} {n : Int64} {e : Extent} (hsize : env.sizeOf t = .ok n)
    (hextent : env.extent t = .ok e) :
    n = e.size ↔ ∀ s, t.element = .scalar s →
      s.kind.bytes?.map (· * t.count) = some (s.bits / 8 * t.count) := by
  obtain ⟨m, hm, rfl⟩ := sizeOf_eq_count hsize
  obtain ⟨e', he', hcount⟩ := extent_eq_count hextent
  rw [hcount]
  rcases element_sizes hm he' with ⟨s, hs, hbytes, hwidth⟩ | ⟨hno, hsame⟩
  · rw [hs, hwidth]
    constructor
    · rintro hagree s' ⟨⟩
      rw [hbytes, Option.map_some, hagree]
    · intro hagree
      have hscalar := hagree s rfl
      rw [hbytes, Option.map_some] at hscalar
      exact Option.some.inj hscalar
  · rw [hsame]
    exact iff_of_true rfl fun s hs => absurd hs (hno s)

/-- Rows of shorts of twenty bits: the bits beyond whole bytes count for neither size. -/
theorem sizes_agree_iff_rows :
    let env := ofMarkers "" "" []
    let cell : CType := .scalar ⟨.short, 20, true⟩
    let rows : CType := .array (.alias "row" (.array cell (some 4) false)) (some 3) false
    env.sizeOf rows = .ok 24 ∧ env.extent rows = .ok ⟨24, 2⟩ ∧
      ((24 : Int64) = 24 ↔ ∀ s, rows.element = .scalar s →
        s.kind.bytes?.map (· * rows.count) = some (s.bits / 8 * rows.count)) := by
  intro env cell rows
  have hsize : env.sizeOf rows = .ok 24 := rfl
  have hextent : env.extent rows = .ok ⟨24, 2⟩ := by with_unfolding_all rfl
  exact ⟨hsize, hextent, sizes_agree_iff hsize hextent⟩

/-- The dump of a unit with one variable, a long that is said to have 32 bits. -/
def narrowLong : Json :=
  .ofMembers
    [("name", .ofText "u"), ("file", .ofText "u.c"),
      ("decls", .array {}
        [.ofMembers
          [("kind", .ofText "var"), ("name", .ofText "x"),
            ("type", .ofMembers
              [("kind", .ofText "scalar"), ("scalar", .ofText "long"),
                ("bits", .ofWord 32)])]])]

/-- A dump may give a long the width of 32 bits; its kind still has eight bytes. -/
theorem sizes_differ_narrow_long :
    ∃ loaded v, Dump.ofJson "in.json" {} narrowLong = .ok loaded ∧ loaded.unit.decls = [.var v] ∧
      loaded.env.sizeOf v.type = .ok 8 ∧ loaded.env.extent v.type = .ok ⟨4, 4⟩ :=
  ⟨_, _, rfl, rfl, rfl, rfl⟩

end TypeEnv

end DartLowering
