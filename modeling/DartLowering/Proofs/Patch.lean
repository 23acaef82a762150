import DartLowering.Diff.Unified
import DartLowering.Proofs.Hunks

/-!
Unified diffs as patches. `readHunk` reads the printed lines of a hunk back, by the conventions of
the format: a count of one is left out, and an empty range names the line before it. `applyPatch`
replaces the old range of every hunk by what the hunk shows of the new text. The hunks of two texts,
printed and read back, are a patch from the lines of the one to the lines of the other.
-/
namespace DartLowering.Diff

/-- Lines in a row: how many come before them and how many there are. -/
structure LineRange where
  before : Nat
  count : Nat
  deriving DecidableEq, Repr

inductive Mark
  | context | added | removed
  deriving DecidableEq, Repr

/-- A hunk as it is read. -/
structure PatchHunk where
  old : LineRange
  new : LineRange
  lines : List (Mark × String)
  deriving DecidableEq, Repr

def readNumber (cs : List Char) : Option (Nat × List Char) :=
  let digits := cs.takeWhile Char.isDigit
  if digits.isEmpty then none
  else some (Nat.ofDigitChars 10 digits 0, cs.dropWhile Char.isDigit)

/-- The range that a line number and a count mean. Lines are numbered from one. -/
def LineRange.of? (line count : Nat) : Option LineRange :=
  if count = 0 then some ⟨line, 0⟩
  else if line = 0 then none
  else some ⟨line - 1, count⟩

def readRange (cs : List Char) : Option (LineRange × List Char) := do
  let (line, rest) ← readNumber cs
  match rest with
  | ',' :: rest => do
      let (count, rest) ← readNumber rest
      let range ← LineRange.of? line count
      some (range, rest)
  | rest => do
      let range ← LineRange.of? line 1
      some (range, rest)

def readHeader (cs : List Char) : Option (LineRange × LineRange) := do
  let rest ← cs.dropPrefix? "@@ -".toList
  let (old, rest) ← readRange rest
  let rest ← rest.dropPrefix? " +".toList
  let (new, rest) ← readRange rest
  if rest = " @@".toList then some (old, new) else none

def readMarked (line : String) : Option (Mark × String) :=
  match line.toList with
  | ' ' :: cs => some (.context, String.ofList cs)
  | '+' :: cs => some (.added, String.ofList cs)
  | '-' :: cs => some (.removed, String.ofList cs)
  | _ => none

def readHunk : List String → Option PatchHunk
  | [] => none
  | header :: lines => do
      let (old, new) ← readHeader header.toList
      let lines ← lines.mapM readMarked
      some ⟨old, new, lines⟩

namespace PatchHunk

/-- The lines that the hunk finds in the old text. -/
def oldLines (h : PatchHunk) : List String :=
  (h.lines.filter fun l => l.1 ≠ .added).map (·.2)

/-- The lines that the hunk leaves in the new text, as they are marked. -/
def newLines (h : PatchHunk) : List (Mark × String) := h.lines.filter fun l => l.1 ≠ .removed

end PatchHunk

/-- The hunks applied to the lines after the first `position` ones. Lines that no hunk touches are
context. -/
def applyFrom (position : Nat) : List PatchHunk → List String → List (Mark × String)
  | [], lines => lines.map (Prod.mk .context)
  | h :: hs, lines =>
      let untouched := h.old.before - position
      (lines.take untouched).map (Prod.mk .context) ++ h.newLines ++
        applyFrom (h.old.before + h.old.count) hs (lines.drop (untouched + h.old.count))

def applyPatch (patch : List PatchHunk) (lines : List String) : List (Mark × String) :=
  applyFrom 0 patch lines

/-- A patched line is the wanted one; on context, blanks at the end may be ignored. -/
def Restores (ignoreBlanks : Bool) (line : Mark × String) (wanted : String) : Prop :=
  if ignoreBlanks = true ∧ line.1 = .context then Text.trimRight line.2 = Text.trimRight wanted
  else line.2 = wanted

/-- Every hunk shows the lines at the place its header gives, in both texts; the hunks come in order
with lines between them; and applying them to the old lines gives the new ones. -/
structure IsPatch (ignoreBlanks : Bool) (old new : List String) (patch : List PatchHunk) :
    Prop where
  counts : ∀ h ∈ patch, h.old.count = h.oldLines.length ∧ h.new.count = h.newLines.length
  found : ∀ h ∈ patch, (old.drop h.old.before).take h.old.count = h.oldLines
  left : ∀ h ∈ patch, List.Forall₂ (Restores ignoreBlanks) h.newLines
    ((new.drop h.new.before).take h.new.count)
  increasing : patch.Pairwise fun g h => g.old.before + g.old.count < h.old.before
  result : List.Forall₂ (Restores ignoreBlanks) (applyPatch patch old) new

/-- What is compared of a text. -/
def comparedLines (ignoreBlanks : Bool) (text : String) : List String :=
  (textLines text).map fun content => (Line.of ignoreBlanks content).key

section Reading

theorem readNumber_decimal (n : Nat) {rest : List Char}
    (hrest : ∀ c ∈ rest.head?, c.isDigit = false) :
    readNumber ((Text.decimalNat n).toList ++ rest) = some (n, rest) := by
  have hdigits : ∀ c ∈ Nat.toDigits 10 n, c.isDigit = true := fun c hc =>
    Nat.isDigit_of_mem_toDigits (by omega) (by omega) hc
  have htake : rest.takeWhile Char.isDigit = [] := by
    cases rest with
    | nil => rfl
    | cons c cs => simp [hrest c rfl]
  have hdrop : rest.dropWhile Char.isDigit = rest := by
    cases rest with
    | nil => rfl
    | cons c cs => simp [hrest c rfl]
  have hne : Nat.toDigits 10 n ≠ [] := Nat.toDigits_ne_nil
  simp only [readNumber, Text.decimalNat, String.toList_ofList,
    List.takeWhile_append_of_pos hdigits,
    List.dropWhile_append_of_pos hdigits, htake, hdrop, List.append_nil, List.isEmpty_iff, hne,
    if_false, Nat.ofDigitChars_ten_toDigits]

theorem readRange_rangeText (before count : Nat) (rest : List Char) :
    readRange ((rangeText before count).toList ++ ' ' :: rest) =
      some (⟨before, count⟩, ' ' :: rest) := by
  have hblank : ∀ c ∈ (' ' :: rest).head?, c.isDigit = false := by simp
  have hcomma : ∀ cs : List Char, ∀ c ∈ (',' :: cs).head?, c.isDigit = false := by simp
  -- a number, a comma and another number
  have hpair : ∀ line : Nat, ∀ range : LineRange, LineRange.of? line count = some range →
      readRange ((Text.decimalNat line ++ "," ++ Text.decimalNat count).toList ++ ' ' :: rest) =
        some (range, ' ' :: rest) := by
    intro line range hrange
    have htext : (Text.decimalNat line ++ "," ++ Text.decimalNat count).toList ++ ' ' :: rest =
        (Text.decimalNat line).toList ++
          ',' :: ((Text.decimalNat count).toList ++ ' ' :: rest) := by
      simp
    rw [htext, readRange, readNumber_decimal line (hcomma _)]
    simp [readNumber_decimal count hblank, hrange]
  unfold rangeText
  split
  · rename_i hone
    rw [readRange, readNumber_decimal _ hblank]
    simp [LineRange.of?, hone]
  · split
    · rename_i hzero
      subst hzero
      have htext : Text.decimalNat before ++ ",0" =
          Text.decimalNat before ++ "," ++ Text.decimalNat 0 := by
        rw [String.append_assoc]
        rfl
      rw [htext]
      exact hpair before ⟨before, 0⟩ rfl
    · rename_i hzero
      exact hpair (before + 1) ⟨before, count⟩ (by simp [LineRange.of?, hzero])

theorem readHeader_header (h : Hunk Line) :
    readHeader h.header.toList = some (⟨h.oldBefore, h.oldCount⟩, ⟨h.newBefore, h.newCount⟩) := by
  have htext : h.header.toList = "@@ -".toList ++ ((rangeText h.oldBefore h.oldCount).toList ++
      ' ' :: '+' :: ((rangeText h.newBefore h.newCount).toList ++ ' ' :: "@@".toList)) := by
    simp [Hunk.header]
  have hplus : ∀ cs : List Char, (' ' :: '+' :: cs).dropPrefix? " +".toList = some cs := by
    intro cs
    change (" +".toList ++ cs).dropPrefix? " +".toList = some cs
    exact List.dropPrefix?_append_of_beq cs (BEq.refl _)
  rw [htext, readHeader, List.dropPrefix?_append_of_beq _ (BEq.refl _)]
  simp only [Option.bind_eq_bind, Option.bind_some, readRange_rangeText, hplus]
  rfl

/-- The line that shows a step, as it is read. -/
def Edit.marked : Edit Line → Mark × String
  | .keep old _ => (.context, old.content)
  | .add new => (.added, new.content)
  | .remove old => (.removed, old.content)

theorem readMarked_text (e : Edit Line) : readMarked e.text = some e.marked := by
  cases e with
  | keep | add | remove => simp [Edit.text, readMarked, Edit.marked]

/-- A hunk as it is read from its lines. -/
def Hunk.patch (h : Hunk Line) : PatchHunk :=
  ⟨⟨h.oldBefore, h.oldCount⟩, ⟨h.newBefore, h.newCount⟩, h.edits.map Edit.marked⟩

theorem readHunk_lines (h : Hunk Line) : readHunk h.lines = some h.patch := by
  have hmarked : (h.edits.map Edit.text).mapM readMarked = some (h.edits.map Edit.marked) := by
    induction h.edits with
    | nil => rfl
    | cons e es ih => simp [readMarked_text, ih]
  simp [Hunk.lines, readHunk, readHeader_header, hmarked, Hunk.patch]

end Reading

section Applying

variable {ignoreBlanks : Bool} {old new : Nat} {es : List (Edit Line)} {hs : List (Hunk Line)}

/-- Kept lines agree in what is compared. -/
def KeepsSame (ignoreBlanks : Bool) (es : List (Edit Line)) : Prop :=
  ∀ x y, .keep x y ∈ es → Restores ignoreBlanks (.context, x.content) y.content

theorem oldLines_marked (es : List (Edit Line)) :
    ((es.map Edit.marked).filter fun l => l.1 ≠ .added).map (·.2) =
      (es.filterMap Edit.old?).map Line.content := by
  induction es with
  | nil => rfl
  | cons e es ih => cases e <;> simpa [Edit.marked, Edit.old?, List.filterMap_cons] using ih

theorem oldLines_patch (h : Hunk Line) :
    h.patch.oldLines = (h.edits.filterMap Edit.old?).map Line.content :=
  oldLines_marked h.edits

theorem length_newLines (h : Hunk Line) : h.patch.newLines.length = h.newCount := by
  have hlength : ∀ es : List (Edit Line),
      ((es.map Edit.marked).filter fun l => l.1 ≠ .removed).length =
        (es.filterMap Edit.new?).length := by
    intro es
    induction es with
    | nil => rfl
    | cons e es ih => cases e <;> simpa [Edit.marked, Edit.new?, List.filterMap_cons] using ih
  exact hlength h.edits

theorem restores_newLines (h : KeepsSame ignoreBlanks es) :
    List.Forall₂ (Restores ignoreBlanks) ((es.map Edit.marked).filter fun l => l.1 ≠ .removed)
      ((es.filterMap Edit.new?).map Line.content) := by
  induction es with
  | nil => exact .nil
  | cons e es ih =>
    have hrest := ih fun x y hxy => h x y (List.mem_cons_of_mem _ hxy)
    cases e with
    | keep x y => exact .cons (h x y List.mem_cons_self) hrest
    | add y => exact .cons (by simp [Restores, Edit.marked]) hrest
    | remove x => exact hrest

theorem restores_kept (h : KeepsSame ignoreBlanks es) (hkept : ∀ e ∈ es, e.isKeep = true) :
    List.Forall₂ (Restores ignoreBlanks)
      (((es.filterMap Edit.old?).map Line.content).map (Prod.mk .context))
      ((es.filterMap Edit.new?).map Line.content) := by
  induction es with
  | nil => exact .nil
  | cons e es ih =>
    obtain ⟨he, hes⟩ := List.forall_mem_cons.mp hkept
    cases e with
    | keep x y =>
      exact .cons (h x y List.mem_cons_self)
        (ih (fun x y hxy => h x y (List.mem_cons_of_mem _ hxy)) hes)
    | add | remove => cases he

theorem KeepsSame.append {fs : List (Edit Line)} (h : KeepsSame ignoreBlanks (es ++ fs)) :
    KeepsSame ignoreBlanks es ∧ KeepsSame ignoreBlanks fs :=
  ⟨fun x y hxy => h x y (List.mem_append_left fs hxy),
    fun x y hxy => h x y (List.mem_append_right es hxy)⟩

theorem Cut.found (h : Cut old new es hs) :
    ∀ g ∈ hs, (((es.filterMap Edit.old?).map Line.content).drop (g.oldBefore - old)).take
      g.oldCount = g.patch.oldLines := by
  induction h with
  | rest => simp
  | @hunk old new kept rest h hs hkept hold hnew hrest hapart ih =>
    have hlength := length_old_of_kept hkept
    refine List.forall_mem_cons.mpr ⟨?_, fun g hg => ?_⟩
    · have hskip : h.oldBefore - old = ((kept.filterMap Edit.old?).map Line.content).length := by
        rw [List.length_map, hlength]
        omega
      have hcount : h.oldCount = ((h.edits.filterMap Edit.old?).map Line.content).length := by
        rw [List.length_map, Hunk.oldCount]
      rw [List.filterMap_append, List.map_append, hskip, List.drop_left, List.filterMap_append,
        List.map_append, hcount, List.take_left, oldLines_patch]
    · have hle := hrest.le_oldBefore g hg
      have hskip : g.oldBefore - old = ((kept.filterMap Edit.old?).map Line.content).length +
          (((h.edits.filterMap Edit.old?).map Line.content).length +
            (g.oldBefore - (h.oldBefore + h.oldCount))) := by
        rw [List.length_map, List.length_map, hlength, ← Hunk.oldCount]
        omega
      rw [List.filterMap_append, List.map_append, List.filterMap_append, List.map_append, hskip,
        List.drop_length_add_append, List.drop_length_add_append]
      exact ih g hg

theorem Cut.left (h : Cut old new es hs) (hsame : KeepsSame ignoreBlanks es) :
    ∀ g ∈ hs, List.Forall₂ (Restores ignoreBlanks) g.patch.newLines
      ((((es.filterMap Edit.new?).map Line.content).drop (g.newBefore - new)).take g.newCount) := by
  induction h with
  | rest => simp
  | @hunk old new kept rest h hs hkept hold hnew hrest hapart ih =>
    have hlength := length_new_of_kept hkept
    obtain ⟨-, htail⟩ := hsame.append
    obtain ⟨hedits, hafter⟩ := htail.append
    refine List.forall_mem_cons.mpr ⟨?_, fun g hg => ?_⟩
    · have hskip : h.newBefore - new = ((kept.filterMap Edit.new?).map Line.content).length := by
        rw [List.length_map, hlength]
        omega
      have hcount : h.newCount = ((h.edits.filterMap Edit.new?).map Line.content).length := by
        rw [List.length_map, Hunk.newCount]
      rw [List.filterMap_append, List.map_append, hskip, List.drop_left, List.filterMap_append,
        List.map_append, hcount, List.take_left]
      exact restores_newLines hedits
    · have hle := hrest.le_newBefore g hg
      have hskip : g.newBefore - new = ((kept.filterMap Edit.new?).map Line.content).length +
          (((h.edits.filterMap Edit.new?).map Line.content).length +
            (g.newBefore - (h.newBefore + h.newCount))) := by
        rw [List.length_map, List.length_map, hlength, ← Hunk.newCount]
        omega
      rw [List.filterMap_append, List.map_append, List.filterMap_append, List.map_append, hskip,
        List.drop_length_add_append, List.drop_length_add_append]
      exact ih hafter g hg

/-- Hunk by hunk: untouched lines are kept ones, and each hunk leaves what it shows. -/
theorem Cut.applied (h : Cut old new es hs) (hsame : KeepsSame ignoreBlanks es) :
    List.Forall₂ (Restores ignoreBlanks)
      (applyFrom old (hs.map Hunk.patch) ((es.filterMap Edit.old?).map Line.content))
      ((es.filterMap Edit.new?).map Line.content) := by
  induction h with
  | rest hkept => exact restores_kept hsame hkept
  | @hunk old new kept rest h hs hkept hold hnew hrest hapart ih =>
    obtain ⟨hbefore, htail⟩ := hsame.append
    obtain ⟨hedits, hafter⟩ := htail.append
    have hskip : h.patch.old.before - old =
        ((kept.filterMap Edit.old?).map Line.content).length := by
      rw [List.length_map, length_old_of_kept hkept]
      change h.oldBefore - old = _
      omega
    have hcount : h.patch.old.count =
        ((h.edits.filterMap Edit.old?).map Line.content).length := by
      rw [List.length_map]
      rfl
    simp only [List.map_cons, applyFrom, List.filterMap_append, List.map_append, hskip, hcount,
      List.take_left, List.drop_length_add_append, List.drop_left, List.append_assoc]
    rw [← hcount]
    exact List.rel_append (restores_kept hbefore hkept)
      (List.rel_append (restores_newLines hedits) (ih hafter))

end Applying

section Texts

variable {settings : Settings} {ignoreBlanks : Bool} {old new : String}

theorem textScript_old (ignoreBlanks : Bool) (old new : String) :
    (textScript ignoreBlanks old new).filterMap Edit.old? =
    (textLines old).map (Line.of ignoreBlanks) :=
  (scriptFrom_sides _ _ _ _).1

theorem textScript_new (ignoreBlanks : Bool) (old new : String) :
    (textScript ignoreBlanks old new).filterMap Edit.new? =
    (textLines new).map (Line.of ignoreBlanks) :=
  (scriptFrom_sides _ _ _ _).2

theorem contents_of (lines : List String) :
    (lines.map (Line.of ignoreBlanks)).map Line.content = lines := by
  rw [List.map_map]
  exact List.map_id'' (fun _ => rfl) lines

theorem textScript_keepsSame (ignoreBlanks : Bool) (old new : String) :
    KeepsSame ignoreBlanks (textScript ignoreBlanks old new) := by
  intro x y hxy
  have hx : x ∈ (textLines old).map (Line.of ignoreBlanks) := by
    rw [← textScript_old ignoreBlanks old new]
    exact List.mem_filterMap.mpr ⟨_, hxy, rfl⟩
  have hy : y ∈ (textLines new).map (Line.of ignoreBlanks) := by
    rw [← textScript_new ignoreBlanks old new]
    exact List.mem_filterMap.mpr ⟨_, hxy, rfl⟩
  obtain ⟨s, -, rfl⟩ := List.mem_map.mp hx
  obtain ⟨t, -, rfl⟩ := List.mem_map.mp hy
  have hsame : Line.same (Line.of ignoreBlanks s) (Line.of ignoreBlanks t) = true :=
    scriptFrom_keep hxy
  cases ignoreBlanks with
  | true | false => simpa [Line.same, Line.of, Restores] using hsame

theorem keys_of_kept {es : List (Edit Line)} (hkept : ∀ e ∈ es, e.isKeep = true)
    (hsame : ∀ x y, .keep x y ∈ es → x.key = y.key) :
    (es.filterMap Edit.old?).map Line.key = (es.filterMap Edit.new?).map Line.key := by
  induction es with
  | nil => rfl
  | cons e es ih =>
    obtain ⟨he, hes⟩ := List.forall_mem_cons.mp hkept
    have hrest := ih hes fun x y hxy => hsame x y (List.mem_cons_of_mem _ hxy)
    cases e with
    | keep x y =>
      simp only [List.filterMap_cons, Edit.old?, Edit.new?, List.map_cons, hrest,
        hsame x y List.mem_cons_self]
    | add | remove => cases he

/-- There are no hunks exactly when nothing that is compared differs. -/
theorem any_between : (Changes.between settings old new).any = false ↔
    comparedLines settings.ignoreBlanks old = comparedLines settings.ignoreBlanks new := by
  have hany : (Changes.between settings old new).any = false ↔
      hunks settings.context (textScript settings.ignoreBlanks old new) = [] := by
    simp [Changes.any, Changes.between]
  have hkeys : ∀ text, comparedLines settings.ignoreBlanks text =
      ((textLines text).map (Line.of settings.ignoreBlanks)).map Line.key := by
    intro text
    rw [List.map_map]
    rfl
  rw [hany, hkeys, hkeys]
  constructor
  · intro hnone
    have hcut := hunks_cut settings.context (textScript settings.ignoreBlanks old new)
    rw [hnone] at hcut
    rw [← textScript_old settings.ignoreBlanks old new,
      ← textScript_new settings.ignoreBlanks old new]
    refine keys_of_kept hcut.kept fun x y hxy => ?_
    simpa [Line.same] using scriptFrom_keep hxy
  · intro hequal
    have hsame : List.Forall₂ (fun x y => Line.same x y = true)
        ((textLines old).map (Line.of settings.ignoreBlanks))
        ((textLines new).map (Line.of settings.ignoreBlanks)) := by
      rw [← List.forall₂_eq_eq_eq, List.forall₂_map_left_iff, List.forall₂_map_right_iff] at hequal
      exact hequal.imp fun x y hxy => by simpa [Line.same] using hxy
    exact hunksFrom_kept (scriptFrom_same hsame)

theorem added_sub_removed : ((Changes.between settings old new).added : Int) -
    (Changes.between settings old new).removed =
      (textLines new).length - (textLines old).length := by
  have hcut := hunks_cut settings.context (textScript settings.ignoreBlanks old new)
  have hadded : (Changes.between settings old new).added =
      (textScript settings.ignoreBlanks old new).countP Edit.isAdd :=
    hcut.changes Edit.isAdd fun e he => by cases e <;> simp_all [Edit.isKeep, Edit.isAdd]
  have hremoved : (Changes.between settings old new).removed =
      (textScript settings.ignoreBlanks old new).countP Edit.isRemove :=
    hcut.changes Edit.isRemove fun e he => by cases e <;> simp_all [Edit.isKeep, Edit.isRemove]
  have hlengths := length_add_removed (textScript settings.ignoreBlanks old new)
  rw [textScript_old, textScript_new, List.length_map, List.length_map] at hlengths
  omega

theorem isPatch_between : IsPatch settings.ignoreBlanks (textLines old) (textLines new)
    ((Changes.between settings old new).hunks.map Hunk.patch) := by
  have hcut := hunks_cut settings.context (textScript settings.ignoreBlanks old new)
  have hsame := textScript_keepsSame settings.ignoreBlanks old new
  have hfound := hcut.found
  have hleft := hcut.left hsame
  have hresult := hcut.applied hsame
  rw [textScript_old, contents_of] at hfound hresult
  rw [textScript_new, contents_of] at hleft hresult
  simp only [Nat.sub_zero] at hfound hleft
  refine ⟨?_, ?_, ?_, ?_, hresult⟩
  · intro p hp
    obtain ⟨h, -, rfl⟩ := List.mem_map.mp hp
    refine ⟨?_, (length_newLines h).symm⟩
    rw [oldLines_patch, List.length_map]
    rfl
  · intro p hp
    obtain ⟨h, hh, rfl⟩ := List.mem_map.mp hp
    exact hfound h hh
  · intro p hp
    obtain ⟨h, hh, rfl⟩ := List.mem_map.mp hp
    exact hleft h hh
  · exact List.pairwise_map.mpr hcut.pairwise

theorem length_pieces (sep : Char) (cs : List Char) :
    (Text.pieces sep cs).length = cs.count sep + 1 := by
  induction cs with
  | nil => rfl
  | cons c cs ih =>
    rw [Text.pieces]
    by_cases hc : c = sep
    · simp [hc, ih]
    · rw [if_neg hc]
      cases hpieces : Text.pieces sep cs with
      | nil => simp [hpieces] at ih
      | cons p ps =>
        rw [hpieces] at ih
        simpa [List.count_cons, hc] using ih

theorem length_unifyPairs (cs : List Char) : (Text.unifyPairs cs).length ≤ cs.length := by
  fun_induction Text.unifyPairs cs with
  | case1 => exact Nat.le_refl 0
  | case2 | case3 =>
    simp only [List.length_cons]
    omega

/-- Dropping a separator from the end leaves room for one piece more than separators. -/
theorem count_withoutSuffix {sep : Char} {cs : List Char} (h : cs ≠ []) :
    (Text.withoutSuffix [sep] cs).count sep + 1 ≤ cs.length := by
  have hpositive : 0 < cs.length := List.length_pos_iff.mpr h
  unfold Text.withoutSuffix
  split
  · have hcount : (cs.take (cs.length - [sep].length)).count sep ≤ cs.length - 1 := by
      have htake : (cs.take (cs.length - [sep].length)).length = cs.length - 1 := by simp
      rw [← htake]
      exact List.count_le_length
    omega
  · rename_i hsuffix
    -- the last character is another one
    have hlast : cs.getLast h ≠ sep := by
      rintro rfl
      exact hsuffix (List.isSuffixOf_iff_suffix.mpr
        ⟨cs.dropLast, List.dropLast_append_getLast h⟩)
    have hcount : cs.count sep = cs.dropLast.count sep := by
      conv_lhs => rw [← List.dropLast_append_getLast h]
      simp [hlast]
    have hle : cs.dropLast.count sep ≤ cs.dropLast.length := List.count_le_length
    rw [List.length_dropLast] at hle
    omega

/-- A text has at most as many lines as characters. -/
theorem length_textLines (text : String) : (textLines text).length ≤ text.length := by
  unfold textLines
  split
  · exact Nat.zero_le _
  · rename_i htext
    have hne : Text.unifyPairs text.toList ≠ [] := by
      intro hnil
      have hchars : text.toList ≠ [] := by simpa using htext
      unfold Text.unifyPairs at hnil
      split at hnil
      · contradiction
      · cases hnil
      · cases hnil
    calc
      _ = (Text.withoutSuffix ['\n'] (Text.unifyPairs text.toList)).count '\n' + 1 := by
        rw [List.length_map, length_pieces]
      _ ≤ (Text.unifyPairs text.toList).length := count_withoutSuffix hne
      _ ≤ text.length := by
        rw [← String.length_toList]
        exact length_unifyPairs _

/-- Kept lines come from both texts, so their number leaves room for the context. -/
theorem hasReach_of_small (hcontext : 2 * settings.context < Nat.pow 2 63)
    (htexts : old.length + new.length < Nat.pow 2 63) :
    hasReach settings.context (textScript settings.ignoreBlanks old new) = true := by
  have hlead : ∀ f : Edit Line → Option Line, (∀ e, e.isKeep = true → (f e).isSome = true) →
      ((textScript settings.ignoreBlanks old new).takeWhile Edit.isKeep).length ≤
        ((textScript settings.ignoreBlanks old new).filterMap f).length := by
    intro f hf
    generalize textScript settings.ignoreBlanks old new = es
    induction es with
    | nil => exact Nat.le_refl 0
    | cons e es ih =>
      rw [List.takeWhile_cons]
      split
      · rename_i hkeep
        obtain ⟨x, hx⟩ := Option.isSome_iff_exists.mp (hf e hkeep)
        rw [List.filterMap_cons_some hx, List.length_cons, List.length_cons]
        omega
      · exact Nat.zero_le _
  have hold := hlead Edit.old? fun e he => by cases e <;> simp_all [Edit.isKeep, Edit.old?]
  have hnew := hlead Edit.new? fun e he => by cases e <;> simp_all [Edit.isKeep, Edit.new?]
  rw [textScript_old, List.length_map] at hold
  rw [textScript_new, List.length_map] at hnew
  have holdLines := length_textLines old
  have hnewLines := length_textLines new
  have hsmall : ((textScript settings.ignoreBlanks old new).takeWhile Edit.isKeep).length +
      settings.context + 1 < Nat.pow 2 63 := by
    have hword : Nat.pow 2 63 = 9223372036854775808 := by decide
    omega
  simp only [hasReach, hsmall, decide_true, Bool.or_true]

/-- The changes between two texts, printed and read back, are a patch from the lines of the one to
the lines of the other. None are shown exactly when nothing that is compared differs, and the lines
added less those removed make up the difference in length. They are always found, but for texts
that no memory holds. -/
theorem printed_changes_are_a_patch (settings : Settings) (old new : String)
    (hcontext : 2 * settings.context < Nat.pow 2 63) :
    (old.length + new.length < Nat.pow 2 63 →
        (Changes.between? settings old new).isSome = true) ∧
      ∀ changes, Changes.between? settings old new = some changes →
        (∃ patch, changes.hunks.mapM (fun h => readHunk h.lines) = some patch ∧
            IsPatch settings.ignoreBlanks (textLines old) (textLines new) patch) ∧
          (changes.any = false ↔ comparedLines settings.ignoreBlanks old =
            comparedLines settings.ignoreBlanks new) ∧
          (changes.added : Int) - changes.removed =
            (textLines new).length - (textLines old).length := by
  refine ⟨fun htexts => ?_, fun changes hchanges => ?_⟩
  · simp [Changes.between?, hasReach_of_small hcontext htexts]
  · unfold Changes.between? at hchanges
    split at hchanges
    · cases hchanges
      refine ⟨⟨_, ?_, isPatch_between⟩, any_between, added_sub_removed⟩
      simp only [readHunk_lines]
      exact List.mapM_pure
    · cases hchanges

/-- A line that lost its blanks is context, a reworded one is removed and added. -/
theorem reworded_line_patch :
    2 * 1 < Nat.pow 2 63 ∧ "a\nb \nc".length + "a\nb\nd".length < Nat.pow 2 63 ∧
      ∃ changes patch, Changes.between? ⟨1, true⟩ "a\nb \nc" "a\nb\nd" = some changes ∧
        changes.any = true ∧ changes.hunks.mapM (fun h => readHunk h.lines) = some patch ∧
        IsPatch true ["a", "b ", "c"] ["a", "b", "d"] patch := by
  have hcontext : 2 * (⟨1, true⟩ : Settings).context < Nat.pow 2 63 := by decide
  have htexts : "a\nb \nc".length + "a\nb\nd".length < Nat.pow 2 63 := by decide
  obtain ⟨hfound, hpatch⟩ :=
    printed_changes_are_a_patch ⟨1, true⟩ "a\nb \nc" "a\nb\nd" hcontext
  obtain ⟨changes, hchanges⟩ := Option.isSome_iff_exists.mp (hfound htexts)
  obtain ⟨⟨patch, hread, hisPatch⟩, hany, -⟩ := hpatch changes hchanges
  have hdiffer : comparedLines true "a\nb \nc" ≠ comparedLines true "a\nb\nd" := by decide
  refine ⟨hcontext, htexts, changes, patch, hchanges, ?_, hread, hisPatch⟩
  rw [← Bool.not_eq_false, hany]
  exact hdiffer

end Texts

end DartLowering.Diff
