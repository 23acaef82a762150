import DartLowering.Proofs.SplitTexts
import DartLowering.Source.Path
import Mathlib.Data.List.Infix
import Mathlib.Data.List.TakeWhile

/-!
The elements of paths. A path names a list of elements in which parent references stand first, and
only in paths that do not begin at the root. Cleaning a path keeps its elements, the directory of a
path has all of them but the last, and the elements are no longer than the path.
-/
namespace DartLowering.Path

section Elements

/-- Elements that mean a place: no names that mean nothing, and parent references only where nothing
else comes before them. The latest element is the first of the list. -/
structure Stacked (rooted : Bool) (stack : List String) : Prop where
  named : ∀ e ∈ stack, e ≠ "" ∧ e ≠ "." ∧ '/' ∉ e.toList
  upward : stack.Pairwise fun later earlier => later = ".." → earlier = ".."
  below : rooted = true → ".." ∉ stack

variable {rooted : Bool} {stack : List String} {e : String}

theorem stacked_nil : Stacked rooted [] :=
  ⟨List.forall_mem_nil _, List.Pairwise.nil, fun _ => List.not_mem_nil⟩

theorem Stacked.of_suffix {top : List String} (h : Stacked rooted (top ++ stack)) :
    Stacked rooted stack where
  named := (List.forall_mem_append.mp h.named).2
  upward := (List.pairwise_append.mp h.upward).2.1
  below hrooted hmem := h.below hrooted (List.mem_append_right top hmem)

theorem pushElement_nothing (h : e = "" ∨ e = ".") : pushElement rooted stack e = stack :=
  if_pos (by simpa using h)

theorem pushElement_name (hempty : e ≠ "") (hdot : e ≠ ".") (hup : e ≠ "..") :
    pushElement rooted stack e = e :: stack := by
  simp [pushElement, hempty, hdot, hup]

theorem pushElement_up : pushElement rooted stack ".." =
    if stack.head?.getD ".." = ".." then (if rooted && stack.isEmpty then [] else ".." :: stack)
    else stack.tail := by
  cases stack with
  | nil => cases rooted <;> rfl
  | cons last rest => simp [pushElement]

/-- Nothing but parent references stands below one. -/
theorem Stacked.all_up (h : Stacked rooted stack) (htop : stack.head?.getD ".." = "..") :
    ∀ e ∈ stack, e = ".." := by
  cases stack with
  | nil => exact List.forall_mem_nil _
  | cons last rest =>
    have hlast : last = ".." := htop
    refine List.forall_mem_cons.mpr ⟨hlast, fun e he => ?_⟩
    exact (List.pairwise_cons.mp h.upward).1 e he hlast

theorem Stacked.cons_up (h : Stacked rooted stack) (hall : ∀ e ∈ stack, e = "..")
    (hrooted : rooted = false) : Stacked rooted (".." :: stack) where
  named := List.forall_mem_cons.mpr ⟨by decide, h.named⟩
  upward := List.pairwise_cons.mpr ⟨fun e he _ => hall e he, h.upward⟩
  below hbelow := absurd hbelow (by simp [hrooted])

theorem Stacked.push (h : Stacked rooted stack) (hslash : '/' ∉ e.toList) :
    Stacked rooted (pushElement rooted stack e) := by
  by_cases hnothing : e = "" ∨ e = "."
  · rw [pushElement_nothing hnothing]
    exact h
  · obtain ⟨hempty, hdot⟩ := not_or.mp hnothing
    by_cases hup : e = ".."
    · rw [hup, pushElement_up]
      split
      · rename_i htop
        split
        · exact stacked_nil
        · rename_i hsome
          have hall := h.all_up htop
          refine h.cons_up hall ?_
          cases stack with
          | nil => simpa using hsome
          | cons last rest =>
            have hlast : last = ".." := htop
            rw [← Bool.not_eq_true]
            exact fun hrooted => h.below hrooted (hlast ▸ List.mem_cons_self)
      · cases stack with
        | nil => exact h
        | cons last rest =>
          have hparts : Stacked rooted ([last] ++ rest) := h
          exact hparts.of_suffix
    · rw [pushElement_name hempty hdot hup]
      refine ⟨List.forall_mem_cons.mpr ⟨⟨hempty, hdot, hslash⟩, h.named⟩, ?_, ?_⟩
      · exact List.pairwise_cons.mpr ⟨fun _ _ heq => absurd heq hup, h.upward⟩
      · intro hrooted hmem
        rcases List.mem_cons.mp hmem with heq | hmem
        · exact hup heq.symm
        · exact h.below hrooted hmem

theorem Stacked.foldl (h : Stacked rooted stack) {names : List String}
    (hnames : ∀ n ∈ names, '/' ∉ n.toList) :
    Stacked rooted (names.foldl (pushElement rooted) stack) := by
  induction names generalizing stack with
  | nil => exact h
  | cons name names ih =>
    obtain ⟨hname, hrest⟩ := List.forall_mem_cons.mp hnames
    exact ih (h.push hname) hrest

/-- Names that mean a place are taken as they are. -/
theorem Stacked.push_eq (h : Stacked rooted (e :: stack)) :
    pushElement rooted stack e = e :: stack := by
  obtain ⟨⟨hempty, hdot, -⟩, -⟩ := List.forall_mem_cons.mp h.named
  by_cases hup : e = ".."
  · subst hup
    have hall : ∀ e ∈ stack, e = ".." :=
      fun e he => (List.pairwise_cons.mp h.upward).1 e he rfl
    have hrooted : ¬rooted = true := fun hrooted => h.below hrooted List.mem_cons_self
    have htop : stack.head?.getD ".." = ".." := by
      cases stack with
      | nil => rfl
      | cons last rest => exact hall last List.mem_cons_self
    rw [pushElement_up, if_pos htop, if_neg (by simp [hrooted])]
  · exact pushElement_name hempty hdot hup

theorem Stacked.foldl_eq {names : List String} (h : Stacked rooted (names.reverse ++ stack)) :
    names.foldl (pushElement rooted) stack = names.reverse ++ stack := by
  induction names generalizing stack with
  | nil => rfl
  | cons name names ih =>
    rw [List.reverse_cons, List.append_assoc, List.singleton_append] at h ⊢
    rw [List.foldl_cons, h.of_suffix.push_eq, ih h]

end Elements

section Cleaning

theorem isRooted_iff {path : String} : isRooted path = true ↔ ∃ cs, path.toList = '/' :: cs := by
  unfold isRooted
  split
  · rename_i cs heq
    exact ⟨fun _ => ⟨cs, heq⟩, fun _ => rfl⟩
  · rename_i hnot
    exact ⟨fun h => Bool.noConfusion h, fun ⟨cs, heq⟩ => absurd heq (hnot cs)⟩

theorem isRooted_append {s : String} (hs : s ≠ "") (t : String) :
    isRooted (s ++ t) = isRooted s := by
  have hchars : s.toList ≠ [] := by simpa using hs
  obtain ⟨c, cs, hcs⟩ := List.exists_cons_of_ne_nil hchars
  rw [Bool.eq_iff_iff, isRooted_iff, isRooted_iff, String.toList_append, hcs]
  simp

theorem isRooted_of_not_mem {s : String} (h : '/' ∉ s.toList) : isRooted s = false := by
  rw [← Bool.not_eq_true, isRooted_iff]
  rintro ⟨cs, hcs⟩
  exact h (hcs ▸ List.mem_cons_self)

def spelled (rooted : Bool) (elements : List String) : String :=
  (if rooted then "/" else "") ++ Text.join "/" elements

theorem stacked_elements (path : String) : Stacked (isRooted path) (elements path).reverse := by
  rw [elements, List.reverse_reverse]
  exact stacked_nil.foldl fun n hn => Text.not_mem_of_mem_split hn

variable {rooted : Bool} {es : List String}

theorem Stacked.not_mem (h : Stacked rooted es.reverse) : ∀ e ∈ es, '/' ∉ e.toList :=
  fun e he => (h.named e (List.mem_reverse.mpr he)).2.2

theorem Stacked.isRooted_join (h : Stacked rooted es.reverse) :
    isRooted (Text.join "/" es) = false := by
  cases es with
  | nil => rfl
  | cons e es =>
    have he := h.named e (List.mem_reverse.mpr List.mem_cons_self)
    cases es with
    | nil => simpa [Text.join] using isRooted_of_not_mem he.2.2
    | cons f fs =>
      have hjoin : Text.join "/" (e :: f :: fs) = e ++ ("/" ++ Text.join "/" (f :: fs)) := by
        simp [Text.join, String.intercalate_cons_cons, String.append_assoc]
      rw [hjoin, isRooted_append he.1]
      exact isRooted_of_not_mem he.2.2

theorem Stacked.isRooted_spelled (h : Stacked rooted es.reverse) :
    isRooted (spelled rooted es) = rooted := by
  cases rooted with
  | true =>
    rw [isRooted_iff]
    exact ⟨_, by simp [spelled]; rfl⟩
  | false => simpa [spelled] using h.isRooted_join

theorem Stacked.split_spelled (h : Stacked rooted es.reverse) (hes : es ≠ []) :
    Text.split '/' (spelled rooted es) = (if rooted then [""] else []) ++ es := by
  have hjoin : Text.split '/' (Text.join "/" es) = es := Text.split_join hes h.not_mem
  cases rooted with
  | true =>
    have hroot : spelled true es = "" ++ String.singleton '/' ++ Text.join "/" es := rfl
    rw [hroot, Text.split_append, hjoin]
    rfl
  | false => simpa [spelled] using hjoin

/-- The names of a spelled path push its elements. -/
theorem Stacked.foldl_elements (h : Stacked rooted es.reverse) :
    ((if rooted then [""] else []) ++ es).foldl (pushElement rooted) [] = es.reverse := by
  have hstack : Stacked rooted (es.reverse ++ []) := (List.append_nil _).symm ▸ h
  have hfold : es.foldl (pushElement rooted) [] = es.reverse := by
    rw [hstack.foldl_eq, List.append_nil]
  cases rooted with
  | true =>
    rw [if_pos rfl, List.singleton_append, List.foldl_cons, pushElement_nothing (.inl rfl), hfold]
  | false => rw [if_neg Bool.false_ne_true, List.nil_append, hfold]

theorem Stacked.elements_spelled (h : Stacked rooted es.reverse) :
    elements (spelled rooted es) = es := by
  by_cases hes : es = []
  · subst hes
    cases rooted <;> rfl
  · rw [elements, h.isRooted_spelled, h.split_spelled hes, h.foldl_elements, List.reverse_reverse]

/-- One more element is spelled behind a slash, unless it is the first. -/
theorem Stacked.spelled_concat {name : String} (h : Stacked rooted (es ++ [name]).reverse) :
    (if spelled rooted es = "" || spelled rooted es = "/" then spelled rooted es ++ name
      else spelled rooted es ++ "/" ++ name) = spelled rooted (es ++ [name]) := by
  by_cases hes : es = []
  · subst hes
    cases rooted <;> simp [spelled, Text.join]
  · have hstacked : Stacked rooted es.reverse := by
      rw [List.reverse_append, List.reverse_singleton] at h
      exact h.of_suffix
    have hshort : ∀ s, elements s = [] → spelled rooted es ≠ s := by
      rintro s hs rfl
      exact hes (hstacked.elements_spelled.symm.trans hs)
    have hempty := hshort "" rfl
    have hroot := hshort "/" rfl
    rw [if_neg (by simp [hempty, hroot]), spelled, spelled, Text.join_concat "/" hes,
      String.append_assoc, String.append_assoc, String.append_assoc]

/-- A clean path is the one that its elements spell, unless it means the place itself. -/
theorem clean_cases (path : String) : clean path = spelled (isRooted path) (elements path) ∨
    isRooted path = false ∧ elements path = [] ∧ clean path = "." := by
  unfold clean spelled
  cases hrooted : isRooted path with
  | true => exact .inl rfl
  | false =>
    simp only [Bool.false_eq_true, if_false, String.empty_append]
    by_cases hinner : (Text.join "/" (elements path)).isEmpty = true
    · by_cases helements : elements path = []
      · rw [if_pos hinner]
        exact .inr ⟨trivial, helements, rfl⟩
      · have hsplit := Text.split_join helements (stacked_elements path).not_mem
        have hempty : Text.join "/" (elements path) = "" := by simpa using hinner
        have hjoin : Text.split '/' (Text.join "/" (elements path)) = elements path := hsplit
        rw [hempty] at hjoin
        have hone := (stacked_elements path).named "" (by rw [← hjoin]; decide)
        exact absurd rfl hone.1
    · rw [if_neg hinner]
      exact .inl rfl

theorem elements_clean (path : String) : elements (clean path) = elements path := by
  rcases clean_cases path with h | ⟨-, hnone, h⟩
  · rw [h, (stacked_elements path).elements_spelled]
  · rw [h, hnone]
    rfl

theorem isRooted_clean (path : String) : isRooted (clean path) = isRooted path := by
  rcases clean_cases path with h | ⟨hrooted, -, h⟩
  · rw [h, (stacked_elements path).isRooted_spelled]
  · rw [h, hrooted]
    rfl

/-- A path of more than one name is cut at its last slash. -/
theorem cut_last (path : String) : '/' ∉ path.toList ∨
    ∃ before last : String, path = before ++ "/" ++ last ∧ '/' ∉ last.toList := by
  by_cases h : '/' ∈ path.toList
  · obtain ⟨after, before, hcut, hafter⟩ := List.eq_append_cons_of_mem (List.mem_reverse.mpr h)
    refine .inr ⟨String.ofList before.reverse, String.ofList after.reverse, ?_, ?_⟩
    · have hpath := congrArg List.reverse hcut
      rw [List.reverse_reverse] at hpath
      rw [← String.toList_inj, hpath]
      simp
    · simpa using hafter
  · exact .inl h

theorem ne_of_not_mem {c : Char} {cs : List Char} (h : c ∉ cs) :
    ∀ x ∈ cs, decide (x ≠ c) = true := by
  intro x hx
  rw [decide_eq_true_eq]
  rintro rfl
  exact h hx

theorem directory_append {before last : String} (h : '/' ∉ last.toList) :
    directory (before ++ "/" ++ last) = clean (before ++ "/") := by
  have hlast := ne_of_not_mem (mt List.mem_reverse.mp h)
  have hdrop : (before ++ "/" ++ last).toList.reverse.dropWhile (· ≠ '/') =
      (before ++ "/").toList.reverse := by
    rw [String.toList_append, List.reverse_append, List.dropWhile_append_of_pos hlast]
    simp
  rw [directory, hdrop, List.reverse_reverse, String.ofList_toList]

theorem directory_of_not_mem {path : String} (h : '/' ∉ path.toList) : directory path = "." := by
  have hdrop : path.toList.reverse.dropWhile (· ≠ '/') = [] :=
    List.dropWhile_eq_nil_iff.mpr (ne_of_not_mem (mt List.mem_reverse.mp h))
  rw [directory, hdrop]
  rfl

/-- The directory of a path has the elements of all names but the last. -/
theorem elements_directory (path : String) : elements (directory path) =
    ((Text.split '/' path).dropLast.foldl (pushElement (isRooted path)) []).reverse := by
  rcases cut_last path with h | ⟨before, last, rfl, hlast⟩
  · rw [directory_of_not_mem h, Text.split_of_not_mem h]
    rfl
  · have hrooted : isRooted (before ++ "/" ++ last) = isRooted (before ++ "/") := by
      exact isRooted_append (by simp) last
    have hwhole : Text.split '/' (before ++ "/" ++ last) = Text.split '/' before ++ [last] := by
      rw [← Text.split_of_not_mem hlast]
      exact Text.split_append '/' before last
    have hfront : Text.split '/' (before ++ "/") = Text.split '/' before ++ [""] := by
      have hsplit := Text.split_append '/' before ""
      rwa [String.append_empty] at hsplit
    rw [directory_append hlast, elements_clean, elements, hfront, hwhole, hrooted,
      List.dropLast_concat, List.foldl_append]
    rfl

theorem isRooted_directory (path : String) : isRooted (directory path) = isRooted path := by
  rcases cut_last path with h | ⟨before, last, rfl, hlast⟩
  · rw [directory_of_not_mem h, isRooted_of_not_mem h]
    rfl
  · rw [directory_append hlast, isRooted_clean]
    exact (isRooted_append (by simp) last).symm

/-- A name that means no other place adds itself to the elements. -/
theorem elements_append {before name : String} (hbefore : before ≠ "") (hslash : '/' ∉ name.toList)
    (hname : name ≠ "" ∧ name ≠ "." ∧ name ≠ "..") :
    elements (before ++ "/" ++ name) = elements before ++ [name] := by
  have hrooted : isRooted (before ++ "/" ++ name) = isRooted before := by
    rw [String.append_assoc]
    exact isRooted_append hbefore _
  have hsplit : Text.split '/' (before ++ "/" ++ name) = Text.split '/' before ++ [name] := by
    rw [← Text.split_of_not_mem hslash]
    exact Text.split_append '/' before name
  rw [elements, hsplit, hrooted, List.foldl_append, List.foldl_cons, List.foldl_nil,
    pushElement_name hname.1 hname.2.1 hname.2.2, List.reverse_cons]
  rfl

end Cleaning

section Sizes

theorem mem_pushElement {rooted : Bool} {stack : List String} {e f : String}
    (h : f ∈ pushElement rooted stack e) : f ∈ stack ∨ f = e := by
  by_cases hnothing : e = "" ∨ e = "."
  · rw [pushElement_nothing hnothing] at h
    exact .inl h
  · obtain ⟨hempty, hdot⟩ := not_or.mp hnothing
    by_cases hup : e = ".."
    · rw [hup, pushElement_up] at h
      split at h
      · split at h
        · cases h
        · rw [hup]
          exact (List.mem_cons.mp h).symm
      · exact .inl (List.mem_of_mem_tail h)
    · rw [pushElement_name hempty hdot hup] at h
      exact (List.mem_cons.mp h).symm

theorem mem_foldl_pushElement {rooted : Bool} {names stack : List String} {f : String}
    (h : f ∈ names.foldl (pushElement rooted) stack) : f ∈ stack ∨ f ∈ names := by
  induction names generalizing stack with
  | nil => exact .inl h
  | cons name names ih =>
    rcases ih h with hstack | hnames
    · rcases mem_pushElement hstack with hold | rfl
      · exact .inl hold
      · exact .inr List.mem_cons_self
    · exact .inr (List.mem_cons_of_mem name hnames)

theorem weight_pushElement (rooted : Bool) (stack : List String) (e : String) :
    Text.weight (pushElement rooted stack e) ≤ Text.weight stack + (e.utf8ByteSize + 1) := by
  by_cases hnothing : e = "" ∨ e = "."
  · rw [pushElement_nothing hnothing]
    omega
  · obtain ⟨hempty, hdot⟩ := not_or.mp hnothing
    by_cases hup : e = ".."
    · rw [hup, pushElement_up]
      split
      · split
        · exact Nat.zero_le _
        · rw [Text.weight_cons]
          omega
      · cases stack with
        | nil => exact Nat.zero_le _
        | cons last rest =>
          rw [List.tail_cons, Text.weight_cons]
          omega
    · rw [pushElement_name hempty hdot hup, Text.weight_cons]
      omega

theorem weight_foldl_pushElement (rooted : Bool) (names stack : List String) :
    Text.weight (names.foldl (pushElement rooted) stack) ≤
      Text.weight stack + Text.weight names := by
  induction names generalizing stack with
  | nil => exact Nat.le_refl _
  | cons name names ih =>
    have hpush := weight_pushElement rooted stack name
    have hrest := ih (pushElement rooted stack name)
    rw [List.foldl_cons, Text.weight_cons]
    omega

end Sizes

end DartLowering.Path
