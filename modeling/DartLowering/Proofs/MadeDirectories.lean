import DartLowering.Proofs.DirectoryAccess

/-!
Making the directories of a path. They are made one after another up to the first that cannot be
made, and whether one can is decided by its path and by the files that stand in the way. So two runs
that see the same files end alike, whatever directories were there before, and nothing is made where
a path can already be followed.
-/
namespace DartLowering.Directory

open DartLowering.Path

section Ways

variable {d : Directory} {here q : Place} {path name : String} {names : List String}

def Grounded (d : Directory) (q : Place) : Prop := ∀ r, r <+: q → r ≠ q → d.find? r = some .folder

theorem find?_of_all_up (h : ∀ e ∈ q, e = "..") : d.find? q = some .folder := by
  refine if_pos ?_
  rw [isAbove, Bool.or_eq_true]
  refine .inl (List.all_eq_true.mpr fun e he => ?_)
  exact decide_eq_true (h e he)

theorem Grounded.next (h : d.Grounded here) (hhere : d.find? here = some .folder) (name : String) :
    d.Grounded (next here name) := by
  unfold Directory.next
  split
  · exact h
  · split
    · unfold parent
      split
      · exact h
      · split
        · rename_i hups
          intro r hr _
          refine find?_of_all_up fun e he => ?_
          rcases List.mem_append.mp (hr.subset he) with he | he
          · exact of_decide_eq_true (List.all_eq_true.mp hups e he)
          · exact List.mem_singleton.mp he
        · rename_i hother
          intro r hr _
          refine h r (hr.trans (List.dropLast_prefix here)) ?_
          rintro rfl
          have hsome : r ≠ [] := by
            rintro rfl
            exact hother rfl
          have hlength := hr.length_le
          have hpos := List.length_pos_iff.mpr hsome
          rw [List.length_dropLast] at hlength
          omega
    · intro r hr hne
      rcases List.prefix_concat_iff.mp hr with heq | hr
      · exact absurd heq hne
      · by_cases heq : r = here
        · rw [heq]
          exact hhere
        · exact h r hr heq

theorem Grounded.foldl (h : d.Grounded here) (hopens : d.Opens here names) :
    d.Grounded (names.foldl Directory.next here) := by
  induction names generalizing here with
  | nil => exact h
  | cons name names ih => exact ih (h.next hopens.1 name) hopens.2.2

theorem grounded_root (d : Directory) (rooted : Bool) : d.Grounded (root rooted) := by
  intro r hr hne
  cases rooted with
  | false => exact absurd (List.prefix_nil.mp hr) hne
  | true =>
    rcases List.prefix_concat_iff.mp (show r <+: [] ++ ["/"] from hr) with heq | hr
    · exact absurd heq hne
    · rw [List.prefix_nil.mp hr]
      exact find?_of_all_up (List.forall_mem_nil _)

theorem Reaches.grounded (h : d.Reaches path) : d.Grounded (place path) := by
  have hstart := grounded_root d (isRooted path)
  rw [← foldl_next_split]
  exact hstart.foldl h.opens

end Ways

section Steps

variable {d e : Directory} {rooted : Bool} {es pre names : List String} {name : String}

theorem foldl_next_elements (h : Stacked rooted es.reverse) :
    es.foldl next (root rooted) = root rooted ++ es := by
  have hempty : Stacked rooted [] := stacked_nil
  have hfold := foldl_next hempty h.not_mem
  have hstack : Stacked rooted (es.reverse ++ []) := (List.append_nil _).symm ▸ h
  rwa [List.reverse_nil, List.append_nil, hstack.foldl_eq, List.append_nil,
    List.reverse_reverse] at hfold

theorem place_spelled (h : Stacked rooted es.reverse) :
    place (spelled rooted es) = root rooted ++ es := by
  rw [place, h.isRooted_spelled, h.elements_spelled]

theorem follow_append {here : Place} (h : d.Opens here names) (more : List String) :
    d.follow here (names ++ more) = d.follow (names.foldl next here) more := by
  induction names generalizing here with
  | nil => rfl
  | cons name names ih =>
    rw [List.cons_append, follow_of_folder h.1, if_neg (Nat.not_lt.mpr h.2.1), ih h.2.2,
      List.foldl_cons]

/-- The elements of a spelled path are followed from its root. -/
theorem follow_spelled (h : Stacked rooted es.reverse) (hes : es ≠ []) :
    d.follow (start (spelled rooted es)) (Text.split '/' (spelled rooted es)) =
      d.follow (root rooted) es := by
  rw [start, h.isRooted_spelled, h.split_spelled hes]
  cases rooted with
  | false => rfl
  | true =>
    have hroot : d.find? ["/"] = some .folder := rfl
    exact follow_of_folder hroot "" es

/-- Why a directory of these elements cannot be made, whatever stands there. -/
def barrier? (rooted : Bool) (es : List String) : Option AccessFault :=
  match checkPath (spelled rooted es) with
  | .error fault => some fault
  | .ok () => if longestName < (es.getLast?.getD "").utf8ByteSize then some .nameTooLong else none

/-- The directories on the way to the last of the elements are there. -/
structure Leads (d : Directory) (rooted : Bool) (es : List String) : Prop where
  opens : d.Opens (root rooted) es
  folder : d.find? (root rooted ++ es) = some .folder

theorem spelled_ne_empty (h : Stacked rooted es.reverse) (hes : es ≠ []) :
    spelled rooted es ≠ "" := by
  intro hempty
  have helements := h.elements_spelled
  rw [hempty] at helements
  exact hes helements.symm

theorem checkPath_ne_notFound {path : String} (h : path ≠ "") :
    checkPath path ≠ .error .notFound := by
  rw [checkPath, if_neg h]
  split
  · simp
  · split
    · simp
    · simp

theorem stacked_front (h : Stacked rooted (pre ++ [name]).reverse) :
    Stacked rooted pre.reverse := by
  rw [List.reverse_append, List.reverse_singleton] at h
  exact h.of_suffix

theorem follow_leads (h : Stacked rooted (pre ++ [name]).reverse) (hleads : d.Leads rooted pre) :
    d.follow (start (spelled rooted (pre ++ [name])))
      (Text.split '/' (spelled rooted (pre ++ [name]))) =
      if longestName < name.utf8ByteSize then .error .nameTooLong
        else .ok (root rooted ++ (pre ++ [name])) := by
  have hnext : next (root rooted ++ pre) name = root rooted ++ (pre ++ [name]) := by
    rw [← foldl_next_elements h, List.foldl_append, foldl_next_elements (stacked_front h)]
    rfl
  rw [follow_spelled h (by simp), follow_append hleads.opens, foldl_next_elements (stacked_front h),
    follow_of_folder hleads.folder, hnext]
  rfl

theorem entry_of_barrier {fault : AccessFault} (h : Stacked rooted (pre ++ [name]).reverse)
    (hleads : d.Leads rooted pre) (hbarrier : barrier? rooted (pre ++ [name]) = some fault) :
    d.entry (spelled rooted (pre ++ [name])) = .error fault ∧ fault ≠ .notFound := by
  have hnonempty := spelled_ne_empty h (by simp)
  unfold barrier? at hbarrier
  unfold Directory.entry
  cases hcheck : checkPath (spelled rooted (pre ++ [name])) with
  | error fault' =>
    rw [hcheck] at hbarrier
    cases hbarrier
    refine ⟨rfl, ?_⟩
    rintro rfl
    exact checkPath_ne_notFound hnonempty hcheck
  | ok valid =>
    rw [hcheck, List.getLast?_concat, Option.getD_some] at hbarrier
    dsimp only at hbarrier
    rw [follow_leads h hleads]
    by_cases hlong : longestName < name.utf8ByteSize
    · rw [if_pos hlong] at hbarrier ⊢
      cases hbarrier
      exact ⟨rfl, by decide⟩
    · rw [if_neg hlong] at hbarrier
      cases hbarrier

theorem reaches_of_no_barrier (h : Stacked rooted (pre ++ [name]).reverse)
    (hleads : d.Leads rooted pre) (hbarrier : barrier? rooted (pre ++ [name]) = none) :
    d.Reaches (spelled rooted (pre ++ [name])) ∧ d.Opens (root rooted) (pre ++ [name]) := by
  unfold barrier? at hbarrier
  cases hcheck : checkPath (spelled rooted (pre ++ [name])) with
  | error fault =>
    rw [hcheck] at hbarrier
    cases hbarrier
  | ok valid =>
    rw [hcheck, List.getLast?_concat, Option.getD_some] at hbarrier
    dsimp only at hbarrier
    by_cases hlong : longestName < name.utf8ByteSize
    · rw [if_pos hlong] at hbarrier
      cases hbarrier
    · have hfollow := follow_leads h hleads
      rw [if_neg hlong] at hfollow
      refine ⟨⟨hcheck, (follow_eq_ok.mp hfollow).1⟩, ?_⟩
      rw [follow_spelled h (by simp)] at hfollow
      exact (follow_eq_ok.mp hfollow).1

def isFile (d : Directory) (q : Place) : Bool :=
  match d.find? q with
  | some (.file _) => true
  | _ => false

theorem isFile_iff {q : Place} :
    d.isFile q = true ↔ ∃ content, d.find? q = some (.file content) := by
  unfold isFile
  split
  · rename_i content hfind
    exact ⟨fun _ => ⟨content, hfind⟩, fun _ => rfl⟩
  · rename_i hother
    exact ⟨fun h => Bool.noConfusion h, fun ⟨content, hfind⟩ => absurd hfind (hother content)⟩

/-- Why a directory of these elements cannot be made when those before it are there. -/
def fault? (d : Directory) (rooted : Bool) (es : List String) : Option AccessFault :=
  match barrier? rooted es with
  | some fault => some fault
  | none => if d.isFile (root rooted ++ es) then some .notDirectory else none

theorem fault?_eq_none : d.fault? rooted es = none ↔
    barrier? rooted es = none ∧ d.isFile (root rooted ++ es) = false := by
  unfold fault?
  cases barrier? rooted es with
  | some | none => simp

/-- How far directories can be made from the elements `pre` on: the places where they stand then,
and what stops at the next. -/
def extent (d : Directory) (rooted : Bool) (pre : List String) :
    List String → List Place × Option AccessError
  | [] => ([], none)
  | name :: names =>
      match d.fault? rooted (pre ++ [name]) with
      | some fault => ([], some ⟨"mkdir", spelled rooted (pre ++ [name]), fault⟩)
      | none =>
          let rest := d.extent rooted (pre ++ [name]) names
          ((root rooted ++ (pre ++ [name])) :: rest.1, rest.2)

/-- Only the files on the way decide. -/
theorem extent_congr (h : ∀ q, q <+: root rooted ++ (pre ++ names) → d.isFile q = e.isFile q) :
    d.extent rooted pre names = e.extent rooted pre names := by
  induction names generalizing pre with
  | nil => rfl
  | cons name names ih =>
    have hfault : d.fault? rooted (pre ++ [name]) = e.fault? rooted (pre ++ [name]) := by
      have hfront : root rooted ++ (pre ++ [name]) <+: root rooted ++ (pre ++ name :: names) := by
        simp
      rw [fault?, fault?, h _ hfront]
    have hrest : d.extent rooted (pre ++ [name]) names = e.extent rooted (pre ++ [name]) names :=
      ih (by simpa using h)
    rw [extent, extent, hfault, hrest]

theorem find?_put_folder (q : Place) (d : Directory) (r : Place) :
    (d.put q .folder).find? r = if r = q then some .folder else d.find? r := by
  rw [find?_put]
  by_cases habove : isAbove r = true
  · have hfind : d.find? r = some .folder := if_pos habove
    rw [if_pos habove, hfind, ite_self]
  · rw [if_neg habove]

/-- One directory is made, unless something is wrong with it. -/
theorem makeFrom_cons (names : List String) (h : Stacked rooted (pre ++ [name]).reverse)
    (hleads : d.Leads rooted pre) :
    (∃ fault, d.fault? rooted (pre ++ [name]) = some fault ∧
      d.makeFrom (spelled rooted pre) (name :: names) =
      (.error ⟨"mkdir", spelled rooted (pre ++ [name]), fault⟩, d)) ∨
    (d.fault? rooted (pre ++ [name]) = none ∧ ∃ made : Directory,
      made.Leads rooted (pre ++ [name]) ∧
      (∀ q, made.find? q = if q = root rooted ++ (pre ++ [name]) then some .folder else d.find? q) ∧
      d.makeFrom (spelled rooted pre) (name :: names) =
        made.makeFrom (spelled rooted (pre ++ [name])) names) := by
  rw [makeFrom]
  simp only [h.spelled_concat]
  unfold fault?
  cases hbarrier : barrier? rooted (pre ++ [name]) with
  | some fault =>
    obtain ⟨hentry, hknown⟩ := entry_of_barrier h hleads hbarrier
    refine .inl ⟨fault, rfl, ?_⟩
    rw [hentry]
    split
    · rename_i heq
      cases heq
    · rename_i heq
      cases heq
    · rename_i heq
      cases heq
      exact absurd rfl hknown
    · rename_i heq
      cases heq
      rfl
  | none =>
    obtain ⟨hreaches, hopens⟩ := reaches_of_no_barrier h hleads hbarrier
    have hentry := hreaches.entry
    have hfollow := hreaches.follow
    rw [place_spelled h] at hentry hfollow
    cases hfind : d.find? (root rooted ++ (pre ++ [name])) with
    | none =>
      have hnone : d.isFile (root rooted ++ (pre ++ [name])) = false := by
        rw [isFile, hfind]
      rw [hfind] at hentry
      simp only [hnone, hentry, Option.elim_none, hfollow]
      have hput := find?_put_folder (root rooted ++ (pre ++ [name])) d
      have hkeeps : KeepsFolders d (d.put (root rooted ++ (pre ++ [name])) .folder) := by
        intro q hq
        rw [hput, hq, ite_self]
      exact .inr ⟨rfl, _, ⟨hopens.mono hkeeps, (hput _).trans (if_pos rfl)⟩, hput, rfl⟩
    | some entry =>
      rw [hfind] at hentry
      cases entry with
      | file content =>
        have hfile : d.isFile (root rooted ++ (pre ++ [name])) = true :=
          isFile_iff.mpr ⟨content, hfind⟩
        simp only [hfile, hentry, Option.elim_some, if_true]
        exact .inl ⟨_, rfl, rfl⟩
      | folder =>
        have hnone : d.isFile (root rooted ++ (pre ++ [name])) = false := by
          rw [isFile, hfind]
        simp only [hnone, hentry, Option.elim_some]
        refine .inr ⟨rfl, d, ⟨hopens, hfind⟩, fun q => ?_, rfl⟩
        split
        · rename_i heq
          rw [heq, hfind]
        · rfl

/-- What making directories comes to. -/
theorem makeFrom_spelled (h : Stacked rooted (pre ++ names).reverse) (hleads : d.Leads rooted pre) :
    (d.makeFrom (spelled rooted pre) names).1 = (d.extent rooted pre names).2.elim (.ok ()) .error ∧
      ∀ q, (d.makeFrom (spelled rooted pre) names).2.find? q =
        if q ∈ (d.extent rooted pre names).1 then some .folder else d.find? q := by
  induction names generalizing d pre with
  | nil => exact ⟨rfl, fun q => rfl⟩
  | cons name names ih =>
    have hhere : Stacked rooted (pre ++ [name]).reverse := by
      rw [List.append_cons, List.reverse_append] at h
      exact h.of_suffix
    rw [extent]
    rcases makeFrom_cons names hhere hleads with ⟨fault, hfault, hmade⟩ |
      ⟨hfault, made, hmadeLeads, hfind, hmade⟩
    · rw [hfault, hmade]
      exact ⟨rfl, fun q => rfl⟩
    · -- no file comes or goes where a directory is made, so the rest of the way is the same
      have hfiles : ∀ q, made.isFile q = d.isFile q := by
        intro q
        by_cases hq : q = root rooted ++ (pre ++ [name])
        · rw [hq, (fault?_eq_none.mp hfault).2, isFile, hfind, if_pos rfl]
        · rw [isFile, isFile, hfind, if_neg hq]
      obtain ⟨hresult, heffect⟩ := ih (by rwa [← List.append_cons]) hmadeLeads
      have hrest : made.extent rooted (pre ++ [name]) names =
          d.extent rooted (pre ++ [name]) names :=
        extent_congr fun q _ => hfiles q
      rw [hrest] at hresult heffect
      rw [hfault, hmade]
      refine ⟨hresult, fun q => ?_⟩
      rw [heffect q, hfind q]
      by_cases hq : q = root rooted ++ (pre ++ [name])
      · rw [if_pos hq, ite_self, if_pos (List.mem_cons.mpr (.inl hq))]
      · rw [if_neg hq]
        simp only [List.mem_cons, hq, false_or]

end Steps

section Making

variable {d e : Directory} {path : String} {rooted : Bool} {names es : List String}

/-- The way that a path's directories are made. -/
def way (d : Directory) (path : String) : List Place × Option AccessError :=
  d.extent (isRooted path) [] (elements path)

theorem leads_root (d : Directory) (rooted : Bool) : d.Leads rooted [] := by
  refine ⟨trivial, ?_⟩
  cases rooted with
  | false | true => rfl

theorem makeDirectory_eq (d : Directory) (path : String) :
    (d.makeDirectory path).1 = (d.way path).2.elim (.ok ()) .error ∧
      ∀ q, (d.makeDirectory path).2.find? q =
        if q ∈ (d.way path).1 then some .folder else d.find? q := by
  have hstart : spelled (isRooted path) [] = if isRooted path then "/" else "" := by
    cases isRooted path with
    | false | true => rfl
  rw [makeDirectory, ← hstart]
  exact makeFrom_spelled (stacked_elements path) (leads_root d (isRooted path))

theorem mem_extent {pre : List String} {q : Place} (h : q ∈ (d.extent rooted pre names).1) :
    ∃ es, es <+: pre ++ names ∧ q = root rooted ++ es ∧ d.isFile q = false := by
  induction names generalizing pre with
  | nil => cases h
  | cons name names ih =>
    rw [extent] at h
    cases hfault : d.fault? rooted (pre ++ [name]) with
    | some fault =>
      rw [hfault] at h
      cases h
    | none =>
      rw [hfault] at h
      rcases List.mem_cons.mp h with rfl | h
      · exact ⟨pre ++ [name], by simp, rfl, (fault?_eq_none.mp hfault).2⟩
      · simpa using ih h

theorem extent_of_no_fault {pre : List String}
    (h : ∀ more, more <+: names → more ≠ [] → d.fault? rooted (pre ++ more) = none) :
    (d.extent rooted pre names).2 = none := by
  induction names generalizing pre with
  | nil => rfl
  | cons name names ih =>
    have hfault : d.fault? rooted (pre ++ [name]) = none := h [name] (by simp) (by simp)
    have hrest : (d.extent rooted (pre ++ [name]) names).2 = none := by
      refine ih fun more hmore hsome => ?_
      rw [List.append_assoc, List.singleton_append]
      exact h (name :: more) (List.cons_prefix_cons.mpr ⟨rfl, hmore⟩) (by simp)
    rw [extent, hfault]
    exact hrest

theorem checkPath_eq_ok : checkPath path = .ok () ↔
    path ≠ "" ∧ '\x00' ∉ path.toList ∧ path.utf8ByteSize ≤ longestPath := by
  unfold checkPath
  by_cases hempty : path = ""
  · simp [hempty]
  · by_cases hnul : '\x00' ∈ path.toList
    · simp [hempty, hnul]
    · by_cases hlong : longestPath < path.utf8ByteSize
      · simp [hempty, hnul, hlong]
      · simp [hempty, hnul, hlong, Nat.not_lt.mp hlong]

theorem utf8ByteSize_spelled (hes : es ≠ []) :
    (spelled rooted es).utf8ByteSize ≤ Text.weight es := by
  have hslash : ('/' : Char).utf8Size = 1 := by decide
  have hjoin : (Text.join "/" es).utf8ByteSize + 1 = Text.weight es := Text.weight_join hslash hes
  have hroot : (if rooted then "/" else "").utf8ByteSize ≤ 1 := by
    cases rooted with
    | false | true => decide
  rw [spelled, String.utf8ByteSize_append]
  omega

theorem Opens.short {here : Place} (h : d.Opens here names) :
    ∀ n ∈ names, n.utf8ByteSize ≤ longestName := by
  induction names generalizing here with
  | nil => exact List.forall_mem_nil _
  | cons name names ih => exact List.forall_mem_cons.mpr ⟨h.2.1, ih h.2.2⟩

/-- The path of elements that were taken from a path is no worse than the path. -/
theorem barrier?_of_reaches (hreaches : d.Reaches path)
    (hstacked : Stacked (isRooted path) es.reverse) (hes : es ≠ [])
    (hmem : ∀ e ∈ es, e ∈ Text.split '/' path) (hweight : Text.weight es ≤ path.utf8ByteSize) :
    barrier? (isRooted path) es = none := by
  obtain ⟨-, hnul, hsize⟩ := checkPath_eq_ok.mp hreaches.valid
  have hvalid : checkPath (spelled (isRooted path) es) = .ok () := by
    refine checkPath_eq_ok.mpr ⟨spelled_ne_empty hstacked hes, ?_, ?_⟩
    · intro hmemNul
      rw [spelled, String.toList_append, List.mem_append] at hmemNul
      rcases hmemNul with hroot | hjoin
      · split at hroot
        · exact absurd hroot (by decide)
        · exact absurd hroot (by decide)
      · have hparts : '\x00' ∈ (Text.join (String.singleton '/') es).toList := hjoin
        rcases Text.mem_join hparts with hslash | ⟨p, hp, hc⟩
        · exact absurd hslash (by decide)
        · exact hnul (Text.mem_of_mem_split (hmem p hp) hc)
    · have hspelled : (spelled (isRooted path) es).utf8ByteSize ≤ Text.weight es :=
        utf8ByteSize_spelled hes
      omega
  have hlast : es.getLast?.getD "" ∈ es := by
    rw [List.getLast?_eq_some_getLast hes, Option.getD_some]
    exact List.getLast_mem hes
  have hshort := hreaches.opens.short _ (hmem _ hlast)
  rw [barrier?, hvalid]
  exact if_neg (Nat.not_lt.mpr hshort)

/-- The directory is the one that all names of the path but the last lead to. -/
structure FrontOf (directory path : String) : Prop where
  sameRoot : isRooted directory = isRooted path
  named : elements directory =
    ((Text.split '/' path).dropLast.foldl (pushElement (isRooted path)) []).reverse

theorem frontOf_directory (path : String) : FrontOf (directory path) path :=
  ⟨isRooted_directory path, elements_directory path⟩

variable {front : String}

theorem mem_dropLast_split {n : String} (h : n ∈ (Text.split '/' path).dropLast) :
    n ∈ Text.split '/' path :=
  List.dropLast_subset _ h

theorem FrontOf.mem (h : FrontOf front path) : ∀ e ∈ elements front, e ∈ Text.split '/' path := by
  intro e he
  rw [h.named, List.mem_reverse] at he
  rcases mem_foldl_pushElement he with hnil | hn
  · cases hnil
  · exact mem_dropLast_split hn

theorem FrontOf.weight (h : FrontOf front path) :
    Text.weight (elements front) ≤ path.utf8ByteSize := by
  have hslash : ('/' : Char).utf8Size = 1 := by decide
  have hsize := Text.weight_split hslash path
  have hsplit := List.dropLast_append_getLast (Text.split_ne_nil '/' path)
  have hfold := weight_foldl_pushElement (isRooted path) (Text.split '/' path).dropLast []
  have hnil : Text.weight [] = 0 := rfl
  rw [← hsplit, Text.weight_append, Text.weight_cons] at hsize
  rw [h.named, Text.weight_reverse]
  omega

/-- Every directory on the way to the front is there when the path can be followed. -/
theorem FrontOf.folder (h : FrontOf front path) (hreaches : d.Reaches path)
    (hes : es <+: elements front) : d.find? (root (isRooted path) ++ es) = some .folder := by
  have hsplit := List.dropLast_append_getLast (Text.split_ne_nil '/' path)
  have hempty : Stacked (isRooted path) [] := stacked_nil
  have hplace := foldl_next hempty fun n (hn : n ∈ (Text.split '/' path).dropLast) =>
    Text.not_mem_of_mem_split (mem_dropLast_split hn)
  rw [List.reverse_nil, List.append_nil, ← h.named] at hplace
  have hopens := hreaches.opens
  rw [← hsplit, opens_append] at hopens
  have hground := (grounded_root d (isRooted path)).foldl hopens.1
  have hlast : d.find? ((Text.split '/' path).dropLast.foldl next (root (isRooted path))) =
      some .folder :=
    hopens.2.1
  rw [hplace] at hground hlast
  by_cases hwhole : es = elements front
  · rw [hwhole]
    exact hlast
  · exact hground _ ((List.prefix_append_right_inj _).mpr hes) fun heq =>
      hwhole (List.append_cancel_left heq)

/-- Where a path can be followed, nothing stands in the way of its directory. -/
theorem FrontOf.way (h : FrontOf front path) (hreaches : e.Reaches path)
    (hfiles : ∀ q, d.isFile q = true → e.find? q ≠ some .folder) : (d.way front).2 = none := by
  have hstacked := stacked_elements front
  have hweight := h.weight
  rw [Directory.way]
  refine extent_of_no_fault fun es hes hsome => ?_
  obtain ⟨rest, hrest⟩ := hes
  rw [← hrest, List.reverse_append] at hstacked
  rw [← hrest, Text.weight_append] at hweight
  rw [h.sameRoot] at hstacked ⊢
  rw [List.nil_append]
  refine fault?_eq_none.mpr
    ⟨barrier?_of_reaches hreaches hstacked.of_suffix hsome ?_ (by omega), ?_⟩
  · exact fun n hn => h.mem n (hrest ▸ List.mem_append_left rest hn)
  · rw [← Bool.not_eq_true]
    exact fun hfile => hfiles _ hfile (h.folder hreaches ⟨rest, hrest⟩)

/-- Where a path can be followed, its directory is there and nothing is made. -/
theorem FrontOf.makeDirectory (h : FrontOf front path) (hreaches : d.Reaches path) :
    (d.makeDirectory front).1 = .ok () ∧ ∀ q, (d.makeDirectory front).2.find? q = d.find? q := by
  obtain ⟨hresult, heffect⟩ := makeDirectory_eq d front
  have hway : (d.way front).2 = none := by
    refine h.way hreaches fun q hfile => ?_
    obtain ⟨content, hfind⟩ := isFile_iff.mp hfile
    rw [hfind]
    exact fun heq => by cases heq
  refine ⟨by rw [hresult, hway, Option.elim_none], fun q => ?_⟩
  rw [heffect]
  split
  · rename_i hq
    obtain ⟨es, hes, rfl, -⟩ := mem_extent hq
    rw [h.sameRoot]
    exact (h.folder hreaches hes).symm
  · rfl

end Making

end DartLowering.Directory
