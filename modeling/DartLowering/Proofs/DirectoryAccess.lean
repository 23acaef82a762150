import DartLowering.Proofs.PathNames
import DartLowering.Source.Directory

/-!
Reading, writing and making directories by path. A path names one place, whatever stands there;
following it works when every place on the way is a directory. So reading sees what stands at the
place, a successful write changes that place alone and is read back, and making a directory only
adds directories where nothing was.
-/
namespace DartLowering.Directory

section Places

theorem bind_eq_ok {α β : Type} {r : Except AccessFault α} {f : α → Except AccessFault β} {b : β} :
    (r >>= f) = .ok b ↔ ∃ a, r = .ok a ∧ f a = .ok b := by
  cases r with
  | error | ok => simp [bind, Except.bind]

/-- The place where the path of these elements begins. -/
def root (rooted : Bool) : Place := if rooted then ["/"] else []

def place (path : String) : Place := root (Path.isRooted path) ++ Path.elements path

/-- Where a name leads from a directory. -/
def next (here : Place) (name : String) : Place :=
  if name = "" || name = "." then here else if name = ".." then parent here else here ++ [name]

variable {d e : Directory} {here q : Place} {name path content : String} {names : List String}

theorem find?_put (q : Place) (entry : Entry) (d : Directory) (r : Place) :
    (d.put q entry).find? r = if isAbove r then some .folder else if r = q then some entry
      else d.find? r := by
  unfold find?
  by_cases habove : isAbove r = true
  · rw [if_pos habove, if_pos habove]
  rw [if_neg habove, if_neg habove, if_neg habove]
  unfold put
  by_cases hany : d.entries.any (·.1 = q) = true
  · -- the entries of that place are replaced, and each keeps its place
    have hkey : ∀ e : Place × Entry, (if e.1 = q then (q, entry) else e).1 = e.1 := by
      intro e
      split
      · rename_i heq
        exact heq.symm
      · rfl
    rw [if_pos hany, List.find?_map]
    simp only [Function.comp_def, hkey]
    by_cases hr : r = q
    · obtain ⟨e, he, heq⟩ := List.any_eq_true.mp hany
      have hsome : (d.entries.find? fun e => decide (e.1 = r)).isSome = true :=
        List.find?_isSome.mpr ⟨e, he, by rwa [hr]⟩
      obtain ⟨f, hf⟩ := Option.isSome_iff_exists.mp hsome
      have hfq : f.1 = q := by
        have hfound := List.find?_some hf
        rwa [decide_eq_true_eq, hr] at hfound
      rw [hf, if_pos hr, Option.map_some, Option.map_some, if_pos hfq]
    · rw [if_neg hr, Option.map_map]
      cases hf : d.entries.find? fun e => decide (e.1 = r) with
      | none => rfl
      | some f =>
        have hfq : f.1 ≠ q := by
          have hfound := List.find?_some hf
          rw [decide_eq_true_eq] at hfound
          rwa [hfound]
        simp [hfq]
  · have hfree : ∀ e ∈ d.entries, e.1 ≠ q := by
      intro e he heq
      exact hany (List.any_eq_true.mpr ⟨e, he, decide_eq_true heq⟩)
    rw [if_neg hany, List.find?_append]
    by_cases hr : r = q
    · have hnone : (d.entries.find? fun e => decide (e.1 = r)) = none := by
        rw [List.find?_eq_none]
        intro e he
        rw [decide_eq_true_eq, hr]
        exact hfree e he
      rw [hnone, if_pos hr]
      simp [hr]
    · have hlast : ([(q, entry)].find? fun e => decide (e.1 = r)) = none := by
        simp [Ne.symm hr]
      rw [hlast, Option.or_none, if_neg hr]

theorem follow_of_folder (hhere : d.find? here = some .folder) (name : String)
    (names : List String) : d.follow here (name :: names) =
      if longestName < name.utf8ByteSize then .error .nameTooLong
      else d.follow (next here name) names := by
  rw [follow, hhere]
  by_cases hempty : name = ""
  · subst hempty
    simp [next, longestName]
  by_cases hdot : name = "."
  · subst hdot
    have hshort : ¬longestName < ".".utf8ByteSize := by decide
    simp [next, hshort]
  by_cases hup : name = ".."
  · subst hup
    have hshort : ¬longestName < "..".utf8ByteSize := by decide
    simp [next, hshort]
  simp [hempty, hdot, hup, next]

/-- Every place on the way is a directory, and no name is too long. -/
def Opens (d : Directory) : Place → List String → Prop
  | _, [] => True
  | here, name :: names =>
      d.find? here = some .folder ∧ name.utf8ByteSize ≤ longestName ∧ d.Opens (next here name) names

theorem follow_eq_ok :
    d.follow here names = .ok q ↔ d.Opens here names ∧ names.foldl next here = q := by
  induction names generalizing here with
  | nil => simp [follow, Opens]
  | cons name names ih =>
    rw [Opens, List.foldl_cons]
    by_cases hhere : d.find? here = some .folder
    · rw [follow_of_folder hhere]
      by_cases hlong : longestName < name.utf8ByteSize
      · rw [if_pos hlong]
        simp [hhere, Nat.not_le.mpr hlong]
      · rw [if_neg hlong, ih]
        simp [hhere, Nat.not_lt.mp hlong]
    · have hfails : ∀ r, d.follow here (name :: names) ≠ .ok r := by
        intro r hr
        rw [follow] at hr
        split at hr
        · cases hr
        · cases hr
        · rename_i heq
          exact hhere heq
      simp [hhere, hfails]

theorem opens_append {more : List String} :
    d.Opens here (names ++ more) ↔ d.Opens here names ∧ d.Opens (names.foldl next here) more := by
  induction names generalizing here with
  | nil => simp [Opens]
  | cons name names ih =>
    rw [List.cons_append, Opens, Opens, ih, List.foldl_cons, and_assoc, and_assoc]

def KeepsFolders (d e : Directory) : Prop :=
  ∀ q, d.find? q = some .folder → e.find? q = some .folder

theorem Opens.mono (hkeeps : KeepsFolders d e) (h : d.Opens here names) : e.Opens here names := by
  induction names generalizing here with
  | nil => trivial
  | cons name names ih => exact ⟨hkeeps here h.1, h.2.1, ih h.2.2⟩

end Places

section Elements

open DartLowering.Path

variable {d : Directory} {rooted : Bool} {stack : List String} {name path : String}

theorem parent_stacked (h : Stacked rooted stack) :
    parent (root rooted ++ stack.reverse) =
      root rooted ++ (pushElement rooted stack "..").reverse := by
  have hroot : ∀ {e : String}, e ∈ stack → e ≠ "/" := by
    rintro e he rfl
    exact (h.named _ he).2.2 (by decide)
  rw [pushElement_up]
  cases stack with
  | nil => cases rooted <;> rfl
  | cons last rest =>
    have hlonger : root rooted ++ (last :: rest).reverse ≠ ["/"] := by
      intro heq
      cases rooted with
      | true => simp [root] at heq
      | false =>
        have hmem : "/" ∈ (last :: rest).reverse := by
          have hall : (last :: rest).reverse = ["/"] := heq
          rw [hall]
          exact List.mem_cons_self
        exact hroot (List.mem_reverse.mp hmem) rfl
    rw [parent, if_neg hlonger]
    by_cases hlast : last = ".."
    · have htop : (last :: rest).head?.getD ".." = ".." := hlast
      have hall := h.all_up htop
      have hrooted : rooted = false := by
        rw [← Bool.not_eq_true]
        exact fun hrooted => h.below hrooted (hlast ▸ List.mem_cons_self)
      have hups : (root rooted ++ (last :: rest).reverse).all (· = "..") = true := by
        rw [hrooted, List.all_eq_true]
        intro e he
        exact decide_eq_true (hall e (List.mem_reverse.mp he))
      rw [if_pos hups, if_pos htop, if_neg (by simp), List.reverse_cons, List.append_assoc]
      simp
    · have hother : ¬(root rooted ++ (last :: rest).reverse).all (· = "..") = true := by
        intro hall
        have hmem : last ∈ root rooted ++ (last :: rest).reverse := by simp
        exact hlast (of_decide_eq_true (List.all_eq_true.mp hall last hmem))
      have htop : ¬(last :: rest).head?.getD ".." = ".." := hlast
      rw [if_neg hother, if_neg htop, List.reverse_cons, ← List.append_assoc, List.dropLast_concat,
        List.tail_cons]

/-- Following a name and pushing it come to the same place. -/
theorem next_stacked (h : Stacked rooted stack) (name : String) :
    next (root rooted ++ stack.reverse) name =
      root rooted ++ (pushElement rooted stack name).reverse := by
  by_cases hnothing : name = "" ∨ name = "."
  · rw [pushElement_nothing hnothing, next, if_pos (by simpa using hnothing)]
  have hnext : ¬(decide (name = "") || decide (name = ".")) = true := by simpa using hnothing
  obtain ⟨hempty, hdot⟩ := not_or.mp hnothing
  by_cases hup : name = ".."
  · rw [next, if_neg hnext, if_pos hup, hup, parent_stacked h]
  · rw [next, if_neg hnext, if_neg hup, pushElement_name hempty hdot hup, List.reverse_cons,
      List.append_assoc]

theorem foldl_next (h : Stacked rooted stack) {names : List String}
    (hnames : ∀ n ∈ names, '/' ∉ n.toList) :
    names.foldl next (root rooted ++ stack.reverse) =
      root rooted ++ (names.foldl (pushElement rooted) stack).reverse := by
  induction names generalizing stack with
  | nil => rfl
  | cons name names ih =>
    obtain ⟨hname, hrest⟩ := List.forall_mem_cons.mp hnames
    rw [List.foldl_cons, next_stacked h, ih (h.push hname) hrest, List.foldl_cons]

theorem foldl_next_split (path : String) :
    (Text.split '/' path).foldl next (start path) = place path := by
  have hempty : Stacked (isRooted path) [] := stacked_nil
  have hfold :=
    foldl_next hempty fun n (hn : n ∈ Text.split '/' path) => Text.not_mem_of_mem_split hn
  rwa [List.reverse_nil, List.append_nil] at hfold

end Elements

section Reading

variable {d e : Directory} {path content : String}

/-- The path can be followed to its end, whatever stands there. -/
structure Reaches (d : Directory) (path : String) : Prop where
  valid : checkPath path = .ok ()
  opens : d.Opens (start path) (Text.split '/' path)

theorem Reaches.follow (h : d.Reaches path) :
    d.follow (start path) (Text.split '/' path) = .ok (place path) :=
  follow_eq_ok.mpr ⟨h.opens, foldl_next_split path⟩

theorem Reaches.mono (hkeeps : KeepsFolders d e) (h : d.Reaches path) : e.Reaches path :=
  ⟨h.valid, h.opens.mono hkeeps⟩

theorem Reaches.entry (h : d.Reaches path) :
    d.entry path = (d.find? (place path)).elim (.error .notFound) .ok := by
  unfold Directory.entry
  rw [h.valid, h.follow]
  cases hfind : d.find? (place path) with
  | none | some => simp [bind, Except.bind, hfind]

theorem reaches_of_entry {entry : Entry} (h : d.entry path = .ok entry) : d.Reaches path := by
  obtain ⟨valid, hvalid, h⟩ := bind_eq_ok.mp h
  obtain ⟨q, hfollow, -⟩ := bind_eq_ok.mp h
  exact ⟨hvalid, (follow_eq_ok.mp hfollow).1⟩

theorem read_eq_ok :
    d.read path = .ok content ↔ d.Reaches path ∧ d.find? (place path) = some (.file content) := by
  unfold read
  constructor
  · intro h
    cases hentry : d.entry path with
    | error fault =>
      rw [hentry] at h
      cases h
    | ok entry =>
      have hreaches := reaches_of_entry hentry
      refine ⟨hreaches, ?_⟩
      rw [hentry] at h
      rw [hreaches.entry] at hentry
      cases hfind : d.find? (place path) with
      | none =>
        rw [hfind] at hentry
        cases hentry
      | some found =>
        rw [hfind] at hentry
        cases hentry
        cases entry with
        | folder => cases h
        | file text =>
          cases h
          rfl
  · rintro ⟨hreaches, hfind⟩
    rw [hreaches.entry, hfind]
    rfl

/-- What is read depends only on what stands at each place. -/
theorem read_congr (h : ∀ q, d.find? q = e.find? q) (path : String) :
    d.read path = e.read path := by
  have hfollow : ∀ names here, d.follow here names = e.follow here names := by
    intro names
    induction names with
    | nil => exact fun _ => rfl
    | cons name names ih =>
      intro here
      rw [Directory.follow, Directory.follow, h here]
      simp only [ih]
  unfold read Directory.entry
  simp only [hfollow, h]

end Reading

section Writing

variable {d e : Directory} {path content : String} {q : Place}

/-- The last name of the path is a name of its own. -/
def EndsInName (path : String) : Prop :=
  ∃ names name, Text.split '/' path = names ++ [name] ∧ name ≠ "" ∧ name ≠ "." ∧ name ≠ ".."

theorem knownNames_concat {names : List String} {name : String} (hname : name ≠ "") :
    ((names ++ [name]).reverse.dropWhile (· = "")).reverse = names ++ [name] := by
  rw [List.reverse_append, List.reverse_singleton, List.singleton_append,
    List.dropWhile_cons_of_neg (by simpa using hname), List.reverse_cons, List.reverse_reverse]

theorem endsInName_of_target (h : d.target path = .ok q) : EndsInName path := by
  obtain ⟨names, name, hsplit⟩ : ∃ names name, Text.split '/' path = names ++ [name] :=
    ⟨_, _, (List.dropLast_append_getLast (Text.split_ne_nil '/' path)).symm⟩
  obtain ⟨valid, -, h⟩ := bind_eq_ok.mp h
  obtain ⟨parent, -, h⟩ := bind_eq_ok.mp h
  split at h
  · cases h
  · cases h
  · dsimp only at h
    split at h
    · cases h
    · rename_i hown
      rw [hsplit, List.getLast?_concat] at hown
      simp only [Option.some.injEq, Bool.or_eq_true, decide_eq_true_eq, not_or] at hown
      obtain ⟨⟨hempty, hdot⟩, hup⟩ := hown
      rw [knownNames_concat hempty, List.getLast?_concat, Option.getD_some] at hdot hup
      exact ⟨names, name, hsplit, hempty, hdot, hup⟩

theorem endsInName_of_write (h : d.write path content = .ok e) : EndsInName path := by
  cases htarget : d.target path with
  | error fault =>
    rw [write, htarget] at h
    cases h
  | ok q => exact endsInName_of_target htarget

theorem EndsInName.ne_empty (h : EndsInName path) : path ≠ "" := by
  rintro rfl
  obtain ⟨names, name, hsplit, hempty, -⟩ := h
  have hlast := congrArg List.getLast? hsplit
  rw [List.getLast?_concat] at hlast
  exact hempty (Option.some.inj hlast).symm

theorem target_eq_ok (hname : EndsInName path) : d.target path = .ok q ↔
    d.Reaches path ∧ d.find? (place path) ≠ some .folder ∧ q = place path := by
  obtain ⟨names, name, hsplit, hempty, hdot, hup⟩ := hname
  have hplace := foldl_next_split path
  rw [hsplit, List.foldl_append, List.foldl_cons, List.foldl_nil] at hplace
  have hnext : next (names.foldl next (start path)) name =
      names.foldl next (start path) ++ [name] := by
    simp [next, hempty, hdot, hup]
  rw [hnext] at hplace
  have hreaches : d.Reaches path ↔ checkPath path = .ok () ∧ d.Opens (start path) names ∧
      d.find? (names.foldl next (start path)) = some .folder ∧ name.utf8ByteSize ≤ longestName := by
    constructor
    · rintro ⟨hvalid, hopens⟩
      rw [hsplit, opens_append] at hopens
      exact ⟨hvalid, hopens.1, hopens.2.1, hopens.2.2.1⟩
    · rintro ⟨hvalid, hopens, hfolder, hshort⟩
      refine ⟨hvalid, ?_⟩
      rw [hsplit, opens_append]
      exact ⟨hopens, hfolder, hshort, trivial⟩
  have hknown : ((names ++ [name]).reverse.dropWhile (· = "")).reverse = names ++ [name] :=
    knownNames_concat hempty
  rw [hreaches, ← hplace]
  unfold target
  simp only [hsplit, hknown, List.dropLast_concat, List.getLast?_concat, Option.getD_some,
    Option.some.injEq, hempty, hdot, hup, decide_false, Bool.or_false, Bool.false_eq_true, if_false]
  constructor
  · intro h
    obtain ⟨valid, hvalid, h⟩ := bind_eq_ok.mp h
    obtain ⟨parent, hfollow, h⟩ := bind_eq_ok.mp h
    obtain ⟨hopens, rfl⟩ := follow_eq_ok.mp hfollow
    split at h
    · cases h
    · cases h
    · rename_i hfolder
      split at h
      · cases h
      · rename_i hlong
        split at h
        · cases h
        · rename_i hfree
          cases h
          exact ⟨⟨hvalid, hopens, hfolder, Nat.not_lt.mp hlong⟩, hfree, rfl⟩
  · rintro ⟨⟨hvalid, hopens, hfolder, hshort⟩, hfree, rfl⟩
    have hfollow : d.follow (start path) names = .ok (names.foldl next (start path)) :=
      follow_eq_ok.mpr ⟨hopens, rfl⟩
    rw [hvalid, hfollow]
    simp only [bind, Except.bind, hfolder, if_neg (Nat.not_lt.mpr hshort)]

theorem find?_put_file (hfree : d.find? q ≠ some .folder) (content : String) (r : Place) :
    (d.put q (.file content)).find? r = if r = q then some (.file content) else d.find? r := by
  rw [find?_put]
  by_cases habove : isAbove r = true
  · have hfind : d.find? r = some .folder := if_pos habove
    have hne : r ≠ q := by
      rintro rfl
      exact hfree hfind
    rw [if_pos habove, if_neg hne, hfind]
  · rw [if_neg habove]

/-- A file that is written replaces no directory. -/
theorem keepsFolders_put (hfree : d.find? q ≠ some .folder) :
    KeepsFolders d (d.put q (.file content)) := by
  intro r hr
  have hne : r ≠ q := by
    rintro rfl
    exact hfree hr
  rw [find?_put_file hfree, if_neg hne, hr]

/-- Everything that a write can do. -/
theorem write_eq_ok (hname : EndsInName path) : d.write path content = .ok e ↔
    d.Reaches path ∧ d.find? (place path) ≠ some .folder ∧
      e = d.put (place path) (.file content) := by
  unfold write
  constructor
  · intro h
    cases htarget : d.target path with
    | error fault =>
      rw [htarget] at h
      cases h
    | ok q =>
      rw [htarget] at h
      obtain ⟨hreaches, hfree, rfl⟩ := (target_eq_ok hname).mp htarget
      cases h
      exact ⟨hreaches, hfree, rfl⟩
  · rintro ⟨hreaches, hfree, rfl⟩
    rw [(target_eq_ok hname).mpr ⟨hreaches, hfree, rfl⟩]

/-- What was written is read back. -/
theorem read_of_write (hname : EndsInName path) (h : d.write path content = .ok e) :
    e.read path = .ok content := by
  obtain ⟨hreaches, hfree, rfl⟩ := (write_eq_ok hname).mp h
  refine read_eq_ok.mpr ⟨hreaches.mono (keepsFolders_put hfree), ?_⟩
  rw [find?_put_file hfree, if_pos rfl]

end Writing

end DartLowering.Directory
