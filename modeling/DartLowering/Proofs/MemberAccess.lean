import DartLowering.Proofs.Places
import DartLowering.Proofs.Sessions
import DartLowering.Proofs.WritingFailures

/-!
What a member access reads. The offset of a member is looked up in a layout, its type in the record,
and its size is asked for once more when the code is printed. All three belong to one field, the
first of the name: `TypeEnv.ReadsAt` says so of the access that is resolved, of the code it is
lowered to and of the text it is written as. So no layout lacks a field that is accessed, in no run
over any table.
-/
namespace DartLowering

open Layout Result

section Unreachable

/-- The first report, if there is one, is not that a layout lacks a field. -/
def Failure.FindsFields (f : Failure) : Prop :=
  ∀ cause p origin, f.report? = some (cause, p, origin) → cause.isUnplaced = false

namespace Failure

theorem findsFields_of_none {f : Failure} (h : f.report? = none) : f.FindsFields := by
  intro cause p origin hreport
  rw [h] at hreport
  cases hreport

theorem findsFields_report {c : Cause} (h : c.isOrdinary = true) (p : Position) :
    (report c p none).FindsFields := by
  intro cause q origin hreport
  cases hreport
  simpa using (Bool.and_eq_true_iff.mp h).2

theorem FindsFields.locate {f : Failure} (h : f.FindsFields) (p : Position) :
    (f.locate p).FindsFields := by
  unfold Failure.locate
  split
  · split
    · intro cause q origin hreport
      rw [report?_moveTo] at hreport
      obtain ⟨⟨own, place, from_⟩, hown, hsame⟩ := Option.map_eq_some_iff.mp hreport
      cases hsame
      exact h _ _ _ hown
    · exact h
  · exact h

end Failure

namespace TypeEnv

variable {env : TypeEnv}

theorem layoutWithin_findsFields (env : TypeEnv) (depth : Nat) (tag : RecordTag) :
    FailsOnly Failure.FindsFields (env.layoutWithin depth tag) := by
  induction depth generalizing tag with
  | zero => exact failsOnly_error.mpr (Failure.findsFields_of_none rfl)
  | succ depth ih =>
    rw [layoutWithin]
    split
    · exact failsOnly_ok _
    · refine failsOnly_bind.mpr ⟨?_, fun slots _ f hf => ?_⟩
      · exact Record.slots_failsOnly (fun c hc => Failure.findsFields_report hc {})
          (fun words f hf => hf) _ fun f _ inner _ => ih inner
      · obtain ⟨-, s, -, fault, -, rfl⟩ := Record.layout_eq_error hf
        exact Failure.findsFields_of_none rfl

/-- Nothing that emission fails with is that a layout lacks a field. -/
theorem KeepsComputed.admitsLookups (h : env.KeepsComputed) :
    AdmitsLookups Failure.FindsFields env where
  located p f hf := hf.locate p
  reported c p hc := Failure.findsFields_report hc p
  layout tag := env.layoutWithin_findsFields _ tag
  unplaced tag field f l p hf hl hnone := by
    obtain ⟨-, ahead, e, -, -, hoffset⟩ := h.firstField hf hl
    rw [hnone] at hoffset
    cases hoffset
  keeps := h
  wrapped words f hf := hf
  plain text := Failure.findsFields_of_none rfl

end TypeEnv

theorem AdmitsLookups.generate {P : Failure → Prop} {env : TypeEnv} (h : AdmitsLookups P env)
    (package : String) (cancelled : Bool) (u : Option SourceUnit) :
    FailsOnly P (Lower.generate env package cancelled u) := by
  have hrun := h.toAdmits.generate package u
  cases u with
  | none => exact hrun
  | some u =>
    unfold Lower.generate at hrun ⊢
    dsimp only at hrun ⊢
    split
    · exact failsOnly_error.mpr (h.plain _)
    · exact hrun

/-- The run of a whole job never reports that a layout lacks a field. -/
theorem Command.Job.run_findsFields (job : Job) (text : String) :
    FailsOnly Failure.FindsFields (job.run text).output := by
  rw [Job.run]
  cases hloaded : Dump.ofText job.source job.markers text with
  | error f =>
    have hreports : Dump.Reports Failure.FindsFields :=
      ⟨Failure.findsFields_of_none rfl, fun c p hc => Failure.findsFields_report hc p⟩
    exact failsOnly_error.mpr (hreports.ofText _ _ _ f hloaded)
  | ok loaded =>
    obtain ⟨env, hnone, henv⟩ := Dump.ofText_env hloaded
    have hkeeps : loaded.env.KeepsComputed := henv ▸ TypeEnv.keepsComputed_rememberAll hnone
    exact (hkeeps.admitsLookups.generate job.package job.cancelled _).bind fun text =>
      failsOnly_ok _

end Unreachable

section Reading

/-- The call that reads a field of a storage kind at an offset. Only composites are read with their
size. -/
def readText (offset : Int64) (kind : String) (size : Int64) : String :=
  if kind = "composite" then
    ".compositeAtOffset(" ++ Text.decimal offset ++ ", " ++ Text.decimal size ++ ")"
  else "." ++ kind ++ "AtOffset(" ++ Text.decimal offset ++ ")"

/-- What stands between the code of the base and the read. -/
def derefText (arrow : Bool) : String := if arrow then ".dereference()" else ""

/-- Every access to the name in the record reads the field `f` at `offset`: it resolves to the
storage kind of `f`, and the text of its code, built as a tree or written piece by piece, ends in a
read of that kind at that offset, with the size of `f` where it is composite. -/
structure TypeEnv.ReadsAt (env : TypeEnv) (tag : RecordTag) (name : String) (f : Field)
    (offset : Int64) : Prop where
  resolved : ∀ position base arrow, base.accessedRecord? arrow = some tag →
    Lower.resolveMember env position base arrow name =
      env.storageKind f.type >>= fun kind => .ok ⟨offset, kind, f.type⟩
  lowered : ∀ scope peel info base arrow code, base.accessedRecord? arrow = some tag →
    env.constant? (.member info base arrow name) = none →
    Lower.expr env scope peel (.member info base arrow name) = .ok code →
    ∃ kind size memory, env.storageKind f.type = .ok kind ∧
      (kind = "composite" → env.sizeOf f.type = .ok size) ∧
      Lower.expr env scope false base = .ok memory ∧
      code.text = (Lower.asReceiver env base memory).text ++ derefText arrow ++
        readText offset kind size
  written : ∀ scope info base arrow d d', base.accessedRecord? arrow = some tag →
    d.layouts.Computed env →
    Emit.member env info base arrow name (Emit.expr env scope false base) d = some (.ok (), d') →
    ∃ kind size before after, env.storageKind f.type = .ok kind ∧
      (kind = "composite" → env.sizeOf f.type = .ok size) ∧ before.writer = d.writer ∧
      Emit.receiver env base (Emit.expr env scope false base) before = some (.ok (), after) ∧
      d'.writer = after.writer.print (derefText arrow ++ readText offset kind size)

variable {env : TypeEnv} {tag : RecordTag} {name : String} {f : Field} {l : RecordLayout}
  {offset : Int64}

theorem Lower.resolveMember_of_offset {position : Position} {base : Expr} {arrow : Bool}
    (hbase : base.accessedRecord? arrow = some tag)
    (hf : (env.records.find tag).field? name = some f) (hl : env.layoutOf tag = .ok l)
    (hoffset : l.offset? name = some offset) :
    Lower.resolveMember env position base arrow name =
      env.storageKind f.type >>= fun kind => .ok ⟨offset, kind, f.type⟩ := by
  have hrecord : ∀ t : Option CType, t.bind CType.record? = some tag →
      Lower.recordMember env position t name =
        env.storageKind f.type >>= fun kind => .ok ⟨offset, kind, f.type⟩ := by
    intro t ht
    simp only [Lower.recordMember, ht, hf, hl, ok_bind, hoffset]
  unfold Expr.accessedRecord? at hbase
  rw [Lower.resolveMember_eq]
  cases arrow with
  | false => exact hrecord _ hbase
  | true =>
    rw [if_pos rfl] at hbase ⊢
    cases hpointee : base.type.bind CType.pointee? with
    | none =>
      rw [hpointee] at hbase
      cases hbase
    | some t =>
      rw [hpointee] at hbase
      exact hrecord _ hbase

theorem Lower.accessCode_reads {kind : String} {t : CType} {memory code : Code}
    (h : Lower.accessCode env ⟨offset, kind, t⟩ memory = .ok code) :
    ∃ size, (kind = "composite" → env.sizeOf t = .ok size) ∧
      code.text = memory.text ++ readText offset kind size := by
  unfold Lower.accessCode at h
  unfold readText
  split at h
  · rename_i hkind
    obtain ⟨size, hsize, h⟩ := bind_eq_ok.mp h
    cases h
    refine ⟨size, fun _ => hsize, ?_⟩
    rw [if_pos hkind]
    simp [Code.text, Code.texts, Text.join, String.append_assoc]
  · rename_i hkind
    cases h
    refine ⟨0, fun hcomposite => absurd hcomposite hkind, ?_⟩
    rw [if_neg hkind]
    simp [Code.text, Code.texts, Text.join, String.append_assoc]

theorem Lower.text_dereferenced (arrow : Bool) (memory : Code) :
    Code.text (if arrow then .invoke memory "dereference" [] else memory) =
      memory.text ++ derefText arrow := by
  cases arrow with
  | false => simp [derefText]
  | true => simp [derefText, Code.text, Code.texts, Lower.join_nil, String.append_assoc]

theorem Writing.ask_eq_ok {α : Type} {q : Lookup α} {d d' : Desk} {a : α}
    (h : Writing.ask q d = some (.ok a, d')) :
    q d.layouts = some (.ok a, d'.layouts) ∧ d'.writer = d.writer := by
  obtain ⟨⟨r, layouts⟩, hq, hr⟩ := Option.map_eq_some_iff.mp h
  cases hr
  exact ⟨hq, rfl⟩

/-- The type whose member is written is the one whose record is accessed. -/
theorem Emit.memberType_eq_ok {position : Position} {base : Expr} {arrow : Bool} {t : Option CType}
    {d d' : Desk} (hbase : base.accessedRecord? arrow = some tag)
    (h : Emit.memberType position base arrow d = some (.ok t, d')) :
    t.bind CType.record? = some tag ∧ d' = d := by
  obtain ⟨x, d₁, hpresent, htype⟩ := Run.bind_eq_ok h
  have hsame : x = base ∧ d₁ = d := by
    cases base with
    | absent => cases hpresent
    | _ =>
      cases hpresent
      exact ⟨rfl, rfl⟩
  rw [hsame.1, hsame.2] at htype
  unfold Expr.accessedRecord? at hbase
  cases arrow with
  | false =>
    cases htype
    exact ⟨hbase, rfl⟩
  | true =>
    rw [if_pos rfl] at hbase htype
    cases hpointee : base.type.bind CType.pointee? with
    | none =>
      rw [hpointee] at hbase
      cases hbase
    | some pointee =>
      rw [hpointee] at hbase htype
      cases htype
      exact ⟨hbase, rfl⟩

namespace TypeEnv.KeepsComputed

variable (henv : env.KeepsComputed) (hf : (env.records.find tag).field? name = some f)
  (hl : env.layoutOf tag = .ok l) (hoffset : l.offset? name = some offset)

include henv hf hl hoffset

/-- The layout that is looked up on the way is the one of the table, so the access is the one that
is resolved there. -/
theorem access_eq_ok {position : Position} {t : Option CType} {access : Lower.Access} {d d' : Desk}
    (ht : t.bind CType.record? = some tag) (hd : d.layouts.Computed env)
    (h : Emit.access env position t name d = some (.ok access, d')) :
    ∃ kind, env.storageKind f.type = .ok kind ∧ access = ⟨offset, kind, f.type⟩ ∧
      d'.writer = d.writer := by
  simp only [Emit.access, ht, hf] at h
  obtain ⟨layout, d₁, hlayout, h⟩ := Run.bind_eq_ok h
  obtain ⟨hasked, hwriter⟩ := Writing.ask_eq_ok hlayout
  have hfound := (henv.admitsLookups.lookupLayout tag d.layouts hd _ _ hasked).2.2 layout rfl
  rw [hl] at hfound
  cases hfound
  rw [hoffset] at h
  obtain ⟨kind, d₂, hkind, h⟩ := Run.bind_eq_ok h
  cases h
  obtain ⟨hresult, rfl⟩ := Prod.mk.inj (Option.some.inj hkind)
  exact ⟨kind, hresult, rfl, hwriter⟩

theorem readsAt : env.ReadsAt tag name f offset where
  resolved position base arrow hbase := Lower.resolveMember_of_offset hbase hf hl hoffset
  lowered scope peel info base arrow code hbase hconstant h := by
    rw [Lower.expr, Lower.orConstant, hconstant] at h
    obtain ⟨access, haccess, h⟩ := bind_eq_ok.mp (locate_eq_ok.mp h)
    obtain ⟨memory, hmemory, h⟩ := bind_eq_ok.mp h
    rw [Lower.resolveMember_of_offset hbase hf hl hoffset] at haccess
    obtain ⟨kind, hkind, haccess⟩ := bind_eq_ok.mp haccess
    cases haccess
    obtain ⟨size, hsize, htext⟩ := Lower.accessCode_reads h
    refine ⟨kind, size, memory, hkind, hsize, hmemory, ?_⟩
    rw [htext, Lower.text_dereferenced]
  written scope info base arrow d d' hbase hd h := by
    have hadmits := henv.admitsLookups
    obtain ⟨t, typed, htype, haccessed⟩ := Run.bind_eq_ok h
    obtain ⟨ht, hsame⟩ := Emit.memberType_eq_ok hbase htype
    obtain ⟨access, before, haccess, hreceived⟩ := Run.bind_eq_ok haccessed
    rw [hsame] at haccess
    obtain ⟨kind, hkind, rfl, hwriter⟩ := henv.access_eq_ok hf hl hoffset ht hd haccess
    obtain ⟨_, after, hreceiver, hprinted⟩ := Run.bind_eq_ok hreceived
    obtain ⟨_, read, hderef, hread⟩ := Run.bind_eq_ok hprinted
    cases hderef
    -- the layouts that are kept by then still are those of the table
    have hbefore := (hadmits.access_keeps info.position t name d hd _ before haccess).1
    have hafter := (hadmits.receiver_keeps (hadmits.expr_keeps base false) before hbefore _ after
      hreceiver).1
    split at hread
    · rename_i hcomposite
      obtain ⟨size, asked, hsize, hlast⟩ := Run.bind_eq_ok hread
      obtain ⟨hasked, hwritten⟩ := Writing.ask_eq_ok hsize
      have hfound := (hadmits.lookupSize f.type _ hafter _ _ hasked).2.2 size rfl
      refine ⟨kind, size, before, after, hkind, fun _ => hfound, hwriter, hreceiver, ?_⟩
      rw [← Writer.print_print, readText, if_pos hcomposite]
      cases hlast
      rw [hwritten]
      rfl
    · rename_i hother
      refine ⟨kind, 0, before, after, hkind, fun h => absurd h hother, hwriter, hreceiver, ?_⟩
      rw [← Writer.print_print, readText, if_neg hother]
      cases hread
      rfl

end TypeEnv.KeepsComputed

end Reading

/-- Where a record has fields of a name and a layout, every access to the name reads the first of
them: offset, storage kind and size belong to it, and the offset is the reported one, zero in a
union or else the natural one. No run reports that a layout lacks a field, neither one that lowers
item by item nor one that writes as it goes, from whatever layouts of the table were kept, nor a
whole job. -/
theorem member_access_reads_one_field {env : TypeEnv} (henv : env.KeepsComputed) :
    (∀ tag name l, (∃ g ∈ (env.records.find tag).fields, g.name = name) →
      env.layoutOf tag = .ok l →
      ∃ ahead f e, f.name = name ∧ env.FirstField (env.records.find tag) ahead f e ∧
        l.HasAt ahead f e ((env.records.find tag).offsetOf ahead f e) ∧
        l.offset? name = some ((env.records.find tag).offsetOf ahead f e) ∧
        env.ReadsAt tag name f ((env.records.find tag).offsetOf ahead f e)) ∧
    (∀ package cancelled u,
      FailsOnly Failure.FindsFields (Lower.generate env package cancelled u)) ∧
    (∀ package cancelled u,
      Run.Keeps (LayoutCache.Computed env) Failure.FindsFields
        (Emit.generate env package cancelled u)) ∧
    ∀ (job : Command.Job) text, FailsOnly Failure.FindsFields (job.run text).output := by
  have hadmits := henv.admitsLookups
  refine ⟨fun tag name l hnamed hl => ?_, hadmits.generate, hadmits.generate_keeps,
    Command.Job.run_findsFields⟩
  obtain ⟨f, hf⟩ : ∃ f, (env.records.find tag).field? name = some f := by
    obtain ⟨g, hg, hname⟩ := hnamed
    exact Option.isSome_iff_exists.mp (List.find?_isSome.mpr ⟨g, hg, by simpa using hname⟩)
  obtain ⟨hname, ahead, e, hfirst, hat, hoffset⟩ := henv.firstField hf hl
  exact ⟨ahead, f, e, hname, hfirst, hat, hoffset, henv.readsAt hf hl hoffset⟩

/-- A struct with two fields of one name. -/
def twins : RecordTable :=
  [⟨⟨"twins", false⟩,
    [⟨"mark", .scalar ⟨.char, 8, true⟩, 0⟩, ⟨"value", .scalar ⟨.int, 32, true⟩, 0⟩,
    ⟨"value", .scalar ⟨.long, 64, true⟩, 0⟩], none⟩]

theorem twins_access_reads_first :
    ∃ l ahead f e, (TypeEnv.ofMarkers "" "" twins).rememberAll.layoutOf ⟨"twins", false⟩ = .ok l ∧
      l.fields.map (·.offset) = [0, 4, 8] ∧ f.name = "value" ∧
      (TypeEnv.ofMarkers "" "" twins).rememberAll.FirstField
        ((TypeEnv.ofMarkers "" "" twins).rememberAll.records.find ⟨"twins", false⟩) ahead f e ∧
      (TypeEnv.ofMarkers "" "" twins).rememberAll.ReadsAt ⟨"twins", false⟩ "value" f 4 := by
  have hkeeps : (TypeEnv.ofMarkers "" "" twins).rememberAll.KeepsComputed :=
    TypeEnv.keepsComputed_rememberAll rfl
  obtain ⟨l, hl, hoffsets, hvalue⟩ : ∃ l,
      (TypeEnv.ofMarkers "" "" twins).rememberAll.layoutOf ⟨"twins", false⟩ = .ok l ∧
        l.fields.map (·.offset) = [0, 4, 8] ∧ l.offset? "value" = some 4 := ⟨_, rfl, rfl, rfl⟩
  obtain ⟨ahead, f, e, hname, hfirst, -, hoffset, hreads⟩ :=
    (member_access_reads_one_field hkeeps).1 ⟨"twins", false⟩ "value" l (by decide) hl
  rw [hvalue] at hoffset
  rw [← Option.some.inj hoffset] at hreads
  exact ⟨l, ahead, f, e, hl, hoffsets, hname, hfirst, hreads⟩

end DartLowering
