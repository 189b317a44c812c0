/-
Each operation of the validator is at most one move of the desk.

# The simulation

`SubStep w w'` relates the worlds before and after an operation: the
desk made one move or none, the book grew, and a group that is new is
linked to the book (`GroupLinked`): its lease has an id that was drawn
and is not open, and its prompt has a state. These links are what makes
a new group new: a submission is accepted for an open lease only, so no
group of its lease is on the desk; a scan is a first one only when its
prompt has no state, so no group of its prompt was graded before.

An operation that raises rolls the file back, and the desk is the file
and the history of payments. So each spec below also says that nothing
raises once a payment was told: the memory is as it was (`MakesPaid`),
or no payment was added to it (`Quiet`).
-/
import Reliquary.Rl.System
import Reliquary.Rl.HandOut

namespace Reliquary.Rl

open Store Relation List Option
open Prog (Spec)
open Pay (Payable)

-- ===== the simulation

/-- The desk of a world. -/
def deskOf (w : SubWorld) : Desk where
  groups := w.file.groups
  audits := w.file.audits
  buffer := w.file.buffer
  events := w.file.events
  paid := w.mem.book.paidCalls

/-- What ties a group to the book. -/
structure GroupLinked (token : Nat → String) (v : BookWorld)
    (g : GroupRow) : Prop where
  drawn : ∃ i < v.mem.drawn, g.leaseId = token i
  shut : ∀ r ∈ v.file.leases, r.leaseId = g.leaseId → r.isOpen = false
  scanned : g.verdict ≠ .rejected → ∃ p ∈ v.file.prompts,
    p.environment = g.environment ∧ p.promptIdx = g.promptIdx

/-- The columns of a group that never change. -/
def SameGroup (g g' : GroupRow) : Prop :=
  g'.leaseId = g.leaseId ∧ g'.environment = g.environment
    ∧ g'.promptIdx = g.promptIdx ∧ g'.verdict = g.verdict

/-- What an operation may do. -/
structure SubStep (sha256 : List UInt8 → List UInt8)
    (token : Nat → String) (w w' : SubWorld) : Prop where
  desk : ReflGen DeskMove (deskOf w) (deskOf w')
  book : BookGrows sha256 token (bookPart.view w) (bookPart.view w')
  groups : ∀ g' ∈ w'.file.groups, (∃ g ∈ w.file.groups, SameGroup g g')
      ∨ GroupLinked token (bookPart.view w') g'

/-- What holds in every reachable world. -/
structure SubWf (sha256 : List UInt8 → List UInt8) (token : Nat → String)
    (w : SubWorld) : Prop where
  book : Wf sha256 w.file.book
  ids : IdsDrawn token (bookPart.view w)
  desk : DeskWf (deskOf w)
  linked : ∀ g ∈ w.file.groups, GroupLinked token (bookPart.view w) g

variable {sha256 : List UInt8 → List UInt8} {token : Nat → String}
  {w w' w₀ : SubWorld} {leaseId : String} {m : SubMem} {v v' : BookWorld}

/-- A linked group stays linked as the book grows: the ids drawn since
are others. -/
theorem GroupLinked.grows (hinj : Function.Injective token) {g g' : GroupRow}
    (h : GroupLinked token v g) (hb : BookGrows sha256 token v v')
    (hs : SameGroup g g') : GroupLinked token v' g' := by
  obtain ⟨hid, he, hp, hv⟩ := hs
  obtain ⟨i, hi, hgi⟩ := h.drawn
  constructor
  · exact ⟨i, lt_of_lt_of_le hi hb.drawn, hid.trans hgi⟩
  · intro r' hr' hrid
    rcases hb.leases r' hr' with ⟨r, hr, hev⟩ | ⟨j, hj, hrj⟩
    · have hno := h.shut r hr (hev.leaseId.symm.trans (hrid.trans hid))
      cases ho : r'.isOpen with
      | false => rfl
      | true =>
        rw [(hev.opened ho).1] at hno
        cases hno
    · exfalso
      have hij : i = j := hinj (by rw [← hgi, ← hrj, hrid, hid])
      omega
  · intro hr
    rw [hv] at hr
    obtain ⟨p, hpm, hpe, hpp⟩ := h.scanned hr
    obtain ⟨p', hpm', hpe', hpp'⟩ := hb.prompts p hpm
    exact ⟨p', hpm', by rw [hpe', hpe, he], by rw [hpp', hpp, hp]⟩

/-- **A step keeps the world well formed.** -/
theorem SubStep.wf (hinj : Function.Injective token)
    (h : SubStep sha256 token w w') (hw : SubWf sha256 token w) :
    SubWf sha256 token w' where
  book := h.book.wf hw.book
  ids := h.book.ids hw.ids
  desk := by
    have hm := h.desk
    generalize hd : deskOf w' = d' at hm
    cases hm with
    | refl => exact hw.desk
    | single hm => exact hm.wf hw.desk
  linked := by
    intro g' hg'
    rcases h.groups g' hg' with ⟨g, hg, hs⟩ | hl
    · exact (hw.linked g hg).grows hinj h.book hs
    · exact hl

/-- A step keeps the payments covered. -/
theorem SubStep.paidOnce (h : SubStep sha256 token w w')
    (hw : (deskOf w).PaidOnce) : (deskOf w').PaidOnce := by
  have hm := h.desk
  generalize hd : deskOf w' = d' at hm
  cases hm with
  | refl => exact hw
  | single hm => exact hm.paidOnce hw

-- ===== kinds of steps

/-- Nothing was told to the quota, and the draws only went on: what is
left of a call whose transaction was rolled back. -/
structure Quiet (w₀ w : SubWorld) : Prop where
  drawn : w₀.mem.book.drawn ≤ w.mem.book.drawn
  paid : w.mem.book.paidCalls = w₀.mem.book.paidCalls

/-- Only the file was written. -/
theorem Quiet.of_mem (h : w.mem = w₀.mem) : Quiet w₀ w := by
  constructor
  · rw [h]
  · rw [h]

theorem Quiet.of_eq (h : w = w₀) : Quiet w₀ w := .of_mem (h ▸ rfl)

/-- The file as it was. -/
theorem SubStep.of_quiet (h : Quiet w w') (hf : w'.file = w.file) :
    SubStep sha256 token w w' where
  desk := by
    have hd : deskOf w' = deskOf w := by
      unfold deskOf
      rw [hf, h.paid]
    rw [hd]
  book := BookGrows.of_file (congrArg Db.book hf) h.drawn
  groups g hg := .inl ⟨g, hf ▸ hg, rfl, rfl, rfl, rfl⟩

theorem SubStep.refl (w : SubWorld) : SubStep sha256 token w w :=
  SubStep.of_quiet (Quiet.of_mem rfl) rfl

/-- A change of the book alone that tells the quota of no payment. -/
theorem SubStep.of_book {v : BookWorld}
    (hb : BookGrows sha256 token (bookPart.view w) v)
    (hp : v.mem.paidCalls = w.mem.book.paidCalls) :
    SubStep sha256 token w (bookPart.set v w) where
  desk := by
    have hd : deskOf (bookPart.set v w) = deskOf w := by
      unfold deskOf
      rw [← hp]
      rfl
    rw [hd]
  book := hb
  groups g hg := .inl ⟨g, hg, rfl, rfl, rfl, rfl⟩

/-- The desk and the book of a world do not read the rest of the
memory. -/
theorem deskOf_memory (hm : m.book = w.mem.book) :
    deskOf { w with mem := m } = deskOf w
      ∧ bookPart.view { w with mem := m } = bookPart.view w := by
  constructor
  · unfold deskOf
    rw [hm]
  · show (⟨w.file.book, m.book⟩ : BookWorld) = ⟨w.file.book, w.mem.book⟩
    rw [hm]

/-- A change of that memory after a step. -/
theorem SubStep.memory (h : SubStep sha256 token w w')
    (hm : m.book = w'.mem.book) :
    SubStep sha256 token w { w' with mem := m } := by
  obtain ⟨hd, hv⟩ := deskOf_memory hm
  constructor
  · rw [hd]
    exact h.desk
  · rw [hv]
    exact h.book
  · rw [hv]
    exact h.groups

/-- A change of that memory before it. -/
theorem SubStep.after (h : SubStep sha256 token { w with mem := m } w')
    (hm : m.book = w.mem.book) : SubStep sha256 token w w' := by
  obtain ⟨hd, hv⟩ := deskOf_memory hm
  constructor
  · rw [← hd]
    exact h.desk
  · rw [← hv]
    exact h.book
  · exact h.groups

/-- Nor does what holds in every world. -/
theorem SubWf.memory (h : SubWf sha256 token w)
    (hm : m.book = w.mem.book) : SubWf sha256 token { w with mem := m } := by
  obtain ⟨hd, hv⟩ := deskOf_memory hm
  constructor
  · exact h.book
  · rw [hv]
    exact h.ids
  · rw [hd]
    exact h.desk
  · rw [hv]
    exact h.linked

/-- What it is for an operation to make a step. -/
abbrev Makes {α : Type} (sha256 : List UInt8 → List UInt8)
    (token : Nat → String) (w₀ : SubWorld) (p : SubProg α) : Prop :=
  Spec (fun w => w = w₀) p (fun _ w => SubStep sha256 token w₀ w)
    fun _ w => SubStep sha256 token w₀ w

/-- A transaction makes a step when its body does, and is quiet where it
raises. -/
theorem makes_txn {α : Type} {p : SubProg α} (h : Spec (fun w => w = w₀) p
      (fun _ w => SubStep sha256 token w₀ w) fun _ w => Quiet w₀ w) :
    Makes sha256 token w₀ (Prog.txn p) := by
  refine (Spec.txn_at h).onError ?_
  intro e w hw
  obtain ⟨wᵣ, hq, heq⟩ := hw
  rw [heq]
  exact SubStep.of_quiet ⟨hq.drawn, hq.paid⟩ rfl

/-- The book was credited at most, and the same submissions are being
graded. -/
structure Paid (w₀ w : SubWorld) : Prop where
  credited : ∃ leaseId, Credited leaseId (bookPart.view w₀) (bookPart.view w)
  grading : w.mem.grading = w₀.mem.grading

/-- Nothing was told of the book. -/
theorem Paid.same (hb : bookPart.view w = bookPart.view w₀)
    (hg : w.mem.grading = w₀.mem.grading) : Paid w₀ w :=
  ⟨⟨"", .inl hb⟩, hg⟩

/-- A step in which the book was credited at most. -/
structure PaidStep (sha256 : List UInt8 → List UInt8) (token : Nat → String)
    (w w' : SubWorld) : Prop
    extends SubStep sha256 token w w', Paid w w'

/-- What it is for an operation to make such a step, or to change
nothing. -/
abbrev MakesPaid {α : Type} (sha256 : List UInt8 → List UInt8)
    (token : Nat → String) (w₀ : SubWorld) (p : SubProg α) : Prop :=
  Spec (fun w => w = w₀) p (fun _ w => PaidStep sha256 token w₀ w)
    fun _ w => w = w₀

-- ===== the buffer

/-- A method of the buffer that only hands rows out or puts them back. -/
theorem makes_onBuffer {α : Type} {p : BufferProg α}
    (h : Spec (fun v => v = bufferPart.view w₀) p
      (fun _ v => HandedRows w₀.file.buffer v.file)
      fun _ v => HandedRows w₀.file.buffer v.file) :
    Makes sha256 token w₀ (onBuffer p) := by
  have hstep : ∀ v : World (List BufferRow) BufferMem,
      HandedRows w₀.file.buffer v.file →
      SubStep sha256 token w₀ (bufferPart.set v w₀) := by
    intro v hv
    constructor
    · exact ReflGen.single (DeskMove.hand (deskOf w₀) v.file hv)
    · exact BookGrows.refl _
    · exact fun g hg => .inl ⟨g, hg, rfl, rfl, rfl, rfl⟩
  refine (Spec.within h).conseq (fun _ hw => hw) ?_ ?_
  · intro _ w hw
    obtain ⟨v, hv, heq⟩ := hw
    rw [heq]
    exact hstep v hv
  · intro _ w hw
    obtain ⟨v, hv, heq⟩ := hw
    rw [heq]
    exact hstep v hv

-- ===== first scans

/-- What deciding a first scan did: its event, and pay only with it. -/
structure FirstScanDone (leaseId : String) (audit : AuditState)
    (w₀ w : SubWorld) : Prop extends Paid w₀ w where
  desk : ∃ es paid, deskOf w = { deskOf w₀ with
      events := w₀.file.events ++ es
      paid := w₀.mem.book.paidCalls ++ paid }
    ∧ ∀ g : GroupRow, g.leaseId = leaseId → g.firstScan = true →
        g.audit = some audit → FirstScanPay g es paid

/-- A credit grows the book. -/
theorem Credited.grows
    (h : Credited leaseId v v') : BookGrows sha256 token v v' :=
  (h.kept (s := { pays := True }) trivial).grows fun _ => id

theorem Paid.grows (h : Paid w₀ w) :
    BookGrows sha256 token (bookPart.view w₀) (bookPart.view w) := by
  obtain ⟨leaseId, hc⟩ := h.credited
  exact hc.grows

theorem Credited.paid
    (h : Credited leaseId v v') : ∃ paid, (paid = [] ∨ paid = [leaseId])
      ∧ v'.mem.paidCalls = v.mem.paidCalls ++ paid := by
  rcases h with rfl | ⟨hotkey, event, -, rfl⟩
  · exact ⟨[], .inl rfl, (append_nil _).symm⟩
  · exact ⟨[leaseId], .inr rfl, rfl⟩

/-- A credit in the larger world, after which nothing of it raises. -/
theorem credit_onBook (leaseId : String) (now : ℚ) :
    Spec (fun w => w = w₀) (onBook (credit leaseId now))
      (fun _ w => ∃ v, Credited leaseId (bookPart.view w₀) v
        ∧ w = bookPart.set v w₀) fun _ _ => False := by
  refine (Spec.within (credit_spec leaseId now)).onError ?_
  intro e w hw
  obtain ⟨v, hv, -⟩ := hw
  exact hv

namespace RlSubmissions

/-- Deciding a first scan never raises. -/
theorem firstScan_spec (leaseId hotkey : String) (at_ : ℚ)
    (audit : AuditState) (tokens : Nat) :
    Spec (fun w => w = w₀) (firstScan leaseId hotkey at_ audit tokens)
      (fun _ w => FirstScanDone leaseId audit w₀ w) fun _ _ => False := by
  refine .get_bind ?_
  intro w hw
  subst hw
  refine .ite (fun hpay => ?_) fun _ => .modify ?_
  · refine .modify_bind ((credit_onBook leaseId at_).onValue ?_)
    intro _ u hu
    obtain ⟨v, hv, heq⟩ := hu
    obtain ⟨paid, hpaid, hcalls⟩ := hv.paid
    rw [heq]
    refine ⟨⟨⟨leaseId, hv⟩, rfl⟩,
      [{ seq := w.file.events.length + 1, leaseId, hotkey, at_
         kind := .firstScan w.mem.config.firstScanFraction
           (audit == .passed) }], paid, ?_, ?_⟩
    · unfold deskOf
      rw [show (bookPart.set v _).mem.book.paidCalls = _ from hcalls]
      rfl
    · intro g hid hfirst haudit
      refine FirstScanPay.paid _ paid hid.symm rfl
        w.mem.config.firstScan_fraction.1 ⟨hfirst, ?_⟩ (hid ▸ hpaid)
      rw [haudit, some.injEq, some.injEq]
      exact hpay.1
  · intro u hu
    rw [hu]
    refine ⟨.same rfl rfl,
      [{ seq := w.file.events.length + 1, leaseId, hotkey, at_
         kind := .firstScanForfeited audit tokens }], [], ?_, ?_⟩
    · rw [append_nil]
      rfl
    · intro g hid _ _
      exact FirstScanPay.forfeited _ hid.symm rfl trivial

-- ===== audits

/-- Logging a verdict changes no table of the desk. -/
theorem verdict_spec (leaseId hotkey : String) (source : VerdictSource)
    (passed : Bool) (failureClass : Option String) (forced : Bool) (now : ℚ) :
    Spec (fun w => w = w₀)
      (verdict leaseId hotkey source passed failureClass forced now)
      (fun _ w => ∃ rows, w = { w₀ with
        file := { w₀.file with verdicts := rows } })
      fun _ w => w = w₀ ∧ passed = false := by
  refine .ite (fun hf => .raise ?_) fun _ =>
    Spec.modify ?_
  · exact fun w hw => ⟨hw, hf.1⟩
  · intro w hw
    rw [hw]
    exact ⟨_, rfl⟩

theorem auditVerdict_spec (leaseId : String) (result : AuditResult)
    (a : AuditRow) (now : ℚ) :
    Spec (fun w => w = w₀) (auditVerdict leaseId result a now)
      (fun _ w => ∃ rows, w = { w₀ with
        file := { w₀.file with verdicts := rows } })
      fun _ w => w = w₀ := by
  unfold auditVerdict
  split
  · exact (verdict_spec _ _ _ _ _ _ _).onError fun _ _ he => he.1
  · refine .ite (fun _ => .modify ?_) fun _ =>
      Spec.pure ?_
    · intro w hw
      rw [hw]
      exact ⟨_, rfl⟩
    · intro w hw
      exact ⟨w₀.file.verdicts, hw⟩

/-- The audits once one is concluded: its body is gone, the others are
as they were. -/
theorem concluded_audits (leaseId : String) (lag : Int)
    (audits : List AuditRow) :
    Forall₂ (fun a a' : AuditRow => a'.leaseId = a.leaseId
        ∧ (a'.body.isSome = true → a.leaseId ≠ leaseId
          ∧ a'.body = a.body)) audits
      (updateWhere (fun a => a.leaseId == leaseId)
        (fun a => { a with body := none, lag := some lag }) audits) := by
  unfold updateWhere
  rw [forall₂_map_right_iff, forall₂_same]
  intro a _
  by_cases hid : a.leaseId = leaseId
  · rw [if_pos (by simpa using hid)]
    exact ⟨rfl, fun h => by cases h⟩
  · rw [if_neg (by simpa using hid)]
    exact ⟨rfl, fun _ => ⟨hid, rfl⟩⟩

/-- What `report_audit` finds: a pending audit and its group. -/
theorem pendingAudit_some {db : Db} {a : AuditRow}
    {g : GroupRow} (h : pendingAudit db leaseId = some (a, g)) :
    a ∈ db.audits ∧ a.leaseId = leaseId ∧ a.body.isSome = true
      ∧ g ∈ db.groups ∧ g.leaseId = leaseId := by
  unfold pendingAudit at h
  split at h
  · cases h
  next a' ha' =>
    rw [map_eq_some_iff] at h
    obtain ⟨g', hg', heq⟩ := h
    injection heq with ha hg
    subst ha hg
    have hp := find?_some ha'
    simp only [Bool.and_eq_true, beq_iff_eq] at hp
    exact ⟨mem_of_find?_eq_some ha', hp.1, hp.2,
      mem_of_find?_eq_some hg', by simpa using find?_some hg'⟩

/-- The groups after an update of one lease's row. -/
theorem sameGroup_update (id : String) {f : GroupRow → GroupRow}
    (hf : ∀ g, SameGroup g (f g)) {groups : List GroupRow} {g' : GroupRow}
    (h : g' ∈ updateWhere (fun g => g.leaseId == id) f groups) :
    ∃ g ∈ groups, SameGroup g g' := by
  obtain ⟨g, hg, ⟨-, rfl⟩ | ⟨-, rfl⟩⟩ := mem_updateRow.1 h
  · exact ⟨g, hg, hf g⟩
  · exact ⟨g', hg, rfl, rfl, rfl, rfl⟩

/-- The step a conclusion makes, given the events and payments of its
first scan. -/
theorem concludes {state : AuditState} {lag : Int}
    {rows : List VerdictRow} {a : AuditRow} {g : GroupRow}
    {es : List EventRow} {paid : List String} {u x : SubWorld}
    (hu : u = { w with
      file := concludeAudit leaseId state lag
        { w.file with verdicts := rows } })
    (hfound : pendingAudit w.file leaseId = some (a, g))
    (hdesk : deskOf x = { deskOf u with
      events := u.file.events ++ es
      paid := u.mem.book.paidCalls ++ paid })
    (hpay : FirstScanPay { g with audit := some state } es paid)
    (hp : Paid u x) : PaidStep sha256 token w x := by
  obtain ⟨ha, haid, hbody, hg, hgid⟩ := pendingAudit_some hfound
  subst hu
  refine ⟨⟨?_, hp.grows, ?_⟩, hp.credited, hp.grading⟩
  · rw [hdesk]
    have hm := DeskMove.conclude (deskOf w) g a _ state es paid hg ha
      (haid.trans hgid.symm) hbody (concluded_audits g.leaseId lag _) hpay
    rw [hgid] at hm
    exact ReflGen.single hm
  · intro g' hg'
    have hgroups : x.file.groups = _ := congrArg Desk.groups hdesk
    rw [hgroups] at hg'
    refine .inl (sameGroup_update leaseId
      (f := fun g => { g with audit := some state }) ?_ hg')
    exact fun _ => ⟨rfl, rfl, rfl, rfl⟩

/-- **An audit's report** concludes it, or changes nothing. -/
theorem paid_reportAudit (leaseId : String) (result : AuditResult) (now : ℚ) :
    MakesPaid sha256 token w₀ (reportAudit leaseId result now) := by
  refine .txn_mem (Spec.get_bind ?_)
  intro w hw
  subst hw
  split
  · exact .raise fun _ => congrArg World.mem
  next a g hfound =>
  refine .bind ((auditVerdict_spec leaseId result a now).onError
    fun _ _ => congrArg World.mem) fun _ => .pointwise ?_
  rintro u ⟨rows, rfl⟩
  refine .modify_bind ?_
  have hgid := (pendingAudit_some hfound).2.2.2.2
  refine .ite (fun hfirst => ?_) fun _ => .pure ?_
  · refine ((firstScan_spec leaseId a.hotkey now result.state
      g.completionTokens).onValue fun _ x hx => ?_).total
    obtain ⟨es, paid, hdesk, hpay⟩ := hx.desk
    exact concludes rfl hfound hdesk (hpay _ hgid hfirst rfl) hx.toPaid
  · rintro x rfl
    refine concludes rfl hfound ?_ FirstScanPay.none (.same rfl rfl)
    rw [append_nil, append_nil]
    rfl

/-- A forward that raised: the audits keep their leases and bodies. -/
theorem paid_retryAudit (leaseId : String) :
    MakesPaid sha256 token w₀ (retryAudit leaseId) := by
  refine .txn_mem (Spec.modify_bind (Spec.get_bind ?_))
  rintro u rfl
  split
  · exact .raise fun _ => congrArg World.mem
  · refine .pure ?_
    rintro x rfl
    refine ⟨⟨ReflGen.single (DeskMove.retry _ _ ?_), BookGrows.refl _,
      fun g hg => .inl ⟨g, hg, rfl, rfl, rfl, rfl⟩⟩, ⟨"", .inl rfl⟩, rfl⟩
    refine forall₂_updateWhere ?_ ?_
    · exact fun _ => ⟨rfl, rfl⟩
    · exact fun _ _ _ => ⟨rfl, rfl⟩

/-- The operator's ban: a row of the book, and an event that pays
nobody. -/
theorem makes_blacklist (hotkey : String) (til : ℚ) (reason : String)
    (now : ℚ) : Makes sha256 token w₀ (blacklist hotkey til reason now) := by
  refine makes_txn (Spec.bind (Q := fun _ u => u = bookPart.set
    (ban hotkey til (bookPart.view w₀)) w₀) ?_ fun _ => .modify ?_)
  · intro w hw
    subst hw
    rfl
  · intro u hu
    rw [hu]
    have hb : Kept sha256 {} (bookPart.view w₀)
        (ban hotkey til (bookPart.view w₀)) :=
      kept_ban (Kept.refl _) hotkey til
    have hm := DeskMove.note (deskOf w₀)
      { seq := w₀.file.events.length + 1, leaseId := "", hotkey
        kind := .ban reason til, at_ := now } rfl trivial
    exact ⟨ReflGen.single hm, hb.grows fun _ => id,
      fun g hg => .inl ⟨g, hg, rfl, rfl, rfl, rfl⟩⟩

-- ===== the trainer's report

/-- The buffered group of a lease. -/
theorem get_some {t : List BufferRow}
    {group : SubmittedGroup} (h : TrainingBuffer.get leaseId t = some group) :
    ∃ x ∈ t, x.leaseId = leaseId := by
  unfold TrainingBuffer.get at h
  rw [map_eq_some_iff] at h
  obtain ⟨x, hx, -⟩ := h
  exact ⟨x, mem_of_find?_eq_some hx, by simpa using find?_some hx⟩

/-- A report that passed its check has no negative rate or count. -/
theorem checkReport_payable {report : TrainingReport} {group : SubmittedGroup}
    {model : List Nat} (h : checkReport report group = .ok model) :
    (∀ m ∈ report.rolloutMatch, 0 ≤ m)
      ∧ ∀ counts ∈ report.matchedTokens, ∀ c ∈ counts, 0 ≤ c := by
  unfold checkReport at h
  split at h
  · cases h
  next hrates =>
    push Not at hrates
    refine ⟨fun m hm => (hrates.2 m hm).1, ?_⟩
    cases hmodel : group.modelTokensTo report.rolloutMatch.length with
    | error e =>
      rw [hmodel] at h
      cases h
    | ok model' =>
      rw [hmodel] at h
      have hlen : model'.length = report.rolloutMatch.length := by
        rw [← (mapM_forall₂ hmodel).length_eq, length_range]
      have h : (if ∃ matched ∈ report.matchedTokens,
          matched.length ≠ report.rolloutMatch.length
            ∨ ∃ nm ∈ matched.zip model', ¬(0 ≤ nm.1 ∧ nm.1 ≤ nm.2) then
        Except.error _ else pure model') = .ok model := h
      split at h
      · cases h
      next hcounts =>
        push Not at hcounts
        intro counts hc c hmem
        obtain ⟨hsame, hpair⟩ := hcounts counts hc
        -- each count has its rollout's model tokens beside it
        obtain ⟨i, hi, rfl⟩ := getElem_of_mem hmem
        have hi' : i < model'.length := by omega
        have hzip : (counts[i], model'[i]) ∈ counts.zip model' := by
          rw [mem_iff_getElem]
          exact ⟨i, by rw [length_zip]; omega, by simp⟩
        exact (hpair _ hzip).1

/-- The file once a group is reported, up to its verdict. -/
def reportedDb (db : Db) (e : EventRow) (training : Training)
    (verdicts : List VerdictRow) : Db :=
  { db with
    groups := setTraining e.leaseId training db.groups
    buffer := TrainingBuffer.remove e.leaseId db.buffer
    events := db.events ++ [e]
    verdicts := verdicts }

/-- The step a report makes, whatever verdict it logs. -/
theorem PaidStep.report {x : BufferRow} {e : EventRow} {t : Tally}
    {training : Training} {v : BookWorld} {paid : List String}
    (hx : x ∈ w.file.buffer) (hid : x.leaseId = e.leaseId)
    (ht : e.kind.tally = some t) (he : Payable e)
    (ho : Outcome e.leaseId training t paid)
    (hc : Credited e.leaseId (bookPart.view w) v)
    (hp : v.mem.paidCalls = w.mem.book.paidCalls ++ paid)
    (verdicts : List VerdictRow) : PaidStep sha256 token w (bookPart.set v
      { w with file := reportedDb w.file e training verdicts }) where
  desk := by
    have hm := DeskMove.report (deskOf w) x training t e paid hx hid.symm ht
      he (hid ▸ ho)
    rw [hid] at hm
    unfold deskOf
    rw [show (bookPart.set v _).mem.book.paidCalls = _ from hp]
    exact ReflGen.single hm
  book := hc.grows
  credited := ⟨e.leaseId, hc⟩
  grading := rfl
  groups g' hg' := by
    refine .inl (sameGroup_update e.leaseId
      (f := fun g => { g with training := some training }) ?_ hg')
    exact fun _ => ⟨rfl, rfl, rfl, rfl⟩

/-- **A training report** takes its group out of the buffer with one
event, or changes nothing. -/
theorem paid_reportTxn (report : TrainingReport) (moved : Bool) (now : ℚ) :
    MakesPaid sha256 token w₀ (reportTxn report moved now) := by
  refine .txn_mem (Spec.get_bind ?_)
  intro w hw
  subst hw
  split
  · exact .raise fun _ => congrArg World.mem
  next group hfound =>
  obtain ⟨x, hx, hxid⟩ := get_some hfound
  refine .modify_bind (Spec.lift_bind (fun model hcheck => ?_)
    fun _ _ => rfl)
  refine .modify_bind (Spec.ite (fun hacc => ?_) fun hacc => ?_)
  · rw [if_pos hacc]
    refine .modify_bind (Spec.bind
      ((credit_onBook report.leaseId now).total) fun _ =>
      Spec.pointwise ?_)
    rintro u ⟨v, hv, rfl⟩
    obtain ⟨paid, hpaid, hcalls⟩ := hv.paid
    -- the pass is logged: a verdict needs a class only for a failure
    refine (verdict_spec report.leaseId group.hotkey .training true none
      false now).conseq (fun _ hu => hu) ?_ fun _ _ hy => nomatch hy.2
    rintro _ y ⟨rows, rfl⟩
    refine PaidStep.report (e := ⟨_, report.leaseId, group.hotkey,
      .trained _, now⟩) hx hxid rfl ?_ (Outcome.accepted paid hpaid) hv hcalls
      rows
    exact checkReport_payable hcheck
  · rw [if_neg hacc]
    refine .modify_bind ?_
    have hstep : ∀ detail rows, PaidStep sha256 token w { w with
        file := reportedDb w.file ⟨w.file.events.length + 1, report.leaseId,
          group.hotkey, .untrained detail report.failureClass, now⟩
          .rejected rows } := by
      intro detail rows
      refine PaidStep.report hx hxid rfl ?_ Outcome.rejected (.inl rfl)
        (append_nil _).symm rows
      trivial
    refine .ite (fun _ => ?_) fun _ => .pure ?_
    · refine (verdict_spec report.leaseId group.hotkey .training false
        report.failureClass false now).conseq (fun _ hx => hx) ?_
        fun _ _ hy => by rw [hy.1]
      rintro _ y ⟨rows, rfl⟩
      exact hstep _ rows
    · rintro y rfl
      exact hstep _ w.file.verdicts

end RlSubmissions

end Reliquary.Rl
