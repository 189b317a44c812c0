/-
The transaction of a submission makes one move of the desk.

# The stages

The four calls of `recordTxn` are four stages, each with what it leaves
behind: the lease is submitted (`SubmitOk`), the group is scanned
(`Scanned`: only the book changed, and the group's row would be linked
to it), it is routed (`Routed`: it brought what `Admission` allows), and
its row is inserted. An exception of the first three leaves the quota
untold. The last one raises only for a group that was refused, which
told it nothing: for one that was graded, the scan checked the row's
integers, and no group of an open lease is on the desk. Each stage also
says why it raised (`RecordFails`).
-/
import Reliquary.Rl.Simulate

namespace Reliquary.Rl

open Store Relation
open Prog (Spec)

namespace RlSubmissions

variable {sha256 : List UInt8 → List UInt8} {token : Nat → String}
  {w u w₀ : SubWorld}

-- ===== the scan

/-- The integers of the group's row fit. -/
def Fits (task : Task) : Prop :=
  sqlInt task.lease.promptIdx = .ok () ∧ sqlInt task.lease.checkpoint = .ok ()

/-- The lease is submitted, and of the book only prompts changed since. -/
structure Submitted (task : Task) (v₀ v : BookWorld) : Prop where
  done : ∃ inZone delivered lease u, SubmitOk task.leaseId task.hotkey inZone
    delivered task.arrivedAt v₀ lease u ∧ v.mem = u.mem
    ∧ v.file.quota = u.file.quota ∧ v.file.leases = u.file.leases

/-- Why the first two stages raised: the lease was refused, or the scan
raised. -/
def ScanFails (live : Live) (task : Task) (graded : Graded)
    (verdict : GroupVerdict) (w₀ w : SubWorld) : Prop :=
  w = bookPart.set (submittable live task.leaseId task.hotkey task.arrivedAt
      (bookPart.view w₀)).2 w₀
    ∨ ∃ inZone delivered lease v e, SubmitOk task.leaseId task.hotkey inZone
      delivered task.arrivedAt (bookPart.view w₀) lease v
      ∧ ∃ x v', verdict = .graded x ∧ (recordOutcome live
        task.lease.environment task.lease.promptIdx task.lease.checkpoint
        graded.rewards x task.arrivedAt).run v = (.error e, v')

/-- The world once the lease is submitted and the group scanned. -/
structure Scanned (sha256 : List UInt8 → List UInt8)
    (token : Nat → String) (task : Task) (verdict : GroupVerdict)
    (w₀ : SubWorld) (scan : Option Scan) (u : SubWorld) : Prop where
  desk : deskOf u = deskOf w₀
  book : BookGrows sha256 token (bookPart.view w₀) (bookPart.view u)
  fresh : ∀ g ∈ w₀.file.groups, g.leaseId ≠ task.leaseId
  linked : ∀ g : GroupRow, g.leaseId = task.leaseId →
    g.environment = task.lease.environment →
    g.promptIdx = task.lease.promptIdx → g.verdict = verdict →
    GroupLinked token (bookPart.view u) g
  refused : scan = none ↔ verdict = .rejected
  first : (scan.any fun s => s.firstScan) = true →
    ∀ p ∈ w₀.file.book.prompts, ¬(p.environment = task.lease.environment
      ∧ p.promptIdx = task.lease.promptIdx)
  fits : verdict ≠ .rejected → Fits task
  submitted : Submitted task (bookPart.view w₀) (bookPart.view u)
  grading : u.mem.grading = w₀.mem.grading

/-- An accepted submission is of a lease whose id was drawn, and which
has no group yet. -/
theorem submitted_new (hw : SubWf sha256 token w₀) {leaseId hotkey : String}
    {inZone delivered : Bool} {now : ℚ} {lease : Lease} {v : BookWorld}
    (h : SubmitOk leaseId hotkey inZone delivered now (bookPart.view w₀)
      lease v) : (∃ i < w₀.mem.book.drawn, leaseId = token i)
      ∧ ∀ g ∈ w₀.file.groups, g.leaseId ≠ leaseId := by
  obtain ⟨r, hr, hid, -, ho, -⟩ := h.was
  constructor
  · obtain ⟨i, hi, hri⟩ := hw.ids r hr
    exact ⟨i, hi, hid.symm.trans hri⟩
  · intro g hg hgid
    have hshut := (hw.linked g hg).shut r hr (hid.trans hgid.symm)
    rw [ho] at hshut
    cases hshut

/-- The lease is submitted and the group scanned, or nothing was told to
the quota. -/
theorem scanned_spec (hw : SubWf sha256 token w₀) (live : Live)
    (task : Task) (graded : Graded) (verdict : GroupVerdict)
    (inZone delivered : Bool) : Spec (fun w => w = w₀)
      (onBook (Rl.submit live task.leaseId task.hotkey inZone delivered
        task.arrivedAt) >>= fun _ => scanOf live task graded verdict)
      (Scanned sha256 token task verdict w₀)
      fun _ w => Quiet w₀ w ∧ ScanFails live task graded verdict w₀ w := by
  refine .bind ((Spec.within (submit_spec live task.leaseId
    task.hotkey inZone delivered task.arrivedAt)).onError ?_) fun lease =>
      Spec.pointwise ?_
  · intro e u hu
    obtain ⟨v, hv, heq⟩ := hu
    have hk : Kept sha256 { closes := Unheld (bookPart.view w₀) }
        (bookPart.view w₀) v := by
      rw [hv]
      exact kept_submittable hw.book (fun _ hid => hid) live task.leaseId
        task.hotkey task.arrivedAt
    rw [heq]
    exact ⟨⟨hk.mem.drawn, hk.mem.paid id⟩, .inl (by rw [hv])⟩
  intro u hu
  obtain ⟨v, hv, heq⟩ := hu
  subst heq
  obtain ⟨⟨i, hi, hid⟩, hfresh⟩ := submitted_new hw hv
  have hk : Kept sha256 { submits := fun id => id = task.leaseId }
      (bookPart.view w₀) v := hv.kept hw.book rfl
  have hgrows : BookGrows sha256 token (bookPart.view w₀) v :=
    hk.grows fun _ => id
  have hpaid : v.mem.paidCalls = w₀.mem.book.paidCalls := hk.mem.paid id
  have hdesk : deskOf (bookPart.set v w₀) = deskOf w₀ := by
    unfold deskOf
    rw [← hpaid]
    rfl
  cases verdict with
  | rejected =>
    refine .pure ?_
    intro x hx
    rw [hx]
    refine ⟨hdesk, hgrows, hfresh, ?_, by simp, by simp, by simp,
      ⟨_, _, _, v, hv, rfl, rfl, rfl⟩, rfl⟩
    intro g hg _ _ hr
    exact ⟨⟨i, lt_of_lt_of_le hi hgrows.drawn, hg.trans hid⟩,
      fun r hrm hrid => hv.shut r hrm (hrid.trans hg),
      fun hne => absurd hr hne⟩
  | graded verdict =>
    have hspec : Spec (fun u => u = v) (recordOutcome live
        task.lease.environment task.lease.promptIdx task.lease.checkpoint
        graded.rewards verdict task.arrivedAt) (OutcomeOk sha256
          { scans := True } v task.lease.environment task.lease.promptIdx
          task.lease.checkpoint) fun _ u => u = v :=
      recordOutcome_spec trivial live _ _ _ _ _ _
    refine .bind ((Spec.within (hspec.and (Spec.self _ v))).onError ?_)
      fun scan => .pure ?_
    · rintro e x ⟨v', ⟨rfl, hraised⟩, rfl⟩
      exact ⟨⟨hk.mem.drawn, hpaid⟩,
        .inr ⟨_, _, _, v', e, hv, verdict, v', rfl, hraised⟩⟩
    · rintro x ⟨v', ⟨hv', -⟩, heq⟩
      rw [heq]
      have hgrows' : BookGrows sha256 token v v' :=
        hv'.kept.grows fun _ => id
      constructor
      case desk =>
        rw [← hdesk]
        unfold deskOf
        rw [show (bookPart.set v' _).mem.book.paidCalls
          = (bookPart.set v w₀).mem.book.paidCalls from
            congrArg BookMem.paidCalls hv'.mem]
        rfl
      case book => exact hgrows.trans hgrows'
      case fresh => exact hfresh
      case linked =>
        intro g hg he hp _
        refine ⟨⟨i, ?_, hg.trans hid⟩, ?_, fun _ => ?_⟩
        · exact lt_of_lt_of_le hi (hgrows.trans hgrows').drawn
        · intro r hr hrid
          have hr : r ∈ v'.file.leases := hr
          rw [hv'.leases] at hr
          exact hv.shut r hr (hrid.trans hg)
        · rw [he, hp]
          exact hv'.prompt
      case refused => simp
      case first =>
        intro hfirst p hp hkey
        have hnone := hv'.first.symm.trans (by simpa using hfirst)
        have hnone : v.file.prompt task.lease.environment
            task.lease.promptIdx = none :=
          Option.isNone_iff_eq_none.1 hnone
        have hno := List.find?_eq_none.1 hnone p (by
          rw [hv.world]
          exact hp)
        simp [hkey.1, hkey.2] at hno
      case fits => exact fun _ => ⟨hv'.fitsPrompt, hv'.fitsK⟩
      case submitted =>
        exact ⟨_, _, _, v, hv, hv'.mem, hv'.quota, hv'.leases⟩
      case grading => rfl

-- ===== the route

/-- The world once a group is routed; `g` is the row it will have. -/
structure Routed (g : GroupRow) (u u' : SubWorld) : Prop where
  desk : ∃ x a es paid, Admission g x a es paid ∧ deskOf u' =
    { groups := u.file.groups, audits := u.file.audits ++ a.toList
      buffer := u.file.buffer ++ x.toList, events := u.file.events ++ es
      paid := u.mem.book.paidCalls ++ paid }
  paid : Paid u u'
  shaped : g.Shaped
  refused : g.verdict = .rejected → u' = u

/-- Why a group is not routed: it is buffered or audited already, or its
checkpoint does not fit. -/
def Unroutable (task : Task) (u : SubWorld) : Prop :=
  sqlInt task.lease.checkpoint ≠ .ok ()
    ∨ (∃ x ∈ u.file.buffer, x.leaseId = task.leaseId)
    ∨ ∃ a ∈ u.file.audits, a.leaseId = task.leaseId

/-- A group that brings nothing. -/
theorem desk_nothing : deskOf u =
    { groups := u.file.groups
      audits := u.file.audits ++ (none : Option AuditRow).toList
      buffer := u.file.buffer ++ (none : Option BufferRow).toList
      events := u.file.events ++ [], paid := u.mem.book.paidCalls ++ [] } := by
  simp [deskOf]

/-- Buffering a group adds its row, or writes nothing. -/
theorem push_spec (group : SubmittedGroup)
    {v₀ : World (List BufferRow) BufferMem} :
    Spec (fun v => v = v₀) (TrainingBuffer.push group)
      (fun _ v => ∃ x : BufferRow, x.leaseId = group.leaseId
        ∧ x.body = group ∧ v.file = v₀.file ++ [x])
      fun _ v => v = v₀ ∧ (sqlInt group.checkpoint ≠ .ok ()
        ∨ ∃ x ∈ v₀.file, x.leaseId = group.leaseId) := by
  refine .bind (Q := fun _ v => ∃ x : BufferRow,
    x.leaseId = group.leaseId ∧ x.body = group
      ∧ v.file = v₀.file ++ [x]) ?_ fun _ => .modify fun _ hv => hv
  refine (Spec.txn_at (E := fun _ v => v = v₀ ∧ (sqlInt group.checkpoint
    ≠ .ok () ∨ ∃ x ∈ v₀.file, x.leaseId = group.leaseId)) (Spec.lift_bind
      (fun _ _ => .get_bind ?_) fun e he => ?_)).onError ?_
  · rintro v rfl
    refine .ite (fun hany => .raise ?_) fun _ => .modify ?_
    · rintro u rfl
      exact ⟨rfl, .inr (by simpa using hany)⟩
    · rintro u rfl
      exact ⟨_, rfl, rfl, rfl⟩
  · exact ⟨rfl, .inl (by rw [he]; exact nofun)⟩
  · rintro e v ⟨u, ⟨rfl, hwhy⟩, rfl⟩
    exact ⟨rfl, hwhy⟩

/-- Queueing an audit adds its row, or writes nothing. -/
theorem queueAudit_spec (task : Task) (group : SubmittedGroup) (forced : Bool) :
    Spec (fun w => w = u) (queueAudit task group forced)
      (fun _ w => ∃ a : AuditRow, a.leaseId = task.leaseId
        ∧ w = { u with file := { u.file with audits := u.file.audits ++ [a] } })
      fun _ w => w = u ∧ ∃ a ∈ u.file.audits, a.leaseId = task.leaseId := by
  refine .get_bind ?_
  rintro w rfl
  refine .ite (fun hany => .raise ?_) fun _ => .modify ?_
  · rintro x rfl
    exact ⟨rfl, by simpa using hany⟩
  · rintro x rfl
    exact ⟨_, rfl, rfl⟩

section Route

variable {task : Task} {graded : Graded} {verdict : GroupVerdict}
  {scan : Option Scan} {tokens : Nat}

/-- A program that routes a group, or changes nothing. -/
abbrev Routes (task : Task)
    (row : Option AuditState × Option Training → GroupRow) (u : SubWorld)
    (p : SubProg (Option AuditState × Option Training)) : Prop :=
  Spec (fun w => w = u) p (fun routed w => Routed (row routed) u w)
    fun _ w => w = u ∧ Unroutable task u

/-- In zone: to the buffer. -/
theorem routed_inZone (hz : verdict = .graded .inZone) :
    Routes task (rowOf task graded verdict scan tokens) u
      (onBuffer (TrainingBuffer.push (task.group graded)) >>= fun _ =>
        pure (none, some .queued)) := by
  refine .bind ((Spec.within (push_spec _)).onError ?_) fun _ =>
    Spec.pure ?_
  · rintro e w ⟨v, ⟨rfl, hwhy⟩, rfl⟩
    exact ⟨rfl, hwhy.imp_right .inl⟩
  · intro w hw
    obtain ⟨v, ⟨x, hid, hbody, hfile⟩, heq⟩ := hw
    rw [heq]
    refine ⟨⟨some x, none, [], [], ?_, ?_⟩, .same rfl rfl, ?_, ?_⟩
    · exact Admission.queued x rfl hid (by rw [hbody, hid])
    · unfold deskOf
      rw [show (bufferPart.set v u).file.buffer = _ from hfile]
      simp [bufferPart, Part.set, Part.view]
    · refine ⟨fun hr => ?_, fun _ => ?_, fun _ => ⟨hz, rfl⟩⟩
      · cases hz.symm.trans hr
      · simp [rowOf]
    · intro hr
      cases hz.symm.trans hr

/-- Refused: nowhere. -/
theorem routed_refused (hz : verdict ≠ .graded .inZone) (hs : scan = none) :
    Routed (rowOf task graded verdict scan tokens (none, none)) u u := by
  refine ⟨⟨none, none, [], [], Admission.refused rfl rfl, desk_nothing⟩,
    .same rfl rfl, ?_, fun _ => rfl⟩
  exact ⟨fun _ => ⟨rfl, rfl, by simp [rowOf, hs]⟩, fun hr => absurd hr hz,
    fun ht => absurd rfl ht⟩

/-- The row of a group out of zone. -/
theorem shaped_outOfZone (hz : verdict ≠ .graded .inZone)
    (hr : verdict ≠ .rejected) (audit : Option AuditState) :
    (rowOf task graded verdict scan tokens (audit, none)).Shaped :=
  ⟨fun h => absurd h hr, fun h => absurd h hz, fun ht => absurd rfl ht⟩

/-- Out of zone and drawn: to an audit. -/
theorem routed_drawn (hz : verdict ≠ .graded .inZone) (hr : verdict ≠ .rejected)
    (forced : Bool) : Routes task (rowOf task graded verdict scan tokens) u
      (queueAudit task (task.group graded) forced >>= fun _ =>
        pure (some .pending, none)) := by
  refine .bind ((queueAudit_spec task _ forced).onError
    fun _ _ he => ⟨he.1, .inr (.inr he.2)⟩) fun _ => .pure ?_
  intro w hw
  obtain ⟨a, hid, heq⟩ := hw
  rw [heq]
  refine ⟨⟨none, some a, [], [], ?_, ?_⟩, .same rfl rfl,
    shaped_outOfZone hz hr _, fun h => absurd h hr⟩
  · exact Admission.drawn a rfl rfl hid
  · simp [deskOf]

/-- Out of zone and let through: a first scan is decided. -/
theorem routed_through (hz : verdict ≠ .graded .inZone)
    (hr : verdict ≠ .rejected) {s : Scan} (hs : scan = some s) :
    Routes task (rowOf task graded verdict scan tokens) u
      ((if s.firstScan then
          firstScan task.leaseId task.hotkey task.arrivedAt .notDrawn tokens
        else pure ()) >>= fun _ => pure (some .notDrawn, none)) := by
  refine .bind (Q := fun _ w => Routed
    (rowOf task graded verdict scan tokens (some .notDrawn, none)) u w)
    (Spec.ite (fun hfirst => ?_) fun _ => .pure ?_) fun _ =>
      Spec.pure fun _ hw => hw
  · refine ((firstScan_spec task.leaseId task.hotkey task.arrivedAt .notDrawn
      tokens).onValue fun _ w hw => ?_).total
    obtain ⟨es, paid, hdesk, hpay⟩ := hw.desk
    refine ⟨⟨none, none, es, paid, ?_, ?_⟩, hw.toPaid,
      shaped_outOfZone hz hr _, fun h => absurd h hr⟩
    · exact Admission.through es paid rfl rfl
        (hpay _ rfl (by simp [rowOf, hs, hfirst]) rfl)
    · rw [hdesk]
      simp [deskOf]
  · intro w hw
    rw [hw]
    exact ⟨⟨none, none, [], [],
      Admission.through [] [] rfl rfl FirstScanPay.none, desk_nothing⟩,
      .same rfl rfl, shaped_outOfZone hz hr _, fun h => absurd h hr⟩

/-- A group is routed, or nothing is written. -/
theorem route_spec (hs : scan = none ↔ verdict = .rejected) (draw : ℚ) :
    Routes task (rowOf task graded verdict scan tokens) u
      (route task (task.group graded) verdict scan tokens draw) := by
  refine .ite routed_inZone fun hz => ?_
  cases scan with
  | none =>
    refine .pure ?_
    intro w hw
    rw [hw]
    exact routed_refused hz rfl
  | some s =>
    have hr : verdict ≠ .rejected := fun h => by cases hs.2 h
    refine .get_bind ?_
    intro w hw
    subst hw
    exact .ite (fun _ => routed_drawn hz hr _) fun _ =>
      routed_through hz hr rfl

end Route

-- ===== the group's row

/-- The new row is new on the desk. -/
theorem Scanned.new (hw : SubWf sha256 token w₀) {task : Task}
    {graded : Graded} {verdict : GroupVerdict} {scan : Option Scan}
    {tokens : Nat} (h : Scanned sha256 token task verdict w₀ scan u)
    (routed : Option AuditState × Option Training) :
    (deskOf w₀).New (rowOf task graded verdict scan tokens routed) where
  fresh := h.fresh
  first e p hf g' hg' := by
    simp only [GroupRow.firstOf, rowOf, Bool.and_eq_true, beq_iff_eq] at hf
    obtain ⟨⟨hfirst, he⟩, hp⟩ := hf
    by_contra hno
    simp only [GroupRow.firstOf, Bool.not_eq_false, Bool.and_eq_true,
      beq_iff_eq] at hno
    obtain ⟨⟨hfirst', he'⟩, hp'⟩ := hno
    -- a first scan was graded, so its prompt had a state
    have hgraded : g'.verdict ≠ .rejected := by
      intro hr
      have hs := ((hw.desk.row g' hg').shaped.rejected hr).2.2
      rw [hs] at hfirst'
      cases hfirst'
    obtain ⟨row, hrow, hre, hrp⟩ := (hw.linked g' hg').scanned hgraded
    exact h.first hfirst row hrow
      ⟨hre.trans (he'.trans he.symm), hrp.trans (hp'.trans hp.symm)⟩

section Row

variable (hinj : Function.Injective token) (hw : SubWf sha256 token w₀)
include hinj hw

/-- The row is inserted; where it cannot be, it is a refused one's. -/
theorem insertGroup_spec {task : Task} {graded : Graded}
    {verdict : GroupVerdict} {scan : Option Scan} {tokens : Nat}
    {routed : Option AuditState × Option Training} {x : SubWorld}
    (hs : Scanned sha256 token task verdict w₀ scan u)
    (hr : Routed (rowOf task graded verdict scan tokens routed) u x) :
    Spec (fun w => w = x)
      (insertGroup (rowOf task graded verdict scan tokens routed))
      (fun _ w => SubStep sha256 token w₀ w ∧ Paid u w)
      fun _ w => w = x ∧ ¬Fits task := by
  have hgroups : x.file.groups = w₀.file.groups := by
    obtain ⟨_, _, _, _, -, hdesk⟩ := hr.desk
    have hx : x.file.groups = u.file.groups := congrArg Desk.groups hdesk
    exact hx.trans (congrArg Desk.groups hs.desk)
  refine .lift_bind (fun _ _ => ?_) fun e he =>
    ⟨rfl, fun hfits => nomatch hfits.1.symm.trans he⟩
  refine .lift_bind (fun _ _ => ?_) fun e he =>
    ⟨rfl, fun hfits => nomatch hfits.2.symm.trans he⟩
  refine .get_bind ?_
  intro y hy
  subst hy
  refine .ite (fun hany => ?_) fun _ => .modify ?_
  · exfalso
    rw [hgroups, List.any_eq_true] at hany
    obtain ⟨g, hg, hid⟩ := hany
    exact hs.fresh g hg (beq_iff_eq.1 hid)
  · intro w hwy
    rw [hwy]
    refine ⟨⟨?desk, hs.book.trans hr.paid.grows, ?groups⟩, hr.paid.credited,
      hr.paid.grading⟩
    case desk =>
      obtain ⟨b, a, es, paid, hadm, hdesk⟩ := hr.desk
      have hm := DeskMove.enter (deskOf w₀) _ b a es paid (hs.new hw routed)
        hr.shaped hadm
      refine ReflGen.single ?_
      convert hm using 1
      unfold deskOf at hdesk ⊢
      have hd := hs.desk
      injection hdesk with h₁ h₂ h₃ h₄ h₅
      injection hd with k₁ k₂ k₃ k₄ k₅
      simp only [Desk.mk.injEq]
      exact ⟨by rw [h₁, k₁], by rw [h₂, k₂], by rw [h₃, k₃],
        by rw [h₄, k₄], by rw [h₅, k₅]⟩
    case groups =>
      intro g hg
      rcases mem_snoc.1 hg with hg | rfl
      · rw [hgroups] at hg
        exact .inl ⟨g, hg, rfl, rfl, rfl, rfl⟩
      · have hbook : BookGrows sha256 token (bookPart.view u)
            (bookPart.view y) := hr.paid.grows
        exact .inr ((hs.linked _ rfl rfl rfl rfl).grows hinj hbook
          ⟨rfl, rfl, rfl, rfl⟩)

/-- Why the transaction of a submission raised. -/
def RecordFails (live : Live) (task : Task) (graded : Graded)
    (verdict : GroupVerdict) (w₀ w : SubWorld) : Prop :=
  ScanFails live task graded verdict w₀ w
    ∨ (∀ g ∈ w₀.file.groups, g.leaseId ≠ task.leaseId) ∧ Unroutable task w₀
    ∨ ¬Fits task

/-- What it did to the book. -/
structure RecordedBook (task : Task) (w₀ w : SubWorld) : Prop where
  book : ∃ v leaseId, Submitted task (bookPart.view w₀) v
    ∧ Credited leaseId v (bookPart.view w)
  grading : w.mem.grading = w₀.mem.grading

/-- **The transaction of a submission** enters its group, or raises with
nothing told. -/
theorem recordTxn_spec (live : Live) (task : Task)
    (graded : Graded) (verdict : GroupVerdict) (tokens : Nat) (draw : ℚ) :
    Spec (fun w => w = w₀) (recordTxn live task graded verdict tokens draw)
      (fun _ w => SubStep sha256 token w₀ w ∧ RecordedBook task w₀ w)
      fun _ w => ∃ wᵣ, (Quiet w₀ wᵣ
          ∧ RecordFails live task graded verdict w₀ wᵣ)
        ∧ w = { wᵣ with file := w₀.file } := by
  refine .txn_at ?_
  have hscan := scanned_spec hw live task graded verdict
    (verdict == .graded .inZone) (verdict != .rejected || graded.faulty)
  refine .bind_assoc (Spec.bind (hscan.onError fun _ _ he =>
    ⟨he.1, .inl he.2⟩) fun scan => .pointwise ?_)
  intro u hu
  have hquiet : Quiet w₀ u :=
    ⟨hu.book.drawn, congrArg Desk.paid hu.desk⟩
  refine .bind ((route_spec hu.refused draw).onError ?_) fun routed =>
      Spec.pointwise fun x hx => (insertGroup_spec hinj hw hu hx).conseq
        (fun _ hy => hy) ?_ ?_
  · rintro e x ⟨rfl, hwhy⟩
    refine ⟨hquiet, .inr (.inl ⟨hu.fresh, ?_⟩)⟩
    have hbuffer : x.file.buffer = w₀.file.buffer :=
      congrArg Desk.buffer hu.desk
    have haudits : x.file.audits = w₀.file.audits :=
      congrArg Desk.audits hu.desk
    rwa [Unroutable, hbuffer, haudits] at hwhy
  · rintro _ y ⟨hstep, ⟨leaseId, hc⟩, hg⟩
    exact ⟨hstep, ⟨_, leaseId, hu.submitted, hc⟩, hg.trans hu.grading⟩
  · rintro _ y ⟨rfl, hfits⟩
    rw [hx.refused (by_contra fun hv => hfits (hu.fits hv))]
    exact ⟨hquiet, .inr (.inr hfits)⟩

-- ===== the submission

/-- The second half of a submission. -/
theorem makes_record (live : Live) (task : Task) (graded : Graded) (draw : ℚ) :
    Makes sha256 token w₀ (record live task graded draw) := by
  have hrest : SubStep sha256 token w₀ { w₀ with mem := { w₀.mem with
      grading := w₀.mem.grading.erase task } } := (SubStep.refl w₀).memory rfl
  refine .modify_bind (Spec.lift_bind (fun verdict _ =>
    Spec.lift_bind (fun tokens _ => ?_) fun _ _ => hrest) fun _ _ => hrest)
  have hstep := recordTxn_spec hinj (hw.memory (m := { w₀.mem with
    grading := w₀.mem.grading.erase task }) rfl) live task graded verdict
    tokens.sum draw
  refine .bind (hstep.conseq (fun _ hx => hx)
    (fun _ _ hq => hq.1.after rfl) ?_) fun _ => .pure fun _ hx => hx
  rintro e x ⟨y, ⟨hq, -⟩, rfl⟩
  have hback : SubStep sha256 token _ { y with file := w₀.file } :=
    SubStep.of_quiet ⟨hq.drawn, hq.paid⟩ rfl
  exact hback.after rfl

end Row

/-- Its first half: at most a sweep of the book. -/
theorem makes_begin (hw : SubWf sha256 token w₀) (live : Live)
    (leaseId hotkey : String) (rollouts : List Rollout) (arrivedAt : ℚ) :
    Makes sha256 token w₀ (begin_ live leaseId hotkey rollouts arrivedAt) := by
  have hcheck := stays_checkSubmission
    (s := { closes := Unheld (bookPart.view w₀) }) hw.book
    (fun _ hid => hid) live leaseId hotkey arrivedAt
  have hstep : ∀ v, Kept sha256 { closes := Unheld (bookPart.view w₀) }
      (bookPart.view w₀) v → SubStep sha256 token w₀ (bookPart.set v w₀) :=
    fun v hv => SubStep.of_book (hv.grows fun _ => id) (hv.mem.paid id)
  refine .bind ((Spec.within hcheck).onError ?_) fun lease =>
    Spec.pointwise ?_
  · intro e x hx
    obtain ⟨v, hv, heq⟩ := hx
    rw [heq]
    exact hstep v hv
  · intro x hx
    obtain ⟨v, hv, heq⟩ := hx
    subst heq
    refine .modify_bind (Spec.pure ?_)
    intro y hy
    rw [hy]
    exact (hstep v hv).memory rfl

end RlSubmissions

end Reliquary.Rl
