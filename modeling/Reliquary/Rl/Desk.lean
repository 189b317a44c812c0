/-
What becomes of a group: the abstract model of the submission tables.

# The model

The desk is the four tables that say where a group stands, and the
history of payments told to the quota. A group enters it in one of four
ways (refused, queued for training, drawn for an audit, or let through),
leaves the buffer by one report and the audit queue by one conclusion,
and each of these writes its event in the same transaction, one the
ledger takes (`Payable`). `DeskMove` is that, and nothing of how the
methods compute it.

# The invariant

`RowWf` ties a group's row to the events of its lease: a training that
was accepted has its one TRAINED event, and so on. The counts are what
every result about payments and about the buffer reads off; each move
changes the row and the counts of one lease, so its proof is about that
lease (`RowWf.frame` is the others).
-/
import Reliquary.Store.Table
import Reliquary.Pay.Ledger

namespace Reliquary.Rl

open Store List Option EventRow
open Pay (Payable)

-- ===== the model

/-- The events that are counted. -/
inductive Tally
  | trained | untrained | firstScan
  deriving DecidableEq, Repr

/-- What an event counts as, if anything. -/
def EventKind.tally : EventKind → Option Tally
  | .firstScan .. => some .firstScan
  | .firstScanForfeited .. => none
  | .trained .. => some .trained
  | .untrained .. => some .untrained
  | .ban .. => none

/-- The tables that say where a group stands, and the leases
`record_paid` was called for. -/
structure Desk where
  groups : List GroupRow
  audits : List AuditRow
  buffer : List BufferRow
  events : List EventRow
  paid : List String

/-- Is this an event of the lease that counts as `t`? -/
def EventRow.counts (t : Tally) (id : String) (e : EventRow) : Bool :=
  e.leaseId == id && e.kind.tally == some t

/-- How many events of the lease count as `t`. -/
def Desk.count (d : Desk) (t : Tally) (id : String) : Nat :=
  d.events.countP (counts t id)

/-- A first scan of the prompt. -/
def GroupRow.firstOf (e : String) (p : Int) (g : GroupRow) : Bool :=
  g.firstScan && g.environment == e && g.promptIdx == p

/-- The first scan is payable as the row stands. -/
def GroupRow.payable (g : GroupRow) : Prop :=
  g.firstScan = true ∧ (g.audit = some .notDrawn ∨ g.audit = some .passed)

instance (g : GroupRow) : Decidable g.payable :=
  inferInstanceAs (Decidable (_ ∧ (_ ∨ _)))

/-- Which of a row's columns go together: a refused group has neither
audit nor training, and training is for the groups in zone alone. -/
structure GroupRow.Shaped (g : GroupRow) : Prop where
  rejected : g.verdict = .rejected →
    g.training = none ∧ g.audit = none ∧ g.firstScan = false
  inZone : g.verdict = .graded .inZone → g.training ≠ none
  training : g.training ≠ none → g.verdict = .graded .inZone ∧ g.audit = none

/-- The row is set to another training state, or another audit state. -/
def setTraining (id : String) (t : Training) (groups : List GroupRow) :
    List GroupRow :=
  updateWhere (fun g => g.leaseId == id)
    (fun g => { g with training := some t }) groups

/-- As `setTraining`, for the audit. -/
def setAudit (id : String) (a : AuditState) (groups : List GroupRow) :
    List GroupRow :=
  updateWhere (fun g => g.leaseId == id)
    (fun g => { g with audit := some a }) groups

/-- A group the desk does not know yet, which is not a second first scan
of its prompt. -/
structure Desk.New (d : Desk) (g : GroupRow) : Prop where
  fresh : ∀ g' ∈ d.groups, g'.leaseId ≠ g.leaseId
  first : ∀ e p, g.firstOf e p = true → ∀ g' ∈ d.groups, g'.firstOf e p = false

/-- The events and payments of a first scan that was decided: none for
a group that is not one, else one event, and pay only with it. -/
inductive FirstScanPay (g : GroupRow) : List EventRow → List String → Prop
  | none : FirstScanPay g [] []
  | forfeited (e : EventRow) : e.leaseId = g.leaseId →
      e.kind.tally = none → Payable e → FirstScanPay g [e] []
  | paid (e : EventRow) (paid : List String) : e.leaseId = g.leaseId →
      e.kind.tally = some .firstScan → Payable e → g.payable →
      paid = [] ∨ paid = [g.leaseId] → FirstScanPay g [e] paid

/-- The four ways a group enters the desk: refused, queued in the
buffer, drawn for an audit, or let through. What it brings: a row of the
buffer, one of the audits, events, payments. -/
inductive Admission (g : GroupRow) :
    Option BufferRow → Option AuditRow → List EventRow → List String → Prop
  | refused : g.training = none → g.audit = none → Admission g none none [] []
  | queued (x : BufferRow) : g.training = some .queued →
      x.leaseId = g.leaseId → x.body.leaseId = x.leaseId →
      Admission g (some x) none [] []
  | drawn (a : AuditRow) : g.training = none → g.audit = some .pending →
      a.leaseId = g.leaseId → Admission g none (some a) [] []
  | through (es : List EventRow) (paid : List String) :
      g.training = none → g.audit = some .notDrawn →
      FirstScanPay g es paid → Admission g none none es paid

/-- The two ways it leaves the buffer: the new state of its training,
the event's tally, and what the quota is told. -/
inductive Outcome (id : String) : Training → Tally → List String → Prop
  | accepted (paid : List String) : paid = [] ∨ paid = [id] →
      Outcome id .accepted .trained paid
  | rejected : Outcome id .rejected .untrained []

/-- What one transaction does to the desk. -/
inductive DeskMove : Desk → Desk → Prop
  /-- An event that counts as none. -/
  | note (d : Desk) (e : EventRow) : e.kind.tally = none → Payable e →
      DeskMove d { d with events := d.events ++ [e] }
  /-- A group enters. -/
  | enter (d : Desk) (g : GroupRow) (x : Option BufferRow)
      (a : Option AuditRow) (es : List EventRow) (paid : List String) :
      d.New g → g.Shaped → Admission g x a es paid →
      DeskMove d
        { groups := d.groups ++ [g], audits := d.audits ++ a.toList
          buffer := d.buffer ++ x.toList, events := d.events ++ es
          paid := d.paid ++ paid }
  /-- Rows of the buffer are handed out or put back. -/
  | hand (d : Desk) (buffer : List BufferRow) :
      Forall₂ (fun x x' : BufferRow =>
        x'.leaseId = x.leaseId ∧ x'.body = x.body) d.buffer buffer →
      DeskMove d { d with buffer }
  /-- An audit is tried again. -/
  | retry (d : Desk) (audits : List AuditRow) :
      Forall₂ (fun a a' : AuditRow =>
        a'.leaseId = a.leaseId ∧ a'.body = a.body) d.audits audits →
      DeskMove d { d with audits }
  /-- A buffered group is reported. -/
  | report (d : Desk) (x : BufferRow) (training : Training) (t : Tally)
      (e : EventRow) (paid : List String) : x ∈ d.buffer →
      e.leaseId = x.leaseId → e.kind.tally = some t → Payable e →
      Outcome x.leaseId training t paid →
      DeskMove d { d with
        groups := setTraining x.leaseId training d.groups
        buffer := TrainingBuffer.remove x.leaseId d.buffer
        events := d.events ++ [e], paid := d.paid ++ paid }
  /-- A pending audit is concluded. -/
  | conclude (d : Desk) (g : GroupRow) (a : AuditRow)
      (audits : List AuditRow) (state : AuditState) (es : List EventRow)
      (paid : List String) : g ∈ d.groups → a ∈ d.audits →
      a.leaseId = g.leaseId → a.body.isSome = true →
      Forall₂ (fun a a' : AuditRow => a'.leaseId = a.leaseId
        ∧ (a'.body.isSome = true → a.leaseId ≠ g.leaseId
          ∧ a'.body = a.body)) d.audits audits →
      FirstScanPay { g with audit := some state } es paid →
      DeskMove d { d with
        groups := setAudit g.leaseId state d.groups, audits
        events := d.events ++ es, paid := d.paid ++ paid }

-- ===== the invariant

/-- A row and the events of its lease. -/
structure RowWf (d : Desk) (g : GroupRow) : Prop where
  shaped : g.Shaped
  waiting : g.training = some .queued → ∃ x ∈ d.buffer, x.leaseId = g.leaseId
  trained : d.count .trained g.leaseId
    = if g.training = some .accepted then 1 else 0
  untrained : d.count .untrained g.leaseId
    = if g.training = some .rejected then 1 else 0
  firstScan : d.count .firstScan g.leaseId ≤ if g.payable then 1 else 0

/-- What holds of the desk in every reachable state. -/
structure DeskWf (d : Desk) : Prop where
  groupKey : (d.groups.map fun g => g.leaseId).Nodup
  firstOnce : ∀ e p, Unique (GroupRow.firstOf e p) d.groups
  row : ∀ g ∈ d.groups, RowWf d g
  stray : ∀ id, (∀ g ∈ d.groups, g.leaseId ≠ id) → ∀ t, d.count t id = 0
  bufferKey : (d.buffer.map fun x => x.leaseId).Nodup
  buffered : ∀ x ∈ d.buffer, ∃ g ∈ d.groups, g.leaseId = x.leaseId
    ∧ g.training = some .queued
  bodies : ∀ x ∈ d.buffer, x.body.leaseId = x.leaseId
  auditKey : (d.audits.map fun a => a.leaseId).Nodup
  audited : ∀ a ∈ d.audits, ∃ g ∈ d.groups, g.leaseId = a.leaseId
    ∧ (a.body.isSome = true → g.audit = some .pending)
  payable : ∀ e ∈ d.events, Payable e

/-- The quota is told of a payment at most as often as there is an event
that pays. -/
def Desk.PaidOnce (d : Desk) : Prop :=
  ∀ id, d.paid.count id ≤ d.count .trained id + d.count .firstScan id

variable {d d' : Desk} {g : GroupRow} {paid : List String} {es : List EventRow}
  {x : Option BufferRow} {a : Option AuditRow} {id : String} {e : EventRow}

/-- The empty desk. -/
theorem deskWf_empty : DeskWf ⟨[], [], [], [], []⟩ where
  groupKey := nodup_nil
  firstOnce e p := unique_nil _
  row g hg := by cases hg
  stray id h t := rfl
  bufferKey := nodup_nil
  buffered x hx := by cases hx
  bodies x hx := by cases hx
  auditKey := nodup_nil
  audited a ha := by cases ha
  payable e he := by cases he

-- ===== counting

/-- Events appended are counted on top. -/
theorem count_append {events es : List EventRow} (hd : d.events = events)
    (hd' : d'.events = events ++ es) (t : Tally) (id : String) :
    d'.count t id = d.count t id + es.countP (counts t id) := by
  unfold Desk.count
  rw [hd, hd', countP_append]

/-- Events of another lease count as nothing. -/
theorem countP_other {id id' : String} (h : ∀ e ∈ es, e.leaseId = id)
    (hne : id' ≠ id) (t : Tally) : es.countP (counts t id') = 0 := by
  rw [countP_eq_zero]
  intro e he
  have hid : ¬e.leaseId = id' := by
    rw [h e he]
    exact fun heq => hne heq.symm
  simp [counts, hid]

/-- One event of the lease. -/
theorem countP_one (h : e.leaseId = id)
    (t : Tally) : [e].countP (counts t id)
      = if e.kind.tally = some t then 1 else 0 := by
  by_cases ht : e.kind.tally = some t
  · simp [counts, h, ht]
  · simp [counts, h, ht]

/-- A row whose lease the move is not about. -/
theorem RowWf.frame (h : RowWf d g)
    (hb : ∀ x ∈ d.buffer, x.leaseId = g.leaseId →
      ∃ x' ∈ d'.buffer, x'.leaseId = g.leaseId)
    (hc : ∀ t, d'.count t g.leaseId = d.count t g.leaseId) : RowWf d' g where
  shaped := h.shaped
  waiting hq := by
    obtain ⟨x, hx, hid⟩ := h.waiting hq
    exact hb x hx hid
  trained := by rw [hc]; exact h.trained
  untrained := by rw [hc]; exact h.untrained
  firstScan := by rw [hc]; exact h.firstScan

/-- The events of a first scan are its lease's, count as nothing but a
first scan, and that only when it is payable; and pay comes with it. -/
theorem FirstScanPay.counts (h : FirstScanPay g es paid) :
    (∀ e ∈ es, e.leaseId = g.leaseId) ∧ (∀ id ∈ paid, id = g.leaseId)
      ∧ es.countP (counts .trained g.leaseId) = 0
      ∧ es.countP (counts .untrained g.leaseId) = 0
      ∧ es.countP (counts .firstScan g.leaseId)
          ≤ (if g.payable then 1 else 0) ∧ paid.count g.leaseId
          ≤ es.countP (counts .firstScan g.leaseId) := by
  cases h with
  | none => simp
  | forfeited e hid ht _ =>
    refine ⟨by simpa using hid, by simp, ?_, ?_, ?_, ?_⟩
    · simp [countP_one hid, ht]
    · simp [countP_one hid, ht]
    · simp [countP_one hid, ht]
    · simp
  | paid e paid hid ht _ hpay hp =>
    refine ⟨by simpa using hid, ?_, ?_, ?_, ?_, ?_⟩
    · rcases hp with rfl | rfl
      · simp
      · simp
    · simp [countP_one hid, ht]
    · simp [countP_one hid, ht]
    · simp [countP_one hid, ht, hpay]
    · rcases hp with rfl | rfl
      · simp
      · simp [countP_one hid, ht]

theorem FirstScanPay.payable (h : FirstScanPay g es paid) :
    ∀ e ∈ es, Payable e := by
  cases h with
  | none => simp
  | forfeited e _ _ he => simpa using he
  | paid e paid _ _ he => simpa using he

-- ===== admission

/-- What a group brings to the buffer and the audits is of its lease. -/
theorem Admission.own (h : Admission g x a es paid) :
    (∀ y ∈ x, y.leaseId = g.leaseId ∧ y.body.leaseId = y.leaseId
        ∧ g.training = some .queued)
      ∧ ∀ y ∈ a, y.leaseId = g.leaseId ∧ g.audit = some .pending := by
  cases h with
  | refused => simp
  | queued x ht hid hb => simpa using ⟨hid, hb, ht⟩
  | drawn a _ ha hid => simpa using ⟨hid, ha⟩
  | through => simp

/-- The events it brings are its first scan's, and its training has not
ended. -/
theorem Admission.pays (h : Admission g x a es paid) : FirstScanPay g es paid
    ∧ g.training ≠ some .accepted ∧ g.training ≠ some .rejected := by
  cases h with
  | refused ht | queued _ ht | drawn _ ht =>
    exact ⟨.none, by simp [ht], by simp [ht]⟩
  | through es paid ht _ hpay => exact ⟨hpay, by simp [ht], by simp [ht]⟩

/-- The row of a group that entered, where no event was of its lease. -/
theorem Admission.rowWf (h : Admission g x a es paid) (hs : g.Shaped)
    (hz : ∀ t, d.count t g.leaseId = 0) (hb : d'.buffer = d.buffer ++ x.toList)
    (he : d'.events = d.events ++ es) : RowWf d' g := by
  have hc : ∀ t, d'.count t g.leaseId
      = es.countP (counts t g.leaseId) := by
    intro t
    rw [count_append rfl he, hz, Nat.zero_add]
  obtain ⟨hpay, hacc, hrej⟩ := h.pays
  obtain ⟨-, -, htr, hun, hfs, -⟩ := hpay.counts
  refine ⟨hs, fun hq => ?_, ?_, ?_, ?_⟩
  · cases h with
    | queued x ht hid _ =>
      refine ⟨x, ?_, hid⟩
      rw [hb]
      simp
    | refused ht | drawn _ ht | through _ _ ht =>
      rw [ht] at hq
      cases hq
  · rw [hc, htr, if_neg hacc]
  · rw [hc, hun, if_neg hrej]
  · rw [hc]
    exact hfs

/-- Payments told for one lease are none of another's. -/
theorem count_paid_other {id id' : String}
    (h : ∀ i ∈ paid, i = id) (hne : id' ≠ id) : paid.count id' = 0 := by
  rw [count_eq_zero]
  intro hm
  exact hne (h id' hm)

variable {f : GroupRow → GroupRow}

/-- The rows after an update of one lease's. -/
theorem mem_updateRow {groups : List GroupRow} {g' : GroupRow} :
    g' ∈ updateWhere (fun g => g.leaseId == id) f groups
      ↔ ∃ g ∈ groups, (g.leaseId = id ∧ g' = f g)
          ∨ (g.leaseId ≠ id ∧ g' = g) := by
  rw [mem_updateWhere]
  constructor
  · intro h
    obtain ⟨g, hg, heq⟩ := h
    refine ⟨g, hg, ?_⟩
    by_cases hid : g.leaseId = id
    · rw [if_pos (by simpa using hid)] at heq
      exact .inl ⟨hid, heq.symm⟩
    · rw [if_neg (by simpa using hid)] at heq
      exact .inr ⟨hid, heq.symm⟩
  · intro h
    obtain ⟨g, hg, ⟨hid, heq⟩ | ⟨hid, heq⟩⟩ := h
    · refine ⟨g, hg, ?_⟩
      rw [if_pos (by simpa using hid), heq]
    · refine ⟨g, hg, ?_⟩
      rw [if_neg (by simpa using hid), heq]

/-- A row that is there after the update, as one was before. -/
theorem exists_updateRow {groups : List GroupRow} {P : GroupRow → Prop}
    (hf : ∀ g ∈ groups, g.leaseId = id → P g → P (f g)) (h : ∃ g ∈ groups, P g) :
    ∃ g ∈ updateWhere (fun g => g.leaseId == id) f groups, P g := by
  obtain ⟨g, hg, hP⟩ := h
  by_cases hid : g.leaseId = id
  · exact ⟨_, mem_updateRow.2 ⟨g, hg, .inl ⟨hid, rfl⟩⟩, hf g hg hid hP⟩
  · exact ⟨_, mem_updateRow.2 ⟨g, hg, .inr ⟨hid, rfl⟩⟩, hP⟩

/-- An outcome and its event, counted. -/
theorem Outcome.counts {training : Training} {t : Tally}
    (h : Outcome id training t paid) : (∀ i ∈ paid, i = id) ∧ training ≠ .queued
      ∧ (t = .trained ↔ training = .accepted)
      ∧ (t = .untrained ↔ training = .rejected) ∧ t ≠ .firstScan
      ∧ paid.count id ≤ if t = .trained then 1 else 0 := by
  cases h with
  | accepted paid hp =>
    rcases hp with rfl | rfl
    · simp
    · simp
  | rejected => simp

section Kept

variable (h : DeskWf d)
include h

/-- A buffered or audited group is not a new one. -/
theorem DeskWf.new_unknown (hnew : d.New g) :
    (∀ x ∈ d.buffer, x.leaseId ≠ g.leaseId)
      ∧ ∀ a ∈ d.audits, a.leaseId ≠ g.leaseId := by
  constructor
  · intro x hx
    obtain ⟨g', hg', hid, -⟩ := h.buffered x hx
    rw [← hid]
    exact hnew.fresh g' hg'
  · intro a ha
    obtain ⟨g', hg', hid, -⟩ := h.audited a ha
    rw [← hid]
    exact hnew.fresh g' hg'

/-- A group enters. -/
theorem DeskWf.enter
    (hnew : d.New g) (hs : g.Shaped) (hadm : Admission g x a es paid) :
    DeskWf { groups := d.groups ++ [g], audits := d.audits ++ a.toList
             buffer := d.buffer ++ x.toList, events := d.events ++ es
             paid := d.paid ++ paid } := by
  obtain ⟨hx, ha⟩ := hadm.own
  have hpay := hadm.pays.1
  obtain ⟨hbuf, haud⟩ := h.new_unknown hnew
  have hother : ∀ {d' : Desk}, d'.events = d.events ++ es →
      ∀ id, id ≠ g.leaseId → ∀ t, d'.count t id = d.count t id := by
    intro d' he id hne t
    rw [count_append rfl he, countP_other hpay.counts.1 hne, Nat.add_zero]
  constructor
  case payable => exact forall_mem_append.2 ⟨h.payable, hpay.payable⟩
  case groupKey => exact nodup_insert h.groupKey hnew.fresh
  case firstOnce => exact fun e p => (h.firstOnce e p).insert (hnew.first e p)
  case row =>
    intro g' hg'
    rcases mem_snoc.1 hg' with hg' | rfl
    · refine (h.row g' hg').frame ?_ (hother rfl _ (hnew.fresh g' hg'))
      intro y hy hid
      exact ⟨y, mem_append_left _ hy, hid⟩
    · exact hadm.rowWf hs (h.stray _ hnew.fresh) rfl rfl
  case stray =>
    intro id hid t
    rw [hother rfl id (hid g mem_concat_self).symm]
    exact h.stray id (fun g' hg' => hid g' (mem_append_left _ hg')) t
  case bufferKey =>
    cases x with
    | none => simpa using h.bufferKey
    | some y =>
      refine nodup_insert h.bufferKey fun y' hy' => ?_
      rw [(hx y rfl).1]
      exact hbuf y' hy'
  case buffered =>
    intro y hy
    rcases mem_append.1 hy with hy | hy
    · obtain ⟨g', hg', hid⟩ := h.buffered y hy
      exact ⟨g', mem_append_left _ hg', hid⟩
    · obtain ⟨hid, -, ht⟩ := hx y (mem_toList.1 hy)
      exact ⟨g, mem_concat_self, hid.symm, ht⟩
  case bodies =>
    exact forall_mem_append.2
      ⟨h.bodies, fun y hy => (hx y (mem_toList.1 hy)).2.1⟩
  case auditKey =>
    cases a with
    | none => simpa using h.auditKey
    | some b =>
      refine nodup_insert h.auditKey fun b' hb' => ?_
      rw [(ha b rfl).1]
      exact haud b' hb'
  case audited =>
    intro b hb
    rcases mem_append.1 hb with hb | hb
    · obtain ⟨g', hg', hid⟩ := h.audited b hb
      exact ⟨g', mem_append_left _ hg', hid⟩
    · obtain ⟨hid, hpend⟩ := ha b (mem_toList.1 hb)
      exact ⟨g, mem_concat_self, hid.symm, fun _ => hpend⟩

-- ===== moves of rows in place

/-- One lease's row is updated, its key columns kept, with events of that
lease: the other rows and their counts are as they were. -/
theorem DeskWf.turn (hg : g ∈ d.groups) (hf : ∀ g, (f g).leaseId = g.leaseId
      ∧ ∀ e p, (f g).firstOf e p = g.firstOf e p)
    (hes : ∀ e ∈ es, e.leaseId = g.leaseId) (hgroups : d'.groups
      = updateWhere (fun x => x.leaseId == g.leaseId) f d.groups)
    (hevents : d'.events = d.events ++ es)
    (hb : ∀ x ∈ d.buffer, x.leaseId ≠ g.leaseId → x ∈ d'.buffer)
    (hrow : RowWf d' (f g)) : (d'.groups.map fun g => g.leaseId).Nodup
      ∧ (∀ e p, Unique (GroupRow.firstOf e p) d'.groups)
      ∧ (∀ g' ∈ d'.groups, RowWf d' g')
      ∧ ∀ id, (∀ g' ∈ d'.groups, g'.leaseId ≠ id) → ∀ t, d'.count t id = 0 := by
  have hother : ∀ id, id ≠ g.leaseId → ∀ t, d'.count t id = d.count t id := by
    intro id hne t
    rw [count_append rfl hevents, countP_other hes hne, Nat.add_zero]
  rw [hgroups]
  refine ⟨?_, ?_, ?_, ?_⟩
  · rw [updateWhere_column fun g : GroupRow => g.leaseId]
    · exact h.groupKey
    · exact fun g => (hf g).1
  · intro e p
    refine (h.firstOnce e p).evolve (forall₂_updateWhere
      (R := fun g g' => g'.firstOf e p = g.firstOf e p) (fun _ => rfl)
      fun g _ _ => (hf g).2 e p) fun g g' heq hp => ?_
    rw [← heq]
    exact hp
  · intro g' hg'
    obtain ⟨g₀, hg₀, ⟨hid, rfl⟩ | ⟨hid, rfl⟩⟩ := mem_updateRow.1 hg'
    · rw [eq_of_key h.groupKey hg₀ hg hid]
      exact hrow
    · refine (h.row g' hg₀).frame (fun x hx hxid => ?_) (hother _ hid)
      exact ⟨x, hb x hx (hxid ▸ hid), hxid⟩
  · intro id hall t
    have hold : ∀ g' ∈ d.groups, g'.leaseId ≠ id := by
      intro g' hg'
      by_cases hid : g'.leaseId = g.leaseId
      · rw [← (hf g').1]
        exact hall _ (mem_updateRow.2 ⟨g', hg', .inl ⟨hid, rfl⟩⟩)
      · exact hall g' (mem_updateRow.2 ⟨g', hg', .inr ⟨hid, rfl⟩⟩)
    rw [hother id (Ne.symm (hold g hg))]
    exact h.stray id hold t

/-- An event that counts as none. -/
theorem DeskWf.note (ht : e.kind.tally = none) (hpay : Payable e) :
    DeskWf { d with events := d.events ++ [e] } := by
  have hsame : ∀ t id, Desk.count { d with events := d.events ++ [e] } t id
      = d.count t id := by
    intro t id
    rw [count_append (d := d) rfl rfl]
    simp [counts, ht]
  refine { h with
    row := ?row, stray := ?stray, payable := forall_snoc h.payable hpay }
  case row =>
    intro g hg
    exact (h.row g hg).frame (fun x hx hid => ⟨x, hx, hid⟩) fun t => hsame t _
  case stray =>
    intro id hid t
    rw [hsame]
    exact h.stray id hid t

/-- Rows of the buffer that keep their lease and their body. -/
theorem DeskWf.hand {buffer : List BufferRow}
    (hm : Forall₂ (fun x x' : BufferRow =>
      x'.leaseId = x.leaseId ∧ x'.body = x.body) d.buffer buffer) :
    DeskWf { d with buffer } := by
  refine { h with
    row := ?row, bufferKey := ?bufferKey, buffered := ?buffered
    bodies := ?bodies }
  case row =>
    intro g hg
    refine (h.row g hg).frame (fun x hx hid => ?_) fun t => rfl
    obtain ⟨x', hx', hid', -⟩ := exists_after hm hx
    exact ⟨x', hx', hid'.trans hid⟩
  case bufferKey =>
    exact nodup_of_forall₂ hm (fun _ _ hx => hx.1) h.bufferKey
  case buffered =>
    intro x' hx'
    obtain ⟨x, hx, hid, -⟩ := exists_before hm hx'
    rw [hid]
    exact h.buffered x hx
  case bodies =>
    intro x' hx'
    obtain ⟨x, hx, hid, hbody⟩ := exists_before hm hx'
    rw [hid, hbody]
    exact h.bodies x hx

/-- Audits that keep their lease and their body. -/
theorem DeskWf.retry {audits : List AuditRow}
    (hm : Forall₂ (fun a a' : AuditRow =>
      a'.leaseId = a.leaseId ∧ a'.body = a.body) d.audits audits) :
    DeskWf { d with audits } := by
  refine { h with auditKey := ?auditKey, audited := ?audited, row := ?row }
  case auditKey => exact nodup_of_forall₂ hm (fun _ _ ha => ha.1) h.auditKey
  case audited =>
    intro a' ha'
    obtain ⟨a, ha, hid, hbody⟩ := exists_before hm ha'
    rw [hid, hbody]
    exact h.audited a ha
  case row =>
    intro g hg
    exact (h.row g hg).frame (fun x hx hid => ⟨x, hx, hid⟩) fun t => rfl

-- ===== reporting

/-- A buffered group is reported: its row was queued, so no event of its
lease counted yet. -/
theorem DeskWf.report {x : BufferRow} {training : Training} {t : Tally}
    (hx : x ∈ d.buffer) (hid : e.leaseId = x.leaseId)
    (ht : e.kind.tally = some t) (hpay : Payable e)
    (ho : Outcome x.leaseId training t paid) : DeskWf { d with
      groups := setTraining x.leaseId training d.groups
      buffer := TrainingBuffer.remove x.leaseId d.buffer
      events := d.events ++ [e], paid := d.paid ++ paid } := by
  obtain ⟨-, hnq, htr, hun, hnf, -⟩ := ho.counts
  obtain ⟨g, hg, hgid, hq⟩ := h.buffered x hx
  have hw := h.row g hg
  obtain ⟨hz, ha⟩ := hw.shaped.training (by simp [hq])
  have hfs : d.count .firstScan g.leaseId = 0 := by
    have hle := hw.firstScan
    rw [if_neg (by simp [GroupRow.payable, ha])] at hle
    exact Nat.le_zero.1 hle
  rw [← hgid] at hid ho ⊢
  generalize hd : ({ d with
    groups := setTraining g.leaseId training d.groups
    buffer := TrainingBuffer.remove g.leaseId d.buffer
    events := d.events ++ [e], paid := d.paid ++ paid } : Desk) = d'
  have hevents : d'.events = d.events ++ [e] := hd ▸ rfl
  have hcount : ∀ t', d'.count t' g.leaseId
      = d.count t' g.leaseId + if t = t' then 1 else 0 := by
    intro t'
    rw [count_append rfl hevents, countP_one hid, ht]
    simp
  have hrow : RowWf d' { g with training := some training } := by
    constructor
    · exact ⟨fun hr => by simp [hz] at hr, fun _ => by simp, fun _ => ⟨hz, ha⟩⟩
    · intro hq'
      simp only [some.injEq] at hq'
      exact absurd hq' hnq
    · show d'.count .trained g.leaseId = _
      rw [hcount, hw.trained, hq]
      simp [htr]
    · show d'.count .untrained g.leaseId = _
      rw [hcount, hw.untrained, hq]
      simp [hun]
    · show d'.count .firstScan g.leaseId ≤ _
      rw [hcount, hfs]
      simp [hnf]
  have hleft : ∀ y ∈ d.buffer, y.leaseId ≠ g.leaseId → y ∈ d'.buffer := by
    intro y hy hne
    rw [← hd]
    exact mem_deleteWhere.2 ⟨hy, by simpa using hne⟩
  obtain ⟨hkey, hfirst, hrows, hstray⟩ := h.turn hg
    (f := fun g => { g with training := some training })
    (fun g => ⟨rfl, fun _ _ => rfl⟩) (by simpa using hid) (hd ▸ rfl) hevents
    hleft hrow
  subst hd
  refine ⟨hkey, hfirst, hrows, hstray, nodup_deleteWhere h.bufferKey, ?_,
    fun y hy => h.bodies y (mem_deleteWhere.1 hy).1, h.auditKey, ?_,
    forall_snoc h.payable hpay⟩
  · intro y hy
    obtain ⟨hy, hyid⟩ := mem_deleteWhere.1 hy
    refine exists_updateRow (fun g' _ hid' hg' => ?_) (h.buffered y hy)
    rw [← hg'.1, hid'] at hyid
    simp at hyid
  · exact fun a ha => exists_updateRow (fun _ _ _ hg' => hg') (h.audited a ha)

-- ===== concluding

/-- A pending audit is concluded: its row was pending, so no first scan
of its lease counted yet. -/
theorem DeskWf.conclude {a : AuditRow} {audits : List AuditRow}
    {state : AuditState} (hg : g ∈ d.groups) (ha : a ∈ d.audits)
    (hid : a.leaseId = g.leaseId) (hbody : a.body.isSome = true)
    (hm : Forall₂ (fun a a' : AuditRow => a'.leaseId = a.leaseId
      ∧ (a'.body.isSome = true → a.leaseId ≠ g.leaseId
        ∧ a'.body = a.body)) d.audits audits)
    (hpay : FirstScanPay { g with audit := some state } es paid) :
    DeskWf { d with
      groups := setAudit g.leaseId state d.groups, audits
      events := d.events ++ es, paid := d.paid ++ paid } := by
  obtain ⟨hes, -, htr, hun, hfs, -⟩ := hpay.counts
  have hpend : g.audit = some .pending := by
    obtain ⟨g', hg', hid', hp'⟩ := h.audited a ha
    have heq : g' = g := eq_of_key h.groupKey hg' hg (hid'.trans hid)
    rw [← heq]
    exact hp' hbody
  have hw := h.row g hg
  have hnone : g.training = none := by
    by_contra ht
    have hs := (hw.shaped.training ht).2
    rw [hpend] at hs
    cases hs
  have hfz : d.count .firstScan g.leaseId = 0 := by
    have hle := hw.firstScan
    rw [if_neg (by simp [GroupRow.payable, hpend])] at hle
    exact Nat.le_zero.1 hle
  generalize hd : ({ d with
    groups := setAudit g.leaseId state d.groups, audits
    events := d.events ++ es, paid := d.paid ++ paid } : Desk) = d'
  have hevents : d'.events = d.events ++ es := hd ▸ rfl
  have hcount : ∀ t', d'.count t' g.leaseId
      = d.count t' g.leaseId + es.countP (counts t' g.leaseId) :=
    fun t' => count_append rfl hevents t' _
  have hrow : RowWf d' { g with audit := some state } := by
    constructor
    · refine ⟨fun hr => ?_, hw.shaped.inZone, fun ht => absurd hnone ht⟩
      have hs := (hw.shaped.rejected hr).2.1
      rw [hpend] at hs
      cases hs
    · exact fun hq => nomatch hnone.symm.trans hq
    · show d'.count .trained g.leaseId
        = if g.training = some .accepted then 1 else 0
      rw [hcount, htr, hw.trained, Nat.add_zero]
    · show d'.count .untrained g.leaseId
        = if g.training = some .rejected then 1 else 0
      rw [hcount, hun, hw.untrained, Nat.add_zero]
    · show d'.count .firstScan g.leaseId ≤ _
      rw [hcount, hfz, Nat.zero_add]
      exact hfs
  obtain ⟨hkey, hfirst, hrows, hstray⟩ := h.turn hg
    (f := fun g => { g with audit := some state })
    (fun g => ⟨rfl, fun _ _ => rfl⟩) hes (hd ▸ rfl) hevents
    (fun y hy _ => hd ▸ hy) hrow
  subst hd
  refine ⟨hkey, hfirst, hrows, hstray, h.bufferKey, ?_, h.bodies,
    nodup_of_forall₂ hm (fun _ _ ha => ha.1) h.auditKey, ?_,
    forall_mem_append.2 ⟨h.payable, hpay.payable⟩⟩
  · exact fun y hy => exists_updateRow (fun _ _ _ hg' => hg') (h.buffered y hy)
  · intro b' hb'
    obtain ⟨b, hb, hbid, hbb⟩ := exists_before hm hb'
    rw [hbid]
    obtain ⟨g', hg', hgid, hp'⟩ := h.audited b hb
    refine exists_updateRow (fun g₀ _ hid₀ hg₀ => ⟨hg₀.1, fun hsome => ?_⟩)
      ⟨g', hg', hgid, fun hsome => hp' ((hbb hsome).2 ▸ hsome)⟩
    exact absurd (hg₀.1.symm.trans hid₀) (hbb hsome).1

end Kept

/-- **Every move keeps the desk well formed.** -/
theorem DeskMove.wf (hm : DeskMove d d') (h : DeskWf d) : DeskWf d' := by
  cases hm with
  | note e ht he => exact h.note ht he
  | enter g x a es paid hnew hs hadm => exact h.enter hnew hs hadm
  | hand buffer hm => exact h.hand hm
  | retry audits hm => exact h.retry hm
  | report x training t e paid hx hid ht he ho =>
    exact h.report hx hid ht he ho
  | conclude g a audits state es paid hg ha hid hb hm hpay =>
    exact h.conclude hg ha hid hb hm hpay

-- ===== payments

/-- Events and payments of one lease, the payments covered by the
events. -/
theorem Desk.PaidOnce.add (h : d.PaidOnce) (hes : d'.events = d.events ++ es)
    (hpaid : d'.paid = d.paid ++ paid) (hid : ∀ i ∈ paid, i = id)
    (hle : paid.count id ≤ es.countP (counts .trained id)
      + es.countP (counts .firstScan id)) : d'.PaidOnce := by
  intro i
  have hold := h i
  rw [hpaid, List.count_append, count_append rfl hes, count_append rfl hes]
  by_cases hi : i = id
  · rw [hi] at hold ⊢
    omega
  · rw [count_paid_other hid hi]
    omega

/-- No move tells the quota of a payment without its event. -/
theorem DeskMove.paidOnce (hm : DeskMove d d') (h : d.PaidOnce) :
    d'.PaidOnce := by
  cases hm with
  | note e ht _ =>
    have hnone : ∀ i ∈ ([] : List String), i = e.leaseId := by simp
    exact h.add rfl (append_nil _).symm hnone (Nat.zero_le _)
  | enter g x a es paid _ _ hadm =>
    obtain ⟨-, hp, -, -, -, hle⟩ := hadm.pays.1.counts
    exact h.add rfl rfl hp (le_trans hle (Nat.le_add_left ..))
  | hand => exact h
  | retry => exact h
  | report x training t e paid _ hid ht _ ho =>
    obtain ⟨hp, -, -, -, -, hle⟩ := ho.counts
    refine h.add rfl rfl hp (le_trans hle ?_)
    rw [countP_one hid, ht]
    simp only [some.injEq]
    omega
  | conclude g a audits state es paid _ _ _ _ _ hpay =>
    obtain ⟨-, hp, -, -, -, hle⟩ := hpay.counts
    exact h.add rfl rfl hp (le_trans hle (Nat.le_add_left ..))

-- ===== what it says of pay

section Results

variable (h : DeskWf d)
include h

/-- Where a group in zone is: waiting, in one row of the buffer and not
reported, or reported once and in none. -/
theorem DeskWf.conserved (hg : g ∈ d.groups)
    (hz : g.verdict = .graded .inZone) :
    (g.training = some .queued
        ∧ d.buffer.countP (fun x => x.leaseId == g.leaseId) = 1
        ∧ d.count .trained g.leaseId + d.count .untrained g.leaseId = 0)
      ∨ (g.training ≠ some .queued
        ∧ d.buffer.countP (fun x => x.leaseId == g.leaseId) = 0
        ∧ d.count .trained g.leaseId + d.count .untrained g.leaseId = 1) := by
  have hw := h.row g hg
  have htr := hw.trained
  have hun := hw.untrained
  -- a row of the buffer is of a queued group
  have hnone : g.training ≠ some .queued →
      d.buffer.countP (fun x => x.leaseId == g.leaseId) = 0 := by
    intro hq
    rw [countP_eq_zero]
    intro x hx hid
    obtain ⟨g', hg', hid', hq'⟩ := h.buffered x hx
    have hid : x.leaseId = g.leaseId := by simpa using hid
    have heq : g' = g := eq_of_key h.groupKey hg' hg (hid'.trans hid)
    rw [heq] at hq'
    exact hq hq'
  cases ht : g.training with
  | none => exact absurd ht (hw.shaped.inZone hz)
  | some training =>
    rw [ht] at htr hun
    cases training with
    | queued =>
      obtain ⟨x, hx, hid⟩ := hw.waiting ht
      refine .inl ⟨rfl, ?_, by simp [htr, hun]⟩
      have hmem : g.leaseId ∈ d.buffer.map fun x => x.leaseId :=
        List.mem_map.2 ⟨x, hx, hid⟩
      have hone := count_eq_one_of_mem h.bufferKey hmem
      rw [List.count, countP_map] at hone
      exact hone
    | accepted =>
      exact .inr ⟨by simp, hnone (by simp [ht]), by simp [htr, hun]⟩
    | rejected =>
      exact .inr ⟨by simp, hnone (by simp [ht]), by simp [htr, hun]⟩

/-- At most one paying event of a lease. -/
theorem DeskWf.pays_once (id : String) :
    d.count .trained id + d.count .firstScan id ≤ 1 := by
  by_cases hg : ∃ g ∈ d.groups, g.leaseId = id
  · obtain ⟨g, hg, rfl⟩ := hg
    have hw := h.row g hg
    have htr := hw.trained
    have hfs := hw.firstScan
    by_cases ht : g.training = some .accepted
    · -- a trained group was never out of zone
      have ha := (hw.shaped.training (by simp [ht])).2
      rw [if_neg (by simp [GroupRow.payable, ha])] at hfs
      rw [if_pos ht] at htr
      omega
    · rw [if_neg ht] at htr
      split at hfs
      · omega
      · omega
  · have hz := h.stray id fun g hgm hid => hg ⟨g, hgm, hid⟩
    rw [hz, hz]
    omega

/-- A lease whose group was refused has none. -/
theorem DeskWf.refused_unpaid (hg : g ∈ d.groups) (hr : g.verdict = .rejected) :
    d.count .trained g.leaseId + d.count .firstScan g.leaseId = 0 := by
  have hw := h.row g hg
  obtain ⟨ht, ha, -⟩ := hw.shaped.rejected hr
  have htr := hw.trained
  have hfs := hw.firstScan
  rw [if_neg (by simp [ht])] at htr
  rw [if_neg (by simp [GroupRow.payable, ha])] at hfs
  omega

/-- Is this a first scan's pay, of a group of the prompt? -/
def Desk.firstScanOf (d : Desk) (e : String) (p : Int) (x : EventRow) : Bool :=
  x.kind.tally == some .firstScan && d.groups.any fun g =>
    g.leaseId == x.leaseId && g.environment == e && g.promptIdx == p

/-- A first scan that was paid is one. -/
theorem DeskWf.firstScan_of_paid (hg : g ∈ d.groups)
    {x : EventRow} (hx : x ∈ d.events) (hid : x.leaseId = g.leaseId)
    (ht : x.kind.tally = some .firstScan) : g.firstScan = true := by
  have hpos : 0 < d.count .firstScan g.leaseId := by
    unfold Desk.count
    rw [countP_pos_iff]
    exact ⟨x, hx, by simp [counts, hid, ht]⟩
  have hle := (h.row g hg).firstScan
  by_cases hp : g.payable
  · exact hp.1
  · rw [if_neg hp] at hle
    omega

/-- At most one of a prompt, over all its leases: the groups that could
have brought one are the first scans of the prompt, of which there is
one. -/
theorem DeskWf.firstScan_once (e : String) (p : Int) :
    d.events.countP (d.firstScanOf e p) ≤ 1 := by
  by_cases hany : ∃ x ∈ d.events, d.firstScanOf e p x = true
  · obtain ⟨x, hx, hfx⟩ := hany
    have hof : ∀ y ∈ d.events, d.firstScanOf e p y = true →
        y.kind.tally = some .firstScan ∧ ∃ g ∈ d.groups,
          g.leaseId = y.leaseId ∧ g.firstOf e p = true := by
      intro y hy hfy
      simp only [Desk.firstScanOf, Bool.and_eq_true, beq_iff_eq,
        List.any_eq_true] at hfy
      obtain ⟨ht, g, hg, ⟨hid, he⟩, hp⟩ := hfy
      have hfirst := h.firstScan_of_paid hg hy hid.symm ht
      exact ⟨ht, g, hg, hid, by simp [GroupRow.firstOf, hfirst, he, hp]⟩
    obtain ⟨-, g, hg, hgid, hgf⟩ := hof x hx hfx
    calc d.events.countP (d.firstScanOf e p)
        ≤ d.count .firstScan g.leaseId := by
          refine countP_mono_left fun y hy hfy => ?_
          obtain ⟨ht, g', hg', hgid', hgf'⟩ := hof y hy hfy
          have heq : g' = g := (h.firstOnce e p).eq hg' hg hgf' hgf
          rw [heq] at hgid'
          simp [counts, hgid', ht]
      _ ≤ 1 := by
          have hle := h.pays_once g.leaseId
          omega
  · have hz : d.events.countP (d.firstScanOf e p) = 0 := by
      rw [countP_eq_zero]
      exact fun x hx hfx => hany ⟨x, hx, hfx⟩
    omega

end Results

end Reliquary.Rl
