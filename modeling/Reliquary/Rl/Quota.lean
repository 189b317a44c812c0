/-
The lease quota of one hotkey (`rl_lease_quota.py`): an AIMD cap under
a Little's-law target, measured from paid deliveries only.

Everything here is a function on one hotkey's `Entry`; who holds the
entries, and when they are written to the file, is the lease book's
(`LeaseBook.lean`). A stored row is the entry's JSON; the encoding
(integers, finite floats, text) is exact both ways, so a row and the
entry it decodes to are one value here. The order of `buckets` is never
read.
-/
import Reliquary.Store.Table
import Reliquary.Rl.Basic

namespace Reliquary.Rl

open Store

-- ===== the data

/-- Latency samples are kept as (count, sum) per bucket of this many
seconds. -/
def bucketS : ℚ := 10

/-- Deliveries in the window before Little's law is trusted. -/
def minSamples : Nat := 8

/-- An expiry's cut. -/
def expiryBackoff : ℚ := 9 / 10

-- the defaults pass their own checks

theorem floor_default : 1 ≤ 1 := by decide

theorem initial_default : 1 ≤ 4 := by decide

theorem ceiling_default : 4 ≤ 2048 := by decide

theorem headroom_default : (1 : ℚ) ≤ 3 / 2 := by decide +kernel

theorem window_default : bucketS ≤ 900 := by decide +kernel

/-- The controller's configuration, with what `__post_init__` checks. -/
structure QuotaConfig where
  initial : Nat := 4
  floor : Nat := 1
  ceiling : Nat := 2048
  headroom : ℚ := 3 / 2
  windowS : ℚ := 900
  floor_pos : 1 ≤ floor := by exact floor_default
  floor_le_initial : floor ≤ initial := by exact initial_default
  initial_le_ceiling : initial ≤ ceiling := by exact ceiling_default
  one_le_headroom : 1 ≤ headroom := by exact headroom_default
  bucket_le_window : bucketS ≤ windowS := by exact window_default

/-- A hotkey grows by doubling (`slowStart`) or follows its measured
concurrency (`steady`). -/
inductive Phase
  | slowStart | steady
  deriving DecidableEq, Repr

/-- What happened to the hotkey's leases so far. -/
structure Counters where
  leased : Nat := 0
  submitted : Nat := 0
  inZone : Nat := 0
  outOfZone : Nat := 0
  paid : Nat := 0
  expired : Nat := 0
  rejected : Nat := 0
  released : Nat := 0
  deriving DecidableEq, Repr

/-- One hotkey's quota state (`_Hotkey`). -/
structure Entry where
  cap : Nat
  phase : Phase := .slowStart
  reason : String := "new hotkey: initial quota"
  inUse : Nat := 0
  since : Option ℚ := none
  roundQuota : Nat := 0
  delivered : Nat := 0
  saturated : Bool := false
  counters : Counters := {}
  buckets : List (Int × Nat × ℚ) := []
  deriving DecidableEq, Repr

/-- Why a lease ended at the hotkey's charge. -/
inductive Charge
  | expired | rejected
  deriving DecidableEq, Repr

variable (cfg : QuotaConfig)

/-- The entry `_entry` makes for a hotkey it has none of. -/
def Entry.new : Entry :=
  { cap := cfg.initial, roundQuota := cfg.initial }

-- ===== reading

/-- Into `[floor, ceiling]`. -/
def QuotaConfig.clamp (n : Nat) : Nat :=
  max cfg.floor (min cfg.ceiling n)

variable (e : Entry)

/-- Deliveries in the window, with their throughput per second and
their mean latency when there are any. -/
def Entry.measure (now : Option ℚ) : Nat × Option (ℚ × ℚ) :=
  match (e.buckets.map Prod.fst).max? with
  | none => (0, none)
  | some last =>
    let now := now.getD ((last + 1) * bucketS)
    let first := ⌊(now - cfg.windowS) / bucketS⌋
    let live := (e.buckets.filter fun b => decide (first < b.1)).map
      Prod.snd
    let count := (live.map Prod.fst).sum
    if count = 0 then (0, none)
    else
      let span := match e.since with
        | none => cfg.windowS
        | some since => min cfg.windowS (now - since)
      let span := max span bucketS
      (count, some (count / span, (live.map Prod.snd).sum / count))

/-- Little's law over the window, or nothing yet. -/
def Entry.target (now : Option ℚ) : Option ℚ :=
  match e.measure cfg now with
  | (_, none) => none
  | (count, some (rate, latency)) =>
    if count < minSamples then none
    else some (cfg.headroom * rate * latency)

/-- The leases the hotkey may hold at once. -/
def Entry.quota (now : Option ℚ) : Nat :=
  match e.phase with
  | .slowStart => cfg.clamp e.cap
  | .steady =>
    match e.target cfg now with
    | none => cfg.clamp e.cap
    | some t => cfg.clamp (min e.cap ⌈t⌉.toNat)

-- ===== events

/-- A new round, from the quota as it is now. -/
def Entry.newRound (now : ℚ) : Entry :=
  let q := e.quota cfg (some now)
  { e with roundQuota := q, delivered := 0, saturated := q ≤ e.inUse }

/-- A lease was granted. -/
def Entry.recordLease (now : ℚ) : Entry :=
  let e := { e with
    since := some (e.since.getD now)
    inUse := e.inUse + 1
    counters := { e.counters with leased := e.counters.leased + 1 } }
  if e.quota cfg (some now) ≤ e.inUse then { e with saturated := true }
  else e

/-- A lease ended by its submission: its slot is free, no credit yet. -/
def Entry.recordSubmission (inZone : Bool) : Entry :=
  let c := { e.counters with submitted := e.counters.submitted + 1 }
  { e with
    inUse := e.inUse - 1
    counters := if inZone then { c with inZone := c.inZone + 1 }
      else { c with outOfZone := c.outOfZone + 1 } }

/-- A submitted lease's group was paid: one delivery, at the lease's
issue-to-submission latency. -/
def Entry.recordPaid (issuedAt submittedAt now : ℚ) : Entry :=
  let b := ⌊now / bucketS⌋
  let (n, sum) := (e.buckets.lookup b).getD (0, 0)
  let oldest := ⌊(now - cfg.windowS) / bucketS⌋
  let e := { e with
    counters := { e.counters with paid := e.counters.paid + 1 }
    buckets := (put b (n + 1, sum + max 0 (submittedAt - issuedAt))
      e.buckets).filter fun b => decide (oldest < b.1)
    delivered := e.delivered + 1 }
  if e.delivered < max 1 e.roundQuota then e
  else
    let e :=
      if e.saturated then
        { e with
          cap := cfg.clamp (max e.cap (2 * e.roundQuota))
          reason := (if e.phase = .slowStart then "slow start" else "growth")
            ++ ": full quota " ++ toString e.roundQuota
            ++ " used and delivered on time, cap doubled" }
      else if e.phase = .slowStart then
        { e with
          phase := .steady
          reason := "steady: delivered " ++ toString e.roundQuota
            ++ " without using the full quota" }
      else e
    e.newRound cfg now

/-- A lease our sandbox side failed: its slot is free, nothing else
changes. -/
def Entry.recordRelease : Entry :=
  { e with
    inUse := e.inUse - 1
    counters := { e.counters with released := e.counters.released + 1 } }

/-- A lease ran past its expiry, or its submission was refused for
integrity: the quota is cut, or halved. -/
def Entry.recordExpiry (cause : Charge) (now : ℚ) : Entry :=
  let before := e.quota cfg (some now)
  let e := { e with inUse := e.inUse - 1, phase := .steady }
  let e := match cause with
    | .rejected =>
      { e with
        counters := { e.counters with rejected := e.counters.rejected + 1 }
        cap := cfg.clamp (before / 2)
        reason := "rejected lease: quota halved from " ++ toString before }
    | .expired =>
      { e with
        counters := { e.counters with expired := e.counters.expired + 1 }
        cap := cfg.clamp (min (before - 1) ⌊(before : ℚ) * expiryBackoff⌋.toNat)
        reason := "expired lease: quota cut from " ++ toString before }
  e.newRound cfg now

-- ===== what an event does to a slot

@[simp] theorem Entry.newRound_inUse (now : ℚ) : (e.newRound cfg now).inUse =
    e.inUse := rfl

@[simp] theorem Entry.recordLease_inUse (now : ℚ) :
    (e.recordLease cfg now).inUse = e.inUse + 1 := by
  unfold Entry.recordLease
  dsimp only
  split
  · rfl
  · rfl

@[simp] theorem Entry.recordSubmission_inUse (z : Bool) :
    (e.recordSubmission z).inUse = e.inUse - 1 := rfl

@[simp] theorem Entry.recordRelease_inUse : e.recordRelease.inUse = e.inUse - 1
    := rfl

@[simp] theorem Entry.recordExpiry_inUse (c : Charge) (now : ℚ) :
    (e.recordExpiry cfg c now).inUse = e.inUse - 1 := by
  cases c with
  | rejected => rfl
  | expired => rfl

@[simp] theorem Entry.recordPaid_inUse (i s now : ℚ) :
    (e.recordPaid cfg i s now).inUse = e.inUse := by
  unfold Entry.recordPaid
  dsimp only
  split
  · rfl
  · rw [Entry.newRound_inUse]
    split
    · rfl
    · split
      · rfl
      · rfl

end Reliquary.Rl
