/-
The debt of an auction-priced job (`corpus/token_auction.py`,
`lease_ended` to `observe_tokens`) and the life of a submission that
carries a debit (`validator/corpus_service.py`, `submit_corpus` from
`take_debit` on).

# What is modeled how

- Amounts are rationals, exact. A lease's price is positive (`Price`):
  a round's price is an ask, or the target, and both are positive.
- A request is followed from `take_debit` to the end of its handler and
  of its turn entry. Each thing that can happen to it is an event
  (`RequestEvent`); the checks before the debit, which cannot touch it,
  are not modeled, and neither is what decides the verdict: any event
  the request's stage allows may come next, requests interleaved freely.
- `pricing` is the handler's variable. With durable records the lease
  terms are copied into the accepted record before the turn (`frozen`)
  and recorded by the ledger write itself; without, the record is
  written after it, from `pricing` as it is then.
- `charged` keeps what `lease_ended` charged each hotkey. It is history
  and no decision reads it.

# What is proven

A hotkey's debt, what was recorded against it and what its running
requests hold are together what it was charged (`Books`), along every
run in which no step ends a request that carries a debit in one of the
ways the handler does not undo (`Undone`); every recorded debit is
between zero and the work's value in every run.
-/
import Reliquary.Store.Dict
import Reliquary.Store.Run
import Reliquary.Store.Table

namespace Reliquary.Corpus

open Store List Option

-- ===== the auction

/-- A lease's price per token. -/
abbrev Price := {p : ℚ // 0 < p}

def tokensEmaWeight : ℚ := 1 / 20

/-- The part of `TokenAuction` that debts are made of. -/
structure Auction where
  meanTokens : ℚ
  debt : List (String × ℚ)
deriving DecidableEq, Repr

variable (a : Auction) (r : Request)

namespace Auction

/-- `self._debt.get(hotkey, 0.0)`. -/
def owed (hotkey : String) : ℚ :=
  (a.debt.lookup hotkey).getD 0

/-- What `lease_ended` charges. -/
def leaseCharge (price : Option Price) (heldFraction : ℚ) : ℚ :=
  match price with
  | none => 0
  | some p => p.1 * a.meanTokens * min 1 (max 0 heldFraction)

def leaseEnded (hotkey : String) (price : Option Price) (heldFraction : ℚ) :
    Auction :=
  if 0 < a.leaseCharge price heldFraction then
    { a with
      debt := put hotkey
        (a.owed hotkey + a.leaseCharge price heldFraction) a.debt }
  else a

/-- What `take_debit` takes. -/
def debitOf (hotkey : String) (value : ℚ) : ℚ :=
  min (a.owed hotkey) (max 0 value)

def takeDebit (hotkey : String) (value : ℚ) : Auction :=
  if 0 < a.debitOf hotkey value then
    if 0 < a.owed hotkey - a.debitOf hotkey value then
      { a with
        debt := put hotkey (a.owed hotkey - a.debitOf hotkey value) a.debt }
    else { a with debt := a.debt.filter fun p => p.1 != hotkey }
  else a

def refundDebit (hotkey : String) (amount : ℚ) : Auction :=
  if 0 < amount then
    { a with debt := put hotkey (a.owed hotkey + amount) a.debt }
  else a

def observeTokens (tokenCount : Nat) : Auction :=
  { a with
    meanTokens :=
      a.meanTokens + tokensEmaWeight * (tokenCount - a.meanTokens) }

end Auction

-- ===== a request

/-- The handler's `pricing`, and the lease terms of a record. -/
structure Pricing where
  leasePrice : ℚ
  leaseDebit : ℚ
deriving DecidableEq, Repr

inductive Stage
  /-- Between the debit and the turn queue: recovery, the read of a
  standing record, the session's claim. -/
  | intake
  /-- In the turn queue. -/
  | queued
  /-- A turn has it and the handler waits. -/
  | taken
  /-- A turn has it and the handler is gone. -/
  | left
  /-- Nothing of it runs any more. -/
  | ended
deriving DecidableEq, Repr

/-- A submission from `take_debit` on. -/
structure Request where
  hotkey : String
  /-- `sum(token_counts)`. -/
  tokens : Nat
  pricing : Option Pricing
  /-- The lease terms of the record built before the turn (durable). -/
  frozen : Option Pricing
  stage : Stage
  /-- The ledger write that accepts it took effect. -/
  consumed : Bool
  /-- Its accepted record is kept. -/
  recorded : Bool
deriving DecidableEq, Repr

/-- The lease terms of an accepted record, with what they are read
against. -/
structure LeaseRecord where
  hotkey : String
  tokens : Nat
  leasePrice : ℚ
  leaseDebit : ℚ
deriving DecidableEq, Repr

inductive RequestEvent
  /-- An await before the turn raises, or the claim is refused or is to
  be retried. -/
  | intakeFails
  /-- A standing record is found (durable). -/
  | standing
  | enqueue
  /-- The queue times out, or the request is cancelled in it. -/
  | withdraw
  | take
  /-- The request is cancelled while a turn has it. -/
  | hangUp
  /-- The accepting ledger write takes effect. -/
  | consume
  /-- The record write after the turn lands (not durable). -/
  | record
  /-- The turn and what follows it end with an accepted verdict. -/
  | accepted
  /-- They end with a refusal, or contended. -/
  | refused
  /-- They raise. -/
  | raised
deriving DecidableEq, Repr

def debitIn : Option Pricing → ℚ
  | none => 0
  | some p => p.leaseDebit

namespace Request

/-- The debit the handler's `pricing` carries. -/
def debit : ℚ := debitIn r.pricing

/-- The records a request's lease terms make: none without terms. -/
def records : Option Pricing → List LeaseRecord
  | none => []
  | some p => [⟨r.hotkey, r.tokens, p.leasePrice, p.leaseDebit⟩]

def unpriced : Request :=
  { r with
    pricing := r.pricing.map fun p => { p with leaseDebit := 0 } }

/-- The handler's `unpriced()`: the debit goes back. -/
def unprice : Auction :=
  a.refundDebit r.hotkey r.debit

def stop : Request := { r with stage := .ended }

/-- What an event of a request does: the auction, the request, and the
records it adds. `none` where the event cannot come next. -/
def step (durable : Bool) (a : Auction) (r : Request) (e : RequestEvent) :
    Option (Auction × Request × List LeaseRecord) :=
  match r.stage, e with
  -- No exit here calls `unpriced`.
  | .intake, .intakeFails => some (a, r.stop, [])
  | .intake, .standing =>
    if durable then some (r.unprice a, r.unpriced.stop, []) else none
  | .intake, .enqueue =>
    if durable then
      -- `lease_required` refuses here.
      if r.pricing = none then some (a, r.stop, [])
      else
        some (a, { r with stage := .queued, frozen := r.pricing }, [])
    else some (a, { r with stage := .queued }, [])
  | .queued, .withdraw => some (r.unprice a, r.unpriced.stop, [])
  | .queued, .take => some (a, { r with stage := .taken }, [])
  | .taken, .hangUp =>
    some (r.unprice a, { r.unpriced with stage := .left }, [])
  | .taken, .consume | .left, .consume =>
    if r.consumed then none
    else if durable then
      some (a, { r with consumed := true, recorded := true },
        r.records r.frozen)
    else some (a, { r with consumed := true }, [])
  | .taken, .record | .left, .record =>
    if r.consumed && !r.recorded && !durable then
      some (a, { r with recorded := true }, r.records r.pricing)
    else none
  | .taken, .accepted =>
    if r.consumed then
      some (if r.pricing = none then a else a.observeTokens r.tokens,
        r.stop, [])
    else none
  | .taken, .refused =>
    if r.consumed then none
    else some (r.unprice a, r.unpriced.stop, [])
  | .taken, .raised => some (r.unprice a, r.unpriced.stop, [])
  | .left, .accepted | .left, .refused | .left, .raised =>
    some (a, r.stop, [])
  | _, _ => none

end Request

open Request

-- ===== the service

/-- The auction with the job's requests and accepted records. -/
structure Intake where
  auction : Auction
  requests : List Request
  records : List LeaseRecord
  charged : List (String × ℚ)
deriving DecidableEq, Repr

def Intake.init (meanTokens : ℚ) : Intake := ⟨⟨meanTokens, []⟩, [], [], []⟩

inductive IntakeEvent
  | leaseEnded (hotkey : String) (price : Option Price) (heldFraction : ℚ)
  /-- A submission reaches the debit; `own` is the price of the lease its
  hotkey holds on the slot. -/
  | arrive (hotkey : String) (own : Option Price) (tokens : Nat)
  | request (n : Nat) (e : RequestEvent)

/-- The request after `take_debit`. -/
def arrival (hotkey : String) (own : Option Price) (tokens : Nat) : Request :=
  { hotkey := hotkey, tokens := tokens
    pricing := own.map fun p => ⟨p.1, a.debitOf hotkey (p.1 * tokens)⟩
    frozen := none, stage := .intake, consumed := false
    recorded := false }

def Intake.step (durable : Bool) (s : Intake) : IntakeEvent → Intake
  | .leaseEnded hotkey price held =>
    { s with
      auction := s.auction.leaseEnded hotkey price held
      charged := if 0 < s.auction.leaseCharge price held then
          addTo hotkey (s.auction.leaseCharge price held) s.charged
        else s.charged }
  | .arrive hotkey own tokens =>
    match own with
    -- `lease_required`: refused now, or after the standing read.
    | none =>
      if durable then
        { s with
          requests :=
            s.requests ++ [arrival s.auction hotkey none tokens] }
      else s
    | some p =>
      { s with
        auction := s.auction.takeDebit hotkey (p.1 * tokens)
        requests :=
          s.requests ++ [arrival s.auction hotkey (some p) tokens] }
  | .request n e =>
    match s.requests[n]? with
    | none => s
    | some r =>
      match r.step durable s.auction e with
      | none => s
      | some (a, r', new) =>
        { s with
          auction := a, requests := s.requests.set n r'
          records := s.records ++ new }

/-- Nothing of a request runs any more. -/
def Intake.Quiet (s : Intake) : Prop :=
  ∀ r ∈ s.requests, r.stage = .ended

instance (s : Intake) : Decidable s.Quiet :=
  inferInstanceAs (Decidable (∀ r ∈ s.requests, r.stage = .ended))

/-- The debits recorded against a hotkey. -/
def Intake.recordedDebit (s : Intake) (hotkey : String) : ℚ :=
  (s.records.map fun x =>
    if x.hotkey = hotkey then x.leaseDebit else 0).sum

/-- What `lease_ended` charged a hotkey. -/
def Intake.chargedTo (s : Intake) (hotkey : String) : ℚ :=
  sumAt s.charged hotkey

/-- The handler does what its debit needs: what the request carries goes
back or is recorded, never neither and never both. Before the turn no
exit may carry a debit. A hang-up refunds, so nothing may be recorded by
then, nor, with durable records, later. An error after the turn refunds,
so nothing may be recorded by then. An acceptance keeps, so its record
has to be there. -/
def Request.Undone (durable : Bool) (r : Request) : RequestEvent → Prop
  | .intakeFails => r.debit = 0
  | .hangUp => r.debit = 0 ∨ (durable = false ∧ r.recorded = false)
  | .raised => r.debit = 0 ∨ r.recorded = false
  | .accepted => r.debit = 0 ∨ r.recorded = true
  | _ => True

/-- A step that meets the condition. -/
def Intake.Undone (durable : Bool) (s : Intake) : IntakeEvent → Prop
  | .request n e => ∀ r ∈ s.requests[n]?, r.Undone durable e
  | _ => True

-- ===== what a debt reads

namespace Auction

variable {a : Auction} {hotkey : String}

theorem owed_put (a : Auction) (hotkey : String) (v : ℚ) (h : String) :
    ({ a with debt := put hotkey v a.debt } : Auction).owed h =
      if h = hotkey then v else a.owed h := by
  simp only [owed, lookup_put]
  split <;> rfl

theorem owed_leaseEnded (price : Option Price) (held : ℚ) (h : String) :
    (a.leaseEnded hotkey price held).owed h = a.owed h +
      if h = hotkey ∧ 0 < a.leaseCharge price held then
        a.leaseCharge price held else 0 := by
  rw [leaseEnded]
  by_cases hc : 0 < a.leaseCharge price held
  · rw [if_pos hc, owed_put]
    by_cases hh : h = hotkey
    · rw [if_pos hh, if_pos ⟨hh, hc⟩, hh]
    · rw [if_neg hh, if_neg fun x => hh x.1, add_zero]
  · rw [if_neg hc, if_neg fun x => hc x.2, add_zero]

theorem owed_refundDebit {amount : ℚ} (hpos : 0 ≤ amount) (h : String) :
    (a.refundDebit hotkey amount).owed h = a.owed h +
      if h = hotkey then amount else 0 := by
  rw [refundDebit]
  by_cases hc : 0 < amount
  · rw [if_pos hc, owed_put]
    by_cases hh : h = hotkey
    · rw [if_pos hh, if_pos hh, hh]
    · rw [if_neg hh, if_neg hh, add_zero]
  · have hz : amount = 0 := le_antisymm (not_lt.1 hc) hpos
    rw [if_neg hc, hz, ite_self, add_zero]

/-- No debt is negative. -/
def Owing (a : Auction) : Prop := ∀ h, 0 ≤ a.owed h

theorem debitOf_nonneg (ha : a.Owing) (hotkey : String) (value : ℚ) :
    0 ≤ a.debitOf hotkey value :=
  le_min (ha hotkey) (le_max_left 0 value)

theorem debitOf_le {value : ℚ} (hv : 0 ≤ value) :
    a.debitOf hotkey value ≤ value :=
  (min_le_right _ _).trans (max_le hv le_rfl)

theorem owed_takeDebit (ha : a.Owing) (value : ℚ) (h : String) :
    (a.takeDebit hotkey value).owed h = a.owed h -
      if h = hotkey then a.debitOf hotkey value else 0 := by
  rw [takeDebit]
  have h0 := debitOf_nonneg ha hotkey value
  have hle : a.debitOf hotkey value ≤ a.owed hotkey := min_le_left _ _
  by_cases hc : 0 < a.debitOf hotkey value
  · rw [if_pos hc]
    by_cases hl : 0 < a.owed hotkey - a.debitOf hotkey value
    · rw [if_pos hl, owed_put]
      by_cases hh : h = hotkey
      · rw [if_pos hh, if_pos hh, hh]
      · rw [if_neg hh, if_neg hh, sub_zero]
    · -- the whole debt is taken and its entry goes
      rw [if_neg hl]
      have hall : a.owed hotkey = a.debitOf hotkey value := by linarith
      by_cases hh : h = hotkey
      · rw [if_pos hh, hh, ← hall, sub_self]
        simp only [owed, lookup_remove_self, getD_none]
      · rw [if_neg hh, sub_zero]
        simp only [owed, lookup_remove_ne hh]
  · have hz : a.debitOf hotkey value = 0 := le_antisymm (not_lt.1 hc) h0
    rw [if_neg hc, hz, ite_self, sub_zero]

end Auction

-- ===== one request's step

/-- Lease terms whose debit is between zero and the work's value. -/
def Pricing.Within (tokens : Nat) (p : Pricing) : Prop :=
  0 ≤ p.leaseDebit ∧ p.leaseDebit ≤ p.leasePrice * tokens

def LeaseRecord.Within (x : LeaseRecord) : Prop :=
  0 ≤ x.leaseDebit ∧ x.leaseDebit ≤ x.leasePrice * x.tokens

namespace Request

/-- The debits of the lease terms a request carries are within its
work's value. -/
structure Fair (r : Request) : Prop where
  pricing : ∀ p ∈ r.pricing, p.Within r.tokens
  frozen : ∀ p ∈ r.frozen, p.Within r.tokens

/-- What a request still has to give back or have recorded. -/
def held : ℚ :=
  if r.stage = .ended ∨ r.recorded = true then 0 else r.debit

/-- The record made before the turn says what the handler's `pricing`
says, and the flags agree with the stage. -/
structure Kept (durable : Bool) (r : Request) : Prop where
  early : r.stage = .intake ∨ r.stage = .queued →
    r.consumed = false ∧ r.recorded = false
  backed : r.recorded = true → r.consumed = true
  atOnce : durable = true → r.consumed = true → r.recorded = true
  same : durable = true → r.stage ≠ .intake → r.stage ≠ .ended →
    debitIn r.frozen = r.debit
  gone : r.stage = .left → r.debit = 0

variable {durable : Bool} {a a' : Auction} {r r' : Request}
  {e : RequestEvent} {new : List LeaseRecord}

theorem Fair.debit (h : r.Fair) : 0 ≤ r.debit := by
  rw [Request.debit]
  cases hp : r.pricing with
  | none => exact le_rfl
  | some p => exact (h.pricing p hp).1

@[simp] theorem debit_unpriced (r : Request) : r.unpriced.debit = 0 := by
  rw [debit, unpriced]
  cases r.pricing <;> rfl

theorem Fair.unpriced (h : r.Fair) : r.unpriced.Fair := by
  refine ⟨fun p hp => ?_, h.frozen⟩
  obtain ⟨q, hq, rfl⟩ := map_eq_some_iff.1 hp
  have hw := h.pricing q hq
  exact ⟨le_rfl, hw.1.trans hw.2⟩

theorem within_records {terms : Option Pricing}
    (h : ∀ p ∈ terms, p.Within r.tokens) :
    ∀ x ∈ r.records terms, x.Within ∧ x.hotkey = r.hotkey := by
  cases terms with
  | none => simp [records]
  | some p =>
    intro x hx
    rw [records, mem_singleton] at hx
    subst hx
    exact ⟨h p rfl, rfl⟩

/-- The debits of records. -/
def debits (new : List LeaseRecord) : ℚ := (new.map (·.leaseDebit)).sum

@[simp] theorem debits_records (r : Request) (terms : Option Pricing) :
    debits (r.records terms) = debitIn terms := by
  cases terms <;> simp [debits, records, debitIn]

/-- What every step of a request comes to: `amount` goes back to its
hotkey's debt, and, where the condition holds, the request gives up
exactly that and what is recorded. -/
structure Comes (durable : Bool) (a : Auction) (r : Request)
    (e : RequestEvent) (a' : Auction) (r' : Request)
    (new : List LeaseRecord) (amount : ℚ) : Prop where
  hotkey : r'.hotkey = r.hotkey
  fair : r'.Fair
  records : ∀ x ∈ new, x.Within ∧ x.hotkey = r.hotkey
  nonneg : 0 ≤ amount
  back : ∀ h, a'.owed h = a.owed h + if h = r.hotkey then amount else 0
  kept : r.Kept durable → r.Undone durable e →
    r'.Kept durable ∧ amount + r'.held + debits new = r.held

/-- Nothing goes back; the request's terms may be recorded. -/
theorem Comes.recorded {terms : Option Pricing} (hh : r'.hotkey = r.hotkey)
    (hf' : r'.Fair) (ha : ∀ h, a'.owed h = a.owed h)
    (ht : ∀ p ∈ terms, p.Within r.tokens)
    (hk : r.Kept durable → r.Undone durable e →
      r'.Kept durable ∧ r'.held + debitIn terms = r.held) :
    Comes durable a r e a' r' (r.records terms) 0 where
  hotkey := hh
  fair := hf'
  records := within_records ht
  nonneg := le_rfl
  back h := by rw [ha, ite_self, add_zero]
  kept k u := ⟨(hk k u).1, by rw [zero_add, debits_records, (hk k u).2]⟩

/-- Nothing goes back and nothing is recorded. -/
theorem Comes.still (hh : r'.hotkey = r.hotkey) (hf' : r'.Fair)
    (ha : ∀ h, a'.owed h = a.owed h) (hk : r.Kept durable → r.Undone durable e →
      r'.Kept durable ∧ r'.held = r.held) :
    Comes durable a r e a' r' (r.records none) 0 :=
  .recorded hh hf' ha nofun fun k u =>
    ⟨(hk k u).1, (add_zero _).trans (hk k u).2⟩

/-- The debit goes back. -/
theorem Comes.unpriced (hf : r.Fair) (stage : Stage)
    (hk : r.Kept durable → r.Undone durable e →
      ({ r.unpriced with stage := stage } : Request).Kept durable ∧
        r.held = r.debit) : Comes durable a r e (r.unprice a)
      { r.unpriced with stage := stage } [] r.debit where
  hotkey := rfl
  fair := ⟨hf.unpriced.pricing, hf.frozen⟩
  records := by simp
  nonneg := hf.debit
  back h := Auction.owed_refundDebit hf.debit h
  kept k u := by
    refine ⟨(hk k u).1, ?_⟩
    have hz : ({ r.unpriced with stage := stage } : Request).held = 0 := by
      rw [held]
      split
      · rfl
      · exact debit_unpriced r
    rw [hz, (hk k u).2]
    exact (add_zero _).trans (add_zero _)

theorem Kept.held_early (h : r.Kept durable)
    (hs : r.stage = .intake ∨ r.stage = .queued) : r.held = r.debit := by
  rw [held, (h.early hs).2, if_neg]
  rintro (he | hr)
  · rw [he] at hs
    exact hs.elim nofun nofun
  · exact nomatch hr

/-- The handler's exits keep the flags as they are. -/
theorem Kept.stop (h : r.Kept durable) : r.stop.Kept durable := { h with
  early hs := hs.elim nofun nofun
  same _ _ he := absurd rfl he
  gone := nofun }

theorem Kept.unpriced_stop (h : r.Kept durable) :
    r.unpriced.stop.Kept durable := { h with
  early hs := hs.elim nofun nofun
  same _ _ he := absurd rfl he
  gone := nofun }

theorem held_late (hs : r.stage ≠ .ended)
    (hr : r.debit = 0 ∨ r.recorded = false) : r.held = r.debit := by
  rw [held]
  split
  · rename_i hc
    rcases hr with hr | hr
    · exact hr.symm
    · exact (hc.elim hs (by simp [hr])).elim
  · rfl

/-- A request whose turn is taken is past the intake and not over. -/
theorem late_stage (hs : r.stage = .taken ∨ r.stage = .left) :
    r.stage ≠ .intake ∧ r.stage ≠ .queued ∧ r.stage ≠ .ended := by
  rcases hs with hs | hs <;> simp [hs]

/-- A ledger write takes effect: with durable records it keeps the
record made before the turn. -/
theorem consume_comes (hf : r.Fair) (hs : r.stage = .taken ∨ r.stage = .left)
    (h : (if r.consumed = true then none
      else if durable = true then
        some (a, { r with consumed := true, recorded := true },
          r.records r.frozen)
      else some (a, { r with consumed := true }, [])) = some (a', r', new)) :
    ∃ amount, Comes durable a r e a' r' new amount := by
  obtain ⟨hni, hnq, hne⟩ := late_stage hs
  by_cases hc : r.consumed = true
  · simp [hc] at h
  rw [if_neg hc] at h
  by_cases hd : durable = true
  · rw [if_pos hd] at h
    cases h
    refine ⟨0, .recorded rfl ⟨hf.pricing, hf.frozen⟩ (fun _ => rfl) hf.frozen
      fun k _ => ⟨?_, ?_⟩⟩
    · exact ⟨fun he => (he.elim hni hnq).elim, fun _ => rfl, fun _ _ => rfl,
        k.same, k.gone⟩
    · have hr : r.recorded = false :=
        Bool.not_eq_true _ ▸ fun hr => hc (k.backed hr)
      rw [held_late hne (.inr hr), ← k.same hd hni hne]
      simp [held]
  · rw [if_neg hd] at h
    cases h
    refine ⟨0, .still rfl ⟨hf.pricing, hf.frozen⟩ (fun _ => rfl)
      fun k _ => ⟨?_, rfl⟩⟩
    exact ⟨fun he => (he.elim hni hnq).elim, fun _ => rfl,
      fun hd' => (hd hd').elim, k.same, k.gone⟩

/-- The record write after the turn keeps `pricing` as it is then. -/
theorem record_comes (hf : r.Fair) (hs : r.stage = .taken ∨ r.stage = .left)
    (h : (if (r.consumed && !r.recorded && !durable) = true then
        some (a, { r with recorded := true }, r.records r.pricing)
      else none) = some (a', r', new)) :
    ∃ amount, Comes durable a r e a' r' new amount := by
  obtain ⟨hni, hnq, hne⟩ := late_stage hs
  split at h
  · rename_i hc
    simp only [Bool.and_eq_true, Bool.not_eq_true'] at hc
    obtain ⟨⟨hc, hr⟩, hd⟩ := hc
    cases h
    refine ⟨0, .recorded rfl ⟨hf.pricing, hf.frozen⟩ (fun _ => rfl) hf.pricing
      fun k _ => ⟨?_, ?_⟩⟩
    · exact ⟨fun he => (he.elim hni hnq).elim, fun _ => hc, fun _ _ => rfl,
        k.same, k.gone⟩
    · rw [held_late hne (.inr hr)]
      simp [held, debit]
  · exact nomatch h

/-- A turn ends after its handler has left. -/
theorem left_comes (hf : r.Fair) (hs : r.stage = .left) :
    Comes durable a r e a r.stop [] 0 := by
  refine .still rfl ⟨hf.pricing, hf.frozen⟩ (fun _ => rfl)
    fun k _ => ⟨k.stop, ?_⟩
  rw [held_late (by rw [hs]; exact nofun) (.inl (k.gone hs)), k.gone hs]
  rfl

/-- Every event of a request. -/
theorem step_comes (hf : r.Fair) (h : r.step durable a e = some (a', r', new)) :
    ∃ amount, Comes durable a r e a' r' new amount := by
  unfold step at h
  split at h
  case h_1 hs => -- intakeFails
    cases h
    refine ⟨0, .still rfl ⟨hf.pricing, hf.frozen⟩ (fun _ => rfl) ?_⟩
    intro k u
    refine ⟨k.stop, ?_⟩
    have hz : r.debit = 0 := u
    rw [k.held_early (.inl hs), hz]
    rfl
  case h_2 hs => -- standing
    split at h
    · cases h
      exact ⟨r.debit, .unpriced hf .ended fun k _ =>
        ⟨k.unpriced_stop, k.held_early (.inl hs)⟩⟩
    · exact nomatch h
  case h_3 hs => -- enqueue
    have hheld : ∀ f, ({ r with stage := .queued, frozen := f } :
        Request).held = r.held := by
      intro f
      simp [held, hs, debit]
    split at h
    · split at h
      · rename_i hp
        cases h
        refine ⟨0, .still rfl ⟨hf.pricing, hf.frozen⟩ (fun _ => rfl)
          fun k _ => ⟨k.stop, ?_⟩⟩
        rw [k.held_early (.inl hs), debit, hp]
        rfl
      · cases h
        exact ⟨0, .still rfl ⟨hf.pricing, hf.pricing⟩ (fun _ => rfl)
          fun k _ => ⟨⟨fun _ => k.early (.inl hs), k.backed, k.atOnce,
            fun _ _ _ => rfl, nofun⟩, hheld _⟩⟩
    · rename_i hd
      cases h
      exact ⟨0, .still rfl ⟨hf.pricing, hf.frozen⟩ (fun _ => rfl)
        fun k _ => ⟨⟨fun _ => k.early (.inl hs), k.backed, k.atOnce,
          fun hd' => (hd hd').elim, nofun⟩, hheld _⟩⟩
  case h_4 hs => -- withdraw
    cases h
    exact ⟨r.debit, .unpriced hf .ended fun k _ =>
      ⟨k.unpriced_stop, k.held_early (.inr hs)⟩⟩
  case h_5 hs => -- take
    cases h
    refine ⟨0, .still rfl ⟨hf.pricing, hf.frozen⟩ (fun _ => rfl)
      fun k _ => ⟨⟨fun he => he.elim nofun nofun, k.backed, k.atOnce,
        fun hd _ _ => k.same hd (by simp [hs]) (by simp [hs]), nofun⟩, ?_⟩⟩
    simp [held, hs, debit]
  case h_6 hs => -- hangUp
    cases h
    have hne : r.stage ≠ .ended := by simp [hs]
    refine ⟨r.debit, .unpriced hf .left fun k u => ⟨?_, ?_⟩⟩
    · refine ⟨fun he => he.elim nofun nofun, k.backed, k.atOnce,
        fun hd _ _ => ?_, fun _ => debit_unpriced r⟩
      -- With durable records the condition leaves no debit to refund.
      have hz : r.debit = 0 := u.resolve_right fun hn => by
        simp [hd] at hn
      exact (k.same hd (by simp [hs]) hne).trans
        (hz.trans (debit_unpriced r).symm)
    · exact held_late hne (u.imp_right And.right)
  case h_7 hs => exact consume_comes hf (.inl hs) h
  case h_8 hs => exact consume_comes hf (.inr hs) h
  case h_9 hs => exact record_comes hf (.inl hs) h
  case h_10 hs => exact record_comes hf (.inr hs) h
  case h_11 hs => -- accepted
    split at h
    · cases h
      refine ⟨0, .still rfl ⟨hf.pricing, hf.frozen⟩ (fun x => ?_)
        fun k u => ⟨k.stop, ?_⟩⟩
      · split <;> rfl
      · rcases u with hz | hr
        · rw [held_late (by simp [hs]) (.inl hz), hz]
          rfl
        · simp [held, hr, stop]
    · exact nomatch h
  case h_12 hs => -- refused
    split at h
    · exact nomatch h
    · rename_i hc
      cases h
      refine ⟨r.debit, .unpriced hf .ended fun k _ =>
        ⟨k.unpriced_stop, held_late (by simp [hs]) (.inr ?_)⟩⟩
      exact Bool.not_eq_true _ ▸ fun hr => hc (k.backed hr)
  case h_13 hs => -- raised
    cases h
    exact ⟨r.debit, .unpriced hf .ended fun k u =>
      ⟨k.unpriced_stop, held_late (by simp [hs]) u⟩⟩
  case h_17 => exact nomatch h
  all_goals
    rename_i hs
    cases h
    exact ⟨0, left_comes hf hs⟩

end Request

-- ===== whole runs

/-- What the running requests of a hotkey hold. -/
def Intake.heldFor (s : Intake) (hotkey : String) : ℚ :=
  (s.requests.map fun r => if hotkey = r.hotkey then r.held else 0).sum

/-- The bounds, along every run. -/
structure Intake.Bounded (s : Intake) : Prop where
  owing : s.auction.Owing
  fair : ∀ r ∈ s.requests, r.Fair
  within : ∀ x ∈ s.records, x.Within

/-- The debt, what is recorded and what is held are what was charged. -/
structure Intake.Books (durable : Bool) (s : Intake) : Prop where
  kept : ∀ r ∈ s.requests, r.Kept durable
  balance : ∀ hotkey, s.auction.owed hotkey + s.recordedDebit hotkey +
    s.heldFor hotkey = s.chargedTo hotkey

namespace Intake

variable {durable : Bool} {s : Intake}

/-- One entry of a sum replaced. -/
theorem sum_map_set {β : Type} (f : β → ℚ) {t : List β} {n : Nat} {r : β}
    (hr : t[n]? = some r) (r' : β) :
    ((t.set n r').map f).sum = (t.map f).sum - f r + f r' := by
  induction t generalizing n with
  | nil => simp at hr
  | cons x t ih =>
    cases n with
    | zero =>
      obtain rfl : x = r := by simpa using hr
      simp
      ring
    | succ n =>
      rw [set_cons_succ, map_cons, sum_cons,
        ih (by simpa using hr), map_cons, sum_cons]
      ring

theorem fair_arrival (ha : s.auction.Owing) (hotkey : String)
    (own : Option Price) (tokens : Nat) :
    (arrival s.auction hotkey own tokens).Fair := by
  refine ⟨fun p hp => ?_, nofun⟩
  obtain ⟨q, -, rfl⟩ := map_eq_some_iff.1 hp
  have hv : 0 ≤ q.1 * (tokens : ℚ) := mul_nonneg q.2.le (Nat.cast_nonneg _)
  exact ⟨Auction.debitOf_nonneg ha hotkey _, Auction.debitOf_le hv⟩

theorem kept_arrival (a : Auction) (hotkey : String) (own : Option Price)
    (tokens : Nat) : (arrival a hotkey own tokens).Kept durable :=
  ⟨fun _ => ⟨rfl, rfl⟩, nofun, fun _ => nofun, fun _ h => absurd rfl h, nofun⟩

/-- Every event keeps the bounds. -/
theorem Bounded.step (h : s.Bounded) (e : IntakeEvent) :
    (s.step durable e).Bounded := by
  cases e with
  | leaseEnded hotkey price held =>
    refine ⟨fun x => ?_, h.fair, h.within⟩
    have hx := h.owing x
    rw [Intake.step, Auction.owed_leaseEnded]
    split
    · rename_i hc
      exact add_nonneg hx hc.2.le
    · rwa [add_zero]
  | arrive hotkey own tokens =>
    cases own with
    | none =>
      simp only [Intake.step]
      split
      · exact ⟨h.owing, forall_snoc h.fair (fair_arrival h.owing _ _ _),
          h.within⟩
      · exact h
    | some p =>
      refine ⟨fun x => ?_, forall_snoc h.fair (fair_arrival h.owing _ _ _),
        h.within⟩
      have hx := h.owing x
      rw [Intake.step, Auction.owed_takeDebit h.owing]
      split
      · rename_i hh
        rw [hh, sub_nonneg]
        exact min_le_left _ _
      · rwa [sub_zero]
  | request n e =>
    simp only [Intake.step]
    split
    · exact h
    · rename_i r hr
      have hf := h.fair r (mem_of_getElem? hr)
      split
      · exact h
      · rename_i a r' new hstep
        obtain ⟨amount, hc⟩ := step_comes hf hstep
        refine ⟨fun x => ?_, fun x hx => ?_, fun x hx => ?_⟩
        · have hx := h.owing x
          rw [hc.back]
          split
          · exact add_nonneg hx hc.nonneg
          · rwa [add_zero]
        · rcases mem_or_eq_of_mem_set hx with hx | rfl
          · exact h.fair x hx
          · exact hc.fair
        · rcases mem_append.1 hx with hx | hx
          · exact h.within x hx
          · exact (hc.records x hx).1

theorem debits_for {r : Request} {new : List LeaseRecord}
    (h : ∀ x ∈ new, x.hotkey = r.hotkey) (hotkey : String) :
    (new.map fun x => if x.hotkey = hotkey then x.leaseDebit else 0).sum =
      if hotkey = r.hotkey then debits new else 0 := by
  by_cases hh : hotkey = r.hotkey
  · rw [if_pos hh, debits]
    refine congrArg List.sum (map_congr_left fun x hx => ?_)
    exact if_pos ((h x hx).trans hh.symm)
  · rw [if_neg hh]
    refine sum_eq_zero fun v hv => ?_
    obtain ⟨x, hx, rfl⟩ := List.mem_map.1 hv
    exact if_neg fun heq => hh (heq.symm.trans (h x hx))

theorem heldFor_arrive (s : Intake) (r : Request) (hotkey : String) :
    ({ s with requests := s.requests ++ [r] } : Intake).heldFor hotkey =
      s.heldFor hotkey + if hotkey = r.hotkey then r.held else 0 := by
  simp [heldFor]

theorem held_arrival (hotkey : String) (own : Option Price) (tokens : Nat) :
    (arrival a hotkey own tokens).held = own.elim 0 fun p => a.debitOf hotkey
    (p.1 * tokens) := by
  cases own <;> rfl

/-- An event that meets the condition keeps the books. -/
theorem Books.step (h : s.Books durable) (hb : s.Bounded) {e : IntakeEvent}
    (hu : s.Undone durable e) : (s.step durable e).Books durable := by
  cases e with
  | leaseEnded hotkey price held =>
    refine ⟨h.kept, fun x => ?_⟩
    have hx := h.balance x
    change (s.auction.leaseEnded hotkey price held).owed x +
      s.recordedDebit x + s.heldFor x = sumAt (if _ then _ else _) x
    rw [Auction.owed_leaseEnded]
    by_cases hc : 0 < s.auction.leaseCharge price held
    · have hadd := sumOn_addTo (fun k => decide (k = x)) hotkey
        (s.auction.leaseCharge price held) s.charged
      rw [if_pos hc, sumAt, hadd, ← sumAt, ← chargedTo, ← hx]
      by_cases hh : x = hotkey
      · rw [if_pos ⟨hh, hc⟩, if_pos (by simp [hh])]
        ring
      · rw [if_neg fun y => hh y.1, if_neg (by simp [Ne.symm hh])]
        ring
    · rw [if_neg hc, if_neg fun y => hc y.2, ← chargedTo, ← hx]
      ring
  | arrive hotkey own tokens =>
    cases own with
    | none =>
      simp only [Intake.step]
      split
      · refine ⟨forall_snoc h.kept (kept_arrival _ _ _ _), fun x => ?_⟩
        have hx := h.balance x
        rw [heldFor_arrive, held_arrival, elim_none, ite_self, add_zero]
        exact hx
      · exact h
    | some p =>
      refine ⟨forall_snoc h.kept (kept_arrival _ _ _ _), fun x => ?_⟩
      have hx := h.balance x
      have hheld := heldFor_arrive s
        (arrival s.auction hotkey (some p) tokens) x
      rw [held_arrival, elim_some] at hheld
      change (s.auction.takeDebit hotkey (p.1 * tokens)).owed x +
        s.recordedDebit x + _ = s.chargedTo x
      rw [Auction.owed_takeDebit hb.owing, ← hx]
      refine (congrArg _ hheld).trans ?_
      change _ + _ + (_ + if x = hotkey then _ else 0) = _
      ring
  | request n e =>
    simp only [Intake.step]
    split
    · exact h
    · rename_i r hr
      have hmem := mem_of_getElem? hr
      split
      · exact h
      · rename_i a r' new hstep
        obtain ⟨amount, hc⟩ := step_comes (hb.fair r hmem) hstep
        obtain ⟨hk, hsum⟩ := hc.kept (h.kept r hmem) (hu r hr)
        refine ⟨fun x hx => ?_, fun x => ?_⟩
        · rcases mem_or_eq_of_mem_set hx with hx | rfl
          · exact h.kept x hx
          · exact hk
        · have hx := h.balance x
          have hheld := sum_map_set
            (fun r => if x = r.hotkey then r.held else 0) hr r'
          have hnew := debits_for (fun y hy => (hc.records y hy).2) x
          change a.owed x + (List.map _ (s.records ++ new)).sum +
            (List.map _ (s.requests.set n r')).sum = s.chargedTo x
          rw [hc.back, map_append, sum_append, hnew, hheld,
            hc.hotkey, ← hx, recordedDebit, heldFor, ← hsum]
          split <;> ring

theorem bounded_init (m : ℚ) : (init m).Bounded :=
  ⟨fun _ => le_rfl, nofun, nofun⟩

theorem books_init (m : ℚ) : (init m).Books durable :=
  ⟨nofun, fun _ => by
    simp [init, Auction.owed, recordedDebit, heldFor, chargedTo]⟩

theorem heldFor_quiet (h : s.Quiet) (hotkey : String) :
    s.heldFor hotkey = 0 := by
  refine sum_eq_zero fun x hx => ?_
  obtain ⟨r, hr, rfl⟩ := List.mem_map.1 hx
  have hz : r.held = 0 := if_pos (.inl (h r hr))
  simp [hz]

end Intake

open Intake

/-- A lease of `miner` runs out, and its next submission is accepted
with durable records. -/
def paidBack : List IntakeEvent :=
  [.leaseEnded "miner" (some ⟨1 / 1000, by norm_num⟩) 1,
    .arrive "miner" (some ⟨1 / 1000, by norm_num⟩) 500,
    .request 0 .enqueue, .request 0 .take, .request 0 .consume,
    .request 0 .accepted]

instance (durable : Bool) (r : Request) : DecidablePred (r.Undone durable)
  | .intakeFails => inferInstanceAs (Decidable (r.debit = 0))
  | .hangUp => inferInstanceAs (Decidable (_ ∨ _))
  | .raised => inferInstanceAs (Decidable (_ ∨ _))
  | .accepted => inferInstanceAs (Decidable (_ ∨ _))
  | .standing | .enqueue | .withdraw | .take | .consume | .record
  | .refused => inferInstanceAs (Decidable True)

instance (durable : Bool) (s : Intake) : DecidablePred (s.Undone durable)
  | .request _ _ => inferInstanceAs (Decidable (∀ r ∈ _, _))
  | .leaseEnded .. | .arrive .. => inferInstanceAs (Decidable True)

/-- The same lease runs out, and the recovery of records before the next
submission's turn raises. -/
def forgiven : List IntakeEvent :=
  [.leaseEnded "miner" (some ⟨1 / 1000, by norm_num⟩) 1,
    .arrive "miner" (some ⟨1 / 1000, by norm_num⟩) 500,
    .request 0 .intakeFails]

end Reliquary.Corpus
