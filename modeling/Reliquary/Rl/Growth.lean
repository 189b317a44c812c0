/-
How far a hotkey's quota can grow (`rl_lease_quota.py`).

The controller of a lease book is told of events, each about one hotkey,
in any order and at any times. What holds of every entry it can come to
(`Entry.Earned`): the cap is at least the floor, at most what the paid
deliveries bought, and a round's deliveries were all paid. A round that
doubles the cap had its whole quota delivered, so twice that quota is at
most twice what was paid.
-/
import Reliquary.Rl.LeaseBook

namespace Reliquary.Rl

open Store Entry

variable {cfg : QuotaConfig} {e : Entry}

-- ===== the events

/-- What the controller is told of a hotkey (`record_*`). -/
inductive QuotaOp
  | lease (now : ℚ)
  | submission (inZone : Bool)
  | paid (issuedAt submittedAt now : ℚ)
  | release
  | expiry (cause : Charge) (now : ℚ)

def QuotaOp.event (op : QuotaOp) (cfg : QuotaConfig) (e : Entry) : Entry :=
  match op with
  | .lease now => e.recordLease cfg now
  | .submission inZone => e.recordSubmission inZone
  | .paid issuedAt submittedAt now => e.recordPaid cfg issuedAt submittedAt now
  | .release => e.recordRelease
  | .expiry cause now => e.recordExpiry cfg cause now

/-- The book after a new controller was told of the events. -/
def told (ops : List (String × QuotaOp)) (w : BookWorld) : BookWorld :=
  ops.foldl (fun w x => quotaEvent x.1 x.2.event w)
    { w with mem := { w.mem with quota := [] } }

-- ===== one entry

/-- The quota is some part of the cap, clamped. -/
theorem Entry.quota_clamp (cfg : QuotaConfig) (e : Entry) (now : Option ℚ) :
    ∃ n ≤ e.cap, e.quota cfg now = cfg.clamp n := by
  unfold quota
  split
  · exact ⟨e.cap, le_rfl, rfl⟩
  · split
    · exact ⟨e.cap, le_rfl, rfl⟩
    · exact ⟨_, min_le_left _ _, rfl⟩

theorem Entry.quota_bounds (cfg : QuotaConfig) (e : Entry) (now : Option ℚ) :
    cfg.floor ≤ e.quota cfg now ∧ e.quota cfg now ≤ cfg.ceiling ∧
      e.quota cfg now ≤ max cfg.floor e.cap := by
  obtain ⟨n, hn, hq⟩ := quota_clamp cfg e now
  have hfloor := cfg.floor_le_initial
  have hceiling := cfg.initial_le_ceiling
  rw [hq]
  unfold QuotaConfig.clamp
  omega

/-- What an expiry leaves of the cap: less than the quota it was measured
at, or the floor. -/
theorem Entry.recordExpiry_cap (cfg : QuotaConfig) (e : Entry) (cause : Charge)
    (now : ℚ) : cfg.floor ≤ (e.recordExpiry cfg cause now).cap ∧
      (e.recordExpiry cfg cause now).cap
        ≤ max cfg.floor (e.quota cfg (some now) - 1) := by
  obtain ⟨hpos, -⟩ := quota_bounds cfg e (some now)
  have hfloor := cfg.floor_pos
  cases cause with
  | expired =>
    show cfg.floor ≤ cfg.clamp (min _ _) ∧ cfg.clamp (min _ _) ≤ _
    unfold QuotaConfig.clamp
    omega
  | rejected =>
    show cfg.floor ≤ cfg.clamp (_ / 2) ∧ cfg.clamp (_ / 2) ≤ _
    unfold QuotaConfig.clamp
    omega

/-- The cap is paid for. -/
structure Entry.Earned (cfg : QuotaConfig) (e : Entry) : Prop where
  floor : cfg.floor ≤ e.cap
  cap : e.cap ≤ max cfg.initial (2 * e.counters.paid)
  delivered : e.delivered ≤ e.counters.paid

theorem Entry.earned_new (cfg : QuotaConfig) : (new cfg).Earned cfg :=
  ⟨cfg.floor_le_initial, le_max_left _ _, le_rfl⟩

theorem Entry.Earned.recordPaid (h : e.Earned cfg) (issuedAt submittedAt now : ℚ) :
    (e.recordPaid cfg issuedAt submittedAt now).Earned cfg := by
  obtain ⟨hfloor, hcap, hdelivered⟩ := h
  have hinitial := cfg.floor_le_initial
  unfold Entry.recordPaid
  dsimp only
  split
  · constructor
    · exact hfloor
    · show e.cap ≤ max cfg.initial (2 * (e.counters.paid + 1))
      omega
    · exact Nat.succ_le_succ hdelivered
  · next hround =>
    -- the round is over: what it delivered was paid
    have hround : max 1 e.roundQuota ≤ e.counters.paid + 1 := by omega
    split
    · constructor
      · exact le_max_left _ _
      · show cfg.clamp _ ≤ max cfg.initial (2 * (e.counters.paid + 1))
        unfold QuotaConfig.clamp
        omega
      · exact Nat.zero_le _
    · have hgrown : e.cap ≤ max cfg.initial (2 * (e.counters.paid + 1)) := by
        omega
      split
      · exact ⟨hfloor, hgrown, Nat.zero_le _⟩
      · exact ⟨hfloor, hgrown, Nat.zero_le _⟩

theorem Entry.Earned.event (h : e.Earned cfg) (op : QuotaOp) :
    (op.event cfg e).Earned cfg := by
  cases op with
  | lease now =>
    show (e.recordLease cfg now).Earned cfg
    unfold recordLease
    dsimp only
    split
    · exact ⟨h.floor, h.cap, h.delivered⟩
    · exact ⟨h.floor, h.cap, h.delivered⟩
  | submission inZone =>
    cases inZone with
    | false => exact ⟨h.floor, h.cap, h.delivered⟩
    | true => exact ⟨h.floor, h.cap, h.delivered⟩
  | paid issuedAt submittedAt now => exact h.recordPaid issuedAt submittedAt now
  | release => exact ⟨h.floor, h.cap, h.delivered⟩
  | expiry cause now =>
    obtain ⟨hfloor, hcut⟩ := recordExpiry_cap cfg e cause now
    obtain ⟨-, -, hquota⟩ := quota_bounds cfg e (some now)
    have hle : (e.recordExpiry cfg cause now).cap ≤ e.cap := by
      have hcap := h.floor
      omega
    cases cause with
    | expired => exact ⟨hfloor, hle.trans h.cap, Nat.zero_le _⟩
    | rejected => exact ⟨hfloor, hle.trans h.cap, Nat.zero_le _⟩

-- ===== runs

theorem entry_quotaEvent (op : QuotaOp) (w : BookWorld) (h hotkey : String) :
    (quotaEvent h op.event w).mem.entry hotkey = if hotkey = h then
      op.event w.mem.quotaConfig (w.mem.entry h) else w.mem.entry hotkey := by
  show ((put h _ w.mem.quota).lookup hotkey).getD _ = _
  rw [lookup_put]
  split
  · rfl
  · rfl

/-- Every entry of the controller is earned. -/
theorem earned_told (ops : List (String × QuotaOp)) (w : BookWorld) :
    (told ops w).mem.quotaConfig = w.mem.quotaConfig ∧
      ∀ hotkey, ((told ops w).mem.entry hotkey).Earned w.mem.quotaConfig := by
  refine List.foldlRecOn (motive := fun v : BookWorld =>
    v.mem.quotaConfig = w.mem.quotaConfig ∧
      ∀ hotkey, (v.mem.entry hotkey).Earned w.mem.quotaConfig) ops _ ?_ ?_
  · exact ⟨rfl, fun _ => earned_new _⟩
  · rintro v ⟨hcfg, hv⟩ x -
    refine ⟨hcfg, fun hotkey => ?_⟩
    rw [entry_quotaEvent, hcfg]
    split
    · exact (hv x.1).event x.2
    · exact hv hotkey

/-- **Quota growth is bounded by paid work**: whatever a new controller is
told of, every hotkey's quota is inside the bounds at every time and its
cap at most the initial one or twice its paid deliveries; an expiry or a
rejection raises neither the cap nor the quota of that instant, and lowers
the quota unless it is at the floor; and a release and a submission change
neither the cap nor the phase. -/
theorem quota_growth_bounded (w : BookWorld) (ops : List (String × QuotaOp))
    (hotkey : String) :
    let cfg := w.mem.quotaConfig
    let v := told ops w
    let e := v.mem.entry hotkey
    let after (op : QuotaOp) := (quotaEvent hotkey op.event v).mem.entry hotkey
    (∀ now, cfg.floor ≤ e.quota cfg now ∧ e.quota cfg now ≤ cfg.ceiling) ∧
    e.cap ≤ max cfg.initial (2 * e.counters.paid) ∧
    (∀ cause now, (after (.expiry cause now)).cap ≤ e.cap ∧
      (after (.expiry cause now)).quota cfg (some now) ≤ e.quota cfg (some now) ∧
      (e.quota cfg (some now) ≠ cfg.floor →
        (after (.expiry cause now)).quota cfg (some now)
          < e.quota cfg (some now))) ∧
    ∀ op, (op = .release ∨ ∃ inZone, op = .submission inZone) →
      (after op).cap = e.cap ∧ (after op).phase = e.phase := by
  intro cfg v e after
  obtain ⟨hcfg, hearned⟩ := earned_told ops w
  have he : e.Earned cfg := hearned hotkey
  have hafter : ∀ op, after op = op.event cfg e := by
    intro op
    show (quotaEvent hotkey op.event v).mem.entry hotkey = _
    rw [entry_quotaEvent, if_pos rfl, hcfg]
  refine ⟨fun now => ?_, he.cap, fun cause now => ?_, ?_⟩
  · obtain ⟨hfloor, hceiling, -⟩ := quota_bounds cfg e now
    exact ⟨hfloor, hceiling⟩
  · rw [hafter]
    obtain ⟨-, hcut⟩ := recordExpiry_cap cfg e cause now
    obtain ⟨hfloor, -, hquota⟩ := quota_bounds cfg e (some now)
    obtain ⟨-, -, hquota'⟩ := quota_bounds cfg (e.recordExpiry cfg cause now)
      (some now)
    have hcap := he.floor
    show (e.recordExpiry cfg cause now).cap ≤ _ ∧
      (e.recordExpiry cfg cause now).quota cfg (some now) ≤ _ ∧ (_ →
        (e.recordExpiry cfg cause now).quota cfg (some now) < _)
    omega
  · rintro op (rfl | ⟨inZone, rfl⟩)
    · rw [hafter]
      exact ⟨rfl, rfl⟩
    · rw [hafter]
      exact ⟨rfl, rfl⟩

end Reliquary.Rl
