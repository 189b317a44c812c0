/-
What an audit's outcome does to its miner's state
(`validator/corpus_auditor.py`, `_audit_records`, `_escalate`, `_write`;
`validator/corpus_miner_states.py`, `update_many`; the state changes are
those of `corpus/audit_policy.py`, Policy.lean).

# What is modeled how

- One auditor, one batch at a time, as `judge_many` awaits each. A batch is
  its judged records in one of four phases: its failures are escalated,
  the states of its passing hotkeys are read, its verdicts are written, its
  passes are counted.
- miners.json is one document under compare-and-swap. An attempt of
  `update_many` that loses the race changes nothing and is tried again, so
  an attempt that lands applies its change to the current states, at once.
  It may be reported (`back`) or not (`lost`); then it is tried again.
- A verdict is create-only. Its write is back, lost (it landed, and the
  batch sees an error), or failed; a failed one, and those sent by a batch
  that crashed, may land later (`late`).
- Other tasks charge failures too (the re-audit of a quarantined executor,
  the grader), with their own instants, at any time. Other passes end bans
  between batches.
- A record's hotkey is the record's, so a function of the id.
- `failed` and `passed` are the history: each time a failure or a pass is
  added to a state. `reached` is the hotkeys whose failures reached the ban
  threshold when the batch counted one.

# What is proven

`outcomes_once`: no submission is added twice, a failing verdict with a
penalty has its failure counted, and a batch voids the passes of a hotkey
it got banned, in every run where each write charges again only
submissions whose failure is among their hotkey's last 256 counted.
`failures_counted_twice`: a batch of 257 failures whose write lands
unreported counts one of them twice.
-/
import Reliquary.Audit.Policy
import Reliquary.Store.Run
import Reliquary.Store.Table

namespace Reliquary.Audit.Counting

open Store List

-- ===== the miners

/-- What an audit of a record gives (the second one, after a failure). -/
inductive Outcome
  | passed (mantMean : ℚ)
  | failed (penalty : Bool)
deriving DecidableEq, Repr

inductive Kind
  | passed
  | failed (penalty : Bool)
  /-- The hotkey is banned. -/
  | void
deriving DecidableEq, Repr

structure Verdict where
  kind : Kind
  /-- The hotkey's failures had reached the ban threshold in its batch. -/
  reached : Bool
deriving DecidableEq, Repr

/-- The job's miners document, and what was counted into it. -/
structure Miners where
  states : List (String × MinerState)
  failed : List String
  passed : List String
deriving DecidableEq, Repr

namespace Miners

def init : Miners := ⟨[], [], []⟩

def state (m : Miners) (hotkey : String) : MinerState :=
  (m.states.lookup hotkey).getD {}

section Changes

variable (owner : String → String) (params : AuditParams)

/-- One confirmed failure of a submission. -/
def charge (now : ℚ) (m : Miners) (sid : String) : Miners :=
  let s := m.state (owner sid)
  { m with
    states := put (owner sid) (afterConfirmedFailure s params now sid) m.states
    failed := if sid ∈ s.failureIds then m.failed else m.failed ++ [sid] }

/-- Does counting the failure reach the ban threshold? -/
def bans (now : ℚ) (m : Miners) (sid : String) : Prop :=
  sid ∉ (m.state (owner sid)).failureIds ∧ params.banAfterFailures ≤
      (countedFailures (m.state (owner sid)) params now).length

instance (now : ℚ) (m : Miners) (sid : String) :
    Decidable (bans owner params now m sid) :=
  inferInstanceAs (Decidable (_ ∧ _))

/-- `_escalate`: each hotkey's failures, in their order. -/
def escalate (now : ℚ) (m : Miners × Finset String) (sid : String) :
    Miners × Finset String :=
  (m.1.charge owner params now sid,
    if m.1.bans owner params now sid then insert (owner sid) m.2 else m.2)

/-- One pass, unless the hotkey is banned. -/
def countOne (now : ℚ) (s : MinerState × List String) (x : String × ℚ) :
    MinerState × List String :=
  if effectiveState s.1 now params = .banned then s
  else
    (afterPass s.1 x.2 x.1,
      if x.1 ∈ s.1.passIds then s.2 else s.2 ++ [x.1])

/-- `count`: a hotkey's passes of one write. -/
def count (now : ℚ) (m : Miners) (batch : String × List (String × ℚ)) :
    Miners :=
  let s := batch.2.foldl (countOne params now) (m.state batch.1, m.passed)
  { m with states := put batch.1 s.1 m.states, passed := s.2 }

end Changes

/-- `_end_ban`. -/
def endBan (now : ℚ) (m : Miners) (hotkey : String) : Miners :=
  { m with states := put hotkey (Audit.endBan now (m.state hotkey)) m.states }

end Miners

open Miners

-- ===== the batch

/-- A verdict to be written. -/
structure Planned where
  sid : String
  outcome : Outcome
  verdict : Verdict
deriving DecidableEq, Repr

inductive Phase
  | escalating
  /-- The states the escalation returned. -/
  | reading (states : List (String × MinerState))
  /-- The verdicts not back yet, and the passes this call wrote. -/
  | writing (planned : List Planned) (written : List (String × ℚ))
  /-- The passes to count, by hotkey. -/
  | counting (passes : List (String × List (String × ℚ)))
deriving DecidableEq, Repr

structure Batch where
  now : ℚ
  items : List (String × Outcome)
  phase : Phase
  reached : Finset String
deriving DecidableEq

/-- The failures with a penalty. -/
def Batch.failures (b : Batch) : List String :=
  (b.items.filter fun x => x.2 = .failed true).map Prod.fst

def Outcome.passes : Outcome → Bool
  | .passed _ => true
  | .failed _ => false

/-- What is written for an outcome, the hotkey's state being `s`. -/
def kindOf (params : AuditParams) (now : ℚ) (s : MinerState) : Outcome → Kind
  | .failed penalty => .failed penalty
  | .passed _ =>
    if effectiveState s now params = .banned then .void else .passed

/-- A dictionary's lists, by hotkey. -/
def byHotkey (owner : String → String) (written : List (String × ℚ)) :
    List (String × List (String × ℚ)) :=
  (written.map fun x => owner x.1).dedup.map fun hotkey =>
    (hotkey, written.filter fun x => owner x.1 = hotkey)

/-- At most `PASS_IDS` passes per hotkey per write. -/
def chunk (passes : List (String × List (String × ℚ))) :
    List (String × List (String × ℚ)) :=
  passes.map fun p => (p.1, p.2.take passIdsMax)

/-- What is left after a write. -/
def rest (passes : List (String × List (String × ℚ))) :
    List (String × List (String × ℚ)) :=
  (passes.map fun p => (p.1, p.2.drop passIdsMax)).filter fun p => p.2 ≠ []

-- ===== the world

/-- How a write that was sent ends for its sender. -/
inductive Reply
  | back
  /-- It landed; the sender sees an error. -/
  | lost
  /-- The sender sees an error; it may land later. -/
  | failed
deriving DecidableEq, Repr

structure World where
  miners : Miners
  verdicts : List (String × Verdict)
  /-- Verdicts sent by a call that saw an error or crashed. -/
  sent : List (String × Verdict)
  batch : Option Batch
deriving DecidableEq

inductive WorldEvent
  /-- A batch of records is audited. -/
  | begin_ (now : ℚ) (items : List (String × Outcome))
  /-- The escalation's write lands. -/
  | escalate (back : Bool)
  /-- The states of the passing hotkeys are read, and the verdicts made. -/
  | plan
  | write (sid : String) (reply : Reply)
  /-- Every write of the batch is back. -/
  | tally
  /-- The write of a chunk of passes lands. -/
  | count (back : Bool)
  | crash
  /-- A verdict sent earlier lands. -/
  | late (sid : String) (verdict : Verdict)
  /-- Another task charges failures. -/
  | charge (now : ℚ) (sids : List String)
  | endBan (now : ℚ) (hotkey : String)
deriving DecidableEq, Repr

namespace World

def init : World := ⟨Miners.init, [], [], none⟩

/-- Create-only: the first verdict stands. -/
def create (w : World) (sid : String) (verdict : Verdict) : World :=
  if (w.verdicts.lookup sid).isSome then w
  else
    { w with verdicts := put sid verdict w.verdicts }

section Step

variable (owner : String → String) (params : AuditParams)

/-- A batch's verdicts: failures first, each pass against its hotkey's
state. -/
def plans (b : Batch) (states : List (String × MinerState)) : List Planned :=
  let order := b.items.filter (fun x => !x.2.passes) ++
    b.items.filter (fun x => x.2.passes)
  order.map fun x =>
    let s := (states.lookup (owner x.1)).getD {}
    ⟨x.1, x.2, kindOf params b.now s x.2, owner x.1 ∈ b.reached⟩

/-- The hotkeys of a batch's passes whose state it does not have yet. -/
def unread (b : Batch) (states : List (String × MinerState)) : List String :=
  ((b.items.filter fun x => x.2.passes).map fun x => owner x.1).dedup.filter
    fun hotkey => (states.lookup hotkey).isNone

/-- The reply to the write of one verdict. -/
def written (p : Planned) (new : Bool) (written : List (String × ℚ)) :
    List (String × ℚ) :=
  match p.outcome, p.verdict.kind with
  | .passed mantMean, .passed =>
    if new then written ++ [(p.sid, mantMean)] else written
  | _, _ => written

def stepBatch (w : World) (b : Batch) : WorldEvent → World
  | .escalate back =>
    match b.phase with
    | .escalating =>
      let m := b.failures.foldl (escalate owner params b.now)
        (w.miners, b.reached)
      let states := (b.failures.map owner).dedup.map fun hotkey =>
        (hotkey, m.1.state hotkey)
      { w with
        miners := m.1
        batch := some { b with
          phase := if back then .reading states else .escalating
          reached := m.2 } }
    | _ => w
  | .plan =>
    match b.phase with
    | .reading states =>
      let hotkeys := unread owner b states
      let m := hotkeys.foldl (Miners.endBan b.now) w.miners
      let states := states ++
        hotkeys.map fun hotkey => (hotkey, m.state hotkey)
      { w with
        miners := m
        batch := some { b with
          phase := .writing (plans owner params b states) [] } }
    | _ => w
  | .write sid reply =>
    match b.phase with
    | .writing planned done =>
      match planned.find? (·.sid = sid) with
      | none => w
      | some p =>
        let left := planned.erase p
        match reply with
        | .back =>
          { w.create sid p.verdict with
            batch := some { b with
              phase := .writing left (written p
                (w.verdicts.lookup sid).isNone done) } }
        | .lost =>
          { w.create sid p.verdict with
            batch := some { b with phase := .writing left done } }
        | .failed =>
          { w with
            sent := (sid, p.verdict) :: w.sent
            batch := some { b with phase := .writing left done } }
    | _ => w
  | .tally =>
    match b.phase with
    | .writing [] done =>
      { w with
        batch := some { b with phase := .counting (byHotkey owner done) } }
    | _ => w
  | .count back =>
    match b.phase with
    | .counting passes =>
      let m := (chunk passes).foldl (count params b.now) w.miners
      if back then
        { w with
          miners := m
          batch := if rest passes = [] then none
            else some { b with phase := .counting (rest passes) } }
      else
        { w with miners := m }
    | _ => w
  | .crash =>
    { w with
      sent := match b.phase with
        | .writing planned _ =>
          planned.map (fun p => (p.sid, p.verdict)) ++ w.sent
        | _ => w.sent
      batch := none }
  | _ => w

def step (w : World) : WorldEvent → World
  | .begin_ now items =>
    match w.batch with
    | some _ => w
    | none =>
      let b : Batch := ⟨now, items, .escalating, ∅⟩
      { w with
        batch := some (if b.failures = [] then
            { b with phase := .reading [] }
          else b) }
  | .late sid verdict =>
    if (sid, verdict) ∈ w.sent then w.create sid verdict else w
  | .charge now sids =>
    { w with miners := sids.foldl (charge owner params now) w.miners }
  | .endBan now hotkey =>
    match w.batch with
    | some _ => w
    | none =>
      { w with miners := w.miners.endBan now hotkey }
  | e =>
    match w.batch with
    | none => w
    | some b => stepBatch owner params w b e

/-- The failures of a write, taken in order: each is new, or one of the
last its hotkey's state remembers. -/
def Within (owner : String → String) : List String → List String → Prop
  | _, [] => True
  | failed, sid :: sids =>
    if sid ∈ failed then
      sid ∈ lastN failureIdsMax (failed.filter fun x => owner x = owner sid) ∧
        Within owner failed sids
    else Within owner (failed ++ [sid]) sids

/-- A write charges again only what is remembered, and another task's
charge is not so old that its ban would be over. -/
def Remembered (w : World) : WorldEvent → Prop
  | .escalate _ => ∀ b, w.batch = some b → b.phase = .escalating →
      Within owner w.miners.failed b.failures
  | .charge now sids => Within owner w.miners.failed sids ∧
      ∀ b, w.batch = some b → b.now < now + params.banSeconds
  | _ => True

end Step

end World

-- ===== last entries

section LastN

variable {α : Type} {n : Nat} {l : List α} {a : α}

theorem mem_of_mem_lastN (h : a ∈ lastN n l) : a ∈ l :=
  mem_of_mem_drop h

theorem lastN_lastN_append (n : Nat) (l l' : List α) :
    lastN n (lastN n l ++ l') = lastN n (l ++ l') := by
  simp only [lastN]
  rw [← drop_append_of_le_length (Nat.sub_le _ _), drop_drop]
  congr 1
  simp only [length_drop, length_append]
  omega

theorem lastN_lastN (n : Nat) (l : List α) :
    lastN n (lastN n l) = lastN n l := by
  have h := lastN_lastN_append n l []
  rwa [append_nil, append_nil] at h

/-- The entries added last stay, if they are no more than are kept. -/
theorem mem_lastN_append {l' : List α} (hlen : l'.length ≤ n) (h : a ∈ l') :
    a ∈ lastN n (l ++ l') := by
  rw [lastN, drop_append_of_le_length]
  · exact mem_append_right _ h
  · rw [length_append]
    omega

end LastN

-- ===== what a change can do

/-- The failures counted of a hotkey. -/
def failedOf (owner : String → String) (failed : List String)
    (hotkey : String) : List String :=
  failed.filter fun x => owner x = hotkey

/-- The states remember the last failures and passes counted. -/
structure Miners.Inv (owner : String → String) (m : Miners) : Prop where
  ids : ∀ hotkey, (m.state hotkey).failureIds =
    lastN failureIdsMax (failedOf owner m.failed hotkey)
  passIds : ∀ hotkey, ∀ sid ∈ (m.state hotkey).passIds, sid ∈ m.passed
  kept : ∀ hotkey, lastN passIdsMax (m.state hotkey).passIds =
    (m.state hotkey).passIds
  failed : m.failed.Nodup
  passed : m.passed.Nodup

/-- A ban that is not over at the instant. -/
def BannedAt (s : MinerState) (now : ℚ) : Prop :=
  ∃ until_, s.bannedUntil = some until_ ∧ now < until_

theorem effectiveState_banned {s : MinerState} {now : ℚ}
    {params : AuditParams} :
    effectiveState s now params = .banned ↔ BannedAt s now := by
  rw [effectiveState]
  cases hb : s.bannedUntil with
  | none =>
    simp only [BannedAt, hb]
    split
    · simp
    · split <;> simp
  | some u =>
    simp only [BannedAt, hb]
    split
    · next h => simp [h]
    · next h => simp [h]

namespace Miners

variable {owner : String → String} {params : AuditParams} {now : ℚ}
  {m : Miners} {sid hotkey : String}

theorem inv_init (owner : String → String) : init.Inv owner where
  ids := by simp [init, state, failedOf, lastN]
  passIds := by simp [init, state]
  kept := by simp [init, state, lastN]
  failed := .nil
  passed := .nil

theorem state_put (states : List (String × MinerState)) (s : MinerState)
    (failed passed : List String) (h h' : String) :
    (⟨put h s states, failed, passed⟩ : Miners).state h' =
      if h' = h then s else (⟨states, failed, passed⟩ : Miners).state h' := by
  simp only [state, lookup_put]
  split <;> rfl

/-- A new state of one hotkey, and what was counted for it. -/
theorem Inv.put {s : MinerState} {failed passed : List String}
    (h : m.Inv owner)
    (hids : s.failureIds = lastN failureIdsMax (failedOf owner failed hotkey))
    (hother : ∀ hk ≠ hotkey,
      failedOf owner failed hk = failedOf owner m.failed hk)
    (hpass : ∀ sid ∈ s.passIds, sid ∈ passed)
    (hkept : lastN passIdsMax s.passIds = s.passIds) (hfailed : failed.Nodup)
    (hsub : m.passed ⊆ passed) (hpassed : passed.Nodup) :
    Inv owner ⟨Store.put hotkey s m.states, failed, passed⟩ := by
  refine ⟨fun hk => ?_, fun hk => ?_, fun hk => ?_, hfailed, hpassed⟩
  · rw [state_put]
    split
    · next he => rw [he, hids]
    · next he =>
      rw [hother hk he]
      exact h.ids hk
  · rw [state_put]
    split
    · exact hpass
    · exact fun sid hs => hsub (h.passIds hk sid hs)
  · rw [state_put]
    split
    · exact hkept
    · exact h.kept hk

/-- With nothing more counted. -/
theorem Inv.reset (h : m.Inv owner) {s : MinerState}
    (hids : s.failureIds = (m.state hotkey).failureIds)
    (hpass : s.passIds = (m.state hotkey).passIds) :
    Inv owner { m with states := Store.put hotkey s m.states } := by
  refine h.put (hids.trans (h.ids hotkey)) (fun _ _ => rfl) ?_ ?_ h.failed
    (Subset.refl _) h.passed
  · rw [hpass]
    exact h.passIds hotkey
  · rw [hpass]
    exact h.kept hotkey

theorem state_charge (hotkey : String) :
    (m.charge owner params now sid).state hotkey =
      if hotkey = owner sid then
        afterConfirmedFailure (m.state hotkey) params now sid
      else m.state hotkey := by
  rw [charge, state_put]
  split
  · next h => rw [h]
  · rfl

theorem afterConfirmedFailure_passIds (s : MinerState) :
    (afterConfirmedFailure s params now sid).passIds = s.passIds := by
  rw [afterConfirmedFailure]
  split
  · rfl
  split
  · rfl
  · rfl

theorem afterConfirmedFailure_failureIds {s : MinerState}
    (h : sid ∉ s.failureIds) :
    (afterConfirmedFailure s params now sid).failureIds =
      lastN failureIdsMax (s.failureIds ++ [sid]) := by
  rw [afterConfirmedFailure, if_neg h]
  split <;> dsimp only

/-- What charges keep: the passes, every failure counted, and the bans, at
instants before the end of those they give. -/
structure Charged (until_ : ℚ) (m m' : Miners) : Prop where
  passed : m'.passed = m.passed
  passIds : ∀ hotkey, (m'.state hotkey).passIds = (m.state hotkey).passIds
  failed : m.failed.Sublist m'.failed
  banned : ∀ hotkey now, now < until_ → BannedAt (m.state hotkey) now →
    BannedAt (m'.state hotkey) now

theorem Charged.refl (until_ : ℚ) (m : Miners) : Charged until_ m m :=
  ⟨rfl, fun _ => rfl, .refl _, fun _ _ _ h => h⟩

theorem charged (owner : String → String) (params : AuditParams) (now : ℚ)
    (m : Miners) (sid : String) :
    Charged (now + params.banSeconds) m (m.charge owner params now sid) where
  passed := rfl
  passIds hotkey := by
    rw [state_charge]
    split
    · exact afterConfirmedFailure_passIds _
    · rfl
  failed := by
    simp only [charge]
    split
    · exact .refl _
    · exact sublist_append_left _ _
  banned hotkey now' hlt h := by
    rw [state_charge]
    split
    · rw [afterConfirmedFailure]
      split
      · exact h
      · split
        · exact ⟨_, rfl, hlt⟩
        · exact h
    · exact h

theorem charged_all (owner : String → String) (params : AuditParams) (now : ℚ)
    (sids : List String) (m : Miners) : Charged (now + params.banSeconds) m
      (sids.foldl (charge owner params now) m) := by
  refine foldlRecOn (motive := fun m' => Charged _ m m') sids _ (.refl _ m) ?_
  intro m' h sid _
  have hone := charged owner params now m' sid
  exact ⟨hone.passed.trans h.passed,
    fun hk => (hone.passIds hk).trans (h.passIds hk),
    h.failed.trans hone.failed,
    fun hk t hlt hb => hone.banned hk t hlt (h.banned hk t hlt hb)⟩

/-- A charge leaves its submission counted. -/
theorem mem_failed_charge (h : m.Inv owner) :
    sid ∈ (m.charge owner params now sid).failed := by
  simp only [charge]
  split
  · next hs =>
    rw [h.ids] at hs
    exact (mem_filter.1 (mem_of_mem_lastN hs)).1
  · exact mem_concat_self

/-- **One failure**: a submission counted before is remembered, so its
failure is not added again. -/
theorem Inv.charge (h : m.Inv owner) (params : AuditParams) (now : ℚ)
    (hw : sid ∈ m.failed →
      sid ∈ lastN failureIdsMax (failedOf owner m.failed (owner sid))) :
    (m.charge owner params now sid).Inv owner ∧
      (m.charge owner params now sid).failed =
        if sid ∈ m.failed then m.failed else m.failed ++ [sid] := by
  by_cases hs : sid ∈ (m.state (owner sid)).failureIds
  · -- remembered: nothing changes
    have hf : sid ∈ m.failed := by
      rw [h.ids] at hs
      exact (mem_filter.1 (mem_of_mem_lastN hs)).1
    rw [Miners.charge, afterConfirmedFailure, if_pos hs, if_pos hs, if_pos hf]
    exact ⟨h.reset rfl rfl, rfl⟩
  · have hf : sid ∉ m.failed := by
      intro hf
      rw [h.ids] at hs
      exact hs (hw hf)
    rw [Miners.charge, if_neg hs, if_neg hf]
    refine ⟨h.put ?_ (fun hk hne => ?_) ?_ ?_ (nodup_snoc h.failed hf)
      (Subset.refl _) h.passed, rfl⟩
    · rw [afterConfirmedFailure_failureIds hs, h.ids, lastN_lastN_append]
      simp [failedOf]
    · simp [failedOf, hne.symm]
    · rw [afterConfirmedFailure_passIds]
      exact h.passIds _
    · rw [afterConfirmedFailure_passIds]
      exact h.kept _

theorem escalate_fst (owner : String → String) (params : AuditParams)
    (now : ℚ) (sids : List String) : ∀ m : Miners × Finset String,
      (sids.foldl (escalate owner params now) m).1 =
        sids.foldl (charge owner params now) m.1 := by
  induction sids with
  | nil => exact fun _ => rfl
  | cons sid sids ih => exact fun m => ih _

/-- A write's failures, each new or remembered: every one is counted, now
or before. -/
theorem Inv.chargeAll (params : AuditParams) (now : ℚ) (sids : List String) :
    ∀ {m : Miners}, m.Inv owner → World.Within owner m.failed sids →
      (sids.foldl (Miners.charge owner params now) m).Inv owner ∧
        ∀ sid ∈ sids,
          sid ∈ (sids.foldl (Miners.charge owner params now) m).failed := by
  induction sids with
  | nil => exact fun h _ => ⟨h, nofun⟩
  | cons sid sids ih =>
    intro m h hw
    have hnext : (m.charge owner params now sid).Inv owner ∧
        World.Within owner (m.charge owner params now sid).failed sids := by
      rw [World.Within] at hw
      split at hw
      · next hf =>
        obtain ⟨hinv, hfailed⟩ := h.charge params now fun _ => hw.1
        rw [hfailed, if_pos hf]
        exact ⟨hinv, hw.2⟩
      · next hf =>
        obtain ⟨hinv, hfailed⟩ := h.charge params now fun hf' => absurd hf' hf
        rw [hfailed, if_neg hf]
        exact ⟨hinv, hw⟩
    obtain ⟨hinv, hall⟩ := ih hnext.1 hnext.2
    exact ⟨hinv, forall_mem_cons.2
      ⟨(charged_all _ _ _ sids _).failed.subset (mem_failed_charge h), hall⟩⟩

/-- Only a hotkey charged reaches the threshold. -/
theorem owner_escalate (sids : List String) {m : Miners × Finset String} :
    ∀ hotkey ∈ (sids.foldl (escalate owner params now) m).2,
      hotkey ∈ m.2 ∨ hotkey ∈ sids.map owner := by
  refine foldlRecOn (motive := fun m' : Miners × Finset String =>
    ∀ hotkey ∈ m'.2, hotkey ∈ m.2 ∨ hotkey ∈ sids.map owner) sids _
    (fun _ h => .inl h) ?_
  intro m' hm' sid hsid hotkey hh
  simp only [escalate] at hh
  split at hh
  · rcases Finset.mem_insert.1 hh with rfl | hh
    · exact .inr (mem_map_of_mem hsid)
    · exact hm' hotkey hh
  · exact hm' hotkey hh

/-- A hotkey whose failures reached the threshold is banned. -/
theorem banned_escalate (owner : String → String) (hban : 0 < params.banSeconds)
    (sids : List String) {m : Miners × Finset String}
    (h : ∀ hotkey ∈ m.2, BannedAt (m.1.state hotkey) now) :
    ∀ hotkey ∈ (sids.foldl (escalate owner params now) m).2,
      BannedAt ((sids.foldl (escalate owner params now) m).1.state hotkey)
        now := by
  refine foldlRecOn (motive := fun m' : Miners × Finset String =>
    ∀ hotkey ∈ m'.2, BannedAt (m'.1.state hotkey) now) sids _ h ?_
  intro m' hm' sid _ hotkey hh
  have hlt : now < now + params.banSeconds := lt_add_of_pos_right _ hban
  simp only [escalate] at hh ⊢
  split at hh
  · next hbans =>
    rcases Finset.mem_insert.1 hh with rfl | hh
    · obtain ⟨hnew, hreach⟩ := hbans
      rw [state_charge, if_pos rfl, afterConfirmedFailure, if_neg hnew,
        if_pos hreach]
      exact ⟨_, rfl, hlt⟩
    · exact (charged ..).banned hotkey now hlt (hm' hotkey hh)
  · exact (charged ..).banned hotkey now hlt (hm' hotkey hh)

-- ===== counting passes

section Count

variable {s : MinerState} {l : List (String × ℚ)} {hist : List String}

theorem countOne_of_banned (h : effectiveState s now params = .banned)
    (l : List (String × ℚ)) :
    l.foldl (countOne params now) (s, hist) = (s, hist) :=
  foldl_fixed' (fun x => show countOne params now (s, hist) x = _ from
    if_pos h) l

theorem countOne_of_counted (h : ∀ x ∈ l, x.1 ∈ s.passIds) :
    l.foldl (countOne params now) (s, hist) = (s, hist) := by
  refine foldlRecOn l _ (motive := (· = (s, hist))) rfl ?_
  intro p hp x hx
  rw [hp, countOne, afterPass]
  simp [h x hx]

/-- New passes are counted one after another. -/
theorem countOne_of_new (hist : List String)
    (hb : effectiveState s now params ≠ .banned)
    (hnd : (l.map Prod.fst).Nodup) (h : ∀ x ∈ l, x.1 ∉ s.passIds)
    (hids : lastN passIdsMax s.passIds = s.passIds) :
    let r := l.foldl (countOne params now) (s, hist)
    r.2 = hist ++ l.map Prod.fst ∧ r.1.failureIds = s.failureIds ∧
      r.1.passIds = lastN passIdsMax (s.passIds ++ l.map Prod.fst) := by
  induction l generalizing s hist with
  | nil => simp [hids]
  | cons x l ih =>
    have hx : x.1 ∉ s.passIds := h x mem_cons_self
    obtain ⟨hxl, hnd⟩ := nodup_cons.1 hnd
    have hone : countOne params now (s, hist) x =
        (afterPass s x.2 x.1, hist ++ [x.1]) := by
      rw [countOne, if_neg hb, if_neg hx]
    have hpass : (afterPass s x.2 x.1).passIds =
        lastN passIdsMax (s.passIds ++ [x.1]) := by
      rw [afterPass, if_neg hx]
    have hstate : effectiveState (afterPass s x.2 x.1) now params ≠
        .banned := by
      rw [Ne, effectiveState_banned, afterPass, if_neg hx]
      rwa [Ne, effectiveState_banned] at hb
    have hfresh : ∀ y ∈ l, y.1 ∉ (afterPass s x.2 x.1).passIds := by
      intro y hy hmem
      rw [hpass] at hmem
      rcases mem_append.1 (mem_of_mem_lastN hmem) with hmem | hmem
      · exact h y (mem_cons_of_mem _ hy) hmem
      · rw [mem_singleton] at hmem
        exact hxl (mem_map.2 ⟨y, hy, hmem⟩)
    have hkeep : lastN passIdsMax (afterPass s x.2 x.1).passIds =
        (afterPass s x.2 x.1).passIds := by
      rw [hpass, lastN_lastN]
    obtain ⟨h1, h2, h3⟩ := ih (hist ++ [x.1]) hstate hnd hfresh hkeep
    rw [foldl_cons, hone]
    refine ⟨by simpa using h1, ?_, ?_⟩
    · rw [h2, afterPass, if_neg hx]
    · rw [h3, hpass, lastN_lastN_append]
      simp

/-- **One write of passes**: all of a hotkey's are new, or all are
remembered from a write that landed before. Afterwards either nothing has
changed, or all are counted and remembered. -/
theorem Inv.count (h : m.Inv owner) (params : AuditParams) (now : ℚ)
    (hnd : (l.map Prod.fst).Nodup) (hlen : l.length ≤ passIdsMax)
    (hold : (∀ x ∈ l, x.1 ∉ m.passed) ∨
      ∀ x ∈ l, x.1 ∈ (m.state hotkey).passIds) :
    (m.count params now (hotkey, l)).Inv owner ∧ (∀ h', h' ≠ hotkey →
        (m.count params now (hotkey, l)).state h' = m.state h') ∧
      ((m.count params now (hotkey, l)).passed = m.passed ∧
          (m.count params now (hotkey, l)).state hotkey = m.state hotkey ∨
        (m.count params now (hotkey, l)).passed = m.passed ++ l.map Prod.fst ∧
          ∀ x ∈ l, x.1 ∈
            ((m.count params now (hotkey, l)).state hotkey).passIds) := by
  have hother : ∀ h', h' ≠ hotkey →
      (m.count params now (hotkey, l)).state h' = m.state h' :=
    fun h' hne => (state_put ..).trans (if_neg hne)
  have hself : (m.count params now (hotkey, l)).state hotkey =
      (l.foldl (countOne params now) (m.state hotkey, m.passed)).1 :=
    (state_put ..).trans (if_pos rfl)
  have hunchanged : l.foldl (countOne params now)
      (m.state hotkey, m.passed) = (m.state hotkey, m.passed) →
      (m.count params now (hotkey, l)).Inv owner ∧
        (m.count params now (hotkey, l)).passed = m.passed ∧
        (m.count params now (hotkey, l)).state hotkey = m.state hotkey := by
    intro he
    rw [hself, Miners.count, he]
    exact ⟨h.reset rfl rfl, rfl, rfl⟩
  by_cases hb : effectiveState (m.state hotkey) now params = .banned
  · obtain ⟨hinv, hsame⟩ := hunchanged (countOne_of_banned hb l)
    exact ⟨hinv, hother, .inl hsame⟩
  rcases hold with hold | hold
  · have hnew : ∀ x ∈ l, x.1 ∉ (m.state hotkey).passIds :=
      fun x hx hmem => hold x hx (h.passIds hotkey _ hmem)
    obtain ⟨h1, h2, h3⟩ := countOne_of_new m.passed hb hnd hnew (h.kept hotkey)
    refine ⟨h.put (h2.trans (h.ids hotkey)) (fun _ _ => rfl) ?_ ?_ h.failed ?_ ?_,
      hother, .inr ⟨h1, ?_⟩⟩
    · rw [h1, h3]
      intro x hx
      rcases mem_append.1 (mem_of_mem_lastN hx) with hx | hx
      · exact mem_append_left _ (h.passIds hotkey x hx)
      · exact mem_append_right _ hx
    · rw [h3, lastN_lastN]
    · rw [h1]
      exact subset_append_left _ _
    · rw [h1]
      refine nodup_append.2 ⟨h.passed, hnd, ?_⟩
      rintro a ha b hb rfl
      obtain ⟨x, hx, rfl⟩ := mem_map.1 hb
      exact hold x hx ha
    · intro x hx
      rw [hself, h3]
      exact mem_lastN_append (by simpa using hlen) (mem_map_of_mem hx)
  · obtain ⟨hinv, hsame⟩ := hunchanged (countOne_of_counted hold)
    exact ⟨hinv, hother, .inl hsame⟩

end Count

/-- The end of a ban touches nothing that is counted. -/
theorem Inv.endBan (h : m.Inv owner) (now : ℚ) (hotkey : String) :
    (m.endBan now hotkey).Inv owner := by
  apply h.reset
  · rw [Audit.endBan]
    split <;> rfl
  · rw [Audit.endBan]
    split <;> rfl

end Miners

-- ===== the invariant

/-- A verdict with a penalty has its failure counted, and a hotkey that
reached the threshold in the batch gets no passing one. -/
def Good (failed : List String) (sid : String) (v : Verdict) : Prop :=
  (v.kind = .failed true → sid ∈ failed) ∧ (v.reached = true → v.kind ≠ .passed)

/-- A hotkey's passes still to count: those of the next write are all new
or all remembered, the others new. -/
structure HotkeyOk (owner : String → String) (m : Miners)
    (verdicts : List (String × Verdict)) (p : String × List (String × ℚ)) :
    Prop where
  nodup : (p.2.map Prod.fst).Nodup
  own : ∀ x ∈ p.2, owner x.1 = p.1
  judged : ∀ x ∈ p.2, (verdicts.lookup x.1).isSome
  later : ∀ x ∈ p.2.drop passIdsMax, x.1 ∉ m.passed
  next : (∀ x ∈ p.2.take passIdsMax, x.1 ∉ m.passed) ∨
    ∀ x ∈ p.2.take passIdsMax, x.1 ∈ (m.state p.1).passIds

def PhaseOk (owner : String → String) (m : Miners)
    (verdicts : List (String × Verdict)) (b : Batch) : Phase → Prop
  | .escalating => ∀ hotkey ∈ b.reached, hotkey ∈ b.failures.map owner ∧
      BannedAt (m.state hotkey) b.now
  | .reading states =>
    (∀ hotkey ∈ b.reached, ∃ s, states.lookup hotkey = some s ∧
      BannedAt s b.now) ∧
    ∀ sid ∈ b.failures, sid ∈ m.failed
  | .writing planned written =>
    (∀ p ∈ planned, Good m.failed p.sid p.verdict) ∧
    (written.map Prod.fst).Nodup ∧
    ∀ x ∈ written, (verdicts.lookup x.1).isSome ∧ x.1 ∉ m.passed
  | .counting passes =>
    (passes.map Prod.fst).Nodup ∧ ∀ p ∈ passes, HotkeyOk owner m verdicts p

structure World.Inv (owner : String → String) (w : World) : Prop where
  miners : w.miners.Inv owner
  passed : ∀ sid ∈ w.miners.passed, (w.verdicts.lookup sid).isSome
  verdicts : ∀ sid v, w.verdicts.lookup sid = some v →
    Good w.miners.failed sid v
  sent : ∀ x ∈ w.sent, Good w.miners.failed x.1 x.2
  batch : ∀ b, w.batch = some b →
    PhaseOk owner w.miners w.verdicts b b.phase

theorem Good.mono {failed failed' : List String} {sid : String} {v : Verdict}
    (h : Good failed sid v) (hf : ∀ x ∈ failed, x ∈ failed') :
    Good failed' sid v :=
  ⟨fun hk => hf _ (h.1 hk), h.2⟩

section Kept

variable {owner : String → String} {m m' : Miners}
  {verdicts verdicts' : List (String × Verdict)}

/-- What a write leaves to count is all new. -/
theorem HotkeyOk.left {p : String × List (String × ℚ)}
    (h : HotkeyOk owner m verdicts p) :
    HotkeyOk owner m verdicts (p.1, p.2.drop passIdsMax) where
  nodup := h.nodup.sublist ((drop_sublist _ _).map _)
  own := fun x hx => h.own x (mem_of_mem_drop hx)
  judged := fun x hx => h.judged x (mem_of_mem_drop hx)
  later := fun x hx => h.later x (mem_of_mem_drop hx)
  next := .inl fun x hx => h.later x (mem_of_mem_take hx)

/-- Verdicts written and failures charged keep a batch. -/
theorem PhaseOk.mono {b : Batch} {phase : Phase} {until_ : ℚ}
    (h : PhaseOk owner m verdicts b phase)
    (hv : ∀ sid, (verdicts.lookup sid).isSome → (verdicts'.lookup sid).isSome)
    (hm : m.Charged until_ m') (hlt : b.now < until_) :
    PhaseOk owner m' verdicts' b phase := by
  have hf := hm.failed.subset
  cases phase with
  | escalating =>
    exact fun x hx => ⟨(h x hx).1, hm.banned x _ hlt (h x hx).2⟩
  | reading states => exact ⟨h.1, fun x hx => hf (h.2 x hx)⟩
  | writing planned written =>
    refine ⟨fun p hp => (h.1 p hp).mono fun _ => @hf _, h.2.1, fun x hx => ?_⟩
    rw [hm.passed]
    exact ⟨hv _ (h.2.2 x hx).1, (h.2.2 x hx).2⟩
  | counting passes =>
    refine ⟨h.1, fun p hpm => ?_⟩
    obtain ⟨hnd, hown, hj, hl, hn⟩ := h.2 p hpm
    refine ⟨hnd, hown, fun x hx => hv _ (hj x hx), ?_, ?_⟩
    · rwa [hm.passed]
    · rwa [hm.passed, hm.passIds]

end Kept

namespace World

variable {owner : String → String} {params : AuditParams} {w w' : World}
  {b : Batch} {sid : String} {v : Verdict}

theorem Inv.init : World.init.Inv owner where
  miners := Miners.inv_init owner
  passed := by simp [World.init, Miners.init]
  verdicts := by simp [World.init]
  sent := by simp [World.init]
  batch := by simp [World.init]

theorem isSome_create {x : String} (h : (w.verdicts.lookup x).isSome) :
    ((w.create sid v).verdicts.lookup x).isSome := by
  rw [create]
  split
  · exact h
  · rw [lookup_put]
    split
    · rfl
    · exact h

theorem isSome_create_self : ((w.create sid v).verdicts.lookup sid).isSome := by
  rw [create]
  split
  · assumption
  · rw [lookup_put, if_pos rfl]
    rfl

theorem create_rest (w : World) (sid : String) (v : Verdict) :
    (w.create sid v).miners = w.miners ∧ (w.create sid v).sent = w.sent ∧
      (w.create sid v).batch = w.batch := by
  rw [create]
  split <;> exact ⟨rfl, rfl, rfl⟩

theorem Inv.endBans (h : w.miners.Inv owner) (now : ℚ) (hotkeys : List String) :
    (hotkeys.foldl (Miners.endBan now) w.miners).Inv owner ∧
      (hotkeys.foldl (Miners.endBan now) w.miners).failed = w.miners.failed ∧
      (hotkeys.foldl (Miners.endBan now) w.miners).passed = w.miners.passed :=
  foldlRecOn (motive := fun m : Miners => m.Inv owner ∧
      m.failed = w.miners.failed ∧ m.passed = w.miners.passed) hotkeys _
    ⟨h, rfl, rfl⟩ fun _ hm hotkey _ => ⟨hm.1.endBan now hotkey, hm.2⟩

/-- The verdicts of a batch are good: its failures are counted, and a
hotkey it got banned is banned in the state its passes are held against. -/
theorem good_plans {states : List (String × MinerState)} {failed : List String}
    (hreached : ∀ hotkey ∈ b.reached, ∃ s, states.lookup hotkey = some s ∧
      BannedAt s b.now) (hfailed : ∀ sid ∈ b.failures, sid ∈ failed) :
    ∀ p ∈ plans owner params b states, Good failed p.sid p.verdict := by
  intro p hp
  obtain ⟨x, hx, rfl⟩ := mem_map.1 hp
  have hx : x ∈ b.items := by
    rcases mem_append.1 hx with hx | hx
    · exact (mem_filter.1 hx).1
    · exact (mem_filter.1 hx).1
  constructor
  · intro hk
    refine hfailed x.1 (mem_map.2 ⟨x, mem_filter.2 ⟨hx, ?_⟩, rfl⟩)
    cases ho : x.2 with
    | passed mantMean =>
      simp only [ho, kindOf] at hk
      split at hk <;> cases hk
    | failed penalty =>
      simp only [ho, kindOf] at hk
      simpa using Kind.failed.inj hk
  · intro hr
    obtain ⟨s, hs, hban⟩ := hreached _ (of_decide_eq_true hr)
    cases ho : x.2 with
    | passed mantMean =>
      simp only [kindOf, hs, Option.getD_some]
      rw [if_pos (effectiveState_banned.2 hban)]
      simp
    | failed penalty => simp [kindOf]

/-- The passes this call wrote, one more verdict back. -/
theorem written_ok {p : Planned} {done : List (String × ℚ)}
    (hnd : (done.map Prod.fst).Nodup)
    (hd : ∀ x ∈ done, (w.verdicts.lookup x.1).isSome ∧ x.1 ∉ w.miners.passed)
    (hpassed : ∀ sid ∈ w.miners.passed, (w.verdicts.lookup sid).isSome) :
    ((written p (w.verdicts.lookup p.sid).isNone done).map Prod.fst).Nodup ∧
      ∀ x ∈ written p (w.verdicts.lookup p.sid).isNone done,
        (x.1 = p.sid ∨ (w.verdicts.lookup x.1).isSome) ∧
          x.1 ∉ w.miners.passed := by
  have hkeep : (done.map Prod.fst).Nodup ∧ ∀ x ∈ done,
      (x.1 = p.sid ∨ (w.verdicts.lookup x.1).isSome) ∧ x.1 ∉ w.miners.passed :=
    ⟨hnd, fun x hx => ⟨.inr (hd x hx).1, (hd x hx).2⟩⟩
  rw [written]
  split
  · split
    · next mantMean _ _ hnew =>
      -- created just now, so neither written nor counted before
      rw [Option.isNone_iff_eq_none] at hnew
      constructor
      · refine nodup_insert hnd fun x hx hsid => ?_
        have hsome := (hd x hx).1
        rw [hsid, hnew] at hsome
        cases hsome
      · refine forall_snoc hkeep.2 ⟨.inl rfl, fun hmem => ?_⟩
        have := hpassed _ hmem
        simp [hnew] at this
    · exact hkeep
  · exact hkeep

section Kept

variable (h : w.Inv owner)
include h

/-- A good verdict may be written at any time. -/
theorem Inv.create (hv : Good w.miners.failed sid v) :
    (w.create sid v).Inv owner := by
  obtain ⟨hm, hs, hb⟩ := create_rest w sid v
  constructor
  · rw [hm]
    exact h.miners
  · rw [hm]
    exact fun x hx => isSome_create (h.passed x hx)
  · rw [hm]
    rw [World.create]
    split
    · exact h.verdicts
    · exact forall_lookup_put h.verdicts hv
  · rw [hm, hs]
    exact h.sent
  · rw [hb, hm]
    exact fun b hb' => (h.batch b hb').mono (fun _ => isSome_create)
      (.refl _ _) (lt_add_one _)

/-- A change of the batch alone. -/
theorem Inv.setBatch {b : Batch}
    (hb : PhaseOk owner w.miners w.verdicts b b.phase) :
    ({ w with batch := some b } : World).Inv owner := { h with
  batch := by
    intro b' hb'
    obtain rfl := Option.some.inj hb'
    exact hb }

/-- Another task's failures. -/
theorem Inv.charge {now : ℚ} {sids : List String}
    (hw : Within owner w.miners.failed sids)
    (hlt : ∀ b, w.batch = some b → b.now < now + params.banSeconds) :
    ({ w with miners := sids.foldl (charge owner params now) w.miners } :
      World).Inv owner := by
  have hc := charged_all owner params now sids w.miners
  have hf : ∀ x ∈ w.miners.failed, x ∈ _ := fun _ hx => hc.failed.subset hx
  refine ⟨(Miners.Inv.chargeAll params now sids h.miners hw).1, ?_,
    fun x u hu => (h.verdicts x u hu).mono hf,
    fun x hx => (h.sent x hx).mono hf,
    fun b hb => (h.batch b hb).mono (fun _ h => h) hc (hlt b hb)⟩
  rw [hc.passed]
  exact h.passed

theorem Inv.begin_ (now : ℚ) (items : List (String × Outcome)) :
    (World.step owner params w (.begin_ now items)).Inv owner := by
  simp only [World.step]
  split
  · exact h
  refine h.setBatch ?_
  split
  · next hnone =>
    refine ⟨fun _ hh => absurd hh (Finset.notMem_empty _), fun sid hs => ?_⟩
    simp only [Batch.failures] at hnone hs
    simp [hnone] at hs
  · exact fun _ hh => absurd hh (Finset.notMem_empty _)

theorem Inv.endBan (now : ℚ) (hotkey : String) :
    (World.step owner params w (.endBan now hotkey)).Inv owner := by
  simp only [World.step]
  split
  · exact h
  · next hnone =>
    refine ⟨h.miners.endBan now hotkey, h.passed, h.verdicts, h.sent, ?_⟩
    intro b hb
    rw [hnone] at hb
    cases hb

/-- The escalation's write, reported or not. -/
theorem Inv.escalate (hban : 0 < params.banSeconds)
    (hb : w.batch = some b) (hph : b.phase = .escalating)
    (hw : Within owner w.miners.failed b.failures) (back : Bool) :
    (stepBatch owner params w b (.escalate back)).Inv owner := by
  have hok := h.batch b hb
  rw [hph] at hok
  have hbanned := banned_escalate owner hban b.failures
    (m := (w.miners, b.reached)) fun hotkey hh => (hok hotkey hh).2
  have howner : ∀ hotkey ∈ (b.failures.foldl
      (Miners.escalate owner params b.now) (w.miners, b.reached)).2,
      hotkey ∈ b.failures.map owner := by
    intro hotkey hh
    rcases owner_escalate b.failures hotkey hh with hh | hh
    · exact (hok hotkey hh).1
    · exact hh
  -- the miners moved on as by a charge
  have hlt : ∀ b', w.batch = some b' → b'.now < b.now + params.banSeconds := by
    intro b' hb'
    obtain rfl := Option.some.inj (hb.symm.trans hb')
    exact lt_add_of_pos_right _ hban
  have hcharged := h.charge hw hlt
  have hcounted := (Miners.Inv.chargeAll params b.now b.failures h.miners hw).2
  simp only [stepBatch, hph]
  have hfst := escalate_fst owner params b.now b.failures
    (w.miners, b.reached)
  generalize b.failures.foldl (Miners.escalate owner params b.now)
    (w.miners, b.reached) = r at *
  obtain ⟨m, reached⟩ := r
  subst hfst
  refine hcharged.setBatch ?_
  split
  · refine ⟨fun hotkey hh => ?_, hcounted⟩
    refine ⟨_, lookup_map_self ?_, hbanned hotkey hh⟩
    exact mem_dedup.2 (howner hotkey hh)
  · exact fun hotkey hh => ⟨howner hotkey hh, hbanned hotkey hh⟩

theorem Inv.plan (hb : w.batch = some b) :
    (stepBatch owner params w b .plan).Inv owner := by
  simp only [stepBatch]
  cases hph : b.phase with
  | escalating | writing planned written | counting passes => exact h
  | reading states =>
    have hok := h.batch b hb
    rw [hph] at hok
    obtain ⟨hm, hfailed, hpassed⟩ :=
      Inv.endBans h.miners b.now (unread owner b states)
    refine ⟨hm, ?_, ?_, ?_, ?_⟩
    · rw [hpassed]
      exact h.passed
    · rw [hfailed]
      exact h.verdicts
    · rw [hfailed]
      exact h.sent
    · intro b' hb'
      obtain rfl := Option.some.inj hb'
      refine ⟨?_, .nil, nofun⟩
      rw [hfailed]
      refine good_plans (fun hotkey hh => ?_) hok.2
      obtain ⟨s, hs, hban⟩ := hok.1 hotkey hh
      refine ⟨s, ?_, hban⟩
      rw [lookup_append, hs]
      rfl

theorem Inv.write (hb : w.batch = some b) (sid : String) (reply : Reply) :
    (stepBatch owner params w b (.write sid reply)).Inv owner := by
  simp only [stepBatch]
  cases hph : b.phase with
  | escalating | reading states | counting passes => exact h
  | writing planned done =>
    have hok := h.batch b hb
    rw [hph] at hok
    obtain ⟨hgood, hnd, hdone⟩ := hok
    dsimp only
    split
    · exact h
    · next p hp =>
      have hsid : p.sid = sid := by simpa using find?_some hp
      have hpgood : Good w.miners.failed sid p.verdict :=
        hsid ▸ hgood p (mem_of_find?_eq_some hp)
      have hleft : ∀ q ∈ planned.erase p,
          Good w.miners.failed q.sid q.verdict :=
        fun q hq => hgood q (mem_of_mem_erase hq)
      have hcreated := h.create hpgood
      have hminers := (create_rest w sid p.verdict).1
      cases reply with
      | back =>
        refine hcreated.setBatch ?_
        rw [← hsid]
        obtain ⟨hnd', hdone'⟩ := written_ok (p := p) hnd hdone h.passed
        refine ⟨?_, hnd', fun x hx => ?_⟩
        · rw [hsid, hminers]
          exact hleft
        · obtain ⟨hj, hp⟩ := hdone' x hx
          rw [hsid, hminers]
          refine ⟨?_, hp⟩
          rcases hj with hj | hj
          · rw [hj, hsid]
            exact isSome_create_self
          · exact isSome_create hj
      | lost =>
        refine hcreated.setBatch ?_
        rw [PhaseOk, hminers]
        exact ⟨hleft, hnd, fun x hx =>
          ⟨isSome_create (hdone x hx).1, (hdone x hx).2⟩⟩
      | failed =>
        have hsent : ({ w with
            sent := (sid, p.verdict) :: w.sent } : World).Inv owner := by
          refine ⟨h.miners, h.passed, h.verdicts,
            forall_mem_cons.2 ⟨hpgood, h.sent⟩, h.batch⟩
        exact hsent.setBatch ⟨hleft, hnd, hdone⟩

theorem Inv.tally (hb : w.batch = some b) :
    (stepBatch owner params w b .tally).Inv owner := by
  simp only [stepBatch]
  split
  · next done hph =>
    have hok := h.batch b hb
    rw [hph] at hok
    obtain ⟨-, hnd, hdone⟩ := hok
    refine h.setBatch ⟨?_, ?_⟩
    · rw [byHotkey, map_map]
      exact (map_id _).symm ▸ nodup_dedup _
    · intro p hp
      obtain ⟨hotkey, -, rfl⟩ := mem_map.1 hp
      have hmem : ∀ x ∈ done.filter (fun x => owner x.1 = hotkey),
          x ∈ done := fun x hx => (mem_filter.1 hx).1
      refine ⟨hnd.sublist (filter_sublist.map _), fun x hx => ?_,
        fun x hx => (hdone x (hmem x hx)).1, fun x hx => ?_,
        .inl fun x hx => ?_⟩
      · exact of_decide_eq_true (mem_filter.1 hx).2
      · exact (hdone x (hmem x (mem_of_mem_drop hx))).2
      · exact (hdone x (hmem x (mem_of_mem_take hx))).2
  · exact h

/-- The passes of one write, hotkey after hotkey. -/
theorem Inv.countAll (params : AuditParams) (now : ℚ)
    {passes : List (String × List (String × ℚ))}
    (hkeys : (passes.map Prod.fst).Nodup)
    (hok : ∀ p ∈ passes, HotkeyOk owner w.miners w.verdicts p) :
    let m := (chunk passes).foldl (count params now) w.miners
    m.Inv owner ∧ m.failed = w.miners.failed ∧
      (∀ sid ∈ m.passed, (w.verdicts.lookup sid).isSome) ∧
      ∀ p ∈ passes, HotkeyOk owner m w.verdicts p := by
  refine foldlRecOn (motive := fun m : Miners => m.Inv owner ∧
    m.failed = w.miners.failed ∧
    (∀ sid ∈ m.passed, (w.verdicts.lookup sid).isSome) ∧
    ∀ p ∈ passes, HotkeyOk owner m w.verdicts p) (chunk passes) _
    ⟨h.miners, rfl, h.passed, hok⟩ ?_
  rintro m ⟨hm, hfailed, hpassed, hall⟩ c hc
  obtain ⟨p, hp, rfl⟩ := mem_map.1 hc
  have hpok := hall p hp
  have htake : ∀ x ∈ p.2.take passIdsMax, x ∈ p.2 :=
    fun x hx => mem_of_mem_take hx
  obtain ⟨hinv, hother, hres⟩ := hm.count params now
    (hpok.nodup.sublist ((take_sublist _ _).map _))
    (by simp) hpok.next
  refine ⟨hinv, hfailed, fun sid hsid => ?_, fun q hq => ?_⟩
  · rcases hres with ⟨he, -⟩ | ⟨he, -⟩
    · exact hpassed sid (he ▸ hsid)
    · rw [he] at hsid
      rcases mem_append.1 hsid with hsid | hsid
      · exact hpassed sid hsid
      · obtain ⟨x, hx, rfl⟩ := mem_map.1 hsid
        exact hpok.judged x (htake x hx)
  · have hqok := hall q hq
    by_cases hkey : q.1 = p.1
    · -- the hotkey itself
      obtain rfl := eq_of_key hkeys hq hp hkey
      rcases hres with ⟨he, hs⟩ | ⟨he, hs⟩
      · refine ⟨hqok.nodup, hqok.own, hqok.judged, ?_, ?_⟩
        · rw [he]
          exact hqok.later
        · rw [he, hs]
          exact hqok.next
      · refine ⟨hqok.nodup, hqok.own, hqok.judged, fun x hx => ?_, .inr hs⟩
        rw [he]
        intro hmem
        rcases mem_append.1 hmem with hmem | hmem
        · exact hqok.later x hx hmem
        · -- taken and left are different submissions
          have hnd := hqok.nodup
          rw [← take_append_drop passIdsMax q.2, map_append] at hnd
          exact (nodup_append.1 hnd).2.2 x.1 hmem x.1 (mem_map_of_mem hx) rfl
    · have hnot : ∀ x ∈ q.2, x.1 ∉ m.passed → x.1 ∉ (m.count params now
            (p.1, p.2.take passIdsMax)).passed := by
        intro x hx hno hmem
        rcases hres with ⟨he, -⟩ | ⟨he, -⟩
        · exact hno (he ▸ hmem)
        · rw [he] at hmem
          rcases mem_append.1 hmem with hmem | hmem
          · exact hno hmem
          · obtain ⟨y, hy, hyx⟩ := mem_map.1 hmem
            have hown := hpok.own y (htake y hy)
            rw [hyx, hqok.own x hx] at hown
            exact hkey hown
      refine ⟨hqok.nodup, hqok.own, hqok.judged, fun x hx =>
        hnot x (mem_of_mem_drop hx) (hqok.later x hx), ?_⟩
      rcases hqok.next with hn | hn
      · exact .inl fun x hx =>
          hnot x (mem_of_mem_take hx) (hn x hx)
      · rw [hother q.1 hkey]
        exact .inr hn

theorem Inv.count (hb : w.batch = some b) (back : Bool) :
    (stepBatch owner params w b (.count back)).Inv owner := by
  simp only [stepBatch]
  cases hph : b.phase with
  | escalating | reading states | writing planned written => exact h
  | counting passes =>
    have hok := h.batch b hb
    rw [hph] at hok
    obtain ⟨hm, hfailed, hpassed, hall⟩ :=
      h.countAll params b.now hok.1 hok.2
    have hcounted : ({ w with
        miners := (chunk passes).foldl (Miners.count params b.now)
          w.miners } : World).Inv owner := by
      refine ⟨hm, hpassed, ?_, ?_, fun b' hb' => ?_⟩
      · rw [hfailed]
        exact h.verdicts
      · rw [hfailed]
        exact h.sent
      · obtain rfl := Option.some.inj (hb.symm.trans hb')
        rw [hph]
        exact ⟨hok.1, hall⟩
    dsimp only
    split
    · split
      · exact { hcounted with batch := nofun }
      · refine hcounted.setBatch ⟨?_, fun p hp => ?_⟩
        · refine hok.1.sublist ?_
          refine (filter_sublist.map _).trans ?_
          simp [map_map, Function.comp_def]
        · obtain ⟨q, hq, rfl⟩ := mem_map.1 (mem_filter.1 hp).1
          exact (hall q hq).left
    · exact hcounted

theorem Inv.crash (hb : w.batch = some b) :
    (stepBatch owner params w b .crash).Inv owner := by
  refine ⟨h.miners, h.passed, h.verdicts, fun x hx => ?_, nofun⟩
  simp only [stepBatch] at hx
  have hok := h.batch b hb
  cases hph : b.phase with
  | escalating | reading states | counting passes =>
    rw [hph] at hx
    exact h.sent x hx
  | writing planned written =>
    rw [hph] at hx hok
    rcases mem_append.1 hx with hx | hx
    · obtain ⟨p, hp, rfl⟩ := mem_map.1 hx
      exact hok.1 p hp
    · exact h.sent x hx

theorem Inv.step (hban : 0 < params.banSeconds)
    (e : WorldEvent) (he : Remembered owner params w e) :
    (World.step owner params w e).Inv owner := by
  -- a batch's own events, when there is one
  have hbatch : (∀ b, w.batch = some b →
      (stepBatch owner params w b e).Inv owner) →
      (match w.batch with
        | none => w
        | some b => stepBatch owner params w b e).Inv owner := by
    intro hstep
    split
    · exact h
    · next b hb => exact hstep b hb
  cases e with
  | begin_ now items => exact h.begin_ now items
  | late sid verdict =>
    simp only [World.step]
    split
    · next hs => exact h.create (h.sent _ hs)
    · exact h
  | charge now sids => exact h.charge he.1 he.2
  | endBan now hotkey => exact h.endBan now hotkey
  | escalate back =>
    refine hbatch fun b hb => ?_
    by_cases hph : b.phase = .escalating
    · exact h.escalate hban hb hph (he b hb hph) back
    · simp only [stepBatch]
      exact h
  | plan => exact hbatch fun b hb => h.plan hb
  | write sid reply => exact hbatch fun b hb => h.write hb sid reply
  | tally => exact hbatch fun b hb => h.tally hb
  | count back => exact hbatch fun b hb => h.count hb back
  | crash => exact hbatch fun b hb => h.crash hb

end Kept

/-- **Each outcome once**: in every run whose writes charge again only what
is remembered, no submission adds two passes or two failures, a verdict
with a penalty has its failure counted, and a hotkey that reached the ban
threshold in a batch gets no passing verdict from it. -/
theorem outcomes_once (hban : 0 < params.banSeconds) {as : List WorldEvent}
    (hrun : Run (World.step owner params) (Remembered owner params)
      World.init as w) : (∀ sid, w.miners.passed.count sid ≤ 1) ∧
      (∀ sid, w.miners.failed.count sid ≤ 1) ∧
      ∀ sid v, w.verdicts.lookup sid = some v →
        (v.kind = .failed true → sid ∈ w.miners.failed) ∧
          (v.reached = true → v.kind ≠ .passed) := by
  have h : w.Inv owner := hrun.invariant (I := fun w => w.Inv owner)
    Inv.init fun _ e he hw => hw.step hban e he
  exact ⟨nodup_iff_count_le_one.1 h.miners.passed,
    nodup_iff_count_le_one.1 h.miners.failed, h.verdicts⟩

-- ===== more than are kept

section Many

variable {m : Miners} {now : ℚ} {sids : List String}

/-- New failures are counted in their order. -/
theorem charge_new (params : AuditParams) (now : ℚ) (h : m.Inv owner)
    (hnd : sids.Nodup) (hnew : ∀ sid ∈ sids, sid ∉ m.failed) :
    (sids.foldl (charge owner params now) m).Inv owner
      ∧ (sids.foldl (charge owner params now) m).failed
        = m.failed ++ sids := by
  induction sids generalizing m with
  | nil => exact ⟨h, (append_nil _).symm⟩
  | cons sid sids ih =>
    obtain ⟨hsid, hnd⟩ := nodup_cons.1 hnd
    have hno := hnew sid mem_cons_self
    obtain ⟨hinv, hfailed⟩ := h.charge params now fun hf => absurd hf hno
    rw [if_neg hno] at hfailed
    have hrest := ih hinv hnd fun x hx hmem => by
      rw [hfailed] at hmem
      rcases mem_append.1 hmem with hmem | hmem
      · exact hnew x (mem_cons_of_mem _ hx) hmem
      · exact hsid (mem_singleton.1 hmem ▸ hx)
    rw [hfailed, append_assoc] at hrest
    exact hrest

/-- The first of more failures of one hotkey than are kept is forgotten
within its own write, and counted again when the write is. -/
theorem counted_twice {sid : String} (hnd : (sid :: sids).Nodup)
    (hlen : failureIdsMax ≤ sids.length)
    (hown : ∀ x ∈ sid :: sids, owner x = owner sid) :
    2 ≤ ((sid :: sids).foldl (charge owner params now)
      ((sid :: sids).foldl (charge owner params now)
        Miners.init)).failed.count sid := by
  have hinit := inv_init owner
  have hno : ∀ x ∈ sid :: sids, x ∉ Miners.init.failed :=
    nofun
  obtain ⟨hinv, hfailed⟩ := charge_new params now hinit hnd hno
  generalize (sid :: sids).foldl (charge owner params now)
    Miners.init = m at hinv hfailed ⊢
  rw [Miners.init, nil_append] at hfailed
  -- the first is not among those kept
  have hgone : sid ∉ (m.state (owner sid)).failureIds := by
    rw [hinv.ids, hfailed, failedOf,
      filter_eq_self.2 fun x hx => by simpa using hown x hx, lastN]
    intro hmem
    have hdrop : sid ∈ sids := by
      have hpos : (sid :: sids).length - failureIdsMax =
          (sids.length - failureIdsMax) + 1 := by
        rw [length_cons]
        omega
      rw [hpos, drop_succ_cons] at hmem
      exact mem_of_mem_drop hmem
    exact (nodup_cons.1 hnd).1 hdrop
  have hagain : (m.charge owner params now sid).failed =
      m.failed ++ [sid] := if_neg hgone
  have hle := (charged_all owner params now sids
    (m.charge owner params now sid)).failed.count_le sid
  refine le_trans ?_ hle
  rw [hagain, hfailed]
  simp

end Many

-- ===== on concrete runs

instance decidableWithin : (failed sids : List String) →
    Decidable (Within owner failed sids)
  | _, [] => isTrue trivial
  | failed, sid :: sids =>
    if h : sid ∈ failed then
      have := decidableWithin failed sids
      decidable_of_iff (sid ∈ lastN failureIdsMax
            (failed.filter fun x => owner x = owner sid) ∧
          Within owner failed sids) (by rw [Within, if_pos h])
    else
      have := decidableWithin (failed ++ [sid]) sids
      decidable_of_iff (Within owner (failed ++ [sid]) sids)
        (by rw [Within, if_neg h])

instance : (e : WorldEvent) → Decidable (Remembered owner params w e)
  | .escalate _ => inferInstanceAs (Decidable (∀ b, w.batch = some b →
      b.phase = .escalating → Within owner w.miners.failed b.failures))
  | .charge now sids => inferInstanceAs (Decidable (
      Within owner w.miners.failed sids ∧ ∀ b, w.batch = some b →
        b.now < now + params.banSeconds))
  | .begin_ _ _ | .plan | .write _ _ | .tally | .count _ | .crash
  | .late _ _ | .endBan _ _ => isTrue trivial

/-- The source's defaults. -/
def defaults : AuditParams := ⟨1, 100, 4320, 86400, 3, 604800, 604800⟩

def one : String → String := fun _ => "miner"

/-- Three failures and a pass of one hotkey. The escalation lands twice,
and the pass's verdict is written last. -/
def bannedRun : List WorldEvent :=
  [.begin_ 0 [("a", .failed true), ("p", .passed 1), ("b", .failed true),
      ("c", .failed true)],
    .escalate false, .escalate true, .plan, .write "a" .back,
    .write "b" .lost, .write "c" .back, .write "p" .back, .tally,
    .count true]

def afterBan : World := bannedRun.foldl (step one defaults) init

theorem outcomes_once_banned : afterBan.miners.failed = ["a", "b", "c"] ∧
      afterBan.verdicts.lookup "p" = some ⟨.void, true⟩ ∧
      (∀ sid, afterBan.miners.failed.count sid ≤ 1) ∧
      Verdict.kind ⟨.void, true⟩ ≠ .passed := by
  have hrun : Run (step one defaults) (Remembered one defaults) init
      bannedRun afterBan :=
    .of_permitted (by decide +kernel)
  have h := outcomes_once (by decide +kernel) hrun
  have hp : afterBan.verdicts.lookup "p" = some ⟨.void, true⟩ := by
    decide +kernel
  exact ⟨by decide +kernel, hp, h.2.1, (h.2.2 "p" _ hp).2 rfl⟩

/-- As many failures as one more than a state remembers. -/
def manyIds : List String := (List.range (failureIdsMax + 1)).map Nat.repr

/-- Their escalation lands, is reported failed, and is tried again. -/
def retriedRun : List WorldEvent :=
  [.begin_ 0 (manyIds.map fun sid => (sid, .failed true)),
    .escalate false, .escalate true]

theorem miners_retriedRun : (retriedRun.foldl (step one defaults) init).miners =
      manyIds.foldl (charge one defaults 0)
        (manyIds.foldl (Miners.charge one defaults 0) Miners.init) := by
  have hfailures : ∀ b : Batch,
      b.items = manyIds.map (fun sid => (sid, Outcome.failed true)) →
      b.failures = manyIds := by
    intro b hb
    rw [Batch.failures, hb, filter_eq_self.2, map_map]
    · exact map_id _
    · simp
  have hne : manyIds ≠ [] := by simp [manyIds, failureIdsMax]
  simp only [retriedRun, foldl_cons, foldl_nil]
  simp [step, stepBatch, init, hfailures, hne, escalate_fst]

/-- A batch of 257 failures of one hotkey, whose state write lands though
it is reported failed, counts the first of them twice. -/
theorem failures_counted_twice :
    2 ≤ (retriedRun.foldl (step one defaults) init).miners.failed.count
      (Nat.repr 0) := by
  have hcons : manyIds = Nat.repr 0 ::
      ((List.range failureIdsMax).map Nat.succ).map Nat.repr := by
    rw [manyIds, range_succ_eq_map, map_cons]
  have hnd : manyIds.Nodup :=
    nodup_range.map fun _ _ h => Nat.repr_inj.1 h
  rw [miners_retriedRun, hcons]
  rw [hcons] at hnd
  exact counted_twice hnd (by simp) fun _ _ => rfl

end World

end Reliquary.Audit.Counting
