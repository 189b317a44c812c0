/-
The operator's ledger check (`verify_ledgers` of
`validator/corpus_service.py`): the digests a ledger holds against the
slots it filled.

# What is modeled how

- The ledger is any the service reaches (`liveStep`). Beside it runs the
  number of submissions accepted so far, which no code reads.
- The check reads one thing more of a job than admission: whether its
  episodes run in a signed sandbox (`KindedJob`).
- What the route derives of a submission is a condition on the run
  (`RouteOk`): a trajectory is one digest, a session key comes with
  exactly the trajectories of a signed sandbox, and no completion has it
  for its digest.
- The ETag, the object's size and the backup are left out of the report:
  they are asked of the store and enter no count.

# What is proven

The check is quiet on every ledger of a job without a forced draw
(`verify_quiet`). An accept of a draw job adds the key of its slot too,
which the expected count leaves out (`verify_cries_wolf`).
-/
import Reliquary.Corpus.Rewrite

namespace Reliquary.Corpus

open Store Finset List LiveLedger

-- ===== the check

/-- A job as the check reads it, with what `parse_job` refuses an episode
job without. -/
structure KindedJob where
  job : JobSpec
  signedSandbox : Bool
  signed_episode : signedSandbox = true → job.episode = true
  one_trajectory : job.episode = true → job.sampling.n = 1

/-- The digests the check takes an accept to add. -/
def KindedJob.keys (k : KindedJob) : Nat :=
  k.job.sampling.n + if k.signedSandbox then 1 else 0

structure LedgerReport where
  schema : Option Schema
  filled : Nat
  promptsTouched : Nat
  hotkeys : Nat
  pending : Nat
  segments : Nat
  seen : Nat
  expectedSeen : Nat
  problems : List String
deriving DecidableEq

def verifyLedgers (k : KindedJob) (bucket : String → Option (List String))
    (stored : Option LedgerDoc) : Except LedgerError LedgerReport := do
  let s ← rebuildLedgers k.job (stored.getD {})
  let index ← seenIndex bucket s.segments
  checkPending index s.pending
  let seen := index.card + s.pending.card
  let filled := s.slots.filled
  let expected := filled * k.keys
  pure {
    schema := stored.map fun _ => s.schema
    filled
    promptsTouched := s.slots.snapshot.length
    hotkeys := s.cursors.length
    pending := s.pending.card
    segments := s.segments.length
    seen
    expectedSeen := expected
    problems := if seen ≠ expected then
        [s!"seen holds {seen} digests but {filled} filled slots "
          ++ s!"imply {expected}"]
      else [] }

-- ===== the count

section Count

variable (H : Hashes) (k : KindedJob) (name : List String → String)
  (evalSource : Bool)

/-- The entry is accepted, and its reference kept. -/
def LiveLedger.accepts (w : LiveLedger) (e : TurnEntry SlotError) : Bool :=
  Decision.accepts (e.decide w.state.ledgers w.seen) && (keepRecord
    (w.state.records.map fun r => (r.submissionId, r)) e.recordRef).isOk

/-- A step of the ledger and of the number of accepted submissions. -/
def countStep (x : LiveLedger × Nat) (op : LedgerOp) : LiveLedger × Nat :=
  (liveStep H k.job name evalSource x.1 op, match op with
    | .submit sub ref =>
      if x.1.accepts (submitEntry H k.job sub ref) then x.2 + 1 else x.2
    | _ => x.2)

def RouteOk (x : LiveLedger × Nat) (op : LedgerOp) : Prop :=
  LedgerOk k.job name x.1 op ∧ match op with
    | .submit sub _ => sub.sessionKey.isSome = k.signedSandbox
        ∧ (∀ key ∈ sub.sessionKey, key ∉ sub.digests)
        ∧ (k.job.episode = true → sub.digests.length = 1)
    | _ => True

/-- Every accept took a slot and added the digests of its job. -/
structure Counted (x : LiveLedger × Nat) : Prop where
  live : LiveInv name k.job x.1
  filled : x.1.state.slots.filled = x.2
  digests : x.1.digests.card = x.2 * k.keys

variable {H k name evalSource} {w : LiveLedger} {sub : Submission}

theorem seen_eq_false {d : String} : w.seen d = false ↔ d ∉ w.digests := by
  simp [seen, digests, or_comm]

/-- What an accepted submission adds. -/
theorem seenKeys_spec {L L' : Ledgers} {v : Verdict}
    {seen : String → Bool} (hsession : sub.sessionKey.isSome = k.signedSandbox)
    (hkey : ∀ key ∈ sub.sessionKey, key ∉ sub.digests)
    (hone : k.job.episode = true → sub.digests.length = 1)
    (h : admitSubmission H k.job sub seen L = (.ok v, L'))
    (hacc : v.accepted = true) :
    (seenKeys sub).Nodup ∧ (seenKeys sub).length = k.keys
      ∧ (∀ d ∈ seenKeys sub, seen d = false)
      ∧ L'.slots.filled = L.slots.filled + 1 := by
  obtain ⟨hgates, n, hn⟩ := accepts_of_decision h hacc
  obtain ⟨-, -, hslots⟩ := SlotLedger.consume_ok hn
  simp only [gates, List.forall_mem_cons] at hgates
  have hshape : sub.tokenCounts.length = sub.digests.length := by
    by_contra hne
    have hs := hgates.1
    rw [shapeGate, if_pos (fun hall => hne hall.1)] at hs
    cases hs
  obtain ⟨hnew, hnd, hcount⟩ := contentGate_fresh
    (fun hs => k.signed_episode (hsession ▸ hs)) hgates.2.2.2.2.2.1
  have hlen : sub.digests.length = k.job.sampling.n := by
    cases hep : k.job.episode with
    | true => rw [hone hep, k.one_trajectory hep]
    | false => rw [← hshape, hcount hep]
  refine ⟨?_, ?_, hnew, by rw [hslots]; rfl⟩
  · rw [seenKeys]
    cases hs : sub.sessionKey with
    | none => simpa using hnd
    | some key =>
      exact hnd.append (by simp) (by simpa using hkey key hs)
  · rw [seenKeys, KindedJob.keys, length_append, hlen, ← hsession]
    cases sub.sessionKey with
    | none => rfl
    | some key => rfl

/-- What settling an entry leaves of the slots and the digests. -/
theorem settleEntry_spec (w : LiveLedger) (e : TurnEntry SlotError) :
    (w.accepts e = false ∧ w.settleEntry e = w)
    ∨ ∃ v L, e.decide w.state.ledgers w.seen = (.ok v, L)
      ∧ w.accepts e = v.accepted ∧ (w.settleEntry e).state.slots = L.slots
      ∧ (w.settleEntry e).digests = if v.accepted then
          w.digests ∪ (e.digests L.slots).toFinset else w.digests := by
  unfold accepts settleEntry Decision.accepts
  rcases e.decide w.state.ledgers w.seen with ⟨_ | v, L⟩
  · exact .inl ⟨rfl, rfl⟩
  · dsimp only
    cases hacc : v.accepted with
    | false => exact .inr ⟨v, L, rfl, by simp [hacc], rfl, by simp [hacc]; rfl⟩
    | true =>
      cases keepRecord (w.state.records.map fun r => (r.submissionId, r))
          e.recordRef with
      | error x => exact .inl ⟨rfl, rfl⟩
      | ok records =>
        refine .inr ⟨v, L, rfl, hacc.symm, rfl, ?_⟩
        rw [hacc]
        exact (union_assoc ..).symm

/-- **A submission adds the digests of its job**, where no slot is
drawn. -/
theorem Counted.submit {n : Nat} (h : Counted k name (w, n))
    (hdraw : hasDraw k.job = false) {ref : Option RecordRef}
    (hok : RouteOk k name (w, n) (.submit sub ref)) :
    Counted k name (countStep H k name evalSource (w, n) (.submit sub ref)) := by
  have hlive : LiveInv name k.job (liveStep H k.job name evalSource w
    (.submit sub ref)) := h.live.step hok.1
  obtain ⟨-, hsession, hkey, hone⟩ := hok
  rw [liveStep] at hlive
  rw [countStep, liveStep]
  rcases settleEntry_spec w (submitEntry H k.job sub ref) with
    ⟨hno, hw⟩ | ⟨v, L, hd, hacc, hslots, hdigests⟩
  · simpa [hno, hw] using h
  · have hentry : (submitEntry H k.job sub ref).decide w.state.ledgers w.seen
          = admitSubmission H k.job sub w.seen w.state.ledgers
        ∧ (submitEntry H k.job sub ref).digests L.slots = seenKeys sub := by
      simp [submitEntry, hdraw]
    rw [hentry.1] at hd
    rw [hentry.2] at hdigests
    dsimp only
    rw [hacc]
    cases hv : v.accepted with
    | false =>
      have hsame := slots_of_not_accepts (by rw [hd]; exact hv)
      rw [hd] at hsame
      rw [hv] at hdigests
      exact ⟨hlive, by rw [hslots, hsame]; exact h.filled,
        (congrArg _ hdigests).trans h.digests⟩
    | true =>
      obtain ⟨hnd, hlen, hnew, hfilled⟩ :=
        seenKeys_spec hsession hkey hone hd hv
      have hdisj : Disjoint w.digests (seenKeys sub).toFinset := by
        rw [Finset.disjoint_right]
        intro d hd
        exact seen_eq_false.1 (hnew d (mem_toFinset.1 hd))
      have hcard := card_union_of_disjoint hdisj
      rw [toFinset_card_of_nodup hnd, hlen, h.digests] at hcard
      rw [hv] at hdigests
      refine ⟨hlive, ?_, ?_⟩
      · rw [hslots, hfilled]
        exact congrArg (· + 1) h.filled
      · show (w.settleEntry _).digests.card = (n + 1) * k.keys
        rw [hdigests, Nat.succ_mul]
        exact hcard

/-- **One step.** Only a submission moves the counts. -/
theorem Counted.step {x : LiveLedger × Nat} (h : Counted k name x)
    (hdraw : hasDraw k.job = false) {op : LedgerOp}
    (hok : RouteOk k name x op) :
    Counted k name (countStep H k name evalSource x op) := by
  obtain ⟨w, n⟩ := x
  have hkeep : (liveStep H k.job name evalSource w op).state.slots.filled
        = w.state.slots.filled
      ∧ (liveStep H k.job name evalSource w op).digests = w.digests →
      Counted k name (liveStep H k.job name evalSource w op, n) := fun hs =>
    ⟨h.live.step hok.1, hs.1.trans h.filled, (congrArg _ hs.2).trans h.digests⟩
  cases op with
  | submit sub ref => exact h.submit hdraw hok
  | skip req =>
    refine hkeep ?_
    have hskip : (skip H k.job req w.state.ledgers).2.slots
        = w.state.slots := by
      rcases skip_moves req w.state.ledgers with hm | ⟨-, hm⟩
      · rw [hm]
        rfl
      · rw [hm, slots_advanceBy]
        rfl
    rw [liveStep]
    rcases settleEntry_spec w (skipEntry H k.job req) with
      ⟨-, hw⟩ | ⟨v, L, hd, -, hslots, hdigests⟩
    · rw [hw]
      exact ⟨rfl, rfl⟩
    · have hL : L.slots = w.state.slots :=
        (congrArg (fun d => d.2.slots) hd).symm.trans hskip
      rw [hslots, hL, hdigests]
      exact ⟨rfl, by simp [skipEntry]⟩
  | sealPending segmentMax =>
    refine hkeep ⟨rfl, ?_⟩
    show (w.bodies ++ sealChunks w.state.pending segmentMax).flatten.toFinset
      ∪ ∅ = _
    rw [flatten_append, toFinset_append,
      (sealChunks_spec w.state.pending hok.1.1).1, union_empty]
    rfl
  | fail p id slot hotkey =>
    refine hkeep ?_
    rw [liveStep]
    split
    · exact ⟨rfl, rfl⟩
    · rename_i state hrec
      unfold recordPromptFailure at hrec
      split at hrec
      · cases hrec
      · obtain ⟨⟨slots, b⟩, hslots, hrec⟩ := bind_eq_ok hrec
        cases hrec
        obtain ⟨q, -, hslots⟩ := bind_eq_ok hslots
        dsimp only at hslots
        split at hslots
        · cases hslots
          exact ⟨rfl, rfl⟩
        · cases hslots
          exact ⟨rfl, rfl⟩
  | recover committed =>
    refine hkeep ?_
    rw [liveStep]
    split
    · exact ⟨rfl, rfl⟩
    · rename_i state hclear
      unfold clearRecords at hclear
      dsimp only at hclear
      split at hclear
      · cases hclear
      · split at hclear
        · cases hclear
          exact ⟨rfl, rfl⟩
        · cases hclear
          exact ⟨rfl, rfl⟩
  | reread =>
    refine hkeep ?_
    rw [liveStep, h.live.wf.rebuild]
    exact ⟨rfl, rfl⟩

/-- **The check never cries wolf** over a job without a forced draw. -/
theorem verify_quiet (hdraw : hasDraw k.job = false) {ops : List LedgerOp}
    {accepted : Nat} (hrun : Run (countStep H k name evalSource)
      (RouteOk k name) (init k.job, 0) ops (w, accepted))
    (bucket : String → Option (List String))
    (hbucket : ∀ c ∈ w.bodies, bucket (name c) = some c) :
    ∃ report, verifyLedgers k bucket (some w.state.snapshot) = .ok report
      ∧ report.problems = [] ∧ report.filled = accepted
      ∧ report.seen = w.digests.card ∧ report.seen = accepted * k.keys
      ∧ report.expectedSeen = accepted * k.keys := by
  have h : Counted k name (w, accepted) :=
    hrun.invariant ⟨LiveInv.init, rfl, by simp; rfl⟩
      fun _ _ hok hc => hc.step hdraw hok
  have hapart : Disjoint w.bodies.flatten.toFinset w.state.pending := by
    rw [Finset.disjoint_left]
    intro d hd
    obtain ⟨c, hc, hdc⟩ := mem_flatten.1 (mem_toFinset.1 hd)
    exact h.live.apart.pending c hc d hdc
  have hcard := card_union_of_disjoint hapart
  have hseen := h.digests
  have hfilled := h.filled
  dsimp only at hseen hfilled
  have hsum : w.bodies.flatten.toFinset.card + w.state.pending.card
      = accepted * k.keys := hcard.symm.trans hseen
  have hexpected : w.state.slots.filled * k.keys = accepted * k.keys := by
    rw [hfilled]
  refine ⟨_, by
    unfold verifyLedgers
    rw [Option.getD_some, h.live.wf.rebuild]
    show (seenIndex bucket w.state.segments >>= fun index => _) = _
    rw [seenIndex_ok h.live hbucket]
    show (checkPending w.bodies.flatten.toFinset w.state.pending >>= fun _ => _)
      = _
    rw [checkPending_ok h.live]
    rfl, ?_, hfilled, hcard.symm, hsum, hexpected⟩
  exact if_neg (not_not.2 (hsum.trans hexpected.symm))

end Count

-- ===== samples

/-- A job of completions. -/
def completionsOf (job : JobSpec) (h : job.episode = false) : KindedJob where
  job
  signedSandbox := false
  signed_episode := nofun
  one_trajectory := by simp [h]

/-- One submission, from an empty ledger. -/
theorem count_one (H : Hashes) (job : JobSpec) (h : job.episode = false)
    (sub : Submission) (hhot : sub.hotkey ≠ "") (hkey : sub.sessionKey = none)
    {n : Nat} (hn : (countStep H (completionsOf job h) bodyName false
      (init job, 0) (.submit sub none)).2 = n) :
    Run (countStep H (completionsOf job h) bodyName false)
      (RouteOk (completionsOf job h) bodyName) (init job, 0)
      [.submit sub none]
      (liveStep H job bodyName false (init job) (.submit sub none),
        n) := by
  subst hn
  exact Run.cons _ ⟨⟨hhot, by simp [hkey], nofun⟩, by rw [hkey]; rfl,
    by simp [hkey], by simp [completionsOf, h]⟩ (Run.nil _)

theorem verify_quiet_row : ∃ report, verifyLedgers (completionsOf (oneRow 0) rfl)
        (fun _ => none) (some (liveStep rowHashes (oneRow 0) bodyName false
          (init (oneRow 0)) (.submit
            (threeAnswers "first" ["x", "y", "z"]) none)).state.snapshot)
        = .ok report
      ∧ report.problems = [] ∧ report.seen = 3 := by
  have hrun := count_one rowHashes (oneRow 0) rfl
    (threeAnswers "first" ["x", "y", "z"]) (by decide) rfl (n := 1)
    (by decide +kernel)
  obtain ⟨report, hok, hquiet, -, -, hseen, -⟩ :=
    verify_quiet rfl hrun (fun _ => none) (by decide +kernel)
  exact ⟨report, hok, hquiet, hseen⟩

/-- The slot's key of an accepted draw is not expected. -/
theorem verify_cries_wolf : ∃ w,
    Run (countStep plainHashes (completionsOf twoDraws rfl) bodyName false)
        (RouteOk (completionsOf twoDraws rfl) bodyName)
        (init twoDraws, 0) [.submit firstSample none] (w, 1)
      ∧ (verifyLedgers (completionsOf twoDraws rfl) (fun _ => none)
          (some w.state.snapshot)).toOption.map
            (fun r => (r.seen, r.expectedSeen, r.problems))
        = some (2, 1, ["seen holds 2 digests but 1 filled slots imply 1"]) :=
  ⟨_, count_one plainHashes twoDraws rfl _ (by decide) rfl (by decide +kernel),
    by decide +kernel⟩

end Reliquary.Corpus
