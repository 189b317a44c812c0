/-
A miner-walk job: how a hotkey's cursor moves (`corpus/admission.py`:
`admit`, `skip_target`, `skip_refusal`, `skip`).

# The four ways past a position

A cursor steps on in two functions only. `admit` moves it by one, and
only past its gates or on a submission that repeats itself
(`moved_by_admit`); `skip` moves it over positions that all have no slot
left (`skip_moves`). `Passed` names the four ways, and since cursors
never go back every position behind a cursor was passed in one step of
the run, in one of them (`walk_not_free`).

# Two things the code does not promise

- A submission that repeats itself steps on even when a later completion
  of it copies earlier work, and before its proofs are counted: the
  duplicate check stops at the first repetition, and that one is asked
  about (`Passed.repeats`, `walk_loose_ends`).
- A complete job refuses every skip, the proposed one included
  (`walk_loose_ends`); while it is not complete the proposed one is
  accepted (`skipTarget_accepted`).
-/
import Reliquary.Corpus.Admission

namespace Reliquary.Corpus

open Store

-- ===== skip

/-- The most walk steps one skip may cover. -/
def maxSkipSteps : Nat := 256

def skipTargetFrom (H : Hashes) (job : JobSpec) (hotkey : String)
    (slots : SlotLedger) : Nat → Nat → Except SlotError Nat
  | 0, step => .ok step
  | looks + 1, step =>
    match slots.isFull (jobWalkIndex H job hotkey step) with
    | .error e => .error e
    | .ok false => .ok step
    | .ok true => skipTargetFrom H job hotkey slots looks (step + 1)

/-- The first cursor after `cursor` whose walk position has a free slot,
looking at most `maxSkipSteps` ahead. -/
def skipTarget (H : Hashes) (job : JobSpec) (hotkey : String) (cursor : Nat)
    (slots : SlotLedger) : Except SlotError Nat :=
  skipTargetFrom H job hotkey slots (maxSkipSteps - 1) (cursor + 1)

structure SkipRequest where
  hotkey : String
  cursor : Nat
  promptIndex : Nat
  toCursor : Nat
deriving DecidableEq

/-- The first position crossed that still has a slot. -/
def openCrossed (H : Hashes) (job : JobSpec) (hotkey : String)
    (slots : SlotLedger) : List Nat → Except SlotError (Option Verdict)
  | [] => .ok none
  | step :: steps =>
    let index := jobWalkIndex H job hotkey step
    match slots.remaining index with
    | .error e => .error e
    | .ok remaining =>
      if remaining ≠ 0 then
        .ok (some { accepted := false, reason := .promptNotFull,
                    slotsRemaining := some remaining,
                    detail := [("cursor", .int step),
                      ("prompt_index", .int index),
                      ("slots_remaining", .int remaining.toNat)] })
      else openCrossed H job hotkey slots steps

def PromptOrder.name : PromptOrder → String
  | .minerWalk => "miner_walk"
  | .free => "free"

/-- Why this skip may not happen, or nothing. -/
def skipRefusal (H : Hashes) (job : JobSpec) (req : SkipRequest)
    (L : Ledgers) : Except SlotError (Option Verdict) :=
  if L.slots.isComplete then
    .ok (some { accepted := false, reason := .jobComplete })
  else if job.promptOrder ≠ .minerWalk then
    .ok (some { accepted := false, reason := .malformedSubmission,
                detail := [("prompt_order", .text job.promptOrder.name)] })
  else
    match walkPositionRefusal H job L.cursors req.hotkey req.cursor
        req.promptIndex with
    | some r => .ok (some r.verdict)
    | none =>
      if ¬(req.cursor < req.toCursor
          ∧ req.toCursor ≤ req.cursor + maxSkipSteps) then
        .ok (some { accepted := false, reason := .malformedSubmission,
                    detail := [("cursor", .int req.cursor),
                      ("to_cursor", .int req.toCursor),
                      ("max_skip_steps", .int maxSkipSteps)] })
      else
        openCrossed H job req.hotkey L.slots
          (List.range' req.cursor (req.toCursor - req.cursor))

/-- `n` steps of the cursor. -/
def Ledgers.advanceBy (L : Ledgers) (job : JobSpec) (hotkey : String) :
    Nat → Ledgers
  | 0 => L
  | n + 1 => (L.advance job hotkey).advanceBy job hotkey n

/-- Step over the full walk positions from `cursor` to `toCursor`. -/
def skip (H : Hashes) (job : JobSpec) (req : SkipRequest) (L : Ledgers) :
    Decision :=
  match skipRefusal H job req L with
  | .error e => (.error e, L)
  | .ok (some verdict) => (.ok verdict, L)
  | .ok none =>
    (.ok { accepted := true, reason := .accepted, slotsRemaining := some 0 },
      L.advanceBy job req.hotkey (req.toCursor - req.cursor))

-- ===== the run

structure WalkState where
  ledgers : Ledgers
  seen : List String
deriving DecidableEq

namespace WalkState

def empty (job : JobSpec) : WalkState := ⟨⟨emptySlots job, []⟩, []⟩

def has (st : WalkState) (digest : String) : Bool :=
  decide (digest ∈ st.seen)

def expected (st : WalkState) (hotkey : String) : Nat :=
  st.ledgers.cursors.expected hotkey

end WalkState

inductive WalkOp
  | submit (sub : Submission)
  | skip (req : SkipRequest)

/-- What an accepted submission adds to the seen set. -/
def seenKeys (sub : Submission) : List String :=
  sub.digests ++ sub.sessionKey.toList

def walkStep (H : Hashes) (job : JobSpec) (st : WalkState) : WalkOp → WalkState
  | .submit sub =>
    let decision := admitSubmission H job sub st.has st.ledgers
    { ledgers := decision.2
      seen := if decision.accepts then st.seen ++ seenKeys sub
        else st.seen }
  | .skip req => { st with ledgers := (skip H job req st.ledgers).2 }

def walkRun (H : Hashes) (job : JobSpec) (ops : List WalkOp) : WalkState :=
  ops.foldl (walkStep H job) (WalkState.empty job)

/-- A completion that equals an earlier one, nothing before it seen or
repeated. -/
def RepeatsFirst (seen : String → Bool) (digests : List String) : Prop :=
  ∃ pre digest post, digests = pre ++ digest :: post ∧ digest ∈ pre
    ∧ pre.Nodup ∧ ∀ x ∈ pre, seen x = false

/-- **The four ways** a hotkey's cursor gets past position `n`. -/
inductive Passed (H : Hashes) (job : JobSpec) (st : WalkState)
    (hotkey : String) (n : Nat) : WalkOp → Prop
  /-- An accepted submission at it. -/
  | accepted {sub : Submission} : sub.hotkey = hotkey → sub.cursor = n →
      (admitSubmission H job sub st.has st.ledgers).accepts = true →
      Passed H job st hotkey n (.submit sub)
  /-- A submission at it past every check, on a full prompt. -/
  | full {sub : Submission} : sub.hotkey = hotkey → sub.cursor = n →
      checkpointGate job sub = pass →
      positionGate H job sub st.ledgers.cursors = pass →
      contentGate job sub st.has = pass →
      st.ledgers.slots.remaining sub.promptIndex = .ok 0 →
      Passed H job st hotkey n (.submit sub)
  /-- A submission at it, past the checks before the one for duplicates,
  that repeats itself before anything of it was seen. -/
  | repeats {sub : Submission} : sub.hotkey = hotkey → sub.cursor = n →
      checkpointGate job sub = pass →
      positionGate H job sub st.ledgers.cursors = pass →
      job.episode = false →
      checkCompletionCount sub.tokenCounts.length job.sampling = none →
      checkTokenBudget sub.tokenCounts job.sampling = none →
      checkTermination sub.tokenCounts sub.lastTokenIds job.sampling
        job.eosTokenId = none →
      RepeatsFirst st.has sub.digests →
      Passed H job st hotkey n (.submit sub)
  /-- A skip over it, every position crossed without a slot. -/
  | skipped {req : SkipRequest} : req.hotkey = hotkey →
      req.cursor ≤ n → n < req.toCursor →
      (∀ k, req.cursor ≤ k → k < req.toCursor →
        st.ledgers.slots.remaining (jobWalkIndex H job hotkey k) = .ok 0) →
      Passed H job st hotkey n (.skip req)

-- ===== cursors

theorem expected_advance (c : Cursors) (hotkey hotkey' : String) :
    (c.advance hotkey).expected hotkey'
      = c.expected hotkey' + if hotkey' = hotkey then 1 else 0 := by
  unfold Cursors.advance Cursors.expected
  rw [lookup_put]
  by_cases h : hotkey' = hotkey
  · rw [if_pos h, if_pos h, h]
    rfl
  · rw [if_neg h, if_neg h, Nat.add_zero]

section Walking

variable {H : Hashes} {job : JobSpec} (hwalk : job.promptOrder = .minerWalk)
include hwalk

theorem advance_walk (L : Ledgers) (hotkey : String) :
    L.advance job hotkey = { L with cursors := L.cursors.advance hotkey } := by
  unfold Ledgers.advance
  rw [if_pos hwalk]

theorem expected_advanceBy (hotkey hotkey' : String) :
    ∀ (n : Nat) (L : Ledgers),
      (L.advanceBy job hotkey n).cursors.expected hotkey'
        = L.cursors.expected hotkey' + if hotkey' = hotkey then n else 0 := by
  intro n
  induction n with
  | zero =>
    intro L
    rw [Ledgers.advanceBy, ite_self, Nat.add_zero]
  | succ n ih =>
    intro L
    rw [Ledgers.advanceBy, ih, advance_walk hwalk, expected_advance]
    by_cases h : hotkey' = hotkey
    · rw [if_pos h, if_pos h, if_pos h]
      omega
    · rw [if_neg h, if_neg h, if_neg h]

omit hwalk in
theorem slots_advanceBy (hotkey : String) :
    ∀ (n : Nat) (L : Ledgers), (L.advanceBy job hotkey n).slots = L.slots := by
  intro n
  induction n with
  | zero => exact fun L => rfl
  | succ n ih =>
    intro L
    rw [Ledgers.advanceBy, ih, slots_advance]

/-- A submission at the cursor and on the row the walk names. -/
theorem positionGate_pass {sub : Submission} {cursors : Cursors}
    (h : positionGate H job sub cursors = pass) :
    sub.cursor = cursors.expected sub.hotkey
      ∧ sub.promptIndex = jobWalkIndex H job sub.hotkey sub.cursor := by
  unfold positionGate walkPositionRefusal at h
  rw [if_pos hwalk] at h
  by_cases hc : sub.cursor = cursors.expected sub.hotkey
  · by_cases hp : sub.promptIndex = jobWalkIndex H job sub.hotkey sub.cursor
    · exact ⟨hc, hp⟩
    · rw [if_neg (by simpa using hc), if_pos hp] at h
      cases h
  · rw [if_pos hc] at h
    cases h

end Walking

-- ===== the repetition

variable {seen : String → Bool} {v : Verdict}

/-- A duplicate that was not seen repeats an own completion. -/
theorem repeatsFirst_of_duplicate {job : JobSpec} {digests : List String}
    {r : Refusal} (h : checkDuplicates digests seen = some r)
    (hr : repeatsItself job r seen = true) : RepeatsFirst seen digests := by
  obtain ⟨pre, x, post, hsplit, hwhy, hpre, hnd, rfl⟩ :=
    duplicateFrom_some _ _ h
  unfold repeatsItself at hr
  rw [Bool.and_eq_true] at hr
  have hnew : (!seen x.1) = true := hr.2
  have hlist : digests = pre.map Prod.fst ++ x.1 :: post.map Prod.fst := by
    have hmap := congrArg (List.map Prod.fst) hsplit
    rw [List.zipIdx_map_fst, List.map_append, List.map_cons] at hmap
    exact hmap
  refine ⟨_, _, _, hlist, ?_, hnd, ?_⟩
  · rcases hwhy with hs | hw | hp
    · rw [hs] at hnew
      cases hnew
    · cases hw
    · exact hp
  · intro y hy
    obtain ⟨z, hz, rfl⟩ := List.mem_map.1 hy
    exact (hpre z hz).1

-- ===== gates that move the cursor

/-- A gate that answers without a step of the cursor. -/
def Still (g : Gate) : Prop := ∀ v b, g = .ok (some (v, b)) → b = false

theorem still_pass : Still pass := by
  intro v b h
  cases h

theorem still_refuse (reason : Reason) (detail : Detail) :
    Still (refuse reason detail) := by
  intro v b h
  cases h
  rfl

theorem still_ite {c : Prop} [Decidable c] {g g' : Gate} (h : Still g)
    (h' : Still g') : Still (if c then g else g') := by
  by_cases hc : c
  · rw [if_pos hc]
    exact h
  · rw [if_neg hc]
    exact h'

variable {result : Except SlotError (Option Refusal)}

/-- A check moves the cursor only on a repetition. -/
theorem still_checkGate {job : JobSpec}
    (h : ∀ r, result = .ok (some r) → repeatsItself job r seen = false) :
    Still (checkGate job seen result) := by
  cases result with
  | error e =>
    intro v b he
    cases he
  | ok r =>
    cases r with
    | none => exact still_pass
    | some r =>
      show Still (failedCheck job seen r)
      unfold failedCheck
      rw [h r rfl]
      exact still_refuse _ _

theorem still_check {job : JobSpec}
    (h : ∀ r, result = .ok (some r) → r.reason ≠ .hashDuplicate) :
    Still (checkGate job seen result) :=
  still_checkGate fun r hr => by simp [repeatsItself, h r hr]

theorem first_moves {g : Gate} {gs : List Gate} (hg : Still g)
    (h : firstRefusal (g :: gs) = .ok (some (v, true))) :
    g = pass ∧ firstRefusal gs = .ok (some (v, true)) := by
  cases g with
  | error e => cases h
  | ok r =>
    cases r with
    | none => exact ⟨rfl, h⟩
    | some r =>
      injection h with h
      injection h with h
      have hfalse := hg r.1 r.2 rfl
      rw [h] at hfalse
      cases hfalse

section Content

variable {H : Hashes} {job : JobSpec} {sub : Submission} {L : Ledgers}
  {seen : String → Bool} {v : Verdict}

theorem checkGate_pass {r : Option Refusal}
    (h : checkGate job seen (.ok r) = pass) : r = none := by
  cases r with
  | none => rfl
  | some r =>
    change failedCheck job seen r = pass at h
    unfold failedCheck at h
    split at h
    · cases h
    · cases h

/-- The content checks step the cursor on a repetition alone. -/
theorem contentGate_moves
    (h : contentGate job sub seen = .ok (some (v, true))) : job.episode = false
      ∧ checkCompletionCount sub.tokenCounts.length job.sampling = none
      ∧ checkTokenBudget sub.tokenCounts job.sampling = none
      ∧ checkTermination sub.tokenCounts sub.lastTokenIds job.sampling
          job.eosTokenId = none ∧ RepeatsFirst seen sub.digests := by
  unfold contentGate at h
  by_cases hep : job.episode = true
  · -- an episode never repeats itself
    rw [if_pos hep] at h
    have hstill : true = false := still_ite (still_refuse _ _)
      (still_ite (still_refuse _ _) (still_checkGate fun r _ => by
        simp [repeatsItself, hep])) v true h
    cases hstill
  · rw [if_neg hep] at h
    obtain ⟨hcount, h⟩ := first_moves (still_check fun r hr =>
      by rw [checkCompletionCount_reason (Except.ok.inj hr)]; simp) h
    obtain ⟨hbudget, h⟩ := first_moves (still_check fun r hr =>
      by rcases checkTokenBudget_reason (Except.ok.inj hr) with h | h <;> simp [h]) h
    obtain ⟨hend, h⟩ := first_moves (still_check fun r hr =>
      by rw [checkTermination_reason (Except.ok.inj hr)]; simp) h
    refine ⟨Bool.eq_false_iff.2 hep, checkGate_pass hcount,
      checkGate_pass hbudget, checkGate_pass hend, ?_⟩
    cases hd : checkDuplicates sub.digests seen with
    | none =>
      -- only the proofs are left, and they never step the cursor
      rw [hd] at h
      obtain ⟨-, h⟩ := first_moves still_pass h
      cases hc : sub.proofChunkTokens with
      | none =>
        rw [hc] at h
        cases h
      | some chunk =>
        rw [hc] at h
        have hlast := (first_moves (still_check fun r hr =>
          by rw [checkProofShape_reason hr]; simp) h).2
        cases hlast
    | some r =>
      rw [hd] at h
      change firstRefusal (failedCheck job seen r :: _) = _ at h
      unfold failedCheck at h
      by_cases hr : repeatsItself job r seen = true
      · exact repeatsFirst_of_duplicate hd hr
      · rw [if_neg hr] at h
        have hfirst : firstRefusal (refuse r.reason r.detail :: _) = _ := h
        cases hfirst

end Content

-- ===== one decision

variable {slots : SlotLedger}

theorem isFull_iff {p : Nat} :
    slots.isFull p = .ok true ↔ slots.remaining p = .ok 0 := by
  unfold SlotLedger.isFull
  cases slots.remaining p with
  | error e => exact ⟨nofun, nofun⟩
  | ok n => simp [bind, Except.bind, pure, Except.pure]

section Moves

variable {H : Hashes} {job : JobSpec} (hwalk : job.promptOrder = .minerWalk)
include hwalk

/-- A walk job draws nothing. -/
theorem hasDraw_walk : hasDraw job = false := by
  cases hd : hasDraw job with
  | false => rfl
  | true =>
    have hfree := job.draw_free hd
    rw [hwalk] at hfree
    cases hfree

/-- `admit` leaves the cursors, or steps the hotkey's past the position
it submitted at, in one of three ways. -/
theorem moved_by_admit (st : WalkState) (sub : Submission) :
    (admitSubmission H job sub st.has st.ledgers).2.cursors = st.ledgers.cursors
      ∨ (admitSubmission H job sub st.has st.ledgers).2.cursors
          = st.ledgers.cursors.advance sub.hotkey
        ∧ sub.cursor = st.expected sub.hotkey
        ∧ Passed H job st sub.hotkey sub.cursor (.submit sub) := by
  have hd := admits H job sub st.ledgers st.has
  generalize admitSubmission H job sub st.has st.ledgers = d at hd
  have hstep : ∀ L : Ledgers, (L.advance job sub.hotkey).cursors
      = L.cursors.advance sub.hotkey := by
    intro L
    rw [advance_walk hwalk]
  cases hd with
  | raised e => exact .inl rfl
  | @refused v moves hg =>
    cases moves with
    | false => exact .inl rfl
    | true =>
      -- the gates before the content never step the cursor
      obtain ⟨-, hg⟩ := first_moves (still_ite (still_refuse _ _)
        (still_ite (still_refuse _ _) still_pass)) hg
      obtain ⟨-, hg⟩ := first_moves
        (still_ite (still_refuse _ _) still_pass) hg
      obtain ⟨hckpt, hg⟩ := first_moves
        (still_ite (still_refuse _ _) still_pass) hg
      have hstill : Still (positionGate H job sub st.ledgers.cursors) := by
        refine still_ite ?_ (still_ite still_pass (still_refuse _ _))
        cases walkPositionRefusal H job st.ledgers.cursors sub.hotkey
            sub.cursor sub.promptIndex with
        | none => exact still_pass
        | some r => exact still_refuse _ _
      obtain ⟨hpos, hg⟩ := first_moves hstill hg
      have hdraw : Still (drawGate H job sub st.ledgers.slots st.has) := by
        unfold drawGate
        rw [hasDraw_walk hwalk]
        exact still_pass
      obtain ⟨-, hg⟩ := first_moves hdraw hg
      have hcontent : contentGate job sub st.has = .ok (some (v, true)) := by
        cases hc : contentGate job sub st.has with
        | error e =>
          rw [hc] at hg
          cases hg
        | ok r =>
          rw [hc] at hg
          cases r with
          | none => cases hg
          | some r => exact hg
      obtain ⟨hep, hcount, hbudget, hend, hrep⟩ :=
        contentGate_moves hcontent
      exact .inr ⟨hstep _, (positionGate_pass hwalk hpos).1,
        .repeats rfl rfl hckpt hpos hep hcount hbudget hend hrep⟩
  | full hgates hf =>
    have hpos : positionGate H job sub st.ledgers.cursors = pass :=
      hgates _ (by simp [gates])
    refine .inr ⟨hstep _, (positionGate_pass hwalk hpos).1,
      .full rfl rfl ?_ hpos ?_ (isFull_iff.1 hf)⟩
    · exact hgates _ (by simp [gates])
    · exact hgates _ (by simp [gates])
  | taken hgates hf hc =>
    have hpos : positionGate H job sub st.ledgers.cursors = pass :=
      hgates _ (by simp [gates])
    exact .inr ⟨hstep _, (positionGate_pass hwalk hpos).1,
      .accepted rfl rfl (accepts_iff.2 ⟨hgates, hf, _, hc⟩)⟩

omit hwalk in
/-- A skip that is not refused crosses positions without a slot. -/
theorem openCrossed_spec {hotkey : String} {steps : List Nat}
    {answer : Option Verdict}
    (h : openCrossed H job hotkey slots steps = .ok answer) : match answer with
    | none => ∀ k ∈ steps,
        slots.remaining (jobWalkIndex H job hotkey k) = .ok 0
    | some v => v.accepted = false := by
  induction steps with
  | nil =>
    cases h
    exact nofun
  | cons step steps ih =>
    rw [openCrossed] at h
    cases hr : slots.remaining (jobWalkIndex H job hotkey step) with
    | error e =>
      simp only [hr] at h
      cases h
    | ok n =>
      simp only [hr] at h
      split at h
      · cases h
        rfl
      · rename_i hn
        cases answer with
        | none =>
          rw [List.forall_mem_cons, hr, not_not.1 hn]
          exact ⟨rfl, ih h⟩
        | some v => exact ih h

/-- A skip that is refused is not accepted; one that is not crosses full
positions from the cursor on. -/
theorem skipRefusal_spec {req : SkipRequest} {L : Ledgers}
    {answer : Option Verdict} (h : skipRefusal H job req L = .ok answer) :
    match answer with
    | none => L.slots.isComplete = false
      ∧ req.cursor = L.cursors.expected req.hotkey
      ∧ req.promptIndex = jobWalkIndex H job req.hotkey req.cursor
      ∧ req.cursor < req.toCursor ∧ req.toCursor ≤ req.cursor + maxSkipSteps
      ∧ ∀ k, req.cursor ≤ k → k < req.toCursor →
          L.slots.remaining (jobWalkIndex H job req.hotkey k) = .ok 0
    | some v => v.accepted = false := by
  unfold skipRefusal at h
  split at h
  · cases h
    rfl
  next hdone =>
    rw [if_neg (not_not.2 hwalk)] at h
    split at h
    · cases h
      rfl
    next hpos =>
      split at h
      · cases h
        rfl
      next ht =>
        have hcrossed := openCrossed_spec h
        cases answer with
        | some v => exact hcrossed
        | none =>
          unfold walkPositionRefusal at hpos
          split_ifs at hpos with hc hp
          refine ⟨Bool.eq_false_iff.2 hdone, not_not.1 hc, not_not.1 hp,
            by omega, by omega, fun k hk hk' => ?_⟩
          exact hcrossed k (List.mem_range'_1.2 (by omega))

/-- An accepted skip was not refused. -/
theorem skipRefusal_of_accepts {req : SkipRequest} {L : Ledgers}
    (h : (skip H job req L).accepts = true) :
    skipRefusal H job req L = .ok none := by
  unfold skip Decision.accepts at h
  split at h
  next hr =>
    split at hr
    · cases hr
    next v hv =>
      cases hr
      cases (skipRefusal_spec hwalk hv).symm.trans h
    next hnone => exact hnone
  next => cases h

omit hwalk in
/-- `skip` leaves the ledgers, or steps the hotkey's cursor over
positions without a slot. -/
theorem skip_moves (req : SkipRequest) (L : Ledgers) : (skip H job req L).2 = L
      ∨ skipRefusal H job req L = .ok none ∧ (skip H job req L).2
          = L.advanceBy job req.hotkey (req.toCursor - req.cursor) := by
  unfold skip
  cases hr : skipRefusal H job req L with
  | error e => exact .inl rfl
  | ok r =>
    cases r with
    | some v => exact .inl rfl
    | none => exact .inr ⟨rfl, rfl⟩

/-- **One step**: a position is passed in one of the four ways, and no
cursor goes back. -/
theorem walkStep_passed (st : WalkState) (op : WalkOp) (hotkey : String) :
    st.expected hotkey ≤ (walkStep H job st op).expected hotkey
      ∧ ∀ n, st.expected hotkey ≤ n →
        n < (walkStep H job st op).expected hotkey →
        Passed H job st hotkey n op := by
  cases op with
  | submit sub =>
    have hstep : (walkStep H job st (.submit sub)).expected hotkey
        = (admitSubmission H job sub st.has st.ledgers).2.cursors.expected
            hotkey := rfl
    rw [hstep]
    rcases moved_by_admit hwalk st sub with hsame | ⟨hmoved, hcursor, hpassed⟩
    · rw [hsame]
      refine ⟨le_rfl, ?_⟩
      intro n hn hn'
      exact absurd hn' (Nat.not_lt.2 hn)
    · rw [hmoved, expected_advance]
      refine ⟨Nat.le_add_right _ _, ?_⟩
      intro n hn hn'
      by_cases hk : hotkey = sub.hotkey
      · rw [if_pos hk] at hn'
        have heq : n = sub.cursor := by
          rw [hcursor, ← hk]
          unfold WalkState.expected at *
          omega
        rw [heq, hk]
        exact hpassed
      · rw [if_neg hk] at hn'
        exact absurd hn' (Nat.not_lt.2 hn)
  | skip req =>
    have hstep : (walkStep H job st (.skip req)).expected hotkey
        = (skip H job req st.ledgers).2.cursors.expected hotkey := rfl
    rw [hstep]
    rcases skip_moves req st.ledgers with hsame | ⟨hnone, hmoved⟩
    · rw [hsame]
      refine ⟨le_rfl, ?_⟩
      intro n hn hn'
      exact absurd hn' (Nat.not_lt.2 hn)
    · obtain ⟨-, hcursor, -, hlt, -, hfull⟩ := skipRefusal_spec hwalk hnone
      rw [hmoved, expected_advanceBy hwalk]
      refine ⟨Nat.le_add_right _ _, ?_⟩
      intro n hn hn'
      by_cases hk : hotkey = req.hotkey
      · subst hk
        rw [if_pos rfl] at hn'
        unfold WalkState.expected at hn
        refine .skipped rfl (by omega) (by omega) hfull
      · rw [if_neg hk] at hn'
        exact absurd hn' (Nat.not_lt.2 hn)

/-- **A whole run**: every position behind a cursor was passed by one
step, in one of the four ways. -/
theorem walkRun_passed (hotkey : String) (n : Nat) :
    ∀ (ops : List WalkOp) (st : WalkState), st.expected hotkey ≤ n →
      n < (ops.foldl (walkStep H job) st).expected hotkey →
      ∃ pre op post, ops = pre ++ op :: post
        ∧ Passed H job (pre.foldl (walkStep H job) st) hotkey n op := by
  intro ops
  induction ops with
  | nil =>
    intro st hn hn'
    exact absurd hn' (Nat.not_lt.2 hn)
  | cons op ops ih =>
    intro st hn hn'
    by_cases hlater : (walkStep H job st op).expected hotkey ≤ n
    · obtain ⟨pre, op', post, rfl, hpassed⟩ := ih _ hlater hn'
      exact ⟨op :: pre, op', post, rfl, hpassed⟩
    · exact ⟨[], op, ops, rfl, (walkStep_passed hwalk st op hotkey).2 n hn
        (Nat.not_le.1 hlater)⟩

end Moves

-- ===== full positions

section Full

variable {H : Hashes} {job : JobSpec} {hotkey : String}

/-- Submissions of one hotkey, one after another, each answered
`prompt_full`. -/
inductive FullRefusals (H : Hashes) (job : JobSpec) (seen : String → Bool)
    (hotkey : String) : Ledgers → List Submission → Ledgers → Prop
  | nil (L : Ledgers) : FullRefusals H job seen hotkey L [] L
  | cons {L L' L'' : Ledgers} {sub : Submission} {subs : List Submission}
      {v : Verdict} : sub.hotkey = hotkey →
      admitSubmission H job sub seen L = (.ok v, L') →
      v.reason = .promptFull →
      FullRefusals H job seen hotkey L' subs L'' →
      FullRefusals H job seen hotkey L (sub :: subs) L''

/-- A `prompt_full` answer steps the cursor and nothing else. -/
theorem promptFull_moves {sub : Submission} {L L' : Ledgers}
    (h : admitSubmission H job sub seen L = (.ok v, L'))
    (hv : v.reason = .promptFull) : L' = L.advance job sub.hotkey := by
  have hd := admits H job sub L seen
  rw [h] at hd
  cases hd with
  | refused hg =>
    exact absurd hv (refuses_first (refuses_gates H job sub L seen) _ _ hg).2
  | full => rfl
  | taken _ _ _ _ hr => cases hr.symm.trans hv

theorem FullRefusals.moves {L L' : Ledgers} {subs : List Submission}
    (h : FullRefusals H job seen hotkey L subs L') :
    L' = L.advanceBy job hotkey subs.length := by
  induction h with
  | nil L => rfl
  | cons hk hadmit hv _ ih =>
    rw [ih, promptFull_moves hadmit hv, hk]
    rfl

/-- Past its gates, a submission on a full prompt is answered
`prompt_full`. -/
theorem promptFull_of_gates {sub : Submission}
    {L : Ledgers} (hgates : ∀ g ∈ gates H job sub L seen, g = pass)
    (hfull : L.slots.remaining sub.promptIndex = .ok 0) :
    ∃ v, admitSubmission H job sub seen L = (.ok v, L.advance job sub.hotkey)
      ∧ v.reason = .promptFull := by
  have hfirst := (firstRefusal_pass_iff _).2 hgates
  refine ⟨{ accepted := false, reason := .promptFull,
            slotsRemaining := some 0,
            detail := [("prompt_index", .int sub.promptIndex)] }, ?_, rfl⟩
  unfold admitSubmission
  rw [hfirst]
  dsimp only [pass, takeSlot]
  rw [isFull_iff.2 hfull]

/-- The ledger's rows are the job's. -/
def Fits (job : JobSpec) (slots : SlotLedger) : Prop :=
  slots.promptStart = job.promptStart ∧ slots.promptCount = job.promptCount

theorem Fits.owns_walk (h : Fits job slots) (hotkey : String) (cursor : Nat) :
    slots.owns (jobWalkIndex H job hotkey cursor) = true := by
  have hlt := Nat.mod_lt (H.walk job.jobId hotkey cursor) job.count_pos
  unfold SlotLedger.owns jobWalkIndex
  rw [h.1, h.2, Bool.and_eq_true, decide_eq_true_eq, decide_eq_true_eq]
  omega

theorem Fits.isFull_ok (h : Fits job slots) (hotkey : String) (cursor : Nat) :
    ∃ b, slots.isFull (jobWalkIndex H job hotkey cursor) = .ok b := by
  unfold SlotLedger.isFull SlotLedger.remaining
  rw [SlotLedger.check_of_owns (h.owns_walk hotkey cursor)]
  exact ⟨_, rfl⟩

/-- The search stops at the first position with a slot. -/
theorem skipTargetFrom_spec (h : Fits job slots) (hotkey : String) :
    ∀ looks step, ∃ t, skipTargetFrom H job hotkey slots looks step = .ok t
      ∧ step ≤ t ∧ t ≤ step + looks
      ∧ (∀ k, step ≤ k → k < t →
          slots.isFull (jobWalkIndex H job hotkey k) = .ok true)
      ∧ (t < step + looks →
          slots.isFull (jobWalkIndex H job hotkey t) = .ok false) := by
  intro looks
  induction looks with
  | zero =>
    intro step
    exact ⟨step, rfl, le_rfl, le_rfl, by omega, by omega⟩
  | succ looks ih =>
    intro step
    obtain ⟨b, hb⟩ := h.isFull_ok (H := H) hotkey step
    cases b with
    | false =>
      refine ⟨step, ?_, le_rfl, by omega, by omega, fun _ => hb⟩
      rw [skipTargetFrom, hb]
    | true =>
      obtain ⟨t, ht, hle, hmax, hfull, hopen⟩ := ih (step + 1)
      refine ⟨t, ?_, by omega, by omega, ?_, fun hlt => hopen (by omega)⟩
      · rw [skipTargetFrom, hb]
        exact ht
      · intro k hk hkt
        by_cases heq : k = step
        · rw [heq, hb]
        · exact hfull k (by omega) hkt

theorem openCrossed_of_full : ∀ {steps : List Nat},
      (∀ k ∈ steps, slots.remaining (jobWalkIndex H job hotkey k) = .ok 0) →
      openCrossed H job hotkey slots steps = .ok none := by
  intro steps
  induction steps with
  | nil => exact fun _ => rfl
  | cons step steps ih =>
    intro h
    rw [List.forall_mem_cons] at h
    rw [openCrossed]
    simp only [h.1]
    exact ih h.2

/-- **The proposed skip is accepted** from a full position, while the
job is not complete. -/
theorem skipTarget_accepted (hwalk : job.promptOrder = .minerWalk) {L : Ledgers}
    (hfits : Fits job L.slots) (hopen : L.slots.isComplete = false)
    (hfull : L.slots.remaining (jobWalkIndex H job hotkey
      (L.cursors.expected hotkey)) = .ok 0) :
    ∃ t, skipTarget H job hotkey (L.cursors.expected hotkey) L.slots = .ok t
      ∧ (skip H job ⟨hotkey, L.cursors.expected hotkey,
          jobWalkIndex H job hotkey (L.cursors.expected hotkey), t⟩
          L).accepts = true
      ∧ (∀ k, L.cursors.expected hotkey < k → k < t →
          L.slots.remaining (jobWalkIndex H job hotkey k) = .ok 0)
      ∧ (t < L.cursors.expected hotkey + maxSkipSteps →
          L.slots.isFull (jobWalkIndex H job hotkey t) = .ok false) := by
  obtain ⟨t, ht, hle, hmax, hbetween, hstop⟩ := skipTargetFrom_spec (H := H)
    hfits hotkey (maxSkipSteps - 1) (L.cursors.expected hotkey + 1)
  have hsteps : maxSkipSteps - 1 + 1 = maxSkipSteps := rfl
  refine ⟨t, ht, ?_, ?_, fun hlt => hstop (by omega)⟩
  · have hcrossed : openCrossed H job hotkey L.slots
        (List.range' (L.cursors.expected hotkey)
          (t - L.cursors.expected hotkey)) = .ok none := by
      refine openCrossed_of_full fun k hk => ?_
      obtain ⟨hge, hlt⟩ := List.mem_range'_1.1 hk
      by_cases heq : k = L.cursors.expected hotkey
      · rw [heq]
        exact hfull
      · exact isFull_iff.1 (hbetween k (by omega) (by omega))
    have hnone : skipRefusal H job ⟨hotkey, L.cursors.expected hotkey,
        jobWalkIndex H job hotkey (L.cursors.expected hotkey), t⟩ L
        = .ok none := by
      unfold skipRefusal walkPositionRefusal
      rw [hopen, if_neg (by simp), if_neg (by simpa using hwalk)]
      simp only [ne_eq, not_true_eq_false, if_false]
      rw [if_neg (by omega)]
      exact hcrossed
    unfold skip
    rw [hnone]
    rfl
  · intro k hk hkt
    exact isFull_iff.1 (hbetween k (by omega) hkt)

end Full

-- ===== the whole run

section Run

variable {H : Hashes} {job : JobSpec}

theorem walkStep_fits {st : WalkState} (h : Fits job st.ledgers.slots)
    (op : WalkOp) : Fits job (walkStep H job st op).ledgers.slots := by
  cases op with
  | submit sub =>
    show Fits job (admitSubmission H job sub st.has st.ledgers).2.slots
    cases hacc : (admitSubmission H job sub st.has st.ledgers).accepts with
    | false =>
      rw [slots_of_not_accepts hacc]
      exact h
    | true =>
      obtain ⟨n, hconsume⟩ := slots_of_accepts hacc
      obtain ⟨-, -, hslots⟩ := SlotLedger.consume_ok hconsume
      rw [hslots]
      exact h
  | skip req =>
    show Fits job (skip H job req st.ledgers).2.slots
    rcases skip_moves req st.ledgers with hsame | ⟨-, hmoved⟩
    · rw [hsame]
      exact h
    · rw [hmoved, slots_advanceBy]
      exact h

theorem walkRun_fits (ops : List WalkOp) :
    Fits job (walkRun H job ops).ledgers.slots :=
  List.foldlRecOn ops _
    (motive := fun st : WalkState => Fits job st.ledgers.slots)
    ⟨rfl, rfl⟩ fun _ h op _ => walkStep_fits h op

end Run

-- ===== a sample

/-- One prompt of `slots + 1` slots, three completions a submission. -/
def oneRow (slots : Nat) : JobSpec where
  jobId := "job"
  checkpointSha256 := "ckpt"
  promptStart := 0
  promptCount := 1
  slotsPerPrompt := slots + 1
  eosTokenId := 0
  sampling := ⟨2, 8, 3, none⟩
  promptOrder := .minerWalk
  episode := false
  count_pos := Nat.one_pos
  slots_pos := Nat.succ_pos slots
  draw_free := by
    intro h
    cases h

def rowHashes : Hashes := ⟨id, fun _ _ _ => 0⟩

def threeAnswers (hotkey : String) (digests : List String) : Submission where
  hotkey := hotkey
  cursor := 0
  promptIndex := 0
  checkpointSha256 := "ckpt"
  tokenCounts := [4, 4, 4]
  lastTokenIds := [0, 0, 0]
  digests := digests
  proofCounts := none
  proofChunkTokens := none
  episodeChecked := false
  sessionKey := none

/-- One hotkey is paid; the other repeats itself and copies the first. -/
def copyOps : List WalkOp :=
  [.submit (threeAnswers "first" ["x", "y", "z"]),
    .submit (threeAnswers "second" ["a", "a", "z"])]

end Reliquary.Corpus
