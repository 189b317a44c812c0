/-
Who is audited, when, and what a confirmed failure costs
(`corpus/audit_policy.py`).

# What is modeled how

- Times and rates are rationals, exact. A `MinerState` is the record the
  source keeps per hotkey, all of its fields.
- `effective_state` is the only authority on a hotkey's standing; its
  four texts are the constructors of `Standing`.
- SHA-256 of the two 32-byte strings is the parameter `digest`, a number;
  `drawn` compares it with `int(q * 2**256)`.
- `decision`'s answers are the constructors of `Choice`, with the one the
  auditor adds for a draw round that is not out yet.
-/
import Mathlib

namespace Reliquary.Audit

-- ===== parameters

structure AuditParams where
  q : ℚ
  probationSubmissions : Nat
  holdSeconds : ℚ
  suspectSeconds : ℚ
  banAfterFailures : Nat
  banWindowSeconds : ℚ
  banSeconds : ℚ
deriving DecidableEq, Repr

def mantHistory : Nat := 200

/-- Submissions whose confirmed failure is remembered as counted. -/
def failureIdsMax : Nat := 256

/-- Submissions whose audited pass is remembered as counted. -/
def passIdsMax : Nat := 32

structure MinerState where
  auditedPassed : Nat := 0
  confirmedFailures : List ℚ := []
  suspectUntil : Option ℚ := none
  bannedUntil : Option ℚ := none
  mantMeanHistory : List ℚ := []
  failureIds : List String := []
  passIds : List String := []
deriving DecidableEq, Repr

-- ===== standing

inductive Standing
  | banned
  | probation
  | suspect
  | sampled
deriving DecidableEq, Repr

def effectiveState (m : MinerState) (now : ℚ) (params : AuditParams) :
    Standing :=
  match m.bannedUntil with
  | some until_ => if now < until_ then .banned else .probation
  | none =>
    if m.suspectUntil.any (now < ·) then .suspect
    else if params.probationSubmissions ≤ m.auditedPassed then .sampled
    else .probation

/-- The end of a ban, kept as a fresh probation
(`CorpusAuditor._end_ban`). -/
def endBan (now : ℚ) (m : MinerState) : MinerState :=
  if m.bannedUntil.any (· ≤ now) then
    { m with bannedUntil := none, auditedPassed := 0 }
  else m

-- ===== the draw

/-- `int.from_bytes(digest, "big") < int(q * 2**256)`. -/
def drawn (digest : String → String → Nat) (randomness submissionId : String)
    (q : ℚ) : Bool :=
  (digest randomness submissionId : ℤ) < ⌊q * 2 ^ 256⌋

inductive Choice
  | voidBanned
  | audit
  | passUnaudited
  | wait
  /-- The draw's round is not out yet. -/
  | undecidable
deriving DecidableEq, Repr

/-- `decision` of a record received at `receivedAt`, its hotkey having
`recent` arrivals inside the hold. -/
def decision (digest : String → String → Nat) (m : MinerState)
    (params : AuditParams) (now receivedAt : ℚ) (recent : Nat)
    (randomness : Option String) (submissionId : String)
    (slackSeconds : ℚ) : Choice :=
  match effectiveState m now params with
  | .banned => .voidBanned
  | .probation | .suspect => .audit
  | .sampled =>
    if 1 ≤ params.q then .audit
    -- The slow hotkey: below 1/q per hold a draw may never land.
    else if recent < 1 / params.q then .audit
    else
      match randomness with
      | none => .audit
      | some r =>
        if drawn digest r submissionId params.q then .audit
        else if receivedAt + params.holdSeconds + slackSeconds ≤ now then
          .passUnaudited
        else .wait

-- ===== outcomes

/-- The last `n` entries of a list. -/
def lastN {α : Type} (n : Nat) (l : List α) : List α :=
  l.drop (l.length - n)

def afterPass (m : MinerState) (mantMean : ℚ) (submissionId : String) :
    MinerState :=
  if submissionId ∈ m.passIds then m
  else
    { m with
      auditedPassed := m.auditedPassed + 1
      mantMeanHistory := lastN mantHistory (m.mantMeanHistory ++ [mantMean])
      passIds := lastN passIdsMax (m.passIds ++ [submissionId]) }

/-- The failures that still count toward a ban, with a new one. -/
def countedFailures (m : MinerState) (params : AuditParams) (now : ℚ) :
    List ℚ :=
  m.confirmedFailures.filter (fun t => now - t ≤ params.banWindowSeconds)
    ++ [now]

def afterConfirmedFailure (m : MinerState) (params : AuditParams) (now : ℚ)
    (submissionId : String) : MinerState :=
  if submissionId ∈ m.failureIds then m
  else if params.banAfterFailures ≤ (countedFailures m params now).length then
    { m with
      confirmedFailures := countedFailures m params now
      suspectUntil := none
      bannedUntil := some (now + params.banSeconds)
      auditedPassed := 0
      failureIds := lastN failureIdsMax (m.failureIds ++ [submissionId]) }
  else
    { m with
      confirmedFailures := countedFailures m params now
      suspectUntil := some (now + params.suspectSeconds)
      auditedPassed := 0
      failureIds := lastN failureIdsMax (m.failureIds ++ [submissionId]) }

-- ===== what a choice says

section Choice

variable {digest : String → String → Nat} {m : MinerState}
  {params : AuditParams} {now receivedAt slack : ℚ} {recent : Nat}
  {randomness : Option String} {submissionId : String}

/-- A record is left unaudited, or waits, only undrawn and sampled. -/
theorem decision_undrawn
    (h : decision digest m params now receivedAt recent randomness
        submissionId slack = .passUnaudited ∨
      decision digest m params now receivedAt recent randomness
        submissionId slack = .wait) :
    effectiveState m now params = .sampled ∧ params.q < 1 ∧
      1 / params.q ≤ recent ∧
      ∃ r, randomness = some r ∧
        drawn digest r submissionId params.q = false := by
  unfold decision at h
  split at h
  · simp at h
  · simp at h
  · simp at h
  · rename_i hs
    split at h
    · simp at h
    · rename_i hq
      split at h
      · simp at h
      · rename_i hrec
        split at h
        · simp at h
        · rename_i r
          refine ⟨hs, not_le.1 hq, not_lt.1 hrec, r, rfl, ?_⟩
          by_contra hd
          rw [Bool.not_eq_false] at hd
          simp [hd] at h

/-- A record passes unaudited only past its hold and slack. -/
theorem decision_payable
    (h : decision digest m params now receivedAt recent randomness
      submissionId slack = .passUnaudited) :
    receivedAt + params.holdSeconds + slack ≤ now := by
  unfold decision at h
  split at h
  · exact nomatch h
  · exact nomatch h
  · exact nomatch h
  split at h
  · exact nomatch h
  split at h
  · exact nomatch h
  split at h
  · exact nomatch h
  split at h
  · exact nomatch h
  split at h
  · assumption
  · exact nomatch h

theorem decision_voidBanned
    (h : decision digest m params now receivedAt recent randomness
      submissionId slack = .voidBanned) :
    effectiveState m now params = .banned := by
  unfold decision at h
  split at h
  · assumption
  · exact nomatch h
  · exact nomatch h
  · repeat' split at h
    all_goals exact nomatch h

end Choice

end Reliquary.Audit
