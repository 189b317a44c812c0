/-
What the grader stores (`validator/corpus_grading.py`): a grade document per
submission, its regrades by generation, its void. All are created once
(`infrastructure/corpus_record_store.py`, `_create`).

The counts a replay copies into its documents, the draw and the detail texts
are left out: nothing reads them.
-/
import Reliquary.Grade.Dispatch

namespace Reliquary.Grade

open Store Option

/-- The replay part of a grade, when it was drawn. -/
structure Replay where
  status : DecisionStatus
  certified : Bool
  failed : Bool
  unconfirmed : Bool
  unjudgeable : Bool
  fromVoid : Bool := false
  gradedBy : List String
  providers : List String
deriving DecidableEq, Repr

inductive DocumentStatus
  | auditFailed
  | unparseable
  | decided (status : DecisionStatus)
deriving DecidableEq, Repr

structure Document where
  hotkey : String
  status : DocumentStatus
  gradedBy : List String := []
  replay : Option Replay := none
  generation : Option Nat := none
  regradedFor : List String := []
deriving DecidableEq, Repr

inductive VoidReason
  | replayFailed
  | replayUnjudgeable
  | regradeExhausted
deriving DecidableEq, Repr

structure Voided where
  hotkey : String
  reason : VoidReason
  gradedBy : List String
  providers : List String
deriving DecidableEq, Repr

def sanctionProviders : Nat := 2

def maxRegradeGenerations : Nat := 3

/-- `_agreed`: two executors of two providers decided it. -/
def agreed (d : Decision) : Bool :=
  sanctionProviders ≤ d.gradedBy.toFinset.card &&
    sanctionProviders ≤ d.providers.toFinset.card

/-- `_replay_document`. -/
def replayDocument (d : Decision) : Replay :=
  let ok : Bool := d.status = .ok
  let certified := ok && d.result.any replayCertified
  { status := d.status
    certified := certified
    failed := ok && !certified && agreed d
    unconfirmed := ok && !certified && !agreed d
    unjudgeable := (d.status = .unjudgeable && agreed d) ||
      d.status = .uncertified
    gradedBy := d.gradedBy
    providers := d.providers }

/-- `_replay_from_void`. -/
def replayFromVoid (v : Voided) : Replay :=
  { status := .ok
    certified := false
    failed := true
    unconfirmed := false
    unjudgeable := false
    fromVoid := true
    gradedBy := v.gradedBy
    providers := v.providers }

/-- `_lone`: the executor that decided alone. -/
def lone (deciders : List String) : Option String :=
  match deciders.eraseDups with
  | [e] => some e
  | _ => none

/-- The documents of a job. -/
structure Documents where
  grades : List (String × Document)
  regrades : List ((String × Nat) × Document)
  voids : List (String × Voided)
deriving DecidableEq, Repr

/-- A create-only write. -/
def create {κ β : Type} [DecidableEq κ] [BEq κ] (k : κ) (v : β)
    (t : List (κ × β)) : List (κ × β) :=
  if (t.lookup k).isSome then t else put k v t

/-- `read_regrade`: the last generation before the first missing one. -/
def readRegrade (docs : Documents) (sid : String) : Option Document :=
  let rec go : Nat → Nat → Option Document → Option Document
    | 0, _, latest => latest
    | n + 1, generation, latest =>
      match docs.regrades.lookup (sid, generation) with
      | none => latest
      | some document => go n (generation + 1) (some document)
  go maxRegradeGenerations 1 none

/-- `_latest`. -/
def latest (docs : Documents) (sid : String) : Option Document :=
  (readRegrade docs sid).or (docs.grades.lookup sid)

/-- `_write`: the grade, or the regrade of its generation. -/
def Documents.write (docs : Documents) (sid : String) (document : Document)
    (regrade : Option (Nat × List String)) : Documents :=
  match regrade with
  | none =>
    { docs with grades := create sid document docs.grades }
  | some (generation, regradedFor) =>
    { docs with
      regrades := create (sid, generation)
        { document with
          generation := some generation
          regradedFor := regradedFor } docs.regrades }

-- ===== reading

variable {κ β : Type} [DecidableEq κ] [BEq κ] [LawfulBEq κ]
  {t : List (κ × β)} {d : Document} {k k' : κ}

theorem lookup_create {v x : β} (h : (create k v t).lookup k' = some x) :
    (k' = k ∧ x = v) ∨ t.lookup k' = some x := by
  unfold create at h
  split at h
  · exact .inr h
  · exact (lookup_put_some h).imp_right And.right

/-- What was created stays. -/
theorem lookup_create_of {v x : β} (h : t.lookup k' = some x) :
    (create k v t).lookup k' = some x := by
  unfold create
  split
  · exact h
  · rename_i hk
    exact lookup_put_new (not_isSome_iff_eq_none.1 hk) v h

/-- A regrade read is one that is stored. -/
theorem readRegrade_stored {docs : Documents} {sid : String}
    (h : readRegrade docs sid = some d) :
    ∃ generation, docs.regrades.lookup (sid, generation) = some d := by
  have hgo : ∀ (n generation : Nat) (latest : Option Document),
      readRegrade.go docs sid n generation latest = some d → latest = some d ∨
          ∃ g, docs.regrades.lookup (sid, g) = some d := by
    intro n
    induction n with
    | zero => exact fun _ _ h => .inl h
    | succ n ih =>
      intro generation latest h
      unfold readRegrade.go at h
      cases hl : docs.regrades.lookup (sid, generation) with
      | none =>
        rw [hl] at h
        exact .inl h
      | some document =>
        rw [hl] at h
        rcases ih _ _ h with heq | hex
        · exact .inr ⟨generation, hl.trans heq⟩
        · exact .inr hex
  rcases hgo _ _ _ h with h | h
  · cases h
  · exact h

/-- What `_latest` reads is stored. -/
theorem latest_stored {docs : Documents} {sid : String}
    (h : latest docs sid = some d) : docs.grades.lookup sid = some d ∨
      ∃ generation, docs.regrades.lookup (sid, generation) = some d := by
  rcases or_eq_some_iff.1 h with h | ⟨-, h⟩
  · exact .inr (readRegrade_stored h)
  · exact .inl h

-- ===== generations

/-- A submission's regrades are its generations 1 to `n`. -/
def Chain (docs : Documents) (sid : String) (n : Nat) : Prop :=
  ∀ g, (docs.regrades.lookup (sid, g)).isSome = true ↔ 1 ≤ g ∧ g ≤ n

/-- What the grader stores: regrades in a chain, each under its own number. -/
structure WellFormed (docs : Documents) : Prop where
  chain : ∀ sid, ∃ n, n ≤ maxRegradeGenerations ∧ Chain docs sid n
  generation : ∀ sid g d, docs.regrades.lookup (sid, g) = some d →
    d.generation = some g
  grade : ∀ sid d, docs.grades.lookup sid = some d → d.generation = none

section Chain

variable {docs : Documents} {sid : String} {n : Nat}

/-- The regrade read is the last of the chain. -/
theorem Chain.readRegrade (h : Chain docs sid n)
    (hn : n ≤ maxRegradeGenerations) : readRegrade docs sid
      = if 1 ≤ n then docs.regrades.lookup (sid, n) else none := by
  have hgo : ∀ (m k : Nat) (latest : Option Document), 1 ≤ k → k ≤ n + 1 →
      n + 1 ≤ k + m → readRegrade.go docs sid m k latest
        = if k ≤ n then docs.regrades.lookup (sid, n) else latest := by
    intro m
    induction m with
    | zero =>
      intro k latest _ hk hm
      rw [if_neg (by omega)]
      rfl
    | succ m ih =>
      intro k latest h1 hk hm
      unfold readRegrade.go
      cases hl : docs.regrades.lookup (sid, k) with
      | none =>
        have hnot : ¬ (1 ≤ k ∧ k ≤ n) := by
          rw [← h k, hl]
          simp
        rw [if_neg (by omega)]
      | some d =>
        have hle : 1 ≤ k ∧ k ≤ n := by
          rw [← h k, hl]
          rfl
        dsimp only
        rw [ih (k + 1) (some d) (by omega) (by omega) (by omega), if_pos hle.2]
        by_cases hlast : k + 1 ≤ n
        · rw [if_pos hlast]
        · have heq : k = n := by omega
          rw [if_neg hlast, ← heq, hl]
  exact hgo maxRegradeGenerations 1 none le_rfl (by omega) (by omega)

/-- The latest document carries the length of the chain. -/
theorem WellFormed.latest_generation (hw : WellFormed docs)
    (h : Chain docs sid n) (hn : n ≤ maxRegradeGenerations)
    (hd : latest docs sid = some d) : d.generation.getD 0 = n := by
  unfold latest at hd
  rw [h.readRegrade hn] at hd
  by_cases h1 : 1 ≤ n
  · rw [if_pos h1] at hd
    obtain ⟨d', hd'⟩ := isSome_iff_exists.1 ((h n).2 ⟨h1, le_rfl⟩)
    rw [hd', some_or] at hd
    cases hd
    rw [hw.generation sid n _ hd']
    rfl
  · rw [if_neg h1, none_or] at hd
    rw [hw.grade sid d hd]
    exact (Nat.lt_one_iff.1 (Nat.not_le.1 h1)).symm

-- ===== writes

theorem lookup_create_new {k : κ} {v : β} (h : t.lookup k = none) :
    (create k v t).lookup k = some v := by
  unfold create
  rw [h, if_neg (by simp), lookup_put, if_pos rfl]

theorem lookup_create_ne {v : β} (h : k' ≠ k) :
    (create k v t).lookup k' = t.lookup k' := by
  unfold create
  split
  · rfl
  · rw [lookup_put, if_neg h]

variable {document : Document} {sid' : String} {regradedFor : List String}

theorem readRegrade_congr {docs' : Documents}
    (hr : ∀ g, docs'.regrades.lookup (sid, g) = docs.regrades.lookup (sid, g)) :
    readRegrade docs' sid = readRegrade docs sid := by
  have hgo : ∀ (m k : Nat) (l : Option Document),
      readRegrade.go docs' sid m k l = readRegrade.go docs sid m k l := by
    intro m
    induction m with
    | zero => exact fun _ _ => rfl
    | succ m ih =>
      intro k l
      unfold readRegrade.go
      rw [hr k]
      cases docs.regrades.lookup (sid, k) with
      | none => rfl
      | some d => exact ih (k + 1) (some d)
  exact hgo _ _ _

/-- `_latest` reads the submission's own documents only. -/
theorem latest_congr {docs' : Documents}
    (hg : docs'.grades.lookup sid = docs.grades.lookup sid)
    (hr : ∀ g, docs'.regrades.lookup (sid, g) = docs.regrades.lookup (sid, g)) :
    latest docs' sid = latest docs sid := by
  unfold latest
  rw [hg, readRegrade_congr hr]

theorem latest_write_ne {regrade : Option (Nat × List String)}
    (h : sid' ≠ sid) :
    latest (docs.write sid document regrade) sid' = latest docs sid' := by
  unfold Documents.write
  split
  · exact latest_congr (lookup_create_ne h) fun _ => rfl
  · refine latest_congr rfl fun g => lookup_create_ne ?_
    exact fun heq => h (congrArg Prod.fst heq)

/-- The first grade of a submission is its latest document. -/
theorem latest_write_grade (h : latest docs sid = none) :
    latest (docs.write sid document none) sid = some document := by
  obtain ⟨hr, hg⟩ := or_eq_none_iff.1 h
  have hsame : readRegrade (docs.write sid document none) sid
      = readRegrade docs sid := readRegrade_congr fun _ => rfl
  unfold latest
  rw [hsame, hr, none_or]
  exact lookup_create_new hg

theorem Chain.next_none (h : Chain docs sid n) :
    docs.regrades.lookup (sid, n + 1) = none := by
  cases hl : docs.regrades.lookup (sid, n + 1) with
  | none => rfl
  | some d =>
    have := (h (n + 1)).1 (by rw [hl]; rfl)
    omega

theorem Chain.write (h : Chain docs sid n) :
    Chain (docs.write sid document (some (n + 1, regradedFor))) sid (n + 1) := by
  intro g
  unfold Documents.write
  by_cases hg : g = n + 1
  · subst hg
    rw [lookup_create_new h.next_none]
    simp
  · rw [lookup_create_ne (by simpa using hg), h g]
    omega

/-- The next regrade of a submission is its latest document. -/
theorem latest_write_regrade
    (h : Chain docs sid n) (hn : n + 1 ≤ maxRegradeGenerations) :
    latest (docs.write sid document (some (n + 1, regradedFor))) sid
      = some { document with
          generation := some (n + 1)
          regradedFor := regradedFor } := by
  unfold latest
  rw [h.write.readRegrade hn, if_pos (by omega)]
  have hread : (docs.write sid document (some (n + 1, regradedFor))).regrades.lookup
      (sid, n + 1) = some { document with
        generation := some (n + 1)
        regradedFor := regradedFor } := lookup_create_new h.next_none
  rw [hread, some_or]

theorem Chain.write_ne {regrade : Option (Nat × List String)}
    (h : Chain docs sid' n) (hne : sid' ≠ sid) :
    Chain (docs.write sid document regrade) sid' n := by
  intro g
  rw [← h g]
  unfold Documents.write
  split
  · rfl
  · rw [lookup_create_ne fun heq => hne (congrArg Prod.fst heq)]

theorem WellFormed.writeGrade (hw : WellFormed docs)
    (hd : document.generation = none) :
    WellFormed (docs.write sid document none) := by
  refine ⟨hw.chain, hw.generation, ?_⟩
  intro sid' d hl
  rcases lookup_create hl with ⟨-, rfl⟩ | hl
  · exact hd
  · exact hw.grade sid' d hl

theorem WellFormed.writeRegrade (hw : WellFormed docs) (h : Chain docs sid n)
    (hn : n + 1 ≤ maxRegradeGenerations) :
    WellFormed (docs.write sid document (some (n + 1, regradedFor))) := by
  refine ⟨?_, ?_, hw.grade⟩
  · intro sid'
    by_cases hs : sid' = sid
    · subst hs
      exact ⟨n + 1, hn, h.write⟩
    · obtain ⟨m, hm, hc⟩ := hw.chain sid'
      exact ⟨m, hm, hc.write_ne hs⟩
  · intro sid' g d hl
    rcases lookup_create hl with ⟨heq, rfl⟩ | hl
    · cases heq
      rfl
    · exact hw.generation sid' g d hl

end Chain

end Reliquary.Grade
