/-
Submissions and skips as entries of a ledger turn: the decisions
`submit_corpus` and the skip route queue (`validator/corpus_service.py`).

A forced-draw submission's digests are salted with the attempt its slot
is at, read from the ledger inside the turn, both for the duplicate check
and for what its acceptance adds (`submitEntry`). Both kinds are sound
entries (`submitEntry_sound`, `skipEntry_sound`): they move the ledgers
by consuming slots and stepping cursors, an acceptance adds only keys
that admission just found unseen, and nothing reads the order in which
failures are listed.
-/
import Reliquary.Corpus.DrawSlots
import Reliquary.Corpus.Turn

namespace Reliquary.Corpus

open Store List Option Moves

variable {H : Hashes} {job : JobSpec} {seen : String → Bool} {sub : Submission}
  {slots : SlotLedger}

/-- The submission a draw job's turn decides. -/
def salted (H : Hashes) (sub : Submission) (attempt : Nat) : Submission :=
  { sub with
    digests := attemptDigests H sub.promptIndex sub.cursor attempt sub.digests }

/-- A submission, as the route queues it. -/
def submitEntry (H : Hashes) (job : JobSpec) (sub : Submission)
    (ref : Option RecordRef) : TurnEntry SlotError where
  decide L seen :=
    if hasDraw job then
      match L.slots.slotAttempt sub.promptIndex sub.cursor with
      | .error e => (.error e, L)
      | .ok attempt => admitSubmission H job (salted H sub attempt) seen L
    else admitSubmission H job sub seen L
  digests slots :=
    if hasDraw job then
      -- an accepted row is the job's, so this does not raise
      (drawSeenKeys H sub.promptIndex sub.cursor sub.digests
        sub.sessionKey.toList slots).toOption.getD []
    else seenKeys sub
  recordRef := ref

def skipEntry (H : Hashes) (job : JobSpec) (req : SkipRequest) :
    TurnEntry SlotError where
  decide L _ := skip H job req L
  digests _ := []
  recordRef := none

-- ===== moves

theorem moves_advance (L : Ledgers) {hotkey : String} (hhot : hotkey ≠ "") :
    Moves L (L.advance job hotkey) := by
  unfold Ledgers.advance
  split
  · exact advance hhot (refl _)
  · exact refl L

variable {L L' : Ledgers}

theorem Moves.trans {L'' : Ledgers} (h : Moves L L') (h' : Moves L' L'') :
    Moves L L'' := by
  induction h with
  | refl L => exact h'
  | consume hc _ ih => exact consume hc (ih h')
  | advance hhot _ ih => exact advance hhot (ih h')

theorem moves_admit (hhot : sub.hotkey ≠ "") (seen : String → Bool)
    (L : Ledgers) : Moves L (admitSubmission H job sub seen L).2 := by
  have hd := admits H job sub L seen
  generalize admitSubmission H job sub seen L = d at hd
  cases hd with
  | raised e => exact refl L
  | refused =>
    dsimp only
    split
    · exact moves_advance L hhot
    · exact refl L
  | full => exact moves_advance L hhot
  | taken _ _ hc => exact consume hc (moves_advance _ hhot)

theorem moves_skip {req : SkipRequest} (hhot : req.hotkey ≠ "")
    (L : Ledgers) : Moves L (skip H job req L).2 := by
  have hmany : ∀ (n : Nat) (L : Ledgers),
      Moves L (L.advanceBy job req.hotkey n) := by
    intro n
    induction n with
    | zero => exact fun L => refl L
    | succ n ih => exact fun L => (moves_advance L hhot).trans (ih _)
  have hskip : (skip H job req L).2 = L ∨ skipRefusal H job req L = .ok none
      ∧ (skip H job req L).2
        = L.advanceBy job req.hotkey (req.toCursor - req.cursor) :=
    skip_moves req L
  rcases hskip with hsame | ⟨-, hmoved⟩
  · rw [hsame]
    exact refl L
  · rw [hmoved]
    exact hmany _ L

-- ===== freshness

theorem checkDuplicates_none {digests : List String}
    (h : checkDuplicates digests seen = none) :
    digests.Nodup ∧ ∀ d ∈ digests, seen d = false := by
  have hgen : ∀ (rest : List (String × Nat)) (within : List String),
      duplicateFrom seen within rest = none → (rest.map Prod.fst).Nodup
        ∧ ∀ d ∈ rest.map Prod.fst, seen d = false ∧ d ∉ within := by
    intro rest
    induction rest with
    | nil => simp
    | cons x rest ih =>
      intro within h
      rw [duplicateFrom] at h
      split at h
      · cases h
      · rename_i hx
        obtain ⟨hnd, hrest⟩ := ih _ h
        rw [map_cons, nodup_cons, forall_mem_cons]
        refine ⟨⟨?_, hnd⟩, by simpa using hx, ?_⟩
        · exact fun hm => (hrest _ hm).2 mem_cons_self
        · intro d hd
          have hout := (hrest d hd).2
          exact ⟨(hrest d hd).1, fun hm => hout (mem_cons_of_mem _ hm)⟩
  have hall := hgen _ [] h
  rw [zipIdx_map_fst] at hall
  exact ⟨hall.1, fun d hd => (hall.2 d hd).1⟩

/-- What the content checks let through is new, without repeats, and of
the job's number. -/
theorem contentGate_fresh
    (hsession : sub.sessionKey.isSome = true → job.episode = true)
    (h : contentGate job sub seen = pass) :
    (∀ d ∈ seenKeys sub, seen d = false) ∧ sub.digests.Nodup
      ∧ (job.episode = false → sub.tokenCounts.length = job.sampling.n) := by
  unfold contentGate at h
  by_cases hep : job.episode = true
  · rw [if_pos hep] at h
    split at h
    · cases h
    · split at h
      · cases h
      · rename_i hany
        obtain ⟨hnd, hnew⟩ := checkDuplicates_none (checkGate_pass h)
        refine ⟨forall_mem_append.2 ⟨hnew, ?_⟩, hnd, by simp [hep]⟩
        intro d hd
        rw [mem_toList.1 hd] at hany
        simpa using hany
  · rw [if_neg hep] at h
    have hall := (firstRefusal_pass_iff _).1 h
    simp only [forall_mem_cons] at hall
    obtain ⟨hnd, hnew⟩ := checkDuplicates_none (checkGate_pass hall.2.2.2.1)
    have hnone : sub.sessionKey = none := by
      rw [← not_isSome_iff_eq_none]
      exact fun hk => hep (hsession hk)
    refine ⟨by simpa [seenKeys, hnone] using hnew, hnd, fun _ => ?_⟩
    by_contra hne
    have hcount := checkGate_pass hall.1
    rw [checkCompletionCount, if_pos hne] at hcount
    cases hcount

theorem drawGate_fresh (hdraw : hasDraw job = true) {attempt : Nat}
    (hattempt : slots.slotAttempt sub.promptIndex sub.cursor = .ok attempt)
    (h : drawGate H job sub slots seen = pass) :
    seen (slotKey H sub.promptIndex sub.cursor attempt) = false := by
  unfold drawGate at h
  rw [if_pos hdraw] at h
  obtain ⟨n, -, h⟩ := bind_eq_ok h
  split at h
  · cases h
  · split at h
    · cases h
    · obtain ⟨out, -, h⟩ := bind_eq_ok h
      split at h
      · cases h
      · rw [hattempt] at h
        change (if seen (slotKey H sub.promptIndex sub.cursor attempt) = true
          then _ else pass) = pass at h
        split at h
        · cases h
        · rename_i hseen
          simpa using hseen

theorem accepts_of_decision {v : Verdict}
    (h : admitSubmission H job sub seen L = (.ok v, L'))
    (hacc : v.accepted = true) : (∀ g ∈ gates H job sub L seen, g = pass)
      ∧ ∃ n, L.slots.consume sub.promptIndex = .ok (L'.slots, n) := by
  have haccepts : (admitSubmission H job sub seen L).accepts = true := by
    rw [h]
    exact hacc
  obtain ⟨n, hn⟩ := slots_of_accepts haccepts
  rw [h] at hn
  exact ⟨(accepts_iff.1 haccepts).1, n, hn⟩

theorem slotAttempt_consumed {l l' : SlotLedger} {p n : Nat}
    (h : l.consume p = .ok (l', n)) (q : Nat) (s : Int) :
    l'.slotAttempt q s = l.slotAttempt q s := by
  obtain ⟨-, -, rfl⟩ := SlotLedger.consume_ok h
  rfl

/-- **An acceptance adds nothing seen.** -/
theorem submit_fresh {ref : Option RecordRef}
    (hsession : sub.sessionKey.isSome = true → job.episode = true) {v : Verdict}
    (h : (submitEntry H job sub ref).decide L seen = (.ok v, L'))
    (hacc : v.accepted = true) :
    ∀ d ∈ (submitEntry H job sub ref).digests L'.slots, seen d = false := by
  unfold submitEntry at h ⊢
  dsimp only at h ⊢
  by_cases hdraw : hasDraw job = true
  · rw [if_pos hdraw] at h
    rw [if_pos hdraw]
    cases hattempt : L.slots.slotAttempt sub.promptIndex sub.cursor with
    | error e =>
      rw [hattempt] at h
      injection h with h _
      cases h
    | ok attempt =>
      rw [hattempt] at h
      obtain ⟨hgates, n, hn⟩ := accepts_of_decision h hacc
      simp only [gates, forall_mem_cons] at hgates
      have hkey : seen (slotKey H sub.promptIndex sub.cursor attempt) = false :=
        drawGate_fresh hdraw hattempt hgates.2.2.2.2.1
      have hkeys : ∀ d ∈ seenKeys (salted H sub attempt), seen d = false :=
        (contentGate_fresh (by exact hsession) hgates.2.2.2.2.2.1).1
      have hattempt' := slotAttempt_consumed hn sub.promptIndex sub.cursor
      rw [hattempt] at hattempt'
      rw [drawSeenKeys, hattempt']
      exact forall_snoc hkeys hkey
  · rw [if_neg hdraw] at h
    rw [if_neg hdraw]
    obtain ⟨hgates, -⟩ := accepts_of_decision h hacc
    simp only [gates, forall_mem_cons] at hgates
    exact (contentGate_fresh hsession hgates.2.2.2.2.2.1).1

-- ===== the order of failures

namespace SlotLedger

variable {l : SlotLedger}

theorem Wf.reloaded (h : l.Wf) : l.reloaded.Wf where
  toShape := h.toShape.reloaded
  within := by
    intro x hx
    rw [h.toShape.capacityAt_reloaded]
    exact h.within x hx

theorem Wf.isComplete_reloaded (h : l.Wf) :
    l.reloaded.isComplete = l.isComplete := by
  apply Bool.eq_iff_iff.2
  rw [h.reloaded.isComplete_iff, h.isComplete_iff]
  have hcap := h.toShape.capacityAt_reloaded
  constructor
  · intro hall p hp
    rw [← hcap]
    exact hall p hp
  · intro hall p hp
    rw [hcap]
    exact hall p hp

theorem Wf.remaining_reloaded (h : l.Wf) (p : Nat) :
    l.reloaded.remaining p = l.remaining p := by
  unfold remaining
  rw [show l.reloaded.check p = l.check p from rfl]
  cases l.check p with
  | error e => rfl
  | ok q =>
    simp only [bind, Except.bind]
    rw [h.toShape.capacityAt_reloaded]
    rfl

theorem Wf.isFull_reloaded (h : l.Wf) (p : Nat) :
    l.reloaded.isFull p = l.isFull p := by
  unfold isFull
  rw [h.remaining_reloaded]

theorem Wf.slotAttempt_reloaded (h : l.Wf) (p : Nat) (s : Int) :
    l.reloaded.slotAttempt p s = l.slotAttempt p s := by
  unfold slotAttempt slotFailures
  rw [show l.reloaded.check p = l.check p from rfl]
  cases l.check p with
  | error e => rfl
  | ok q =>
    have hperm := slotsOf_perm (h.toShape.failedAt_reloaded q)
    show Except.ok (failuresOf (l.reloaded.failedAt q) s).length
      = .ok (failuresOf (l.failedAt q) s).length
    rw [length_failuresOf, length_failuresOf, hperm.count_eq]

theorem Wf.slotExhausted_reloaded (h : l.Wf) (p : Nat) (s : Int) :
    l.reloaded.slotExhausted p s = l.slotExhausted p s := by
  unfold slotExhausted
  rw [h.slotAttempt_reloaded]

theorem Wf.drawCursors_reloaded (h : l.Wf) (p n : Nat) :
    l.reloaded.drawCursors p n = l.drawCursors p n := by
  unfold drawCursors
  rw [show l.reloaded.check p = l.check p from rfl]
  cases l.check p with
  | error e => rfl
  | ok q =>
    have hperm := (h.toShape.failedAt_reloaded q).filter
      fun entry => decide ('@' ∉ entry.toList)
    simp only [bind, Except.bind]
    rw [hperm.length_eq]
    rfl

end SlotLedger

theorem drawGate_reloaded (h : slots.Wf)
    (sub : Submission) (seen : String → Bool) :
    drawGate H job sub slots.reloaded seen = drawGate H job sub slots seen := by
  unfold drawGate
  rw [h.drawCursors_reloaded, h.slotExhausted_reloaded, h.slotAttempt_reloaded]

theorem advance_reloaded (L : Ledgers) (hotkey : String) :
    L.reloaded.advance job hotkey = (L.advance job hotkey).reloaded := by
  unfold Ledgers.advance
  split
  · rfl
  · rfl

theorem admit_reloaded (h : L.slots.Wf) (sub : Submission)
    (seen : String → Bool) : admitSubmission H job sub seen L.reloaded
      = ((admitSubmission H job sub seen L).1,
        (admitSubmission H job sub seen L).2.reloaded) := by
  have hgates : gates H job sub L.reloaded seen = gates H job sub L seen := by
    unfold gates completeGate
    rw [show L.reloaded.slots = L.slots.reloaded from rfl,
      h.isComplete_reloaded, drawGate_reloaded h]
    rfl
  unfold admitSubmission
  rw [hgates]
  cases firstRefusal (gates H job sub L seen) with
  | error e => rfl
  | ok r =>
    cases r with
    | some r =>
      dsimp only
      split
      · rw [advance_reloaded]
      · rfl
    | none =>
      dsimp only [takeSlot]
      rw [show L.reloaded.slots = L.slots.reloaded from rfl, h.isFull_reloaded]
      cases L.slots.isFull sub.promptIndex with
      | error e => rfl
      | ok full =>
        cases full with
        | true =>
          rw [advance_reloaded]
        | false =>
          rw [h.consume_reloaded]
          cases L.slots.consume sub.promptIndex with
          | error e => rfl
          | ok r =>
            rw [← advance_reloaded]
            rfl

theorem openCrossed_reloaded (h : slots.Wf)
    (hotkey : String) (steps : List Nat) :
    openCrossed H job hotkey slots.reloaded steps
      = openCrossed H job hotkey slots steps := by
  induction steps with
  | nil => rfl
  | cons step steps ih =>
    unfold openCrossed
    dsimp only
    rw [h.remaining_reloaded, ih]

theorem skip_reloaded (h : L.slots.Wf) (req : SkipRequest) :
    skip H job req L.reloaded
      = ((skip H job req L).1, (skip H job req L).2.reloaded) := by
  have hrefusal : skipRefusal H job req L.reloaded = skipRefusal H job req L := by
    unfold skipRefusal
    rw [show L.reloaded.slots = L.slots.reloaded from rfl,
      h.isComplete_reloaded, openCrossed_reloaded h]
    rfl
  have hmany : ∀ (n : Nat) (L : Ledgers), L.reloaded.advanceBy job req.hotkey n
        = (L.advanceBy job req.hotkey n).reloaded := by
    intro n
    induction n with
    | zero => exact fun L => rfl
    | succ n ih =>
      intro L
      rw [Ledgers.advanceBy, Ledgers.advanceBy, advance_reloaded, ih]
  unfold skip
  rw [hrefusal]
  cases skipRefusal H job req L with
  | error e => rfl
  | ok r =>
    cases r with
    | some v => rfl
    | none =>
      rw [hmany]

-- ===== entries

/-- **A submission is a sound entry.** -/
theorem submitEntry_sound {ref : Option RecordRef} (hhot : sub.hotkey ≠ "")
    (hsession : sub.sessionKey.isSome = true → job.episode = true)
    (href : ∀ r, ref = some r → r.ok = true) :
    (submitEntry H job sub ref).Sound where
  moves := by
    intro L seen
    unfold submitEntry
    dsimp only
    split
    · cases L.slots.slotAttempt sub.promptIndex sub.cursor with
      | error e => exact refl L
      | ok attempt =>
        have hsalted : (salted H sub attempt).hotkey ≠ "" := hhot
        exact moves_admit hsalted seen L
    · exact moves_admit hhot seen L
  fresh := fun L seen v L' h hacc => submit_fresh hsession h hacc
  unordered := by
    intro L seen hwf
    unfold submitEntry
    dsimp only
    split
    · rw [show L.reloaded.slots = L.slots.reloaded from rfl,
        hwf.slotAttempt_reloaded]
      cases L.slots.slotAttempt sub.promptIndex sub.cursor with
      | error e => rfl
      | ok attempt => exact admit_reloaded hwf _ seen
    · exact admit_reloaded hwf sub seen
  unorderedDigests := by
    intro l hwf
    unfold submitEntry drawSeenKeys
    dsimp only
    rw [hwf.slotAttempt_reloaded]
  recordOk := href

/-- **A skip is a sound entry.** -/
theorem skipEntry_sound {req : SkipRequest} (hhot : req.hotkey ≠ "") :
    (skipEntry H job req).Sound where
  moves := fun L _ => moves_skip hhot L
  fresh := nofun
  unordered := fun _ _ hwf => skip_reloaded hwf req
  unorderedDigests := fun _ _ => rfl
  recordOk := nofun

end Reliquary.Corpus
