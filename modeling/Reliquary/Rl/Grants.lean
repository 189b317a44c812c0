/-
What a grant answers, and how many open leases it leaves a hotkey.

# The two counts

- `Accounted` (`QuotaBook.lean`): every prompt of every request is granted,
  refused or still to come, and that once.
- The open leases of a hotkey and the room it has left: a claim that is
  issued takes one from the room and adds one to the leases, so their sum is
  what it was after the sweep.

# What is assumed

A grant that raises answers nobody, and one prompt id that no SQL parameter
holds makes it raise (`oversized_prompt_raises`): `SafeGrant` excludes it.
-/
import Reliquary.Rl.QuotaRun

namespace Reliquary.Rl

open Store List

variable {sha256 : List UInt8 → List UInt8} {token : Nat → String}
  {requests : List LeaseRequest} {w v : BookWorld} {b b' : Batch} {now : ℚ}
  {lanes : Lanes} {i : Nat} {r : LeaseRequest}

/-- Sorting leaves the room as it is. -/
theorem room_sorted : (sorted requests now w).room
    = (requests.map fun r => r.hotkey).dedup.map
        fun h => (h, roomOf w now h) := by
  refine sortRequests_keeps (I := fun b => b.room = _) (fun _ _ _ _ h => ?_)
    requests _ rfl
  unfold sortPrompt
  dsimp only
  repeat' split
  all_goals exact h

-- ===== the claims

/-- The room a hotkey has left in a batch. -/
def Batch.left (b : Batch) (hotkey : String) : Int :=
  max 0 ((b.room.lookup hotkey).getD 0)

/-- What the claims of a batch did from `w` to `v`. -/
structure Issued (lanes : Lanes) (w : BookWorld) (b : Batch)
    (issued : List LeaseRow) (v : BookWorld) (b' : Batch) : Prop where
  prompts : v.file.prompts = w.file.prompts
  leases : v.file.leases = w.file.leases ++ issued
  fresh : ∀ l ∈ issued, l.isOpen = true
    ∧ ∀ p ∈ w.file.prompt l.environment l.promptIdx, p.state ≠ .blacklisted
      ∧ ∀ til ∈ p.untilK, til ≤ lanes.latest.getD 0
  room : ∀ hotkey, v.file.inUse hotkey + b'.left hotkey
    = w.file.inUse hotkey + b.left hotkey

/-- **The claims of a batch**: each is answered, and what is issued comes
out of its hotkey's room. -/
theorem Claims.issued {claims : List (Nat × Int)}
    (hc : Claims sha256 token requests now lanes b w claims b' v)
    (hall : (asked requests).Nodup) (h : Accounted (asked requests) b claims) :
    Accounted (asked requests) b' [] ∧ ∃ issued, Issued lanes w b issued v b' := by
  induction hc with
  | nil b w => exact ⟨h, [], rfl, (append_nil _).symm, nofun, fun _ => rfl⟩
  | @cons b b₁ _ w _ _ claim _ hd _ ih =>
    cases hd with
    | unknown hnone =>
      obtain ⟨r, hr, -⟩ := mem_asked.1 (h.mem mem_cons_self)
      exact nomatch hnone.symm.trans hr
    | refused why full laneFull =>
      obtain ⟨ht, issued, hi⟩ := ih (h.refuse hall rfl rfl)
      exact ⟨ht, issued, { hi with }⟩
    | issued r x nonce hr hi =>
      obtain ⟨ht, issued, hnext⟩ := ih (h.grant hall rfl rfl rfl)
      refine ⟨ht, { toLease := newLease token now claim w r nonce } :: issued,
        hnext.prompts, ?_, ?_, fun hotkey => ?_⟩
      · rw [hnext.leases]
        exact append_assoc ..
      · exact forall_mem_cons.2 ⟨⟨rfl, hi.life⟩, hnext.fresh⟩
      · have hroom := hi.room
        rw [hnext.room, inUse_insert (b := w.file)
          (l := { toLease := newLease token now claim w r nonce })]
        · unfold Batch.left
          rw [lookup_put]
          by_cases hh : hotkey = r.hotkey
          · rw [if_pos hh, hh]
            simp [newLease]
            omega
          · simp [newLease, hh, Ne.symm hh]
        · rfl
        · rfl

-- ===== the answers

/-- Each prompt of a request is in its answer, in one place. -/
theorem Accounted.answers (h : Accounted (asked requests) b [])
    (hall : (asked requests).Nodup) {a : LeaseAnswer}
    (hr : requests[i]? = some r) (ha : (b.answers requests)[i]? = some a)
    {p : Int} (hp : p ∈ r.promptIds) :
    (∃ l ∈ a.leases, l.promptIdx = p) ↔ ¬∃ why, (p, why) ∈ a.refused := by
  have hone : (asked requests).count (i, p) = 1 :=
    count_eq_one_of_mem hall (mem_asked.2 ⟨r, hr, hp⟩)
  obtain rfl : _ = a := by
    simpa [Batch.answers, getElem?_zipIdx, hr] using ha
  have hleases : (∃ l ∈ r.promptIds.filterMap fun p => b.granted.lookup (i, p),
      l.promptIdx = p) ↔ (i, p) ∈ b.granted.map Prod.fst := by
    constructor
    · rintro ⟨l, hl, rfl⟩
      obtain ⟨q, -, hq⟩ := mem_filterMap.1 hl
      have hm := mem_of_lookup hq
      exact mem_map.2 ⟨_, hm, congrArg (i, ·) (h.own _ hm).symm⟩
    · intro hm
      obtain ⟨⟨_, l₀⟩, hx, rfl⟩ := mem_map.1 hm
      obtain ⟨l, hl⟩ := Option.isSome_iff_exists.1 (isSome_lookup_of_mem hx)
      exact ⟨l, mem_filterMap.2 ⟨p, hp, hl⟩, h.own _ (mem_of_lookup hl)⟩
  have hrefused : (∃ why, (p, why) ∈ (b.refused.filter fun cr =>
      cr.1.1 == i).map fun cr => (cr.1.2, cr.2)) ↔
        (i, p) ∈ b.refused.map Prod.fst := by
    simp
  have hc := h.once (i, p)
  rw [hone, count_nil] at hc
  rw [hleases, hrefused, ← count_pos_iff, ← count_pos_iff]
  omega

-- ===== the result

/-- How many leases of its own a hotkey may hold open. -/
def limitOf (w : BookWorld) (now : ℚ) (hotkey : String) : Nat :=
  match w.mem.config.maxPendingGroups with
  | none => w.mem.quotaOf hotkey now
  | some _ => min (w.mem.quotaOf hotkey now) hotkeyMaxOpen

theorem left_sorted (hotkey : String) :
    w.file.inUse hotkey + (sorted requests now w).left hotkey
      ≤ max (w.file.inUse hotkey) (limitOf w now hotkey) := by
  unfold Batch.left
  cases hl : (sorted requests now w).room.lookup hotkey with
  | none => simp
  | some room =>
    rw [room_sorted] at hl
    obtain ⟨h, -, heq⟩ := mem_map.1 (mem_of_lookup hl)
    cases heq
    rw [Option.getD_some, roomOf, limitOf]
    split
    · omega
    · cases w.mem.config.maxPendingGroups <;> dsimp only <;> omega

end Reliquary.Rl
