/-
The quota's entries and the book: what every method of the book keeps.

# The property

The controller holds its entries in memory and writes each one through
to its row (`_save`), inside the transaction of the call that tells it.
`QuotaAtomic` says that the two copies agree and that an entry's
`in_use` is the number of its hotkey's open leases.

# Where it can break

A transaction that raises restores the rows and not the memory
(`Prog.txn`). So a method keeps the property when it raises before it
tells the controller anything, or not at all. Every method of the book
does, but for a grant: between the sweep and its last claim it calls
`lane_max`, binds the prompt ids and hashes the environment's name, and
each of these may raise. `BookOp.Safe` says that they do not.
-/
import Reliquary.Rl.BookRun

namespace Reliquary.Rl

open Store Relation List LeaseRow BookMem
open Prog (Spec)

-- ===== the property

/-- The leases in use by the hotkey, as the controller has it. -/
def BookMem.slots (m : BookMem) (hotkey : String) : Nat :=
  ((m.quota.lookup hotkey).map fun e => e.inUse).getD 0

/-- The controller's entries are the rows of `rl_lease_quota`, and each
counts its hotkey's open leases. -/
structure QuotaAtomic (w : BookWorld) : Prop where
  row : ∀ hotkey, w.mem.quota.lookup hotkey = w.file.quota.lookup hotkey
  inUse : ∀ hotkey, w.mem.slots hotkey = w.file.inUse hotkey

variable {w w₀ w' : BookWorld} {r : LeaseRow} {hotkey : String} {n : Int}

theorem BookMem.entry_inUse (m : BookMem) (hotkey : String) :
    (m.entry hotkey).inUse = m.slots hotkey := by
  unfold entry slots
  cases m.quota.lookup hotkey with
  | none => rfl
  | some e => rfl

/-- Nothing told to the controller, and no lease opened or ended. -/
structure Untold (w₀ w : BookWorld) : Prop where
  mem : w.mem.quota = w₀.mem.quota
  file : w.file.quota = w₀.file.quota
  inUse : ∀ hotkey, w.file.inUse hotkey = w₀.file.inUse hotkey

open Untold

theorem Untold.refl (w : BookWorld) : Untold w w :=
  ⟨rfl, rfl, fun _ => rfl⟩

/-- A change of other tables. -/
theorem Untold.of_leases (hm : w.mem.quota = w₀.mem.quota)
    (hq : w.file.quota = w₀.file.quota)
    (hl : w.file.leases = w₀.file.leases) : Untold w₀ w := by
  refine ⟨hm, hq, fun hotkey => ?_⟩
  unfold Book.inUse
  rw [hl]

theorem QuotaAtomic.untold (h : QuotaAtomic w₀) (hu : Untold w₀ w) :
    QuotaAtomic w := by
  constructor
  · intro hotkey
    rw [hu.mem, hu.file]
    exact h.row hotkey
  · intro hotkey
    rw [hu.inUse, ← h.inUse]
    unfold slots
    rw [hu.mem]

-- ===== its events

/-- The slots after an event. -/
theorem slots_quotaEvent (hotkey : String) (event : QuotaConfig → Entry → Entry)
    (w : BookWorld) (h : String) : (quotaEvent hotkey event w).mem.slots h
      = if h = hotkey then (event w.mem.quotaConfig (w.mem.entry hotkey)).inUse
        else w.mem.slots h := by
  show (((put hotkey _ w.mem.quota).lookup h).map _).getD 0 = _
  rw [lookup_put]
  by_cases hh : h = hotkey
  · rw [if_pos hh, if_pos hh]
    rfl
  · rw [if_neg hh, if_neg hh]
    rfl

/-- **An event told with the change of the leases it is about** keeps
the property: the hotkey's count is the event's, the others' is as it
was. -/
theorem QuotaAtomic.event (h : QuotaAtomic w₀)
    {event : QuotaConfig → Entry → Entry} (hm : w.mem = w₀.mem)
    (hq : w.file.quota = w₀.file.quota) (hself : w.file.inUse hotkey
      = (event w₀.mem.quotaConfig (w₀.mem.entry hotkey)).inUse)
    (hother : ∀ h', h' ≠ hotkey → w.file.inUse h' = w₀.file.inUse h') :
    QuotaAtomic (quotaEvent hotkey event w) := by
  constructor
  · intro h'
    show (put hotkey _ w.mem.quota).lookup h'
      = (put hotkey _ w.file.quota).lookup h'
    rw [lookup_put, lookup_put, hm, hq, h.row]
  · intro h'
    rw [slots_quotaEvent, hm]
    show _ = w.file.inUse h'
    by_cases hh : h' = hotkey
    · rw [if_pos hh, hh, hself]
    · rw [if_neg hh, hother h' hh]
      exact h.inUse h'

/-- The counts after one row ends. -/
theorem inUse_end (hids : (w.file.leases.map fun r => r.leaseId).Nodup)
    (hr : r ∈ w.file.leases) (ho : r.isOpen = true) (f : LeaseRow → LeaseRow)
    (hf : (f r).isOpen = false) (hl : w'.file.leases
      = updateWhere (fun x => x.leaseId == r.leaseId) f w.file.leases)
    (hotkey : String) :
    w'.file.inUse hotkey + (if r.hotkey = hotkey then 1 else 0)
      = w.file.inUse hotkey := by
  have hcount := countP_updateKey (g := fun x : LeaseRow => x.leaseId) hids
    hr f (openOf hotkey)
  unfold Book.inUse
  rw [hl]
  have hnew : openOf hotkey (f r) = false := by
    simp [openOf, hf]
  have hold : (openOf hotkey r = true) ↔ r.hotkey = hotkey := by
    simp [openOf, ho]
  rw [hnew] at hcount
  simp only [Bool.false_eq_true, if_false, Nat.add_zero, hold] at hcount
  exact hcount

/-- An open lease ends, and its hotkey's slot is freed. -/
theorem QuotaAtomic.ends (h : QuotaAtomic w₀)
    (hids : (w₀.file.leases.map fun r => r.leaseId).Nodup)
    (hr : r ∈ w₀.file.leases) (ho : r.isOpen = true) {f : LeaseRow → LeaseRow}
    (hf : (f r).isOpen = false) {event : QuotaConfig → Entry → Entry}
    (he : ∀ cfg e, (event cfg e).inUse = e.inUse - 1) (hm : w.mem = w₀.mem)
    (hq : w.file.quota = w₀.file.quota) (hl : w.file.leases
      = updateWhere (fun x => x.leaseId == r.leaseId) f w₀.file.leases) :
    QuotaAtomic (quotaEvent r.hotkey event w) := by
  refine h.event hm hq ?_ ?_
  · have hc := inUse_end hids hr ho f hf hl r.hotkey
    rw [if_pos rfl] at hc
    rw [he, entry_inUse, h.inUse]
    omega
  · intro h' hh
    have hc := inUse_end hids hr ho f hf hl h'
    rw [if_neg (Ne.symm hh)] at hc
    exact hc

-- ===== ending leases

/-- An open lease is closed unsubmitted; the other rows are as they
were. -/
theorem QuotaAtomic.closeUnsubmitted (h : QuotaAtomic w)
    (hids : (w.file.leases.map fun r => r.leaseId).Nodup)
    (hr : r ∈ w.file.leases) (ho : r.isOpen = true) (live : Live) (now : ℚ)
    (charged : Cause) :
    QuotaAtomic (closeUnsubmitted live r.toLease now charged w).2 := by
  obtain ⟨state, cause, event, hst, hev, heq⟩ :=
    closeUnsubmitted_eq live r.toLease now charged w
  rw [heq]
  refine h.ends hids hr ho (f := fun x => { x with
    state, closedAt := some now, cause := some cause }) ?_ hev rfl rfl rfl
  rcases hst with rfl | rfl
  · rfl
  · rfl

/-- The sweep. -/
theorem QuotaAtomic.expire (h : QuotaAtomic w)
    (hids : (w.file.leases.map fun r => r.leaseId).Nodup) (live : Live)
    (now : ℚ) : QuotaAtomic (expire live now w) :=
  expire_induction hids h fun _ _ hv hids hr ho _ =>
    hv.closeUnsubmitted hids hr ho live now .expired

/-- A refusal wrote at most a sweep. -/
theorem QuotaAtomic.submittable (h : QuotaAtomic w)
    (hids : (w.file.leases.map fun r => r.leaseId).Nodup) (live : Live)
    (leaseId hotkey : String) (now : ℚ) :
    QuotaAtomic (submittable live leaseId hotkey now w).2 := by
  rcases submittable_spec live leaseId hotkey now w with
    ⟨r, -, -, -, -, -, -, heq⟩ | ⟨e, heq | heq⟩
  · rw [heq]
    exact h
  · rw [heq]
    exact h
  · rw [heq]
    exact h.expire hids live now

/-- An accepted submission ends its lease. -/
theorem QuotaAtomic.submitOk (h : QuotaAtomic w₀)
    (hids : (w₀.file.leases.map fun r => r.leaseId).Nodup)
    {leaseId hotkey : String} {inZone delivered : Bool} {now : ℚ}
    {lease : Lease}
    (hs : SubmitOk leaseId hotkey inZone delivered now w₀ lease w) :
    QuotaAtomic w := by
  obtain ⟨r, hr, hid, hh, ho, -, -⟩ := hs.was
  rw [hs.world, ← hh]
  refine h.ends hids hr ho (f := fun x => { x with
    state := .submitted, closedAt := some now }) rfl ?_ rfl rfl ?_
  · intro cfg e
    split
    · exact Entry.recordSubmission_inUse _ _
    · exact Entry.recordExpiry_inUse _ _ _ _
  · rw [hid]
    rfl

/-- A credit frees no slot and takes none. -/
theorem QuotaAtomic.credited (h : QuotaAtomic w₀) {leaseId : String}
    (hc : Credited leaseId w₀ w) : QuotaAtomic w := by
  rcases hc with rfl | ⟨hotkey, event, hev, rfl⟩
  · exact h
  · have ha : QuotaAtomic (quotaEvent hotkey event w₀) := by
      refine h.event rfl rfl ?_ fun _ _ => rfl
      rw [hev, entry_inUse, h.inUse]
    exact ha.untold ⟨rfl, rfl, fun _ => rfl⟩

-- ===== restart

/-- A change of the leases that opens and ends none. -/
theorem Untold.of_rows {leases : List LeaseRow}
    (hm : Forall₂ (fun r r' : LeaseRow => r'.hotkey = r.hotkey
      ∧ r'.isOpen = r.isOpen) w₀.file.leases leases)
    (hq : w.mem.quota = w₀.mem.quota) (hf : w.file.quota = w₀.file.quota)
    (hl : w.file.leases = leases) : Untold w₀ w := by
  refine ⟨hq, hf, fun hotkey => ?_⟩
  unfold Book.inUse
  rw [hl]
  refine countP_of_forall₂ hm fun r r' hr => ?_
  unfold openOf
  rw [hr.1, hr.2]

/-- A later expiry. -/
theorem Untold.extends (p : LeaseRow → Bool) (e : LeaseRow → ℚ)
    (hq : w.mem.quota = w₀.mem.quota) (hf : w.file.quota = w₀.file.quota)
    (hl : w.file.leases = updateWhere p
      (fun r => { r with expiresAt := e r }) w₀.file.leases) : Untold w₀ w := by
  refine of_rows (forall₂_updateWhere ?_ ?_) hq hf hl
  · exact fun _ => ⟨rfl, rfl⟩
  · exact fun _ _ _ => ⟨rfl, rfl⟩

theorem Untold.trans {w₁ : BookWorld} (h : Untold w₀ w₁)
    (h' : Untold w₁ w) : Untold w₀ w :=
  ⟨h'.mem.trans h.mem, h'.file.trans h.file,
    fun hotkey => (h'.inUse hotkey).trans (h.inUse hotkey)⟩

theorem untold_downtime (since now : ℚ) (w : BookWorld) :
    Untold w (downtime since now w) := by
  unfold downtime
  split
  · exact refl w
  · exact Untold.extends isOpen
      (fun r => r.expiresAt + (now - since)) rfl rfl rfl

theorem untold_markAlive (now : ℚ) (w : BookWorld) :
    Untold w (markAlive now w) := by
  unfold markAlive
  split
  · exact of_leases rfl rfl rfl
  · split
    · exact refl w
    · exact (untold_downtime _ now w).trans (of_leases rfl rfl rfl)

/-- One hotkey reconciled: its entry is there, and counts its leases. -/
theorem reconcileOne_spec
    (hrow : ∀ h, w.mem.quota.lookup h = w.file.quota.lookup h)
    (hex : 0 < w.file.inUse hotkey
      ∨ (w.mem.quota.lookup hotkey).isSome = true) :
    (∀ h, (reconcileOne w hotkey).mem.quota.lookup h
        = (reconcileOne w hotkey).file.quota.lookup h)
      ∧ (reconcileOne w hotkey).file.leases = w.file.leases
      ∧ (∀ h, (reconcileOne w hotkey).mem.slots h
          = if h = hotkey then w.file.inUse h else w.mem.slots h)
      ∧ ∀ h, (w.mem.quota.lookup h).isSome = true →
          ((reconcileOne w hotkey).mem.quota.lookup h).isSome = true := by
  have hput : ∀ e : Entry, ∀ h, (w.mem.quota.lookup h).isSome = true →
      ((put hotkey e w.mem.quota).lookup h).isSome = true := by
    intro e h hs
    rw [lookup_put]
    split
    · rfl
    · exact hs
  unfold reconcileOne
  dsimp only
  split
  next heq =>
    -- the entry is the one on record: it counts leases, or was there
    have hsome : w.mem.quota.lookup hotkey = some (w.mem.entry hotkey) := by
      cases hl : w.mem.quota.lookup hotkey with
      | some e => simp [entry, hl]
      | none =>
        have hz : (w.mem.entry hotkey).inUse = 0 := by
          rw [entry_inUse, slots, hl]
          rfl
        rw [hl] at hex
        rcases hex with hpos | hno
        · omega
        · cases hno
    have hsame : ∀ h, (put hotkey (w.mem.entry hotkey) w.mem.quota).lookup h
        = w.mem.quota.lookup h := by
      intro h
      rw [lookup_put]
      by_cases hh : h = hotkey
      · rw [if_pos hh, hh, hsome]
      · rw [if_neg hh]
    refine ⟨fun h => (hsame h).trans (hrow h), rfl, fun h => ?_, hput _⟩
    show (((put hotkey (w.mem.entry hotkey) w.mem.quota).lookup h).map
      _).getD 0 = _
    rw [hsame]
    by_cases hh : h = hotkey
    · rw [if_pos hh, hh, ← heq, entry_inUse]
      rfl
    · rw [if_neg hh]
      rfl
  next =>
    refine ⟨fun h => ?_, rfl, fun h => ?_, hput _⟩
    · show (put hotkey _ w.mem.quota).lookup h
        = (put hotkey _ w.file.quota).lookup h
      rw [lookup_put, lookup_put, hrow]
    · show (((put hotkey _ w.mem.quota).lookup h).map _).getD 0 = _
      rw [lookup_put]
      by_cases hh : h = hotkey
      · rw [if_pos hh, if_pos hh, hh]
        rfl
      · rw [if_neg hh, if_neg hh]
        rfl

/-- Hotkeys reconciled one after another. -/
theorem reconcile_fold (hotkeys : List String) : ∀ {w : BookWorld},
      (∀ h, w.mem.quota.lookup h = w.file.quota.lookup h) →
      (∀ h ∈ hotkeys, 0 < w.file.inUse h
        ∨ (w.mem.quota.lookup h).isSome = true) →
      (∀ h, h ∉ hotkeys → w.mem.slots h = w.file.inUse h) →
      QuotaAtomic (hotkeys.foldl reconcileOne w) := by
  induction hotkeys with
  | nil =>
    intro w hrow _ hdone
    exact ⟨hrow, fun h => hdone h (not_mem_nil)⟩
  | cons hotkey hotkeys ih =>
    intro w hrow hex hdone
    obtain ⟨hrow', hleases, hslots, hsome⟩ :=
      reconcileOne_spec hrow (hex hotkey mem_cons_self)
    have hinUse : ∀ h, (reconcileOne w hotkey).file.inUse h
        = w.file.inUse h := by
      intro h
      unfold Book.inUse
      rw [hleases]
    refine ih hrow' ?_ ?_
    · intro h hh
      rw [hinUse]
      rcases hex h (mem_cons_of_mem _ hh) with hpos | hs
      · exact .inl hpos
      · exact .inr (hsome h hs)
    · intro h hh
      rw [hslots, hinUse]
      by_cases heq : h = hotkey
      · rw [if_pos heq]
      · rw [if_neg heq]
        refine hdone h fun hmem => ?_
        rcases mem_cons.1 hmem with hm | hm
        · exact heq hm
        · exact hh hm

/-- **A reconciliation** brings the entries in line, whatever they
counted. -/
theorem atomic_reconcile
    (hrow : ∀ h, w.mem.quota.lookup h = w.file.quota.lookup h) :
    QuotaAtomic (reconcile w) := by
  unfold reconcile
  refine reconcile_fold _ hrow ?_ ?_
  · intro h hh
    rw [mem_dedup, mem_append] at hh
    rcases hh with hh | hh
    · refine .inl ?_
      obtain ⟨r, hr, hrh⟩ := mem_map.1 (mem_dedup.1 hh)
      obtain ⟨hr, ho⟩ := mem_filter.1 hr
      refine countP_pos_iff.2 ⟨r, hr, ?_⟩
      simp [openOf, hrh, ho]
    · refine .inr ?_
      obtain ⟨he, hmem, rfl⟩ := mem_map.1 hh
      exact isSome_lookup_of_mem (mem_filter.1 hmem).1
  · intro h hh
    rw [mem_dedup, mem_append, not_or] at hh
    obtain ⟨hholders, husing⟩ := hh
    have hzero : w.file.inUse h = 0 := by
      unfold Book.inUse
      rw [countP_eq_zero]
      intro r hr hopen
      simp only [openOf, Bool.and_eq_true, beq_iff_eq] at hopen
      refine hholders (mem_dedup.2 (mem_map.2 ⟨r, ?_, hopen.1⟩))
      exact mem_filter.2 ⟨hr, hopen.2⟩
    rw [hzero]
    unfold slots
    cases hl : w.mem.quota.lookup h with
    | none => rfl
    | some e =>
      by_contra hne
      refine husing (mem_map.2 ⟨(h, e), ?_, rfl⟩)
      refine mem_filter.2 ⟨mem_of_lookup hl, ?_⟩
      simpa using hne

/-- **A boot** leaves the entries in line, whatever was on file. -/
theorem atomic_boot (config : BookConfig) (quotaConfig : QuotaConfig)
    (now : ℚ) (drawn : Nat) (paidCalls : List String) (b : Book) :
    QuotaAtomic (boot config quotaConfig now drawn paidCalls b) := by
  have hdown : Untold (attach config quotaConfig drawn paidCalls b)
      (bootDowntime now (attach config quotaConfig drawn paidCalls b)) := by
    unfold bootDowntime
    split
    · exact refl _
    · exact untold_downtime _ now _
  refine (atomic_reconcile fun h => ?_).untold (of_leases rfl rfl rfl)
  show (bootDowntime now _).mem.quota.lookup h
    = (bootDowntime now _).file.quota.lookup h
  rw [hdown.mem, hdown.file]
  rfl

-- ===== grants

/-- What keeps a grant from raising once it has swept: `lane_max`
answers, the environments' names fit the hashed message, and the prompt
ids an SQL parameter. -/
structure SafeGrant (live : Live) (requests : List LeaseRequest) : Prop where
  laneMax : ∀ answer, live.laneMax = some answer → ∃ lanes, answer = .ok lanes
  environment : ∀ r ∈ requests, r.environment.toUTF8.toList.length < 256 ^ 4
  prompt : ∀ r ∈ requests, ∀ p ∈ r.promptIds, p < 2 ^ 63

/-- A message is bound when the lengths of its parts fit, and only
then. -/
theorem boundMessage_ok (parts : List (List UInt8)) :
    ∀ domain, (∃ m, boundMessage domain parts = .ok m)
      ↔ ∀ part ∈ parts, part.length < 256 ^ 4 := by
  induction parts with
  | nil => simp [boundMessage]
  | cons part parts ih =>
    intro domain
    rw [forall_mem_cons]
    unfold boundMessage toBytes
    by_cases hfit : part.length < 256 ^ 4
    · simp only [hfit, true_and]
      exact ih _
    · simp only [hfit, false_and, iff_false, not_exists]
      intro m hm
      cases hm

/-- Eight bytes of an integer that has them. -/
theorem u64_length {bytes : List UInt8} (h : u64 n = .ok bytes) :
    bytes.length = 8 := by
  unfold u64 toBytes at h
  split at h
  · cases h
  split at h
  · injection h with h
    rw [← h]
    simp
  · cases h

theorem u64_ok (h₀ : 0 ≤ n) (h : n < 2 ^ 63) : ∃ bytes, u64 n = .ok bytes := by
  unfold u64 toBytes
  rw [if_neg (by omega), if_pos (by omega)]
  exact ⟨_, rfl⟩

theorem sqlInt_ok (h₀ : 0 ≤ n) (h : n < 2 ^ 63) : sqlInt n = .ok () := by
  exact if_pos ⟨by omega, h⟩

/-- A secret that was committed to draws a nonce. -/
theorem leaseNonce_ok {sha256 : List UInt8 → List UInt8}
    {secret c : List UInt8} {environment : String} {p k : Int}
    (hc : secretCommitment sha256 secret k = .ok c)
    (he : environment.toUTF8.toList.length < 256 ^ 4) (h₀ : 0 ≤ p)
    (hp : p < 2 ^ 63) :
    ∃ nonce, leaseNonce sha256 secret environment p k = .ok nonce := by
  obtain ⟨pb, hpb⟩ := u64_ok h₀ hp
  unfold secretCommitment at hc
  cases hkb : u64 k with
  | error e =>
    rw [hkb] at hc
    cases hc
  | ok kb =>
    rw [hkb] at hc
    simp only [bind, Except.bind, bound] at hc
    have hfits : ∀ part ∈ [secret, kb], part.length < 256 ^ 4 := by
      refine (boundMessage_ok [secret, kb] commitDomain.toUTF8.toList).1 ?_
      split at hc
      · cases hc
      next m hm => exact ⟨m, hm⟩
    obtain ⟨m, hm⟩ := (boundMessage_ok
      [secret, environment.toUTF8.toList, pb, kb]
      nonceDomain.toUTF8.toList).2 (by
        simp only [mem_cons, not_mem_nil, or_false,
          forall_eq_or_imp, forall_eq] at hfits ⊢
        rw [u64_length hpb, u64_length hkb]
        exact ⟨hfits.1, he, by norm_num, by norm_num⟩)
    unfold leaseNonce
    rw [hpb, hkb]
    simp only [bind, Except.bind, bound, hm]
    exact ⟨_, rfl⟩

/-- A claim is a prompt of its request. -/
def ClaimOf (requests : List LeaseRequest) (claim : Nat × Int) : Prop :=
  ∃ r, requests[claim.1]? = some r ∧ claim.2 ∈ r.promptIds

section Asked

variable {requests : List LeaseRequest} {b b' : Batch} {i : Nat}
  {all rest more : List (Nat × Int)} {c : Nat × Int} {l : Lease}
  {r : LeaseRequest}

/-- Every prompt of every request, with the place of its request. -/
def asked (requests : List LeaseRequest) : List (Nat × Int) :=
  requests.zipIdx.flatMap fun ri => ri.1.promptIds.map fun p => (ri.2, p)

theorem mem_asked : c ∈ asked requests ↔ ClaimOf requests c := by
  obtain ⟨i, p⟩ := c
  simp only [asked, ClaimOf, mem_flatMap, mem_map, Prod.mk.injEq,
    Prod.exists, mk_mem_zipIdx_iff_getElem?]
  constructor
  · rintro ⟨r, j, hr, q, hq, rfl, rfl⟩
    exact ⟨r, hr, hq⟩
  · rintro ⟨r, hr, hp⟩
    exact ⟨r, i, hr, p, hp, rfl, rfl⟩

/-- No prompt is asked twice at one place. -/
theorem nodup_asked (h : ∀ r ∈ requests, r.promptIds.Nodup) :
    (asked requests).Nodup := by
  refine nodup_flatMap.2 ⟨fun ri hri => ?_, ?_⟩
  · have hr := h ri.1 (mem_of_getElem? (mk_mem_zipIdx_iff_getElem?.1 hri))
    exact hr.map fun p q hpq => (Prod.mk.inj hpq).2
  · have hplaces : (requests.zipIdx.map Prod.snd).Nodup := by
      rw [zipIdx_map_snd]
      exact nodup_range'
    refine (pairwise_map.1 hplaces).imp fun hne x hx hx' => ?_
    obtain ⟨p, -, rfl⟩ := mem_map.1 hx
    obtain ⟨q, -, heq⟩ := mem_map.1 hx'
    exact hne (Prod.mk.inj heq).1.symm

/-- Each prompt asked is answered or to come, and that once. -/
structure Accounted (all : List (Nat × Int)) (b : Batch)
    (rest : List (Nat × Int)) : Prop where
  once : ∀ c, (b.granted.map Prod.fst).count c
    + (b.refused.map Prod.fst).count c + rest.count c = all.count c
  own : ∀ cl ∈ b.granted, cl.2.promptIdx = cl.1.2

theorem Accounted.perm (h : Accounted all b rest) (hp : more.Perm rest) :
    Accounted all b more :=
  ⟨fun c => by rw [hp.count_eq]; exact h.once c, h.own⟩

theorem Accounted.mem (h : Accounted all b rest) (hc : c ∈ rest) : c ∈ all := by
  have hpos := count_pos_iff.2 hc
  rw [← count_pos_iff, ← h.once]
  omega

theorem count_put {β : Type} {t : List ((Nat × Int) × β)}
    (hc : c ∉ t.map Prod.fst) (x : β) (c' : Nat × Int) :
    ((put c x t).map Prod.fst).count c'
      = (t.map Prod.fst).count c' + if (c == c') = true then 1 else 0 := by
  rw [put_new _ _ _ hc, map_append, List.count_append]
  exact congrArg _ count_singleton

section Answered

variable (hall : all.Nodup) (h : Accounted all b (c :: rest))
include hall h

/-- What is to come has no answer yet. -/
theorem Accounted.unanswered : c ∉ b.granted.map Prod.fst
    ∧ c ∉ b.refused.map Prod.fst := by
  have hone := nodup_iff_count_le_one.1 hall c
  have hc := h.once c
  rw [count_cons_self] at hc
  exact ⟨count_eq_zero.1 (by omega), count_eq_zero.1 (by omega)⟩

theorem Accounted.grant (hl : l.promptIdx = c.2)
    (hg : b'.granted = put c l b.granted) (hr : b'.refused = b.refused) :
    Accounted all b' rest := by
  refine ⟨fun c' => ?_, hg ▸ forall_put h.own hl⟩
  have hc := h.once c'
  rw [count_cons] at hc
  rw [hg, hr, count_put (h.unanswered hall).1]
  omega

theorem Accounted.refuse {why : Refusal} (hg : b'.granted = b.granted)
    (hr : b'.refused = put c why b.refused) : Accounted all b' rest := by
  refine ⟨fun c' => ?_, hg ▸ h.own⟩
  have hc := h.once c'
  rw [count_cons] at hc
  rw [hg, hr, count_put (h.unanswered hall).2]
  omega

end Answered

/-- One prompt is answered, or becomes a claim. -/
theorem accounted_sortPrompt (hall : all.Nodup) {acc : Batch × Nat} {p : Int}
    (h : Accounted all acc.1 (acc.1.claims ++ (i, p) :: more)) :
    Accounted all (sortPrompt w i r acc p).1
      ((sortPrompt w i r acc p).1.claims ++ more) := by
  have hnext := h.perm (perm_middle (a := (i, p))).symm
  unfold sortPrompt
  dsimp only
  split
  · exact hnext.refuse hall rfl rfl
  split
  next lease hl =>
    refine hnext.grant hall ?_ rfl rfl
    obtain ⟨row, hrow, rfl⟩ := Option.map_eq_some_iff.1 hl
    have hfind := find?_some hrow
    simp only [Bool.and_eq_true, beq_iff_eq] at hfind
    exact hfind.1.2
  next =>
    split
    · exact hnext.refuse hall rfl rfl
    · rw [append_assoc]
      exact ⟨h.once, h.own⟩

/-- **The sorted requests**: what is not answered is a claim. -/
theorem accounted_sortRequests (hall : (asked requests).Nodup)
    (room : List (String × Int)) :
    Accounted (asked requests) (sortRequests w requests { room })
      (sortRequests w requests { room }).claims := by
  have hloop := foldl_rest (f := fun (b : Batch) (ri : LeaseRequest × Nat) =>
      (ri.1.promptIds.foldl (sortPrompt w ri.2 ri.1) (b, 0)).1)
    (P := fun b rs => Accounted (asked requests) b (b.claims
      ++ rs.flatMap fun ri => ri.1.promptIds.map fun p => (ri.2, p)))
    (fun b ri rs h => ?_) requests.zipIdx { room }
    ⟨fun c => by simp [asked], nofun⟩
  · rw [flatMap_nil, append_nil] at hloop
    exact hloop
  · rw [flatMap_cons] at h
    exact foldl_rest (P := fun acc ps => Accounted _ acc.1 (acc.1.claims
        ++ ((ps.map fun p => (ri.2, p)) ++ _)))
      (fun _ _ _ => accounted_sortPrompt hall) _ (b, 0) h

end Asked

/-- An open lease more. -/
theorem inUse_insert {b b' : Book} {l : LeaseRow}
    (hl : b'.leases = b.leases ++ [l]) (ho : l.isOpen = true)
    (hotkey : String) : b'.inUse hotkey
      = b.inUse hotkey + if l.hotkey = hotkey then 1 else 0 := by
  unfold Book.inUse
  rw [hl, countP_append, countP_singleton]
  simp [openOf, ho]

/-- A lease is inserted, and its hotkey's slot is taken. -/
theorem QuotaAtomic.issued (h : QuotaAtomic w₀) {l : LeaseRow}
    {event : QuotaConfig → Entry → Entry}
    (hl : w.file.leases = w₀.file.leases ++ [l]) (hh : l.hotkey = hotkey)
    (ho : l.isOpen = true) (he : ∀ cfg e, (event cfg e).inUse = e.inUse + 1)
    (hm : w.mem.quota = w₀.mem.quota)
    (hc : w.mem.quotaConfig = w₀.mem.quotaConfig)
    (hq : w.file.quota = w₀.file.quota) :
    QuotaAtomic (quotaEvent hotkey event w) := by
  subst hh
  have hentry : w.mem.entry l.hotkey = w₀.mem.entry l.hotkey := by
    unfold entry
    rw [hm, hc]
  constructor
  · intro h'
    show (put l.hotkey _ w.mem.quota).lookup h'
      = (put l.hotkey _ w.file.quota).lookup h'
    rw [lookup_put, lookup_put, hm, hq, h.row]
  · intro h'
    rw [slots_quotaEvent]
    show _ = w.file.inUse h'
    rw [inUse_insert hl ho]
    by_cases hh : h' = l.hotkey
    · rw [if_pos hh, if_pos hh.symm, hh, he, hentry, entry_inUse,
        h.inUse]
    · rw [if_neg hh, if_neg (Ne.symm hh), ← h.inUse]
      unfold slots
      rw [hm]
      rfl

section Grant

variable {sha256 : List UInt8 → List UInt8} {token : Nat → String}
  {requests : List LeaseRequest}

variable {live : Live}

/-- A claim of a safe grant does not raise: its prompt fits, the nonce is
drawn, and an id drawn before is another one. -/
theorem not_claimRaised (hinj : Function.Injective token)
    (hwf : Wf sha256 w.file) (hids : IdsDrawn token w)
    (hsafe : SafeGrant live requests)
    (hpos : ∀ r ∈ requests, ∀ p ∈ r.promptIds, 0 ≤ p) {claim : Nat × Int}
    (hclaim : ClaimOf requests claim) {v : BookWorld} :
    ¬ClaimRaised sha256 token requests claim w v := by
  rintro ⟨-, r, hr, hcause⟩
  obtain ⟨r', hr', hp⟩ := hclaim
  obtain rfl : r' = r := Option.some.inj (hr'.symm.trans hr)
  have hmem := mem_of_getElem? hr
  have hfits := hsafe.prompt r' hmem claim.2 hp
  have h₀ := hpos r' hmem claim.2 hp
  rcases hcause with hsql | ⟨x, hx, hn⟩ | ⟨l, hl, hid⟩
  · exact hsql (sqlInt_ok h₀ hfits)
  · have hfind := find?_some hx
    simp only [Bool.and_eq_true, beq_iff_eq] at hfind
    have hcommit := hwf.committed x (mem_of_find?_eq_some hx)
    rw [hfind.1] at hcommit
    obtain ⟨n, hok⟩ := leaseNonce_ok hcommit (hsafe.environment r' hmem) h₀
      hfits
    exact hn n hok
  · obtain ⟨i, hi, hli⟩ := hids l hl
    have heq : i = w.mem.drawn := hinj (hli.symm.trans hid)
    omega

section Claims

variable (sha256 : List UInt8 → List UInt8) (token : Nat → String)
  (requests : List LeaseRequest) (now : ℚ)

/-- The claims of a batch, done one after another. -/
inductive Claims (lanes : Lanes) : Batch → BookWorld → List (Nat × Int) →
    Batch → BookWorld → Prop
  | nil (batch : Batch) (w : BookWorld) : Claims lanes batch w [] batch w
  | cons {batch batch' batch'' : Batch} {w v u : BookWorld}
      {claim : Nat × Int} {claims : List (Nat × Int)} :
      ClaimDone sha256 token requests now lanes batch claim w batch' v →
      Claims lanes batch' v claims batch'' u →
      Claims lanes batch w (claim :: claims) batch'' u

/-- The batch before its claims are taken. -/
def sorted (w : BookWorld) : Batch :=
  sortRequests w requests
    { room := (requests.map fun r => r.hotkey).dedup.map
        fun h => (h, roomOf w now h) }

/-- What a grant that answers did: a sweep, then its claims in the
shuffle's order. -/
structure Granted (live : Live) (shuffle : Shuffle) (w : BookWorld)
    (answers : List LeaseAnswer) (v : BookWorld) : Prop where
  done : ∃ lanes batch, lanes.latest = (expire live now w).file.latest
    ∧ Claims sha256 token requests now lanes
        (sorted requests now (expire live now w)) (expire live now w)
        (shuffle.order (sorted requests now (expire live now w)).claims)
        batch v
    ∧ answers = batch.answers requests

end Claims

theorem claims_spec (hinj : Function.Injective token) (hwf : Wf sha256 w₀.file)
    (hids : IdsDrawn token w₀) (hsafe : SafeGrant live requests)
    (hpos : ∀ r ∈ requests, ∀ p ∈ r.promptIds, 0 ≤ p) (now : ℚ) (lanes : Lanes)
    (claims : List (Nat × Int))
    (hclaims : ∀ claim ∈ claims, ClaimOf requests claim) : ∀ batch w,
      BatchOk sha256 token { issues := fun _ => True } w₀ batch w →
      Spec (fun v => v = w)
        (Prog.loop (grantClaim sha256 requests now token lanes) batch claims)
        (Claims sha256 token requests now lanes batch w claims)
        fun _ _ => False := by
  induction claims with
  | nil =>
    refine fun batch w _ => .pure ?_
    rintro v rfl
    exact .nil batch v
  | cons claim claims ih =>
    intro batch w hok
    rw [forall_mem_cons] at hclaims
    refine .bind ((grantClaim_done sha256 token requests now lanes batch
      claim w).onError fun _ _ hr => not_claimRaised hinj (hok.kept.wf hwf)
        (hok.drawn hids) hsafe hpos hclaims.1 hr) fun batch' v hv => ?_
    exact ((ih hclaims.2 batch' v (hv.batchOk (fun _ _ => trivial) hok)).onValue
      fun _ _ => .cons hv) v rfl

/-- The prompts of a request that was checked. -/
theorem checked_prompts {config : BookConfig}
    (h : checkRequests config requests = .ok ()) :
    ∀ r ∈ requests, (∀ p ∈ r.promptIds, 0 ≤ p) ∧ r.promptIds.Nodup := by
  induction requests with
  | nil => exact fun r hr => by cases hr
  | cons r rs ih =>
    unfold checkRequests at h
    cases hc : checkRequest config r with
    | error e =>
      rw [hc] at h
      cases h
    | ok u =>
      rw [hc] at h
      rw [forall_mem_cons]
      have hgood : ¬((∃ p ∈ r.promptIds, p < 0) ∨ ¬r.promptIds.Nodup) := by
        intro hbad
        unfold checkRequest at hc
        split_ifs at hc
      push Not at hgood
      exact ⟨hgood, ih h⟩

/-- **A safe grant** raises only for a malformed request, before it
wrote anything. -/
theorem grant_safe (hinj : Function.Injective token) (hwf : Wf sha256 w.file)
    (hids : IdsDrawn token w) (hsafe : SafeGrant live requests) (now : ℚ)
    (shuffle : Shuffle) (buffer : List String) : Spec (fun v => v = w)
      (grant sha256 live requests now shuffle token buffer)
      (Granted sha256 token requests now live shuffle w)
      fun _ v => v = w ∧ checkRequests w.mem.config requests ≠ .ok () := by
  refine .get_bind ?_
  rintro v rfl
  refine .lift_bind (fun _ hcheck => ?_) fun _ he =>
    ⟨rfl, by rw [he]; exact nofun⟩
  refine (Spec.txn_total ?_).total
  refine .modify_bind (Spec.get_bind ?_)
  rintro u rfl
  refine .lift_bind (fun laneMax _ => ?_) fun e he => ?_
  · have hsweep : Kept sha256 { closes := Unheld v } v (expire live now v) :=
      kept_expire (Kept.refl v) hwf (fun _ hid => hid) live now
    refine .bind (claims_spec hinj (hsweep.wf hwf)
      (hsweep.idsDrawn (fun _ => id) hids) hsafe
      (fun r hr => (checked_prompts hcheck r hr).1) now _ _ ?_ _ _ ⟨Kept.refl _, ?_, id⟩) fun batch =>
        Spec.pure fun _ hc => ⟨_, batch, rfl, hc, rfl⟩
    · intro claim hclaim
      have hall := nodup_asked fun r hr => (checked_prompts hcheck r hr).2
      exact mem_asked.1 ((accounted_sortRequests hall _).mem
        ((shuffle.perm _).mem_iff.1 hclaim))
    · exact sortRequests_granted requests _ fun cl hcl => by cases hcl
  · split at he
    · cases he
    next answer hanswer =>
      obtain ⟨lanes, rfl⟩ := hsafe.laneMax answer hanswer
      split at he
      · cases he
      · cases he

/-- The claims keep the entries in line. -/
theorem Claims.atomic {lanes : Lanes} {batch batch' : Batch} {v : BookWorld}
    {claims : List (Nat × Int)} {now : ℚ}
    (hc : Claims sha256 token requests now lanes batch w claims batch' v)
    (h : QuotaAtomic w) : QuotaAtomic v := by
  induction hc with
  | nil => exact h
  | cons hd _ ih =>
    apply ih
    cases hd with
    | unknown => exact h
    | refused why full laneFull => exact h.untold (of_leases rfl rfl rfl)
    | issued r x nonce hr hi =>
      exact h.issued rfl rfl rfl (fun _ _ => Entry.recordLease_inUse _ _ _)
        rfl rfl rfl

theorem grant_atomic (hinj : Function.Injective token) (h : QuotaAtomic w)
    (hwf : Wf sha256 w.file) (hids : IdsDrawn token w)
    (hsafe : SafeGrant live requests) (now : ℚ) (shuffle : Shuffle)
    (buffer : List String) : Spec (fun v => v = w)
      (grant sha256 live requests now shuffle token buffer)
      (fun _ v => QuotaAtomic v) fun _ v => v = w := by
  refine (grant_safe hinj hwf hids hsafe now shuffle buffer).conseq
    (fun _ hv => hv) ?_ fun _ _ he => he.1
  rintro answers v ⟨lanes, batch, -, hc, -⟩
  exact hc.atomic (h.expire hwf.ids live now)

end Grant

-- ===== checkpoints

/-- An adoption drops closed leases only. -/
theorem Adopted.untold {sha256 : List UInt8 → List UInt8} {k : Int}
    {urandom : List UInt8} {now : ℚ} (h : Adopted sha256 k urandom now w₀ w) :
    Untold w₀ w := by
  rcases h with rfl | ⟨c, -, -, -, -, rfl⟩
  · exact refl w
  · refine ⟨rfl, rfl, fun hotkey => countP_deleteWhere ?_⟩
    intro r _ hgone
    simp only [Bool.and_eq_true, Bool.not_eq_true'] at hgone
    simp [openOf, hgone.2]

-- ===== every method

/-- The call does not raise once it has told the controller
something. -/
def BookOp.Safe : BookOp → Prop
  | .grant live requests _ _ _ => SafeGrant live requests
  | _ => True

section Step

variable {sha256 : List UInt8 → List UInt8} {token : Nat → String}

/-- **Every safe call of the book keeps the entries in line.** -/
theorem step_atomic (hinj : Function.Injective token) (h : QuotaAtomic w)
    (hwf : Wf sha256 w.file) (hids : IdsDrawn token w) (op : BookOp)
    (hsafe : op.Safe) : QuotaAtomic (step sha256 token w op) := by
  cases op with
  | grant live requests now shuffle buffer =>
    exact (grant_atomic hinj h hwf hids hsafe now shuffle buffer).left h
      fun _ _ hq => hq
  | submit live leaseId hotkey inZone delivered now =>
    refine Spec.world (P := fun v => v = w) ((submit_spec live leaseId
      hotkey inZone delivered now).conseq (fun _ hv => hv)
        (fun _ _ hq => h.submitOk hwf.ids hq) ?_) rfl
    intro e v hv
    rw [hv]
    exact h.submittable hwf.ids live leaseId hotkey now
  | checkSubmission live leaseId hotkey now =>
    exact h.submittable hwf.ids live leaseId hotkey now
  | holdSubmission live leaseId hotkey arrivedAt =>
    have hs := h.submittable hwf.ids live leaseId hotkey arrivedAt
    show QuotaAtomic ((holdSubmission live leaseId hotkey arrivedAt).run w).2
    rw [holdSubmission_run]
    cases hsub : submittable live leaseId hotkey arrivedAt w with
    | mk answer v =>
      rw [hsub] at hs
      cases answer with
      | ok l => exact hs.untold (of_leases rfl rfl rfl)
      | error e => exact hs
  | forfeit live leaseId hotkey now =>
    refine (forfeit_spec live leaseId hotkey now).left h ?_
    rintro _ v ⟨r, hr, ho, -, rfl⟩
    exact h.closeUnsubmitted hwf.ids hr ho live now .forfeited
  | expireDue live now => exact h.expire hwf.ids live now
  | adopt k urandom now =>
    exact h.untold ((adoptTxn_spec k urandom now).left (refl w)
      fun _ _ hq => hq.untold)
  | reviseCooldowns live =>
    refine h.untold ((reviseCooldowns_spec live).left (refl w) ?_)
    rintro _ v ⟨stamp, hr⟩
    refine of_leases (by rw [hr.mem]) ?_ ?_
    · rw [hr.file]
    · rw [hr.file]
  | recordOutcome live environment promptIdx checkpoint rewards verdict now =>
    refine h.untold ((recordOutcome_run live environment promptIdx checkpoint
      rewards verdict now).left (refl w) ?_)
    rintro scan v ⟨-, -, cooldown, -, -, book, hbook, rfl⟩
    cases hbook
    exact of_leases rfl rfl rfl
  | credit leaseId now =>
    exact Spec.world (P := fun v => v = w)
      ((credit_spec leaseId now).conseq (fun _ hv => hv)
        (fun _ _ hq => h.credited hq) fun _ _ hf => hf.elim) rfl
  | markAlive now => exact h.untold (untold_markAlive now w)
  | restart config quotaConfig now =>
    exact atomic_boot config quotaConfig now _ _ w.file
  | _ => exact h.untold (of_leases rfl rfl rfl)

end Step

end Reliquary.Rl
