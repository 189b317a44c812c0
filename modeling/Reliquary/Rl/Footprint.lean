/-
Each call of the lease book stays in its scope.

`Kept s w₀ w` says how a world `w` inside or after a call relates to the
world `w₀` the call began in: the tables moved within the scope `s`
(`Moves`), and the memory the other calls rely on is as it was. One
lemma per method says that it keeps it, whether it ends or raises; a
raise inside a transaction restores the tables, which is no move at
all. `grant_spec` says in addition what a grant answers: open rows of
the book it leaves.
-/
import Reliquary.Rl.Moves

namespace Reliquary.Rl

open Store Relation List Option PromptRow
open Prog (Spec)

variable {sha256 : List UInt8 → List UInt8} {token : Nat → String}
  {s : Scope}

-- ===== the frame

/-- What no call but a hold, a release or a restart changes in memory;
lease ids are only ever drawn, and payments told to the quota only by a
call that may. -/
structure MemKept (s : Scope) (m₀ m : BookMem) : Prop where
  submitting : m.submitting = m₀.submitting
  config : m.config = m₀.config
  drawn : m₀.drawn ≤ m.drawn
  paid : ¬s.pays → m.paidCalls = m₀.paidCalls

theorem MemKept.refl (m : BookMem) : MemKept s m m :=
  ⟨rfl, rfl, le_refl _, fun _ => rfl⟩

/-- The world inside a call that began in `w₀`. -/
structure Kept (sha256 : List UInt8 → List UInt8) (s : Scope)
    (w₀ w : BookWorld) : Prop where
  file : Moves sha256 s w₀.file w.file
  mem : MemKept s w₀.mem w.mem

variable {w₀ w : BookWorld} {leaseId hotkey : String} {inZone delivered : Bool}
  {P : BookWorld → Prop} {lease : Lease} {now : ℚ}

theorem Kept.refl (w : BookWorld) : Kept sha256 s w w :=
  ⟨ReflTransGen.refl, MemKept.refl _⟩

/-- Nothing was written. -/
theorem Kept.of_eq (h : w = w₀) : Kept sha256 s w₀ w :=
  h ▸ Kept.refl w

/-- A block keeps what its body keeps: its exception is no move. -/
theorem Kept.txn {α : Type} {p : BookProg α} {Q : α → BookWorld → Prop}
    (hp : Spec P p Q fun _ w => Kept sha256 s w₀ w)
    (hP : ∀ w, P w → Kept sha256 s w₀ w) :
    Spec P (Prog.txn p) Q fun _ w => Kept sha256 s w₀ w := by
  have h := Spec.txn_split (F := Moves sha256 s w₀.file)
    (G := MemKept s w₀.mem) hp (fun w hw => (hP w hw).file)
    (fun _ w hw => hw.mem)
  exact h.onError fun _ w hw => ⟨hw.1, hw.2⟩

section Kept

variable (h : Kept sha256 s w₀ w)
include h

theorem Kept.wf (hwf : Wf sha256 w₀.file) : Wf sha256 w.file :=
  h.file.wf hwf

/-- One more write, the memory kept. -/
theorem Kept.step {w' : BookWorld} (hm : Move sha256 s w.file w'.file)
    (hs : w'.mem.submitting = w.mem.submitting)
    (hc : w'.mem.config = w.mem.config) (hd : w'.mem.drawn = w.mem.drawn)
    (hp : w'.mem.paidCalls = w.mem.paidCalls) : Kept sha256 s w₀ w' :=
  ⟨h.file.tail hm, hs.trans h.mem.submitting, hc.trans h.mem.config,
    hd ▸ h.mem.drawn, fun hn => hp.trans (h.mem.paid hn)⟩

/-- A change of the memory alone. -/
theorem Kept.memory {m : BookMem}
    (hs : m.submitting = w.mem.submitting) (hc : m.config = w.mem.config)
    (hd : w.mem.drawn ≤ m.drawn) (hp : m.paidCalls = w.mem.paidCalls) :
    Kept sha256 s w₀ { w with mem := m } :=
  ⟨h.file, hs.trans h.mem.submitting, hc.trans h.mem.config,
    le_trans h.mem.drawn hd, fun hn => hp.trans (h.mem.paid hn)⟩

/-- Row moves of the leases, nothing else touched. -/
theorem Kept.rows {leases : List LeaseRow}
    (hm : Forall₂ (RowMove s) w.file.leases leases) :
    Kept sha256 s w₀ { w with file := { w.file with leases } } :=
  h.step (Move.rows _ _ hm) rfl rfl rfl rfl

/-- Every lease on record has an id that was drawn. -/
def IdsDrawn (token : Nat → String) (w : BookWorld) : Prop :=
  ∀ r ∈ w.file.leases, ∃ i < w.mem.drawn, r.leaseId = token i

/-- A call that issues nothing keeps it. -/
theorem Kept.idsDrawn
    (hs : ∀ id, ¬s.issues id) (h₀ : IdsDrawn token w₀) : IdsDrawn token w := by
  intro r hr
  rcases h.file.evolved r hr with ⟨r₀, hr₀, hev⟩ | hiss
  · obtain ⟨i, hi, hid⟩ := h₀ r₀ hr₀
    exact ⟨i, lt_of_lt_of_le hi h.mem.drawn, hev.leaseId.trans hid⟩
  · exact absurd hiss (hs _)

-- ===== pure functions

/-- A quota event touches no table the moves are about. -/
theorem kept_quotaEvent (hotkey : String)
    (event : QuotaConfig → Entry → Entry) :
    Kept sha256 s w₀ (quotaEvent hotkey event w) :=
  h.step (Move.frame _ _ rfl rfl rfl rfl rfl rfl) rfl rfl rfl rfl

/-- A downtime only moves expiries away. -/
theorem kept_downtime (since now : ℚ) :
    Kept sha256 s w₀ (downtime since now w) := by
  unfold downtime
  split
  next => exact h
  next hlong =>
    have hpos : (0 : ℚ) ≤ now - since := by
      have hmin : (0 : ℚ) ≤ downtimeMinS := by
        unfold downtimeMinS
        norm_num
      linarith [not_le.1 hlong]
    have hrows : Forall₂ (RowMove s) w.file.leases (updateWhere LeaseRow.isOpen
          (fun r => { r with expiresAt := r.expiresAt + (now - since) })
          w.file.leases) :=
      forall₂_updateWhere RowMove.keep fun r _ ho =>
        RowMove.extend r _ ho (le_add_of_nonneg_right hpos)
    exact (h.rows hrows).step (Move.frame _ _ rfl rfl rfl rfl rfl rfl) rfl rfl
      rfl rfl

theorem kept_setAlive (now : ℚ) : Kept sha256 s w₀ (setAlive now w) :=
  h.step (Move.frame _ _ rfl rfl rfl rfl rfl rfl) rfl rfl rfl rfl

theorem kept_markAlive (now : ℚ) : Kept sha256 s w₀ (markAlive now w) := by
  unfold markAlive
  split
  next => exact kept_setAlive h now
  next last _ =>
    split
    · exact h
    · exact kept_setAlive (kept_downtime h last now) now

theorem kept_ban (hotkey : String) (til : ℚ) :
    Kept sha256 s w₀ (ban hotkey til w) :=
  h.step (Move.frame _ _ rfl rfl rfl rfl rfl rfl) rfl rfl rfl rfl

end Kept

-- ===== the sweep

variable (live : Live)

/-- What closing a lease does: it sets the lease's row to expired or
released, and charges or frees its slot. -/
theorem closeUnsubmitted_eq (lease : Lease) (now : ℚ) (charged : Cause)
    (w : BookWorld) : ∃ state cause event,
    (state = .expired ∨ state = .released) ∧
    (∀ cfg e, (event cfg e : Entry).inUse = e.inUse - 1) ∧ closeUnsubmitted live
    lease now charged w = (state, quotaEvent lease.hotkey event
            (closeRow lease.leaseId state now (some cause) w)) := by
  unfold closeUnsubmitted
  split
  next cause _ =>
    exact ⟨_, cause, _, .inl rfl,
      fun _ _ => Entry.recordExpiry_inUse _ _ _ _, rfl⟩
  next cause _ _ =>
    exact ⟨_, cause, _, .inr rfl, fun _ _ => Entry.recordRelease_inUse _, rfl⟩

/-- Closing a lease whose row is open, in a scope that may. -/
theorem kept_closeUnsubmitted (h : Kept sha256 s w₀ w) (live : Live)
    (lease : Lease) (now : ℚ) (charged : Cause) (hc : s.closes lease.leaseId)
    (ho : ∀ r ∈ w.file.leases, r.leaseId = lease.leaseId → r.isOpen = true) :
    Kept sha256 s w₀ (closeUnsubmitted live lease now charged w).2 := by
  obtain ⟨state, cause, event, hst, -, heq⟩ :=
    closeUnsubmitted_eq live lease now charged w
  rw [heq]
  refine kept_quotaEvent (h.rows ?_) _ _
  refine forall₂_updateWhere RowMove.keep fun r hr hid => ?_
  have hid : r.leaseId = lease.leaseId := by simpa using hid
  exact RowMove.close r state now (some cause) (ho r hr hid) (hid ▸ hc) hst

/-- The rows after a lease is closed unsubmitted: the others are there. -/
theorem mem_closeUnsubmitted {l : Lease} {charged : Cause} {r : LeaseRow}
    (hr : r ∈ w.file.leases) (hne : r.leaseId ≠ l.leaseId) : r ∈
    (closeUnsubmitted live l now charged w).2.file.leases := by
  obtain ⟨state, cause, event, -, -, heq⟩ :=
    closeUnsubmitted_eq live l now charged w
  rw [heq]
  refine mem_updateWhere.2 ⟨r, hr, ?_⟩
  rw [if_neg (by simpa using hne)]

theorem ids_closeUnsubmitted (l : Lease) (now : ℚ) (charged : Cause)
    (w : BookWorld) : (closeUnsubmitted live l now charged w).2.file.leases.map
    (fun r => r.leaseId) = w.file.leases.map fun r => r.leaseId := by
  obtain ⟨state, cause, event, -, -, heq⟩ :=
    closeUnsubmitted_eq live l now charged w
  rw [heq]
  refine updateWhere_column (fun r : LeaseRow => r.leaseId) ?_ w.file.leases
  exact fun _ => rfl

/-- **The sweep, lease by lease.** Closing one leaves the rows of the
others alone, so each is open when its turn comes. -/
theorem expire_induction {I : BookWorld → Prop} {live : Live}
    (hids : (w.file.leases.map fun r => r.leaseId).Nodup) (h : I w)
    (hstep : ∀ v r, I v → (v.file.leases.map fun r => r.leaseId).Nodup →
      r ∈ v.file.leases → r.isOpen = true →
      w.mem.submitting.lookup r.leaseId = none →
      I (closeUnsubmitted live r.toLease now .expired v).2) :
    I (expire live now w) := by
  have hloop : ∀ (due : List Lease) (v : BookWorld), I v →
      (v.file.leases.map fun r => r.leaseId).Nodup →
      (due.map fun l => l.leaseId).Nodup →
      (∀ l ∈ due, ∃ r ∈ v.file.leases, r.toLease = l ∧ r.isOpen = true
        ∧ w.mem.submitting.lookup r.leaseId = none) →
      I (due.foldl
        (fun w l => (closeUnsubmitted live l now .expired w).2) v) := by
    intro due
    induction due with
    | nil => exact fun v hv _ _ _ => hv
    | cons l due ih =>
      intro v hv hids hnd hop
      rw [map_cons, nodup_cons] at hnd
      obtain ⟨r, hr, rfl, ho, hfree⟩ := hop l mem_cons_self
      refine ih _ (hstep v r hv hids hr ho hfree) ?_ hnd.2 ?_
      · rw [ids_closeUnsubmitted]
        exact hids
      · intro l' hl'
        obtain ⟨r', hr', hrl', ho'⟩ := hop l' (mem_cons_of_mem _ hl')
        refine ⟨r', mem_closeUnsubmitted live hr' ?_, hrl', ho'⟩
        intro heq
        refine hnd.1 (List.mem_map.2 ⟨l', hl', ?_⟩)
        rw [← heq, ← hrl']
  refine hloop _ w h hids ?_ ?_
  · unfold dueAt
    rw [List.map_map]
    exact (filter_sublist.map _).nodup hids
  · intro l hl
    obtain ⟨r, hr, rfl⟩ := List.mem_map.1 hl
    obtain ⟨hr, hp⟩ := mem_filter.1 hr
    simp only [Bool.and_eq_true, isNone_iff_eq_none] at hp
    exact ⟨r, hr, rfl, hp.1.1, hp.2⟩

/-- The scope may end, unsubmitted, the leases no submission holds. -/
def Scope.Sweeps (s : Scope) (w : BookWorld) : Prop :=
  ∀ id, w.mem.submitting.lookup id = none → s.closes id

/-- The sweep. -/
theorem kept_expire (h : Kept sha256 s w₀ w) (hwf : Wf sha256 w₀.file)
    (hs : s.Sweeps w₀) (live : Live) (now : ℚ) :
    Kept sha256 s w₀ (expire live now w) := by
  refine expire_induction (h.wf hwf).ids h fun v r hv hids hr ho hfree => ?_
  rw [h.mem.submitting] at hfree
  refine kept_closeUnsubmitted hv live r.toLease now .expired
    (hs r.leaseId hfree) fun r' hr' hid => ?_
  rw [eq_of_key hids hr' hr hid]
  exact ho

-- ===== methods of one lease

/-- What it is for a method to stay in the scope. -/
abbrev Stays {α : Type} (sha256 : List UInt8 → List UInt8) (s : Scope)
    (w₀ : BookWorld) (p : BookProg α) : Prop :=
  Spec (fun w => w = w₀) p (fun _ w => Kept sha256 s w₀ w)
    fun _ w => Kept sha256 s w₀ w

/-- A method that only writes by one function of the world. -/
theorem stays_modify {f : BookWorld → BookWorld}
    (h : Kept sha256 s w₀ (f w₀)) : Stays sha256 s w₀ (Prog.modify f) := by
  refine .modify ?_
  rintro w rfl
  exact h

/-- The end of a method: nothing more is written. -/
theorem stays_lift {α : Type} (x : Except Err α)
    (hP : ∀ w, P w → Kept sha256 s w₀ w) : Spec P (Prog.lift x : BookProg α)
      (fun _ w => Kept sha256 s w₀ w) fun _ w => Kept sha256 s w₀ w :=
  Spec.lift (fun _ _ w hw => hP w hw) fun _ _ w hw => hP w hw

/-- A forfeit closes an open lease that no submission holds, or writes
nothing. -/
theorem forfeit_spec (leaseId hotkey : String) (now : ℚ) : Spec
    (fun w => w = w₀) (forfeit live leaseId hotkey now)
    (fun _ w => ∃ r ∈ w₀.file.leases, r.isOpen = true
        ∧ w₀.mem.submitting.lookup r.leaseId = none
        ∧ w = (closeUnsubmitted live r.toLease now .forfeited w₀).2) fun _ w =>
    w = w₀ := by
  refine (Spec.txn_at (E := fun _ w => w = w₀) (Spec.get_bind ?_)).onError ?_
  · rintro v rfl
    split
    next => exact .raise fun _ hu => hu
    next r hrow =>
      refine .ite (fun _ => .raise fun _ hu => hu)
        fun hok => .modify_bind (Spec.pure ?_)
      have hid : r.leaseId = leaseId := by
        simpa using find?_some hrow
      simp only [not_or, not_not, Bool.not_eq_true,
        isSome_eq_false_iff, isNone_iff_eq_none] at hok
      obtain ⟨-, hst, hheld⟩ := hok
      rintro u rfl
      exact ⟨r, mem_of_find?_eq_some hrow,
        by simp [LeaseRow.isOpen, hst], hid ▸ hheld, rfl⟩
  · rintro e w ⟨u, rfl, rfl⟩
    rfl

/-- What `_submittable` answers: the lease to submit is an open row of
the hotkey, not yet due, and nothing was written; a refusal wrote at
most a sweep. -/
theorem submittable_spec (leaseId hotkey : String) (now : ℚ) (w : BookWorld) :
    (∃ r ∈ w.file.leases, r.leaseId = leaseId ∧ r.hotkey = hotkey
        ∧ r.isOpen = true ∧ now < r.expiresAt ∧ w.file.banned hotkey now = false
        ∧ submittable live leaseId hotkey now w = (.ok r.toLease, w)) ∨ ∃ e,
    submittable live leaseId hotkey now w = (.error e, w) ∨ submittable live
    leaseId hotkey now w = (.error e, expire live now w) := by
  unfold submittable
  split
  next => exact .inr ⟨_, .inl rfl⟩
  next r hrow =>
    have hid : r.leaseId = leaseId := by simpa using find?_some hrow
    have hr : r ∈ w.file.leases := mem_of_find?_eq_some hrow
    split
    · exact .inr ⟨_, .inl rfl⟩
    next hh =>
      split
      · exact .inr ⟨_, .inl rfl⟩
      next hst =>
        split
        · exact .inr ⟨_, .inr rfl⟩
        next hexp =>
          split
          · exact .inr ⟨_, .inl rfl⟩
          next hban =>
            refine .inl ⟨r, hr, hid, not_not.1 hh, ?_, not_le.1 hexp,
              by simpa using hban, rfl⟩
            simp [LeaseRow.isOpen, not_not.1 hst]

/-- What an accepted submission did: the lease was open, and its row is
the one that changed. -/
structure SubmitOk (leaseId hotkey : String) (inZone delivered : Bool)
    (now : ℚ) (w₀ : BookWorld) (lease : Lease) (w : BookWorld) : Prop where
  was : ∃ r ∈ w₀.file.leases, r.leaseId = leaseId ∧ r.hotkey = hotkey
    ∧ r.isOpen = true ∧ now < r.expiresAt
    ∧ lease = { r.toLease with state := .submitted }
  world : w = quotaEvent hotkey (fun cfg e =>
      if delivered then e.recordSubmission inZone
      else e.recordExpiry cfg .rejected now)
    (submit.closeRow' leaseId now w₀)

/-- A submission is accepted, or refused with at most a sweep. -/
theorem submit_spec (leaseId hotkey : String) (inZone delivered : Bool)
    (now : ℚ) : Spec (fun w => w = w₀)
    (submit live leaseId hotkey inZone delivered now)
    (SubmitOk leaseId hotkey inZone delivered now w₀) fun _ w => w =
    (submittable live leaseId hotkey now w₀).2 := by
  intro w hw
  subst hw
  unfold submit Prog.txn
  simp only [Prog.bind_run, Prog.get_run, Prog.modify_run, Prog.lift_run]
  rcases submittable_spec live leaseId hotkey now w with
    ⟨r, hr, hid, hh, ho, hexp, -, heq⟩ | ⟨e, heq | heq⟩
  · rw [heq]
    exact ⟨⟨r, hr, hid, hh, ho, hexp, rfl⟩, rfl⟩
  · rw [heq]
    rfl
  · rw [heq]
    rfl

/-- An accepted submission submits its own row, and no other. -/
theorem SubmitOk.kept
    (h : SubmitOk leaseId hotkey inZone delivered now w₀ lease w)
    (hwf : Wf sha256 w₀.file) (hsub : s.submits leaseId) :
    Kept sha256 s w₀ w := by
  obtain ⟨r, hr, hid, -, ho, -, -⟩ := h.was
  rw [h.world]
  refine kept_quotaEvent ((Kept.refl w₀).rows ?_) _ _
  refine forall₂_updateWhere RowMove.keep fun r' hr' hid' => ?_
  have hid' : r'.leaseId = leaseId := by simpa using hid'
  have hrr : r' = r := eq_of_key hwf.ids hr' hr (hid'.trans hid.symm)
  exact RowMove.submit r' now (hrr ▸ ho) (hid' ▸ hsub)

/-- Its rows afterwards. -/
theorem SubmitOk.leases
    (h : SubmitOk leaseId hotkey inZone delivered now w₀ lease w) :
    w.file.leases = updateWhere (fun r => r.leaseId == leaseId)
      (fun r => { r with state := .submitted, closedAt := some now })
      w₀.file.leases := by
  rw [h.world]
  rfl

/-- The lease is not open any more. -/
theorem SubmitOk.shut
    (h : SubmitOk leaseId hotkey inZone delivered now w₀ lease w) :
    ∀ r ∈ w.file.leases, r.leaseId = leaseId → r.isOpen = false := by
  intro r' hr' hid'
  rw [h.leases] at hr'
  obtain ⟨r, -, rfl⟩ := mem_updateWhere.1 hr'
  split
  next => rfl
  next hne =>
    rw [if_neg hne] at hid'
    exact absurd (by simpa using hid') hne

section Methods

variable (hwf : Wf sha256 w₀.file) (hs : s.Sweeps w₀)
include hwf hs

theorem stays_expireDue
    (live : Live) (now : ℚ) : Stays sha256 s w₀ (expireDue live now) := by
  refine Kept.txn (Spec.get_bind ?_) fun _ => Kept.of_eq
  rintro w rfl
  refine .bind (stays_modify
    (kept_expire (Kept.refl w) hwf hs live now)) fun _ => ?_
  exact .pure fun w' hw' => hw'

theorem stays_forfeit (live : Live) (leaseId hotkey : String) (now : ℚ) :
    Stays sha256 s w₀ (forfeit live leaseId hotkey now) := by
  refine (forfeit_spec live leaseId hotkey now).conseq (fun _ hw => hw) ?_
    fun _ _ => Kept.of_eq
  rintro _ w ⟨r, hr, ho, hheld, rfl⟩
  refine kept_closeUnsubmitted (Kept.refl w₀) live r.toLease now _
    (hs r.leaseId hheld) fun r' hr' hid' => ?_
  rw [eq_of_key hwf.ids hr' hr hid']
  exact ho

/-- Whatever it answers, it stays in a sweep's scope. -/
theorem kept_submittable (live : Live) (leaseId hotkey : String) (now : ℚ) :
    Kept sha256 s w₀ (submittable live leaseId hotkey now w₀).2 := by
  rcases submittable_spec live leaseId hotkey now w₀ with
    ⟨r, -, -, -, -, -, -, heq⟩ | ⟨e, heq | heq⟩
  · rw [heq]
    exact Kept.refl _
  · rw [heq]
    exact Kept.refl _
  · rw [heq]
    exact kept_expire (Kept.refl _) hwf hs live now

theorem stays_checkSubmission (live : Live) (leaseId hotkey : String) (now : ℚ) :
    Stays sha256 s w₀ (checkSubmission live leaseId hotkey now) := by
  refine .get_bind ?_
  rintro w rfl
  exact .bind (Kept.txn (stays_modify
    (kept_submittable hwf hs live leaseId hotkey now)) fun _ => Kept.of_eq)
    fun _ => stays_lift _ fun _ hw => hw

/-- A submission closes its own lease's row, and no other but by a
sweep. -/
theorem stays_submit (live : Live) (leaseId hotkey : String)
    (inZone delivered : Bool) (now : ℚ) (hsub : s.submits leaseId) :
    Stays sha256 s w₀ (submit live leaseId hotkey inZone delivered now) := by
  refine (submit_spec live leaseId hotkey inZone delivered now).conseq
    (fun _ hw => hw) (fun _ _ hq => hq.kept hwf hsub) ?_
  intro e w hw
  rw [hw]
  exact kept_submittable hwf hs live leaseId hotkey now

end Methods

/-- What a credit did: an entry of the quota, its slots as they were,
and one more payment told to it, or nothing. -/
def Credited (leaseId : String) (w₀ w : BookWorld) : Prop :=
  w = w₀ ∨ ∃ hotkey event,
    (∀ cfg e, (event cfg e : Entry).inUse = e.inUse) ∧ w =
      { quotaEvent hotkey event w₀ with
        mem := { (quotaEvent hotkey event w₀).mem with
          paidCalls := w₀.mem.paidCalls ++ [leaseId] } }

/-- A credit never raises. -/
theorem credit_spec (leaseId : String) (now : ℚ) :
    Spec (fun w => w = w₀) (credit leaseId now)
      (fun _ w => Credited leaseId w₀ w) fun _ _ => False := by
  intro w hw
  subst hw
  show Credited leaseId w _
  dsimp only
  split
  · exact .inl rfl
  · exact .inr ⟨_, _, fun _ _ => Entry.recordPaid_inUse _ _ _ _ _, rfl⟩

/-- A credit tells the quota of a payment, and nothing else. -/
theorem Credited.kept {leaseId : String} (h : Credited leaseId w₀ w)
    (hs : s.pays) : Kept sha256 s w₀ w := by
  rcases h with rfl | ⟨hotkey, event, -, rfl⟩
  · exact Kept.refl w
  · exact ⟨ReflTransGen.single (Move.frame _ _ rfl rfl rfl rfl rfl rfl),
      rfl, rfl, le_refl _, fun hn => absurd hs hn⟩

theorem stays_credit (hs : s.pays) (leaseId : String) (now : ℚ) :
    Stays sha256 s w₀ (credit leaseId now) :=
  (credit_spec leaseId now).conseq (fun _ hw => hw)
    (fun _ _ hq => hq.kept hs) fun _ _ hf => hf.elim

-- ===== checkpoints

/-- What an adoption may leave: the world as it was, or the new
checkpoint, its guards met. -/
def Adopted (sha256 : List UInt8 → List UInt8) (k : Int)
    (urandom : List UInt8) (now : ℚ) (w₀ w : BookWorld) : Prop :=
  w = w₀ ∨ ∃ commitment, secretCommitment sha256 urandom k = .ok commitment
    ∧ sqlInt k = .ok () ∧ (∀ latest ∈ w₀.file.latest, latest < k)
    ∧ (∀ r ∈ w₀.file.secrets, r.k ≠ k) ∧ w = { w₀ with
      file := w₀.file.adopted w₀.mem.config.maxLag k urandom commitment now }

/-- An adoption that raises changes nothing. -/
theorem adoptTxn_spec (k : Int) (urandom : List UInt8) (now : ℚ) :
    Spec (fun w => w = w₀) (adoptTxn sha256 k urandom now)
      (fun _ w => Adopted sha256 k urandom now w₀ w) fun _ w => w = w₀ := by
  -- reading the commitment on record writes nothing
  have hread : Spec (Adopted sha256 k urandom now w₀) (adoptTxn.commitmentOf k)
      (fun _ w => Adopted sha256 k urandom now w₀ w)
      fun _ w => Adopted sha256 k urandom now w₀ w := by
    refine .get_bind fun v hv => ?_
    split
    · exact .pure fun _ hu => hu ▸ hv
    · exact .raise fun _ hu => hu ▸ hv
  have hnew : (∀ latest ∈ w₀.file.latest, latest < k) →
      Spec (fun w => w = w₀) (adoptTxn.adoptNew sha256 k urandom now
        >>= fun _ => adoptTxn.commitmentOf k)
        (fun _ w => Adopted sha256 k urandom now w₀ w)
        fun _ w => Adopted sha256 k urandom now w₀ w := by
    intro hlatest
    refine .bind (Q := fun _ w => Adopted sha256 k urandom now w₀ w) ?_
      fun _ => hread
    refine .lift_bind (fun commitment hc => ?_) fun _ _ => .inl rfl
    refine .lift_bind (fun _ hfits => .get_bind ?_)
      fun _ _ => .inl rfl
    rintro v rfl
    refine .ite (fun _ => .raise fun _ hu => .inl hu) fun hany => ?_
    refine .lift_bind (fun _ _ => ?_) fun _ _ => .inl rfl
    refine .lift_bind (fun _ _ => .modify ?_) fun _ _ => .inl rfl
    rintro u rfl
    exact .inr ⟨commitment, hc, hfits, hlatest, by simpa using hany, rfl⟩
  refine .lift_bind (fun _ _ => ?_) fun _ _ => rfl
  refine (Spec.txn_at (E := fun _ w => Adopted sha256 k urandom now w₀ w)
    (Spec.get_bind ?_)).onError ?_
  · rintro v rfl
    split
    next latest hl =>
      refine .ite (fun _ => .raise fun _ hu => .inl hu) fun hge => ?_
      refine .ite (fun _ => hread.onPre fun _ hu => .inl hu)
        fun hne => hnew ?_
      intro latest' hl'
      rw [hl, mem_some_iff] at hl'
      omega
    next hl =>
      refine hnew fun latest' hl' => ?_
      rw [hl] at hl'
      cases hl'
  · rintro e w ⟨u, rfl | ⟨c, -, -, -, -, rfl⟩, rfl⟩
    · rfl
    · rfl

theorem stays_adoptTxn {k : Int} {urandom : List UInt8}
    (hs : s.adopts k urandom) (now : ℚ) :
    Stays sha256 s w₀ (adoptTxn sha256 k urandom now) := by
  refine (adoptTxn_spec k urandom now).conseq (fun _ hw => hw) ?_
    fun _ _ => Kept.of_eq
  rintro _ w (rfl | ⟨c, hc, hfits, hlatest, hnew, rfl⟩)
  · exact Kept.refl w
  · exact (Kept.refl w₀).step (Move.adopt _ _ k urandom c now hs
      w₀.mem.config.maxLag_nonneg hfits hlatest hnew hc) rfl rfl rfl rfl

-- ===== prompts

/-- What a recorded outcome did: the prompt has a state, and the scan
says whether it had none. -/
structure OutcomeOk (sha256 : List UInt8 → List UInt8) (s : Scope)
    (w₀ : BookWorld) (environment : String) (promptIdx checkpoint : Int)
    (scan : Scan) (w : BookWorld) : Prop where
  kept : Kept sha256 s w₀ w
  mem : w.mem = w₀.mem
  leases : w.file.leases = w₀.file.leases
  quota : w.file.quota = w₀.file.quota
  first : scan.firstScan = (w₀.file.prompt environment promptIdx).isNone
  prompt : ∃ p ∈ w.file.prompts, p.environment = environment
    ∧ p.promptIdx = promptIdx
  fitsPrompt : sqlInt promptIdx = .ok ()
  fitsK : sqlInt checkpoint = .ok ()

/-- What the two binds of an outcome checked. -/
theorem fits_of_checks {checkpoint : Int} {til : Option Int} (h : (do
      sqlInt checkpoint
      match til with
      | none => pure ()
      | some til => sqlInt til) = Except.ok ()) :
    sqlInt checkpoint = .ok () ∧ ∀ t ∈ til, t < 2 ^ 63 := by
  cases hc : sqlInt checkpoint with
  | error e =>
    rw [hc] at h
    cases h
  | ok u =>
    rw [hc] at h
    refine ⟨rfl, fun t ht => ?_⟩
    rw [mem_def.1 ht] at h
    simp only [sqlInt] at h
    split at h
    next hfit => exact hfit.2
    next => cases h

/-- What an outcome that returns did: its scan is appended, and its
prompt moved by the env's cooldown. -/
structure Recorded (live : Live) (environment : String)
    (promptIdx checkpoint : Int) (rewards : List ℚ) (verdict : Verdict)
    (now : ℚ) (w₀ : BookWorld) (scan : Scan) (w : BookWorld) : Prop where
  fitsPrompt : sqlInt promptIdx = .ok ()
  fitsK : sqlInt checkpoint = .ok ()
  done : ∃ cooldown, live.cooldownOf environment = some cooldown
    ∧ (∀ til ∈ (moveOf w₀.file environment promptIdx checkpoint verdict
        cooldown).2.1, til < 2 ^ 63)
    ∧ ∃ book, recordScan environment promptIdx checkpoint rewards verdict now
        (moveOf w₀.file environment promptIdx checkpoint verdict cooldown)
        w₀.file = (scan, book) ∧ w = { w₀ with file := book }

/-- An outcome that raises changes nothing. -/
theorem recordOutcome_run (live : Live) (environment : String)
    (promptIdx checkpoint : Int) (rewards : List ℚ) (verdict : Verdict)
    (now : ℚ) : Spec (fun w => w = w₀) (recordOutcome live environment
      promptIdx checkpoint rewards verdict now)
      (Recorded live environment promptIdx checkpoint rewards verdict now w₀)
      fun _ w => w = w₀ := by
  refine .get_bind ?_
  rintro w rfl
  refine .lift_bind (fun cooldown hc => ?_) fun _ _ => rfl
  have hcool : live.cooldownOf environment = some cooldown := by
    simp only [bind, Except.bind, pure, Except.pure] at hc
    repeat' split at hc
    all_goals cases hc
    assumption
  refine .txn_mem (Spec.lift_bind (fun _ hp => .get_bind ?_)
    fun _ _ => rfl)
  rintro v rfl
  refine .lift_bind (fun _ hk => ?_) fun _ _ => rfl
  obtain ⟨hk, htil⟩ := fits_of_checks hk
  refine .modify_bind (Spec.pure ?_)
  rintro u rfl
  exact ⟨hp, hk, cooldown, hcool, htil, _, rfl, rfl⟩

theorem recordOutcome_spec (hs : s.scans) (live : Live) (environment : String)
    (promptIdx checkpoint : Int) (rewards : List ℚ) (verdict : Verdict)
    (now : ℚ) : Spec (fun w => w = w₀) (recordOutcome live environment promptIdx
      checkpoint rewards verdict now)
      (OutcomeOk sha256 s w₀ environment promptIdx checkpoint)
      fun _ w => w = w₀ := by
  refine (recordOutcome_run live environment promptIdx checkpoint rewards
    verdict now).onValue ?_
  rintro scan w ⟨hp, hk, cooldown, -, htil, book, hbook, rfl⟩
  cases hbook
  exact ⟨(Kept.refl w₀).step (Move.scan w₀.file environment promptIdx
    checkpoint rewards verdict now _ hs htil) rfl rfl rfl rfl, rfl, rfl, rfl,
    rfl, ⟨_, mem_concat_self, rfl, rfl⟩, hp, hk⟩

theorem stays_recordOutcome (hs : s.scans) (live : Live)
    (environment : String) (promptIdx checkpoint : Int) (rewards : List ℚ)
    (verdict : Verdict) (now : ℚ) :
    Stays sha256 s w₀ (recordOutcome live environment promptIdx checkpoint
      rewards verdict now) := by
  exact (recordOutcome_spec hs live environment promptIdx checkpoint
    rewards verdict now).conseq (fun _ hw => hw) (fun _ _ hq => hq.kept)
    fun _ _ => Kept.of_eq

/-- The same state, but for when it began. -/
theorem PromptMove.same (n n' : Nat) {r r' : PromptRow}
    (he : r'.entry = r.entry) (hs : r'.seq = r.seq) : PromptMove n n' r r' := by
  simp only [entry, PromptEntry.mk.injEq] at he
  obtain ⟨henv, hidx, hst, htil⟩ := he
  refine ⟨henv, hidx, .inl ⟨?_, hs⟩, fun til h => ⟨til, htil ▸ h, le_refl _⟩⟩
  simp only [entry, henv, hidx, hst, htil]

theorem PromptMove.refl (n n' : Nat) (r : PromptRow) : PromptMove n n' r r :=
  PromptMove.same n n' rfl rfl

theorem shortens_iff {r : PromptRow} {env : String} {cooldown : Int} :
    r.shortens env cooldown = true ↔ r.environment = env
      ∧ r.state = .cooldown ∧ ∃ start ∈ r.startK, ∃ til ∈ r.untilK,
        start + cooldown < til := by
  unfold shortens
  cases r.startK <;> cases r.untilK <;> simp [and_assoc]

variable {r r' : PromptRow}

/-- The columns that decide a prompt's life. -/
def PromptRow.life (r : PromptRow) : PromptRow :=
  { r with seq := 0, revised := false }

/-- One env of a pass. -/
def PromptRow.revise (r : PromptRow) (ec : String × Int) : PromptRow :=
  if r.shortens ec.1 ec.2 then { r with untilK := r.startK.map (· + ec.2) }
  else r

/-- The same prompt in the same state, its cooldown no longer. -/
structure Shortened (r r' : PromptRow) : Prop where
  environment : r'.environment = r.environment
  promptIdx : r'.promptIdx = r.promptIdx
  state : r'.state = r.state
  startK : r'.startK = r.startK
  shorter : ∀ til' ∈ r'.untilK, ∃ til ∈ r.untilK, til' ≤ til
  isSome : r'.untilK.isSome = r.untilK.isSome

theorem Shortened.refl (r : PromptRow) : Shortened r r :=
  ⟨rfl, rfl, rfl, rfl, fun til h => ⟨til, h, le_refl _⟩, rfl⟩

theorem Shortened.revise (h : Shortened r r') (ec : String × Int) :
    Shortened r (r'.revise ec) := by
  rw [PromptRow.revise]
  split
  next hs =>
    obtain ⟨-, -, start, hstart, til, htil, hlt⟩ := shortens_iff.1 hs
    rw [mem_def] at hstart
    refine ⟨h.environment, h.promptIdx, h.state, h.startK, fun til' h' => ?_,
      ?_⟩
    · obtain ⟨til₀, h₀, hle⟩ := h.shorter til htil
      simp only [hstart, map_some, mem_some_iff] at h'
      exact ⟨til₀, h₀, by omega⟩
    · rw [← h.isSome, htil]
      simp [hstart]
  next => exact h

theorem shortened_foldl (cs : List (String × Int)) (r : PromptRow) :
    Shortened r (cs.foldl revise r) :=
  foldlRecOn cs revise (Shortened.refl r)
    fun _ h ec _ => h.revise ec

/-- A row some envs of a pass later: as `PromptRow.revise` has it, stamped
past `n` if it was stamped. -/
structure Restamped (n n' : Nat) (done : List (String × Int))
    (r r' : PromptRow) : Prop where
  life : r'.life = done.foldl revise r.life
  stamp : r'.entry = r.entry ∧ r'.seq = r.seq ∨ n < r'.seq ∧ r'.seq ≤ n'

theorem Restamped.shortened {n n' : Nat} {done : List (String × Int)}
    (h : Restamped n n' done r r') : Shortened r r' := by
  have hs := shortened_foldl done r.life
  rw [← h.life] at hs
  exact { hs with }

/-- One env more. -/
theorem Restamped.snoc {n n₁ n' : Nat} {done : List (String × Int)}
    {r₁ r₂ : PromptRow} {ec : String × Int} (h : Restamped n n₁ done r r₁)
    (hlife : r₂.life = r₁.life.revise ec)
    (hstamp : r₂.entry = r₁.entry ∧ r₂.seq = r₁.seq ∨ n < r₂.seq ∧ r₂.seq ≤ n')
    (hle : n₁ ≤ n') : Restamped n n' (done ++ [ec]) r r₂ where
  life := by simp [hlife, h.life]
  stamp := by
    rcases hstamp with ⟨he, hs⟩ | hs
    · rw [he, hs]
      exact h.stamp.imp_right fun hs => ⟨hs.1, hs.2.trans hle⟩
    · exact .inr hs

/-- Where a revision pass that began in `w₀` is: only prompt states
changed, each stamped past the sequence at the pass's beginning, with
the pass's own stamp once it has one. -/
structure Revising (w₀ : BookWorld) (done : List (String × Int))
    (stamp : Option Nat) (w : BookWorld) : Prop where
  mem : w.mem = w₀.mem
  file : w.file = { w₀.file with
    prompts := w.file.prompts, scanSeq := w.file.scanSeq }
  grows : w₀.file.scanSeq ≤ w.file.scanSeq
  moved : Forall₂ (Restamped w₀.file.scanSeq w.file.scanSeq done)
    w₀.file.prompts w.file.prompts
  stamped : ∀ n ∈ stamp, w₀.file.scanSeq < n ∧ n ≤ w.file.scanSeq

variable {done : List (String × Int)}

/-- A pass so far is one restamping move. -/
theorem Revising.kept {stamp : Option Nat} (h : Revising w₀ done stamp w)
    (hs : s.scans) : Kept sha256 s w₀ w := by
  refine ⟨ReflTransGen.single ?_, ?_⟩
  · rw [h.file]
    refine Move.restamp _ _ _ hs h.grows (h.moved.imp fun r r' hr => ?_)
    have hsame := hr.shortened
    exact ⟨hsame.environment, hsame.promptIdx, hr.stamp, hsame.shorter⟩
  · rw [h.mem]
    exact MemKept.refl _

/-- One env of the pass. -/
theorem revising_reviseEnv (latest : Int) (done : List (String × Int))
    (acc : Option Nat × List (String × Nat)) (ec : String × Int) :
    Spec (Revising w₀ done acc.1) (reviseEnv latest acc ec)
      (fun acc' w => Revising w₀ (done ++ [ec]) acc'.1 w)
      fun _ w => w.mem = w₀.mem := by
  refine .pointwise fun w hw => .lift_bind
    (fun _ _ => .get_bind ?_) fun _ _ => hw.mem
  rintro w rfl
  refine .ite (fun hnone => .pure ?_) fun _ =>
    Spec.modify_bind (Spec.pure ?_)
  · rintro w' rfl
    rw [List.any_eq_false] at hnone
    have hrows := ((forall₂_and_left _ _).2 ⟨hnone, hw.moved.flip⟩).flip
    refine { hw with moved := hrows.imp fun r r' hr => ?_ }
    obtain ⟨hdue, hr⟩ := hr
    rw [Bool.not_eq_true, Bool.or_eq_false_iff] at hdue
    have hkeep : r'.life.shortens ec.1 ec.2 = false := hdue.1
    refine hr.snoc ?_ (.inl ⟨rfl, rfl⟩) le_rfl
    simp [revise, hkeep]
  · rintro w' rfl
    -- the stamp is the pass's, or the next of the sequence
    have hstamp : w₀.file.scanSeq < acc.1.getD (w.file.scanSeq + 1) := by
      cases hacc : acc.1 with
      | none =>
        have := hw.grows
        simp only [getD_none]
        omega
      | some n =>
        exact (hw.stamped n hacc).1
    refine ⟨hw.mem, ?_, ?_, ?_, ?_⟩
    · rw [hw.file]
    · exact le_trans hw.grows (le_max_left _ _)
    · simp only [updateWhere, List.map_map, forall₂_map_right_iff]
      refine hw.moved.imp fun r r' hr => hr.snoc ?_ ?_ (le_max_left _ _)
      · have hlife : r'.life.shortens ec.1 ec.2 = r'.shortens ec.1 ec.2 := rfl
        simp only [Function.comp_apply, revise, hlife]
        split <;> split <;> rfl
      · simp only [Function.comp_apply]
        split <;> split
        · exact .inr ⟨hstamp, le_max_right _ _⟩
        · exact .inr ⟨hstamp, le_max_right _ _⟩
        · exact .inr ⟨hstamp, le_max_right _ _⟩
        · exact .inl ⟨rfl, rfl⟩
    · intro n hn
      rw [mem_some_iff] at hn
      subst hn
      exact ⟨hstamp, le_max_right _ _⟩

/-- The cooldowns a pass brings the rows in line with: none before a
checkpoint was adopted. -/
def passOf (live : Live) (w : BookWorld) : List (String × Int) :=
  if w.file.latest.isNone then [] else readableCooldowns w.mem.config live

/-- What a revision that returns did. -/
def Pass (live : Live) (w₀ w : BookWorld) : Prop :=
  ∃ stamp, Revising w₀ (passOf live w₀) stamp w

/-- A revision that raises changes nothing. -/
theorem reviseCooldowns_spec : Spec (fun w => w = w₀) (reviseCooldowns live)
    (fun _ w => Pass live w₀ w) fun _ w => w = w₀ := by
  refine (Spec.txn_at (E := fun _ w => w.mem = w₀.mem)
    (Spec.get_bind ?_)).onError ?_
  · intro w hw
    subst hw
    have hstart : Revising w [] none w :=
      ⟨rfl, rfl, le_refl _,
        forall₂_same.2 fun r _ => ⟨rfl, .inl ⟨rfl, rfl⟩⟩, nofun⟩
    cases hlatest : w.file.latest with
    | none =>
      refine .pure ?_
      rintro w' rfl
      exact ⟨none, by simpa [passOf, hlatest] using hstart⟩
    | some latest =>
      have hloop := Spec.loop (I := fun done acc w' => Revising w done acc.1 w')
        (revising_reviseEnv latest) (readableCooldowns w.mem.config live) []
        (none, [])
      refine .bind (hloop.onPre ?_) fun acc => .pure fun w' hw' => ?_
      · rintro w' rfl
        exact hstart
      · exact ⟨acc.1, by simpa [passOf, hlatest] using hw'⟩
  · intro e w hw
    obtain ⟨wᵣ, hmem, heq⟩ := hw
    rw [heq, hmem]

theorem stays_reviseCooldowns (hs : s.scans) (live : Live) :
    Stays sha256 s w₀ (reviseCooldowns live) := by
  refine (reviseCooldowns_spec live).conseq (fun _ hw => hw) ?_
    fun _ _ => Kept.of_eq
  rintro _ w ⟨stamp, hr⟩
  exact hr.kept hs

-- ===== restart

section Boot

variable (h : Kept sha256 s w₀ w)
include h

/-- A reconciled hotkey touches no table the moves are about. -/
theorem kept_reconcile : Kept sha256 s w₀ (reconcile w) := by
  unfold reconcile
  refine foldlRecOn _ reconcileOne h fun w' hw' hotkey _ => ?_
  unfold reconcileOne
  dsimp only
  split
  · exact hw'.memory rfl rfl le_rfl rfl
  · exact hw'.step (Move.frame _ _ rfl rfl rfl rfl rfl rfl) rfl rfl rfl rfl

theorem kept_graceLeases (now : ℚ) : Kept sha256 s w₀ (graceLeases now w) := by
  refine h.rows (forall₂_updateWhere RowMove.keep fun r _ hp => ?_)
  simp only [Bool.and_eq_true, decide_eq_true_eq] at hp
  exact RowMove.extend r _ hp.1 (le_of_lt hp.2)

theorem kept_bootDowntime (now : ℚ) :
    Kept sha256 s w₀ (bootDowntime now w) := by
  unfold bootDowntime
  split
  · exact h
  · exact kept_downtime h _ now

/-- The start of a cooldown is not published. -/
theorem kept_backfillStarts (hs : s.scans) :
    Kept sha256 s w₀ (backfillStarts w) := by
  refine h.step (Move.restamp w.file _ w.file.scanSeq hs le_rfl
    (forall₂_updateWhere (PromptMove.refl _ _) fun r _ _ => ?_))
    rfl rfl rfl rfl
  unfold backfillStart
  split
  · exact PromptMove.refl _ _ r
  · exact PromptMove.same _ _ rfl rfl

end Boot

/-- A boot extends open leases and fills in the start of old cooldowns;
it publishes nothing new and ends nothing. -/
theorem kept_boot (hs : s.scans) (config : BookConfig)
    (quotaConfig : QuotaConfig) (now : ℚ) (drawn : Nat)
    (paidCalls : List String) (b : Book) :
    Kept sha256 s (attach config quotaConfig drawn paidCalls b)
      (boot config quotaConfig now drawn paidCalls b) := by
  have h : Kept sha256 s (attach config quotaConfig drawn paidCalls b)
      (bootDowntime now (attach config quotaConfig drawn paidCalls b)) :=
    kept_bootDowntime (Kept.refl _) now
  have hf : Kept sha256 s (attach config quotaConfig drawn paidCalls b)
      (forgetDowntimes now (bootDowntime now
        (attach config quotaConfig drawn paidCalls b))) :=
    h.step (Move.frame _ _ rfl rfl rfl rfl rfl rfl) rfl rfl rfl rfl
  exact kept_backfillStarts
    (kept_reconcile (kept_graceLeases (kept_setAlive hf now) now)) hs

-- ===== grant

/-- The lease is an open row of the book. -/
def OnRecord (b : Book) (l : Lease) : Prop :=
  ∃ r ∈ b.leases, r.toLease = l ∧ r.isOpen = true

/-- Where a batch that began in `w₀` is: every lease it means to answer
is an open row. -/
structure BatchOk (sha256 : List UInt8 → List UInt8)
    (token : Nat → String) (s : Scope) (w₀ : BookWorld) (batch : Batch)
    (w : BookWorld) : Prop where
  kept : Kept sha256 s w₀ w
  granted : ∀ cl ∈ batch.granted, OnRecord w.file cl.2
  drawn : IdsDrawn token w₀ → IdsDrawn token w

/-- A resend is answered with the requester's own open row. -/
theorem onRecord_heldLease {hotkey environment : String}
    {prompt checkpoint : Int} {l : Lease}
    (h : heldLease w hotkey environment prompt checkpoint = some l) :
    OnRecord w.file l := by
  unfold heldLease at h
  rw [map_eq_some_iff] at h
  obtain ⟨r, hr, rfl⟩ := h
  have hp := find?_some hr
  simp only [LeaseRow.openOf, Bool.and_eq_true] at hp
  exact ⟨r, mem_of_find?_eq_some hr, rfl, hp.1.1.1.2⟩

/-- One prompt before the shuffle: what it grants, it grants again. -/
theorem sortPrompt_granted (i : Nat) (r : LeaseRequest) (acc : Batch × Nat)
    (prompt : Int) (h : ∀ cl ∈ acc.1.granted, OnRecord w.file cl.2) :
    ∀ cl ∈ (sortPrompt w i r acc prompt).1.granted, OnRecord w.file cl.2 := by
  unfold sortPrompt
  dsimp only
  split
  · exact h
  · split
    next lease hl => exact forall_put h (onRecord_heldLease hl)
    next =>
      split
      · exact h
      · exact h

/-- Sorting the requests keeps what sorting one prompt keeps. -/
theorem sortRequests_keeps {I : Batch → Prop}
    (hstep : ∀ i r acc p, I acc.1 → I (sortPrompt w i r acc p).1)
    (requests : List LeaseRequest) (batch : Batch) (h : I batch) :
    I (sortRequests w requests batch) := by
  refine foldlRecOn (motive := I) _ _ h fun b hb ri _ => ?_
  exact foldlRecOn (motive := fun a : Batch × Nat => I a.1) _ _ hb
    fun a ha p _ => hstep ri.2 ri.1 a p ha

theorem sortRequests_granted (requests : List LeaseRequest) (batch : Batch)
    (h : ∀ cl ∈ batch.granted, OnRecord w.file cl.2) :
    ∀ cl ∈ (sortRequests w requests batch).granted, OnRecord w.file cl.2 :=
  sortRequests_keeps (I := fun b => ∀ cl ∈ b.granted, OnRecord w.file cl.2)
    sortPrompt_granted requests batch h

/-- The insert of a lease whose key is free: only its id may be taken. -/
theorem insertLease_spec {l : LeaseRow} (hkey : ∀ r ∈ w.file.leases,
      takenBy l.environment l.promptIdx l.checkpoint r = false) :
    Spec (fun v => v = w) (insertLease l)
      (fun _ v => (∀ r ∈ w.file.leases, r.leaseId ≠ l.leaseId)
        ∧ v = { w with file := { w.file with leases := w.file.leases ++ [l] } })
      fun _ v => v = w ∧ ∃ r ∈ w.file.leases, r.leaseId = l.leaseId := by
  refine .get_bind ?_
  rintro v rfl
  refine .ite (fun hany => .raise fun u hu => ⟨hu, ?_⟩) fun hid =>
    Spec.ite (fun hany => ?_) fun _ => .modify fun u hu => ⟨?_, hu ▸ rfl⟩
  · simpa using hany
  · exfalso
    obtain ⟨r, hr, hlive⟩ := List.any_eq_true.1 hany
    have hno := hkey r hr
    simp only [Bool.and_eq_true, Bool.or_eq_true] at hlive
    obtain ⟨⟨⟨he, hp⟩, hk⟩, hs⟩ := hlive
    rcases hs with hs | hs
    · simp [takenBy, he, hp, hs] at hno
    · simp [takenBy, he, hp, hk, hs] at hno
  · simpa using hid

section Claim

variable (sha256 : List UInt8 → List UInt8) (token : Nat → String)
  (requests : List LeaseRequest) (now : ℚ) (lanes : Lanes) (batch : Batch)
  (claim : Nat × Int) (w : BookWorld)

/-- The lease a claim of request `r` is issued. -/
def newLease (r : LeaseRequest) (nonce : List UInt8) : Lease where
  leaseId := token w.mem.drawn
  hotkey := r.hotkey
  environment := r.environment
  promptIdx := claim.2
  checkpoint := r.checkpoint
  nonce := hex nonce
  issuedAt := now
  expiresAt := now + (w.mem.config.expiryS.lookup r.environment).getD 0
  state := .opened

/-- The guards of an issue, met by a claim of request `r`. -/
structure Issuable (r : LeaseRequest) (x : SecretRow) (nonce : List UInt8) :
    Prop where
  secret : w.file.unrevealed r.checkpoint = some x
  fits : sqlInt claim.2 = .ok ()
  free : ∀ l ∈ w.file.leases,
    takenBy r.environment claim.2 r.checkpoint l = false
  life : ∀ p ∈ w.file.prompt r.environment claim.2, p.state ≠ .blacklisted
    ∧ ∀ til ∈ p.untilK, til ≤ lanes.latest.getD 0
  room : 0 < (batch.room.lookup r.hotkey).getD 0
  nonce : leaseNonce sha256 x.secret r.environment claim.2 r.checkpoint
    = .ok nonce
  fresh : ∀ l ∈ w.file.leases, l.leaseId ≠ token w.mem.drawn

/-- What a claim that ends does: it is refused, its lane noted as full
or not, or issued its lease, with every guard met. -/
inductive ClaimDone : Batch → BookWorld → Prop
  | unknown : requests[claim.1]? = none → ClaimDone batch w
  | refused (why : Refusal) (full laneFull : List String) :
      ClaimDone (batch.refuse claim why)
        { w with mem := { w.mem with full, laneFull } }
  | issued (r : LeaseRequest) (x : SecretRow) (nonce : List UInt8) :
      requests[claim.1]? = some r →
      Issuable sha256 token lanes batch claim w r x nonce →
      ClaimDone
        { batch with
          room := put r.hotkey ((batch.room.lookup r.hotkey).getD 0 - 1)
            batch.room
          granted := put claim (newLease token now claim w r nonce)
            batch.granted }
        (quotaEvent r.hotkey (fun cfg e => e.recordLease cfg now)
          { file := { w.file with leases := w.file.leases
              ++ [{ toLease := newLease token now claim w r nonce }] }
            mem := { w.mem with drawn := w.mem.drawn + 1 } })

/-- Why a claim raises: its prompt's id does not fit, its nonce cannot
be drawn, or the id drawn for the lease is taken. Nothing is written. -/
structure ClaimRaised (v : BookWorld) : Prop where
  world : ∃ n, v = { w with mem := { w.mem with drawn := w.mem.drawn + n } }
  cause : ∃ r, requests[claim.1]? = some r ∧ (sqlInt claim.2 ≠ .ok ()
    ∨ (∃ x, w.file.unrevealed r.checkpoint = some x ∧ ∀ nonce,
        leaseNonce sha256 x.secret r.environment claim.2 r.checkpoint
          ≠ .ok nonce)
    ∨ ∃ l ∈ w.file.leases, l.leaseId = token w.mem.drawn)

/-- **One claim of a batch.** -/
theorem grantClaim_done : Spec (fun v => v = w)
    (grantClaim sha256 requests now token lanes batch claim)
    (ClaimDone sha256 token requests now lanes batch claim w)
    fun _ => ClaimRaised sha256 token requests claim w := by
  unfold grantClaim
  cases hr : requests[claim.1]? with
  | none =>
    refine .pure ?_
    rintro v rfl
    exact .unknown hr
  | some r =>
    refine .get_bind ?_
    rintro w rfl
    have hrefuse : ∀ why, Spec (fun v => v = w)
        (pure (batch.refuse claim why) : BookProg Batch)
        (ClaimDone sha256 token requests now lanes batch claim w)
        fun _ => ClaimRaised sha256 token requests claim w := by
      refine fun why => .pure ?_
      rintro v rfl
      exact .refused why v.mem.full v.mem.laneFull
    split
    · exact hrefuse _
    next x hx =>
    refine .lift_bind (fun _ hfits => ?_) fun e he =>
      ⟨⟨0, rfl⟩, r, hr, .inl (by rw [he]; exact nofun)⟩
    refine .ite (fun _ => hrefuse _) fun hfree => ?_
    refine .ite (fun _ => hrefuse _) fun hblack => ?_
    refine .ite (fun _ => hrefuse _) fun hcool => ?_
    refine .ite (fun _ => hrefuse _) fun hroom => ?_
    refine .ite (fun _ => .modify_bind (Spec.pure ?_)) fun _ => ?_
    · rintro v rfl
      exact .refused _ _ _
    refine .ite (fun _ => .modify_bind (Spec.pure ?_)) fun _ => ?_
    · rintro v rfl
      exact .refused _ _ _
    refine .modify_bind (Spec.lift_bind (fun nonce hn => ?_) fun e he => ?_)
    · have hfree : ∀ l ∈ w.file.leases,
          takenBy r.environment claim.2 r.checkpoint l = false := by
        simpa using hfree
      refine .bind ((insertLease_spec hfree).onError ?_) fun _ => ?_
      · rintro e v ⟨rfl, hid⟩
        exact ⟨⟨1, rfl⟩, r, hr, .inr (.inr hid)⟩
      · rintro v ⟨hfresh, rfl⟩
        refine .issued r x nonce hr ⟨hx, hfits, hfree, fun p hp => ⟨?_, ?_⟩,
          not_le.1 hroom, hn, hfresh⟩
        · exact fun hs => hblack ⟨p, hp, hs⟩
        · exact fun til ht => not_lt.1 fun hlt => hcool ⟨p, hp, til, ht, hlt⟩
    · refine ⟨⟨1, rfl⟩, r, hr, .inr (.inl ⟨x, hx, ?_⟩)⟩
      rw [he]
      exact nofun

end Claim

/-- One claim keeps the batch in its scope. -/
theorem ClaimDone.batchOk {requests : List LeaseRequest} {lanes : Lanes}
    {batch batch' : Batch} {claim : Nat × Int} {v : BookWorld}
    (hd : ClaimDone sha256 token requests now lanes batch claim w batch' v)
    (hs : ∀ i, w₀.mem.drawn ≤ i → s.issues (token i))
    (hw : BatchOk sha256 token s w₀ batch w) :
    BatchOk sha256 token s w₀ batch' v := by
  cases hd with
  | unknown => exact hw
  | refused why full laneFull =>
    exact ⟨hw.kept.memory rfl rfl le_rfl rfl, hw.granted, hw.drawn⟩
  | issued r x nonce hr h =>
    have hx := find?_some h.secret
    simp only [Bool.and_eq_true, beq_iff_eq, isNone_iff_eq_none] at hx
    have hkept : Kept sha256 s w₀ { w with
        mem := { w.mem with drawn := w.mem.drawn + 1 } } :=
      hw.kept.memory rfl rfl (Nat.le_succ _) rfl
    refine ⟨?_, ?_, ?_⟩
    · apply kept_quotaEvent
      exact hkept.step (Move.issue w.file _ x nonce (hs _ hw.kept.mem.drawn)
        rfl h.fits h.fresh h.free (mem_of_find?_eq_some h.secret) hx.1
        hx.2 h.nonce rfl) rfl rfl rfl rfl
    · refine forall_put (fun cl hcl => ?_) ⟨_, mem_concat_self, rfl, rfl⟩
      obtain ⟨l, hl, heq, ho⟩ := hw.granted cl hcl
      exact ⟨l, mem_append_left _ hl, heq, ho⟩
    · refine fun h₀ => forall_snoc (fun l hl => ?_)
        ⟨w.mem.drawn, Nat.lt_succ_self _, rfl⟩
      obtain ⟨i, hi, hid⟩ := hw.drawn h₀ l hl
      exact ⟨i, Nat.lt_succ_of_lt hi, hid⟩

theorem grantClaim_spec (hs : ∀ i, w₀.mem.drawn ≤ i → s.issues (token i))
    (requests : List LeaseRequest) (now : ℚ) (lanes : Lanes) (batch : Batch)
    (claim : Nat × Int) : Spec (BatchOk sha256 token s w₀ batch)
      (grantClaim sha256 requests now token lanes batch claim)
      (fun batch' w => BatchOk sha256 token s w₀ batch' w)
      fun _ w => Kept sha256 s w₀ w := by
  refine .pointwise fun w hw => (grantClaim_done sha256 token requests now
    lanes batch claim w).conseq (fun _ hv => hv) ?_ ?_
  · exact fun _ _ hd => hd.batchOk hs hw
  · rintro e v ⟨⟨n, rfl⟩, -⟩
    exact hw.kept.memory rfl rfl (Nat.le_add_right _ _) rfl

/-- Every lease of the answers was granted. -/
theorem mem_answers {batch : Batch} {requests : List LeaseRequest}
    {a : LeaseAnswer} (ha : a ∈ batch.answers requests) {l : Lease}
    (hl : l ∈ a.leases) : ∃ claim, (claim, l) ∈ batch.granted := by
  obtain ⟨ri, -, rfl⟩ := List.mem_map.1 ha
  obtain ⟨p, -, hp⟩ := mem_filterMap.1 hl
  exact ⟨(ri.2, p), mem_of_lookup hp⟩

/-- What a grant that answered did: it stayed in its scope, and what it
answers are open rows of the book it leaves. -/
structure GrantOk (sha256 : List UInt8 → List UInt8)
    (token : Nat → String) (s : Scope) (w₀ : BookWorld)
    (answers : List LeaseAnswer) (w : BookWorld) : Prop where
  kept : Kept sha256 s w₀ w
  granted : ∀ a ∈ answers, ∀ l ∈ a.leases, OnRecord w.file l
  drawn : IdsDrawn token w₀ → IdsDrawn token w

/-- **A grant.** One that raises leaves the tables as they were. -/
theorem grant_spec (hwf : Wf sha256 w₀.file) (hs : s.Sweeps w₀)
    (hi : ∀ i, w₀.mem.drawn ≤ i → s.issues (token i)) (live : Live)
    (requests : List LeaseRequest) (now : ℚ) (shuffle : Shuffle)
    (buffer : List String) : Spec (fun w => w = w₀)
      (grant sha256 live requests now shuffle token buffer)
      (GrantOk sha256 token s w₀)
      fun _ w => Kept sha256 s w₀ w ∧ w.file = w₀.file := by
  refine .get_bind ?_
  rintro w rfl
  refine .lift_bind (fun _ _ => ?_) fun _ _ => ⟨Kept.refl w, rfl⟩
  refine (Spec.txn (E := fun _ w' => Kept sha256 s w w') ?_).onError ?_
  · refine .bind (Q := fun _ w' => Kept sha256 s w w'
      ∧ (IdsDrawn token w → IdsDrawn token w'))
      (Spec.modify ?_) fun _ => ?_
    · rintro w' rfl
      have hsweep : Kept sha256 { closes := s.closes } w'
          (expire live now w') :=
        kept_expire (s := { closes := s.closes }) (Kept.refl w') hwf
          (fun id hid => hs id hid) live now
      exact ⟨kept_expire (Kept.refl w') hwf hs live now,
        hsweep.idsDrawn fun _ => id⟩
    refine .get_bind fun v hv => ?_
    refine .bind (Q := fun _ w' => w' = v) (Spec.lift
      (fun _ _ w' hw' => hw') fun _ _ w' hw' => hw' ▸ hv.1)
      fun laneMax => ?_
    refine .bind (Q := fun batch w' =>
      BatchOk sha256 token s w batch w') ?_ fun batch =>
        Spec.pure fun w' hw' => ⟨hw'.kept, ?_, hw'.drawn⟩
    · refine (Spec.loop (I := fun _ batch w' =>
        BatchOk sha256 token s w batch w') (fun _ batch claim =>
          grantClaim_spec hi requests now _ batch claim) _ [] _).onPre ?_
      rintro w' rfl
      exact ⟨hv.1, sortRequests_granted requests _
        (fun cl hcl => by cases hcl), hv.2⟩
    · intro a ha l hl
      obtain ⟨claim, hcl⟩ := mem_answers ha hl
      exact hw'.granted _ hcl
  · rintro e w' ⟨v, u, rfl, hu, rfl⟩
    exact ⟨⟨ReflTransGen.refl, hu.mem⟩, rfl⟩

end Reliquary.Rl
