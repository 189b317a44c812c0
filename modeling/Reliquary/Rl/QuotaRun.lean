/-
The quota's entries along a run of the validator.

# The result

From a first start, in any interleaving of calls and restarts in which
no call raises after it told the controller something (`SubOp.Safe`),
the entries are their rows and count the open leases
(`quota_atomic_of_safe`). Without the condition they are not: a grant
and a submission that raise late leave the memory of a change whose rows
were put back (`quota_not_atomic`).

# Shape of the argument

Most calls touch the book by a credit or not at all (`Paid`). A
submission is the one call that tells the controller before its
transaction is over. Its lease was checked when it began, so it is not
swept now (`TaskOk`); its group is new to every table; and a scan that
is safe does not raise: no cause of `RecordFails` is left.
-/
import Reliquary.Rl.Payment
import Reliquary.Rl.QuotaBook

namespace Reliquary.Rl

open Store Relation List Option RlSubmissions
open Prog (Spec)

variable {sha256 : List UInt8 → List UInt8} {token : Nat → String}
  {w w₀ : SubWorld} {v : BookWorld} {α : Type} {live : Live}

-- ===== the lease of a submission

/-- A submission whose lease was checked when it began: the lease's id
was drawn, it is not due at the arrival as long as it is open, and its
integers fit. -/
structure TaskOk (token : Nat → String) (v : BookWorld) (t : Task) : Prop where
  drawn : ∃ i < v.mem.drawn, t.leaseId = token i
  inTime : ∀ r ∈ v.file.leases, r.leaseId = t.leaseId → r.isOpen = true →
    t.arrivedAt < r.expiresAt
  prompt : 0 ≤ t.lease.promptIdx ∧ t.lease.promptIdx < 2 ^ 63
  checkpoint : 0 ≤ t.lease.checkpoint ∧ t.lease.checkpoint < 2 ^ 63

/-- It stays one as the book grows: an open lease gets later, and the
ids drawn since are others. -/
theorem TaskOk.grows (hinj : Function.Injective token) {v' : BookWorld}
    {t : Task} (h : TaskOk token v t)
    (hb : BookGrows sha256 token v v') : TaskOk token v' t := by
  obtain ⟨i, hi, hid⟩ := h.drawn
  refine ⟨⟨i, lt_of_lt_of_le hi hb.drawn, hid⟩, ?_, h.prompt, h.checkpoint⟩
  intro r' hr' hrid ho
  rcases hb.leases r' hr' with ⟨r, hr, hev⟩ | ⟨j, hj, hrj⟩
  · obtain ⟨hopen, hlater⟩ := hev.opened ho
    have hbefore := h.inTime r hr (hev.leaseId.symm.trans hrid) hopen
    exact lt_of_lt_of_le hbefore hlater
  · exfalso
    have hij : i = j := hinj (by rw [← hid, ← hrj, hrid])
    omega

/-- An integer that eight bytes and an SQL parameter hold. -/
theorem fits_of_u64 {n : Int} {bytes : List UInt8} (h : u64 n = .ok bytes)
    (hs : sqlInt n = .ok ()) : 0 ≤ n ∧ n < 2 ^ 63 := by
  constructor
  · by_contra hneg
    unfold u64 at h
    rw [if_pos (not_le.1 hneg)] at h
    cases h
  · unfold sqlInt at hs
    split at hs
    next hfit => exact hfit.2
    next => cases hs

/-- A lease whose nonce was drawn has integers with eight bytes. -/
theorem u64_of_nonce {secret : List UInt8} {l : Lease}
    (h : NonceOf sha256 secret l) :
    (∃ p, u64 l.promptIdx = .ok p) ∧ ∃ k, u64 l.checkpoint = .ok k := by
  obtain ⟨nonce, hn, -⟩ := h
  unfold leaseNonce at hn
  cases hp : u64 l.promptIdx with
  | error e =>
    rw [hp] at hn
    cases hn
  | ok p =>
    refine ⟨⟨p, rfl⟩, ?_⟩
    cases hk : u64 l.checkpoint with
    | error e =>
      rw [hp, hk] at hn
      cases hn
    | ok k => exact ⟨k, rfl⟩

/-- The lease a submission is told when it begins. -/
theorem taskOk_begun (hwf : Wf sha256 v.file) (hids : IdsDrawn token v)
    {t : Task} {r : LeaseRow} (hr : r ∈ v.file.leases)
    (hid : r.leaseId = t.leaseId) (hl : t.lease = r.toLease)
    (hexp : t.arrivedAt < r.expiresAt) : TaskOk token v t := by
  obtain ⟨x, hx, hxk, hnonce⟩ := hwf.forced r hr
  obtain ⟨⟨p, hp⟩, k, hk⟩ := u64_of_nonce hnonce
  have hfitsK := hwf.fitsK x hx
  rw [hxk] at hfitsK
  constructor
  · obtain ⟨i, hi, hri⟩ := hids r hr
    exact ⟨i, hi, hid.symm.trans hri⟩
  · intro r' hr' hid' _
    rw [eq_of_key hwf.ids hr' hr (hid'.trans hid.symm)]
    exact hexp
  · rw [hl]
    exact fits_of_u64 hp (hwf.fitsPrompt r hr)
  · rw [hl]
    exact fits_of_u64 hk hfitsK

/-- A lease that is not due is not swept. -/
theorem submittable_inTime {leaseId hotkey : String} {now : ℚ}
    (h : ∀ r ∈ v.file.leases, r.leaseId = leaseId → r.isOpen = true →
      now < r.expiresAt) (live : Live) :
    (submittable live leaseId hotkey now v).2 = v := by
  unfold submittable
  split
  · rfl
  next r hrow =>
  have hid : r.leaseId = leaseId := by simpa using find?_some hrow
  split
  · rfl
  split
  · rfl
  next hopen =>
  split
  next hdue =>
    have ho : r.isOpen = true := by simpa [LeaseRow.isOpen] using hopen
    exact absurd (h r (mem_of_find?_eq_some hrow) hid ho) (not_lt.2 hdue)
  next =>
    split
    · rfl
    · rfl

-- ===== a call that is safe

/-- What keeps a scan from raising: its environment is served, the
cooldown can be read, and the cooldown's end fits an SQL parameter. -/
structure SafeScan (live : Live) (v : BookWorld) (environment : String)
    (checkpoint : Int) : Prop where
  served : (v.mem.config.expiryS.lookup environment).isSome = true
  cooldown : ∃ c, live.cooldownOf environment = some c ∧ 0 ≤ c
    ∧ max checkpoint (v.file.latest.getD 0) + c < 2 ^ 63

/-- The call does not raise once it has told the controller
something. -/
def SubOp.Safe (w : SubWorld) : SubOp → Prop
  | .book op _ => op.Safe
  | .record live task graded _ => graded.refused = true
      ∨ SafeScan live (bookPart.view w) task.lease.environment
          task.lease.checkpoint
  | _ => True

/-- The end of a safe cooldown fits. -/
theorem moveOf_fits (hwf : Wf sha256 v.file) (environment : String)
    (promptIdx : Int) {checkpoint cooldown : Int} (hk : 0 ≤ checkpoint)
    (hc : 0 ≤ cooldown)
    (hfit : max checkpoint (v.file.latest.getD 0) + cooldown < 2 ^ 63)
    (verdict : Verdict) :
    ∀ til ∈ (moveOf v.file environment promptIdx checkpoint verdict
      cooldown).2.1, sqlInt til = .ok () := by
  unfold moveOf
  dsimp only
  split
  · intro til htil
    cases htil
  · intro til htil
    rw [mem_some_iff] at htil
    have hrunning : ((v.file.prompt environment promptIdx).bind
        fun p => p.untilK).getD 0 < 2 ^ 63 := by
      cases hrow : v.file.prompt environment promptIdx with
      | none => norm_num
      | some p =>
        show p.untilK.getD 0 < 2 ^ 63
        cases hu : p.untilK with
        | none => norm_num
        | some u =>
          exact hwf.fitsUntil p (mem_of_find?_eq_some hrow) u hu
    refine sqlInt_ok ?_ ?_
    · omega
    · omega

/-- A safe scan does not raise. -/
theorem recordOutcome_total (hwf : Wf sha256 v.file)
    {environment : String} {promptIdx checkpoint : Int}
    (hsafe : SafeScan live v environment checkpoint)
    (hp : 0 ≤ promptIdx ∧ promptIdx < 2 ^ 63)
    (hk : 0 ≤ checkpoint ∧ checkpoint < 2 ^ 63) {rewards : List ℚ}
    (hr : rewards ≠ []) (verdict : Verdict) (now : ℚ) :
    Spec (fun u => u = v) (recordOutcome live environment promptIdx
      checkpoint rewards verdict now) (fun _ _ => True) fun _ _ => False := by
  obtain ⟨c, hcool, hc₀, hc⟩ := hsafe.cooldown
  obtain ⟨pb, hpb⟩ := u64_ok hp.1 hp.2
  obtain ⟨kb, hkb⟩ := u64_ok hk.1 hk.2
  have hc₁ : c < 2 ^ 63 := by omega
  obtain ⟨cb, hcb⟩ := u64_ok hc₀ hc₁
  have hserved : (v.mem.config.expiryS.lookup environment).isNone = false := by
    rw [← not_isSome, hsafe.served]
    rfl
  refine .get_bind ?_
  intro u hu
  subst hu
  refine .lift_bind (fun cooldown hok => ?_) fun e he => ?_
  · have hcd : cooldown = c := by
      simp only [hserved, hpb, hkb, hr, hcool, hcb, Bool.false_eq_true,
        if_false, bind, Except.bind, pure, Except.pure] at hok
      injection hok with hok
      exact hok.symm
    subst hcd
    refine .txn_total (Spec.lift_bind (fun _ _ => .get_bind ?_) fun e he => ?_)
    · intro x hx
      subst hx
      refine .lift_bind (fun _ _ => .modify_bind
        (Spec.pure fun _ _ => trivial)) fun e he => ?_
      have hfits := moveOf_fits hwf environment promptIdx hk.1 hc₀ hc verdict
      rw [sqlInt_ok hk.1 hk.2] at he
      split at he
      · cases he
      next til htil =>
        rw [hfits til htil] at he
        cases he
    · rw [sqlInt_ok hp.1 hp.2] at he
      cases he
  · simp only [hserved, hpb, hkb, hr, hcool, hcb, Bool.false_eq_true,
      if_false, bind, Except.bind, pure, Except.pure] at he
    cases he

namespace RlSubmissions

variable {task : Task}

variable {graded : Graded}

/-- A group that was graded was not refused, and has rewards. -/
theorem graded_of_verdict {verdict : Verdict}
    (h : graded.verdict = .ok (.graded verdict)) :
    graded.refused = false ∧ graded.rewards ≠ [] := by
  unfold Graded.verdict at h
  split at h
  · cases h
  next href =>
    refine ⟨by simpa using href, ?_⟩
    intro hnil
    simp [classifyGroup, hnil, Except.map] at h

/-- What makes a submission raise, made safe: its lease is not due, and
nothing else is left. -/
theorem RecordFails.safe (hw : SubWf sha256 token w₀)
    (ht : TaskOk token (bookPart.view w₀) task)
    {verdict : GroupVerdict} (hv : graded.verdict = .ok verdict)
    (hsafe : graded.refused = true ∨ SafeScan live (bookPart.view w₀)
      task.lease.environment task.lease.checkpoint)
    (h : RecordFails live task graded verdict w₀ w) : w = w₀ := by
  have hfitsP := sqlInt_ok ht.prompt.1 ht.prompt.2
  have hfitsK := sqlInt_ok ht.checkpoint.1 ht.checkpoint.2
  rcases h with (hswept | ⟨inZone, delivered, lease, v, e, hok, x, v', rfl,
    hraised⟩) | ⟨hfresh, hwhy⟩ | hfits
  · rw [submittable_inTime ht.inTime] at hswept
    exact hswept
  · exfalso
    obtain ⟨href, hrewards⟩ := graded_of_verdict hv
    have hscan : SafeScan live v task.lease.environment
        task.lease.checkpoint := by
      rw [hok.world]
      rcases hsafe with hr | hs
      · cases href.symm.trans hr
      · exact ⟨hs.served, hs.cooldown⟩
    have hk : Kept sha256 { submits := fun id => id = task.leaseId }
        (bookPart.view w₀) v := hok.kept hw.book rfl
    have htotal := recordOutcome_total (hk.wf hw.book) hscan ht.prompt
      ht.checkpoint hrewards x task.arrivedAt v rfl
    rwa [hraised] at htotal
  · exfalso
    rcases hwhy with hk | ⟨x, hx, hid⟩ | ⟨a, ha, hid⟩
    · exact hk hfitsK
    · obtain ⟨row, hrow, hrid, -⟩ := hw.desk.buffered x hx
      exact hfresh row hrow (hrid.trans hid)
    · obtain ⟨row, hrow, hrid, -⟩ := hw.desk.audited a ha
      exact hfresh row hrow (hrid.trans hid)
  · exact absurd ⟨hfitsP, hfitsK⟩ hfits

/-- What a submission did to the book keeps the entries in line. -/
theorem RecordedBook.atomic (hw : SubWf sha256 token w₀)
    (h : QuotaAtomic (bookPart.view w₀)) (hr : RecordedBook task w₀ w) :
    QuotaAtomic (bookPart.view w) := by
  obtain ⟨v, leaseId, ⟨_, _, _, u, hok, hmem, hquota, hleases⟩, hc⟩ := hr.book
  have hat : QuotaAtomic u := h.submitOk hw.book.ids hok
  exact (hat.untold (Untold.of_leases (by rw [hmem]) hquota hleases)).credited
    hc

end RlSubmissions

-- ===== every call

/-- The entries are in line, and each submission being graded had its
lease checked. -/
structure QuotaWf (token : Nat → String) (w : SubWorld) : Prop where
  atomic : QuotaAtomic (bookPart.view w)
  tasks : ∀ t ∈ w.mem.grading, TaskOk token (bookPart.view w) t

/-- The entries are in line, and no submission has begun since. -/
structure AtomicSince (w w' : SubWorld) : Prop where
  atomic : QuotaAtomic (bookPart.view w')
  grading : w'.mem.grading ⊆ w.mem.grading

theorem AtomicSince.refl (h : QuotaAtomic (bookPart.view w)) :
    AtomicSince w w :=
  ⟨h, Subset.refl _⟩

/-- A check passes for an open lease that is not due, and refuses with
at most a sweep. -/
theorem checkSubmission_spec (live : Live) (leaseId hotkey : String) (now : ℚ) :
    Spec (fun u => u = v) (checkSubmission live leaseId hotkey now)
      (fun l u => u = v ∧ ∃ r ∈ v.file.leases, r.leaseId = leaseId
        ∧ r.isOpen = true ∧ now < r.expiresAt ∧ l = r.toLease)
      fun _ u => u = (submittable live leaseId hotkey now v).2 := by
  intro u hu
  subst hu
  unfold checkSubmission Prog.txn
  simp only [Prog.bind_run, Prog.get_run, Prog.modify_run, Prog.lift_run]
  rcases submittable_spec live leaseId hotkey now u with
    ⟨r, hr, hid, -, ho, hexp, -, heq⟩ | ⟨e, heq | heq⟩
  · rw [heq]
    exact ⟨rfl, r, hr, hid, ho, hexp, rfl⟩
  · rw [heq]
  · rw [heq]

/-- A submission begins. -/
theorem quotaWf_begin (hw : SubWf sha256 token w₀) (h : QuotaWf token w₀)
    (live : Live) (leaseId hotkey : String) (rollouts : List Rollout)
    (arrivedAt : ℚ) : Spec (fun w => w = w₀)
      (begin_ live leaseId hotkey rollouts arrivedAt)
      (fun _ w => QuotaWf token w)
      fun _ w => AtomicSince w₀ w := by
  refine .bind ((Spec.within (checkSubmission_spec live leaseId
    hotkey arrivedAt)).onError ?_) fun lease => .pointwise ?_
  · intro e w hx
    obtain ⟨v', hv', heq⟩ := hx
    rw [heq, hv']
    exact ⟨h.atomic.submittable hw.book.ids live leaseId hotkey arrivedAt,
      Subset.refl _⟩
  · intro u hu
    obtain ⟨v', ⟨hv', r, hr, hid, -, hexp, hl⟩, heq⟩ := hu
    rw [hv'] at heq
    subst heq
    refine .modify_bind (Spec.pure ?_)
    intro x hx
    rw [hx]
    refine ⟨h.atomic, ?_⟩
    exact forall_snoc h.tasks (taskOk_begun hw.book hw.ids hr hid hl hexp)

/-- A safe submission ends. -/
theorem atomic_record (hinj : Function.Injective token)
    (hw : SubWf sha256 token w₀) (h : QuotaWf token w₀)
    {task : Task} (ht : task ∈ w₀.mem.grading)
    {graded : Graded} (hsafe : graded.refused = true
      ∨ SafeScan live (bookPart.view w₀) task.lease.environment
          task.lease.checkpoint) (draw : ℚ) : Spec (fun w => w = w₀)
      (record live task graded draw)
      (fun _ w => AtomicSince w₀ w) fun _ w => AtomicSince w₀ w := by
  have hsub : w₀.mem.grading.erase task ⊆ w₀.mem.grading :=
    erase_subset
  refine .modify_bind (Spec.lift_bind (fun verdict hv =>
    Spec.lift_bind (fun tokens _ => ?_) fun _ _ => ⟨h.atomic, hsub⟩)
      fun _ _ => ⟨h.atomic, hsub⟩)
  have hw' : SubWf sha256 token { w₀ with mem := { w₀.mem with
      grading := w₀.mem.grading.erase task } } := hw.memory rfl
  refine .bind ((recordTxn_spec hinj hw' live task graded
    verdict tokens.sum draw).conseq (fun _ hx => hx) ?_ ?_)
      fun _ => .pure fun _ hx => hx
  · rintro _ x ⟨-, hr⟩
    exact ⟨hr.atomic hw' h.atomic, by rw [hr.grading]; exact hsub⟩
  · rintro e x ⟨y, ⟨-, hfails⟩, rfl⟩
    rw [hfails.safe hw' (h.tasks task ht) hv hsafe]
    exact ⟨h.atomic, hsub⟩

/-- A call that credits at most, or changes nothing. -/
theorem QuotaWf.of_paid (sha256 : List UInt8 → List UInt8)
    {p : SubProg α} (h : QuotaWf token w)
    (hp : MakesPaid sha256 token w p) : AtomicSince w (p.run w).2 := by
  refine hp.left (.refl h.atomic) fun _ u hq => ⟨?_, ?_⟩
  · obtain ⟨leaseId, hc⟩ := hq.credited
    exact h.atomic.credited hc
  · rw [hq.grading]
    exact Subset.refl _

/-- Every operation grows the book, a credit from outside too. -/
theorem subStep_grows (hinj : Function.Injective token)
    (hw : SubWf sha256 token w) (op : SubOp) :
    BookGrows sha256 token (bookPart.view w)
      (bookPart.view (subStep sha256 token w op)) := by
  by_cases hc : op.isCredit = true
  · cases op with
    | book op call => exact step_grows hw.book _
    | _ => cases hc
  · exact (subStep_makes hinj hw (by simpa [Served] using hc)).book

/-- The operations that begin no submission. -/
theorem subStep_atomic (hinj : Function.Injective token)
    (hw : SubWf sha256 token w) (h : QuotaWf token w) {op : SubOp}
    (hsafe : op.Safe w) (hop : ∀ live leaseId hotkey rollouts arrivedAt,
      op ≠ .begin_ live leaseId hotkey rollouts arrivedAt) :
    AtomicSince w (subStep sha256 token w op) := by
  cases op with
  | begin_ live leaseId hotkey rollouts arrivedAt =>
    exact absurd rfl (hop live leaseId hotkey rollouts arrivedAt)
  | book op call =>
    refine ⟨step_atomic hinj h.atomic hw.book hw.ids _ ?_, Subset.refl _⟩
    cases op with
    | grant => exact hsafe
    | _ => trivial
  | record live task graded draw =>
    show AtomicSince w (if task ∈ w.mem.grading then _ else w)
    split
    next ht => exact (atomic_record hinj hw h ht hsafe draw).world rfl
    next => exact .refl h.atomic
  | blacklist hotkey til reason now =>
    exact ⟨h.atomic.untold (Untold.of_leases rfl rfl rfl), Subset.refl _⟩
  | reportAudit leaseId result now =>
    exact h.of_paid sha256 (paid_reportAudit leaseId result now)
  | retryAudit leaseId =>
    exact h.of_paid sha256 (paid_retryAudit leaseId)
  | report report moved now =>
    exact h.of_paid sha256 (paid_reportTxn report moved now)
  | restart config quotaConfig submitConfig now =>
    exact ⟨atomic_boot config quotaConfig now _ _ w.file.book, nil_subset _⟩
  | _ => exact ⟨h.atomic, Subset.refl _⟩

/-- **Every safe operation keeps the entries in line.** -/
theorem quotaWf_step (hinj : Function.Injective token)
    (hw : SubWf sha256 token w) (h : QuotaWf token w) {op : SubOp}
    (hsafe : op.Safe w) : QuotaWf token (subStep sha256 token w op) := by
  have hgrows := subStep_grows hinj hw op
  have hkept : AtomicSince w (subStep sha256 token w op) →
      QuotaWf token (subStep sha256 token w op) := fun hk =>
    ⟨hk.1, fun t ht => (h.tasks t (hk.2 ht)).grows hinj hgrows⟩
  by_cases hop : ∃ live leaseId hotkey rollouts arrivedAt,
      op = .begin_ live leaseId hotkey rollouts arrivedAt
  · obtain ⟨live, leaseId, hotkey, rollouts, arrivedAt, rfl⟩ := hop
    rcases (quotaWf_begin hw h live leaseId hotkey rollouts arrivedAt).run
      rfl with ⟨task, -, hq⟩ | ⟨e, -, he⟩
    · exact hq
    · exact hkept he
  · simp only [not_exists] at hop
    exact hkept (subStep_atomic hinj hw h hsafe hop)

-- ===== runs

/-- **The quota is atomic with the lease book** in every run of safe
operations. -/
theorem quota_atomic_of_safe (hinj : Function.Injective token)
    (config : BookConfig) (quotaConfig : QuotaConfig)
    (submitConfig : SubmitConfig) (now : ℚ) {ops : List SubOp}
    (h : Run (subStep sha256 token) SubOp.Safe
      (firstStart config quotaConfig submitConfig now) ops w) :
    QuotaAtomic (bookPart.view w) := by
  have hstart : QuotaWf token
      (firstStart config quotaConfig submitConfig now) := by
    refine ⟨atomic_boot config quotaConfig now 0 [] {}, ?_⟩
    intro t ht
    cases ht
  have hinv := h.invariant (I := fun w => SubWf sha256 token w
    ∧ QuotaWf token w)
    ⟨(subWf_firstStart config quotaConfig submitConfig now).1, hstart⟩
    fun _ op hop hw =>
      ⟨subStep_wf hinj hw.1 op, quotaWf_step hinj hw.1 hw.2 hop⟩
  exact hinv.2.atomic

theorem safeGrant_ask : SafeGrant calm [ask "a" 5 1] := by
  constructor
  · intro answer h
    cases h
  · intro r hr
    rw [mem_singleton] at hr
    rw [hr]
    decide +kernel
  · intro r hr p hp
    rw [mem_singleton] at hr
    rw [hr, ask, mem_singleton] at hp
    rw [hp]
    norm_num

/-- The small validator takes a group for training: every call is safe,
and the entry of its hotkey is its row. -/
theorem quota_atomic_of_safe_taken :
    ((after takenOps).mem.book.quota.lookup "a").isSome = true
      ∧ QuotaAtomic (bookPart.view (after takenOps)) := by
  have hscan : SafeScan calm (bookPart.view (after (takenOps.take 3)))
      "math" 1 := ⟨by decide +kernel, 2, rfl, by norm_num, by decide +kernel⟩
  have hrun : Run (subStep firstByte counted) SubOp.Safe
      (firstStart oneEnv {} {} 0) takenOps (after takenOps) := by
    refine Run.cons _ trivial (Run.cons _ safeGrant_ask (Run.cons _ trivial
      (Run.cons _ (.inr hscan) (Run.cons _ trivial ?_))))
    exact Run.nil _
  exact ⟨by decide +kernel,
    quota_atomic_of_safe counted_injective oneEnv {} {} 0 hrun⟩

/-- Two prompts; no SQL parameter holds the second. -/
def askTwo : LeaseRequest where
  hotkey := "a"
  environment := "math"
  promptIds := [5, 2 ^ 63]
  checkpoint := 1

/-- A grant that raises at its second claim. -/
def lateGrant : List SubOp :=
  takenOps.take 1 ++ [.book (.grant calm [askTwo] 2 inOrder []) rfl]

/-- A submission whose cooldown cannot be read. -/
def lateRecord : List SubOp :=
  takenOps.take 3
    ++ [.record { calm with cooldownOf := fun _ => none } smallTask
      smallGrade 0]

/-- **A call that raises late leaves the two apart.** After the grant the
entry holds a slot that no lease takes, and has no row; after the
submission it has freed the slot of a lease that is open. -/
theorem quota_not_atomic :
    (Free (subStep firstByte counted) (firstStart oneEnv {} {} 0) lateGrant
        (after lateGrant) ∧ (after lateGrant).mem.book.slots "a" = 1
      ∧ (after lateGrant).file.book.inUse "a" = 0
      ∧ (after lateGrant).file.book.quota.lookup "a" = none
      ∧ ¬QuotaAtomic (bookPart.view (after lateGrant)))
    ∧ Free (subStep firstByte counted) (firstStart oneEnv {} {} 0) lateRecord
        (after lateRecord) ∧ (after lateRecord).mem.book.slots "a" = 0
      ∧ (after lateRecord).file.book.inUse "a" = 1
      ∧ ¬QuotaAtomic (bookPart.view (after lateRecord)) := by
  have hrun : ∀ ops, Free (subStep firstByte counted)
      (firstStart oneEnv {} {} 0) ops (after ops) :=
    fun ops => Run.of_list (fun _ _ _ => trivial) _
  have hslots : (after lateGrant).mem.book.slots "a" = 1 := by
    decide +kernel
  have hopen : (after lateGrant).file.book.inUse "a" = 0 := by
    decide +kernel
  have hrow : (after lateGrant).file.book.quota.lookup "a" = none := by
    decide +kernel
  have hslots' : (after lateRecord).mem.book.slots "a" = 0 := by
    decide +kernel
  have hopen' : (after lateRecord).file.book.inUse "a" = 1 := by
    decide +kernel
  refine ⟨⟨hrun _, hslots, hopen, hrow, fun h => ?_⟩,
    hrun _, hslots', hopen', fun h => ?_⟩
  · have heq := h.inUse "a"
    rw [show (bookPart.view (after lateGrant)).mem.slots "a" = 1 from hslots,
      show (bookPart.view (after lateGrant)).file.inUse "a" = 0 from hopen]
      at heq
    cases heq
  · have heq := h.inUse "a"
    rw [show (bookPart.view (after lateRecord)).mem.slots "a" = 0 from hslots',
      show (bookPart.view (after lateRecord)).file.inUse "a" = 1
        from hopen'] at heq
    cases heq

/-- **A restart repairs the quota**, whatever raised in the run before
it, and safe calls keep it in line from there. -/
theorem restart_realigns (hinj : Function.Injective token)
    {book : BookConfig} {quota : QuotaConfig} {submit : SubmitConfig}
    {first : ℚ} {ops later : List SubOp} {w' : SubWorld}
    (h : Free (subStep sha256 token) (firstStart book quota submit first) ops w)
    (config : BookConfig) (quotaConfig : QuotaConfig)
    (submitConfig : SubmitConfig) (now : ℚ)
    (h' : Run (subStep sha256 token) SubOp.Safe (subStep sha256 token w
      (.restart config quotaConfig submitConfig now)) later w') :
    QuotaAtomic (bookPart.view w') := by
  refine (h'.invariant (I := fun w => SubWf sha256 token w ∧ QuotaWf token w)
    ⟨subStep_wf hinj (subWf_run hinj h) _, atomic_boot .., ?_⟩ ?_).2.atomic
  · -- no submission is being graded
    intro t ht
    cases ht
  · intro u op hop hu
    exact ⟨subStep_wf hinj hu.1 op, quotaWf_step hinj hu.1 hu.2 hop⟩

/-- The slot the late grant held is free again. -/
theorem restart_realigns_late : (after lateGrant).mem.book.slots "a" = 1
    ∧ QuotaAtomic (bookPart.view (subStep firstByte counted (after lateGrant)
        (.restart oneEnv {} {} 9))) :=
  ⟨by decide +kernel, restart_realigns counted_injective
    (Run.of_list (fun _ _ _ => trivial) _) oneEnv {} {} 9 (Run.nil _)⟩

end Reliquary.Rl
