/-
The validator's RL side as a machine: the lease book, the submission
path and the training buffer over one file.

# Interleavings

An operation is what one thread does under the book's lock. A submission
is two of them with the grading in between (`begin_`, `record`), a
training report is its transaction (the re-check before it reads one row
and writes nothing), an audit drain is one operation per audit. So a run
of operations is an interleaving of any number of calls, and the calls
themselves are runs (`Calls`, and the theorems named `*_calls`).

A restart loses the memory and every call in flight; the file stays as
the last committed transaction left it.
-/
import Reliquary.Rl.Desk
import Reliquary.Rl.BookRun

namespace Reliquary.Rl

open Store Relation TrainingBuffer RlSubmissions

-- ===== operations

/-- A call of the book, not a restart of the process. -/
def BookOp.isCall : BookOp → Bool
  | .restart .. => false
  | _ => true

/-- The call with the buffer it sees: a grant counts its groups. -/
def BookOp.seeing (buffer : List String) : BookOp → BookOp
  | .grant live requests now shuffle _ =>
    .grant live requests now shuffle buffer
  | op => op

/-- What one thread does under the lock. -/
inductive SubOp
  | book (op : BookOp) (call : op.isCall = true)
  | begin_ (live : Live) (leaseId hotkey : String)
      (rollouts : List Rollout) (arrivedAt : ℚ)
  | record (live : Live) (task : Task) (graded : Graded) (draw : ℚ)
  | blacklist (hotkey : String) (til : ℚ) (reason : String) (now : ℚ)
  | reportAudit (leaseId : String) (result : AuditResult) (now : ℚ)
  | retryAudit (leaseId : String)
  | report (report : TrainingReport) (moved : Bool) (now : ℚ)
  | take (limit : Int) (now : ℚ) (caps : Except Err (List (String × Int)))
  | takeOlder (belowK limit : Int) (scan : ScanOrder)
  | takeExhausted (maxAttempts limit : Int) (scan : ScanOrder)
  | release (leaseIds : List String)
  | requeue
  | drainTick
  | restart (config : BookConfig) (quotaConfig : QuotaConfig)
      (submitConfig : SubmitConfig) (now : ℚ)

namespace RlSubmissions

/-- A take, with the checkpoint and the lag it reads. -/
def takeGroups (limit : Int) (now : ℚ)
    (caps : Except Err (List (String × Int))) : SubProg (List SubmittedGroup) :=
  Prog.get >>= fun w =>
  onBuffer (take limit now caps w.file.book.latest
    w.mem.book.config.maxLag)

end RlSubmissions

/-- The process started on a file; the draws and the history of payments
go on from the one before. -/
def start (config : BookConfig) (quotaConfig : QuotaConfig)
    (submitConfig : SubmitConfig) (now : ℚ) (drawn : Nat)
    (paidCalls : List String) (db : Db) : SubWorld :=
  let booted := boot config quotaConfig now drawn paidCalls db.book
  { file := { db with book := booted.file }
    mem := { book := booted.mem, config := submitConfig } }

/-- Started for the first time. -/
def firstStart (config : BookConfig) (quotaConfig : QuotaConfig)
    (submitConfig : SubmitConfig) (now : ℚ) : SubWorld :=
  start config quotaConfig submitConfig now 0 [] {}

section Machine

variable (sha256 : List UInt8 → List UInt8) (token : Nat → String)

/-- The world an operation leaves, whether it ended or raised. -/
def subStep (w : SubWorld) : SubOp → SubWorld
  | .book op _ => bookPart.set (step sha256 token (bookPart.view w)
      (op.seeing (w.file.buffer.map fun x => x.environment))) w
  | .begin_ live leaseId hotkey rollouts arrivedAt =>
    ((begin_ live leaseId hotkey rollouts arrivedAt).run w).2
  | .record live task graded draw =>
    if task ∈ w.mem.grading then
      ((record live task graded draw).run w).2
    else w
  | .blacklist hotkey til reason now =>
    ((blacklist hotkey til reason now).run w).2
  | .reportAudit leaseId result now =>
    ((reportAudit leaseId result now).run w).2
  | .retryAudit leaseId => ((retryAudit leaseId).run w).2
  | .report report moved now =>
    ((reportTxn report moved now).run w).2
  | .take limit now caps =>
    ((takeGroups limit now caps).run w).2
  | .takeOlder belowK limit scan =>
    ((onBuffer (takeOlder belowK limit scan)).run w).2
  | .takeExhausted maxAttempts limit scan =>
    ((onBuffer (takeExhausted maxAttempts limit scan)).run w).2
  | .release leaseIds =>
    ((onBuffer (release leaseIds)).run w).2
  | .requeue => ((onBuffer requeue).run w).2
  | .drainTick => ((onBuffer drainTick).run w).2
  | .restart config quotaConfig submitConfig now =>
    start config quotaConfig submitConfig now w.mem.book.drawn
      w.mem.book.paidCalls w.file

/-- A credit of the book, called from outside. -/
def SubOp.isCredit : SubOp → Bool
  | .book (.credit ..) _ => true
  | _ => false

/-- Only the submission path tells the quota of payments. -/
def Served (_ : SubWorld) (op : SubOp) : Prop := op.isCredit = false

/-- A run in which it does. -/
abbrev SubRuns : SubWorld → List SubOp → SubWorld → Prop :=
  Run (subStep sha256 token) Served

end Machine

-- ===== calls are runs

section Calls

variable {sha256 : List UInt8 → List UInt8} {token : Nat → String}
  {α β : Type} {w w' : SubWorld} {p : SubProg α}

/-- The call, run alone, is a run of operations. -/
def Calls (sha256 : List UInt8 → List UInt8) (token : Nat → String)
    (p : SubProg α) (w : SubWorld) : Prop :=
  ∃ ops, SubRuns sha256 token w ops (p.run w).2

theorem calls_op {op : SubOp} (hs : Served w op)
    (h : subStep sha256 token w op = (p.run w).2) : Calls sha256 token p w :=
  ⟨[op], Run.cons op hs (h ▸ Run.nil _)⟩

/-- A call that writes nothing. -/
theorem calls_none (h : (p.run w).2 = w) : Calls sha256 token p w := by
  refine ⟨[], ?_⟩
  rw [h]
  exact Run.nil w

theorem calls_bind {f : α → SubProg β} (hp : Calls sha256 token p w)
    (hf : ∀ a w', p.run w = (.ok a, w') → Calls sha256 token (f a) w') :
    Calls sha256 token (p >>= f) w := by
  obtain ⟨ops, hrun⟩ := hp
  unfold Calls
  rw [Prog.bind_run]
  cases h : p.run w with
  | mk answer v =>
    rw [h] at hrun
    cases answer with
    | error e => exact ⟨ops, hrun⟩
    | ok a =>
      obtain ⟨ops', hrun'⟩ := hf a v h
      exact ⟨ops ++ ops', hrun.append hrun'⟩

theorem calls_loop {f : β → α → SubProg β} (as : List α) :
    ∀ (b : β) (w : SubWorld), (∀ b w, ∀ a ∈ as, Calls sha256 token (f b a) w) →
      Calls sha256 token (Prog.loop f b as) w := by
  induction as with
  | nil => exact fun b w _ => calls_none rfl
  | cons a as ih =>
    intro b w h
    refine calls_bind (h b w a List.mem_cons_self) fun b' w' _ => ?_
    exact ih b' w' fun b'' w'' a' ha' =>
      h b'' w'' a' (List.mem_cons_of_mem _ ha')

theorem calls_rescue {catches : Err → Bool} {handler : Err → SubProg α}
    (hp : Calls sha256 token p w) (hh : ∀ e w, ((handler e).run w).2 = w) :
    Calls sha256 token (Prog.rescue catches p handler) w := by
  obtain ⟨ops, hrun⟩ := hp
  refine ⟨ops, ?_⟩
  rw [Prog.rescue_run]
  cases h : p.run w with
  | mk answer v =>
    rw [h] at hrun
    cases answer with
    | ok a => exact hrun
    | error e =>
      dsimp only
      split
      · rw [hh]
        exact hrun
      · exact hrun

namespace RlSubmissions

theorem reportAudit_calls (leaseId : String) (result : AuditResult) (now : ℚ)
    (w : SubWorld) : Calls sha256 token (reportAudit leaseId result now) w := by
  have hs : Served w (.reportAudit leaseId result now) := rfl
  exact calls_op hs rfl

/-- Dropping the stale audits is one conclusion after another. -/
theorem dropStaleAudits_calls (now : ℚ) (w : SubWorld) :
    Calls sha256 token (dropStaleAudits now) w := by
  refine calls_bind (calls_none rfl) fun v w' _ => ?_
  refine calls_bind ?_ fun _ _ _ => calls_none rfl
  exact calls_loop _ _ _ fun _ w a _ => reportAudit_calls a _ now w

/-- A drain of the audits is a retry or a conclusion for each. -/
theorem runAudits_calls (forward : SubmittedGroup → Except Err AuditResult)
    (limit : Int) (maxAttempts : Nat) (now : ℚ) (w : SubWorld) :
    Calls sha256 token (runAudits forward limit maxAttempts now) w := by
  refine calls_bind (dropStaleAudits_calls now w) fun _ v _ => ?_
  refine calls_bind (calls_none rfl) fun u v' _ => ?_
  refine calls_loop _ _ _ fun done w group _ => ?_
  unfold runAudit
  split
  · exact calls_bind (reportAudit_calls _ _ now w) fun _ _ _ =>
      calls_none rfl
  · have hs : Served w (.retryAudit group.leaseId) := rfl
    refine calls_bind (calls_op hs rfl) fun failures v' _ => ?_
    split
    · exact calls_none rfl
    · exact calls_bind (reportAudit_calls _ _ now v') fun _ _ _ =>
        calls_none rfl

/-- A training report is its transaction, or nothing. -/
theorem reportTraining_calls (stops : List Nat)
    (grade : String → Int → List Rollout → Except Err Graded)
    (report : TrainingReport) (now : ℚ) (w : SubWorld) :
    Calls sha256 token (reportTraining stops grade report now) w := by
  refine calls_bind (calls_none rfl) fun v w' _ => ?_
  refine calls_bind (calls_none rfl) fun moved w'' _ => ?_
  have hs : Served w'' (.report report moved now) := rfl
  exact calls_op hs rfl

/-- What an accepted check adds to the submissions in flight. -/
theorem begin_grading {live : Live} {leaseId hotkey : String}
    {rollouts : List Rollout} {arrivedAt : ℚ} {task : Task}
    (h : (begin_ live leaseId hotkey rollouts arrivedAt).run w
      = (.ok task, w')) : task ∈ w'.mem.grading := by
  unfold begin_ at h
  rw [Prog.bind_run] at h
  split at h
  next lease v hv =>
    injection h with h₁ h₂
    injection h₁ with h₁
    rw [← h₂, ← h₁]
    exact List.mem_concat_self
  next => cases h

/-- A submission is its check and its transaction, or less. -/
theorem submit_calls (live : Live) (leaseId hotkey : String)
    (rollouts : List Rollout) (arrivedAt : ℚ)
    (grade : Lease → Except Err Graded) (draw : ℚ) (w : SubWorld) :
    Calls sha256 token (submit live leaseId hotkey rollouts arrivedAt grade
      draw) w := by
  refine calls_bind (calls_none rfl) fun v w' _ => ?_
  split
  · exact calls_none rfl
  refine calls_bind (calls_none rfl) fun earlier u _ => ?_
  split
  · exact calls_none rfl
  refine calls_rescue ?_ ?_
  · have hs : Served u (.begin_ live leaseId hotkey rollouts arrivedAt) :=
      rfl
    refine calls_bind (calls_op hs rfl) fun task x hx => ?_
    refine calls_bind (calls_none rfl) fun graded y hy => ?_
    have hs : Served y (.record live task graded draw) := rfl
    refine calls_op hs ?_
    have hxy : x = y := by
      injection hy
    exact if_pos (hxy ▸ begin_grading hx)
  · -- the handler only reads
    intro e x
    simp only [Prog.bind_run, Prog.get_run, Prog.lift_run]
    split
    next a y hy =>
      injection hy with _ hy
      rw [← hy]
      split
      · rfl
      · rfl
    next e' y hy =>
      injection hy with _ hy
      exact hy.symm

/-- **The methods refine the machine.** A whole call from any world,
however it ends, does what some list of operations does. -/
theorem methods_refine (live : Live) (leaseId hotkey : String)
    (rollouts : List Rollout) (arrivedAt draw now : ℚ)
    (grade : Lease → Except Err Graded) (stops : List Nat)
    (regrade : String → Int → List Rollout → Except Err Graded)
    (report : TrainingReport) (limit : Int) (maxAttempts : Nat)
    (forward : SubmittedGroup → Except Err AuditResult) (w : SubWorld) :
    Calls sha256 token (submit live leaseId hotkey rollouts arrivedAt grade
        draw) w
      ∧ Calls sha256 token (reportTraining stops regrade report now) w
      ∧ Calls sha256 token (runAudits forward limit maxAttempts now) w
      ∧ Calls sha256 token (dropStaleAudits now) w :=
  ⟨submit_calls .., reportTraining_calls .., runAudits_calls ..,
    dropStaleAudits_calls ..⟩

end RlSubmissions

end Calls

end Reliquary.Rl
