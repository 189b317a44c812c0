/-
The lease book as a machine: its operations, and what holds along every
run of them.

An operation carries what its call is given: the clock, the shuffle, the
drawn secret, the answers of the service's callables. A call runs under
the book's lock, so a run is a list of operations in the order they took
the lock; `adopt_checkpoint` takes it twice (its transaction, then the
revision of the cooldowns) and is two operations here, with whatever
other threads do in between (`adoptCheckpoint_steps`). A call that
raises is a step too: it leaves what the exception left.

`scope` says what an operation may do, `step_moves` that it does no
more, and everything later in this tier is proven from these two.
-/
import Reliquary.Rl.Footprint

namespace Reliquary.Rl

open Store Relation

-- ===== operations

/-- The operations of the book. -/
inductive BookOp
  | grant (live : Live) (requests : List LeaseRequest) (now : ℚ)
      (shuffle : Shuffle) (buffer : List String)
  | submit (live : Live) (leaseId hotkey : String)
      (inZone delivered : Bool) (now : ℚ)
  | checkSubmission (live : Live) (leaseId hotkey : String) (now : ℚ)
  | holdSubmission (live : Live) (leaseId hotkey : String) (arrivedAt : ℚ)
  | releaseSubmission (leaseId : String)
  | forfeit (live : Live) (leaseId hotkey : String) (now : ℚ)
  | expireDue (live : Live) (now : ℚ)
  | adopt (k : Int) (urandom : List UInt8) (now : ℚ)
  | reviseCooldowns (live : Live)
  | recordOutcome (live : Live) (environment : String)
      (promptIdx checkpoint : Int) (rewards : List ℚ) (verdict : Verdict)
      (now : ℚ)
  | credit (leaseId : String) (now : ℚ)
  | ban (hotkey : String) (til : ℚ)
  | markAlive (now : ℚ)
  | drainFull
  | drainLaneFull
  | restart (config : BookConfig) (quotaConfig : QuotaConfig) (now : ℚ)

section Machine

variable (sha256 : List UInt8 → List UInt8) (token : Nat → String)

/-- The world an operation leaves, whether it ended or raised. -/
def step (w : BookWorld) : BookOp → BookWorld
  | .grant live requests now shuffle buffer =>
    ((grant sha256 live requests now shuffle token buffer).run w).2
  | .submit live leaseId hotkey inZone delivered now =>
    ((submit live leaseId hotkey inZone delivered now).run w).2
  | .checkSubmission live leaseId hotkey now =>
    ((checkSubmission live leaseId hotkey now).run w).2
  | .holdSubmission live leaseId hotkey arrivedAt =>
    ((holdSubmission live leaseId hotkey arrivedAt).run w).2
  | .releaseSubmission leaseId => releaseSubmission leaseId w
  | .forfeit live leaseId hotkey now =>
    ((forfeit live leaseId hotkey now).run w).2
  | .expireDue live now => ((expireDue live now).run w).2
  | .adopt k urandom now => ((adoptTxn sha256 k urandom now).run w).2
  | .reviseCooldowns live => ((reviseCooldowns live).run w).2
  | .recordOutcome live environment promptIdx checkpoint rewards verdict
      now => ((recordOutcome live environment promptIdx checkpoint rewards
        verdict now).run w).2
  | .credit leaseId now => ((credit leaseId now).run w).2
  | .ban hotkey til => ban hotkey til w
  | .markAlive now => markAlive now w
  | .drainFull => { w with mem := { w.mem with full := [] } }
  | .drainLaneFull => { w with mem := { w.mem with laneFull := [] } }
  | .restart config quotaConfig now =>
    boot config quotaConfig now w.mem.drawn w.mem.paidCalls w.file

/-- A run of the book. -/
abbrev BookRuns : BookWorld → List BookOp → BookWorld → Prop :=
  Free (step sha256 token)

end Machine

/-- An empty file, opened for the first time. -/
def firstBoot (config : BookConfig) (quotaConfig : QuotaConfig) (now : ℚ) :
    BookWorld :=
  boot config quotaConfig now 0 [] {}

-- ===== scopes

/-- No submission of the lease is being graded. -/
def Unheld (w : BookWorld) (leaseId : String) : Prop :=
  w.mem.submitting.lookup leaseId = none

/-- The id is one that has not been drawn yet. -/
def Undrawn (token : Nat → String) (w : BookWorld) (leaseId : String) : Prop :=
  ∃ i, w.mem.drawn ≤ i ∧ leaseId = token i

/-- What an operation may do to the tables. -/
def BookOp.scope (token : Nat → String) (w : BookWorld) : BookOp → Scope
  | .grant .. => { closes := Unheld w, issues := Undrawn token w }
  | .submit _ leaseId _ _ _ _ =>
    { closes := Unheld w, submits := fun id => id = leaseId }
  | .checkSubmission .. => { closes := Unheld w }
  | .holdSubmission .. => { closes := Unheld w }
  | .forfeit .. => { closes := Unheld w }
  | .expireDue .. => { closes := Unheld w }
  | .adopt k urandom _ =>
    { adopts := fun k' secret => k' = k ∧ secret = urandom }
  | .reviseCooldowns .. => { scans := True }
  | .recordOutcome .. => { scans := True }
  | .restart .. => { scans := True }
  | .releaseSubmission .. => {}
  | .credit .. => { pays := True }
  | .ban .. => {}
  | .markAlive .. => {}
  | .drainFull => {}
  | .drainLaneFull => {}

/-- Does the operation change what the memory holds of submissions, or
the configuration? -/
def BookOp.rebinds : BookOp → Bool
  | .holdSubmission .. => true
  | .releaseSubmission .. => true
  | .restart .. => true
  | _ => false

variable {sha256 : List UInt8 → List UInt8} {token : Nat → String}
  {w w' : BookWorld}

/-- What a hold is: the check, and, when it passes, one more hold. -/
theorem holdSubmission_run (live : Live) (leaseId hotkey : String)
    (arrivedAt : ℚ) (w : BookWorld) :
    (holdSubmission live leaseId hotkey arrivedAt).run w
      = match submittable live leaseId hotkey arrivedAt w with
        | (.ok l, v) => (.ok l, { v with mem := { v.mem with
            submitting := put leaseId
              ((v.mem.submitting.lookup leaseId).getD 0 + 1)
              v.mem.submitting } })
        | (.error e, v) => (.error e, v) := by
  unfold holdSubmission checkSubmission Prog.txn
  simp only [Prog.bind_run, Prog.get_run, Prog.modify_run, Prog.lift_run]
  cases h : submittable live leaseId hotkey arrivedAt w with
  | mk answer v =>
    cases answer with
    | ok l => rfl
    | error e => rfl

/-- An operation that rebinds nothing keeps its scope and the memory. -/
theorem step_kept (hwf : Wf sha256 w.file) (op : BookOp)
    (h : op.rebinds = false) :
    Kept sha256 (op.scope token w) w (step sha256 token w op) := by
  cases op with
  | grant live requests now shuffle buffer =>
    have hspec := grant_spec (s := (BookOp.grant live requests now shuffle
      buffer).scope token w) hwf (fun _ hid => hid)
      (fun i hi => ⟨i, hi, rfl⟩) live requests now shuffle buffer
    exact Prog.Spec.world (I := fun w' => Kept sha256 _ w w')
      (hspec.conseq (fun _ hw => hw) (fun _ _ hq => hq.kept)
        fun _ _ he => he.1) rfl
  | submit live leaseId hotkey inZone delivered now =>
    exact (stays_submit hwf (fun _ hid => hid) live leaseId hotkey inZone
      delivered now rfl).world rfl
  | checkSubmission live leaseId hotkey now =>
    exact (stays_checkSubmission hwf (fun _ hid => hid) live leaseId
      hotkey now).world rfl
  | holdSubmission => cases h
  | releaseSubmission => cases h
  | forfeit live leaseId hotkey now =>
    exact (stays_forfeit hwf (fun _ hid => hid) live leaseId hotkey
      now).world rfl
  | expireDue live now =>
    exact (stays_expireDue hwf (fun _ hid => hid) live now).world rfl
  | adopt k urandom now =>
    have hscope : ((BookOp.adopt k urandom now).scope token w).adopts k
        urandom := ⟨rfl, rfl⟩
    exact (stays_adoptTxn hscope now).world rfl
  | reviseCooldowns live =>
    exact (stays_reviseCooldowns trivial live).world rfl
  | recordOutcome live e p k rewards verdict now =>
    exact (stays_recordOutcome trivial live e p k rewards verdict now).world rfl
  | credit leaseId now => exact (stays_credit trivial leaseId now).world rfl
  | ban hotkey til => exact kept_ban (Kept.refl w) hotkey til
  | markAlive now => exact kept_markAlive (Kept.refl w) now
  | drainFull => exact (Kept.refl w).memory rfl rfl le_rfl rfl
  | drainLaneFull => exact (Kept.refl w).memory rfl rfl le_rfl rfl
  | restart => cases h

/-- A hold is its sweep, and one more handler in memory. -/
theorem step_hold (hwf : Wf sha256 w.file) (live : Live)
    (leaseId hotkey : String) (arrivedAt : ℚ) :
    ∃ v submitting, Kept sha256 { closes := Unheld w } w v ∧
      step sha256 token w (.holdSubmission live leaseId hotkey arrivedAt) =
        { v with mem := { v.mem with submitting } } := by
  have hk := kept_submittable (s := { closes := Unheld w }) hwf
    (fun _ hid => hid) live leaseId hotkey arrivedAt
  show ∃ v submitting, _ ∧
    ((holdSubmission live leaseId hotkey arrivedAt).run w).2 = _
  rw [holdSubmission_run]
  cases hsub : submittable live leaseId hotkey arrivedAt w with
  | mk answer v =>
    rw [hsub] at hk
    cases answer with
    | ok l => exact ⟨v, _, hk, rfl⟩
    | error e => exact ⟨v, v.mem.submitting, hk, rfl⟩

theorem step_restart (config : BookConfig) (quotaConfig : QuotaConfig)
    (now : ℚ) : Kept sha256 { scans := True }
      (attach config quotaConfig w.mem.drawn w.mem.paidCalls w.file)
      (step sha256 token w (.restart config quotaConfig now)) :=
  kept_boot trivial config quotaConfig now w.mem.drawn w.mem.paidCalls w.file

/-- **Every operation stays in its scope.** -/
theorem step_moves (hwf : Wf sha256 w.file) (op : BookOp) :
    Moves sha256 (op.scope token w) w.file (step sha256 token w op).file := by
  cases hop : op.rebinds with
  | false => exact (step_kept hwf op hop).file
  | true =>
    cases op with
    | holdSubmission live leaseId hotkey arrivedAt =>
      obtain ⟨v, _, hk, hv⟩ := step_hold hwf live leaseId hotkey arrivedAt
      rw [hv]
      exact hk.file
    | releaseSubmission => exact ReflTransGen.refl
    | restart config quotaConfig now =>
      exact (step_restart config quotaConfig now).file
    | _ => cases hop

theorem step_wf (hwf : Wf sha256 w.file) (op : BookOp) :
    Wf sha256 (step sha256 token w op).file :=
  (step_moves hwf op).wf hwf

-- ===== growth

/-- How a book may change under the components that share its file: its
leases evolve or have ids drawn since, and a prompt that has a state
keeps one. -/
structure BookGrows (sha256 : List UInt8 → List UInt8)
    (token : Nat → String) (w w' : BookWorld) : Prop where
  wf : Wf sha256 w.file → Wf sha256 w'.file
  drawn : w.mem.drawn ≤ w'.mem.drawn
  ids : IdsDrawn token w → IdsDrawn token w'
  leases : ∀ r' ∈ w'.file.leases, (∃ r ∈ w.file.leases, RowEvolved r r')
    ∨ Undrawn token w r'.leaseId
  prompts : ∀ p ∈ w.file.prompts, ∃ p' ∈ w'.file.prompts,
    p'.environment = p.environment ∧ p'.promptIdx = p.promptIdx

/-- Moves of a scope that issues only undrawn ids. -/
theorem BookGrows.of_moves {s : Scope} (hm : Moves sha256 s w.file w'.file)
    (hs : ∀ id, s.issues id → Undrawn token w id)
    (hd : w.mem.drawn ≤ w'.mem.drawn)
    (hi : IdsDrawn token w → IdsDrawn token w') :
    BookGrows sha256 token w w' where
  wf := hm.wf
  drawn := hd
  ids := hi
  leases r' hr' := (hm.evolved r' hr').imp_right (hs _)
  prompts _ hp := hm.prompt_kept hp

/-- A call that issues nothing. -/
theorem Kept.grows {s : Scope} (h : Kept sha256 s w w')
    (hs : ∀ id, ¬s.issues id) : BookGrows sha256 token w w' :=
  BookGrows.of_moves h.file (fun id hid => absurd hid (hs id)) h.mem.drawn
    (h.idsDrawn hs)

/-- The tables as they were. -/
theorem BookGrows.of_file (hf : w'.file = w.file)
    (hd : w.mem.drawn ≤ w'.mem.drawn) : BookGrows sha256 token w w' := by
  refine BookGrows.of_moves (s := {}) (hf ▸ ReflTransGen.refl)
    (fun _ hid => hid.elim) hd ?_
  intro h r hr
  rw [hf] at hr
  obtain ⟨i, hi, hid⟩ := h r hr
  exact ⟨i, lt_of_lt_of_le hi hd, hid⟩

theorem BookGrows.refl (w : BookWorld) : BookGrows sha256 token w w :=
  BookGrows.of_file rfl le_rfl

/-- One change after another. -/
theorem BookGrows.trans {v : BookWorld} (h : BookGrows sha256 token w v)
    (h' : BookGrows sha256 token v w') : BookGrows sha256 token w w' where
  wf hw := h'.wf (h.wf hw)
  drawn := le_trans h.drawn h'.drawn
  ids hi := h'.ids (h.ids hi)
  leases r'' hr'' := by
    rcases h'.leases r'' hr'' with ⟨r', hr', hev'⟩ | ⟨i, hi, hid⟩
    · rcases h.leases r' hr' with ⟨r, hr, hev⟩ | hun
      · exact .inl ⟨r, hr, hev.trans hev'⟩
      · rw [hev'.leaseId]
        exact .inr hun
    · exact .inr ⟨i, le_trans h.drawn hi, hid⟩
  prompts p hp := by
    obtain ⟨p', hp', he, hi⟩ := h.prompts p hp
    obtain ⟨p'', hp'', he', hi'⟩ := h'.prompts p' hp'
    exact ⟨p'', hp'', he'.trans he, hi'.trans hi⟩

/-- An operation other than a credit tells the quota of no payment. -/
theorem step_paid (hwf : Wf sha256 w.file) (op : BookOp)
    (hop : ∀ leaseId now, op ≠ .credit leaseId now) :
    (step sha256 token w op).mem.paidCalls = w.mem.paidCalls := by
  have hkept : op.rebinds = false → ¬(op.scope token w).pays →
      (step sha256 token w op).mem.paidCalls = w.mem.paidCalls :=
    fun h hp => (step_kept hwf op h).mem.paid hp
  cases op with
  | holdSubmission live leaseId hotkey arrivedAt =>
    obtain ⟨v, _, hk, hv⟩ := step_hold hwf live leaseId hotkey arrivedAt
    rw [hv]
    exact hk.mem.paid id
  | releaseSubmission leaseId => rfl
  | restart config quotaConfig now =>
    exact (step_restart config quotaConfig now).mem.paid id
  | credit leaseId now => exact absurd rfl (hop leaseId now)
  | _ => exact hkept rfl id

/-- **Every operation grows the book.** -/
theorem step_grows (hwf : Wf sha256 w.file) (op : BookOp) :
    BookGrows sha256 token w (step sha256 token w op) := by
  have hm : Moves sha256 (op.scope token w) w.file
      (step sha256 token w op).file := step_moves hwf op
  cases op with
  | grant live requests now shuffle buffer =>
    have hissues : ∀ i, w.mem.drawn ≤ i → ((BookOp.grant live requests now
        shuffle buffer).scope token w).issues (token i) :=
      fun i hi => ⟨i, hi, rfl⟩
    have hspec := (grant_spec hwf (fun _ hid => hid) hissues live requests
      now shuffle buffer).run rfl
    rcases hspec with ⟨answers, -, hok⟩ | ⟨e, -, hkept, hfile⟩
    · exact BookGrows.of_moves hm (fun _ hid => hid) hok.kept.mem.drawn
        hok.drawn
    · exact BookGrows.of_file hfile hkept.mem.drawn
  | holdSubmission live leaseId hotkey arrivedAt =>
    obtain ⟨v, _, hk, hv⟩ := step_hold hwf live leaseId hotkey arrivedAt
    have hg : BookGrows sha256 token w v := hk.grows fun _ => id
    rw [hv]
    exact { hg with }
  | releaseSubmission leaseId =>
    exact BookGrows.of_file rfl le_rfl
  | restart config quotaConfig now =>
    have hk : Kept sha256 _ _ (step sha256 token w _) :=
      step_restart config quotaConfig now
    have hg : BookGrows sha256 token _ _ := hk.grows fun _ => id
    exact { hg with }
  | _ => exact (step_kept hwf _ rfl).grows fun _ => id

-- ===== runs

theorem wf_firstBoot (config : BookConfig) (quotaConfig : QuotaConfig)
    (now : ℚ) : Wf sha256 (firstBoot config quotaConfig now).file :=
  (kept_boot (s := { scans := True }) trivial config quotaConfig now 0 []
    {}).wf wf_empty

theorem ids_firstBoot (config : BookConfig) (quotaConfig : QuotaConfig)
    (now : ℚ) : IdsDrawn token (firstBoot config quotaConfig now) := by
  have hids : IdsDrawn token (attach config quotaConfig 0 [] {}) := by
    intro r hr
    cases hr
  have hk : Kept id { scans := True } (attach config quotaConfig 0 [] {})
      (firstBoot config quotaConfig now) :=
    kept_boot trivial config quotaConfig now 0 [] {}
  exact hk.idsDrawn (fun _ => id) hids

/-- The tables stay well formed along a run. -/
theorem BookRuns.wf {ops : List BookOp} (h : BookRuns sha256 token w ops w')
    (hwf : Wf sha256 w.file) : Wf sha256 w'.file :=
  Run.invariant (I := fun w => Wf sha256 w.file) h hwf
    fun _ op _ hw => step_wf hw op

/-- A property of the tables that every move keeps holds along a run. -/
theorem BookRuns.keeps {ops : List BookOp} {I : Book → Prop}
    (h : BookRuns sha256 token w ops w') (hwf : Wf sha256 w.file)
    (hI : I w.file)
    (hmove : ∀ {s b b'}, Move sha256 s b b' → Wf sha256 b → I b → I b') :
    I w'.file := by
  refine (Run.invariant (I := fun w => Wf sha256 w.file ∧ I w.file) h
    ⟨hwf, hI⟩ ?_).2
  intro v op _ hv
  exact (step_moves hv.1 op).keeps (I := fun b => Wf sha256 b ∧ I b) hv
    fun hm hb => ⟨hm.wf hb.1, hmove hm hb.1 hb.2⟩

-- ===== a small book

/-- A book that serves one environment. -/
def oneEnv : BookConfig where
  expiryS := [("math", 100)]
  expiry_served := by simp
  expiry_pos := by simp

/-- Callables that answer: a cooldown of two checkpoints, no lanes, no
sandbox failure. -/
def calm : Live where
  cooldownOf _ := some 2
  laneMax := none
  sandboxFailure _ := none

/-- The shuffle that keeps the order. -/
def inOrder : Shuffle where
  order := id
  perm _ := List.Perm.refl _

/-- A stand-in for the hash. -/
def firstByte (message : List UInt8) : List UInt8 := message.take 1

/-- Ids drawn in order. -/
def counted (n : Nat) : String := toString n

/-- One prompt of the environment. -/
def ask (hotkey : String) (prompt checkpoint : Int) : LeaseRequest where
  hotkey := hotkey
  environment := "math"
  promptIds := [prompt]
  checkpoint := checkpoint

/-- Checkpoint 1 adopted, prompt 5 leased to `a`. -/
def leasedOps : List BookOp :=
  [.adopt 1 [7] 1, .grant calm [ask "a" 5 1] 2 inOrder []]

/-- The world after them. -/
def leasedWorld : BookWorld :=
  leasedOps.foldl (step firstByte counted) (firstBoot oneEnv {} 0)

theorem leasedWorld_run :
    BookRuns firstByte counted (firstBoot oneEnv {} 0) leasedOps leasedWorld :=
  Run.cons _ trivial (Run.cons _ trivial (Run.nil _))

end Reliquary.Rl
