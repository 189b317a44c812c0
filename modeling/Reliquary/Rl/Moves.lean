/-
What one write can do to the lease book's tables.

# The idea

Every invariant of the book is about six tables' worth of rows, and
every method writes them in one of six ways (`Move`): rows of leases
evolve in place (`RowMove`: an open one is extended, closed or
submitted), a lease is issued, a checkpoint is adopted, a scan is
recorded, prompt states are restamped, or none of these tables changes.
A constructor carries the guard the method checked before the write.

`Scope` says which of these a call may make, and `kept_*` (in
`Footprint.lean`) that each call stays in its scope. Invariants are then
proven once per move, and no proof about a run opens a method again.
-/
import Reliquary.Store.Run
import Reliquary.Rl.LeaseBook

namespace Reliquary.Rl

open Store Relation

-- ===== moves

/-- What a call may do: the leases it may close unsubmitted or by a
submission, the ids it may issue, the checkpoint and secret it may
adopt, and the other kinds of writes it may make; `pays`, whether it may
tell the quota that a lease was paid. -/
structure Scope where
  closes : String → Prop := fun _ => False
  submits : String → Prop := fun _ => False
  issues : String → Prop := fun _ => False
  adopts : Int → List UInt8 → Prop := fun _ _ => False
  scans : Prop := False
  pays : Prop := False

/-- How a row of `rl_leases` evolves in place. Only an open one does. -/
inductive RowMove (s : Scope) : LeaseRow → LeaseRow → Prop
  | keep (r : LeaseRow) : RowMove s r r
  | extend (r : LeaseRow) (e : ℚ) : r.isOpen = true → r.expiresAt ≤ e →
      RowMove s r { r with expiresAt := e }
  | close (r : LeaseRow) (state : LeaseState) (now : ℚ)
      (cause : Option Cause) : r.isOpen = true → s.closes r.leaseId →
      state = .expired ∨ state = .released →
      RowMove s r { r with state, closedAt := some now, cause }
  | submit (r : LeaseRow) (now : ℚ) : r.isOpen = true → s.submits r.leaseId →
      RowMove s r { r with state := .submitted, closedAt := some now }

/-- How a prompt's state evolves in place while the sequence goes from
`n` to `n'`: what is published of it is the same, or it has a new
sequence number; and no cooldown gets longer. -/
structure PromptMove (n n' : Nat) (r r' : PromptRow) : Prop where
  environment : r'.environment = r.environment
  promptIdx : r'.promptIdx = r.promptIdx
  stamp : r'.entry = r.entry ∧ r'.seq = r.seq ∨ n < r'.seq ∧ r'.seq ≤ n'
  shorter : ∀ til' ∈ r'.untilK, ∃ til ∈ r.untilK, til' ≤ til

/-- One write to the tables. -/
inductive Move (sha256 : List UInt8 → List UInt8) (s : Scope) :
    Book → Book → Prop
  | rows (b : Book) (leases : List LeaseRow) :
      List.Forall₂ (RowMove s) b.leases leases →
      Move sha256 s b { b with leases }
  | issue (b : Book) (l : LeaseRow) (secret : SecretRow)
      (nonce : List UInt8) : s.issues l.leaseId → l.isOpen = true →
      sqlInt l.promptIdx = .ok () →
      (∀ r ∈ b.leases, r.leaseId ≠ l.leaseId) →
      (∀ r ∈ b.leases,
        takenBy l.environment l.promptIdx l.checkpoint r = false) →
      secret ∈ b.secrets → secret.k = l.checkpoint →
      secret.revealedAt = none →
      leaseNonce sha256 secret.secret l.environment l.promptIdx
        l.checkpoint = .ok nonce → l.nonce = hex nonce →
      Move sha256 s b { b with leases := b.leases ++ [l] }
  | adopt (b : Book) (maxLag k : Int) (secret commitment : List UInt8)
      (now : ℚ) : s.adopts k secret → 0 ≤ maxLag → sqlInt k = .ok () →
      (∀ latest ∈ b.latest, latest < k) → (∀ r ∈ b.secrets, r.k ≠ k) →
      secretCommitment sha256 secret k = .ok commitment →
      Move sha256 s b (b.adopted maxLag k secret commitment now)
  | scan (b : Book) (environment : String) (promptIdx checkpoint : Int)
      (rewards : List ℚ) (verdict : Verdict) (now : ℚ)
      (move : PromptLife × Option Int × Option Int) : s.scans →
      (∀ til ∈ move.2.1, til < 2 ^ 63) →
      Move sha256 s b (recordScan environment promptIdx checkpoint
        rewards verdict now move b).2
  | restamp (b : Book) (prompts : List PromptRow) (n : Nat) : s.scans →
      b.scanSeq ≤ n →
      List.Forall₂ (PromptMove b.scanSeq n) b.prompts prompts →
      Move sha256 s b { b with prompts, scanSeq := n }
  | frame (b b' : Book) : b'.latest = b.latest →
      b'.secrets = b.secrets → b'.leases = b.leases →
      b'.scans = b.scans → b'.prompts = b.prompts →
      b'.scanSeq = b.scanSeq → Move sha256 s b b'

/-- A list of writes. -/
abbrev Moves (sha256 : List UInt8 → List UInt8) (s : Scope) :
    Book → Book → Prop :=
  ReflTransGen (Move sha256 s)

variable {sha256 : List UInt8 → List UInt8} {s : Scope} {b b' : Book}
  {r r' : LeaseRow} {secret commitment : List UInt8} {maxLag k : Int} {now : ℚ}

-- ===== row moves

/-- What no row move changes. -/
theorem RowMove.same (h : RowMove s r r') :
    r'.leaseId = r.leaseId ∧ r'.hotkey = r.hotkey
      ∧ r'.environment = r.environment ∧ r'.promptIdx = r.promptIdx
      ∧ r'.checkpoint = r.checkpoint ∧ r'.nonce = r.nonce := by
  cases h with
  | _ => exact ⟨rfl, rfl, rfl, rfl, rfl, rfl⟩

/-- No row move reopens a lease. -/
theorem RowMove.isOpen_of (h : RowMove s r r')
    (ho : r'.isOpen = true) : r.isOpen = true := by
  cases h with
  | keep => exact ho
  | extend e hr => exact hr
  | close st now c hr => exact hr
  | submit now hr => exact hr

/-- A submitted row was open or submitted. -/
theorem RowMove.live_of (h : RowMove s r r')
    (hl : r'.isOpen = true ∨ r'.state = .submitted) :
    r.isOpen = true ∨ r.state = .submitted := by
  cases h with
  | keep => exact hl
  | extend e hr => exact .inl hr
  | close st now c hr => exact .inl hr
  | submit now hr => exact .inl hr

/-- A submitted row stays as it is. -/
theorem RowMove.submitted_fixed (h : RowMove s r r')
    (hr : r.state = .submitted) : r' = r := by
  have hc : r.isOpen = false := by simp [LeaseRow.isOpen, hr]
  cases h with
  | keep => rfl
  | extend e ho => rw [hc] at ho; cases ho
  | close st now c ho => rw [hc] at ho; cases ho
  | submit now ho => rw [hc] at ho; cases ho

/-- An open row that the scope may not end stays open, and its expiry
only moves away. -/
theorem RowMove.open_kept (h : RowMove s r r') (ho : r.isOpen = true)
    (hc : ¬s.closes r.leaseId) (hs : ¬s.submits r.leaseId) :
    r'.isOpen = true ∧ r.expiresAt ≤ r'.expiresAt := by
  cases h with
  | keep => exact ⟨ho, le_refl _⟩
  | extend e _ he => exact ⟨ho, he⟩
  | close st now c _ hr => exact absurd hr hc
  | submit now _ hr => exact absurd hr hs

-- ===== well-formed tables

/-- An open lease of the prompt, at any checkpoint. -/
def openAt (environment : String) (promptIdx : Int) (r : LeaseRow) : Bool :=
  r.environment == environment && r.promptIdx == promptIdx && r.isOpen

/-- An open or submitted lease of the key. -/
def liveAt (environment : String) (promptIdx k : Int) (r : LeaseRow) : Bool :=
  r.environment == environment && r.promptIdx == promptIdx
    && r.checkpoint == k && (r.isOpen || r.state == .submitted)

/-- The nonce of a lease is the one its checkpoint's secret forces. -/
def NonceOf (sha256 : List UInt8 → List UInt8) (secret : List UInt8)
    (l : Lease) : Prop :=
  ∃ nonce, leaseNonce sha256 secret l.environment l.promptIdx
    l.checkpoint = .ok nonce ∧ l.nonce = hex nonce

/-- What holds of the leases and the secrets in every reachable book. -/
structure Wf (sha256 : List UInt8 → List UInt8) (b : Book) : Prop where
  ids : (b.leases.map fun r => r.leaseId).Nodup
  oneOpen : ∀ e p, Unique (openAt e p) b.leases
  oneLive : ∀ e p k, Unique (liveAt e p k) b.leases
  keys : (b.secrets.map fun r => r.k).Nodup
  adopted : ∀ r ∈ b.secrets, ∃ latest ∈ b.latest, r.k ≤ latest
  committed : ∀ r ∈ b.secrets,
    secretCommitment sha256 r.secret r.k = .ok r.commitment
  forced : ∀ r ∈ b.leases, ∃ x ∈ b.secrets, x.k = r.checkpoint
    ∧ NonceOf sha256 x.secret r.toLease
  fitsPrompt : ∀ r ∈ b.leases, sqlInt r.promptIdx = .ok ()
  fitsK : ∀ x ∈ b.secrets, sqlInt x.k = .ok ()
  fitsUntil : ∀ p ∈ b.prompts, ∀ til ∈ p.untilK, til < 2 ^ 63

/-- The empty book. -/
theorem wf_empty : Wf sha256 {} where
  ids := List.nodup_nil
  oneOpen e p := unique_nil _
  oneLive e p k := unique_nil _
  keys := List.nodup_nil
  adopted r hr := by cases hr
  committed r hr := by cases hr
  forced r hr := by cases hr
  fitsPrompt r hr := by cases hr
  fitsK r hr := by cases hr
  fitsUntil p hp := by cases hp

/-- The secrets of a book after an adoption: the new one, and the old
ones with at most their revelation changed. -/
theorem mem_adopted_secrets {x : SecretRow}
    (hx : x ∈ (b.adopted maxLag k secret commitment now).secrets) :
    (x.k = k ∧ x.secret = secret ∧ x.commitment = commitment)
      ∨ ∃ y ∈ b.secrets, x.k = y.k ∧ x.secret = y.secret
          ∧ x.commitment = y.commitment := by
  obtain ⟨y, hy, rfl⟩ := mem_updateWhere.1 hx
  rcases mem_snoc.1 hy with hy | rfl
  · refine .inr ⟨y, hy, ?_⟩
    split
    · exact ⟨rfl, rfl, rfl⟩
    · exact ⟨rfl, rfl, rfl⟩
  · refine .inl ?_
    split
    · exact ⟨rfl, rfl, rfl⟩
    · exact ⟨rfl, rfl, rfl⟩

/-- An adoption keeps every secret, and reveals those of the retired
checkpoints. -/
theorem adopted_secret_kept {y : SecretRow} (hy : y ∈ b.secrets) :
    ∃ x ∈ (b.adopted maxLag k secret commitment now).secrets,
      x.k = y.k ∧ x.secret = y.secret ∧ x.commitment = y.commitment
        ∧ (y.revealedAt.isSome → x.revealedAt.isSome)
        ∧ (y.k < k - maxLag → x.revealedAt.isSome) := by
  refine ⟨_, mem_updateWhere.2 ⟨y, List.mem_append_left _ hy, rfl⟩, ?_⟩
  split
  next h => exact ⟨rfl, rfl, rfl, fun _ => rfl, fun _ => rfl⟩
  next h =>
    refine ⟨rfl, rfl, rfl, id, fun hk => ?_⟩
    simp only [Bool.and_eq_true, decide_eq_true_eq, not_and] at h
    have hn := h hk
    cases hr : y.revealedAt with
    | none => rw [hr] at hn; exact absurd rfl hn
    | some t => rfl

/-- Row moves keep the tables well formed. -/
theorem Wf.rows (h : Wf sha256 b) {leases : List LeaseRow}
    (hm : List.Forall₂ (RowMove s) b.leases leases) :
    Wf sha256 { b with leases } where
  ids := nodup_of_forall₂ hm (fun _ _ hr => hr.same.1) h.ids
  oneOpen e p := by
    refine (h.oneOpen e p).evolve hm fun r r' hr hp => ?_
    obtain ⟨-, -, he, hi, -⟩ := hr.same
    simp only [openAt, Bool.and_eq_true] at hp ⊢
    rw [he, hi] at hp
    exact ⟨hp.1, hr.isOpen_of hp.2⟩
  oneLive e p k := by
    refine (h.oneLive e p k).evolve hm fun r r' hr hp => ?_
    obtain ⟨-, -, he, hi, hk, -⟩ := hr.same
    simp only [liveAt, Bool.and_eq_true, Bool.or_eq_true, beq_iff_eq] at hp ⊢
    rw [he, hi, hk] at hp
    exact ⟨hp.1, hr.live_of hp.2⟩
  keys := h.keys
  adopted := h.adopted
  committed := h.committed
  forced r' hr' := by
    obtain ⟨r, hr, hrr⟩ := exists_before hm hr'
    obtain ⟨x, hx, hk, n, hn, hh⟩ := h.forced r hr
    obtain ⟨-, -, he, hi, hc, hno⟩ := hrr.same
    refine ⟨x, hx, hk.trans hc.symm, n, ?_, hno.trans hh⟩
    rw [he, hi, hc]
    exact hn
  fitsPrompt r' hr' := by
    obtain ⟨r, hr, hrr⟩ := exists_before hm hr'
    rw [hrr.same.2.2.2.1]
    exact h.fitsPrompt r hr
  fitsK := h.fitsK
  fitsUntil := h.fitsUntil

/-- An issue keeps them: the guard is what the two unique indexes ask. -/
theorem Wf.issue (h : Wf sha256 b) {l : LeaseRow} {x : SecretRow}
    (hfits : sqlInt l.promptIdx = .ok ())
    (hid : ∀ r ∈ b.leases, r.leaseId ≠ l.leaseId) (hfree : ∀ r ∈ b.leases,
      takenBy l.environment l.promptIdx l.checkpoint r = false)
    (hx : x ∈ b.secrets) (hk : x.k = l.checkpoint)
    (hn : NonceOf sha256 x.secret l.toLease) :
    Wf sha256 { b with leases := b.leases ++ [l] } := { h with
  ids := nodup_insert h.ids hid
  oneOpen e p := by
    refine (h.oneOpen e p).insert fun hp r hr => ?_
    have hf := hfree r hr
    simp only [openAt, Bool.and_eq_true, beq_iff_eq] at hp
    obtain ⟨⟨rfl, rfl⟩, -⟩ := hp
    simp only [takenBy, Bool.and_eq_false_iff, Bool.or_eq_false_iff] at hf
    simp only [openAt, Bool.and_eq_false_iff]
    rcases hf with hf | hf
    · exact .inl hf
    · exact .inr hf.1
  oneLive e p k := by
    refine (h.oneLive e p k).insert fun hp r hr => ?_
    have hf := hfree r hr
    simp only [liveAt, Bool.and_eq_true, beq_iff_eq] at hp
    obtain ⟨⟨⟨rfl, rfl⟩, rfl⟩, -⟩ := hp
    simp only [takenBy, Bool.and_eq_false_iff, Bool.or_eq_false_iff] at hf
    simp only [liveAt, Bool.and_eq_false_iff, Bool.or_eq_false_iff]
    rcases hf with hf | ⟨ho, hc | hs⟩
    · exact .inl (.inl hf)
    · exact .inl (.inr hc)
    · exact .inr ⟨ho, hs⟩
  forced := forall_snoc h.forced ⟨x, hx, hk, hn⟩
  fitsPrompt := forall_snoc h.fitsPrompt hfits }

/-- An adoption keeps them: the new secret is the only one of its
checkpoint, and every lease left keeps the secret of its own. -/
theorem Wf.adopt (h : Wf sha256 b) (hfits : sqlInt k = .ok ())
    (hlatest : ∀ latest ∈ b.latest, latest < k)
    (hnew : ∀ r ∈ b.secrets, r.k ≠ k)
    (hc : secretCommitment sha256 secret k = .ok commitment) :
    Wf sha256 (b.adopted maxLag k secret commitment now) where
  ids := nodup_deleteWhere h.ids
  oneOpen e p := (h.oneOpen e p).delete
  oneLive e p k := (h.oneLive e p k).delete
  keys := by
    show ((updateWhere _ _ _).map fun r : SecretRow => r.k).Nodup
    rw [updateWhere_column (fun r : SecretRow => r.k)]
    · exact nodup_insert h.keys hnew
    · intro r
      rfl
  adopted x hx := by
    refine ⟨k, rfl, ?_⟩
    rcases mem_adopted_secrets hx with ⟨hk, -⟩ | ⟨y, hy, hk, -⟩
    · exact le_of_eq hk
    · obtain ⟨latest, hl, hle⟩ := h.adopted y hy
      rw [hk]
      exact le_trans hle (le_of_lt (hlatest latest hl))
  committed x hx := by
    rcases mem_adopted_secrets hx with ⟨hk, hs, hcc⟩ | ⟨y, hy, hk, hs, hcc⟩
    · rw [hk, hs, hcc]
      exact hc
    · rw [hk, hs, hcc]
      exact h.committed y hy
  forced r hr := by
    obtain ⟨y, hy, hk, hn⟩ := h.forced r (mem_deleteWhere.1 hr).1
    obtain ⟨x, hx, hxk, hxs, -⟩ := adopted_secret_kept hy
    refine ⟨x, hx, hxk.trans hk, ?_⟩
    rw [hxs]
    exact hn
  fitsPrompt r hr := h.fitsPrompt r (mem_deleteWhere.1 hr).1
  fitsK x hx := by
    rcases mem_adopted_secrets hx with ⟨hk, -⟩ | ⟨y, hy, hk, -⟩
    · rw [hk]
      exact hfits
    · rw [hk]
      exact h.fitsK y hy
  fitsUntil := h.fitsUntil

/-- The invariant reads the leases, the secrets, the latest, and the
bounds of the prompts' cooldowns. -/
theorem Wf.frame (h : Wf sha256 b) (hl : b'.latest = b.latest)
    (hs : b'.secrets = b.secrets) (hr : b'.leases = b.leases)
    (hp : ∀ p ∈ b'.prompts, ∀ til ∈ p.untilK, til < 2 ^ 63) : Wf sha256 b' where
  ids := hr ▸ h.ids
  oneOpen e p := hr ▸ h.oneOpen e p
  oneLive e p k := hr ▸ h.oneLive e p k
  keys := hs ▸ h.keys
  adopted := by rw [hs, hl]; exact h.adopted
  committed := hs ▸ h.committed
  forced := by rw [hr, hs]; exact h.forced
  fitsPrompt := hr ▸ h.fitsPrompt
  fitsK := hs ▸ h.fitsK
  fitsUntil := hp

/-- Every move keeps the tables well formed. -/
theorem Move.wf (hm : Move sha256 s b b') (h : Wf sha256 b) : Wf sha256 b' := by
  cases hm with
  | rows leases hm => exact h.rows hm
  | issue l x n _ _ hfits hid hfree hx hk _ hn hh =>
    exact h.issue hfits hid hfree hx hk ⟨n, hn, hh⟩
  | adopt maxLag k secret c now _ _ hfits hl hnew hc =>
    exact h.adopt hfits hl hnew hc
  | scan e p k rewards verdict now move _ hfits =>
    exact h.frame rfl rfl rfl (forall_snoc
      (fun row hrow => h.fitsUntil row (mem_deleteWhere.1 hrow).1) hfits)
  | restamp prompts n _ _ hm =>
    refine h.frame rfl rfl rfl fun row hrow til htil => ?_
    obtain ⟨r, hr, hmove⟩ := exists_before hm hrow
    obtain ⟨til₀, htil₀, hle⟩ := hmove.shorter til htil
    exact lt_of_le_of_lt hle (h.fitsUntil r hr til₀ htil₀)
  | frame _ hl hs hr _ hp =>
    refine h.frame hl hs hr ?_
    rw [hp]
    exact h.fitsUntil

/-- What every move keeps, every list of moves keeps. -/
theorem Moves.keeps {I : Book → Prop} (hm : Moves sha256 s b b')
    (h : I b) (hmove : ∀ {b b'}, Move sha256 s b b' → I b → I b') : I b' := by
  induction hm with
  | refl => exact h
  | tail _ hm ih => exact hmove hm ih

theorem Moves.wf (hm : Moves sha256 s b b') (h : Wf sha256 b) : Wf sha256 b' :=
  hm.keeps h fun hm hb => hm.wf hb

-- ===== rows over moves

/-- The row `r'` was the row `r` before: the same lease, open only if it
was, and then due no earlier. -/
structure RowEvolved (r r' : LeaseRow) : Prop where
  leaseId : r'.leaseId = r.leaseId
  hotkey : r'.hotkey = r.hotkey
  environment : r'.environment = r.environment
  promptIdx : r'.promptIdx = r.promptIdx
  checkpoint : r'.checkpoint = r.checkpoint
  nonce : r'.nonce = r.nonce
  opened : r'.isOpen = true → r.isOpen = true ∧ r.expiresAt ≤ r'.expiresAt

theorem RowEvolved.refl (r : LeaseRow) : RowEvolved r r :=
  ⟨rfl, rfl, rfl, rfl, rfl, rfl, fun h => ⟨h, le_refl _⟩⟩

theorem RowEvolved.trans {r r' r'' : LeaseRow} (h : RowEvolved r r')
    (h' : RowEvolved r' r'') : RowEvolved r r'' where
  leaseId := h'.leaseId.trans h.leaseId
  hotkey := h'.hotkey.trans h.hotkey
  environment := h'.environment.trans h.environment
  promptIdx := h'.promptIdx.trans h.promptIdx
  checkpoint := h'.checkpoint.trans h.checkpoint
  nonce := h'.nonce.trans h.nonce
  opened ho := by
    obtain ⟨ho', hle'⟩ := h'.opened ho
    obtain ⟨ho'', hle⟩ := h.opened ho'
    exact ⟨ho'', le_trans hle hle'⟩

/-- A row move is one. -/
theorem RowMove.evolved (hm : RowMove s r r') : RowEvolved r r' := by
  obtain ⟨hid, hh, he, hp, hk, hn⟩ := hm.same
  refine ⟨hid, hh, he, hp, hk, hn, ?_⟩
  intro ho
  have hr := hm.isOpen_of ho
  cases hm with
  | keep => exact ⟨hr, le_refl _⟩
  | extend e _ hle => exact ⟨hr, hle⟩
  | close state _ _ _ _ hst =>
    rcases hst with rfl | rfl
    · cases ho
    · cases ho
  | submit => cases ho

/-- **A row after a list of moves** was there before, or was issued. -/
theorem Moves.evolved (hm : Moves sha256 s b b') :
    ∀ r' ∈ b'.leases, (∃ r ∈ b.leases, RowEvolved r r')
      ∨ s.issues r'.leaseId := by
  induction hm with
  | refl => exact fun r hr => .inl ⟨r, hr, RowEvolved.refl r⟩
  | tail _ hlast ih =>
    intro r' hr'
    cases hlast with
    | rows leases hm =>
      obtain ⟨r, hr, hrr⟩ := exists_before hm hr'
      rcases ih r hr with ⟨r₀, hr₀, hev⟩ | hiss
      · exact .inl ⟨r₀, hr₀, hev.trans hrr.evolved⟩
      · rw [hrr.same.1]
        exact .inr hiss
    | issue l _ _ hiss =>
      rcases mem_snoc.1 hr' with hr' | rfl
      · exact ih r' hr'
      · exact .inr hiss
    | adopt => exact ih r' (mem_deleteWhere.1 hr').1
    | scan => exact ih r' hr'
    | restamp => exact ih r' hr'
    | frame _ _ _ hl => exact ih r' (hl ▸ hr')

/-- A prompt that has a state keeps one. -/
theorem Moves.prompt_kept (hm : Moves sha256 s b b') {p : PromptRow}
    (hp : p ∈ b.prompts) : ∃ p' ∈ b'.prompts, p'.environment = p.environment
      ∧ p'.promptIdx = p.promptIdx := by
  refine hm.keeps (I := fun b => ∃ p' ∈ b.prompts,
    p'.environment = p.environment ∧ p'.promptIdx = p.promptIdx)
    ⟨p, hp, rfl, rfl⟩ ?_
  rintro b b' hm ⟨q, hq, he, hi⟩
  cases hm with
  | scan environment promptIdx k rewards verdict now move =>
    -- the state of the scanned prompt is written anew
    by_cases hf : PromptRow.isFor environment promptIdx q = true
    · refine ⟨_, List.mem_concat_self, ?_⟩
      simp only [PromptRow.isFor, Bool.and_eq_true, beq_iff_eq] at hf
      exact ⟨hf.1.symm.trans he, hf.2.symm.trans hi⟩
    · refine ⟨q, List.mem_append_left _ (mem_deleteWhere.2 ⟨hq, ?_⟩), he, hi⟩
      simpa using hf
  | restamp prompts n _ _ hmoves =>
    obtain ⟨q', hq', hmove⟩ := exists_after hmoves hq
    exact ⟨q', hq', hmove.environment.trans he, hmove.promptIdx.trans hi⟩
  | frame _ _ _ _ _ hprompts => exact ⟨q, hprompts ▸ hq, he, hi⟩
  | _ => exact ⟨q, hq, he, hi⟩

end Reliquary.Rl
