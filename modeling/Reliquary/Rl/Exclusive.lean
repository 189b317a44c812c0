/-
Exclusivity and forced draws, along every run of the lease book.

# Exclusivity

At most one open lease of a prompt, at most one open or submitted lease
of a key (environment, prompt, checkpoint): both are fields of `Wf`. That
a submitted key stays closed is not, because its row is deleted once its
checkpoint is long retired. `Closed` is what survives the deletion: the
rows that go are of checkpoints whose secret is revealed, and a lease is
only issued on an unrevealed one.

# Forced draws

A secret is drawn once, at its checkpoint's adoption, and never changes;
every lease's nonce is the one its checkpoint's secret forces. So the
nonce of a key is known to be the same for every lease of it before the
secret is, and can be checked once it is revealed; and what
`commitments()` reveals is never leasable again.
-/
import Reliquary.Rl.BookRun

namespace Reliquary.Rl

open Store Relation BookRuns

variable {sha256 : List UInt8 → List UInt8} {token : Nat → String}
  {s : Scope} {b b' : Book} {w w' : BookWorld} {l : Lease} {x : SecretRow}

-- ===== closed keys

/-- Two leases of one (environment, prompt, checkpoint). -/
def SameKey (l l' : Lease) : Prop :=
  l.environment = l'.environment ∧ l.promptIdx = l'.promptIdx
    ∧ l.checkpoint = l'.checkpoint

/-- The checkpoint's secret is revealed. -/
def Revealed (b : Book) (k : Int) : Prop :=
  ∃ x ∈ b.secrets, x.k = k ∧ x.revealedAt.isSome = true

/-- The key of `l` can no longer be leased: no lease of it is open, and
one is submitted, or its checkpoint's secret is revealed. -/
structure Closed (l : Lease) (b : Book) : Prop where
  notOpen : ∀ r ∈ b.leases, SameKey r.toLease l → r.isOpen = false
  shut : (∃ r ∈ b.leases, SameKey r.toLease l ∧ r.state = .submitted)
    ∨ Revealed b l.checkpoint

/-- A revealed secret stays revealed. -/
theorem Move.revealed (hm : Move sha256 s b b') {k : Int}
    (h : Revealed b k) : Revealed b' k := by
  obtain ⟨x, hx, hk, hr⟩ := h
  cases hm with
  | adopt maxLag k' secret c now =>
    obtain ⟨y, hy, hyk, -, -, hrev, -⟩ := adopted_secret_kept hx
    exact ⟨y, hy, hyk.trans hk, hrev hr⟩
  | frame _ _ hs => exact ⟨x, hs ▸ hx, hk, hr⟩
  | _ => exact ⟨x, hx, hk, hr⟩

/-- A secret that an issue reads is not revealed. -/
theorem Wf.not_revealed (h : Wf sha256 b)
    (hx : x ∈ b.secrets) (hn : x.revealedAt = none) : ¬Revealed b x.k := by
  rintro ⟨y, hy, hk, hr⟩
  have hxy : y = x := eq_of_key h.keys hy hx hk
  rw [hxy, hn] at hr
  cases hr

/-- No issue is of a closed key: its guard sees the submitted row, or
there is no unrevealed secret to draw from. -/
theorem Closed.not_issued (h : Closed l b) (hwf : Wf sha256 b) {l' : LeaseRow}
    (hfree : ∀ r ∈ b.leases,
      takenBy l'.environment l'.promptIdx l'.checkpoint r = false)
    (hx : x ∈ b.secrets) (hk : x.k = l'.checkpoint)
    (hn : x.revealedAt = none) : ¬SameKey l'.toLease l := by
  rintro ⟨he, hp, hc⟩
  rcases h.shut with ⟨r, hr, ⟨hre, hrp, hrc⟩, hst⟩ | hrev
  · have hf := hfree r hr
    have ht : takenBy l'.environment l'.promptIdx l'.checkpoint r = true := by
      simp [takenBy, hre.trans he.symm, hrp.trans hp.symm,
        hrc.trans hc.symm, hst]
    rw [ht] at hf
    cases hf
  · refine hwf.not_revealed hx hn ?_
    rw [hk, hc]
    exact hrev

/-- **A closed key stays closed**, whatever is written. -/
theorem Move.closed (hm : Move sha256 s b b') (hwf : Wf sha256 b)
    (h : Closed l b) : Closed l b' := by
  cases hm with
  | rows leases hm =>
    constructor
    · intro r' hr' hkey
      obtain ⟨r, hr, hrr⟩ := exists_before hm hr'
      obtain ⟨-, -, he, hp, hc, -⟩ := hrr.same
      have hno := h.notOpen r hr ⟨he.symm.trans hkey.1, hp.symm.trans hkey.2.1,
          hc.symm.trans hkey.2.2⟩
      by_contra ho
      rw [hrr.isOpen_of (by simpa using ho)] at hno
      cases hno
    · rcases h.shut with ⟨r, hr, hkey, hst⟩ | hrev
      · obtain ⟨r', hr', hrr⟩ := exists_after hm hr
        rw [hrr.submitted_fixed hst] at hr'
        exact .inl ⟨r, hr', hkey, hst⟩
      · exact .inr hrev
  | issue l' x n _ _ _ _ hfree hx hk hn =>
    constructor
    · intro r hr hkey
      rcases mem_snoc.1 hr with hr | rfl
      · exact h.notOpen r hr hkey
      · exact absurd hkey (h.not_issued hwf hfree hx hk hn)
    · rcases h.shut with ⟨r, hr, hkey, hst⟩ | hrev
      · exact .inl ⟨r, List.mem_append_left _ hr, hkey, hst⟩
      · exact .inr hrev
  | adopt maxLag k secret c now hs hlag hfits hlatest hnew hc =>
    constructor
    · intro r hr hkey
      exact h.notOpen r (mem_deleteWhere.1 hr).1 hkey
    · rcases h.shut with ⟨r, hr, hkey, hst⟩ | hrev
      · by_cases hold : r.checkpoint < k - maxLag - maxLag
        · -- the row goes; its checkpoint is retired, so its secret shows
          refine .inr ?_
          obtain ⟨x, hx, hxk, -⟩ := hwf.forced r hr
          obtain ⟨y, hy, hyk, -, -, -, hret⟩ := adopted_secret_kept hx
          refine ⟨y, hy, hyk.trans (hxk.trans hkey.2.2), hret ?_⟩
          omega
        · refine .inl ⟨r, mem_deleteWhere.2 ⟨hr, ?_⟩, hkey, hst⟩
          simp [hold]
      · exact .inr (Move.revealed (Move.adopt (s := s) b maxLag k
          secret c now hs hlag hfits hlatest hnew hc) hrev)
  | scan => exact ⟨h.notOpen, h.shut⟩
  | restamp => exact ⟨h.notOpen, h.shut⟩
  | frame _ hl hs hr =>
    constructor
    · rw [hr]
      exact h.notOpen
    · unfold Revealed
      rw [hr, hs]
      exact h.shut

-- ===== submissions

/-- What a submission that was accepted did. -/
theorem submit_ok_inv {live : Live} {leaseId hotkey : String}
    {inZone delivered : Bool} {now : ℚ} {lease : Lease}
    (h : (submit live leaseId hotkey inZone delivered now).run w
      = (.ok lease, w')) :
    SubmitOk leaseId hotkey inZone delivered now w lease w' := by
  have hspec := submit_spec live leaseId hotkey inZone delivered now w rfl
  rw [h] at hspec
  exact hspec

/-- An accepted submission closes its key. -/
theorem closed_of_submit (hwf : Wf sha256 w.file) {live : Live}
    {leaseId hotkey : String} {inZone delivered : Bool} {now : ℚ}
    {lease : Lease} (h : (submit live leaseId hotkey inZone delivered now).run w
      = (.ok lease, w')) : Closed lease w'.file := by
  have hok := submit_ok_inv h
  have hrows := hok.leases
  obtain ⟨r, hr, hid, -, ho, -, rfl⟩ := hok.was
  constructor
  · intro r' hr' hkey
    rw [hrows] at hr'
    obtain ⟨r₀, hr₀, rfl⟩ := mem_updateWhere.1 hr'
    split at hkey
    next hid₀ => rw [if_pos hid₀]; rfl
    next hid₀ =>
      rw [if_neg hid₀]
      by_contra hopen
      -- two open leases of one prompt are one lease
      have hrr : r₀ = r :=
        (hwf.oneOpen r.environment r.promptIdx).eq hr₀ hr
          (by simp [openAt, hkey.1, hkey.2.1, by simpa using hopen])
          (by simp [openAt, ho])
      rw [hrr] at hid₀
      exact hid₀ (by simpa using hid)
  · refine .inl ⟨{ r with state := .submitted, closedAt := some now },
      ?_, ⟨rfl, rfl, rfl⟩, rfl⟩
    rw [hrows]
    exact mem_updateWhere.2 ⟨r, hr, by simp [hid]⟩

-- ===== exclusivity

section Grants

variable (sha256 : List UInt8 → List UInt8) (token : Nat → String)

/-- Some call of `grant` at `w` answers the lease `l` and leaves `w'`. -/
def Answers (w : BookWorld) (l : Lease) (w' : BookWorld) : Prop :=
  ∃ live requests now shuffle buffer answers,
    (grant sha256 live requests now shuffle token buffer).run w
      = (.ok answers, w') ∧ ∃ a ∈ answers, l ∈ a.leases

/-- The call issues the lease: it was not on record before. -/
def Issues (w : BookWorld) (l : Lease) (w' : BookWorld) : Prop :=
  Answers sha256 token w l w' ∧ w.file.row l.leaseId = none

end Grants

/-- What a grant answers is an open row of the book it leaves, and the
grant kept its scope. -/
theorem Answers.spec (hwf : Wf sha256 w.file)
    (h : Answers sha256 token w l w') : OnRecord w'.file l
      ∧ Moves sha256 { closes := Unheld w, issues := Undrawn token w }
          w.file w'.file := by
  obtain ⟨live, requests, now, shuffle, buffer, answers, hrun, a, ha, hl⟩ := h
  have hspec := grant_spec
    (s := { closes := Unheld w, issues := Undrawn token w }) hwf
    (fun _ hid => hid) (fun i hi => ⟨i, hi, rfl⟩) live requests now shuffle
    buffer w rfl
  rw [hrun] at hspec
  exact ⟨hspec.granted a ha l hl, hspec.kept.file⟩

/-- No grant answers a lease of a closed key. -/
theorem Closed.not_answered {l l' : Lease} (h : Closed l w.file)
    (hwf : Wf sha256 w.file) (ha : Answers sha256 token w l' w') :
    ¬SameKey l' l := by
  obtain ⟨⟨r, hr, rfl, ho⟩, hm⟩ := ha.spec hwf
  have hclosed := hm.keeps (I := fun b => Wf sha256 b ∧ Closed l b)
    ⟨hwf, h⟩ fun hm hb => ⟨hm.wf hb.1, hm.closed hb.1 hb.2⟩
  intro hkey
  have hno := hclosed.2.notOpen r hr hkey
  rw [ho] at hno
  cases hno

/-- **Lease exclusivity.** In every state a run of the book reaches from
an empty file, at most one lease of a prompt is open over all
checkpoints, and at most one lease of a key is open or submitted. Once a
submission of a lease is accepted, no grant of any later state answers a
lease of its key, whatever was adopted and deleted in between. -/
theorem lease_exclusive (config : BookConfig) (quotaConfig : QuotaConfig)
    (start : ℚ) {ops : List BookOp}
    (hrun : BookRuns sha256 token (firstBoot config quotaConfig start)
      ops w) : (∀ e p, Unique (openAt e p) w.file.leases)
      ∧ (∀ e p k, Unique (liveAt e p k) w.file.leases)
      ∧ ∀ live leaseId hotkey inZone delivered now lease w₁,
          (submit live leaseId hotkey inZone delivered now).run w
            = (.ok lease, w₁) →
          ∀ ops' w₂, BookRuns sha256 token w₁ ops' w₂ →
          ∀ l w₃, Answers sha256 token w₂ l w₃ → ¬SameKey l lease := by
  have hwf : Wf sha256 w.file :=
    wf hrun (wf_firstBoot config quotaConfig start)
  refine ⟨hwf.oneOpen, hwf.oneLive, ?_⟩
  intro live leaseId hotkey inZone delivered now lease w₁ hsub ops' w₂
    hrun' l w₃ hans
  -- the submission is itself a step, so its world is well formed
  have hwf₁ : Wf sha256 w₁.file := by
    have hstep : Wf sha256 (step sha256 token w
        (.submit live leaseId hotkey inZone delivered now)).file :=
      step_wf hwf _
    simp only [step, hsub] at hstep
    exact hstep
  have hclosed : Closed lease w₂.file :=
    keeps hrun' hwf₁ (closed_of_submit hwf hsub)
      fun hm hw hc => hm.closed hw hc
  exact hclosed.not_answered (wf hrun' hwf₁) hans

/-- The lease of a small book, submitted: its key is closed for good. -/
theorem lease_exclusive_submitted :
    ∃ lease w₁, (submit calm "0" "a" true true 3).run leasedWorld
        = (.ok lease, w₁) ∧ ∀ ops' w₂, BookRuns firstByte counted w₁ ops' w₂ →
        ∀ l w₃, Answers firstByte counted w₂ l w₃ → ¬SameKey l lease := by
  have hok : ((submit calm "0" "a" true true 3).run
      leasedWorld).1.toOption.isSome = true := by decide +kernel
  cases hsub : (submit calm "0" "a" true true 3).run leasedWorld with
  | mk answer w₁ =>
    rw [hsub] at hok
    cases answer with
    | error e => cases hok
    | ok lease =>
      exact ⟨lease, w₁, rfl, (lease_exclusive oneEnv {} 0
        leasedWorld_run).2.2 calm "0" "a" true true 3 lease w₁ hsub⟩

-- ===== forced draws

/-- Secrets and commitments are kept by every move, and added only by an
adoption. -/
theorem Move.secrets (hm : Move sha256 s b b') :
    (∀ x ∈ b.secrets, ∃ y ∈ b'.secrets, y.k = x.k ∧ y.secret = x.secret
        ∧ y.commitment = x.commitment)
      ∧ ∀ y ∈ b'.secrets, (∃ x ∈ b.secrets, x.k = y.k
          ∧ x.secret = y.secret) ∨ s.adopts y.k y.secret := by
  by_cases hs : b'.secrets = b.secrets
  · rw [hs]
    exact ⟨fun x hx => ⟨x, hx, rfl, rfl, rfl⟩,
      fun y hy => .inl ⟨y, hy, rfl, rfl⟩⟩
  cases hm with
  | adopt maxLag k secret c now hadopt =>
    constructor
    · intro x hx
      obtain ⟨y, hy, hk, hsec, hc, -⟩ := adopted_secret_kept hx
      exact ⟨y, hy, hk, hsec, hc⟩
    · intro y hy
      rcases mem_adopted_secrets hy with ⟨hk, hsec, -⟩ | ⟨x, hx, hk, hsec, -⟩
      · rw [hk, hsec]
        exact .inr hadopt
      · exact .inl ⟨x, hx, hk.symm, hsec.symm⟩
  | frame _ _ hframe => exact absurd hframe hs
  | _ => exact absurd rfl hs

/-- A drawn secret is kept along a run, with its commitment. -/
theorem BookRuns.secret_kept {ops : List BookOp}
    (h : BookRuns sha256 token w ops w') (hwf : Wf sha256 w.file)
    (hx : x ∈ w.file.secrets) :
    ∃ y ∈ w'.file.secrets, y.k = x.k ∧ y.secret = x.secret
      ∧ y.commitment = x.commitment := by
  refine keeps (I := fun b => ∃ y ∈ b.secrets, y.k = x.k
    ∧ y.secret = x.secret ∧ y.commitment = x.commitment) h hwf
    ⟨x, hx, rfl, rfl, rfl⟩ ?_
  rintro s b b' hm - ⟨y, hy, hk, hs, hc⟩
  obtain ⟨z, hz, hzk, hzs, hzc⟩ := hm.secrets.1 y hy
  exact ⟨z, hz, hzk.trans hk, hzs.trans hs, hzc.trans hc⟩

/-- A secret of the table was drawn by an adoption of the run, or was
there before it. -/
theorem BookRuns.secret_origin {ops : List BookOp}
    (h : BookRuns sha256 token w ops w') (hwf : Wf sha256 w.file) :
    ∀ y ∈ w'.file.secrets, (∃ x ∈ w.file.secrets, x.k = y.k
        ∧ x.secret = y.secret)
      ∨ ∃ now, BookOp.adopt y.k y.secret now ∈ ops := by
  induction h with
  | nil v => exact fun y hy => .inl ⟨y, hy, rfl, rfl⟩
  | @cons v v' ops op _ _ ih =>
    -- one operation adds only the secret it adopts
    have hop : ∀ b, Moves sha256 (op.scope token v) v.file b → ∀ y ∈ b.secrets,
        (∃ x ∈ v.file.secrets, x.k = y.k ∧ x.secret = y.secret)
          ∨ ∃ now, op = .adopt y.k y.secret now := by
      intro b hb
      induction hb with
      | refl => exact fun y hy => .inl ⟨y, hy, rfl, rfl⟩
      | tail _ hlast ih =>
        intro y hy
        rcases hlast.secrets.2 y hy with ⟨x, hx, hk, hs⟩ | had
        · rw [← hk, ← hs]
          exact ih x hx
        · right
          cases op with
          | adopt k urandom now =>
            obtain ⟨hk, hs⟩ := had
            exact ⟨now, by rw [hk, hs]⟩
          | _ => exact absurd had id
    intro y hy
    rcases ih (step_wf hwf op) y hy with ⟨x, hx, hk, hs⟩ | ⟨now, hmem⟩
    · rw [← hk, ← hs]
      rcases hop _ (step_moves hwf op) x hx with hin | ⟨now, rfl⟩
      · exact .inl hin
      · exact .inr ⟨now, List.mem_cons_self⟩
    · exact .inr ⟨now, List.mem_cons_of_mem _ hmem⟩

/-- Moves that adopt nothing keep the secrets, and a row they add draws
from an unrevealed one. -/
theorem Moves.issued (hm : Moves sha256 s b b') (hs : ∀ k x, ¬s.adopts k x) :
    b'.secrets = b.secrets ∧ ∀ r ∈ b'.leases,
      (∃ r₀ ∈ b.leases, r₀.leaseId = r.leaseId)
        ∨ ∃ x ∈ b.secrets, x.k = r.checkpoint ∧ x.revealedAt = none := by
  induction hm with
  | refl => exact ⟨rfl, fun r hr => .inl ⟨r, hr, rfl⟩⟩
  | tail _ hlast ih =>
    obtain ⟨hsec, hrows⟩ := ih
    cases hlast with
    | rows leases hm =>
      refine ⟨hsec, fun r' hr' => ?_⟩
      obtain ⟨r, hr, hrr⟩ := exists_before hm hr'
      obtain ⟨hid, -, -, -, hc, -⟩ := hrr.same
      rw [hid, hc]
      exact hrows r hr
    | issue l x n _ _ _ _ _ hx hk hn =>
      exact ⟨hsec, forall_snoc hrows (.inr ⟨x, hsec ▸ hx, hk, hn⟩)⟩
    | adopt _ k x _ _ had => exact absurd had (hs k x)
    | scan => exact ⟨hsec, hrows⟩
    | restamp => exact ⟨hsec, hrows⟩
    | frame _ _ hs' hr' =>
      refine ⟨hs'.trans hsec, ?_⟩
      rw [hr']
      exact hrows

/-- A lease is issued on an unrevealed secret. -/
theorem Issues.unrevealed (hwf : Wf sha256 w.file)
    (h : Issues sha256 token w l w') :
    ∃ x ∈ w.file.secrets, x.k = l.checkpoint ∧ x.revealedAt = none := by
  obtain ⟨hans, hnew⟩ := h
  obtain ⟨⟨r, hr, rfl, -⟩, hm⟩ := hans.spec hwf
  rcases (hm.issued fun _ _ had => had).2 r hr with ⟨r₀, hr₀, hid⟩ | hx
  · have hno := List.find?_eq_none.1 hnew r₀ hr₀
    exact absurd (by simpa using hid) hno
  · exact hx

/-- What `commitments()` lists as revealed is a revealed secret. -/
theorem mem_commitments_revealed {k : Int} {c x : String}
    (h : (k, c, x) ∈ (commitments w).revealed) :
    ∃ y ∈ w.file.secrets, y.k = k ∧ c = hex y.commitment
      ∧ x = hex y.secret ∧ y.revealedAt.isSome = true := by
  unfold commitments at h
  obtain ⟨y, hy, heq⟩ := List.mem_map.1 (List.mem_of_mem_drop h)
  obtain ⟨hy, hr⟩ := List.mem_filter.1 hy
  injection heq with hk heq
  injection heq with hc hx
  exact ⟨y, (List.perm_insertionSort _ _).mem_iff.1 hy, hk, hc.symm,
    hx.symm, hr⟩

/-- An answered lease has the nonce its checkpoint's secret forces. -/
theorem Answers.forced (hwf : Wf sha256 w.file)
    (h : Answers sha256 token w l w') :
    ∃ x ∈ w'.file.secrets, x.k = l.checkpoint ∧ NonceOf sha256 x.secret l := by
  obtain ⟨⟨r, hr, rfl, -⟩, hm⟩ := h.spec hwf
  exact (hm.wf hwf).forced r hr

/-- One secret forces one nonce for a key. -/
theorem NonceOf.unique {secret : List UInt8} {l l' : Lease}
    (h : NonceOf sha256 secret l) (h' : NonceOf sha256 secret l')
    (hkey : SameKey l' l) : l'.nonce = l.nonce := by
  obtain ⟨n, hn, hh⟩ := h
  obtain ⟨n', hn', hh'⟩ := h'
  rw [hkey.1, hkey.2.1, hkey.2.2, hn] at hn'
  injection hn' with hn'
  rw [hh, hh', hn']

/-- **Draw secrecy and determinism.** In every state a run reaches from
an empty file: a lease is only issued on a checkpoint the run adopted; a
checkpoint whose secret `commitments()` returns is never issued a lease
on again; a drawn secret and its commitment are the same ever after; and
every lease a grant answers has the nonce of every other lease of its
key, which is the one forced by the secret later revealed. -/
theorem draw_forced (config : BookConfig) (quotaConfig : QuotaConfig)
    (start : ℚ) {ops : List BookOp}
    (hrun : BookRuns sha256 token (firstBoot config quotaConfig start) ops w) :
    (∀ l w₁, Issues sha256 token w l w₁ →
        ∃ secret now, BookOp.adopt l.checkpoint secret now ∈ ops)
      ∧ (∀ k c x, (k, c, x) ∈ (commitments w).revealed →
          ∀ ops' w₂, BookRuns sha256 token w ops' w₂ →
          ∀ l w₃, Issues sha256 token w₂ l w₃ → l.checkpoint ≠ k)
      ∧ (∀ x ∈ w.file.secrets, ∀ ops' w₂, BookRuns sha256 token w ops' w₂ →
            (∃ y ∈ w₂.file.secrets, y.k = x.k)
              ∧ ∀ y ∈ w₂.file.secrets, y.k = x.k →
                  y.secret = x.secret ∧ y.commitment = x.commitment)
      ∧ ∀ l w₁, Answers sha256 token w l w₁ →
          ∀ ops' w₂, BookRuns sha256 token w₁ ops' w₂ →
            (∀ l' w₃, Answers sha256 token w₂ l' w₃ → SameKey l' l →
              l'.nonce = l.nonce)
              ∧ ∀ c x, (l.checkpoint, c, x) ∈ (commitments w₂).revealed →
                  ∃ secret, x = hex secret ∧ NonceOf sha256 secret l := by
  have hstart : Wf sha256 (firstBoot config quotaConfig start).file :=
    wf_firstBoot config quotaConfig start
  have hwf : Wf sha256 w.file := wf hrun hstart
  refine ⟨?_, ?_, ?_, ?_⟩
  · intro l w₁ hiss
    obtain ⟨x, hx, hk, -⟩ := hiss.unrevealed hwf
    rcases secret_origin hrun hstart x hx with
      ⟨y, hy, -⟩ | ⟨now, hmem⟩
    · -- the empty file has no secret, and a boot draws none
      cases hy
    · exact ⟨x.secret, now, hk ▸ hmem⟩
  · intro k c x hrev ops' w₂ hrun' l w₃ hiss hlk
    have hwf₂ := wf hrun' hwf
    obtain ⟨y, hy, hk, -, -, hyr⟩ := mem_commitments_revealed hrev
    have hrev₂ : Revealed w₂.file k :=
      keeps hrun' hwf ⟨y, hy, hk, hyr⟩ fun hm _ hr => hm.revealed hr
    obtain ⟨z, hz, hzk, hzn⟩ := hiss.unrevealed hwf₂
    refine hwf₂.not_revealed hz hzn ?_
    rw [hzk, hlk]
    exact hrev₂
  · intro x hx ops' w₂ hrun'
    obtain ⟨y, hy, hk, hs, hc⟩ := secret_kept hrun' hwf hx
    refine ⟨⟨y, hy, hk⟩, fun z hz hzk => ?_⟩
    have hzy : z = y := eq_of_key (wf hrun' hwf).keys hz hy
      (hzk.trans hk.symm)
    rw [hzy]
    exact ⟨hs, hc⟩
  · intro l w₁ hans ops' w₂ hrun'
    have hwf₁ : Wf sha256 w₁.file := (hans.spec hwf).2.wf hwf
    have hwf₂ := wf hrun' hwf₁
    obtain ⟨x, hx, hxk, hforced⟩ := hans.forced hwf
    obtain ⟨y, hy, hyk, hys, -⟩ := secret_kept hrun' hwf₁ hx
    constructor
    · intro l' w₃ hans' hkey
      obtain ⟨z, hz, hzk, hforced'⟩ := hans'.forced hwf₂
      -- the later grant draws from the secret that was kept
      obtain ⟨hsec, -⟩ := (hans'.spec hwf₂).2.issued fun _ _ had => had
      have hzy : z = y := eq_of_key hwf₂.keys (hsec ▸ hz) hy (by
        rw [hzk, hyk, hxk]
        exact hkey.2.2)
      rw [hzy, hys] at hforced'
      exact hforced.unique hforced' hkey
    · intro c x' hrev
      obtain ⟨z, hz, hzk, -, hx', -⟩ := mem_commitments_revealed hrev
      have hzy : z = y := eq_of_key hwf₂.keys hz hy
        (hzk.trans (hyk.trans hxk).symm)
      rw [hzy, hys] at hx'
      exact ⟨x.secret, hx', hforced⟩

/-- The small book after checkpoint 18: the secret of checkpoint 1 is
published, and no lease on it is issued again. -/
theorem draw_forced_retired :
    (1, hex [114], hex [7]) ∈ (commitments
        (step firstByte counted leasedWorld (.adopt 18 [9] 5))).revealed
      ∧ ∀ ops' w₂, BookRuns firstByte counted
          (step firstByte counted leasedWorld (.adopt 18 [9] 5)) ops' w₂ →
        ∀ l w₃, Issues firstByte counted w₂ l w₃ → l.checkpoint ≠ 1 := by
  have hrev : (1, hex [114], hex [7]) ∈ (commitments
      (step firstByte counted leasedWorld (.adopt 18 [9] 5))).revealed := by
    decide +kernel
  exact ⟨hrev, (draw_forced oneEnv {} 0 (leasedWorld_run.snoc
    (a := BookOp.adopt 18 [9] 5) trivial)).2.1 1 _ _ hrev⟩

end Reliquary.Rl
