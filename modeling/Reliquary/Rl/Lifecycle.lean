/-
The life of a prompt over whole runs.

Three operations bear on a prompt's row: an outcome replaces it, a
revision maps every row, an adoption moves the checkpoint both read.
`Lived` is what the rows have to do with the log of scans: a row is
blacklisted where two scans were too easy, and cooling otherwise, with
both ends of its cooldown on record.

# A pass is a map

A revision restamps rows env by env. On the columns that decide a
prompt's life it is a map (`Restamped.life` in `Footprint.lean`), so that
no cooldown gets longer, that each ends within its env's cooldown, and
that a second pass finds nothing to do are facts of one row (`Shortened`,
`foldl_revise_within`, `foldl_revise_fixed`).

Before a checkpoint is adopted a revision returns at once, and a cooldown
recorded then may be longer than its env's.
-/
import Reliquary.Rl.BookRun

namespace Reliquary.Rl

open Store Prog List Option PromptRow

variable {sha256 : List UInt8 → List UInt8} {token : Nat → String}
  {b : Book} {r r' : PromptRow} {w v : BookWorld} {live : Live}
  {cs : List (String × Int)} {env : String} {c : Int}

-- ===== one row of a pass

/-- A cooldown within its bound stays there. -/
theorem Shortened.within (h : Shortened r r')
    (hr : r.shortens env c = false) : r'.shortens env c = false := by
  rw [← Bool.not_eq_true, shortens_iff] at hr ⊢
  rintro ⟨he, hs, start, hstart, til', htil', hlt⟩
  obtain ⟨til, htil, hle⟩ := h.shorter til' htil'
  rw [h.environment] at he
  rw [h.state] at hs
  rw [h.startK] at hstart
  exact hr ⟨he, hs, start, hstart, til, htil, by omega⟩

theorem revise_within (r : PromptRow) (ec : String × Int) :
    (r.revise ec).shortens ec.1 ec.2 = false := by
  rw [revise]
  split
  next hs =>
    rw [← Bool.not_eq_true, shortens_iff]
    rintro ⟨-, -, start, hstart, til, htil, hlt⟩
    simp only [mem_def] at hstart htil
    simp only [hstart, map_some, some.injEq] at htil
    omega
  next hs => simpa using hs

/-- After a pass every cooldown is within its env's. -/
theorem foldl_revise_within (cs : List (String × Int)) (r : PromptRow) :
    ∀ ec ∈ cs, (cs.foldl revise r).shortens ec.1 ec.2 = false := by
  induction cs generalizing r with
  | nil => exact nofun
  | cons ec cs ih =>
    rw [forall_mem_cons]
    exact ⟨(shortened_foldl cs _).within (revise_within r ec), ih _⟩

/-- A pass has nothing to do where every cooldown is within its env's. -/
theorem foldl_revise_fixed (h : ∀ ec ∈ cs, r.shortens ec.1 ec.2 = false) :
    cs.foldl revise r = r := by
  induction cs with
  | nil => rfl
  | cons ec cs ih =>
    rw [forall_mem_cons] at h
    have hr : r.revise ec = r := by simp [revise, h.1]
    rw [foldl_cons, hr, ih h.2]

-- ===== the pass

theorem Pass.same (h : Pass live w v) : v.mem = w.mem
    ∧ v.file.latest = w.file.latest ∧ v.file.scans = w.file.scans := by
  obtain ⟨stamp, hr⟩ := h
  refine ⟨hr.mem, ?_, ?_⟩
  · rw [hr.file]
  · rw [hr.file]

/-- Row by row. -/
theorem Pass.rows (h : Pass live w v) : Forall₂ (fun r r' =>
    r'.life = (passOf live w).foldl revise r.life ∧ Shortened r r')
    w.file.prompts v.file.prompts := by
  obtain ⟨stamp, hr⟩ := h
  exact hr.moved.imp fun r r' hrow => ⟨hrow.life, hrow.shortened⟩

theorem Pass.within (h : Pass live w v) (hr : r ∈ v.file.prompts) :
    ∀ ec ∈ passOf live w, r.life.shortens ec.1 ec.2 = false := by
  obtain ⟨r₀, -, hlife, -⟩ := exists_before h.rows hr
  rw [hlife]
  exact foldl_revise_within _ r₀.life

/-- A pass right after a pass publishes nothing new. -/
theorem Pass.again {u : BookWorld} (h : Pass live w v) (h' : Pass live v u) :
    u.file.prompts.map entry
      = v.file.prompts.map entry := by
  have hpass : passOf live v = passOf live w := by
    rw [passOf, passOf, h.same.1, h.same.2.1]
  have hrows := (forall₂_and_left _ _).2 ⟨fun _ => h.within, h'.rows⟩
  rw [← forall₂_eq_eq_eq, forall₂_map_left_iff, forall₂_map_right_iff]
  refine (hrows.imp fun r r' hr => ?_).flip
  obtain ⟨hwithin, hlife, -⟩ := hr
  rw [hpass, foldl_revise_fixed hwithin] at hlife
  have hentry := congrArg entry hlife
  exact hentry

-- ===== rows and scans

/-- The too-easy scans of a prompt. -/
def Book.easyScans (b : Book) (environment : String) (promptIdx : Int) : Nat :=
  b.scans.countP fun s => s.environment = environment
    ∧ s.promptIdx = promptIdx ∧ s.verdict = .tooEasy

/-- The prompt's row says it is blacklisted. -/
def Book.blacklisted (b : Book) (environment : String) (promptIdx : Int) :
    Prop :=
  ∃ r ∈ b.prompts, r.isFor environment promptIdx = true
    ∧ r.state = .blacklisted

/-- What a prompt's row says after `easy` too-easy scans. -/
def PromptRow.Lives (easy : Nat) (r : PromptRow) : Prop :=
  r.state = .blacklisted ∧ 2 ≤ easy
    ∨ r.state = .cooldown ∧ easy < 2 ∧ r.startK.isSome ∧ r.untilK.isSome

/-- What the rows have to do with the scans. -/
structure Lived (b : Book) : Prop where
  rows : ∀ r ∈ b.prompts, r.Lives (b.easyScans r.environment r.promptIdx)
  scanned : ∀ s ∈ b.scans, ∃ r ∈ b.prompts,
    r.environment = s.environment ∧ r.promptIdx = s.promptIdx

theorem Lived.blacklisted_iff (h : Lived b) (environment : String)
    (promptIdx : Int) : b.blacklisted environment promptIdx
      ↔ 2 ≤ b.easyScans environment promptIdx := by
  constructor
  · rintro ⟨r, hr, hfor, hstate⟩
    simp only [isFor, Bool.and_eq_true, beq_iff_eq] at hfor
    rcases h.rows r hr with ⟨-, heasy⟩ | ⟨hcool, -⟩
    · rwa [hfor.1, hfor.2] at heasy
    · rw [hstate] at hcool
      cases hcool
  · intro heasy
    have hpos : 0 < b.easyScans environment promptIdx := by omega
    obtain ⟨s, hs, hkey⟩ := countP_pos_iff.1 hpos
    obtain ⟨rfl, rfl, -⟩ := of_decide_eq_true hkey
    obtain ⟨r, hr, he, hp⟩ := h.scanned s hs
    have hlives := h.rows r hr
    rw [he, hp] at hlives
    refine ⟨r, hr, by simp [isFor, he, hp], ?_⟩
    rcases hlives with ⟨hstate, -⟩ | ⟨-, hlt, -⟩
    · exact hstate
    · omega

theorem Lived.pass (h : Lived w.file) (hp : Pass live w v) : Lived v.file where
  rows r' hr' := by
    obtain ⟨r, hr, -, hs⟩ := exists_before hp.rows hr'
    have hlives := h.rows r hr
    rw [PromptRow.Lives, Book.easyScans] at hlives ⊢
    rwa [hs.state, hs.startK, hs.isSome, hs.environment, hs.promptIdx,
      hp.same.2.2]
  scanned s hs := by
    rw [hp.same.2.2] at hs
    obtain ⟨r, hr, he, hi⟩ := h.scanned s hs
    obtain ⟨r', hr', -, hsame⟩ := exists_after hp.rows hr
    exact ⟨r', hr', hsame.environment.trans he, hsame.promptIdx.trans hi⟩

/-- The row an outcome moves its prompt to. -/
theorem Lived.moveOf (h : Lived b) (environment : String)
    (promptIdx checkpoint : Int) (verdict : Verdict) (cooldown : Int)
    (r : PromptRow) (hr : (r.state, r.untilK, r.startK)
      = moveOf b environment promptIdx checkpoint verdict cooldown) :
    r.Lives (b.easyScans environment promptIdx
      + if verdict = .tooEasy then 1 else 0) := by
  -- the row the code reads knows of every earlier scan
  have hprior : (∀ p ∈ b.prompt environment promptIdx,
      p.Lives (b.easyScans environment promptIdx))
      ∧ (b.prompt environment promptIdx = none →
        b.easyScans environment promptIdx = 0) := by
    refine ⟨fun p hp => ?_, fun hnone => ?_⟩
    · have hkey := find?_some hp
      simp only [Bool.and_eq_true, beq_iff_eq] at hkey
      rw [← hkey.1, ← hkey.2]
      exact h.rows p (mem_of_find?_eq_some hp)
    · refine countP_eq_zero.2 fun s hs hkey => ?_
      obtain ⟨rfl, rfl, -⟩ := of_decide_eq_true hkey
      obtain ⟨p, hp, he, hi⟩ := h.scanned s hs
      exact absurd (find?_eq_none.1 hnone p hp) (by simp [he, hi])
  unfold Rl.moveOf at hr
  dsimp only at hr
  split at hr
  next hblack =>
    obtain ⟨hstate, -⟩ := Prod.mk.inj hr
    refine .inl ⟨hstate, ?_⟩
    rcases hblack with ⟨hv, s, hs, hkey⟩ | ⟨p, hp, hstate⟩
    · have : 0 < b.easyScans environment promptIdx :=
        countP_pos_iff.2 ⟨s, hs, decide_eq_true hkey⟩
      rw [if_pos hv]
      omega
    · rcases hprior.1 p hp with ⟨-, hle⟩ | ⟨hcool, -⟩
      · omega
      · rw [hstate] at hcool
        cases hcool
  next hcool =>
    rw [not_or] at hcool
    simp only [Prod.mk.injEq] at hr
    obtain ⟨hstate, htil, hstart⟩ := hr
    refine .inr ⟨hstate, ?_, by rw [hstart]; rfl, by rw [htil]; rfl⟩
    by_cases hv : verdict = .tooEasy
    · have hzero : b.easyScans environment promptIdx = 0 :=
        countP_eq_zero.2 fun s hs hkey =>
          hcool.1 ⟨hv, s, hs, of_decide_eq_true hkey⟩
      rw [hzero, if_pos hv]
      omega
    · rw [if_neg hv]
      cases hp : b.prompt environment promptIdx with
      | none =>
        have := hprior.2 hp
        omega
      | some p =>
        rcases hprior.1 p hp with ⟨hblack, -⟩ | ⟨-, hlt, -⟩
        · exact absurd ⟨p, hp, hblack⟩ hcool.2
        · exact hlt

theorem Lived.recordScan (h : Lived b) (environment : String)
    (promptIdx checkpoint : Int) (rewards : List ℚ) (verdict : Verdict)
    (now : ℚ) (cooldown : Int) :
    Lived (recordScan environment promptIdx checkpoint rewards verdict now
      (Rl.moveOf b environment promptIdx checkpoint verdict cooldown) b).2 where
  rows := by
    refine forall_snoc (fun r hr => ?_) ?_
    · rw [mem_deleteWhere] at hr
      have hkey : ¬(environment = r.environment ∧ promptIdx = r.promptIdx) := by
        rintro ⟨rfl, rfl⟩
        simp [isFor] at hr
      have hold := h.rows r hr.1
      simp only [Book.easyScans, Rl.recordScan, countP_append,
        countP_singleton] at hold ⊢
      rw [if_neg fun hd => hkey
        ⟨(of_decide_eq_true hd).1, (of_decide_eq_true hd).2.1⟩]
      exact hold
    · have hnew := h.moveOf environment promptIdx checkpoint verdict cooldown
        { environment, promptIdx, seq := b.scanSeq + 1, revised := false
          state := (Rl.moveOf b environment promptIdx checkpoint verdict
            cooldown).1
          untilK := (Rl.moveOf b environment promptIdx checkpoint verdict
            cooldown).2.1
          startK := (Rl.moveOf b environment promptIdx checkpoint verdict
            cooldown).2.2 } rfl
      simp only [Book.easyScans, Rl.recordScan, countP_append,
        countP_singleton] at hnew ⊢
      simpa using hnew
  scanned := by
    refine forall_snoc (fun s hs => ?_) ⟨_, mem_concat_self, rfl, rfl⟩
    by_cases hkey : environment = s.environment ∧ promptIdx = s.promptIdx
    · exact ⟨_, mem_concat_self, hkey⟩
    · obtain ⟨r, hr, he, hi⟩ := h.scanned s hs
      refine ⟨r, mem_append_left _ (mem_deleteWhere.2 ⟨hr, ?_⟩), he, hi⟩
      simp only [isFor, Bool.and_eq_false_iff, beq_eq_false_iff_ne]
      rw [he, hi]
      tauto

-- ===== runs

/-- Does the operation bear on the prompts? -/
def BookOp.movesPrompts : BookOp → Bool
  | .adopt .. => true
  | .reviseCooldowns .. => true
  | .recordOutcome .. => true
  | _ => false

/-- The rows are in line with the scans, and every scan of `w` is still on
record. -/
structure LivedSince (w v : BookWorld) : Prop where
  lived : Lived v.file
  scans : w.file.scans <+: v.file.scans

/-- **One operation.** -/
theorem lived_step (h : Lived w.file) (op : BookOp)
    (hop : op.movesPrompts = true) : LivedSince w (step sha256 token w op) := by
  have hsame : LivedSince w w := ⟨h, prefix_rfl⟩
  cases op with
  | adopt k urandom now =>
    refine (adoptTxn_spec k urandom now).left hsame ?_
    rintro _ v (rfl | ⟨c, -, -, -, -, rfl⟩)
    · exact hsame
    · exact ⟨⟨h.rows, h.scanned⟩, prefix_rfl⟩
  | reviseCooldowns live =>
    exact (reviseCooldowns_spec live).left hsame
      fun _ v hp => ⟨h.pass hp, hp.same.2.2 ▸ prefix_rfl⟩
  | recordOutcome live e p k rewards verdict now =>
    refine (recordOutcome_run live e p k rewards verdict now).left hsame ?_
    rintro scan v ⟨-, -, cooldown, -, -, book, hbook, rfl⟩
    cases hbook
    exact ⟨h.recordScan e p k rewards verdict now cooldown, prefix_append _ _⟩
  | _ => cases hop

/-- A run of these operations. -/
abbrev PromptRuns (sha256 : List UInt8 → List UInt8) (token : Nat → String) :
    BookWorld → List BookOp → BookWorld → Prop :=
  Run (step sha256 token) fun _ op => op.movesPrompts = true

theorem PromptRuns.lived {ops : List BookOp}
    (hrun : PromptRuns sha256 token w ops v) (h : Lived w.file) :
    LivedSince w v := by
  refine Run.invariant (I := LivedSince w) hrun ⟨h, prefix_rfl⟩ ?_
  intro u op hop hu
  have hstep : LivedSince u (step sha256 token u op) :=
    lived_step hu.lived op hop
  exact ⟨hstep.lived, hu.scans.trans hstep.scans⟩

/-- What an outcome that returns says of its prompt: it is blacklisted, or
cools down from the later of its own checkpoint and the latest, and no
less than before. -/
structure Moved (live : Live) (environment : String)
    (promptIdx checkpoint : Int) (w v : BookWorld) (r : PromptRow) : Prop where
  prompts : v.file.prompts = deleteWhere
    (isFor environment promptIdx) w.file.prompts ++ [r]
  key : r.isFor environment promptIdx = true
  life : r.state = .blacklisted ∨ r.state = .cooldown
    ∧ ∃ start til cooldown, start = max checkpoint (w.file.latest.getD 0)
      ∧ live.cooldownOf environment = some cooldown
      ∧ r.startK = some start ∧ r.untilK = some til ∧ start + cooldown ≤ til
      ∧ ∀ p ∈ w.file.prompt environment promptIdx, ∀ running ∈ p.untilK,
          running ≤ til ∧ (til = start + cooldown ∨ til = running)

end Reliquary.Rl
