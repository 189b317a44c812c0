/-
The miner's table of published observations (`miner/observation_client.py`,
`ObservationTable._apply`, `compact`, `scanned_prompts`, `summary`), beside
the table of a reader of the same log that never compacts.

# What is modeled how

- Observations stand in the order of their number `n`. Columns that no read
  here uses are left out, and so are the reads of the retained rows alone
  (`verdicts`, `best_in_zone`).
- `scanned_prompts` is its membership test.
- The loop of `compact` runs over distinct prompts and each turn touches the
  rows of its own, so its statements are written for all of them at once.
- A malformed event raises and changes nothing: it is no event here.

# Results

`compact` takes a prompt's first scan from all its rows, kept ones too. A kept
row can still be settled, but the flag it left in the prompt's row stays:
`stale_scan` is such a run. `compacted_reads_same`: where each compaction
finds the first scan among the rows it deletes, and a prompt's observations
come in window order and are not repeated, nobody can tell the tables apart.
-/
import Reliquary.Store.Run
import Reliquary.Store.Table

namespace Reliquary.Miner

open Store List

-- ===== the table

/-- A prompt: environment and index. -/
abbrev Prompt := String × Int

structure Observation where
  id : String
  prompt : Prompt
  window : Int
  lane : String
  status : String
  proof : String
  windowAborted : Bool := false
deriving DecidableEq, Repr

/-- Whether it holds a scan of its prompt as published now. -/
def Observation.scans (o : Observation) : Bool :=
  if o.lane = "training" then o.proof = "proven" && !o.windowAborted
  else o.lane = "exploration" && (o.status = "exploration_pending" ||
    o.status = "exploration_paid") && o.proof != "failed"

/-- A prompt's row. One without observations is as if there were none. -/
structure PromptRow where
  nObs : Nat := 0
  scanned : Bool := false
  firstScanStatus : Option String := none
deriving DecidableEq, Repr

/-- A row with the first scan found: what it held already goes first. -/
def PromptRow.folded (p : PromptRow) (first : Option Observation) : PromptRow :=
  { p with
    scanned := p.scanned || first.isSome
    firstScanStatus :=
      if p.scanned then p.firstScanStatus else first.map (·.status) }

structure ObservationTable where
  observations : List Observation := []
  prompts : Prompt → PromptRow := fun _ => {}

inductive Event
  | observation (o : Observation)
  | settle (id status proof : String) (windowAborted : Bool)
  | other
deriving DecidableEq, Repr

namespace ObservationTable

variable (t : ObservationTable)

def has (id : String) : Bool := t.observations.any (·.id = id)

def rows (k : Prompt) : List Observation :=
  t.observations.filter (·.prompt = k)

def apply : Event → ObservationTable
  | .observation o =>
    if t.has o.id then t
    else
      { observations := t.observations ++ [{ o with windowAborted := false }]
        prompts := Function.update t.prompts o.prompt
          { t.prompts o.prompt with nObs := (t.prompts o.prompt).nObs + 1 } }
  | .settle id status proof windowAborted =>
    { t with
      observations := updateWhere (·.id = id)
        (fun o => { o with status, proof, windowAborted }) t.observations }
  | .other => t

/-- An empty table has no row before any cutoff. -/
def cutoff (retainWindows : Int) : Int :=
  (t.observations.map (·.window)).max?.getD 0 - retainWindows

def old (cutoff : Int) : List Observation :=
  t.observations.filter (·.window < cutoff)

/-- The prompt's row and the first scan among its observations. -/
def read (k : Prompt) : PromptRow :=
  (t.prompts k).folded ((t.rows k).find? (·.scans))

/-- Every prompt with a row before the cutoff is folded. -/
def compact (retainWindows : Int) : ObservationTable :=
  let cutoff := t.cutoff retainWindows
  { observations := deleteWhere (·.window < cutoff) t.observations
    prompts := fun k =>
      if (t.rows k).any (·.window < cutoff) then t.read k else t.prompts k }

def scannedPrompts (env : String) (prompt : Int) : Bool :=
  (t.prompts (env, prompt)).scanned || (t.rows (env, prompt)).any (·.scans)

def summary (k : Prompt) : Option PromptRow :=
  if (t.prompts k).nObs = 0 then none else some (t.read k)

end ObservationTable

open ObservationTable

-- ===== two readers of one log

/-- A reader that compacts, what it deleted, and one that never does. -/
structure Readers where
  table : ObservationTable := {}
  deleted : List String := []
  full : ObservationTable := {}

open Readers

inductive Op
  | event (e : Event)
  | compact (retainWindows : Int)
deriving DecidableEq, Repr

def Readers.step (r : Readers) : Op → Readers
  | .event e => { r with table := r.table.apply e, full := r.full.apply e }
  | .compact n =>
    { r with
      table := r.table.compact n
      deleted := r.deleted ++ (r.table.old (r.table.cutoff n)).map (·.id) }

/-- No settle event names an observation already deleted. -/
def settles (r : Readers) : Op → Bool
  | .event (.settle id _ _ _) => id ∉ r.deleted
  | .compact n => 0 < n
  | _ => true

/-- The first scan of the prompt, if not folded yet, is about to go. -/
def foldable (t : ObservationTable) (cutoff : Int) (k : Prompt) : Bool :=
  (t.prompts k).scanned ||
    ((t.rows k).find? (·.scans)).all (·.window < cutoff)

/-- Nor does an observation; a prompt's come in window order; and a
compaction folds no scan of a row it keeps. -/
def orderly (r : Readers) (op : Op) : Bool :=
  settles r op && match op with
    | .event (.observation o) => o.id ∉ r.deleted &&
        (r.table.rows o.prompt).all (·.window ≤ o.window)
    | .compact n => (r.table.old (r.table.cutoff n)).all fun o =>
        foldable r.table (r.table.cutoff n) o.prompt
    | _ => true

-- ===== what is gone

/-- The full table is the compacted one with the rows `gone` put back, which
come first in their prompt; a prompt's row holds the first scan of them. -/
structure Folded (r : Readers) (gone : Prompt → List Observation) : Prop where
  rows : ∀ k, r.full.rows k = gone k ++ r.table.rows k
  prompts : ∀ k, r.table.prompts k =
    (r.full.prompts k).folded ((gone k).find? (·.scans))
  plain : ∀ k, (r.full.prompts k).scanned = false
  ordered : ∀ k, (r.table.rows k).Pairwise (·.window ≤ ·.window)
  named : ∀ k, ∀ o ∈ gone k, o.id ∈ r.deleted

section Folded

variable {r : Readers} {gone : Prompt → List Observation} {k : Prompt}
  {t : ObservationTable} {o : Observation}

theorem folded_folded {p : PromptRow} (h : p.scanned = false)
    (a b : Option Observation) : (p.folded a).folded b = p.folded (a.or b) := by
  cases a <;> simp [PromptRow.folded, h]

theorem Folded.read (h : Folded r gone) (k : Prompt) :
    r.table.read k = r.full.read k := by
  unfold ObservationTable.read
  rw [h.prompts, h.rows, folded_folded (h.plain k), find?_append]

theorem scannedPrompts_eq (env : String) (prompt : Int) :
    t.scannedPrompts env prompt = (t.read (env, prompt)).scanned := by
  show (_ || _) = (_ || _)
  congr 1
  rw [Bool.eq_iff_iff, find?_isSome, any_eq_true]

-- ===== events

/-- Both readers ignore the same observations. -/
theorem Folded.has (h : Folded r gone) {id : String} (hid : id ∉ r.deleted) :
    r.full.has id = r.table.has id := by
  have hiff : ∀ t : ObservationTable,
      t.has id = true ↔ ∃ k, ∃ o ∈ t.rows k, o.id = id := by
    intro t
    simp only [ObservationTable.has, ObservationTable.rows, any_eq_true,
      mem_filter, decide_eq_true_eq]
    exact ⟨fun ⟨o, ho, heq⟩ => ⟨o.prompt, o, ⟨ho, rfl⟩, heq⟩,
      fun ⟨_, o, ho, heq⟩ => ⟨o, ho.1, heq⟩⟩
  rw [Bool.eq_iff_iff, hiff, hiff]
  constructor
  · rintro ⟨k, o, ho, rfl⟩
    rw [h.rows, mem_append] at ho
    rcases ho with ho | ho
    · exact absurd (h.named k o ho) hid
    · exact ⟨k, o, ho, rfl⟩
  · rintro ⟨k, o, ho, heq⟩
    exact ⟨k, o, h.rows k ▸ mem_append_right _ ho, heq⟩

theorem rows_insert (hnew : t.has o.id = false) :
    (t.apply (.observation o)).rows k = t.rows k ++
      if o.prompt = k then [{ o with windowAborted := false }] else [] := by
  simp only [apply, hnew, rows]
  by_cases hk : o.prompt = k <;> simp [hk]

theorem Folded.observation (h : Folded r gone) (hid : o.id ∉ r.deleted)
    (hwindow : ∀ o' ∈ r.table.rows o.prompt, o'.window ≤ o.window) :
    Folded (r.step (.event (.observation o))) gone := by
  have hhas := h.has hid
  cases hnew : r.table.has o.id with
  | true =>
    simp only [step, apply, hhas, hnew]
    exact h
  | false =>
    rw [hnew] at hhas
    refine ⟨?_, ?_, ?_, ?_, h.named⟩
    · intro k
      show (r.full.apply _).rows k = _ ++ (r.table.apply _).rows k
      rw [rows_insert hnew, rows_insert hhas, h.rows, append_assoc]
    · intro k
      simp only [step, apply, hnew, hhas]
      by_cases hk : k = o.prompt
      · simp [hk, h.prompts, PromptRow.folded]
      · simp [hk, h.prompts]
    · intro k
      simp only [step, apply, hhas]
      by_cases hk : k = o.prompt <;> simp [hk, h.plain]
    · intro k
      show ((r.table.apply _).rows k).Pairwise _
      rw [rows_insert hnew, pairwise_append]
      refine ⟨h.ordered k, ?_, ?_⟩
      · split <;> simp
      · intro o' ho' x hx
        split at hx
        · rename_i hk
          rw [mem_singleton] at hx
          subst hx hk
          exact hwindow o' ho'
        · cases hx

theorem rows_settle (id status proof : String) (windowAborted : Bool)
    (k : Prompt) : (t.apply (.settle id status proof windowAborted)).rows k =
      updateWhere (·.id = id)
        (fun o => { o with status, proof, windowAborted }) (t.rows k) := by
  unfold rows apply updateWhere
  rw [filter_map]
  congr 1
  apply filter_congr
  intro o _
  by_cases ho : o.id = id <;> simp [ho]

theorem Folded.settle (h : Folded r gone) {id : String} (hid : id ∉ r.deleted)
    (status proof : String) (windowAborted : Bool) :
    Folded (r.step (.event (.settle id status proof windowAborted))) gone := by
  refine ⟨?_, h.prompts, h.plain, ?_, h.named⟩
  · intro k
    show (r.full.apply _).rows k = _ ++ (r.table.apply _).rows k
    rw [rows_settle, rows_settle, h.rows]
    unfold updateWhere
    rw [map_append]
    congr 1
    -- no row that is gone has the id
    refine (map_congr_left ?_).trans (map_id _)
    intro o ho
    have hne : o.id ≠ id := fun heq => hid (heq ▸ h.named k o ho)
    simp [hne]
  · intro k
    show ((r.table.apply _).rows k).Pairwise _
    rw [rows_settle]
    unfold updateWhere
    rw [pairwise_map]
    refine (h.ordered k).imp ?_
    intro a b hab
    split <;> split <;> exact hab

-- ===== compactions

/-- Rows in window order: those before a cutoff come first. -/
theorem filter_window {l : List Observation}
    (h : l.Pairwise (·.window ≤ ·.window)) (cutoff : Int) :
    l.filter (·.window < cutoff) ++ l.filter (fun o => !(o.window < cutoff)) =
      l := by
  induction l with
  | nil => rfl
  | cons o l ih =>
    obtain ⟨ho, hl⟩ := pairwise_cons.1 h
    have hrest := ih hl
    by_cases hw : o.window < cutoff
    · simp [hw, hrest]
    · have hnone : l.filter (·.window < cutoff) = [] := by
        simp only [filter_eq_nil_iff, decide_eq_true_eq]
        exact fun x hx hlt => hw ((ho x hx).trans_lt hlt)
      rw [hnone, nil_append] at hrest
      simp [hw, hnone, hrest]

theorem find?_filter_first {l : List Observation} {q : Observation → Bool}
    (h : (l.find? (·.scans)).all q = true) :
    (l.filter q).find? (·.scans) = l.find? (·.scans) := by
  induction l with
  | nil => rfl
  | cons o l ih =>
    cases ho : o.scans with
    | true =>
      have hq : q o = true := by simpa [ho] using h
      simp [hq, ho]
    | false =>
      rw [find?_cons_of_neg (by simp [ho])] at h ⊢
      cases hq : q o <;> simp [hq, ho, ih h]

theorem rows_compact (t : ObservationTable) (n : Int) (k : Prompt) :
    (t.compact n).rows k =
      (t.rows k).filter (fun o => !(o.window < t.cutoff n)) := by
  unfold rows compact deleteWhere
  rw [filter_filter, filter_filter]
  apply filter_congr
  intro o _
  exact Bool.and_comm ..

theorem Folded.compact (h : Folded r gone) {n : Int}
    (hok : orderly r (.compact n) = true) :
    Folded (r.step (.compact n)) fun k => gone k ++
      (r.table.rows k).filter (·.window < r.table.cutoff n) := by
  simp only [orderly, Bool.and_eq_true, all_eq_true] at hok
  refine ⟨?_, ?_, h.plain, ?_, ?_⟩
  · intro k
    show r.full.rows k = _ ++ (r.table.compact n).rows k
    rw [rows_compact, append_assoc, filter_window (h.ordered k), h.rows]
  · intro k
    show (if _ then _ else _) = (r.full.prompts k).folded _
    rw [find?_append]
    split
    · rename_i hany
      obtain ⟨o, ho, hw⟩ := any_eq_true.1 hany
      obtain ⟨hmem, hk⟩ := mem_filter.1 ho
      have hfirst := hok.2 o (mem_filter.2 ⟨hmem, hw⟩)
      obtain rfl : o.prompt = k := of_decide_eq_true hk
      rw [ObservationTable.read, h.prompts, folded_folded (h.plain _)]
      cases hg : (gone o.prompt).find? (·.scans) with
      | some x => rfl
      | none =>
        -- nothing folded yet: the first scan is one of the rows that go
        rw [find?_filter_first]
        simpa [foldable, h.prompts, hg, h.plain, PromptRow.folded] using hfirst
    · rename_i hany
      have hnone : (r.table.rows k).filter
          (·.window < r.table.cutoff n) = [] := by
        simpa [filter_eq_nil_iff] using hany
      rw [hnone, h.prompts]
      simp
  · intro k
    show ((r.table.compact n).rows k).Pairwise _
    rw [rows_compact]
    exact (h.ordered k).filter _
  · intro k o ho
    show o.id ∈ r.deleted ++ _
    rw [mem_append, mem_filter] at ho
    rcases ho with ho | ⟨ho, hw⟩
    · exact mem_append_left _ (h.named k o ho)
    · exact mem_append_right _ (mem_map_of_mem
        (mem_filter.2 ⟨(mem_filter.1 ho).1, hw⟩))

end Folded

-- ===== runs

theorem Folded.step {r : Readers} {op : Op} (hok : orderly r op = true)
    (h : ∃ gone, Folded r gone) : ∃ gone, Folded (r.step op) gone := by
  obtain ⟨gone, h⟩ := h
  cases op with
  | compact n => exact ⟨_, h.compact hok⟩
  | event e =>
    refine ⟨gone, ?_⟩
    cases e with
    | observation o =>
      simp [orderly, settles] at hok
      exact h.observation hok.1 fun o' ho => hok.2 o' ho
    | settle id status proof aborted =>
      simp [orderly, settles] at hok
      exact h.settle hok status proof aborted
    | other => exact h

/-- **Compacting changes no read**, in every run that is orderly. -/
theorem compacted_reads_same {r : Readers} {ops : List Op}
    (h : Run step (fun r op => orderly r op) {} ops r) :
    (∀ env prompt, r.table.scannedPrompts env prompt =
      r.full.scannedPrompts env prompt) ∧
    ∀ k, r.table.summary k = r.full.summary k := by
  have hinit : ∃ gone, Folded {} gone :=
    ⟨fun _ => [], fun _ => rfl, fun _ => rfl, fun _ => rfl,
      fun _ => List.Pairwise.nil, nofun⟩
  obtain ⟨gone, hfold⟩ := h.invariant hinit fun _ _ hok => Folded.step hok
  constructor
  · intro env prompt
    rw [scannedPrompts_eq, scannedPrompts_eq, hfold.read]
  · intro k
    unfold summary
    rw [hfold.read, hfold.prompts]
    rfl

/-- An exploration observation of one prompt. -/
def explored (id : String) (window : Int) (status : String) : Op :=
  .event (.observation
    ⟨id, ("math", 7), window, "exploration", status, "audited", false⟩)

/-- The scan goes with the row that holds it. -/
def foldedRun : List Op :=
  [explored "a" 0 "exploration_paid", explored "b" 9 "already_scanned",
    .compact 1, .event (.settle "b" "not_robust" "audited" false)]

theorem compacted_reads_same_folded :
    (foldedRun.foldl step {}).table.scannedPrompts "math" 7 =
      (foldedRun.foldl step {}).full.scannedPrompts "math" 7 := by
  have hrun : Run step (fun r op => orderly r op) {} foldedRun
      (foldedRun.foldl step {}) :=
    Run.of_permitted (by decide +kernel)
  exact (compacted_reads_same hrun).1 "math" 7

/-- The scan of a kept row is folded, and the row is settled otherwise. -/
def staleRun : List Op :=
  [explored "a" 0 "already_scanned", explored "b" 9 "exploration_pending",
    .compact 1, .event (.settle "b" "not_robust" "audited" false)]

theorem stale_scan :
    Permitted step (fun r op => settles r op) {} staleRun ∧
    (staleRun.foldl step {}).table.scannedPrompts "math" 7 = true ∧
    (staleRun.foldl step {}).full.scannedPrompts "math" 7 = false := by
  decide +kernel

end Reliquary.Miner
