/-
The miners' incremental view is complete.

# The system

A client keeps a cursor, a table of prompt states and the scans it has
received. It polls `prompt_state` after its cursor, with one filter and
any page limit, and overwrites its table with what it gets; between two
polls the book does anything (`SyncOp`).

# Why no update is lost

Whatever changes what is published of a prompt gives its row a sequence
number past the sequence's current end (`PromptMove`, and a scan's own
number), and no cursor is past that end. So a row numbered up to the
client's cursor has not changed since the client read it (`seen`). A page
is cut on scan numbers only, and a revision's number is no scan's; that
is why the cursor may only move past the last scan once no scan is left
(`more = false`), and then moves to the last revised row as well.
-/
import Reliquary.Store.Paging
import Reliquary.Rl.BookRun

namespace Reliquary.Rl

open Store Relation List PromptRow

variable {sha256 : List UInt8 → List UInt8} {token : Nat → String}
  {s : Scope} {b b' : Book} {p : PromptRow} {n : Nat}

-- ===== the tables

/-- A prompt's key. -/
def PromptRow.key (r : PromptRow) : String × Int :=
  (r.environment, r.promptIdx)

/-- What holds of the scans and the prompt states of every reachable
book. -/
structure PromptWf (b : Book) : Prop where
  scans : Increasing (fun x : ScanRow => x.seq) b.scans
  scanSeq : ∀ x ∈ b.scans, 0 < x.seq ∧ x.seq ≤ b.scanSeq
  promptSeq : ∀ p ∈ b.prompts, 0 < p.seq ∧ p.seq ≤ b.scanSeq
  keys : (b.prompts.map key).Nodup

theorem promptWf_empty : PromptWf {} where
  scans := List.Pairwise.nil
  scanSeq x hx := by cases hx
  promptSeq p hp := by cases hp
  keys := nodup_nil

/-- A row of the prompt states after a scan: the scanned prompt's new
one, or another prompt's. -/
theorem mem_recordScan_prompts {environment : String}
    {promptIdx checkpoint : Int} {rewards : List ℚ} {verdict : Verdict}
    {now : ℚ} {move : PromptLife × Option Int × Option Int}
    (hp : p ∈ (recordScan environment promptIdx checkpoint rewards verdict
      now move b).2.prompts) :
    (p.key = (environment, promptIdx) ∧ p.seq = b.scanSeq + 1)
      ∨ (p ∈ b.prompts ∧ p.key ≠ (environment, promptIdx)) := by
  rcases mem_snoc.1 hp with hp | rfl
  · obtain ⟨hp, hne⟩ := mem_deleteWhere.1 hp
    refine .inr ⟨hp, fun hkey => ?_⟩
    injection hkey with he hi
    simp [isFor, he, hi] at hne
  · exact .inl ⟨rfl, rfl⟩

/-- A scan keeps the tables well formed. -/
theorem PromptWf.scan (h : PromptWf b) (environment : String)
    (promptIdx checkpoint : Int) (rewards : List ℚ) (verdict : Verdict)
    (now : ℚ) (move : PromptLife × Option Int × Option Int) :
    PromptWf (recordScan environment promptIdx checkpoint rewards verdict
      now move b).2 where
  scans := pairwise_snoc h.scans fun x hx =>
    Nat.lt_succ_of_le (h.scanSeq x hx).2
  scanSeq := by
    refine forall_snoc (fun x hx => ?_) ⟨Nat.succ_pos _, le_refl _⟩
    exact ⟨(h.scanSeq x hx).1, Nat.le_succ_of_le (h.scanSeq x hx).2⟩
  promptSeq p hp := by
    rcases mem_recordScan_prompts hp with ⟨-, hseq⟩ | ⟨hp, -⟩
    · rw [hseq]
      exact ⟨Nat.succ_pos _, le_refl _⟩
    · have := h.promptSeq p hp
      exact ⟨this.1, Nat.le_succ_of_le this.2⟩
  keys := by
    refine nodup_insert (nodup_deleteWhere h.keys) fun p hp hkey => ?_
    have hne := (mem_deleteWhere.1 hp).2
    injection hkey with he hi
    simp [isFor, he, hi] at hne

/-- So does a restamping. -/
theorem PromptWf.restamp (h : PromptWf b) {prompts : List PromptRow}
    (hn : b.scanSeq ≤ n)
    (hm : Forall₂ (PromptMove b.scanSeq n) b.prompts prompts) :
    PromptWf { b with prompts, scanSeq := n } where
  scans := h.scans
  scanSeq x hx := ⟨(h.scanSeq x hx).1, le_trans (h.scanSeq x hx).2 hn⟩
  promptSeq p hp := by
    obtain ⟨r, hr, hmove⟩ := exists_before hm hp
    rcases hmove.stamp with ⟨-, hseq⟩ | hseq
    · have := h.promptSeq r hr
      rw [hseq]
      exact ⟨this.1, le_trans this.2 hn⟩
    · exact ⟨by omega, hseq.2⟩
  keys := by
    refine nodup_of_forall₂ hm (fun r r' hr => ?_) h.keys
    unfold key
    rw [hr.environment, hr.promptIdx]

/-- Every move keeps them. -/
theorem Move.promptWf (hm : Move sha256 s b b') (h : PromptWf b) :
    PromptWf b' := by
  cases hm with
  | rows | issue | adopt => exact { h with }
  | scan e p k rewards verdict now move => exact h.scan e p k rewards verdict now move
  | restamp prompts n _ hn hm => exact h.restamp hn hm
  | frame _ _ _ _ hsc hpr hseq =>
    constructor
    · rw [hsc]
      exact h.scans
    · rw [hsc, hseq]
      exact h.scanSeq
    · rw [hpr, hseq]
      exact h.promptSeq
    · rw [hpr]
      exact h.keys

-- ===== the client

/-- What a miner keeps of the published prompts. -/
structure Client where
  cursor : Nat := 0
  table : List ((String × Int) × PromptLife × Option Int) := []
  received : List Scan := []

/-- A published prompt as a row of the client's table. -/
def PromptEntry.row (p : PromptEntry) :
    (String × Int) × PromptLife × Option Int :=
  ((p.environment, p.promptIdx), p.state, p.untilK)

/-- Take an answer: overwrite the table, keep the scans, move the
cursor. -/
def Client.take (c : Client) (v : PromptView) : Client where
  cursor := v.cursor
  table := (v.prompts.map PromptEntry.row).foldl
    (fun t kv => put kv.1 kv.2 t) c.table
  received := c.received ++ v.scans

/-- One poll after the client's cursor; a poll that raises brings
nothing. -/
def Client.poll (environment : Option String) (b : Book) (c : Client)
    (limit : Nat) : Client :=
  match promptState b c.cursor environment limit with
  | .ok v => c.take v
  | .error _ => c

/-- An operation of the book, or a poll. -/
inductive SyncOp
  | book (op : BookOp)
  | poll (limit : Nat)

/-- The book and one client of it. -/
structure Synced where
  world : BookWorld
  client : Client := {}

section Machine

variable (sha256 : List UInt8 → List UInt8) (token : Nat → String)

def syncStep (environment : Option String) (x : Synced) : SyncOp → Synced
  | .book op => { x with world := step sha256 token x.world op }
  | .poll limit =>
    { x with client := x.client.poll environment x.world.file limit }

end Machine

-- ===== the invariant

/-- The scans of the filter. -/
def scansIn (environment : Option String) (b : Book) : List ScanRow :=
  b.scans.filter fun x => inEnv environment x.environment

/-- What the client has is what the book had up to its cursor, and still
has. -/
structure SyncInv (environment : Option String) (b : Book) (c : Client) :
    Prop where
  cursor : c.cursor ≤ b.scanSeq
  received : c.received = (upTo (fun x : ScanRow => x.seq) c.cursor
        (scansIn environment b)).map fun x => x.toScan
  seen : ∀ p ∈ b.prompts, inEnv environment p.environment = true →
    p.seq ≤ c.cursor → c.table.lookup p.key = some (p.state, p.untilK)
  known : ∀ key v, c.table.lookup key = some v →
    ∃ p ∈ b.prompts, p.key = key ∧ inEnv environment p.environment = true

variable {environment : Option String} {c : Client}

/-- A client that starts at zero has everything there is up to zero. -/
theorem syncInv_start (h : PromptWf b) : SyncInv environment b {} where
  cursor := Nat.zero_le _
  received := by
    have hnone : upTo (fun x : ScanRow => x.seq) 0
        (scansIn environment b) = [] := by
      unfold upTo
      rw [filter_eq_nil_iff]
      intro x hx
      have := (h.scanSeq x (mem_filter.1 hx).1).1
      simp only [decide_eq_true_eq]
      omega
    show [] = _
    rw [hnone]
    rfl
  seen p hp _ hle := by
    have := (h.promptSeq p hp).1
    have hle : p.seq ≤ 0 := hle
    omega
  known key v hv := by cases hv

/-- A move that changes no scan and no prompt. -/
theorem SyncInv.frame (h : SyncInv environment b c)
    (hsc : b'.scans = b.scans) (hpr : b'.prompts = b.prompts)
    (hseq : b'.scanSeq = b.scanSeq) : SyncInv environment b' c where
  cursor := hseq ▸ h.cursor
  received := by
    unfold scansIn
    rw [hsc]
    exact h.received
  seen := by
    rw [hpr]
    exact h.seen
  known := by
    rw [hpr]
    exact h.known

/-- A scan is numbered past every cursor, and so is its prompt. -/
theorem SyncInv.scan (h : SyncInv environment b c) (e : String)
    (promptIdx checkpoint : Int) (rewards : List ℚ) (verdict : Verdict)
    (now : ℚ) (move : PromptLife × Option Int × Option Int) :
    SyncInv environment (recordScan e promptIdx checkpoint rewards verdict
      now move b).2 c where
  cursor := Nat.le_succ_of_le h.cursor
  received := by
    have hcur := h.cursor
    rw [h.received]
    unfold scansIn recordScan upTo
    rw [filter_append, filter_append]
    -- the new scan is past the cursor, whatever the filter
    have hnew : ∀ x : ScanRow, x.seq = b.scanSeq + 1 →
        ([x].filter fun y => inEnv environment y.environment).filter
          (fun y => decide (y.seq ≤ c.cursor)) = [] := by
      intro x hx
      rw [filter_filter, filter_eq_nil_iff]
      intro y hy
      rw [mem_singleton] at hy
      subst hy
      have hlt : ¬y.seq ≤ c.cursor := by omega
      simp [hlt]
    rw [hnew _ rfl, append_nil]
  seen p hp hin hle := by
    rcases mem_recordScan_prompts hp with ⟨-, hseq⟩ | ⟨hp, -⟩
    · have := h.cursor
      omega
    · exact h.seen p hp hin hle
  known key v hv := by
    obtain ⟨p, hp, hkey, hin⟩ := h.known key v hv
    by_cases hk : p.key = (e, promptIdx)
    · -- the scanned prompt keeps its key
      refine ⟨_, mem_concat_self, ?_, ?_⟩
      · exact hk.symm.trans hkey
      · injection hk with he _
        exact he ▸ hin
    · refine ⟨p, mem_append_left _ (mem_deleteWhere.2 ⟨hp, ?_⟩), hkey, hin⟩
      by_contra hfor
      rw [Bool.not_eq_false] at hfor
      simp only [isFor, Bool.and_eq_true, beq_iff_eq] at hfor
      exact hk (Prod.ext hfor.1 hfor.2)

/-- A restamped row is numbered past every cursor. -/
theorem SyncInv.restamp (h : SyncInv environment b c)
    {prompts : List PromptRow} (hn : b.scanSeq ≤ n)
    (hm : Forall₂ (PromptMove b.scanSeq n) b.prompts prompts) :
    SyncInv environment { b with prompts, scanSeq := n } c where
  cursor := le_trans h.cursor hn
  received := h.received
  seen p hp hin hle := by
    obtain ⟨r, hr, he, hi, ⟨hentry, hseq⟩ | hseq, -⟩ := exists_before hm hp
    · have hseen := h.seen r hr (he ▸ hin) (hseq ▸ hle)
      have hkey : p.key = r.key := Prod.ext he hi
      injection hentry with _ _ hst hun
      rw [hkey, hseen, hst, hun]
    · have := h.cursor
      omega
  known key v hv := by
    obtain ⟨r, hr, hkey, hin⟩ := h.known key v hv
    obtain ⟨p, hp, he, hi, -⟩ := exists_after hm hr
    exact ⟨p, hp, (Prod.ext he hi : p.key = r.key).trans hkey, he ▸ hin⟩

/-- Nothing the book does makes the client wrong about what it has. -/
theorem Move.syncInv (hm : Move sha256 s b b')
    (h : SyncInv environment b c) : SyncInv environment b' c := by
  cases hm with
  | rows | issue | adopt => exact h.frame rfl rfl rfl
  | scan e p k rewards verdict now move =>
    exact h.scan e p k rewards verdict now move
  | restamp prompts n _ hn hm => exact h.restamp hn hm
  | frame _ _ _ _ hsc hpr hseq => exact h.frame hsc hpr hseq

-- ===== a poll

/-- The greatest of a list bounds its members. -/
theorem le_max?_getD {l : List Nat} (h : n ∈ l) : n ≤ l.max?.getD 0 := by
  cases hm : l.max? with
  | none =>
    rw [max?_eq_none_iff] at hm
    rw [hm] at h
    cases h
  | some m => exact (max?_eq_some_iff.1 hm).2 n h

/-- The greatest of a list is within any bound of its members. -/
theorem max?_getD_le {l : List Nat} {m : Nat} (h : ∀ n ∈ l, n ≤ m) :
    l.max?.getD 0 ≤ m := by
  cases hm : l.max? with
  | none => exact Nat.zero_le m
  | some n => exact h n (max?_eq_some_iff.1 hm).1

section Poll

variable (h : PromptWf b)
include h

/-- The scans a view selects, before the limit: those of the filter past
the cursor, in the table's own order. -/
theorem selected_scans (since : Nat) :
    (b.scans.filter fun x => inFilter environment since x.environment
      x.seq).insertionSort (fun x y => x.seq ≤ y.seq)
      = past (·.seq) since (scansIn environment b) := by
  have hsel : (b.scans.filter fun x =>
      inFilter environment since x.environment x.seq)
      = past (·.seq) since (scansIn environment b) := by
    unfold past scansIn
    rw [filter_filter]
    rfl
  rw [hsel]
  have hinc := (h.scans.filter fun x =>
    inEnv environment x.environment).filter fun x => decide (since < x.seq)
  exact List.Pairwise.insertionSort_eq (hinc.imp fun hlt => le_of_lt hlt)

/-- A view's scans are a page of the filter's. -/
theorem viewAfter_scans (since limit : Nat) :
    (viewAfter b since environment limit).scans
      = (page (·.seq) since limit
          (scansIn environment b)).map fun x => x.toScan := by
  unfold viewAfter page
  dsimp only
  rw [selected_scans h, take_take, Nat.min_eq_left (Nat.le_succ _)]

/-- There is more when the page does not hold all. -/
theorem viewAfter_more (since limit : Nat) :
    (viewAfter b since environment limit).more
      = decide (limit < (past (·.seq) since
          (scansIn environment b)).length) := by
  unfold viewAfter
  dsimp only
  rw [selected_scans h, length_take]
  by_cases hlt : limit < (past (·.seq) since (scansIn environment b)).length
  · rw [decide_eq_true hlt, decide_eq_true (by omega)]
  · rw [decide_eq_false hlt, decide_eq_false (by omega)]

/-- The prompt states of the filter past the cursor. -/
def statesPast (environment : Option String) (since : Nat) (b : Book) :
    List PromptRow :=
  b.prompts.filter fun p => inFilter environment since p.environment p.seq

/-- The new cursor: the page's, and, past the last scan, at least every
selected prompt's. -/
theorem viewAfter_cursor (since limit : Nat) :
    (viewAfter b since environment limit).cursor
      = if (viewAfter b since environment limit).more then
          nextCursor (·.seq) since
            (page (·.seq) since limit
              (scansIn environment b))
        else max (nextCursor (·.seq) since
            (page (·.seq) since limit
              (scansIn environment b)))
          (((statesPast environment since b).map
            fun p => p.seq).max?.getD 0) := by
  unfold viewAfter page nextCursor statesPast
  dsimp only
  rw [selected_scans h, take_take, Nat.min_eq_left (Nat.le_succ _)]

/-- A poll moves the cursor forward, within the sequence. -/
theorem viewAfter_cursor_bounds {since : Nat} (hs : since ≤ b.scanSeq)
    (limit : Nat) : since ≤ (viewAfter b since environment limit).cursor
      ∧ (viewAfter b since environment limit).cursor ≤ b.scanSeq := by
  have hlow := le_nextCursor (g := fun x : ScanRow => x.seq) since limit
    (scansIn environment b)
  have hhigh : nextCursor (·.seq) since (page (·.seq) since limit
        (scansIn environment b)) ≤ b.scanSeq :=
    nextCursor_le hs fun x hx => (h.scanSeq x (mem_filter.1 hx).1).2
  have hstates : ((statesPast environment since b).map
      fun p => p.seq).max?.getD 0 ≤ b.scanSeq := by
    refine max?_getD_le fun n hn => ?_
    obtain ⟨p, hp, rfl⟩ := mem_map.1 hn
    exact (h.promptSeq p (mem_filter.1 hp).1).2
  rw [viewAfter_cursor h]
  split
  · exact ⟨hlow, hhigh⟩
  · exact ⟨le_trans hlow (le_max_left _ _), max_le hhigh hstates⟩

/-- After a poll the client has the scans up to its new cursor. -/
theorem viewAfter_received (since limit : Nat) :
    upTo (·.seq) since (scansIn environment b)
      ++ page (·.seq) since limit (scansIn environment b)
      = upTo (·.seq)
          (viewAfter b since environment limit).cursor
          (scansIn environment b) := by
  have hinc : Increasing (·.seq) (scansIn environment b) := h.scans.filter _
  have hpage := page_received hinc since limit
  rw [viewAfter_cursor h]
  cases hmore : (viewAfter b since environment limit).more with
  | true => exact hpage
  | false =>
    -- no scan is left, so none lies between the two cursors
    rw [viewAfter_more h, decide_eq_false_iff_not, not_lt] at hmore
    have hall := page_all hinc hmore
    rw [if_neg Bool.false_ne_true, hall]
    rw [hall] at hpage
    unfold upTo
    symm
    rw [filter_eq_self]
    intro x hx
    rw [hpage] at hx
    have hle := (mem_filter.1 hx).2
    simp only [decide_eq_true_eq] at hle ⊢
    exact le_trans hle (le_max_left _ _)

-- ===== the prompts of a poll

omit h in
/-- The rows a poll brings: of the prompts of the filter numbered between
the two cursors. -/
theorem mem_viewAfter_rows {since limit : Nat}
    {x : (String × Int) × PromptLife × Option Int} :
    x ∈ (viewAfter b since environment limit).prompts.map PromptEntry.row
      ↔ ∃ p ∈ b.prompts, inEnv environment p.environment = true ∧ since < p.seq
        ∧ p.seq ≤ (viewAfter b since environment limit).cursor
        ∧ x = (p.key, p.state, p.untilK) := by
  have hrows : (viewAfter b since environment limit).prompts
      = (((statesPast environment since b).filter fun p =>
          decide (p.seq ≤ (viewAfter b since environment
            limit).cursor)).insertionSort
          fun x y => x.seq ≤ y.seq).map entry := rfl
  rw [hrows, List.map_map]
  constructor
  · intro hx
    obtain ⟨p, hp, rfl⟩ := mem_map.1 hx
    have hp := (perm_insertionSort _ _).mem_iff.1 hp
    obtain ⟨hp, hle⟩ := mem_filter.1 hp
    obtain ⟨hp, hin⟩ := mem_filter.1 hp
    simp only [inFilter, Bool.and_eq_true, decide_eq_true_eq] at hin hle
    exact ⟨p, hp, hin.2, hin.1, hle, rfl⟩
  · rintro ⟨p, hp, henv, hlt, hle, rfl⟩
    refine mem_map.2 ⟨p, (perm_insertionSort _ _).mem_iff.2 ?_, rfl⟩
    refine mem_filter.2 ⟨mem_filter.2 ⟨hp, ?_⟩, by simpa using hle⟩
    simp [inFilter, henv, hlt]

/-- They have unique keys. -/
theorem nodup_viewAfter_rows (since limit : Nat) :
    (((viewAfter b since environment limit).prompts.map
      PromptEntry.row).map Prod.fst).Nodup := by
  have hrows : ((viewAfter b since environment limit).prompts.map
      PromptEntry.row).map Prod.fst
      = (((statesPast environment since b).filter fun p =>
          decide (p.seq ≤ (viewAfter b since environment
            limit).cursor)).insertionSort
          fun x y => x.seq ≤ y.seq).map key := by
    show ((List.map entry _).map PromptEntry.row).map Prod.fst = _
    rw [List.map_map, List.map_map]
    rfl
  rw [hrows]
  refine ((perm_insertionSort _ _).map _).nodup_iff.2 ?_
  refine (List.Sublist.map _ ?_).nodup h.keys
  exact filter_sublist.trans filter_sublist

/-- What a read of the client's table finds after a poll: for a prompt
numbered between the two cursors its row, for any other what was there. -/
theorem lookup_take (limit : Nat) (hp : p ∈ b.prompts) :
    (c.take (viewAfter b c.cursor environment limit)).table.lookup p.key
      = if inEnv environment p.environment = true ∧ c.cursor < p.seq
          ∧ p.seq ≤ (viewAfter b c.cursor environment limit).cursor
        then some (p.state, p.untilK) else c.table.lookup p.key := by
  have hnd : (((viewAfter b c.cursor environment limit).prompts.map
      PromptEntry.row).map Prod.fst).Nodup :=
    nodup_viewAfter_rows h c.cursor limit
  unfold Client.take
  rw [lookup_putAll _ _ _ hnd]
  split
  next hin =>
    rw [lookup_of_mem hnd (mem_viewAfter_rows.2
      ⟨p, hp, hin.1, hin.2.1, hin.2.2, rfl⟩)]
    rfl
  next hout =>
    have hnone : ((viewAfter b c.cursor environment limit).prompts.map
        PromptEntry.row).lookup p.key = none := by
      rw [lookup_eq_none_iff]
      intro x hx
      obtain ⟨q, hq, henv, hlt, hle, rfl⟩ := mem_viewAfter_rows.1 hx
      -- keys are unique, so a row of this key would be this prompt's
      have hne : p.key ≠ q.key := by
        intro hkey
        have hpq : p = q := eq_of_key h.keys hp hq hkey
        subst hpq
        exact hout ⟨henv, hlt, hle⟩
      simpa using hne
    rw [hnone]
    rfl

end Poll

/-- **A poll keeps the client in step.** -/
theorem SyncInv.take (hinv : SyncInv environment b c) (h : PromptWf b)
    (limit : Nat) : SyncInv environment b
      (c.take (viewAfter b c.cursor environment limit)) where
  cursor := (viewAfter_cursor_bounds h hinv.cursor limit).2
  received := by
    show c.received ++ (viewAfter b c.cursor environment limit).scans = _
    rw [hinv.received, viewAfter_scans h, ← map_append, viewAfter_received h]
    rfl
  seen p hp henv hle := by
    rw [lookup_take h limit hp]
    by_cases hlt : c.cursor < p.seq
    · rw [if_pos ⟨henv, hlt, hle⟩]
    · rw [if_neg fun hin => hlt hin.2.1]
      exact hinv.seen p hp henv (not_lt.1 hlt)
  known key v hv := by
    have hv : ((((viewAfter b c.cursor environment limit).prompts.map
        PromptEntry.row).foldl (fun t kv => put kv.1 kv.2 t)
        c.table).lookup key) = some v := hv
    rw [lookup_putAll _ _ _ (nodup_viewAfter_rows h c.cursor limit)] at hv
    cases hrow : ((viewAfter b c.cursor environment limit).prompts.map
        PromptEntry.row).lookup key with
    | some x =>
      obtain ⟨p, hp, henv, -, -, heq⟩ :=
        mem_viewAfter_rows.1 (mem_of_lookup hrow)
      injection heq with hkey _
      exact ⟨p, hp, hkey.symm, henv⟩
    | none =>
      rw [hrow] at hv
      exact hinv.known key v hv

-- ===== the result

/-- An answer is the view. -/
theorem promptState_ok {since : Nat} {limit : Nat} {v : PromptView}
    (h : promptState b since environment limit = .ok v) :
    v = viewAfter b since environment limit := by
  unfold promptState at h
  cases hu : u64 (since : Int) with
  | error e => rw [hu] at h; cases h
  | ok bytes =>
    rw [hu] at h
    cases hs : sqlInt (since : Int) with
    | error e => rw [hs] at h; cases h
    | ok _ =>
      rw [hs] at h
      cases hl : sqlInt ((limit : Int) + 1) with
      | error e => rw [hl] at h; cases h
      | ok _ =>
        rw [hl] at h
        simp only [bind, Except.bind, pure, Except.pure, Except.ok.injEq] at h
        exact h.symm

/-- The tables are well formed and the client in step. -/
structure InStep (sha256 : List UInt8 → List UInt8)
    (environment : Option String) (x : Synced) : Prop where
  wf : Wf sha256 x.world.file
  prompts : PromptWf x.world.file
  sync : SyncInv environment x.world.file x.client

/-- One operation of the book, or one poll. -/
theorem syncStep_inStep {x : Synced} (h : InStep sha256 environment x)
    (op : SyncOp) :
    InStep sha256 environment (syncStep sha256 token environment x op) := by
  cases op with
  | book op =>
    have hm : Moves sha256 (op.scope token x.world) x.world.file
        (step sha256 token x.world op).file := step_moves h.wf op
    exact ⟨hm.wf h.wf, hm.keeps h.prompts fun hm hb => hm.promptWf hb,
      hm.keeps h.sync fun hm hb => hm.syncInv hb⟩
  | poll limit =>
    refine ⟨h.wf, h.prompts, ?_⟩
    show SyncInv environment x.world.file
      (x.client.poll environment x.world.file limit)
    unfold Client.poll
    split
    next v hv =>
      rw [promptState_ok hv]
      exact h.sync.take h.prompts limit
    next => exact h.sync

/-- The book and its client, when the file is first opened. -/
theorem inStep_start (config : BookConfig) (quotaConfig : QuotaConfig)
    (start : ℚ) : InStep sha256 environment
      { world := firstBoot config quotaConfig start } := by
  have hboot : Kept sha256 { scans := True } (attach config quotaConfig 0 [] {})
      (firstBoot config quotaConfig start) :=
    kept_boot trivial config quotaConfig start 0 [] {}
  have hprompts : PromptWf (firstBoot config quotaConfig start).file :=
    hboot.file.keeps promptWf_empty fun hm hb => hm.promptWf hb
  exact ⟨wf_firstBoot config quotaConfig start, hprompts,
    syncInv_start hprompts⟩

/-- Past the last scan, the new cursor is past every prompt of the
filter. -/
theorem seq_le_cursor (h : PromptWf b) {since limit : Nat}
    (hs : since ≤ b.scanSeq)
    (hmore : (viewAfter b since environment limit).more = false)
    (hp : p ∈ b.prompts) (henv : inEnv environment p.environment = true) :
    p.seq ≤ (viewAfter b since environment limit).cursor := by
  by_cases hlt : since < p.seq
  · have hin : p.seq ∈ (statesPast environment since b).map fun p => p.seq := by
      refine mem_map.2 ⟨p, mem_filter.2 ⟨hp, ?_⟩, rfl⟩
      simp [inFilter, henv, hlt]
    rw [viewAfter_cursor h, hmore, if_neg Bool.false_ne_true]
    exact le_trans (le_max?_getD hin) (le_max_right _ _)
  · exact le_trans (not_lt.1 hlt) (viewAfter_cursor_bounds h hs limit).1

/-- A prompt's row is the one of its key. -/
theorem prompt_eq_some (h : PromptWf b) (hp : p ∈ b.prompts) :
    b.prompt p.environment p.promptIdx = some p := by
  unfold Book.prompt
  cases hf : b.prompts.find? fun r => r.environment == p.environment
      && r.promptIdx == p.promptIdx with
  | none =>
    have hno := find?_eq_none.1 hf p hp
    simp at hno
  | some q =>
    have hq := find?_some hf
    simp only [Bool.and_eq_true, beq_iff_eq] at hq
    rw [eq_of_key h.keys (mem_of_find?_eq_some hf) hp (Prod.ext hq.1 hq.2)]

/-- **Incremental sync is complete.** A client that starts at zero and
polls with one filter and any limits, between whatever the book does: an
answer with `more = False` leaves its table equal to the prompt states of
the filter, and the scans it has received are the scans of the filter,
each once and in order. -/
theorem sync_complete (environment : Option String) (config : BookConfig)
    (quotaConfig : QuotaConfig) (start : ℚ) {ops : List SyncOp} {x : Synced}
    (hrun : Free (syncStep sha256 token environment)
      { world := firstBoot config quotaConfig start } ops x)
    {limit : Nat} {v : PromptView}
    (hans : promptState x.world.file x.client.cursor environment limit
      = .ok v) (hmore : v.more = false) :
    (∀ e i, (x.client.take v).table.lookup (e, i)
        = if inEnv environment e = true then
            (x.world.file.prompt e i).map fun p => (p.state, p.untilK)
          else none)
      ∧ (x.client.take v).received
          = (scansIn environment x.world.file).map fun r => r.toScan := by
  have h : InStep sha256 environment x :=
    Run.invariant (I := InStep sha256 environment) hrun
      (inStep_start config quotaConfig start)
      fun _ op _ hx => syncStep_inStep hx op
  have hv := promptState_ok hans
  subst hv
  have hnew := h.sync.take h.prompts limit
  constructor
  · intro e i
    cases hl : (x.client.take (viewAfter x.world.file x.client.cursor
        environment limit)).table.lookup (e, i) with
    | some row =>
      -- what the client has is a prompt of the filter, read in full
      obtain ⟨p, hp, hkey, henv⟩ := hnew.known (e, i) row hl
      have hseen := hnew.seen p hp henv
        (seq_le_cursor h.prompts h.sync.cursor hmore hp henv)
      injection hkey with he hi
      subst he hi
      rw [if_pos henv, prompt_eq_some h.prompts hp, ← hl]
      exact hseen
    | none =>
      split
      next henv =>
        cases hp : x.world.file.prompt e i with
        | none => rfl
        | some p =>
          have hmem := mem_of_find?_eq_some hp
          have hq := find?_some hp
          simp only [Bool.and_eq_true, beq_iff_eq] at hq
          obtain ⟨rfl, rfl⟩ := hq
          have hseen := hnew.seen p hmem henv
            (seq_le_cursor h.prompts h.sync.cursor hmore hmem henv)
          rw [show p.key = (p.environment, p.promptIdx) from rfl, hl] at hseen
          cases hseen
      next => rfl
  · have hrec := h.sync.received
    show x.client.received ++ (viewAfter x.world.file x.client.cursor
      environment limit).scans = _
    rw [hrec, viewAfter_scans h.prompts, ← map_append]
    rw [viewAfter_more h.prompts, decide_eq_false_iff_not, not_lt] at hmore
    have hinc : Increasing (fun r : ScanRow => r.seq)
        (scansIn environment x.world.file) := h.prompts.scans.filter _
    rw [page_all hinc hmore]

/-- Two prompts scanned, a poll of one scan between them. -/
def polledOps : List SyncOp :=
  [.book (.adopt 1 [7] 1),
    .book (.recordOutcome calm "math" 5 1 [0] .tooHard 2), .poll 1,
    .book (.recordOutcome calm "math" 6 1 [0] .tooHard 3)]

/-- The small book and its client after them. -/
def polledSync : Synced :=
  polledOps.foldl (syncStep firstByte counted none)
    { world := firstBoot oneEnv {} 0 }

/-- The next poll completes the client's table and its scans. -/
theorem sync_complete_polled :
    ∃ v, promptState polledSync.world.file polledSync.client.cursor none 10
        = .ok v ∧ (polledSync.client.take v).table.lookup ("math", 5)
          = some (.cooldown, some 3) ∧ (polledSync.client.take v).received
          = polledSync.world.file.scans.map fun r => r.toScan := by
  have hmore : (promptState polledSync.world.file polledSync.client.cursor
      none 10).toOption.map (fun v => v.more) = some false := by
    decide +kernel
  have hrow : (polledSync.world.file.prompt "math" 5).map
      (fun p => (p.state, p.untilK)) = some (.cooldown, some 3) := by
    decide +kernel
  have hscans : scansIn none polledSync.world.file
      = polledSync.world.file.scans := by decide +kernel
  cases hans : promptState polledSync.world.file polledSync.client.cursor
      none 10 with
  | error e => rw [hans] at hmore; cases hmore
  | ok v =>
    rw [hans] at hmore
    injection hmore with hmore
    have hrun : Free (syncStep firstByte counted none)
        { world := firstBoot oneEnv {} 0 } polledOps polledSync :=
      Run.cons _ trivial (Run.cons _ trivial (Run.cons _ trivial
        (Run.cons _ trivial (Run.nil _))))
    have h := sync_complete none oneEnv {} 0 hrun hans hmore
    refine ⟨v, rfl, ?_, hscans ▸ h.2⟩
    rw [h.1, ← hrow]
    rfl

end Reliquary.Rl
