/-
The training buffer (`rl_buffer.py`): in-zone groups wait here for the
trainer.

A row is queued or taken. `take`, `take_older` and `take_exhausted` hand
queued rows out, `release` and `requeue` put taken ones back, and only a
report removes one (`Submit.lean`). A method is a `Prog` over the table
and over what the process counts beside it (`BufferMem`); it reads the
book's latest checkpoint and maximal lag as arguments, since they are
another table of the same file.

A query without an `ORDER BY` answers in whatever order SQLite scans, so
`take_older` and `take_exhausted` are given one (`ScanOrder`): what holds
of every order holds of the one they got.
-/
import Reliquary.Store.Table
import Reliquary.Store.Txn
import Reliquary.Rl.Basic

namespace Reliquary.Rl

open Store

-- ===== the group

/-- A graded group with its tokens: what the trainer or an audit runs
its forward on. -/
structure SubmittedGroup where
  leaseId : String
  hotkey : String
  environment : String
  promptIdx : Int
  checkpoint : Int
  nonce : String
  arrivedAt : ℚ
  rewards : List ℚ
  truncated : List Bool
  promptTokens : List Nat
  completions : List (List Nat)
  forceSpans : List (Option (Int × Int))
  /-- Each rollout's model spans, for episodes. -/
  spans : Option (List (List (Int × Int))) := none
  deriving DecidableEq, Repr

/-- Python's refusal to index past the end. -/
def indexError : Err := .lookup "tuple index out of range"

/-- The number of positions the policy sampled (`model_positions`): all
of a single turn's, else those of the model spans. -/
def modelPositions (completionLength : Nat) : Option (List (Int × Int)) → Nat
  | none => completionLength
  | some spans => (spans.map fun se => (se.2 - se.1).toNat).sum

/-- Rollout `i`'s model tokens. -/
def SubmittedGroup.modelTokens (g : SubmittedGroup) (i : Nat) :
    Except Err Nat :=
  match g.completions[i]? with
  | none => .error indexError
  | some completion =>
    match g.spans with
    | none => .ok (modelPositions completion.length none)
    | some spans =>
      match spans[i]? with
      | none => .error indexError
      | some s => .ok (modelPositions completion.length (some s))

/-- The model tokens of rollouts `0` to `n - 1`. -/
def SubmittedGroup.modelTokensTo (g : SubmittedGroup) (n : Nat) :
    Except Err (List Nat) :=
  (List.range n).mapM g.modelTokens

/-- The completion tokens of a group. -/
def SubmittedGroup.tokens (g : SubmittedGroup) : Nat :=
  (g.completions.map List.length).sum

-- ===== the table

/-- A row's state (`QUEUED`, `TAKEN`). -/
inductive BufferState
  | queued | taken
  deriving DecidableEq, Repr

/-- A row of `rl_buffer`. -/
structure BufferRow where
  leaseId : String
  environment : String
  k : Int
  arrivedAt : ℚ
  hotkey : String
  state : BufferState
  body : SubmittedGroup
  attempts : Nat := 0
  deriving DecidableEq, Repr

/-- What the process counts since the last drain, and whether the
trainer's last take came back short. -/
structure BufferMem where
  arrived : List (String × Nat) := []
  taken : Nat := 0
  starvedS : ℚ := 0
  waitingSince : Option ℚ := none
  deriving DecidableEq, Repr

abbrev BufferProg (α : Type) := Prog Err (List BufferRow) BufferMem α

/-- Hand-outs after which a group is served at most one per batch. -/
def suspectAttempts : Nat := 2

/-- This close to the max lag a group skips the env caps. -/
def urgentLagMargin : Int := 2

/-- A wait counts between two takes at most this far apart. -/
def maxPollGapS : ℚ := 30

/-- The order an unordered query answered in. -/
structure ScanOrder where
  order : List BufferRow → List BufferRow
  perm : ∀ rows, (order rows).Perm rows

-- ===== selections

/-- SQL's `LIMIT`: a negative one is none. -/
def sqlLimit {α : Type} (limit : Int) (rows : List α) : List α :=
  if limit < 0 then rows else rows.take limit.toNat

/-- Python's `rows[:limit]`: a negative one counts from the end. -/
def sliceTo {α : Type} (limit : Int) (rows : List α) : List α :=
  if limit < 0 then rows.take (rows.length - (-limit).toNat)
  else rows.take limit.toNat

theorem sliceTo_sublist {α : Type} (limit : Int) (rows : List α) :
    (sliceTo limit rows).Sublist rows := by
  unfold sliceTo
  split
  · exact List.take_sublist ..
  · exact List.take_sublist ..

/-- `ORDER BY arrived_at, lease_id`. -/
def BufferRow.arrivedBefore (a b : BufferRow) : Bool :=
  decide (a.arrivedAt < b.arrivedAt)
    || (a.arrivedAt == b.arrivedAt && decide (a.leaseId ≤ b.leaseId))

/-- `ORDER BY attempts, arrived_at, lease_id`. -/
def BufferRow.triedBefore (a b : BufferRow) : Bool :=
  decide (a.attempts < b.attempts)
    || (a.attempts == b.attempts && a.arrivedBefore b)

/-- The rows of a query, ordered. -/
def ordered (le : BufferRow → BufferRow → Bool) (rows : List BufferRow) :
    List BufferRow :=
  rows.insertionSort fun a b => le a b = true

/-- A queued row served like a fresh one. -/
def BufferRow.isFresh (r : BufferRow) : Bool :=
  r.state == .queued && decide (r.attempts < suspectAttempts)

/-- A queued row handed out too often already. -/
def BufferRow.isSuspect (r : BufferRow) : Bool :=
  r.state == .queued && decide (suspectAttempts ≤ r.attempts)

/-- The state of `mixed_take`'s second loop. -/
structure Mix where
  chosen : List String
  counts : List (String × Nat)
  extra : List String := []

/-- The groups about to pass the max lag, oldest checkpoint first. -/
def urgentRows (rows : List BufferRow) (limit : Int) :
    Option Int → List BufferRow
  | none => []
  | some below => sliceTo limit
      ((rows.filter fun r => decide (r.k < below)).insertionSort
        fun a b => a.k ≤ b.k)

/-- One more group of the env. -/
def countEnv (counts : List (String × Nat)) (env : String) :
    List (String × Nat) :=
  put env ((counts.lookup env).getD 0 + 1) counts

/-- The second loop of `mixed_take`: each env up to its cap, until the
batch is full. -/
def mixEnvs (caps : List (String × Int)) (limit : Int)
    (picked : List String) : List BufferRow → Mix → Mix
  | [], m => m
  | r :: rows, m =>
    if limit ≤ m.chosen.length then m
    else if r.leaseId ∈ picked then mixEnvs caps limit picked rows m
    else if ∃ cap ∈ caps.lookup r.environment,
        cap ≤ (m.counts.lookup r.environment).getD 0 then
      mixEnvs caps limit picked rows { m with extra := m.extra ++ [r.leaseId] }
    else
      mixEnvs caps limit picked rows
        { m with
          counts := countEnv m.counts r.environment
          chosen := m.chosen ++ [r.leaseId] }

/-- The lease ids of one take under env caps: the urgent groups, each
env up to its cap, then the capped envs' extra ones while the batch is
short. -/
def mixedTake (rows : List BufferRow) (caps : List (String × Int))
    (limit : Int) (urgentBelow : Option Int) : List String :=
  let urgent := urgentRows rows limit urgentBelow
  let picked := urgent.map fun r => r.leaseId
  let m := mixEnvs caps limit picked rows
    { chosen := picked
      counts := urgent.foldl (fun c r => countEnv c r.environment) [] }
  m.chosen ++ m.extra.take (limit - m.chosen.length).toNat

/-- Groups below this checkpoint are about to pass the max lag. -/
def urgentBelow (latest : Option Int) (maxLag : Int) : Option Int :=
  latest.map fun k => k - maxLag + urgentLagMargin

/-- The fresh rows of a take: with env caps the mixed ones, else the
first to arrive. -/
def freshRows (caps : List (String × Int)) (limit : Int)
    (urgentBelow : Option Int) (table : List BufferRow) : List BufferRow :=
  let rows := ordered BufferRow.arrivedBefore
    (table.filter BufferRow.isFresh)
  if caps = [] then sqlLimit limit rows
  else (mixedTake rows caps limit urgentBelow).filterMap fun id =>
    table.find? fun r => r.leaseId == id

/-- The one suspect a take may add: none when the batch is full or
another one is out. -/
def retriedRows (limit : Int) (fresh table : List BufferRow) : List BufferRow :=
  if limit ≤ fresh.length ∨ ∃ r ∈ table,
      r.state = .taken ∧ suspectAttempts < r.attempts then []
  else (ordered BufferRow.triedBefore (table.filter BufferRow.isSuspect)).take 1

/-- Mark rows as handed out, one update per row. -/
def markTaken (f : BufferRow → BufferRow) (ids : List String)
    (table : List BufferRow) : List BufferRow :=
  ids.foldl (fun t id => updateWhere (fun r => r.leaseId == id) f t) table

-- ===== the methods

namespace TrainingBuffer

/-- Every taken group back to the queue; how many. -/
def requeue : BufferProg Nat :=
  Prog.txn <|
  Prog.get >>= fun w =>
  Prog.modify (fun w => { w with
    file := updateWhere (fun r => r.state == .taken)
      (fun r => { r with state := .queued }) w.file }) >>= fun _ =>
  pure (w.file.countP fun r => r.state == .taken)

/-- Buffer a group. -/
def push (group : SubmittedGroup) : BufferProg Unit :=
  Prog.txn ( Prog.lift (sqlInt group.checkpoint) >>= fun _ =>
    Prog.get >>= fun w =>
    if w.file.any fun r => r.leaseId == group.leaseId then
      Prog.raise .integrity
    else Prog.modify fun w => { w with
      file := w.file ++ [{ leaseId := group.leaseId
                           environment := group.environment
                           k := group.checkpoint
                           arrivedAt := group.arrivedAt
                           hotkey := group.hotkey
                           state := .queued, body := group }] })
    >>= fun _ =>
  Prog.modify fun w => { w with mem := { w.mem with
    arrived := put group.environment
      ((w.mem.arrived.lookup group.environment).getD 0 + group.tokens)
      w.mem.arrived } }

/-- The queue since the last drain: arrivals, tokens taken, the
trainer's wait. -/
def drainTick : BufferProg (List (String × Nat) × Nat × ℚ) :=
  Prog.get >>= fun w =>
  Prog.modify (fun w => { w with mem := { w.mem with
    arrived := [], taken := 0, starvedS := 0 } }) >>= fun _ =>
  pure (w.mem.arrived, w.mem.taken, w.mem.starvedS)

/-- Hand out up to `limit` queued groups, and at most one suspect.
`caps` is what `batch_caps` answered or raised (`[]` without one). -/
def take (limit : Int) (now : ℚ) (caps : Except Err (List (String × Int)))
    (latest : Option Int) (maxLag : Int) : BufferProg (List SubmittedGroup) :=
  Prog.txn ( Prog.lift caps >>= fun caps =>
    Prog.lift (if caps = [] then sqlInt limit else .ok ()) >>= fun _ =>
    Prog.get >>= fun w =>
    let fresh := freshRows caps limit (urgentBelow latest maxLag) w.file
    let rows := fresh ++ retriedRows limit fresh w.file
    Prog.modify (fun w =>
      { file := markTaken
          (fun r => { r with state := .taken, attempts := r.attempts + 1 })
          (rows.map fun r => r.leaseId) w.file
        mem := { w.mem with
          starvedS := match w.mem.waitingSince with
            | none => w.mem.starvedS
            | some since => w.mem.starvedS + min (now - since) maxPollGapS
          waitingSince :=
            if (rows.length : Int) < limit then some now else none } })
      >>= fun _ =>
    pure (rows.map fun r => r.body)) >>= fun groups =>
  Prog.modify (fun w => { w with mem := { w.mem with
    taken := w.mem.taken + (groups.map SubmittedGroup.tokens).sum } })
    >>= fun _ =>
  pure groups

/-- Hand out up to `limit` queued groups that satisfy `p`, without
counting an attempt. -/
def takeWhere (p : BufferRow → Bool) (bound limit : Int)
    (scan : ScanOrder) : BufferProg (List SubmittedGroup) :=
  Prog.txn <|
  Prog.lift (sqlInt bound) >>= fun _ =>
  Prog.lift (sqlInt limit) >>= fun _ =>
  Prog.get >>= fun w =>
  let rows := sqlLimit limit
    (scan.order (w.file.filter fun r => r.state == .queued && p r))
  Prog.modify (fun w => { w with
    file := markTaken (fun r => { r with state := .taken })
      (rows.map fun r => r.leaseId) w.file }) >>= fun _ =>
  pure (rows.map fun r => r.body)

/-- The trainer's max-lag drop. -/
def takeOlder (belowK limit : Int) (scan : ScanOrder) :
    BufferProg (List SubmittedGroup) :=
  takeWhere (fun r => decide (r.k < belowK)) belowK limit scan

/-- The groups handed out `maxAttempts` times without a report. -/
def takeExhausted (maxAttempts limit : Int) (scan : ScanOrder) :
    BufferProg (List SubmittedGroup) :=
  takeWhere (fun r => decide (maxAttempts ≤ r.attempts)) maxAttempts limit scan

/-- Taken groups back to the queue. -/
def release (leaseIds : List String) : BufferProg Unit :=
  Prog.txn <| Prog.modify fun w => { w with
    file := leaseIds.foldl (fun t id =>
      updateWhere (fun r => r.leaseId == id && r.state == .taken)
        (fun r => { r with state := .queued }) t) w.file }

/-- The buffered group of a lease. -/
def get (leaseId : String) (table : List BufferRow) : Option SubmittedGroup :=
  (table.find? fun r => r.leaseId == leaseId).map fun r => r.body

/-- Drop a lease's row (`_remove`). -/
def remove (leaseId : String) (table : List BufferRow) : List BufferRow :=
  deleteWhere (fun r => r.leaseId == leaseId) table

end TrainingBuffer

end Reliquary.Rl
