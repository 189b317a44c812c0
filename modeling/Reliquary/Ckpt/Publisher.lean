/-
The trainer's side of checkpoint deltas: `trainer/ckpt_publisher.py` as
a machine over an object store.

# The model

A step publishes the next version of a history or restarts the
publisher, with any configuration. `publish` follows the source: the
delta from the previous version, the cumulatives of the running bases
(a base over the size cap is dropped), an anchor or a new base, the
pruning, the index last, and the deletion of what earlier prunings
doomed. A restart keeps the store; the new process lists what the
stored index lists and knows no previous checkpoint, so it begins with
an anchor.

Packed mask bits are flag lists here (`packbits` and `unpackbits` undo
each other), the clock readings and which deletions fail are the
step's, and `published_at` and the telemetry are left out. `written`
and `objects` are history: every index written, every object ever put.
-/
import Reliquary.Ckpt.Sync

namespace Reliquary.Ckpt

open Store

-- ===== the state

structure PublisherConfig where
  anchorInterval : Nat
  cumulativeStride : Nat
  maxCumulativeBases : Nat
  maxCumulativeBytes : Option Nat
  keepAnchors : Nat
  anchorShardBytes : Nat
  zstdLevel : Int
  pruneGraceS : ℚ
  /-- the non-weight files an anchor carries -/
  modelFiles : List (String × Bytes)
  positive : 1 ≤ anchorInterval ∧ 1 ≤ cumulativeStride ∧ 1 ≤ keepAnchors
  distinct : (modelFiles.map Prod.fst).Nodup

/-- A cumulative base: the union of the cells changed since
`version`. -/
structure Base where
  version : Nat
  sha256 : String
  masks : Masks

/-- The last published checkpoint. -/
structure Prev where
  version : Nat
  state : Checkpoint
  sha256 : String

structure Publisher where
  config : PublisherConfig
  prev : Option Prev := none
  lastAnchor : Option Nat := none
  bases : List Base := []
  anchors : List AnchorEntry := []
  deltas : List DeltaEntry := []
  /-- keys pruned from the index, with the time to delete them after -/
  doomed : List (ℚ × List Key) := []

structure World where
  pub : Publisher
  store : List (Key × Object) := []
  index : Option Index := none
  published : Nat := 0
  written : List Index := []
  objects : List (Key × Object) := []

def World.get (w : World) (k : Key) : Option Object := w.store.lookup k

def World.getEver (w : World) (k : Key) : Option Object := w.objects.lookup k

/-- Objects put one after the other. -/
def World.putAll (w : World) (rows : List (Key × Object)) : World :=
  { w with
    store := rows.foldl (fun t x => put x.1 x.2 t) w.store
    objects := w.objects ++ rows }

/-- A delta's object put and its entry listed. -/
def World.addDelta (w : World) (blob : Bytes) (e : DeltaEntry) : World :=
  let w := w.putAll [(e.key, .blob blob)]
  { w with pub := { w.pub with deltas := w.pub.deltas ++ [e] } }

inductive PublishError
  /-- version … does not follow … -/
  | follows (version prev : Nat)
  | delta (e : DeltaError)
deriving DecidableEq

def liftPublish {α : Type} : Except DeltaError α → Except PublishError α
  | .ok a => .ok a
  | .error e => .error (.delta e)

-- ===== the steps

def defaultChunkElements : Int := 2 ^ 24

section Steps

variable (f : Formats) (g : Digests)

/-- `_put_delta`: none when the cap refuses it. -/
def putDelta (w : World) (state : Checkpoint) (masks : Masks)
    (fromVersion : Nat) (baseSha : String) (toVersion : Nat)
    (sha : String) : Except PublishError (Option World) := do
  let d ← liftPublish
    (deltaFromMasks state masks fromVersion toVersion baseSha sha)
  let blob ← liftPublish
    (encodeDelta f w.pub.config.zstdLevel defaultChunkElements d)
  if w.pub.config.maxCumulativeBytes.any fun cap =>
      toVersion - fromVersion > 1 && blob.length > cap then
    return none
  else
    return some (w.addDelta blob
      { g.entry (.delta fromVersion toVersion) (.blob blob) with
        fromVersion, toVersion, targetSha256 := sha })

/-- `_new_base`: nothing changed yet. -/
def newBase (version : Nat) (sha : String) (state : Checkpoint) : Base where
  version := version
  sha256 := sha
  masks := state.map fun x =>
    (x.1, List.replicate (if x.2.bf16 then x.2.cells.length else 1) false)

/-- `base.bits[name] |= mask`, for every name. -/
def orMasks (a b : Masks) : Masks :=
  a.map fun x =>
    (x.1, match b.lookup x.1 with
      | none => x.2
      | some m => List.zipWith (· || ·) x.2 m)

/-- One base of `_extend_cumulatives`, after the bases kept so far. -/
def extendBase (state : Checkpoint) (masks : Masks) (version : Nat)
    (sha : String) (acc : World × List Base) (base : Base) :
    Except PublishError (World × List Base) := do
  let base := { base with masks := orMasks base.masks masks }
  if version - base.version < 2 then
    return (acc.1, acc.2 ++ [base])
  else
    match ← putDelta f g acc.1 state base.masks base.version base.sha256
        version sha with
    | none => return acc
    | some w => return (w, acc.2 ++ [base])

/-- `_extend_cumulatives`. -/
def extendCumulatives (w : World) (state : Checkpoint) (masks : Masks)
    (version : Nat) (sha : String) : Except PublishError World := do
  let (w, kept) ← w.pub.bases.foldlM
    (extendBase f g state masks version sha) (w, [])
  return { w with pub := { w.pub with bases := kept } }

/-- The deltas of one publication, when there is a previous one. -/
def putDeltas (w : World) (state : Checkpoint) (version : Nat)
    (sha : String) : Except PublishError World :=
  match w.pub.prev with
  | none => .ok w
  | some p => do
    let masks ← liftPublish (changedMasks p.state state)
    let put ← putDelta f g w state masks p.version p.sha256 version sha
    extendCumulatives f g (put.getD w) state masks version sha

/-- The objects of an anchor: its shards, its model files. -/
def shardRows (version : Nat) (shards : List Checkpoint) :
    List (Key × Object) :=
  (shards.zipIdx 1).map fun x =>
    (Key.shard version x.2 shards.length, Object.shard x.1)

def modelRows (config : PublisherConfig) (version : Nat) :
    List (Key × Object) :=
  config.modelFiles.map fun x => (Key.model version x.1, Object.blob x.2)

/-- The objects of an anchor, in the order they are put. -/
def anchorRows (config : PublisherConfig) (state : Checkpoint)
    (version : Nat) : List (Key × Object) :=
  shardRows version (anchorShards config.anchorShardBytes state)
    ++ modelRows config version

def anchorEntry (config : PublisherConfig) (state : Checkpoint)
    (version : Nat) (sha : String) : AnchorEntry where
  version := version
  sha256 := sha
  files := (shardRows version (anchorShards config.anchorShardBytes state)).map
      fun x => g.entry x.1 x.2
  modelFiles := (modelRows config version).map fun x => g.entry x.1 x.2

/-- `_put_anchor`. -/
def putAnchor (w : World) (state : Checkpoint) (version : Nat)
    (sha : String) : World :=
  let anchor := anchorEntry g w.pub.config state version sha
  let w := w.putAll (anchorRows w.pub.config state version)
  { w with
    pub := { w.pub with
      anchors := w.pub.anchors ++ [anchor], lastAnchor := some version } }

/-- When a publication is an anchor. -/
def wantsAnchor (p : Publisher) (version : Nat) : Bool :=
  p.prev.isNone ||
    match p.lastAnchor with
    | none => true
    | some last =>
      version - last ≥ p.config.anchorInterval
        || version % p.config.anchorInterval == 0

/-- `l[-n:]`, `n` positive. -/
def keepLast {α : Type} (n : Nat) (l : List α) : List α :=
  l.drop (l.length - n)

/-- An anchor with its base, or a base every `cumulative_stride`-th
version (`del bases[:-0]` deletes nothing). -/
def putBase (w : World) (state : Checkpoint) (version : Nat)
    (sha : String) : World :=
  let base := newBase version sha state
  if wantsAnchor w.pub version then
    let w := putAnchor g w state version sha
    { w with pub := { w.pub with bases := [base] } }
  else if version % w.pub.config.cumulativeStride = 0 then
    let bases := w.pub.bases ++ [base]
    let bases := if w.pub.config.maxCumulativeBases = 0 then bases
      else keepLast w.pub.config.maxCumulativeBases bases
    { w with pub := { w.pub with bases } }
  else w

/-- A delta that `_prune` drops. -/
def stale (floor version : Nat) (d : DeltaEntry) : Bool :=
  d.fromVersion < floor
    || d.toVersion - d.fromVersion > 1 && d.toVersion < version - 1

/-- `_prune`: what stays listed, and the keys that go. -/
def prune (p : Publisher) (version : Nat) : Publisher × List Key :=
  let gone := p.anchors.take (p.anchors.length - p.config.keepAnchors)
  let anchors := keepLast p.config.keepAnchors p.anchors
  let floor := match anchors with
    | [] => 0
    | a :: _ => a.version
  ({ p with
     anchors, deltas := p.deltas.filter fun d => !stale floor version d },
   gone.flatMap AnchorEntry.keys
     ++ (p.deltas.filter (stale floor version)).map fun d => d.key)

/-- `_delete_due`: doomed keys whose time has come, but for the
deletions that fail. -/
def deleteDue (now : ℚ) (fails : Key → Bool) :
    List (ℚ × List Key) → List (Key × Object) →
      List (ℚ × List Key) × List (Key × Object)
  | [], store => ([], store)
  | d :: doomed, store =>
    if d.1 ≤ now then
      deleteDue now fails doomed
        (store.filter fun x => !(d.2.contains x.1 && !fails x.1))
    else (d :: doomed, store)

/-- The end of `publish`: prune, write the index, delete what is due. -/
def finish (w : World) (state : Checkpoint) (version : Nat) (sha : String)
    (doomAt deleteAt : ℚ) (fails : Key → Bool) : World :=
  let pruned := prune w.pub version
  let index : Index :=
    { version, sha256 := sha, anchors := pruned.1.anchors
      deltas := pruned.1.deltas }
  let doomed := if pruned.2 = [] then pruned.1.doomed
    else pruned.1.doomed ++ [(doomAt + pruned.1.config.pruneGraceS, pruned.2)]
  let due := deleteDue deleteAt fails doomed w.store
  { w with
    pub := { pruned.1 with
      prev := some { version, state, sha256 := sha }, doomed := due.1 }
    store := due.2
    index := some index
    published := version + 1
    written := w.written ++ [index] }

/-- `publish`. -/
def publish (w : World) (state : Checkpoint) (version : Nat)
    (doomAt deleteAt : ℚ) (fails : Key → Bool) : Except PublishError World := do
  let sha := g.checkpointSha256 state
  match w.pub.prev.filter fun p => version ≤ p.version with
  | some p => .error (.follows version p.version)
  | none => do
    let w ← putDeltas f g w state version sha
    return finish (putBase g w state version sha) state version sha
      doomAt deleteAt fails

/-- A new process on the same store: `__init__`. -/
def restart (w : World) (config : PublisherConfig) : World :=
  { w with
    pub := match w.index with
      | none => { config }
      | some old => { config, anchors := old.anchors, deltas := old.deltas } }

inductive PublisherOp
  | publish (doomAt deleteAt : ℚ) (fails : Key → Bool)
  | restart (config : PublisherConfig)

/-- One step: the next version of the history, or a restart. -/
def publisherStep (h : History) (w : World) :
    PublisherOp → Except PublishError World
  | .publish doomAt deleteAt fails =>
    publish f g w (h.ckpt w.published) w.published doomAt deleteAt fails
  | .restart config => .ok (restart w config)

/-- The store before the first publication. -/
def emptyWorld (config : PublisherConfig) : World :=
  { pub := { config } }

end Steps

end Reliquary.Ckpt
