/-
The miner's side of checkpoint deltas: `miner/ckpt_sync.py`.

A plan is executed against what can be downloaded, `get : Key → Option
Object`. An object is a blob of bytes or, for a safetensors shard, the
tensors it holds (safetensors reads back what it saved). Every object
is checked against its entry's size and digest, a delta is decoded from
its bytes and its target hash compared, and the rebuilt checkpoint's
hash is compared at the end.

# What is proven

`Backed`: behind each entry of an index stands the object it describes
— an anchor's shards merge to its version's checkpoint, a delta decodes
to one that carries its versions. Over a backed index a route run to
its end leaves exactly the latest checkpoint, from any state whose
cells are mixed from the start version on (`execute_exact`).
-/
import Reliquary.Ckpt.Index
import Reliquary.Ckpt.Wire

namespace Reliquary.Ckpt

open Store

-- ===== objects

/-- A stored file: bytes, or a safetensors shard. -/
inductive Object
  | blob (data : Bytes)
  | shard (tensors : Checkpoint)
deriving DecidableEq

/-- Sizes of shard files and SHA-256: of a file, of a checkpoint. -/
structure Digests where
  shardSize : Checkpoint → Nat
  sha256 : Object → String
  checkpointSha256 : Checkpoint → String

def Digests.size (g : Digests) : Object → Nat
  | .blob data => data.length
  | .shard tensors => g.shardSize tensors

/-- The entry of an object under a key. -/
def Digests.entry (g : Digests) (key : Key) (o : Object) : FileEntry :=
  { key, size := g.size o, sha256 := g.sha256 o }

inductive SyncError
  | download (key : Key)
  /-- key: size or sha256 differs from the index -/
  | objectMismatch (key : Key)
  | delta (e : DeltaError)
  /-- checkpoint sha256 … != published … -/
  | checksumMismatch
  /-- the index offers no way to reach its latest version -/
  | noDownloadPath
  /-- a file that is not what its reader expects -/
  | malformed
deriving DecidableEq

def liftDelta {α : Type} : Except DeltaError α → Except SyncError α
  | .ok a => .ok a
  | .error e => .error (.delta e)

-- ===== execution

section Execute

variable (f : Formats) (g : Digests) (get : Key → Option Object)

/-- `_fetch` and `_check_object`. -/
def fetch (e : FileEntry) : Except SyncError Object :=
  match get e.key with
  | none => .error (.download e.key)
  | some o =>
    if g.size o ≠ e.size ∨ g.sha256 o ≠ e.sha256 then
      .error (.objectMismatch e.key)
    else .ok o

def fetchShard (e : FileEntry) : Except SyncError Checkpoint := do
  match ← fetch g get e with
  | .shard tensors => .ok tensors
  | .blob _ => .error .malformed

def fetchDelta (e : DeltaEntry) : Except SyncError CheckpointDelta := do
  match ← fetch g get e.toFileEntry with
  | .shard _ => .error .malformed
  | .blob data => do
    let d ← liftDelta (decodeDelta f data)
    if d.targetSha256 ≠ e.targetSha256 then .error (.delta .targetHash)
    else .ok d

/-- One delta of a plan. -/
def patchWith (s : Checkpoint) (e : DeltaEntry) :
    Except SyncError Checkpoint := do
  let d ← fetchDelta f g get e
  liftDelta (applyDelta s d)

def verifyCheckpoint (s : Checkpoint) (expected : String) :
    Except SyncError Unit :=
  if g.checkpointSha256 s ≠ expected then .error .checksumMismatch
  else .ok ()

/-- The state a plan starts from. -/
def loadStart (plan : DownloadPlan) (state : Option Checkpoint) :
    Except SyncError Checkpoint :=
  match plan.anchor with
  | some a => do
    let shards ← a.files.mapM (fetchShard g get)
    return mergeShards shards
  | none =>
    match state with
    | some s => .ok s
    | none => .error .malformed

/-- `_execute`. -/
def execute (plan : DownloadPlan) (state : Option Checkpoint) :
    Except SyncError Checkpoint := do
  let s ← loadStart g get plan state
  let s ← plan.deltas.foldlM (patchWith f g get) s
  verifyCheckpoint g s plan.targetSha256
  return s

/-- An error after which only an anchor is safe. -/
def SyncError.retries : SyncError → Bool
  | .checksumMismatch => true
  | .delta _ => true
  | .objectMismatch _ => true
  | _ => false

/-- The anchor route of `sync`. -/
def syncAnchor (index : Index) : Except SyncError (Checkpoint × Nat) :=
  match planDownload index none with
  | none => .error .noDownloadPath
  | some plan => do
    let s ← execute f g get plan none
    return (s, plan.targetVersion)

/-- `sync`, after the signature check. -/
def sync (index : Index) (state : Option Checkpoint)
    (version : Option Nat) : Except SyncError (Checkpoint × Nat) :=
  match state, version with
  | some s, some v =>
    match planDownload index (some v) with
    | none => .error .noDownloadPath
    | some plan =>
      if plan.anchor = none ∧ plan.deltas = [] then .ok (s, v)
      else if plan.anchor = none then
        match execute f g get plan (some s) with
        | .ok s' => .ok (s', plan.targetVersion)
        | .error e =>
          if e.retries then syncAnchor f g get index else .error e
      else syncAnchor f g get index
  | _, _ => syncAnchor f g get index

end Execute

-- ===== backing

/-- A delta entry and the object behind it. -/
def BackedDelta (h : History) (f : Formats) (g : Digests)
    (get : Key → Option Object) (e : DeltaEntry) : Prop :=
  ∃ data d, get e.key = some (.blob data)
    ∧ e.toFileEntry = g.entry e.key (.blob data)
    ∧ decodeDelta f data = .ok d ∧ d.targetSha256 = e.targetSha256
    ∧ Carries h d e.fromVersion e.toVersion

/-- A file entry and the shard behind it. -/
def BackedShard (g : Digests) (get : Key → Option Object) (e : FileEntry)
    (tensors : Checkpoint) : Prop :=
  get e.key = some (.shard tensors) ∧ e = g.entry e.key (.shard tensors)

def BackedAnchor (h : History) (g : Digests) (get : Key → Option Object)
    (a : AnchorEntry) : Prop :=
  ∃ shards, List.Forall₂ (BackedShard g get) a.files shards
    ∧ mergeShards shards = h.ckpt a.version

/-- Behind each entry of the index stands what it describes. -/
structure Backed (h : History) (f : Formats) (g : Digests)
    (get : Key → Option Object) (index : Index) : Prop where
  sha : index.sha256 = g.checkpointSha256 (h.ckpt index.version)
  anchors : ∀ a ∈ index.anchors, BackedAnchor h g get a
  deltas : ∀ e ∈ index.deltas, BackedDelta h f g get e

section Backing

variable {h : History} {f : Formats} {g : Digests}
  {get get' : Key → Option Object}

theorem BackedDelta.mono (hget : ∀ k o, get k = some o → get' k = some o)
    {e : DeltaEntry} (he : BackedDelta h f g get e) :
    BackedDelta h f g get' e := by
  obtain ⟨data, d, hk, hrest⟩ := he
  exact ⟨data, d, hget _ _ hk, hrest⟩

theorem BackedAnchor.mono (hget : ∀ k o, get k = some o → get' k = some o)
    {a : AnchorEntry} (ha : BackedAnchor h g get a) :
    BackedAnchor h g get' a := by
  obtain ⟨shards, hall, hmerge⟩ := ha
  exact ⟨shards, hall.imp fun e s hes => ⟨hget _ _ hes.1, hes.2⟩, hmerge⟩

theorem fetch_entry {key : Key} {o : Object} (hk : get key = some o) :
    fetch g get (g.entry key o) = .ok o := by
  simp [fetch, Digests.entry, hk]

theorem BackedDelta.fetch {e : DeltaEntry} (he : BackedDelta h f g get e) :
    ∃ d, fetchDelta f g get e = .ok d
      ∧ Carries h d e.fromVersion e.toVersion := by
  obtain ⟨data, d, hk, hentry, hd, ht, hc⟩ := he
  refine ⟨d, ?_, hc⟩
  have hf : Ckpt.fetch g get e.toFileEntry = .ok (.blob data) := by
    rw [hentry]
    exact fetch_entry hk
  unfold fetchDelta
  rw [hf]
  show (liftDelta (decodeDelta f data) >>= fun d => _) = _
  rw [hd]
  show (if d.targetSha256 ≠ e.targetSha256 then _ else _) = _
  rw [if_neg (by simp [ht])]

theorem fetchShards {es : List FileEntry} {shards : List Checkpoint}
    (hall : List.Forall₂ (BackedShard g get) es shards) :
    es.mapM (fetchShard g get) = .ok shards := by
  induction hall with
  | nil => rfl
  | @cons e s es shards hes _ ih =>
    have hone : fetchShard g get e = .ok s := by
      have hf : fetch g get e = .ok (.shard s) := by
        rw [hes.2]
        exact fetch_entry hes.1
      unfold fetchShard
      rw [hf]
      rfl
    rw [List.mapM_cons, hone, ih]
    rfl

end Backing

-- ===== replay

section Replay

variable {h : History} {f : Formats} {g : Digests}
  {get : Key → Option Object} {index : Index} {u l : Nat} {s : Checkpoint}

/-- A chain of backed deltas moves a mixed state to its end. -/
theorem replay_mixed {ds : List DeltaEntry} {w : Nat} (hc : Chain u ds w)
    (hback : ∀ e ∈ ds, BackedDelta h f g get e) (hw : w ≤ l)
    (hs : Window h u l s) :
    ∃ s', ds.foldlM (patchWith f g get) s = .ok s' ∧ Window h w l s' := by
  induction hc generalizing s with
  | nil v => exact ⟨s, rfl, hs⟩
  | @cons v w ds e hf ht hrest ih =>
    obtain ⟨d, hfetch, hcar⟩ := (hback e List.mem_cons_self).fetch
    have hle := hrest.le
    have hone : patchWith f g get s e = .ok (d.writes.foldl writeCell s) := by
      unfold patchWith
      rw [hfetch]
      show liftDelta (applyDelta s d) = _
      rw [hcar.applyDelta_eq (hs.layoutAt e.toVersion)]
      rfl
    obtain ⟨s', hfold, hs'⟩ := ih
      (fun e' he' => hback e' (List.mem_cons_of_mem _ he')) hw
      (hcar.complete hs hf (by omega) (List.Perm.refl d.writes))
    refine ⟨s', ?_, hs'⟩
    rw [List.foldlM_cons, hone]
    exact hfold

/-- At the end of the window a state of the run's structure is the
run's checkpoint. -/
theorem eq_of_mixed (hs : Window h l l s) : s = h.ckpt l := by
  have hnames : names s = names (h.ckpt 0) := by
    rw [← names_layout, hs.layout, names_layout]
  refine checkpoint_ext (hs.layoutAt l) ?_ hs.mixed.done
  rw [hnames]
  exact h.nodup 0

/-- **A route run to its end** leaves the latest checkpoint: from its
anchor, or from a state mixed from its start version on. -/
theorem execute_exact (hb : Backed h f g get index) {current : Option Nat}
    {plan : DownloadPlan} (hsha : plan.targetSha256 = index.sha256)
    (hroute : IsRoute index current plan.anchor plan.deltas u index.version)
    {state : Option Checkpoint} (hstate : plan.anchor = none →
      ∃ s, state = some s ∧ Window h u index.version s) :
    execute f g get plan state = .ok (h.ckpt index.version) := by
  have hstart : ∃ s, loadStart g get plan state = .ok s
      ∧ Window h u index.version s := by
    unfold loadStart
    cases ha : plan.anchor with
    | none =>
      obtain ⟨s, rfl, hs⟩ := hstate ha
      exact ⟨s, rfl, hs⟩
    | some a =>
      obtain ⟨shards, hall, hmerge⟩ := hb.anchors a (hroute.anchored a ha)
      have hu : a.version = u := by
        have := hroute.start
        rw [ha] at this
        injection this
      subst hu
      refine ⟨h.ckpt a.version, ?_, Window.start h hroute.chain.le⟩
      dsimp only
      rw [fetchShards hall]
      exact congrArg Except.ok hmerge
  obtain ⟨s, hload, hs⟩ := hstart
  obtain ⟨s', hfold, hs'⟩ := replay_mixed hroute.chain
    (fun e he => hb.deltas e (hroute.listed e he)) le_rfl hs
  have heq := eq_of_mixed hs'
  unfold execute
  rw [hload]
  show (plan.deltas.foldlM (patchWith f g get) s >>= fun s => _) = _
  rw [hfold]
  show (verifyCheckpoint g s' plan.targetSha256 >>= fun _ => _) = _
  have hverify : verifyCheckpoint g s' plan.targetSha256 = .ok () := by
    unfold verifyCheckpoint
    rw [heq, hsha, hb.sha, if_neg (by simp)]
  rw [hverify, heq]
  rfl

end Replay

end Reliquary.Ckpt
