/-
Interrupted delta syncs.

A miner at version `u` patches its state in place. A route may be cut
anywhere — between two deltas or between two element writes, which the
apply's workers make in any order — and the caller keeps `u` and the
half-patched state (`Cut`). Any number of such attempts, over any
indexes of the run and with whatever the store still offers, leave a
mixture of cells from versions between `u` and the newest latest
version tried (`attempts_mixed`).

`interrupted_harmless`: a delta route from `u` that runs to its end then
leaves exactly its index's latest checkpoint, in whatever order its
writes are made, provided the index is not older than one an earlier
attempt used. Each position is written by the last delta of the chain
that covers its last move, or has not moved since `u`.

`stale_index_fails`: the proviso is needed. After a cut route to version
2, a complete route to version 1 leaves the cells that only the step to
2 moved, and the final hash check fails.
-/
import Reliquary.Ckpt.Reach

namespace Reliquary.Ckpt

open Store List

section Routes

variable (f : Formats) (g : Digests)

/-- A route cut short. -/
inductive Cut (get : Key → Option Object) :
    List DeltaEntry → Checkpoint → Checkpoint → Prop
  | before (es : List DeltaEntry) (s : Checkpoint) : Cut get es s s
  | within {e : DeltaEntry} {es : List DeltaEntry} {s : Checkpoint}
      {d : CheckpointDelta} {ws : List Write} :
      fetchDelta f g get e = .ok d → (∀ x ∈ ws, x ∈ d.writes) →
      Cut get (e :: es) s (ws.foldl writeCell s)
  | after {e : DeltaEntry} {es : List DeltaEntry} {s s' : Checkpoint}
      {d : CheckpointDelta} {ws : List Write} :
      fetchDelta f g get e = .ok d → ws.Perm d.writes →
      Cut get es (ws.foldl writeCell s) s' → Cut get (e :: es) s s'

/-- A route run to its end. -/
inductive Complete (get : Key → Option Object) :
    List DeltaEntry → Checkpoint → Checkpoint → Prop
  | nil (s : Checkpoint) : Complete get [] s s
  | cons {e : DeltaEntry} {es : List DeltaEntry} {s s' : Checkpoint}
      {d : CheckpointDelta} {ws : List Write} :
      fetchDelta f g get e = .ok d → ws.Perm d.writes →
      Complete get es (ws.foldl writeCell s) s' → Complete get (e :: es) s s'

/-- One call of `sync`: its index and what it could download. -/
structure Attempt where
  index : Index
  get : Key → Option Object

/-- Delta routes from version `u`, each cut short, one after another on
one state. -/
inductive Attempts (u : Nat) :
    Checkpoint → List Attempt → Checkpoint → Prop
  | nil (s : Checkpoint) : Attempts u s [] s
  | cons {a : Attempt} {as : List Attempt} {plan : DownloadPlan}
      {s s' s'' : Checkpoint} :
      planDownload a.index (some u) = some plan → plan.anchor = none →
      Cut f g a.get plan.deltas s s' → Attempts u s' as s'' →
      Attempts u s (a :: as) s''

end Routes

section Mixing

variable {h : History} {f : Formats} {g : Digests}
  {get ever : Key → Option Object} {l : Nat} {s s' : Checkpoint}

/-- What was downloaded is what was put, so it carries its entry's
versions. -/
theorem fetched_carries {e : DeltaEntry} (he : BackedDelta h f g ever e)
    (hget : ∀ k o, get k = some o → ever k = some o)
    {d : CheckpointDelta} (hd : fetchDelta f g get e = .ok d) :
    Carries h d e.fromVersion e.toVersion := by
  cases hk : get e.key with
  | none =>
    unfold fetchDelta fetch at hd
    rw [hk] at hd
    cases hd
  | some o =>
    have hever : get e.key = ever e.key := by rw [hk, hget _ _ hk]
    obtain ⟨d', hd', hc⟩ := (he.congr hever).fetch
    rw [hd] at hd'
    injection hd' with hd'
    rw [hd']
    exact hc

section Route

variable {ds : List DeltaEntry} {v w : Nat} (hc : Chain v ds w) (hw : w ≤ l)
  (hback : ∀ e ∈ ds, BackedDelta h f g ever e)
  (hget : ∀ k o, get k = some o → ever k = some o) (hs : Window h v l s)
include hc hw hback hget hs

/-- A cut route keeps the window open. -/
theorem cut_mixed (hcut : Cut f g get ds s s') {u : Nat} (huv : u ≤ v) :
    Window h u l s' := by
  induction hcut generalizing v with
  | before es s => exact hs.lower huv
  | @within e es s d ws hd hws =>
    cases hc with
    | cons _ hf ht hrest =>
      have hcar := fetched_carries (hback e mem_cons_self) hget hd
      have hle := hrest.le
      exact (hcar.partly hs (by omega) (by omega) hws).lower huv
  | @after e es s s' d ws hd hws _ ih =>
    cases hc with
    | cons _ hf ht hrest =>
      have hcar := fetched_carries (hback e mem_cons_self) hget hd
      have hle := hrest.le
      exact ih hrest (fun e' he' => hback e' (mem_cons_of_mem _ he'))
        (hcar.complete hs hf (by omega) hws) (by omega)

/-- A complete route closes the window. -/
theorem complete_mixed (hdone : Complete f g get ds s s') :
    Window h w l s' := by
  induction hdone generalizing v with
  | nil s =>
    cases hc with
    | nil => exact hs
  | @cons e es s s' d ws hd hws _ ih =>
    cases hc with
    | cons _ hf ht hrest =>
      have hcar := fetched_carries (hback e mem_cons_self) hget hd
      have hle := hrest.le
      exact ih hrest (fun e' he' => hback e' (mem_cons_of_mem _ he'))
        (hcar.complete hs hf (by omega) hws)

end Route

/-- The chain of a plan without an anchor, empty when the caller is
not behind. -/
theorem plan_chain {index : Index} {u : Nat} {plan : DownloadPlan}
    (hplan : planDownload index (some u) = some plan)
    (hanchor : plan.anchor = none) :
    plan.deltas = [] ∨ (∀ e ∈ plan.deltas, e ∈ index.deltas)
      ∧ Chain u plan.deltas index.version := by
  by_cases hu : u < index.version
  · obtain ⟨-, -, u', hroute⟩ := planDownload_route hplan
      fun v hv => by injection hv with hv; omega
    have hstart := hroute.start
    rw [hanchor] at hstart
    injection hstart with hstart
    exact .inr ⟨hroute.listed, hstart ▸ hroute.chain⟩
  · left
    unfold planDownload at hplan
    rw [if_pos (by simpa using hu)] at hplan
    injection hplan with hplan
    rw [← hplan]

/-- An attempt over an index of the run, not newer than `l`. -/
structure Within (h : History) (f : Formats) (g : Digests)
    (ever : Key → Option Object) (l : Nat) (a : Attempt) : Prop where
  backed : Backed h f g ever a.index
  get : ∀ k o, a.get k = some o → ever k = some o
  le : a.index.version ≤ l

theorem attempts_mixed {u : Nat} {as : List Attempt}
    (has : Attempts f g u s as s') (hin : ∀ a ∈ as, Within h f g ever l a)
    (hs : Window h u l s) : Window h u l s' := by
  induction has with
  | nil s => exact hs
  | @cons a as plan s s' s'' hplan hanchor hcut _ ih =>
    obtain ⟨hback, hget, hle⟩ := hin a mem_cons_self
    refine ih (fun a' ha' => hin a' (mem_cons_of_mem _ ha')) ?_
    rcases plan_chain hplan hanchor with hnil | ⟨hlisted, hc⟩
    · rw [hnil] at hcut
      cases hcut
      exact hs
    · exact cut_mixed hc hle (fun e he => hback.deltas e (hlisted e he)) hget
        hs hcut (Nat.le_refl u)

end Mixing

/-- **Interrupted delta syncs are harmless**, as long as the index of
the route that completes is not older than those of the interrupted
ones. -/
theorem interrupted_harmless {h : History} {f : Formats} {g : Digests}
    {config : PublisherConfig} {ops : List PublisherOp} {w : World}
    (hrun : ops.foldlM (publisherStep f g h) (emptyWorld config) = .ok w)
    {u : Nat} {index : Index} (hindex : index ∈ w.written)
    (hu : u < index.version) {attempts : List Attempt}
    (hin : ∀ a ∈ attempts, a.index ∈ w.written
      ∧ (∀ k o, a.get k = some o → w.getEver k = some o)
      ∧ a.index.version ≤ index.version)
    {s : Checkpoint} (hs : Attempts f g u (h.ckpt u) attempts s)
    {plan : DownloadPlan} (hplan : planDownload index (some u) = some plan)
    (hanchor : plan.anchor = none) {get : Key → Option Object}
    (hget : ∀ k o, get k = some o → w.getEver k = some o) :
    (∀ s', Complete f g get plan.deltas s s' → s' = h.ckpt index.version
        ∧ verifyCheckpoint g s' plan.targetSha256 = .ok ())
    ∧ ((∀ e ∈ plan.deltas, (get e.key).isSome) →
      sync f g get index (some s) (some u)
        = .ok (h.ckpt index.version, index.version)) := by
  have hrest := rest_run h f g config ops
  rw [hrun] at hrest
  have hback := hrest.shelf.written index hindex
  have hin' : ∀ a ∈ attempts, Within h f g w.getEver index.version a := by
    intro a ha
    obtain ⟨hw, hg, hle⟩ := hin a ha
    exact ⟨hrest.shelf.written a.index hw, hg, hle⟩
  have hmixed := attempts_mixed hs hin' (Window.start h hu.le)
  obtain ⟨htv, hsha, u', hroute⟩ := planDownload_route hplan
    fun v hv => by injection hv with hv; omega
  have hstart := hroute.start
  rw [hanchor] at hstart
  injection hstart with hstart
  subst hstart
  refine ⟨?_, ?_⟩
  · intro s' hdone
    have heq := eq_of_mixed (complete_mixed hroute.chain le_rfl
      (fun e he => hback.deltas e (hroute.listed e he)) hget hmixed hdone)
    refine ⟨heq, ?_⟩
    unfold verifyCheckpoint
    rw [heq, hsha, hback.sha, if_neg (by simp)]
  · intro hall
    -- what can be downloaded is what the index describes
    have hfound : Backed h f g get
        { index with anchors := [], deltas := plan.deltas } := by
      refine ⟨hback.sha, nofun, fun e he => ?_⟩
      obtain ⟨o, ho⟩ := Option.isSome_iff_exists.1 (hall e he)
      refine (hback.deltas e (hroute.listed e he)).congr ?_
      rw [ho, hget _ _ ho]
    have hne : ¬(plan.anchor = none ∧ plan.deltas = []) := by
      rintro ⟨-, hnil⟩
      have hc := hroute.chain
      rw [hnil] at hc
      cases hc
      omega
    have hexec := execute_exact hfound hsha
      { hroute with
        anchored := fun a ha => nomatch hanchor.symm.trans ha
        listed := fun _ he => he } fun _ => ⟨s, rfl, hmixed⟩
    unfold sync
    dsimp only
    rw [hplan]
    dsimp only
    rw [if_neg hne, if_pos hanchor, hexec, htv]

-- ===== a sample

/-- Two weights: the first moves in the step to 1, the second in the
step to 2. -/
def twoWeights (v : Nat) : Checkpoint :=
  [("w", ⟨"bfloat16", [2], [min v 1, min (v - 1) 1]⟩)]

def twoSteps : History where
  ckpt := twoWeights
  same := fun _ => rfl
  sorted := pairwise_singleton _ _
  wf := by
    intro v x hx
    rw [mem_singleton.1 hx]
    refine ⟨rfl, ?_⟩
    intro c hc
    simp only [mem_cons, not_mem_nil, or_false] at hc
    omega

def sampleHeader (a b : Nat) (base target : String) (n : Int) : Header where
  format := 2
  codec := "zstd"
  chunkElements := some 16777216
  fromVersion := a
  toVersion := b
  baseSha256 := base
  targetSha256 := target
  tensors := [⟨"w", "bfloat16", [2],
    .sparse n [⟨0, n, "bitmask", ⟨0, 1, 1⟩, ⟨1, 2 * n, 2 * n⟩⟩]⟩]

def sampleFormats : Formats :=
  plainFormats [sampleHeader 0 1 "v0" "v1" 1, sampleHeader 1 2 "v1" "v2" 1,
    sampleHeader 0 2 "v0" "v2" 2]

def sampleDigests : Digests where
  shardSize := fun _ => 1000
  sha256 := fun _ => "object"
  checkpointSha256 := fun s =>
    if s = twoWeights 0 then "v0"
    else if s = twoWeights 1 then "v1"
    else if s = twoWeights 2 then "v2"
    else "mixed"

def sampleConfig : PublisherConfig where
  anchorInterval := 10
  cumulativeStride := 10
  maxCumulativeBases := 3
  maxCumulativeBytes := none
  keepAnchors := 2
  anchorShardBytes := 5000
  zstdLevel := 3
  pruneGraceS := 900
  modelFiles := []
  positive := by decide
  distinct := nodup_nil

/-- Three publications. -/
def sampleRun : Except PublishError World :=
  (List.replicate 3 (PublisherOp.publish 0 0 fun _ => false)).foldlM
    (publisherStep sampleFormats sampleDigests twoSteps)
    (emptyWorld sampleConfig)

def sampleWorld : World := sampleRun.toOption.getD (emptyWorld sampleConfig)

theorem sampleRun_eq : sampleRun = .ok sampleWorld := by
  have hok : sampleRun.toOption.isSome = true := by decide +kernel
  unfold sampleWorld
  cases hr : sampleRun with
  | error e =>
    rw [hr] at hok
    cases hok
  | ok w => rfl

/-- The indexes written at version 1 and at version 2. -/
def earlyIndex : Index := sampleWorld.written.getD 1 ⟨0, "", [], []⟩
def lateIndex : Index := sampleWorld.written.getD 2 ⟨0, "", [], []⟩

def planFrom0 (index : Index) : DownloadPlan :=
  (planDownload index (some 0)).getD ⟨0, "", none, []⟩

theorem early_facts : earlyIndex ∈ sampleWorld.written
    ∧ planDownload earlyIndex (some 0) = some (planFrom0 earlyIndex)
    ∧ (planFrom0 earlyIndex).anchor = none := by
  decide +kernel

theorem late_facts : lateIndex ∈ sampleWorld.written
    ∧ planDownload lateIndex (some 0) = some (planFrom0 lateIndex)
    ∧ (planFrom0 lateIndex).anchor = none ∧ lateIndex.version = 2 := by
  decide +kernel

def lateEntry : DeltaEntry :=
  (planFrom0 lateIndex).deltas.headD ⟨⟨.delta 0 0, 0, ""⟩, 0, 0, ""⟩

/-- The cumulative delta from 0 to 2. -/
def lateDelta : CheckpointDelta :=
  ⟨0, 2, "v0", "v2", [⟨"w", "bfloat16", [2], .sparse [0, 1] [1, 1]⟩]⟩

/-- The second weight of version 2 over version 0. -/
def halfPatched : Checkpoint := [("w", ⟨"bfloat16", [2], [0, 1]⟩)]

/-- The route to version 2, cut after the write of the second weight. -/
theorem sample_cut : Cut sampleFormats sampleDigests sampleWorld.get
    (planFrom0 lateIndex).deltas (twoSteps.ckpt 0) halfPatched := by
  have hfetch : fetchDelta sampleFormats sampleDigests sampleWorld.get
      lateEntry = .ok lateDelta := by
    decide +kernel
  have hwrite : ∀ x ∈ [(⟨"w", 1, 1⟩ : Write)], x ∈ lateDelta.writes := by
    decide +kernel
  exact Cut.within hfetch hwrite

theorem sample_attempts : Attempts sampleFormats sampleDigests 0
    (twoSteps.ckpt 0) [⟨lateIndex, sampleWorld.get⟩] halfPatched := by
  obtain ⟨-, hplan, hanchor, -⟩ := late_facts
  exact Attempts.cons hplan hanchor sample_cut (Attempts.nil _)

theorem sample_kept (k : Key) (o : Object)
    (hk : sampleWorld.get k = some o) : sampleWorld.getEver k = some o := by
  have hrest := rest_run twoSteps sampleFormats sampleDigests sampleConfig
    (List.replicate 3 (PublisherOp.publish 0 0 fun _ => false))
  exact hrest.shelf.kept k o hk

/-- The same route taken again from version 0 repairs the mixture. -/
theorem interrupted_harmless_repaired :
    sync sampleFormats sampleDigests sampleWorld.get lateIndex
        (some halfPatched) (some 0) = .ok (twoWeights 2, 2) := by
  obtain ⟨hmem, hplan, hanchor, hversion⟩ := late_facts
  have hin : ∀ a ∈ [(⟨lateIndex, sampleWorld.get⟩ : Attempt)],
      a.index ∈ sampleWorld.written
        ∧ (∀ k o, a.get k = some o → sampleWorld.getEver k = some o)
        ∧ a.index.version ≤ lateIndex.version := by
    intro a ha
    rw [mem_singleton.1 ha]
    exact ⟨hmem, sample_kept, le_rfl⟩
  have hdone := (interrupted_harmless sampleRun_eq hmem
    (by rw [hversion]; decide) hin sample_attempts hplan hanchor
    sample_kept).2 (by decide +kernel)
  exact hdone

/-- After the cut route to version 2, a complete route to version 1
fails its final check. -/
theorem stale_index_fails : sampleRun = .ok sampleWorld
      ∧ (earlyIndex ∈ sampleWorld.written ∧ earlyIndex.version = 1)
      ∧ (lateIndex ∈ sampleWorld.written ∧ lateIndex.version = 2)
      ∧ Attempts sampleFormats sampleDigests 0 (twoSteps.ckpt 0)
          [⟨lateIndex, sampleWorld.get⟩] halfPatched
      ∧ planDownload earlyIndex (some 0) = some (planFrom0 earlyIndex)
      ∧ (planFrom0 earlyIndex).anchor = none
      ∧ execute sampleFormats sampleDigests sampleWorld.get
          (planFrom0 earlyIndex) (some halfPatched)
        = .error .checksumMismatch := by
  obtain ⟨hearly, hplan, hanchor⟩ := early_facts
  refine ⟨sampleRun_eq, ⟨hearly, ?_⟩, ⟨late_facts.1, late_facts.2.2.2⟩,
    sample_attempts, hplan, hanchor, ?_⟩
  · decide +kernel
  · decide +kernel

end Reliquary.Ckpt
