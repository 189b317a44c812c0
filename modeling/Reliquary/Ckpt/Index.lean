/-
The checkpoint index and the download plan: the shallow model of
`shared/ckpt_index.py`.

An index lists anchors (full checkpoints) and deltas (edges between
versions; an edge may be entered at any version in `[from, to)`).
`planDownload` follows the source: a table of the best way known to
each version, relaxed by cost and then by number of steps, visited in
version order. Object names are kept as what they are formatted from
(`Key`); one publisher writes one run, so the run's prefix is left out.

# What is proven

- `planDownload_route`: a plan is a route — it starts from the caller's
  version or from a listed anchor and follows listed deltas, each
  entered at a version it accepts, to the latest version.
- `planDownload_ok`: where there is a route, there is a plan.
- `planDownload_cheapest`: no route costs less, and none of the plan's
  bytes takes fewer deltas.

Versions are visited in order and an edge leads upwards, so what the
table holds at a version's turn is what it holds in the end
(`lookup_visits`), and every edge out of it was then priced
(`visits_closed`).
-/
import Reliquary.Store.Run
import Reliquary.Store.Table

namespace Reliquary.Ckpt

open Store List Option

-- ===== the index

/-- What `anchor_key`, `model_file_key` and `delta_key` format. -/
inductive Key
  | shard (version number total : Nat)
  | model (version : Nat) (name : String)
  | delta (fromVersion toVersion : Nat)
deriving DecidableEq, Repr

/-- A listed object: its name and what the bytes must be. -/
structure FileEntry where
  key : Key
  size : Nat
  sha256 : String
deriving DecidableEq, Repr

structure AnchorEntry where
  version : Nat
  sha256 : String
  files : List FileEntry
  modelFiles : List FileEntry
deriving DecidableEq, Repr

structure DeltaEntry extends FileEntry where
  fromVersion : Nat
  toVersion : Nat
  targetSha256 : String
deriving DecidableEq, Repr

structure Index where
  version : Nat
  sha256 : String
  anchors : List AnchorEntry
  deltas : List DeltaEntry
deriving DecidableEq, Repr

def AnchorEntry.keys (a : AnchorEntry) : List Key :=
  (a.files ++ a.modelFiles).map FileEntry.key

/-- `index_keys`. -/
def indexKeys (index : Index) : List Key :=
  index.anchors.flatMap (fun a => a.files.map FileEntry.key)
    ++ index.anchors.flatMap (fun a => a.modelFiles.map FileEntry.key)
    ++ index.deltas.map fun d => d.key

variable {index : Index} {current : Option Nat} {best : Best}
  {ds : List DeltaEntry} {d : DeltaEntry}

theorem mem_indexKeys {k : Key} :
    k ∈ indexKeys index ↔ (∃ a ∈ index.anchors, k ∈ a.keys)
      ∨ ∃ d ∈ index.deltas, d.key = k := by
  simp only [indexKeys, AnchorEntry.keys, mem_append, mem_flatMap,
    List.mem_map, map_append]
  constructor
  · rintro ((⟨a, ha, hk⟩ | ⟨a, ha, hk⟩) | hd)
    · exact .inl ⟨a, ha, .inl hk⟩
    · exact .inl ⟨a, ha, .inr hk⟩
    · exact .inr hd
  · rintro (⟨a, ha, hk | hk⟩ | hd)
    · exact .inl (.inl ⟨a, ha, hk⟩)
    · exact .inl (.inr ⟨a, ha, hk⟩)
    · exact .inr hd

-- ===== the plan

structure DownloadPlan where
  targetVersion : Nat
  targetSha256 : String
  anchor : Option AnchorEntry := none
  deltas : List DeltaEntry := []
deriving DecidableEq, Repr

/-- A way to a version: its bytes, the anchor it starts from (or the
caller's own state) and the deltas that follow. -/
structure Way where
  cost : Nat
  anchor : Option AnchorEntry
  path : List DeltaEntry
deriving DecidableEq, Repr

/-- `best`. -/
abbrev Best := List (Nat × Way)

/-- `(cost, len(deltas)) < (old[0], old[1])`. -/
def Way.better (new old : Way) : Bool :=
  new.cost < old.cost
    || new.cost == old.cost && new.path.length < old.path.length

def relax (best : Best) (version : Nat) (new : Way) : Best :=
  match best.lookup version with
  | none => put version new best
  | some old => if new.better old then put version new best else best

/-- A delta that leads on from `version`, not past the latest. -/
def DeltaEntry.leads (latest version : Nat) (d : DeltaEntry) : Bool :=
  d.fromVersion ≤ version && version < d.toVersion && d.toVersion ≤ latest

/-- One delta of the inner loop, out of `version` reached by `way`. -/
def follow (latest version : Nat) (way : Way) (best : Best)
    (d : DeltaEntry) : Best :=
  if d.leads latest version then
    relax best d.toVersion ⟨way.cost + d.size, way.anchor, way.path ++ [d]⟩
  else best

/-- The relaxations out of one version. -/
def visit (latest : Nat) (deltas : List DeltaEntry) (best : Best)
    (version : Nat) : Best :=
  match best.lookup version with
  | none => best
  | some way =>
    if version ≥ latest then best
    else deltas.foldl (follow latest version way) best

/-- One anchor as a start, for its size. -/
def startAt (latest : Nat) (best : Best) (a : AnchorEntry) : Best :=
  if a.version ≤ latest then
    relax best a.version ⟨(a.files.map FileEntry.size).sum, some a, []⟩
  else best

/-- Where a route may start: the caller's version, for free, or an
anchor. -/
def starts (index : Index) (current : Option Nat) : Best :=
  let own : Best := match current with
    | none => []
    | some v => relax [] v ⟨0, none, []⟩
  index.anchors.foldl (startAt index.version) own

/-- `sorted(deltas, key=(to, from))`. -/
def sortedDeltas (index : Index) : List DeltaEntry :=
  index.deltas.insertionSort fun a b =>
    a.toVersion < b.toVersion
      ∨ a.toVersion = b.toVersion ∧ a.fromVersion ≤ b.fromVersion

/-- `sorted(set(best) | {d.to})`. -/
def nodes (best : Best) (deltas : List DeltaEntry) : List Nat :=
  ((best.map Prod.fst ++ deltas.map DeltaEntry.toVersion).dedup).insertionSort
    (· ≤ ·)

/-- The table of `planDownload` after its loop. -/
def explore (index : Index) (current : Option Nat) : Best :=
  (nodes (starts index current) (sortedDeltas index)).foldl
    (visit index.version (sortedDeltas index)) (starts index current)

/-- `plan_download`; none is `NoDownloadPath`. -/
def planDownload (index : Index) (current : Option Nat) : Option DownloadPlan :=
  if current.any fun v => v ≥ index.version then
    some { targetVersion := index.version, targetSha256 := index.sha256 }
  else
    ((explore index current).lookup index.version).map fun way =>
      { targetVersion := index.version, targetSha256 := index.sha256
        anchor := way.anchor, deltas := way.path }

-- ===== routes

/-- Deltas that lead from one version to another, each entered at a
version it accepts. -/
inductive Chain : Nat → List DeltaEntry → Nat → Prop
  | nil (v : Nat) : Chain v [] v
  | cons {v w : Nat} {ds : List DeltaEntry} (d : DeltaEntry) :
      d.fromVersion ≤ v → v < d.toVersion → Chain d.toVersion ds w →
      Chain v (d :: ds) w

theorem Chain.snoc {v w : Nat} (h : Chain v ds w) (hf : d.fromVersion ≤ w)
    (ht : w < d.toVersion) : Chain v (ds ++ [d]) d.toVersion := by
  induction h with
  | nil v => exact Chain.cons d hf ht (Chain.nil _)
  | cons e he het _ ih => exact Chain.cons e he het (ih hf ht)

theorem Chain.le {v w : Nat} (h : Chain v ds w) : v ≤ w := by
  induction h with
  | nil v => exact Nat.le_refl v
  | cons d _ ht _ ih => omega

/-- A route of an index to `w`: from the caller's version or a listed
anchor, along listed deltas. -/
structure IsRoute (index : Index) (current : Option Nat)
    (anchor : Option AnchorEntry) (path : List DeltaEntry) (u w : Nat) :
    Prop where
  start : (anchor.map AnchorEntry.version).or current = some u
  anchored : ∀ a, anchor = some a → a ∈ index.anchors
  listed : ∀ d ∈ path, d ∈ index.deltas
  chain : Chain u path w

/-- Every way of the table is a route. -/
def Routed (index : Index) (current : Option Nat) (best : Best) : Prop :=
  ∀ w way, best.lookup w = some way →
    ∃ u, IsRoute index current way.anchor way.path u w

-- ===== soundness

theorem mem_sortedDeltas : d ∈ sortedDeltas index ↔ d ∈ index.deltas :=
  (perm_insertionSort _ _).mem_iff

theorem leads_iff {latest version : Nat} :
    d.leads latest version = true ↔ d.fromVersion ≤ version
      ∧ version < d.toVersion ∧ d.toVersion ≤ latest := by
  simp [DeltaEntry.leads, and_assoc]

variable {version latest w : Nat} {new way : Way} {deltas : List DeltaEntry}

/-- A relaxation is about one version. -/
theorem lookup_relax_ne (h : w ≠ version) :
    (relax best version new).lookup w = best.lookup w := by
  unfold relax
  split
  · rw [lookup_put, if_neg h]
  · split
    · rw [lookup_put, if_neg h]
    · rfl

/-- What it may leave there. -/
theorem lookup_relax (h : (relax best version new).lookup w = some way) :
    (w = version ∧ way = new) ∨ best.lookup w = some way := by
  by_cases hw : w = version
  · unfold relax at h
    split at h
    · exact (lookup_put_some h).imp_right And.right
    · split at h
      · exact (lookup_put_some h).imp_right And.right
      · exact .inr h
  · rw [lookup_relax_ne hw] at h
    exact .inr h

/-- A visit is relaxations along the deltas that lead on. -/
theorem visit_induction {P : Best → Prop} (h : P best)
    (hstep : ∀ way d b, best.lookup version = some way → d ∈ deltas →
      d.leads latest version = true → P b → P (relax b d.toVersion
        ⟨way.cost + d.size, way.anchor, way.path ++ [d]⟩)) :
    P (visit latest deltas best version) := by
  unfold visit
  split
  · exact h
  next way hway =>
    split
    · exact h
    · refine foldlRecOn deltas _ h fun b hb d hd => ?_
      unfold follow
      split
      next hleads => exact hstep way d b hway hd hleads hb
      next => exact hb

/-- What every start has and every delta keeps, every way of the table
has. -/
theorem explore_induction {P : Nat → Way → Prop}
    (hown : ∀ v, current = some v → P v ⟨0, none, []⟩)
    (hanchor : ∀ a ∈ index.anchors,
      P a.version ⟨(a.files.map FileEntry.size).sum, some a, []⟩)
    (hstep : ∀ v way, P v way → ∀ d ∈ index.deltas, d.fromVersion ≤ v →
      v < d.toVersion →
      P d.toVersion ⟨way.cost + d.size, way.anchor, way.path ++ [d]⟩) :
    ∀ w way, (explore index current).lookup w = some way → P w way := by
  let Has (best : Best) : Prop := ∀ w way, best.lookup w = some way → P w way
  have hrelax : ∀ {best v new}, Has best → P v new →
      Has (relax best v new) := by
    intro best v new h hnew w way hw
    rcases lookup_relax hw with ⟨rfl, rfl⟩ | hw
    · exact hnew
    · exact h w way hw
  have hstarts : Has (starts index current) := by
    refine foldlRecOn index.anchors _ ?_ fun best hbest a ha => ?_
    · cases current with
      | none => exact fun w way h => nomatch h
      | some v => exact hrelax (fun w way h => nomatch h) (hown v rfl)
    · unfold startAt
      split
      · exact hrelax hbest (hanchor a ha)
      · exact hbest
  refine foldlRecOn _ _ hstarts fun best hbest v _ => ?_
  refine visit_induction hbest fun way d b hway hd hleads hb => ?_
  obtain ⟨hf, ht, -⟩ := leads_iff.1 hleads
  exact hrelax hb (hstep v way (hbest v way hway) d (mem_sortedDeltas.1 hd)
    hf ht)

theorem routed_explore (index : Index) (current : Option Nat) :
    Routed index current (explore index current) := by
  apply explore_induction
  · exact fun v hv => ⟨v, hv, nofun, nofun, Chain.nil v⟩
  · exact fun a ha => ⟨a.version, rfl,
      fun b hb => by injection hb with hb; exact hb ▸ ha, nofun, Chain.nil _⟩
  · rintro v way ⟨u, hroute⟩ d hd hf ht
    refine ⟨u, hroute.start, hroute.anchored, ?_, hroute.chain.snoc hf ht⟩
    exact forall_snoc hroute.listed hd

/-- What a route downloads: its anchor's files and its deltas. -/
def routeBytes (anchor : Option AnchorEntry) (path : List DeltaEntry) : Nat :=
  (anchor.map fun a => (a.files.map FileEntry.size).sum).getD 0
    + (path.map fun d => d.size).sum

/-- `DownloadPlan.bytes`. -/
def DownloadPlan.bytes (plan : DownloadPlan) : Nat :=
  routeBytes plan.anchor plan.deltas

/-- The table has each way at its bytes. -/
theorem cost_explore (h : (explore index current).lookup w = some way) :
    way.cost = routeBytes way.anchor way.path := by
  refine explore_induction (P := fun _ way =>
    way.cost = routeBytes way.anchor way.path) ?_ ?_ ?_ w way h
  · exact fun v _ => rfl
  · exact fun a _ => rfl
  · intro v way hway d _ _ _
    simp only [routeBytes, map_append, sum_append] at hway ⊢
    simp only [hway, map_cons, map_nil, sum_singleton]
    omega

/-- **A plan is a route** to the latest version. -/
theorem planDownload_route
    {plan : DownloadPlan} (h : planDownload index current = some plan)
    (hnew : ∀ v, current = some v → v < index.version) :
    plan.targetVersion = index.version ∧ plan.targetSha256 = index.sha256
      ∧ ∃ u, IsRoute index current plan.anchor plan.deltas u index.version := by
  have hany : ¬(current.any fun v => v ≥ index.version) = true := by
    cases hc : current with
    | none => simp
    | some v => simpa using hnew v hc
  unfold planDownload at h
  rw [if_neg hany] at h
  obtain ⟨way, hway, rfl⟩ := map_eq_some_iff.1 h
  exact ⟨rfl, rfl, routed_explore index current _ way hway⟩

-- ===== the best price

variable {cost steps : Nat}

/-- The version is known at this price, in bytes and then in deltas, or
at a better one. -/
def Priced (best : Best) (w cost steps : Nat) : Prop :=
  ∃ way, best.lookup w = some way
    ∧ (way.cost < cost ∨ way.cost = cost ∧ way.path.length ≤ steps)

theorem Priced.relax (h : Priced best w cost steps) (version : Nat)
    (new : Way) : Priced (relax best version new) w cost steps := by
  obtain ⟨way, hway, hle⟩ := h
  by_cases hw : w = version
  · subst hw
    unfold Ckpt.relax
    rw [hway]
    dsimp only
    split
    next hbetter =>
      refine ⟨new, by simp, ?_⟩
      simp only [Way.better, Bool.or_eq_true, Bool.and_eq_true,
        decide_eq_true_eq, beq_iff_eq] at hbetter
      omega
    next => exact ⟨way, hway, hle⟩
  · exact ⟨way, by rw [lookup_relax_ne hw, hway], hle⟩

/-- A relaxation prices the version it is about. -/
theorem priced_relax (best : Best) (version : Nat) (new : Way) :
    Priced (relax best version new) version new.cost new.path.length := by
  unfold relax
  split
  · exact ⟨new, by simp, by omega⟩
  next old hold =>
    split
    · exact ⟨new, by simp, by omega⟩
    next hno =>
      refine ⟨old, hold, ?_⟩
      simp only [Way.better, Bool.or_eq_true, Bool.and_eq_true,
        decide_eq_true_eq, beq_iff_eq] at hno
      omega

theorem Priced.visits (h : Priced best w cost steps) (vs : List Nat) :
    Priced (vs.foldl (visit latest deltas) best) w cost steps :=
  foldlRecOn vs _ (motive := fun b => Priced b w cost steps) h
    fun _ hb _ _ => visit_induction (P := fun b => Priced b w cost steps) hb
      fun _ _ _ _ _ _ hb' => hb'.relax _ _

/-- A visit of a known version prices every edge out of it. -/
theorem priced_visit (hway : best.lookup version = some way)
    (hlt : version < latest) (hd : d ∈ deltas) (hleads : d.leads latest version) :
    Priced (visit latest deltas best version) d.toVersion (way.cost + d.size)
      (way.path.length + 1) := by
  unfold visit
  rw [hway]
  dsimp only
  rw [if_neg (by omega)]
  refine foldl_sets (P := fun b => Priced b _ _ _) (fun b e hb => ?_) hd
    (fun b => ?_) best
  · unfold follow
    split
    · exact hb.relax _ _
    · exact hb
  · rw [follow, if_pos hleads]
    simpa using priced_relax b d.toVersion
      ⟨way.cost + d.size, way.anchor, way.path ++ [d]⟩

/-- Visits change nothing at or below the versions visited. -/
theorem lookup_visits {vs : List Nat} (hw : ∀ v ∈ vs, w ≤ v) (best : Best) :
    (vs.foldl (visit latest deltas) best).lookup w = best.lookup w := by
  refine foldlRecOn vs _ (motive := fun b =>
    List.lookup w b = best.lookup w) rfl fun b hb v hv => ?_
  refine visit_induction (P := fun b => List.lookup w b = best.lookup w) hb ?_
  intro way d b' _ _ hleads hb'
  rw [lookup_relax_ne, hb']
  have hup := (leads_iff.1 hleads).2.1
  have hle := hw v hv
  omega

/-- Visits in order price every edge from what the table has in the
end. -/
theorem visits_closed {vs : List Nat} (hs : vs.Pairwise (· < ·))
    (hv : version ∈ vs) (hlt : version < latest)
    (hway : (vs.foldl (visit latest deltas) best).lookup version = some way)
    (hd : d ∈ deltas) (hleads : d.leads latest version) :
    Priced (vs.foldl (visit latest deltas) best) d.toVersion
      (way.cost + d.size) (way.path.length + 1) := by
  obtain ⟨pre, post, rfl⟩ := append_of_mem hv
  have hlater : ∀ v ∈ version :: post, version ≤ v := by
    have hpost := pairwise_cons.1 (pairwise_append.1 hs).2.1
    rintro v (_ | ⟨_, hv⟩)
    · exact le_rfl
    · exact Nat.le_of_lt (hpost.1 v hv)
  rw [foldl_append] at hway ⊢
  rw [lookup_visits hlater] at hway
  exact (priced_visit hway hlt hd hleads).visits post

theorem pairwise_nodes (best : Best) (deltas : List DeltaEntry) :
    (nodes best deltas).Pairwise (· < ·) := by
  have hle : (nodes best deltas).Pairwise (· ≤ ·) :=
    pairwise_insertionSort _ _
  have hne : (nodes best deltas).Nodup :=
    (perm_insertionSort _ _).nodup_iff.2 (nodup_dedup _)
  exact hle.imp₂ (fun a b hab hne => lt_of_le_of_ne hab hne) hne

theorem mem_nodes {v : Nat} : v ∈ nodes best deltas ↔ v ∈ best.map Prod.fst
      ∨ v ∈ deltas.map DeltaEntry.toVersion := by
  unfold nodes
  rw [(perm_insertionSort _ _).mem_iff, mem_dedup, mem_append]

/-- A version a route may start from. -/
def IsStart (index : Index) (current : Option Nat) (u : Nat) : Prop :=
  current = some u
    ∨ ∃ a ∈ index.anchors, a.version = u ∧ a.version ≤ index.version

theorem Priced.startAt (h : Priced best w cost steps) (a : AnchorEntry) :
    Priced (startAt latest best a) w cost steps := by
  unfold Ckpt.startAt
  split
  · exact h.relax _ _
  · exact h

variable {anchor : Option AnchorEntry} {u : Nat}

/-- The starts are priced: the caller's version at nothing, an anchor at
its files. -/
theorem priced_starts
    (hu : (anchor.map AnchorEntry.version).or current = some u)
    (ha : ∀ a, anchor = some a → a ∈ index.anchors ∧ a.version ≤ index.version) :
    Priced (starts index current) u (routeBytes anchor []) 0 := by
  cases anchor with
  | none =>
    have hcurrent : current = some u := hu
    subst hcurrent
    exact foldlRecOn _ _ (motive := fun b => Priced b u 0 0)
      (priced_relax [] u ⟨0, none, []⟩) fun _ hb a _ => hb.startAt a
  | some a =>
    injection hu with hu
    obtain ⟨hmem, hle⟩ := ha a rfl
    refine foldl_sets (P := fun b => Priced b _ _ _)
      (fun b a' hb => hb.startAt a') hmem (fun b => ?_) _
    rw [startAt, if_pos hle, ← hu]
    exact priced_relax b a.version _

/-- Along a chain from a known version, every version is known at the
chain's price. -/
theorem priced_explore (hc : Chain u ds w) (hds : ∀ d ∈ ds, d ∈ index.deltas)
    (hw : w ≤ index.version) (hu : Priced (explore index current) u cost steps)
    (hnode : u ∈ nodes (starts index current) (sortedDeltas index)) :
    Priced (explore index current) w (cost + (ds.map fun d => d.size).sum)
      (steps + ds.length) := by
  induction hc generalizing cost steps with
  | nil v => exact hu
  | @cons v w ds d hf ht hrest ih =>
    have hd := mem_sortedDeltas.2 (hds d mem_cons_self)
    have hle := hrest.le
    obtain ⟨way, hway, hprice⟩ := hu
    obtain ⟨way', hway', hprice'⟩ := visits_closed (pairwise_nodes _ _) hnode
      (by omega) hway hd (leads_iff.2 ⟨hf, ht, by omega⟩)
    have hnext : Priced (explore index current) d.toVersion (cost + d.size)
        (steps + 1) := ⟨way', hway', by omega⟩
    have hrun := ih (fun e he => hds e (mem_cons_of_mem _ he)) hw hnext
      (mem_nodes.2 (.inr (List.mem_map_of_mem hd)))
    rw [map_cons, sum_cons, length_cons]
    simpa only [Nat.add_assoc, Nat.add_comm 1] using hrun

/-- Every route to the latest version is priced in the table. -/
theorem IsRoute.priced (h : IsRoute index current anchor ds u index.version) :
    Priced (explore index current) index.version (routeBytes anchor ds)
      ds.length := by
  have hstart : Priced (starts index current) u (routeBytes anchor []) 0 := by
    refine priced_starts h.start ?_
    rintro a rfl
    have hle := h.chain.le
    injection h.start with hu
    exact ⟨h.anchored a rfl, by omega⟩
  have hmem : u ∈ (starts index current).map Prod.fst := by
    obtain ⟨way, hway, -⟩ := hstart
    exact List.mem_map.2 ⟨(u, way), mem_of_lookup hway, rfl⟩
  simpa [routeBytes] using priced_explore h.chain h.listed le_rfl
    (hstart.visits _) (mem_nodes.2 (.inl hmem))

/-- **Where there is a route there is a plan.** -/
theorem planDownload_ok (hu : IsStart index current u)
    (hc : Chain u ds index.version) (hds : ∀ d ∈ ds, d ∈ index.deltas) :
    ∃ plan, planDownload index current = some plan := by
  have hroute : ∃ anchor, IsRoute index current anchor ds u index.version := by
    rcases hu with rfl | ⟨a, ha, rfl, -⟩
    · exact ⟨none, rfl, nofun, hds, hc⟩
    · exact ⟨some a, rfl, fun b hb => by injection hb with hb; exact hb ▸ ha,
        hds, hc⟩
  obtain ⟨anchor, hroute⟩ := hroute
  obtain ⟨way, hway, -⟩ := hroute.priced
  unfold planDownload
  split
  · exact ⟨_, rfl⟩
  · rw [hway]
    exact ⟨_, rfl⟩

/-- **A plan is the cheapest route.** A caller that is past the latest
version gets the empty plan. Any other gets none exactly when there is
no route to the latest version, and else a route: none has fewer bytes,
and none of the same bytes fewer deltas. -/
theorem planDownload_cheapest (index : Index) (current : Option Nat) :
    ((∃ v, current = some v ∧ index.version < v) →
      planDownload index current = some
        { targetVersion := index.version, targetSha256 := index.sha256 })
    ∧ ((∀ v, current = some v → v ≤ index.version) →
      (planDownload index current = none
        ↔ ¬∃ anchor path u, IsRoute index current anchor path u index.version)
      ∧ ∀ plan, planDownload index current = some plan →
        plan.targetVersion = index.version ∧ plan.targetSha256 = index.sha256
        ∧ (∃ u, IsRoute index current plan.anchor plan.deltas u index.version)
        ∧ ∀ anchor path u, IsRoute index current anchor path u index.version →
          plan.bytes < routeBytes anchor path
            ∨ plan.bytes = routeBytes anchor path
              ∧ plan.deltas.length ≤ path.length) := by
  constructor
  · rintro ⟨v, rfl, hv⟩
    exact if_pos (by simpa using Nat.le_of_lt hv)
  intro hcurrent
  by_cases hhere : current = some index.version
  · -- the caller has the latest version: nothing to download
    have hempty : IsRoute index current none [] index.version index.version :=
      ⟨hhere, nofun, nofun, Chain.nil _⟩
    have hplan : planDownload index current = some
        { targetVersion := index.version, targetSha256 := index.sha256 } := by
      exact if_pos (by simp [hhere])
    rw [hplan]
    refine ⟨⟨nofun, fun h => absurd ⟨_, _, _, hempty⟩ h⟩, ?_⟩
    rintro plan ⟨⟩
    refine ⟨rfl, rfl, ⟨_, hempty⟩, fun anchor path u _ => ?_⟩
    show 0 < _ ∨ 0 = _ ∧ 0 ≤ _
    omega
  · have hbehind : ∀ v, current = some v → v < index.version := by
      intro v hv
      refine lt_of_le_of_ne (hcurrent v hv) ?_
      rintro rfl
      exact hhere hv
    refine ⟨⟨?_, ?_⟩, ?_⟩
    · rintro hnone ⟨anchor, path, u, hroute⟩
      obtain ⟨way, hway, -⟩ := hroute.priced
      unfold planDownload at hnone
      split at hnone
      · cases hnone
      · simp [hway] at hnone
    · intro hno
      by_contra hsome
      obtain ⟨plan, hplan⟩ := ne_none_iff_exists'.1 hsome
      obtain ⟨-, -, u, hroute⟩ := planDownload_route hplan hbehind
      exact hno ⟨_, _, u, hroute⟩
    · intro plan hplan
      obtain ⟨htv, hsha, hroute⟩ := planDownload_route hplan hbehind
      refine ⟨htv, hsha, hroute, fun anchor path u hother => ?_⟩
      obtain ⟨way, hway, hle⟩ := hother.priced
      have hbytes := cost_explore hway
      have heq : plan.bytes = way.cost ∧ plan.deltas = way.path := by
        unfold planDownload at hplan
        split at hplan
        next hany =>
          obtain ⟨v, hv, hge⟩ := (Option.any_eq_true _ _).1 hany
          exact absurd (hbehind v hv) (by simpa using hge)
        next =>
          rw [hway, map_some, some_inj] at hplan
          subst hplan
          exact ⟨hbytes.symm, rfl⟩
      rw [heq.1, heq.2]
      exact hle

/-- An index with an anchor, a step and a jump over both. -/
def threeVersions : Index :=
  let file (key : Key) (size : Nat) : FileEntry := ⟨key, size, "f"⟩
  { version := 2, sha256 := "two"
    anchors := [⟨0, "zero", [file (.shard 0 0 1) 9], []⟩]
    deltas :=
      [⟨file (.delta 0 1) 2, 0, 1, "one"⟩, ⟨file (.delta 1 2) 2, 1, 2, "two"⟩,
        ⟨file (.delta 0 2) 4, 0, 2, "two"⟩] }

/-- Two steps and the jump have the same bytes: the plan is the jump. -/
theorem planDownload_cheapest_jump : ∃ plan,
    planDownload threeVersions (some 0) = some plan ∧ plan.bytes = 4
      ∧ plan.deltas.length = 1
      ∧ ∀ anchor path u, IsRoute threeVersions (some 0) anchor path u 2 →
        4 < routeBytes anchor path
          ∨ 4 = routeBytes anchor path ∧ 1 ≤ path.length := by
  obtain ⟨plan, hplan, hbytes, hlen⟩ : ∃ plan,
      planDownload threeVersions (some 0) = some plan ∧ plan.bytes = 4
        ∧ plan.deltas.length = 1 := ⟨_, rfl, by decide +kernel, by decide +kernel⟩
  obtain ⟨-, -, -, hbest⟩ := ((planDownload_cheapest threeVersions (some 0)).2
    (by rintro v ⟨⟩; decide)).2 plan hplan
  rw [hbytes, hlen] at hbest
  exact ⟨plan, hplan, hbytes, hlen, hbest⟩

/-- A caller past the latest version has no route to it, and a plan. -/
theorem planDownload_past :
    planDownload { threeVersions with anchors := [] } (some 5) ≠ none
      ∧ ¬∃ anchor path u, IsRoute { threeVersions with anchors := [] } (some 5)
          anchor path u 2 := by
  refine ⟨by decide +kernel, ?_⟩
  rintro ⟨anchor, path, u, hroute⟩
  cases anchor with
  | some a => exact absurd (hroute.anchored a rfl) (not_mem_nil)
  | none =>
    have hle := hroute.chain.le
    have hu : u = 5 := by
      have := hroute.start
      simpa using this.symm
    omega

end Reliquary.Ckpt
