/-
Every published checkpoint is reachable from the index in the store.

`published_reachable`: after every step of the publisher the index
lists only objects that are there, and plans from nothing and from
every earlier version succeed and rebuild the latest checkpoint
exactly. The invariant between two steps is `Rest`:

- behind every listed entry stands its object (`Shelf`); a key is put
  once, since it names the version that put it, so nothing overwrites
  an object and nothing doomed is listed again;
- a base's masks hit every cell moved since its version (`BaseOk`), so
  its cumulative carries all of them;
- from the newest anchor to the latest version every single step is
  listed: a restart makes the newest anchor the latest version, a
  single step is never capped, and pruning drops a single step only
  below the oldest anchor kept.

A publication raises only if a delta's header does not fit its 64-bit
length field.

# Order of the proof

The masks of a base, the store under puts, the three phases of a
publication (deltas, anchor or base, the end), then the run.
-/
import Reliquary.Ckpt.Publisher

namespace Reliquary.Ckpt

open Store List

-- ===== masks

section Masks

variable {s s' : Checkpoint} {a b : Masks}

theorem masksFit_of_layout (hl : layout s = layout s')
    (h : MasksFit s a) : MasksFit s' a := by
  refine ⟨?_, ?_⟩
  · rw [h.names, ← names_layout, hl, names_layout]
  · intro n m t hm ht
    obtain ⟨u, hu, hk⟩ := kin_of_layout hl ht
    rw [h.size n m u hm hu, bf16_of_kind hk, length_of_kind hk]

theorem hits_of_layout (hl : layout s = layout s') {p : String × Nat}
    (h : Hits s a p) : Hits s' a p := by
  obtain ⟨t, m, ht, hm, hlt, hhit⟩ := h
  obtain ⟨u, hu, hk⟩ := kin_of_layout hl.symm ht
  refine ⟨u, m, hu, hm, ?_, ?_⟩
  · rw [length_of_kind hk]
    exact hlt
  · rw [bf16_of_kind hk]
    exact hhit

theorem lookup_orMasks (a b : Masks) (n : String) :
    (orMasks a b).lookup n = (a.lookup n).map fun m =>
      match b.lookup n with
      | none => m
      | some m' => List.zipWith (· || ·) m m' := by
  exact lookup_mapValues (fun n (m : List Bool) => match b.lookup n with
    | none => m
    | some m' => List.zipWith (· || ·) m m') n a

/-- The masks of a tensor in two fitting families. -/
theorem MasksFit.both (ha : MasksFit s a) (hb : MasksFit s b) {n : String}
    {t : Tensor} (ht : s.lookup n = some t) :
    ∃ m m', a.lookup n = some m ∧ b.lookup n = some m'
      ∧ (orMasks a b).lookup n = some (List.zipWith (· || ·) m m')
      ∧ m.length = m'.length
      ∧ m.length = if t.bf16 then t.cells.length else 1 := by
  obtain ⟨m, hm⟩ := lookup_of_names ha.names ht
  obtain ⟨m', hm'⟩ := lookup_of_names hb.names ht
  have hlen := ha.size n m t hm ht
  refine ⟨m, m', hm, hm', ?_, ?_, hlen⟩
  · rw [lookup_orMasks, hm, hm']
    rfl
  · rw [hlen, hb.size n m' t hm' ht]

theorem masksFit_orMasks (ha : MasksFit s a) (hb : MasksFit s b) :
    MasksFit s (orMasks a b) := by
  refine ⟨?_, ?_⟩
  · rw [← ha.names, orMasks, map_map]
    rfl
  · intro n m t hm ht
    obtain ⟨x, y, -, -, hor, hlen, hsize⟩ := ha.both hb ht
    rw [hm] at hor
    injection hor with hor
    rw [hor, length_zipWith, ← hlen, Nat.min_self, hsize]

/-- Flags of two lists of one length, joined. -/
theorem getD_zipWith_or {x y : List Bool} (h : x.length = y.length)
    (j : Nat) : (List.zipWith (· || ·) x y).getD j false
      = (x.getD j false || y.getD j false) := by
  by_cases hj : j < x.length
  · have hj' : j < y.length := by omega
    simp [List.getD, hj, hj']
  · have hx : x[j]? = none := getElem?_eq_none (by omega)
    have hy : y[j]? = none := getElem?_eq_none (by omega)
    simp [List.getD, getElem?_zipWith, hx, hy]

theorem hitsCell_or {bf16 : Bool} {x y : List Bool} {j c : Nat}
    (hlen : x.length = y.length) (hsize : x.length = if bf16 then c else 1) :
    hitsCell bf16 (List.zipWith (· || ·) x y) j
      = (hitsCell bf16 x j || hitsCell bf16 y j) := by
  unfold hitsCell
  cases bf16 with
  | true =>
    exact getD_zipWith_or hlen j
  | false =>
    -- one flag for the whole tensor
    obtain ⟨p, rfl⟩ := length_eq_one_iff.1 hsize
    obtain ⟨q, rfl⟩ := length_eq_one_iff.1 (hlen.symm.trans hsize)
    simp

theorem hits_orMasks (ha : MasksFit s a) (hb : MasksFit s b) {p : String × Nat}
    (h : Hits s a p ∨ Hits s b p) : Hits s (orMasks a b) p := by
  have htensor : ∃ t, s.lookup p.1 = some t ∧ p.2 < t.cells.length := by
    rcases h with ⟨t, -, ht, -, hlt, -⟩ | ⟨t, -, ht, -, hlt, -⟩
    · exact ⟨t, ht, hlt⟩
    · exact ⟨t, ht, hlt⟩
  obtain ⟨t, ht, hlt⟩ := htensor
  obtain ⟨x, y, hx, hy, hor, hlen, hsize⟩ := ha.both hb ht
  refine ⟨t, _, ht, hor, hlt, ?_⟩
  rw [hitsCell_or hlen hsize, Bool.or_eq_true]
  rcases h with ⟨u, m, hu, hm, -, hhit⟩ | ⟨u, m, hu, hm, -, hhit⟩
  · cases ht.symm.trans hu
    cases hx.symm.trans hm
    exact .inl hhit
  · cases ht.symm.trans hu
    cases hy.symm.trans hm
    exact .inr hhit

theorem masksFit_newBase (version : Nat) (sha : String) (s : Checkpoint) :
    MasksFit s (newBase version sha s).masks := by
  have hlookup : ∀ n, (newBase version sha s).masks.lookup n
      = (s.lookup n).map fun t =>
        List.replicate (if t.bf16 then t.cells.length else 1) false :=
    fun n => lookup_mapValues (fun _ (t : Tensor) => List.replicate
      (if t.bf16 then t.cells.length else 1) false) n s
  refine ⟨?_, ?_⟩
  · simp [newBase, names]
  · intro n m t hm ht
    rw [hlookup, ht] at hm
    injection hm with hm
    rw [← hm, length_replicate]

end Masks

-- ===== bases

/-- A base at version `n`: its masks fit the run's structure and hit
every cell moved since its version. -/
structure BaseOk (h : History) (n : Nat) (b : Base) : Prop where
  le : b.version ≤ n
  fit : MasksFit (h.ckpt 0) b.masks
  covers : Covers h.cells {p | Hits (h.ckpt 0) b.masks p} b.version n

theorem baseOk_newBase (h : History) (n : Nat) (sha : String) :
    BaseOk h n (newBase n sha (h.ckpt n)) where
  le := Nat.le_refl n
  fit := masksFit_of_layout (h.layout_eq n 0) (masksFit_newBase n sha _)
  covers := Covers.start _ _ n

/-- The masks of one publication. -/
structure StepMasks (h : History) (n : Nat) (masks : Masks) : Prop where
  fit : MasksFit (h.ckpt 0) masks
  moved : ∀ p, h.cells n p ≠ h.cells (n + 1) p → Hits (h.ckpt 0) masks p

theorem changedMasks_step (h : History) (n : Nat) :
    ∃ masks, changedMasks (h.ckpt n) (h.ckpt (n + 1)) = .ok masks
      ∧ StepMasks h n masks := by
  obtain ⟨masks, hok, hfit, hhit⟩ :=
    changedMasks_ok (h.layout_eq n (n + 1)) (h.nodup n)
  have hl := h.layout_eq (n + 1) 0
  exact ⟨masks, hok, masksFit_of_layout hl hfit,
    fun p hp => hits_of_layout hl (hhit p hp)⟩

variable {n : Nat} {masks : Masks} {a n : Nat} {w₀ w : World} {b : Base}

theorem BaseOk.extend {h : History}
    (hb : BaseOk h n b) (hm : StepMasks h n masks) :
    BaseOk h (n + 1) { b with masks := orMasks b.masks masks } where
  le := Nat.le_succ_of_le hb.le
  fit := masksFit_orMasks hb.fit hm.fit
  covers := by
    refine hb.covers.step ?_ ?_
    · exact fun p hp => hits_orMasks hb.fit hm.fit (.inl hp)
    · exact fun p hp => hits_orMasks hb.fit hm.fit (.inr (hm.moved p hp))

/-- The delta of masks that cover `a` to `n`. -/
theorem delta_of_covers (h : History)
    (han : a < n) (base target : String) (hfit : MasksFit (h.ckpt 0) masks)
    (hcov : Covers h.cells {p | Hits (h.ckpt 0) masks p} a n) :
    ∃ d, deltaFromMasks (h.ckpt n) masks a n base target = .ok d
      ∧ Carries h d a n ∧ d.Wf ∧ d.targetSha256 = target := by
  have hl := h.layout_eq 0 n
  refine deltaFromMasks_carries h han base target
    (masksFit_of_layout hl hfit) ?_
  intro p hp u hu hun
  exact hcov p (fun hhit => hp (hits_of_layout hl hhit)) u hu hun

-- ===== the shelf

/-- The version whose publication puts the key. -/
def Key.version : Key → Nat
  | .shard v _ _ => v
  | .model v _ => v
  | .delta _ t => t

/-- The anchor the key belongs to. -/
def Key.anchor? : Key → Option Nat
  | .shard v _ _ => some v
  | .model v _ => some v
  | .delta _ _ => none

/-- The keys a publisher lists. -/
def listed (p : Publisher) : List Key :=
  p.anchors.flatMap AnchorEntry.keys ++ p.deltas.map fun d => d.key

theorem mem_listed {p : Publisher} {k : Key} : k ∈ listed p
      ↔ (∃ a ∈ p.anchors, k ∈ a.keys) ∨ ∃ e ∈ p.deltas, e.key = k := by
  rw [listed, mem_append, mem_flatMap, mem_map]

/-- What is listed is backed by the store, and the store by the
history of all puts. -/
structure Shelf (h : History) (f : Formats) (g : Digests) (w : World) :
    Prop where
  deltas : ∀ e ∈ w.pub.deltas, BackedDelta h f g w.get e
    ∧ e.key = .delta e.fromVersion e.toVersion
  anchors : ∀ a ∈ w.pub.anchors, BackedAnchor h g w.get a
    ∧ ∀ k ∈ a.keys, (w.get k).isSome ∧ k.anchor? = some a.version
  doomed : ∀ d ∈ w.pub.doomed, ∀ k ∈ d.2,
    k ∈ w.objects.map Prod.fst ∧ k ∉ listed w.pub
  kept : ∀ k o, w.get k = some o → w.getEver k = some o
  written : ∀ i ∈ w.written, Backed h f g w.getEver i

/-- Keys never put before, each once. -/
structure Fresh (w : World) (rows : List (Key × Object)) : Prop where
  nodup : (rows.map Prod.fst).Nodup
  new : ∀ x ∈ rows, x.1 ∉ w.objects.map Prod.fst

section Puts

variable {h : History} {f : Formats} {g : Digests} {w : World}
  {rows : List (Key × Object)} {get get' : Key → Option Object} {k : Key}

theorem lookup_none_of_new (hk : k ∉ w.objects.map Prod.fst) :
    w.getEver k = none := by
  exact lookup_none hk

/-- New keys leave what was there. -/
theorem get_putAll (hkept : ∀ k o, w.get k = some o → w.getEver k = some o)
    (hf : Fresh w rows) {o : Object} (hk : w.get k = some o) :
    (w.putAll rows).get k = some o := by
  have hnone : rows.lookup k = none := by
    apply lookup_none
    rintro hmem
    obtain ⟨x, hx, rfl⟩ := mem_map.1 hmem
    have hever := hkept _ _ hk
    rw [lookup_none_of_new (hf.new x hx)] at hever
    cases hever
  show (rows.foldl (fun t x => put x.1 x.2 t) w.store).lookup k = _
  rw [lookup_putAll k rows _ hf.nodup, hnone]
  exact hk

theorem get_putAll_new (hf : Fresh w rows) {x : Key × Object}
    (hx : x ∈ rows) : (w.putAll rows).get x.1 = some x.2 := by
  show (rows.foldl (fun t x => put x.1 x.2 t) w.store).lookup x.1 = _
  rw [lookup_putAll _ rows _ hf.nodup, lookup_of_mem hf.nodup hx]
  rfl

theorem getEver_putAll {o : Object} (hk : w.getEver k = some o) :
    (w.putAll rows).getEver k = some o := by
  show (w.objects ++ rows).lookup k = _
  rw [lookup_append, show w.objects.lookup k = some o from hk]
  rfl

theorem BackedDelta.congr {e : DeltaEntry} (he : BackedDelta h f g get e)
    (hk : get' e.key = get e.key) : BackedDelta h f g get' e := by
  obtain ⟨data, d, hget, hrest⟩ := he
  exact ⟨data, d, hk.trans hget, hrest⟩

theorem BackedAnchor.congr {a : AnchorEntry} (ha : BackedAnchor h g get a)
    (hk : ∀ k ∈ a.keys, get' k = get k) : BackedAnchor h g get' a := by
  obtain ⟨shards, hall, hmerge⟩ := ha
  refine ⟨shards, ?_, hmerge⟩
  have hfiles : ∀ e ∈ a.files, get' e.key = get e.key := by
    intro e he
    exact hk e.key (mem_map.2 ⟨e, mem_append_left _ he, rfl⟩)
  clear hmerge hk
  generalize a.files = files at hall hfiles
  induction hall with
  | nil => exact Forall₂.nil
  | cons hes _ ih =>
    refine Forall₂.cons ?_ (ih fun e he => hfiles e (mem_cons_of_mem _ he))
    exact ⟨(hfiles _ mem_cons_self).trans hes.1, hes.2⟩

theorem Backed.mono {i : Index} (hi : Backed h f g get i)
    (hget : ∀ k o, get k = some o → get' k = some o) : Backed h f g get' i where
  sha := hi.sha
  anchors := fun a ha => (hi.anchors a ha).mono hget
  deltas := fun e he => (hi.deltas e he).mono hget

/-- New objects on the shelf. -/
theorem Shelf.putAll (hs : Shelf h f g w) (hf : Fresh w rows) :
    Shelf h f g (w.putAll rows) where
  deltas := fun e he =>
    ⟨(hs.deltas e he).1.mono fun _ _ => get_putAll hs.kept hf,
      (hs.deltas e he).2⟩
  anchors := by
    intro a ha
    refine ⟨(hs.anchors a ha).1.mono fun _ _ => get_putAll hs.kept hf, ?_⟩
    intro k hk
    obtain ⟨hsome, hanchor⟩ := (hs.anchors a ha).2 k hk
    obtain ⟨o, ho⟩ := Option.isSome_iff_exists.1 hsome
    rw [get_putAll hs.kept hf ho]
    exact ⟨rfl, hanchor⟩
  doomed := by
    intro d hd k hk
    refine ⟨?_, (hs.doomed d hd k hk).2⟩
    show k ∈ (w.objects ++ rows).map Prod.fst
    rw [map_append]
    exact mem_append_left _ (hs.doomed d hd k hk).1
  kept := by
    intro k o hk
    have hread : (w.putAll rows).get k = (rows.lookup k).or (w.get k) :=
      lookup_putAll k rows _ hf.nodup
    have hever : (w.putAll rows).getEver k
        = (w.getEver k).or (rows.lookup k) := lookup_append
    rw [hread] at hk
    rw [hever]
    cases hrow : rows.lookup k with
    | none =>
      rw [hrow] at hk
      rw [hs.kept k o hk]
      rfl
    | some o' =>
      rw [hrow] at hk
      injection hk with hk
      have hnew := hf.new _ (mem_of_lookup hrow)
      rw [lookup_none_of_new hnew, ← hk]
      rfl
  written := fun i hi => (hs.written i hi).mono fun _ _ => getEver_putAll

end Puts

-- ===== phase one: deltas

/-- What a publication does not touch before its end. -/
structure Grown (w w' : World) : Prop where
  published : w'.published = w.published
  index : w'.index = w.index
  config : w'.pub.config = w.pub.config
  prev : w'.pub.prev = w.pub.prev
  lastAnchor : w'.pub.lastAnchor = w.pub.lastAnchor
  anchors : w'.pub.anchors = w.pub.anchors
  deltas : ∀ e ∈ w.pub.deltas, e ∈ w'.pub.deltas

theorem Grown.refl (w : World) : Grown w w :=
  ⟨rfl, rfl, rfl, rfl, rfl, rfl, fun _ he => he⟩

theorem Grown.addDelta (hw : Grown w₀ w) (blob : Bytes)
    (e : DeltaEntry) : Grown w₀ (w.addDelta blob e) := { hw with
  deltas := fun e' he' => mem_append_left _ (hw.deltas e' he') }

section Deltas

variable {h : History} {f : Formats} {g : Digests}

/-- A delta entry, whatever store its blob is read from. -/
structure EntryOf (h : History) (f : Formats) (g : Digests) (a n : Nat)
    (blob : Bytes) (e : DeltaEntry) : Prop where
  from_ : e.fromVersion = a
  to_ : e.toVersion = n
  key : e.key = .delta a n
  back : ∀ get, get e.key = some (.blob blob) → BackedDelta h f g get e

theorem Shelf.addDelta {w : World} (hs : Shelf h f g w) {blob : Bytes}
    {e : DeltaEntry} (he : EntryOf h f g a n blob e)
    (hf : Fresh w [(e.key, .blob blob)]) : Shelf h f g (w.addDelta blob e) := by
  have hput := hs.putAll hf
  refine ⟨?_, hput.anchors, ?_, hput.kept, hput.written⟩
  · refine forall_snoc hput.deltas
      ⟨he.back _ (get_putAll_new hf (mem_singleton_self _)), ?_⟩
    rw [he.key, he.from_, he.to_]
  · intro d hd k hk
    obtain ⟨hmem, hnot⟩ := hput.doomed d hd k hk
    refine ⟨hmem, ?_⟩
    intro hlisted
    rcases mem_listed.1 hlisted with ha | ⟨e', he', rfl⟩
    · exact hnot (mem_listed.2 (.inl ha))
    · rcases mem_snoc.1 he' with he' | rfl
      · exact hnot (mem_listed.2 (.inr ⟨e', he', rfl⟩))
      · exact hf.new _ (mem_singleton_self _) (hs.doomed d hd _ hk).1

/-- `_put_delta` of masks that cover `a` to `n`. -/
theorem putDelta_spec (w : World)
    (han : a < n) (base sha : String) (hfit : MasksFit (h.ckpt 0) masks)
    (hcov : Covers h.cells {p | Hits (h.ckpt 0) masks p} a n) :
    Ends (fun o => (o = none ∧ a + 1 < n)
        ∨ ∃ blob e, o = some (w.addDelta blob e) ∧ EntryOf h f g a n blob e)
      (fun err => err = PublishError.delta .struct)
      (putDelta f g w (h.ckpt n) masks a base n sha) := by
  obtain ⟨d, hd, hcar, hwf, htarget⟩ :=
    delta_of_covers h han base sha hfit hcov
  unfold putDelta
  rw [hd]
  show Ends _ _ (liftPublish (encodeDelta f w.pub.config.zstdLevel
    defaultChunkElements d) >>= fun blob => _)
  by_cases hlen : (f.dumps (wireHeader f w.pub.config.zstdLevel
      defaultChunkElements.toNat d)).length < 2 ^ 64
  · have hpos : (0 : Int) < defaultChunkElements := by decide
    have hmax : defaultChunkElements ≤ u32Limit := by decide
    rw [encodeDelta_ok hpos hmax hlen]
    show Ends _ _ (if _ then _ else _)
    split
    next hcap =>
      refine .inl ⟨rfl, ?_⟩
      rw [Option.any_eq_true] at hcap
      obtain ⟨cap, -, hcap⟩ := hcap
      simp only [Bool.and_eq_true, decide_eq_true_eq] at hcap
      omega
    next =>
      refine .inr ⟨_, _, rfl, rfl, rfl, rfl, ?_⟩
      intro get hget
      exact ⟨_, d, hget, rfl, decodeDelta_wireBytes hpos hmax hwf hlen,
        htarget, hcar⟩
  · have herr : encodeDelta f w.pub.config.zstdLevel defaultChunkElements d
        = .error .struct := by
      unfold encodeDelta
      rw [if_neg (by decide)]
      exact if_pos (by omega)
    rw [herr]
    rfl

/-- While `n` is published: the cumulatives of `rest` are still to
come. -/
structure Mid (h : History) (f : Formats) (g : Digests) (n : Nat)
    (rest : List Base) (w₀ w : World) : Prop where
  shelf : Shelf h f g w
  grown : Grown w₀ w
  bound : ∀ x ∈ w.objects, x.1.version < n
    ∨ ∃ a, x.1 = .delta a n ∧ (a + 1 = n ∨ ∀ b ∈ rest, a ≠ b.version)

theorem Mid.le {rest : List Base} (hm : Mid h f g n rest w₀ w) :
    ∀ x ∈ w.objects, x.1.version ≤ n := by
  intro x hx
  rcases hm.bound x hx with hlt | ⟨a, ha, -⟩
  · exact Nat.le_of_lt hlt
  · rw [ha]
    exact Nat.le_refl n

theorem Mid.weaken {rest : List Base}
    (hm : Mid h f g n (b :: rest) w₀ w) : Mid h f g n rest w₀ w where
  shelf := hm.shelf
  grown := hm.grown
  bound := by
    intro x hx
    rcases hm.bound x hx with hlt | ⟨a, ha, hdone⟩
    · exact .inl hlt
    · refine .inr ⟨a, ha, hdone.imp id ?_⟩
      exact fun hall b' hb' => hall b' (mem_cons_of_mem _ hb')

/-- The next delta to `n`, from a version not used yet. -/
theorem Mid.addDelta {n a : Nat} {rest rest' : List Base}
    (hm : Mid h f g n rest w₀ w) {blob : Bytes} {e : DeltaEntry}
    (he : EntryOf h f g a n blob e)
    (hnew : Key.delta a n ∉ w.objects.map Prod.fst)
    (hrest : ∀ b ∈ rest', b ∈ rest)
    (hdone : a + 1 = n ∨ ∀ b ∈ rest', a ≠ b.version) :
    Mid h f g n rest' w₀ (w.addDelta blob e) where
  shelf := by
    refine hm.shelf.addDelta he ⟨nodup_singleton _, ?_⟩
    intro x hx
    rw [mem_singleton.1 hx, he.key]
    exact hnew
  grown := hm.grown.addDelta blob e
  bound := by
    intro x hx
    rcases mem_snoc.1 hx with hx | rfl
    · rcases hm.bound x hx with hlt | ⟨a', ha', hdone'⟩
      · exact .inl hlt
      · refine .inr ⟨a', ha', hdone'.imp id ?_⟩
        exact fun hall b hb => hall b (hrest b hb)
    · exact .inr ⟨a, he.key, hdone⟩

/-- The loop of `_extend_cumulatives`. -/
structure Extending (h : History) (f : Formats) (g : Digests) (m : Nat)
    (w₀ : World) (acc : World × List Base) (rest : List Base) : Prop where
  mid : Mid h f g (m + 1) rest w₀ acc.1
  kept : ∀ b ∈ acc.2, BaseOk h (m + 1) b ∧ b.version ≤ m
  todo : ∀ b ∈ rest, BaseOk h m b
  ordered : ((acc.2 ++ rest).map Base.version).Pairwise (· < ·)
  single : ∃ e ∈ acc.1.pub.deltas, e.fromVersion = m ∧ e.toVersion = m + 1

/-- A base stays, with the masks of this publication. -/
theorem Extending.keep {m : Nat} {w₀ w w' : World} {kept rest : List Base}
    (hm : StepMasks h m masks) (hx : Extending h f g m w₀ (w, kept) (b :: rest))
    (hmid : Mid h f g (m + 1) rest w₀ w')
    (hdeltas : ∀ e ∈ w.pub.deltas, e ∈ w'.pub.deltas) : Extending h f g m w₀
      (w', kept ++ [{ b with masks := orMasks b.masks masks }]) rest where
  mid := hmid
  kept := by
    have hb := hx.todo b mem_cons_self
    exact forall_snoc hx.kept ⟨hb.extend hm, hb.le⟩
  todo := fun b' hb' => hx.todo b' (mem_cons_of_mem _ hb')
  ordered := by
    have := hx.ordered
    simpa using this
  single := by
    obtain ⟨e, he, hfrom⟩ := hx.single
    exact ⟨e, hdeltas e he, hfrom⟩

theorem extendBase_spec {m : Nat} {w₀ : World}
    (hm : StepMasks h m masks) (sha : String) (acc : World × List Base)
    (b : Base) (rest : List Base) (hx : Extending h f g m w₀ acc (b :: rest)) :
    Ends (Extending h f g m w₀ · rest)
      (fun err => err = PublishError.delta .struct)
      (extendBase f g (h.ckpt (m + 1)) masks (m + 1) sha acc b) := by
  obtain ⟨w, kept⟩ := acc
  have hb := hx.todo b mem_cons_self
  have hext := hb.extend hm
  have hle := hb.le
  unfold extendBase
  dsimp only
  split
  · exact hx.keep hm hx.mid.weaken fun _ he => he
  next hfar =>
    have hput := putDelta_spec (f := f) (g := g) w
      (show b.version < m + 1 by omega) b.sha256 sha hext.fit hext.covers
    refine hput.bind ?_
    rintro o (⟨rfl, -⟩ | ⟨blob, e, rfl, he⟩)
    · -- over the cap: the base is dropped
      refine ⟨hx.mid.weaken, hx.kept,
        fun b' hb' => hx.todo b' (mem_cons_of_mem _ hb'), ?_, hx.single⟩
      refine hx.ordered.sublist (List.Sublist.map _ ?_)
      exact List.Sublist.append_left (sublist_cons_self b rest) _
    · have hord := hx.ordered
      rw [map_append, pairwise_append, map_cons, pairwise_cons] at hord
      have hnew : Key.delta b.version (m + 1) ∉ w.objects.map Prod.fst := by
        intro hmem
        obtain ⟨x, hxo, hkey⟩ := mem_map.1 hmem
        rcases hx.mid.bound x hxo with hlt | ⟨a, ha, hdone⟩
        · rw [hkey] at hlt
          exact Nat.lt_irrefl _ hlt
        · rw [hkey] at ha
          injection ha with ha _
          rcases hdone with hdone | hdone
          · omega
          · exact hdone b mem_cons_self ha.symm
      refine hx.keep hm (hx.mid.addDelta he hnew
        (fun b' hb' => mem_cons_of_mem _ hb') (.inr ?_))
        fun e' he' => mem_append_left _ he'
      intro b' hb'
      have := hord.2.1.1 b'.version (mem_map_of_mem hb')
      omega

end Deltas

-- ===== at rest

/-- Every single step from `a` up to `n` is listed. -/
def Steps (deltas : List DeltaEntry) (a n : Nat) : Prop :=
  ∀ v, a ≤ v → v < n → ∃ e ∈ deltas, e.fromVersion = v ∧ e.toVersion = v + 1

/-- Between two steps. -/
structure Rest (h : History) (f : Formats) (g : Digests) (w : World) :
    Prop where
  shelf : Shelf h f g w
  bound : ∀ x ∈ w.objects, x.1.version < w.published
  ordered : (w.pub.anchors.map AnchorEntry.version).Pairwise (· < ·)
  below : ∀ a ∈ w.pub.anchors, a.version < w.published
  index : ∀ i, w.index = some i → i.version + 1 = w.published
    ∧ i.sha256 = g.checkpointSha256 (h.ckpt i.version)
    ∧ i.anchors = w.pub.anchors ∧ i.deltas = w.pub.deltas
  steps : ∀ i, w.index = some i → ∃ a, w.pub.anchors.getLast? = some a
    ∧ Steps w.pub.deltas a.version i.version
  prev : ∀ p, w.pub.prev = some p → p.version + 1 = w.published
    ∧ p.state = h.ckpt p.version ∧ w.index.isSome
  bases : ∀ b ∈ w.pub.bases, ∀ p, w.pub.prev = some p → BaseOk h p.version b
  basesOrdered : (w.pub.bases.map Base.version).Pairwise (· < ·)
  noBases : w.pub.prev = none → w.pub.bases = []
  live : w.index = none → w.published = 0

section Phases

variable {h : History} {f : Formats} {g : Digests} {w : World} {w₀ : World}

/-- After the deltas of publication `n`. -/
structure Ready (h : History) (f : Formats) (g : Digests) (n : Nat)
    (w₀ w : World) : Prop where
  mid : Mid h f g n [] w₀ w
  bases : ∀ b ∈ w.pub.bases, BaseOk h n b ∧ b.version < n
  ordered : (w.pub.bases.map Base.version).Pairwise (· < ·)
  single : w₀.pub.prev ≠ none → ∃ e ∈ w.pub.deltas,
    e.fromVersion + 1 = n ∧ e.toVersion = n

theorem putDeltas_spec (hr : Rest h f g w) (sha : String) :
    Ends (Ready h f g w.published w)
      (fun err => err = PublishError.delta .struct)
      (putDeltas f g w (h.ckpt w.published) w.published sha) := by
  have hbound : ∀ rest, Mid h f g w.published rest w w := fun rest =>
    ⟨hr.shelf, Grown.refl w, fun x hx => .inl (hr.bound x hx)⟩
  unfold putDeltas
  cases hp : w.pub.prev with
  | none =>
    have hnil := hr.noBases hp
    refine ⟨hbound [], ?_, ?_, ?_⟩
    · rw [hnil]
      nofun
    · rw [hnil]
      exact List.Pairwise.nil
    · exact fun hne => absurd hp hne
  | some p =>
    obtain ⟨hn, hstate, -⟩ := hr.prev p hp
    obtain ⟨masks, hmasks, hstep⟩ := changedMasks_step h p.version
    rw [← hn]
    dsimp only
    rw [hstate, hmasks]
    show Ends _ _ (putDelta f g w (h.ckpt (p.version + 1)) masks p.version
      p.sha256 (p.version + 1) sha >>= fun put =>
        extendCumulatives f g (put.getD w) _ masks (p.version + 1) sha)
    have hcov : Covers h.cells {q | Hits (h.ckpt 0) masks q} p.version
        (p.version + 1) :=
      (Covers.start h.cells ∅ p.version).step (Set.empty_subset _) hstep.moved
    refine (putDelta_spec w (Nat.lt_succ_self _) p.sha256 sha hstep.fit
      hcov).bind ?_
    rintro o (⟨-, hlt⟩ | ⟨blob, e, rfl, he⟩)
    · omega
    have hnew : Key.delta p.version (p.version + 1)
        ∉ w.objects.map Prod.fst := by
      intro hmem
      obtain ⟨x, hx, hkey⟩ := mem_map.1 hmem
      have := hr.bound x hx
      rw [hkey, ← hn] at this
      exact Nat.lt_irrefl _ this
    have hmid : Mid h f g (p.version + 1) w.pub.bases w
        (w.addDelta blob e) := by
      have hw := hbound w.pub.bases
      rw [← hn] at hw
      exact hw.addDelta he hnew (fun _ hb => hb) (.inl rfl)
    have hstart : Extending h f g p.version w (w.addDelta blob e, [])
        w.pub.bases := by
      refine ⟨hmid, nofun, fun b hb => hr.bases b hb p hp,
        hr.basesOrdered, e, ?_, he.from_, he.to_⟩
      exact mem_concat_self
    have hloop := foldlM_ends (I := Extending h f g p.version w)
      (fun acc b rest => extendBase_spec hstep sha acc b rest) hstart
    refine hloop.bind ?_
    rintro ⟨w', kept⟩ hx
    have hord := hx.ordered
    rw [append_nil] at hord
    refine ⟨⟨{ hx.mid.shelf with }, { hx.mid.grown with }, hx.mid.bound⟩, ?_,
      hord, ?_⟩
    · intro b hb
      obtain ⟨hok, hle⟩ := hx.kept b hb
      exact ⟨hok, Nat.lt_succ_of_le hle⟩
    · intro _
      obtain ⟨e', he', hfrom, hto⟩ := hx.single
      exact ⟨e', he', by omega, hto⟩

-- ===== phase two: anchor

/-- After the anchor or base of publication `n`. -/
structure Based (h : History) (f : Formats) (g : Digests) (n : Nat)
    (w₀ w : World) : Prop where
  shelf : Shelf h f g w
  bound : ∀ x ∈ w.objects, x.1.version ≤ n
  config : w.pub.config = w₀.pub.config
  anchors : w.pub.anchors = w₀.pub.anchors ∧ w₀.pub.prev ≠ none
    ∨ ∃ a, w.pub.anchors = w₀.pub.anchors ++ [a] ∧ a.version = n
  deltas : ∀ e ∈ w₀.pub.deltas, e ∈ w.pub.deltas
  single : w₀.pub.prev ≠ none → ∃ e ∈ w.pub.deltas,
    e.fromVersion + 1 = n ∧ e.toVersion = n
  bases : ∀ b ∈ w.pub.bases, BaseOk h n b
  basesOrdered : (w.pub.bases.map Base.version).Pairwise (· < ·)

theorem fst_shardRows (n : Nat) (shards : List Checkpoint) :
    (shardRows n shards).map Prod.fst
      = (List.range' 1 shards.length).map fun i =>
          Key.shard n i shards.length := by
  unfold shardRows
  rw [map_map, ← zipIdx_map_snd 1 shards, map_map]
  rfl

theorem anchor?_rows {config : PublisherConfig} {state : Checkpoint}
    {k : Key} (hk : k ∈ (anchorRows config state n).map Prod.fst) :
    k.anchor? = some n ∧ k.version = n := by
  unfold anchorRows at hk
  rw [map_append, mem_append, fst_shardRows] at hk
  rcases hk with hk | hk
  · obtain ⟨i, -, rfl⟩ := mem_map.1 hk
    exact ⟨rfl, rfl⟩
  · obtain ⟨x, hx, rfl⟩ := mem_map.1 hk
    obtain ⟨y, -, rfl⟩ := mem_map.1 hx
    exact ⟨rfl, rfl⟩

theorem nodup_anchorRows (config : PublisherConfig) (state : Checkpoint)
    (n : Nat) : ((anchorRows config state n).map Prod.fst).Nodup := by
  unfold anchorRows
  rw [map_append, fst_shardRows, nodup_append]
  refine ⟨?_, ?_, ?_⟩
  · have hrange : (List.range' 1 (anchorShards config.anchorShardBytes
        state).length).Nodup := nodup_range'
    refine hrange.map fun i j hij => ?_
    injection hij
  · unfold modelRows
    rw [map_map]
    have hd := config.distinct
    rw [show (Prod.fst ∘ fun x : String × Bytes =>
      (Key.model n x.1, Object.blob x.2)) = Key.model n ∘ Prod.fst from rfl,
      ← map_map]
    refine hd.map fun a b hab => ?_
    injection hab
  · rintro a ha b hb rfl
    obtain ⟨i, -, rfl⟩ := mem_map.1 ha
    obtain ⟨x, hx, hkey⟩ := mem_map.1 hb
    obtain ⟨y, -, rfl⟩ := mem_map.1 hx
    cases hkey

/-- The shards of an anchor, backed. -/
theorem backed_shardRows {get : Key → Option Object} (n : Nat)
    (shards : List Checkpoint)
    (hget : ∀ x ∈ shardRows n shards, get x.1 = some x.2) :
    Forall₂ (BackedShard g get)
      ((shardRows n shards).map fun x => g.entry x.1 x.2) shards := by
  have hgen : ∀ (total : Nat) (l : List Checkpoint) (i : Nat),
      (∀ x ∈ (l.zipIdx i).map fun x =>
        (Key.shard n x.2 total, Object.shard x.1), get x.1 = some x.2) →
      Forall₂ (BackedShard g get) (((l.zipIdx i).map fun x =>
          (Key.shard n x.2 total, Object.shard x.1)).map
            fun x => g.entry x.1 x.2) l := by
    intro total l
    induction l with
    | nil => exact fun _ _ => Forall₂.nil
    | cons s l ih =>
      intro i hl
      refine Forall₂.cons ?_ (ih (i + 1)
        fun x hx => hl x (mem_cons_of_mem _ hx))
      exact ⟨hl _ mem_cons_self, rfl⟩
  exact hgen _ shards 1 hget

theorem Ready.putAnchor (hw : Ready h f g n w₀ w)
    (sha : String) : Based h f g n w₀
      { putAnchor g w (h.ckpt n) n sha with
        pub := { (putAnchor g w (h.ckpt n) n sha).pub with
          bases := [newBase n sha (h.ckpt n)] } } := by
  have hfresh : Fresh w (anchorRows w.pub.config (h.ckpt n) n) := by
    refine ⟨nodup_anchorRows _ _ _, ?_⟩
    intro x hx hmem
    obtain ⟨hanchor, hversion⟩ := anchor?_rows (mem_map_of_mem hx)
    obtain ⟨y, hy, hkey⟩ := mem_map.1 hmem
    rcases hw.mid.bound y hy with hlt | ⟨a, ha, -⟩
    · rw [hkey] at hlt
      omega
    · rw [hkey] at ha
      rw [ha] at hanchor
      cases hanchor
  have hput := hw.mid.shelf.putAll hfresh
  have hkeys : ∀ k ∈ (anchorEntry g w.pub.config (h.ckpt n) n sha).keys,
      ∃ x ∈ anchorRows w.pub.config (h.ckpt n) n, x.1 = k := by
    intro k hk
    unfold AnchorEntry.keys anchorEntry at hk
    rw [← map_append, map_map] at hk
    exact mem_map.1 hk
  refine
    { shelf := ⟨hput.deltas, ?_, ?_, hput.kept, hput.written⟩
      bound := ?_
      config := hw.mid.grown.config
      anchors := .inr ⟨anchorEntry g w.pub.config (h.ckpt n) n sha, ?_, rfl⟩
      deltas := hw.mid.grown.deltas
      single := hw.single
      bases := ?_
      basesOrdered := pairwise_singleton _ _ }
  · refine forall_snoc hput.anchors ⟨⟨_, backed_shardRows n _ ?_,
      mergeShards_anchorShards _ (h.nodup n)⟩, ?_⟩
    · exact fun x hx => get_putAll_new hfresh (mem_append_left _ hx)
    · intro k hk
      obtain ⟨x, hx, rfl⟩ := hkeys k hk
      refine ⟨?_, (anchor?_rows (mem_map_of_mem hx)).1⟩
      exact Option.isSome_iff_exists.2 ⟨_, get_putAll_new hfresh hx⟩
  · intro d hd k hk
    obtain ⟨hmem, hnot⟩ := hput.doomed d hd k hk
    refine ⟨hmem, fun hlisted => ?_⟩
    rcases mem_listed.1 hlisted with ⟨a, ha, hka⟩ | he
    · rcases mem_snoc.1 ha with ha | rfl
      · exact hnot (mem_listed.2 (.inl ⟨a, ha, hka⟩))
      · obtain ⟨x, hx, rfl⟩ := hkeys k hka
        exact hfresh.new x hx (hw.mid.shelf.doomed d hd _ hk).1
    · exact hnot (mem_listed.2 (.inr he))
  · refine forall_mem_append.2 ⟨hw.mid.le, fun x hx => ?_⟩
    rw [(anchor?_rows (mem_map_of_mem hx)).2]
  · show w.pub.anchors ++ _ = _
    rw [hw.mid.grown.anchors]
  · intro b hb
    rw [mem_singleton.1 hb]
    exact baseOk_newBase h n sha

theorem putBase_spec (hw : Ready h f g n w₀ w)
    (sha : String) : Based h f g n w₀ (putBase g w (h.ckpt n) n sha) := by
  unfold putBase
  split
  · exact hw.putAnchor sha
  next hwants =>
    have hprev : w₀.pub.prev ≠ none := by
      intro hnone
      refine hwants ?_
      unfold wantsAnchor
      rw [hw.mid.grown.prev, hnone]
      rfl
    have hsame : Based h f g n w₀ w :=
      { shelf := hw.mid.shelf
        bound := hw.mid.le
        config := hw.mid.grown.config
        anchors := .inl ⟨hw.mid.grown.anchors, hprev⟩
        deltas := hw.mid.grown.deltas
        single := hw.single
        bases := fun b hb => (hw.bases b hb).1
        basesOrdered := hw.ordered }
    split
    next =>
      -- a new base after the others, of which the last ones stay
      have hsub : ∀ k, (if k = 0 then w.pub.bases ++ [newBase n sha (h.ckpt n)]
          else keepLast k (w.pub.bases ++ [newBase n sha (h.ckpt n)])).Sublist
            (w.pub.bases ++ [newBase n sha (h.ckpt n)]) := by
        intro k
        split
        · exact List.Sublist.refl _
        · exact drop_sublist _ _
      have hall : ∀ b ∈ w.pub.bases ++ [newBase n sha (h.ckpt n)],
          BaseOk h n b :=
        forall_snoc (fun b hb => (hw.bases b hb).1) (baseOk_newBase h n sha)
      have hord : ((w.pub.bases ++ [newBase n sha (h.ckpt n)]).map
          Base.version).Pairwise (· < ·) := by
        rw [map_append]
        exact pairwise_snoc hw.ordered
          (forall_mem_map.2 fun b hb => (hw.bases b hb).2)
      exact { hsame with
        shelf := { hsame.shelf with }
        bases := fun b hb => hall b ((hsub _).subset hb)
        basesOrdered := hord.sublist ((hsub _).map _) }
    next => exact hsame

-- ===== phase three: end

/-- Deletions take doomed keys only. -/
theorem deleteDue_spec (now : ℚ) (fails : Key → Bool)
    (doomed : List (ℚ × List Key)) (store : List (Key × Object)) :
    (∀ d ∈ (deleteDue now fails doomed store).1, d ∈ doomed)
      ∧ (∀ k, (∀ d ∈ doomed, k ∉ d.2) →
          (deleteDue now fails doomed store).2.lookup k = store.lookup k)
      ∧ ∀ k o, (deleteDue now fails doomed store).2.lookup k = some o →
          store.lookup k = some o := by
  induction doomed generalizing store with
  | nil => exact ⟨fun _ hd => hd, fun _ _ => rfl, fun _ _ ho => ho⟩
  | cons d doomed ih =>
    unfold deleteDue
    split
    · obtain ⟨hsub, hkeep, hless⟩ := ih
        (store.filter fun x => !(d.2.contains x.1 && !fails x.1))
      have hread := fun k => lookup_filterKey
        (fun k => !(d.2.contains k && !fails k)) k store
      refine ⟨fun e he => mem_cons_of_mem _ (hsub e he), ?_, ?_⟩
      · intro k hk
        rw [hkeep k fun e he => hk e (mem_cons_of_mem _ he), hread]
        have hout : d.2.contains k = false := by
          simpa using hk d mem_cons_self
        rw [if_pos (by rw [hout]; rfl)]
      · intro k o ho
        have hstore := hless k o ho
        rw [hread] at hstore
        split at hstore
        · exact hstore
        · cases hstore
    · exact ⟨fun _ he => he, fun _ _ => rfl, fun _ _ ho => ho⟩

theorem getLast?_keepLast {α : Type} (hn : 1 ≤ n) (l : List α) :
    (keepLast n l).getLast? = l.getLast? := by
  unfold keepLast
  rw [getLast?_drop]
  split
  next hle =>
    have : l.length = 0 := by omega
    rw [length_eq_zero_iff.1 this]
    rfl
  next => rfl

/-- The anchors after the second phase, in version order. -/
theorem Based.ordered (hr : Rest h f g w₀)
    (hn : w₀.published = n) (hw : Based h f g n w₀ w) :
    (w.pub.anchors.map AnchorEntry.version).Pairwise (· < ·)
      ∧ ∀ a ∈ w.pub.anchors, a.version ≤ n := by
  have hbelow : ∀ a ∈ w₀.pub.anchors, a.version < n :=
    fun a ha => hn ▸ hr.below a ha
  rcases hw.anchors with ⟨hsame, -⟩ | ⟨a, hnew, hav⟩
  · rw [hsame]
    exact ⟨hr.ordered, fun a ha => Nat.le_of_lt (hbelow a ha)⟩
  · rw [hnew]
    refine ⟨?_, forall_snoc (fun a' ha' => (hbelow a' ha').le) hav.le⟩
    rw [map_append]
    exact pairwise_snoc hr.ordered
      (forall_mem_map.2 fun a' ha' => (hbelow a' ha').trans_eq hav.symm)

/-- From the newest anchor every step to `n` is listed. -/
theorem Based.steps (hr : Rest h f g w₀)
    (hn : w₀.published = n) (hw : Based h f g n w₀ w) :
    ∃ a, w.pub.anchors.getLast? = some a ∧ Steps w.pub.deltas a.version n := by
  rcases hw.anchors with ⟨hsame, hprev⟩ | ⟨a, hnew, hav⟩
  · obtain ⟨p, hp⟩ := Option.ne_none_iff_exists'.1 hprev
    obtain ⟨hpv, -, hsome⟩ := hr.prev p hp
    obtain ⟨i, hi⟩ := Option.isSome_iff_exists.1 hsome
    obtain ⟨hiv, -⟩ := hr.index i hi
    obtain ⟨a, ha, hsteps⟩ := hr.steps i hi
    refine ⟨a, hsame ▸ ha, ?_⟩
    intro v hav hvn
    rcases Nat.lt_or_ge v i.version with hlt | hge
    · obtain ⟨e, he, hfrom⟩ := hsteps v hav hlt
      exact ⟨e, hw.deltas e he, hfrom⟩
    · obtain ⟨e, he, hfrom, hto⟩ := hw.single hprev
      exact ⟨e, he, by omega, by omega⟩
  · refine ⟨a, by rw [hnew, getLast?_concat], ?_⟩
    intro v hge hlt
    omega

/-- What pruning keeps, and that the keys it drops are no longer
listed. -/
structure Pruned (p : Publisher) (n : Nat) : Prop where
  anchors : (prune p n).1.anchors.Sublist p.anchors
  deltas : ∀ e ∈ (prune p n).1.deltas, e ∈ p.deltas
  last : (prune p n).1.anchors.getLast? = p.anchors.getLast?
  steps : ∀ a, p.anchors.getLast? = some a → Steps p.deltas a.version n →
    Steps (prune p n).1.deltas a.version n
  listed : ∀ k ∈ (prune p n).2, k ∈ listed p ∧ k ∉ listed (prune p n).1

/-- The oldest anchor is not after the newest. -/
theorem floor_le {anchors : List AnchorEntry} {a : AnchorEntry} :
    (anchors.map AnchorEntry.version).Pairwise (· < ·) →
      anchors.getLast? = some a → (match anchors with
        | [] => 0
        | b :: _ => b.version) ≤ a.version := by
  intro hord ha
  cases anchors with
  | nil => exact Nat.zero_le _
  | cons b rest =>
    rw [map_cons, pairwise_cons] at hord
    rcases mem_cons.1 (mem_of_getLast? ha) with rfl | hmem
    · exact le_rfl
    · exact Nat.le_of_lt (hord.1 a.version (mem_map_of_mem hmem))

theorem Shelf.pruned (hs : Shelf h f g w)
    (hord : (w.pub.anchors.map AnchorEntry.version).Pairwise (· < ·))
    (n : Nat) : Pruned w.pub n := by
  have hsub : (prune w.pub n).1.anchors.Sublist w.pub.anchors :=
    drop_sublist _ _
  have hlast : (prune w.pub n).1.anchors.getLast? = w.pub.anchors.getLast? :=
    getLast?_keepLast w.pub.config.positive.2.2 _
  refine ⟨hsub, fun e he => (mem_filter.1 he).1, hlast, ?_, ?_⟩
  · intro a ha hsteps v hav hvn
    obtain ⟨e, he, hfrom, hto⟩ := hsteps v hav hvn
    refine ⟨e, mem_filter.2 ⟨he, ?_⟩, hfrom, hto⟩
    have hfloor := floor_le (hord.sublist (hsub.map _)) (hlast.trans ha)
    unfold stale
    simp only [Bool.not_eq_true', Bool.or_eq_false_iff,
      Bool.and_eq_false_imp, decide_eq_true_eq, decide_eq_false_iff_not]
    refine ⟨?_, ?_⟩
    · exact Nat.not_lt.2 (hfloor.trans (hfrom ▸ hav))
    · intro hgt
      omega
  · intro k hk
    rcases mem_append.1 hk with hk | hk
    · -- an anchor that is dropped
      obtain ⟨a, ha, hka⟩ := mem_flatMap.1 hk
      have hmem := mem_of_mem_take ha
      refine ⟨mem_listed.2 (.inl ⟨a, hmem, hka⟩), ?_⟩
      obtain ⟨-, hkey⟩ := (hs.anchors a hmem).2 k hka
      intro hlisted
      rcases mem_listed.1 hlisted with ⟨b, hb, hkb⟩ | ⟨e, he, rfl⟩
      · obtain ⟨-, hkey'⟩ := (hs.anchors b (hsub.subset hb)).2 k hkb
        rw [hkey] at hkey'
        injection hkey' with hver
        have hsplit := take_append_drop
          (w.pub.anchors.length - w.pub.config.keepAnchors) w.pub.anchors
        rw [← hsplit, map_append, pairwise_append] at hord
        have := hord.2.2 a.version (mem_map_of_mem ha) b.version
          (mem_map_of_mem hb)
        omega
      · rw [(hs.deltas e (mem_filter.1 he).1).2] at hkey
        cases hkey
    · -- a delta that is dropped
      obtain ⟨e, he, rfl⟩ := mem_map.1 hk
      obtain ⟨hmem, hstale⟩ := mem_filter.1 he
      have hkey := (hs.deltas e hmem).2
      refine ⟨mem_listed.2 (.inr ⟨e, hmem, rfl⟩), ?_⟩
      intro hlisted
      rcases mem_listed.1 hlisted with ⟨b, hb, hkb⟩ | ⟨e', he', hsame⟩
      · obtain ⟨-, hkey'⟩ := (hs.anchors b (hsub.subset hb)).2 _ hkb
        rw [hkey] at hkey'
        cases hkey'
      · obtain ⟨hmem', hfresh⟩ := mem_filter.1 he'
        rw [(hs.deltas e' hmem').2, hkey] at hsame
        injection hsame with hfrom hto
        unfold stale at hstale hfresh
        rw [hfrom, hto, hstale] at hfresh
        cases hfresh

/-- The end of a publication leaves the world at rest. -/
theorem finish_spec (hr : Rest h f g w₀) (hn : w₀.published = n)
    (hw : Based h f g n w₀ w) (doomAt deleteAt : ℚ) (fails : Key → Bool) :
    Rest h f g (finish w (h.ckpt n) n (g.checkpointSha256 (h.ckpt n))
      doomAt deleteAt fails) := by
  obtain ⟨hord, hle⟩ := Based.ordered hr hn hw
  obtain ⟨a, ha, hsteps⟩ := Based.steps hr hn hw
  have hp := hw.shelf.pruned hord n
  -- the doomed keys, old and new, and what deletion leaves
  have hever : ∀ k ∈ listed w.pub, (w.get k).isSome := by
    intro k hk
    rcases mem_listed.1 hk with ⟨b, hb, hkb⟩ | ⟨e, he, rfl⟩
    · exact ((hw.shelf.anchors b hb).2 k hkb).1
    · obtain ⟨data, d, hget, -⟩ := (hw.shelf.deltas e he).1
      rw [hget]
      rfl
  have hlisted : ∀ k ∈ listed (prune w.pub n).1, k ∈ listed w.pub := by
    intro k hk
    rcases mem_listed.1 hk with ⟨b, hb, hkb⟩ | ⟨e, he, hke⟩
    · exact mem_listed.2 (.inl ⟨b, hp.anchors.subset hb, hkb⟩)
    · exact mem_listed.2 (.inr ⟨e, hp.deltas e he, hke⟩)
  let doomed := if (prune w.pub n).2 = [] then (prune w.pub n).1.doomed
    else (prune w.pub n).1.doomed
      ++ [(doomAt + (prune w.pub n).1.config.pruneGraceS, (prune w.pub n).2)]
  have hdoomed : ∀ d ∈ doomed, ∀ k ∈ d.2,
      k ∈ w.objects.map Prod.fst ∧ k ∉ listed (prune w.pub n).1 := by
    have hold : ∀ d ∈ w.pub.doomed, ∀ k ∈ d.2,
        k ∈ w.objects.map Prod.fst ∧ k ∉ listed (prune w.pub n).1 := by
      intro d hd k hk
      obtain ⟨hmem, hnot⟩ := hw.shelf.doomed d hd k hk
      exact ⟨hmem, fun hl => hnot (hlisted k hl)⟩
    intro d hd k hk
    show _ ∧ _
    by_cases hnil : (prune w.pub n).2 = []
    · simp only [doomed, if_pos hnil] at hd
      exact hold d hd k hk
    · simp only [doomed, if_neg hnil] at hd
      rcases mem_append.1 hd with hd | hd
      · exact hold d hd k hk
      · rw [mem_singleton.1 hd] at hk
        obtain ⟨hmem, hnot⟩ := hp.listed k hk
        obtain ⟨o, ho⟩ := Option.isSome_iff_exists.1 (hever k hmem)
        have := mem_of_lookup (hw.shelf.kept k o ho)
        exact ⟨mem_map_of_mem this, hnot⟩
  obtain ⟨hdsub, hdkeep, hdless⟩ :=
    deleteDue_spec deleteAt fails doomed w.store
  have hget : ∀ k ∈ listed (prune w.pub n).1,
      (deleteDue deleteAt fails doomed w.store).2.lookup k = w.get k := by
    intro k hk
    exact hdkeep k fun d hd hmem => (hdoomed d hd k hmem).2 hk
  have hdeltaKey : ∀ e ∈ (prune w.pub n).1.deltas,
      e.key ∈ listed (prune w.pub n).1 :=
    fun e he => mem_listed.2 (.inr ⟨e, he, rfl⟩)
  have hanchorKey : ∀ b ∈ (prune w.pub n).1.anchors, ∀ k ∈ b.keys,
      k ∈ listed (prune w.pub n).1 :=
    fun b hb k hk => mem_listed.2 (.inl ⟨b, hb, hk⟩)
  exact
    { shelf :=
        { deltas := by
            intro e he
            obtain ⟨hback, hkey⟩ := hw.shelf.deltas e (hp.deltas e he)
            exact ⟨hback.congr (hget e.key (hdeltaKey e he)), hkey⟩
          anchors := by
            intro b hb
            obtain ⟨hback, hkeys⟩ :=
              hw.shelf.anchors b (hp.anchors.subset hb)
            refine ⟨hback.congr fun k hk => hget k (hanchorKey b hb k hk), ?_⟩
            intro k hk
            refine ⟨?_, (hkeys k hk).2⟩
            exact (congrArg Option.isSome
              (hget k (hanchorKey b hb k hk))).trans (hkeys k hk).1
          doomed := fun d hd => hdoomed d (hdsub d hd)
          kept := fun k o ho => hw.shelf.kept k o (hdless k o ho)
          written := by
            refine forall_snoc hw.shelf.written ⟨rfl, ?_, ?_⟩
            · exact fun b hb => (hw.shelf.anchors b
                (hp.anchors.subset hb)).1.mono hw.shelf.kept
            · exact fun e he => (hw.shelf.deltas e
                (hp.deltas e he)).1.mono hw.shelf.kept }
      bound := fun x hx => Nat.lt_succ_of_le (hw.bound x hx)
      ordered := hord.sublist (hp.anchors.map _)
      below := fun b hb =>
        Nat.lt_succ_of_le (hle b (hp.anchors.subset hb))
      index := by
        rintro i ⟨⟩
        exact ⟨rfl, rfl, rfl, rfl⟩
      steps := by
        rintro i ⟨⟩
        exact ⟨a, hp.last.trans ha, hp.steps a ha hsteps⟩
      prev := by
        rintro p ⟨⟩
        exact ⟨rfl, rfl, rfl⟩
      bases := by
        rintro b hb p ⟨⟩
        exact hw.bases b hb
      basesOrdered := hw.basesOrdered
      noBases := nofun
      live := nofun }

end Phases

-- ===== the run

section Run

variable {h : History} {f : Formats} {g : Digests} {w : World} {index : Index}

theorem rest_empty (h : History) (f : Formats) (g : Digests)
    (config : PublisherConfig) : Rest h f g (emptyWorld config) where
  shelf := ⟨nofun, nofun, nofun, nofun, nofun⟩
  bound := nofun
  ordered := List.Pairwise.nil
  below := nofun
  index := nofun
  steps := nofun
  prev := nofun
  bases := nofun
  basesOrdered := List.Pairwise.nil
  noBases := fun _ => rfl
  live := fun _ => rfl

/-- A restart lists what the stored index lists and forgets the
rest. -/
theorem Rest.restart (hr : Rest h f g w) (config : PublisherConfig) :
    Rest h f g (restart w config) := by
  obtain ⟨A, D, heq, hA, hD, hall⟩ : ∃ A D, Ckpt.restart w config
      = { w with pub := { config, anchors := A, deltas := D } }
      ∧ A.Sublist w.pub.anchors ∧ D ⊆ w.pub.deltas
      ∧ ∀ i, w.index = some i → A = w.pub.anchors ∧ D = w.pub.deltas := by
    cases hi : w.index with
    | none =>
      exact ⟨[], [], by simp [Ckpt.restart, hi], nil_sublist _,
        nil_subset _, nofun⟩
    | some i =>
      obtain ⟨-, -, ha, hd⟩ := hr.index i hi
      exact ⟨_, _, by simp [Ckpt.restart, hi, ha, hd], .refl _,
        Subset.refl _, fun _ _ => ⟨rfl, rfl⟩⟩
  rw [heq]
  exact
    { shelf := ⟨fun e he => hr.shelf.deltas e (hD he),
        fun a ha => hr.shelf.anchors a (hA.subset ha), nofun,
        hr.shelf.kept, hr.shelf.written⟩
      bound := hr.bound
      ordered := hr.ordered.sublist (hA.map _)
      below := fun a ha => hr.below a (hA.subset ha)
      index := by
        intro i hi
        obtain ⟨rfl, rfl⟩ := hall i hi
        exact hr.index i hi
      steps := by
        intro i hi
        obtain ⟨rfl, rfl⟩ := hall i hi
        exact hr.steps i hi
      prev := nofun
      bases := nofun
      basesOrdered := List.Pairwise.nil
      noBases := fun _ => rfl
      live := hr.live }

theorem publisherStep_rest (hr : Rest h f g w) (op : PublisherOp) :
    Ends (Rest h f g) (fun err => err = PublishError.delta .struct)
      (publisherStep f g h w op) := by
  cases op with
  | restart config => exact hr.restart config
  | publish doomAt deleteAt fails =>
    have hfollows : (w.pub.prev.filter fun p =>
        w.published ≤ p.version) = none := by
      cases hp : w.pub.prev with
      | none => rfl
      | some p =>
        obtain ⟨hv, -⟩ := hr.prev p hp
        have : ¬w.published ≤ p.version := by omega
        simp [Option.filter, this]
    unfold publisherStep publish
    rw [hfollows]
    refine (putDeltas_spec hr _).bind ?_
    intro w' hw'
    exact finish_spec hr rfl (putBase_spec hw' _) doomAt deleteAt fails

theorem rest_run (h : History) (f : Formats) (g : Digests)
    (config : PublisherConfig) (ops : List PublisherOp) :
    Ends (Rest h f g) (fun err => err = PublishError.delta .struct)
      (ops.foldlM (publisherStep f g h) (emptyWorld config)) :=
  foldlM_each (fun _ op _ hr => publisherStep_rest hr op)
    (rest_empty h f g config)

/-- An index serves: its objects are there, and every plan to its
latest version rebuilds it. -/
structure Serves (h : History) (f : Formats) (g : Digests) (w : World)
    (index : Index) : Prop where
  latest : index.version + 1 = w.published
  stored : ∀ k ∈ indexKeys index, (w.get k).isSome
  fromNothing : ∃ plan, planDownload index none = some plan
    ∧ execute f g w.get plan none = .ok (h.ckpt index.version)
  fromEarlier : ∀ v, v < index.version →
    ∃ plan, planDownload index (some v) = some plan
      ∧ execute f g w.get plan (some (h.ckpt v)) = .ok (h.ckpt index.version)

/-- Listed single steps chain. -/
theorem Steps.chain {deltas : List DeltaEntry} (han : a ≤ n)
    (hs : Steps deltas a n) : ∃ ds, Chain a ds n ∧ ∀ d ∈ ds, d ∈ deltas := by
  induction n with
  | zero =>
    have : a = 0 := by omega
    exact ⟨[], this ▸ Chain.nil a, nofun⟩
  | succ n ih =>
    rcases Nat.lt_or_eq_of_le han with hlt | rfl
    · obtain ⟨ds, hc, hds⟩ := ih (by omega) fun v hav hvn => hs v hav (by omega)
      obtain ⟨e, he, hfrom, hto⟩ := hs n (by omega) (by omega)
      have hsnoc := hc.snoc (d := e) (by omega) (by omega)
      rw [hto] at hsnoc
      refine ⟨ds ++ [e], hsnoc, ?_⟩
      exact forall_snoc hds he
    · exact ⟨[], Chain.nil _, nofun⟩

/-- The index of a world at rest is backed by its store. -/
theorem Rest.backed (hr : Rest h f g w)
    (hi : w.index = some index) : Backed h f g w.get index := by
  obtain ⟨-, hsha, ha, hd⟩ := hr.index index hi
  refine ⟨hsha, ?_, ?_⟩
  · intro a hmem
    exact (hr.shelf.anchors a (ha ▸ hmem)).1
  · intro e hmem
    exact (hr.shelf.deltas e (hd ▸ hmem)).1

theorem Rest.plan (hr : Rest h f g w)
    (hi : w.index = some index) (current : Option Nat) :
    ∃ plan, planDownload index current = some plan := by
  obtain ⟨hv, -, ha, hd⟩ := hr.index index hi
  obtain ⟨a, hlast, hsteps⟩ := hr.steps index hi
  have hmem := mem_of_getLast? hlast
  have hle : a.version ≤ index.version := by
    have := hr.below a hmem
    omega
  obtain ⟨ds, hc, hds⟩ := hsteps.chain hle
  exact planDownload_ok (.inr ⟨a, ha ▸ hmem, rfl, hle⟩) hc
    fun d hd' => hd ▸ hds d hd'

theorem Rest.serves (hr : Rest h f g w)
    (hi : w.index = some index) : Serves h f g w index where
  latest := (hr.index index hi).1
  stored := by
    intro k hk
    obtain ⟨-, -, ha, hd⟩ := hr.index index hi
    rcases mem_indexKeys.1 hk with ⟨a, hmem, hka⟩ | ⟨e, hmem, rfl⟩
    · exact ((hr.shelf.anchors a (ha ▸ hmem)).2 k hka).1
    · obtain ⟨data, d, hget, -⟩ := (hr.shelf.deltas e (hd ▸ hmem)).1
      rw [hget]
      rfl
  fromNothing := by
    obtain ⟨plan, hplan⟩ := hr.plan hi none
    obtain ⟨-, hsha, u, hroute⟩ := planDownload_route hplan nofun
    refine ⟨plan, hplan, execute_exact (hr.backed hi) hsha hroute ?_⟩
    intro hnone
    have := hroute.start
    rw [hnone] at this
    cases this
  fromEarlier := by
    intro v hv
    obtain ⟨plan, hplan⟩ := hr.plan hi (some v)
    obtain ⟨-, hsha, u, hroute⟩ := planDownload_route hplan
      fun v' hv' => by injection hv' with hv'; omega
    refine ⟨plan, hplan, execute_exact (hr.backed hi) hsha hroute ?_⟩
    intro hnone
    have hu := hroute.start
    rw [hnone] at hu
    injection hu with hu
    exact ⟨h.ckpt v, rfl, hu ▸ Window.start h hv.le⟩

/-- **Published checkpoints are reachable bit-exactly.** In every run
of publications and restarts, after every step: once a version is
published there is an index, and the index serves. -/
theorem published_reachable (h : History) (f : Formats) (g : Digests)
    (config : PublisherConfig) (ops : List PublisherOp) :
    Ends (fun w => (w.index = none → w.published = 0)
        ∧ ∀ index, w.index = some index → Serves h f g w index)
      (fun err => err = PublishError.delta .struct)
      (ops.foldlM (publisherStep f g h) (emptyWorld config)) :=
  (rest_run h f g config ops).mono fun _ hr =>
    ⟨hr.live, fun _ hi => hr.serves hi⟩

end Run

end Reliquary.Ckpt
