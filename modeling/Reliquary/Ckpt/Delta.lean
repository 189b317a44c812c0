/-
Sparse checkpoint deltas: the shallow model of
`shared/ckpt_delta.py` up to its wire format, and what a delta carries.

# The model

- A checkpoint is a dictionary of tensors that the source only walks
  in name order, so it is a list of named tensors in that order. A
  tensor's `cells` are what the source compares and copies: the 16-bit
  patterns of a bf16 tensor, one per element, and the raw bytes of any
  other. Two tensors of one dtype and shape have equally many cells.
- `changedMasks`, `deltaFromMasks` and `applyDelta` follow the source
  check by check. A delta's patches come down to a list of cell writes
  (`CheckpointDelta.writes`); `index_put_` and `copy_` perform them in
  an order the source does not fix.
- Left out: devices, contiguity (a loaded tensor is contiguous) and
  the thread pool, whose results come back in name order.

# What is proven

`Carries h d f t`: along the history `h`, every write of `d` holds a
cell of version `t`, and a cell that `d` does not write stood still
from `f` to `t`. A delta built from masks that hit every cell that
moved carries `f` to `t` (`deltaFromMasks_carries`), and applying it
moves a mixed state's window up to `t` (`Carries.apply`) — from any
version in between, and also over the remains of another delta.
-/
import Reliquary.Store.Overwrite
import Reliquary.Store.Run
import Reliquary.Store.Table

namespace Reliquary.Ckpt

open Store List

-- ===== checkpoints

/-- A tensor: bf16 bit patterns, or the raw bytes of another dtype. -/
structure Tensor where
  dtype : String
  shape : List Nat
  cells : List Nat
deriving DecidableEq, Repr, Inhabited

/-- A state dictionary, in name order. -/
abbrev Checkpoint := List (String × Tensor)

def numel (shape : List Nat) : Nat := shape.prod

def Tensor.bf16 (t : Tensor) : Bool := t.dtype == "bfloat16"

/-- What a run of one model keeps of a tensor. -/
def Tensor.kind (t : Tensor) : String × List Nat × Nat :=
  (t.dtype, t.shape, t.cells.length)

/-- One cell an element and 16 bits a cell, or bytes. -/
def Tensor.Wf (t : Tensor) : Prop :=
  if t.bf16 then t.cells.length = numel t.shape ∧ ∀ x ∈ t.cells, x < 2 ^ 16
  else ∀ x ∈ t.cells, x < 2 ^ 8

instance (t : Tensor) : Decidable t.Wf := by
  unfold Tensor.Wf
  infer_instance

variable (s : Checkpoint)

def names : List String := s.map Prod.fst

/-- The structure of a checkpoint: its names, dtypes and shapes. -/
def layout : List (String × String × List Nat × Nat) :=
  s.map fun x => (x.1, x.2.kind)

/-- The cell at a flat position of a named tensor. -/
def cellAt (p : String × Nat) : Option Nat :=
  (s.lookup p.1).bind fun t => t.cells[p.2]?

theorem names_layout : (layout s).map Prod.fst = names s := by
  simp [layout, names]

theorem lookup_layout (n : String) : (layout s).lookup n = (s.lookup n).map
    Tensor.kind :=
  lookup_mapValues (fun _ => Tensor.kind) n s

variable {a b : Checkpoint} {t : Tensor} {n : String}

/-- One layout: a tensor of one checkpoint has its kin in the other. -/
theorem kin_of_layout (h : layout a = layout b) (ht : b.lookup n = some t) :
    ∃ u, a.lookup n = some u ∧ u.kind = t.kind := by
  have hn := lookup_layout a n
  rw [h, lookup_layout b n, ht] at hn
  cases hu : a.lookup n with
  | none =>
    rw [hu] at hn
    cases hn
  | some u =>
    rw [hu] at hn
    injection hn with hn
    exact ⟨u, rfl, hn.symm⟩

theorem bf16_of_kind {a b : Tensor} (h : a.kind = b.kind) :
    a.bf16 = b.bf16 := by
  have hd : a.dtype = b.dtype := congrArg (fun k => k.1) h
  unfold Tensor.bf16
  rw [hd]

theorem length_of_kind {a b : Tensor} (h : a.kind = b.kind) :
    a.cells.length = b.cells.length :=
  congrArg (fun k => k.2.2) h

/-- Two checkpoints of one layout with the same cells are one. -/
theorem checkpoint_ext (hl : layout a = layout b)
    (hnd : (names a).Nodup) (hc : cellAt a = cellAt b) : a = b := by
  induction a generalizing b with
  | nil =>
    cases b with
    | nil => rfl
    | cons y b => cases hl
  | cons x a ih =>
    obtain ⟨n, t⟩ := x
    cases b with
    | nil => cases hl
    | cons y b =>
      obtain ⟨m, u⟩ := y
      injection hl with hhead hl
      injection hhead with hnm hkind
      subst hnm
      have hnd' := nodup_cons.1 hnd
      have hcells : t.cells = u.cells := by
        apply ext_getElem?
        intro j
        have hj := congrFun hc (n, j)
        simp only [cellAt, Store.lookup_cons, if_true, Option.bind_some] at hj
        exact hj
      have htu : t = u := by
        injection hkind with hd hrest
        injection hrest with hs _
        cases t
        cases u
        simp_all
      have hnone : ∀ s : Checkpoint, layout s = layout a →
          s.lookup n = none := by
        intro s hs
        apply lookup_none
        show n ∉ names s
        rw [← names_layout, hs, names_layout]
        exact hnd'.1
      have htail : cellAt a = cellAt b := by
        funext p
        by_cases hp : p.1 = n
        · unfold cellAt
          rw [hp, hnone a rfl, hnone b hl.symm]
        · have hp' := congrFun hc p
          simp only [cellAt, Store.lookup_cons, if_neg hp] at hp'
          exact hp'
      rw [htu, ih hl hnd'.2 htail]

-- ===== deltas

/-- What a patch writes: positions with their new bits, or the whole
tensor's bytes. -/
inductive PatchBody
  | sparse (indices values : List Nat)
  | whole (values : List Nat)
deriving DecidableEq, Repr

structure TensorPatch where
  name : String
  dtype : String
  shape : List Nat
  body : PatchBody
deriving DecidableEq, Repr

structure CheckpointDelta where
  fromVersion : Int
  toVersion : Int
  baseSha256 : String
  targetSha256 : String
  patches : List TensorPatch
deriving DecidableEq, Repr

/-- `DeltaError`, by the message it is raised with; the last three are
a lookup's, `struct`'s and the decompressor's own errors. -/
inductive DeltaError
  /-- tensor set changed (added …, removed …): needs an anchor -/
  | tensorSet (added removed : List String)
  /-- name: dtype or shape changed: needs an anchor -/
  | reshaped (name : String)
  /-- a delta must move forward -/
  | backward
  /-- name: mask does not fit the tensor -/
  | maskSize (name : String)
  /-- name: not in the checkpoint with dtype … shape … -/
  | misfit (name dtype : String) (shape : List Nat)
  /-- key: target hash differs from the index -/
  | targetHash
  /-- chunk_elements must be in (0, 2**32] -/
  | chunkElements
  /-- not a checkpoint delta -/
  | notDelta
  /-- corrupt delta header -/
  | header
  /-- unsupported delta format -/
  | unsupported
  /-- delta section out of bounds -/
  | sectionBounds
  /-- delta section has the wrong size -/
  | sectionSize
  /-- corrupt index section -/
  | indexSection
  /-- unknown index encoding -/
  | encoding (name : String)
  /-- corrupt chunk table -/
  | chunkTable
  /-- unknown tensor entry kind -/
  | entryKind
  /-- deltas are not consecutive -/
  | notConsecutive
  /-- name: dtype or shape differs between deltas -/
  | kindsDiffer (name : String)
  | key (name : String)
  | struct
  | zstd
deriving DecidableEq, Repr

abbrev Masks := List (String × List Bool)

/-- A tensor's kin in `new` has its dtype and shape. -/
def checkKin (new : Checkpoint) (x : String × Tensor) :
    Except DeltaError Unit :=
  match new.lookup x.1 with
  | none => .error (.key x.1)
  | some b =>
    if x.2.dtype ≠ b.dtype ∨ x.2.shape ≠ b.shape then
      .error (.reshaped x.1)
    else
      .ok ()

/-- `_check_same_structure`. -/
def checkSameStructure (old new : Checkpoint) : Except DeltaError Unit :=
  let added := (names new).filter fun n => n ∉ names old
  let removed := (names old).filter fun n => n ∉ names new
  if added ≠ [] ∨ removed ≠ [] then
    .error (.tensorSet (added.take 3) (removed.take 3))
  else
    old.forM (checkKin new)

/-- Which cells of one tensor changed: a mask over a bf16 tensor, one
flag for another. -/
def changedMask (a b : Tensor) : List Bool :=
  if b.bf16 then List.zipWith (fun x y => x != y) a.cells b.cells
  else [a.cells != b.cells]

/-- `changed_masks`. -/
def changedMasks (old new : Checkpoint) : Except DeltaError Masks := do
  checkSameStructure old new
  new.mapM fun x =>
    match old.lookup x.1 with
    | none => .error (.key x.1)
    | some a => .ok (x.1, changedMask a x.2)

/-- `torch.nonzero` of a flat mask. -/
def nonzero (mask : List Bool) : List Nat :=
  (List.range mask.length).filter fun j => mask.getD j false

/-- The patch of one masked tensor, none when nothing is masked. -/
def patchOf (new : Checkpoint) (m : String × List Bool) :
    Except DeltaError (Option TensorPatch) :=
  match new.lookup m.1 with
  | none => .error (.key m.1)
  | some t =>
    if t.bf16 then
      if m.2.length ≠ t.cells.length then
        .error (.maskSize m.1)
      else if nonzero m.2 = [] then
        .ok none
      else
        .ok (some
          { name := m.1
            dtype := "bfloat16"
            shape := t.shape
            body := .sparse (nonzero m.2)
              ((nonzero m.2).map fun j => t.cells.getD j 0) })
    else if m.2.any id then
      .ok (some
        { name := m.1, dtype := t.dtype, shape := t.shape
          body := .whole t.cells })
    else
      .ok none

/-- `delta_from_masks`. -/
def deltaFromMasks (new : Checkpoint) (masks : Masks)
    (fromVersion toVersion : Int) (baseSha256 targetSha256 : String) :
    Except DeltaError CheckpointDelta :=
  if ¬toVersion > fromVersion then
    .error .backward
  else do
    let patches ← masks.mapM (patchOf new)
    return { fromVersion, toVersion, baseSha256, targetSha256,
             patches := patches.filterMap id }

/-- One cell written. -/
structure Write where
  name : String
  pos : Nat
  bits : Nat
deriving DecidableEq, Repr

open Write

def Write.place (w : Write) : String × Nat := (w.name, w.pos)

/-- Bytes seen as little-endian 16-bit words. -/
def words : List Nat → List Nat
  | lo :: hi :: raw => (lo + 256 * hi) :: words raw
  | _ => []

/-- The cells of a tensor whose raw bytes these are. -/
def wholeCells (dtype : String) (raw : List Nat) : List Nat :=
  if dtype = "bfloat16" then words raw else raw

def TensorPatch.writes (p : TensorPatch) : List Write :=
  match p.body with
  | .sparse indices values =>
    List.zipWith (fun i v => ⟨p.name, i, v⟩) indices values
  | .whole values =>
    (wholeCells p.dtype values).zipIdx.map fun b => ⟨p.name, b.2, b.1⟩

def CheckpointDelta.writes (d : CheckpointDelta) : List Write :=
  d.patches.flatMap TensorPatch.writes

def Tensor.setCell (t : Tensor) (pos bits : Nat) : Tensor :=
  { t with cells := t.cells.set pos bits }

/-- `state[name].reshape(-1)[pos] = bits`, in place. -/
def writeCell (w : Write) : Checkpoint :=
  s.map fun x =>
    if x.1 = w.name then (x.1, x.2.setCell w.pos w.bits) else x

/-- The tensor a patch names is there, with its dtype and shape. -/
def fits (s : Checkpoint) (p : TensorPatch) : Bool :=
  match s.lookup p.name with
  | none => false
  | some t => t.dtype == p.dtype && t.shape == p.shape

/-- `apply_delta` without its hash check: every patch is checked before
the first write. -/
def applyDelta (d : CheckpointDelta) : Except DeltaError Checkpoint :=
  match d.patches.find? fun p => !fits s p with
  | some p => .error (.misfit p.name p.dtype p.shape)
  | none => .ok (d.writes.foldl writeCell s)

/-- Sparse positions strictly increase inside the tensor, with one
16-bit value each; whole patches hold bytes. -/
def TensorPatch.Sound (p : TensorPatch) : Prop :=
  match p.body with
  | .sparse indices values =>
    indices.Pairwise (· < ·) ∧ (∀ i ∈ indices, i < numel p.shape)
      ∧ values.length = indices.length ∧ ∀ v ∈ values, v < 2 ^ 16
  | .whole values => ∀ v ∈ values, v < 2 ^ 8

/-- Only a bf16 tensor is patched sparsely. -/
def TensorPatch.SparseBf16 (p : TensorPatch) : Prop :=
  match p.body with
  | .sparse _ _ => p.dtype = "bfloat16"
  | .whole _ => True

/-- A delta as `delta_from_masks` builds it. -/
def CheckpointDelta.Wf (d : CheckpointDelta) : Prop :=
  ∀ p ∈ d.patches, p.Sound ∧ p.SparseBf16

-- ===== writes

/-- A read of a table some of whose values are mapped. -/
theorem lookup_mapAt (s : Checkpoint) (n k : String) (g : Tensor → Tensor) :
    (s.map fun x => if x.1 = n then (x.1, g x.2) else x).lookup k
      = (s.lookup k).map fun t => if k = n then g t else t := by
  rw [← lookup_mapValues (fun k t => if k = n then g t else t)]
  congr 1
  refine map_congr_left fun x _ => ?_
  split
  · rfl
  · rfl

theorem layout_writeCell (w : Write) : layout (writeCell s w) = layout s := by
  unfold layout writeCell
  rw [map_map]
  refine map_congr_left fun x _ => ?_
  show (fun y : String × Tensor => (y.1, y.2.kind))
    (if x.1 = w.name then _ else x) = _
  split
  · simp [Tensor.kind, Tensor.setCell]
  · rfl

/-- A cell after a write of a cell that is there. -/
theorem cellAt_writeCell (s : Checkpoint) (w : Write) (p : String × Nat)
    (h : (cellAt s w.place).isSome) : cellAt (writeCell s w) p
      = if p = w.place then some w.bits else cellAt s p := by
  obtain ⟨n, j⟩ := p
  unfold cellAt writeCell at *
  rw [lookup_mapAt s w.name n fun t => t.setCell w.pos w.bits]
  by_cases hn : n = w.name
  · subst hn
    cases hl : s.lookup w.name with
    | none => simp [place, hl] at h
    | some t =>
      have hlt : w.pos < t.cells.length := by
        simpa [place, hl] using h
      by_cases hj : j = w.pos
      · subst hj
        simp [place, Tensor.setCell, hlt]
      · have hne : (w.name, j) ≠ w.place := by
          intro heq
          exact hj (congrArg Prod.snd heq)
        rw [if_neg hne]
        simp [Tensor.setCell, getElem?_set_ne (Ne.symm hj)]
  · have hne : (n, j) ≠ w.place := by
      intro heq
      exact hn (congrArg Prod.fst heq)
    rw [if_neg hne]
    simp [hn]

theorem layout_writes (ws : List Write) (s : Checkpoint) :
    layout (ws.foldl writeCell s) = layout s := by
  induction ws generalizing s with
  | nil => rfl
  | cons w ws ih => rw [foldl_cons, ih, layout_writeCell]

/-- Cells after writes that all hold values of `x`. -/
theorem cellAt_writes {x : String × Nat → Option Nat} (ws : List Write)
    (s : Checkpoint) (hx : ∀ w ∈ ws, x w.place = some w.bits)
    (hs : ∀ w ∈ ws, (cellAt s w.place).isSome) (p : String × Nat) :
    cellAt (ws.foldl writeCell s) p
      = if p ∈ ws.map place then x p else cellAt s p := by
  induction ws generalizing s with
  | nil => simp
  | cons w ws ih =>
    have hw := cellAt_writeCell s w (h := hs w mem_cons_self)
    have hs' : ∀ y ∈ ws, (cellAt (writeCell s w) y.place).isSome := by
      intro y hy
      rw [hw]
      split
      · rfl
      · exact hs y (mem_cons_of_mem _ hy)
    rw [foldl_cons,
      ih (writeCell s w) (fun y hy => hx y (mem_cons_of_mem _ hy)) hs',
      map_cons]
    by_cases hp : p ∈ ws.map place
    · rw [if_pos hp, if_pos (mem_cons_of_mem _ hp)]
    · rw [if_neg hp, hw]
      by_cases hpw : p = w.place
      · rw [if_pos hpw, if_pos (hpw ▸ mem_cons_self), hpw, hx w mem_cons_self]
      · have hnot : ¬p ∈ w.place :: ws.map place := by
          intro hmem
          rcases mem_cons.1 hmem with heq | hmem
          · exact hpw heq
          · exact hp hmem
        rw [if_neg hpw, if_neg hnot]

-- ===== history

/-- A linear run of one model: checkpoint after checkpoint, all of one
structure. -/
structure History where
  ckpt : Nat → Checkpoint
  same : ∀ v, layout (ckpt v) = layout (ckpt 0)
  sorted : (names (ckpt 0)).Pairwise (· < ·)
  wf : ∀ v, ∀ x ∈ ckpt v, x.2.Wf

def History.cells (h : History) (v : Nat) : String × Nat → Option Nat :=
  cellAt (h.ckpt v)

theorem History.layout_eq (h : History) (v w : Nat) :
    layout (h.ckpt v) = layout (h.ckpt w) :=
  (h.same v).trans (h.same w).symm

theorem History.nodup (h : History) (v : Nat) : (names (h.ckpt v)).Nodup := by
  have hn : names (h.ckpt v) = names (h.ckpt 0) := by
    rw [← names_layout, h.same v, names_layout]
  rw [hn]
  exact h.sorted.imp fun hlt => ne_of_lt hlt

/-- A cell is there in every version or in none. -/
theorem isSome_of_layout (h : layout a = layout b)
    {p : String × Nat} (hp : (cellAt b p).isSome) : (cellAt a p).isSome := by
  unfold cellAt at *
  cases ht : b.lookup p.1 with
  | none => simp [ht] at hp
  | some t =>
    obtain ⟨u, hu, hk⟩ := kin_of_layout h ht
    rw [ht] at hp
    rw [hu]
    simpa [length_of_kind hk] using hp

/-- Every write of `d` holds a cell of version `t`, and the cells it
does not write stood still from `f` to `t`. -/
structure Carries (h : History) (d : CheckpointDelta) (f t : Nat) : Prop where
  cells : ∀ w ∈ d.writes, h.cells t w.place = some w.bits
  covers : Covers h.cells {p | p ∈ d.writes.map place} f t
  fit : ∀ p ∈ d.patches, fits (h.ckpt t) p = true

theorem fits_of_layout (h : layout a = layout b)
    {p : TensorPatch} (hp : fits b p = true) : fits a p = true := by
  unfold fits at *
  cases ht : b.lookup p.name with
  | none => simp [ht] at hp
  | some t =>
    obtain ⟨u, hu, hk⟩ := kin_of_layout h ht
    have hd : u.dtype = t.dtype := congrArg (fun k => k.1) hk
    have hs : u.shape = t.shape := congrArg (fun k => k.2.1) hk
    simpa [ht, hu, hd, hs] using hp

section Apply

variable {h : History} {d : CheckpointDelta} {f t v l : Nat}
  {s : Checkpoint} {ws : List Write}

/-- The cells after some of a delta's writes, in any order. -/
theorem Carries.cellAt_some (hd : Carries h d f t)
    (hs : layout s = layout (h.ckpt t)) (hws : ∀ w ∈ ws, w ∈ d.writes)
    (p : String × Nat) : cellAt (ws.foldl writeCell s) p
      = if p ∈ ws.map place then h.cells t p else cellAt s p := by
  refine cellAt_writes ws s (fun w hw => hd.cells w (hws w hw)) ?_ p
  intro w hw
  refine isSome_of_layout hs ?_
  have hcell := hd.cells w (hws w hw)
  unfold History.cells at hcell
  rw [hcell]
  rfl

/-- A state of the run's structure, its cells mixed from `v` up to `l`. -/
structure Window (h : History) (v l : Nat) (s : Checkpoint) : Prop where
  layout : layout s = layout (h.ckpt 0)
  mixed : Mixed h.cells v l (cellAt s)

theorem Window.start (h : History) (hv : v ≤ l) : Window h v l (h.ckpt v) :=
  ⟨h.same v, Mixed.start h.cells hv⟩

theorem Window.lower (hs : Window h v l s) {u : Nat} (hu : u ≤ v) :
    Window h u l s :=
  ⟨hs.layout, hs.mixed.lower hu⟩

theorem Window.layoutAt (hs : Window h v l s) (t : Nat) :
    Ckpt.layout s = Ckpt.layout (h.ckpt t) :=
  hs.layout.trans (h.same t).symm

/-- Part of a delta, in any order, keeps the window. -/
theorem Carries.partly (hd : Carries h d f t) (hs : Window h v l s)
    (hv : v ≤ t) (ht : t ≤ l) (hws : ∀ w ∈ ws, w ∈ d.writes) :
    Window h v l (ws.foldl writeCell s) := by
  refine ⟨(layout_writes ws s).trans hs.layout,
    hs.mixed.partly hv ht fun p => ?_⟩
  rw [hd.cellAt_some (hs.layoutAt t) hws]
  split
  · exact .inl rfl
  · exact .inr rfl

/-- All of a delta, in any order, moves the window up to `t`. -/
theorem Carries.complete (hd : Carries h d f t) (hs : Window h v l s)
    (hf : f ≤ v) (ht : t ≤ l) (hws : ws.Perm d.writes) :
    Window h t l (ws.foldl writeCell s) := by
  have hcell := hd.cellAt_some (hs.layoutAt t) fun w hw => hws.mem_iff.1 hw
  have hmem : ∀ p, p ∈ ws.map place ↔ p ∈ d.writes.map place :=
    fun p => (hws.map _).mem_iff
  refine ⟨(layout_writes ws s).trans hs.layout,
    hs.mixed.update hd.covers hf ht ?_ ?_⟩
  · intro p hp
    rw [hcell, if_pos ((hmem p).2 hp)]
  · intro p hp
    rw [hcell, if_neg fun hw => hp ((hmem p).1 hw)]

theorem Carries.applyDelta_eq (hd : Carries h d f t)
    (hs : layout s = layout (h.ckpt t)) :
    applyDelta s d = .ok (d.writes.foldl writeCell s) := by
  have hnone : d.patches.find? (fun p => !fits s p) = none := by
    rw [find?_eq_none]
    intro p hp
    simp [fits_of_layout hs (hd.fit p hp)]
  unfold applyDelta
  rw [hnone]

end Apply

-- ===== masks

/-- A mask over one tensor hits a cell. -/
def hitsCell (bf16 : Bool) (mask : List Bool) (j : Nat) : Bool :=
  if bf16 then mask.getD j false else mask.any id

/-- The cells of `s` that masks hit. -/
def Hits (s : Checkpoint) (masks : Masks) (p : String × Nat) : Prop :=
  ∃ t m, s.lookup p.1 = some t ∧ masks.lookup p.1 = some m
    ∧ p.2 < t.cells.length ∧ hitsCell t.bf16 m p.2 = true

/-- One mask a tensor, of its size: a flag a cell or one flag. -/
structure MasksFit (s : Checkpoint) (masks : Masks) : Prop where
  names : masks.map Prod.fst = names s
  size : ∀ n m t, masks.lookup n = some m → s.lookup n = some t →
    m.length = if t.bf16 then t.cells.length else 1

theorem lookup_of_names {β γ : Type} {a : List (String × β)}
    {b : List (String × γ)} (h : a.map Prod.fst = b.map Prod.fst)
    {x : γ} (hx : b.lookup n = some x) : ∃ y, a.lookup n = some y := by
  have hmem : n ∈ b.map Prod.fst :=
    mem_map.2 ⟨(n, x), mem_of_lookup hx, rfl⟩
  rw [← h] at hmem
  obtain ⟨y, hy, rfl⟩ := mem_map.1 hmem
  exact Option.isSome_iff_exists.1 (isSome_lookup_of_mem hy)

theorem checkSameStructure_ok (h : layout a = layout b)
    (hnd : (names a).Nodup) : checkSameStructure a b = .ok () := by
  have hnames : names a = names b := by
    rw [← names_layout, h, names_layout]
  have hnil : ∀ l : List String, (l.filter fun n => n ∉ l) = [] := by
    intro l
    rw [filter_eq_nil_iff]
    intro n hn
    simp [hn]
  have hkin : ∀ x ∈ a, checkKin b x = .ok () := by
    intro x hx
    obtain ⟨u, hu, hk⟩ := kin_of_layout h.symm (lookup_of_mem hnd hx)
    have hd : x.2.dtype = u.dtype := (congrArg (fun k => k.1) hk).symm
    have hs : x.2.shape = u.shape := (congrArg (fun k => k.2.1) hk).symm
    simp [checkKin, hu, hd, hs]
  unfold checkSameStructure
  rw [hnames, hnil, if_neg (by simp)]
  exact forM_ok a hkin

/-- The masks between two checkpoints of one layout. -/
theorem changedMasks_ok (h : layout a = layout b) (hnd : (names a).Nodup) :
    ∃ masks, changedMasks a b = .ok masks ∧ MasksFit b masks
      ∧ ∀ p, cellAt a p ≠ cellAt b p → Hits b masks p := by
  have hnames : names a = names b := by
    rw [← names_layout, h, names_layout]
  have hndb : (names b).Nodup := hnames ▸ hnd
  let mask : String × Tensor → String × List Bool := fun x =>
    (x.1, changedMask ((a.lookup x.1).getD x.2) x.2)
  have hmask : ∀ x ∈ b, (match a.lookup x.1 with
      | none => Except.error (DeltaError.key x.1)
      | some u => Except.ok (x.1, changedMask u x.2)) = .ok (mask x) := by
    intro x hx
    obtain ⟨u, hu, -⟩ := kin_of_layout h (lookup_of_mem hndb hx)
    simp [mask, hu]
  have hread : ∀ n t, b.lookup n = some t → ∃ u, a.lookup n = some u
      ∧ u.kind = t.kind ∧ (b.map mask).lookup n = some (changedMask u t) := by
    intro n t ht
    obtain ⟨u, hu, hk⟩ := kin_of_layout h ht
    refine ⟨u, hu, hk, lookup_of_mem ?_ ?_⟩
    · rw [map_map]
      exact hndb
    · refine mem_map.2 ⟨(n, t), mem_of_lookup ht, ?_⟩
      simp [mask, hu]
  refine ⟨b.map mask, ?_, ⟨?_, ?_⟩, ?_⟩
  · unfold changedMasks
    rw [checkSameStructure_ok h hnd]
    exact mapM_ok b hmask
  · rw [map_map]
    rfl
  · intro n m t hm ht
    obtain ⟨u, -, hk, hl⟩ := hread n t ht
    rw [hm] at hl
    injection hl with hl
    rw [hl, changedMask]
    split
    · simp [length_of_kind hk]
    · rfl
  · intro p hp
    cases ht : b.lookup p.1 with
    | none =>
      -- neither side has the tensor
      refine absurd ?_ hp
      unfold cellAt
      cases hu : a.lookup p.1 with
      | none => rw [ht]
      | some u =>
        obtain ⟨t, hl, -⟩ := kin_of_layout h.symm hu
        rw [ht] at hl
        cases hl
    | some t =>
      obtain ⟨u, hu, hk, hl⟩ := hread p.1 t ht
      have hcell : u.cells[p.2]? ≠ t.cells[p.2]? := by
        simpa [cellAt, hu, ht] using hp
      have hlen := length_of_kind hk
      have hlt : p.2 < t.cells.length := by
        by_contra hge
        refine hcell ?_
        rw [getElem?_eq_none (by omega), getElem?_eq_none (by omega)]
      refine ⟨t, changedMask u t, ht, hl, hlt, ?_⟩
      unfold hitsCell changedMask
      by_cases hb : t.bf16 = true
      · have hlt' : p.2 < u.cells.length := by omega
        have hne : u.cells[p.2] ≠ t.cells[p.2] := by
          intro heq
          refine hcell ?_
          rw [getElem?_eq_getElem hlt, getElem?_eq_getElem hlt', heq]
        rw [if_pos hb, if_pos hb]
        simp [List.getD, hlt, hlt', hne]
      · have hne : u.cells ≠ t.cells := by
          intro heq
          exact hcell (by rw [heq])
        rw [if_neg hb, if_neg hb]
        simpa using hne

-- ===== from masks

theorem mem_nonzero {mask : List Bool} {j : Nat} :
    j ∈ nonzero mask ↔ mask.getD j false = true := by
  unfold nonzero
  rw [mem_filter, mem_range]
  constructor
  · exact fun h => h.2
  · intro h
    refine ⟨?_, h⟩
    by_contra hge
    rw [getD_eq_default _ _ (by omega)] at h
    cases h

theorem pairwise_nonzero (mask : List Bool) : (nonzero mask).Pairwise (· < ·) :=
  pairwise_lt_range.filter _

/-- What one patch of a masked tensor is: it fits the checkpoint, is
well formed, holds the checkpoint's cells, and writes every cell the
mask hits. -/
structure Patches (new : Checkpoint) (m : String × List Bool) (t : Tensor)
    (o : Option TensorPatch) : Prop where
  fit : ∀ p, o = some p → fits new p = true
  wf : ∀ p, o = some p → p.Sound ∧ p.SparseBf16
  cells : ∀ p, o = some p → ∀ w ∈ p.writes, cellAt new w.place = some w.bits
  hit : ∀ j, j < t.cells.length → hitsCell t.bf16 m.2 j = true →
    ∃ p, o = some p ∧ (m.1, j) ∈ p.writes.map place

/-- The cells of a sparse patch are those at its positions. -/
theorem mem_sparse_writes {is : List Nat}
    {w : Write} : w ∈ List.zipWith (fun i v => (⟨n, i, v⟩ : Write)) is
        (is.map fun j => t.cells.getD j 0)
      ↔ ∃ j ∈ is, w = ⟨n, j, t.cells.getD j 0⟩ := by
  rw [zipWith_map_right, zipWith_self, mem_map]
  constructor
  · rintro ⟨j, hj, rfl⟩
    exact ⟨j, hj, rfl⟩
  · rintro ⟨j, hj, rfl⟩
    exact ⟨j, hj, rfl⟩

theorem patchOf_bf16 {new : Checkpoint} {m : String × List Bool}
    (ht : new.lookup m.1 = some t) (hb : t.bf16 = true)
    (hm : m.2.length = t.cells.length) (hw : t.Wf) :
    ∃ o, patchOf new m = .ok o ∧ Patches new m t o := by
  have hlt : ∀ j ∈ nonzero m.2, j < t.cells.length := by
    intro j hj
    have := (mem_filter.1 hj).1
    rw [mem_range] at this
    omega
  have hwf := hw
  rw [Tensor.Wf, if_pos hb] at hwf
  unfold patchOf
  simp only [ht]
  rw [if_pos hb, if_neg (by simp [hm])]
  by_cases hnil : nonzero m.2 = []
  · refine ⟨none, if_pos hnil, nofun, nofun, nofun, ?_⟩
    intro j _ hhit
    rw [hitsCell, if_pos hb, ← mem_nonzero, hnil] at hhit
    cases hhit
  · refine ⟨_, if_neg hnil, ?_, ?_, ?_, ?_⟩
    · rintro p ⟨⟩
      have hd : t.dtype = "bfloat16" := by simpa [Tensor.bf16] using hb
      simp [fits, ht, hd]
    · rintro p ⟨⟩
      refine ⟨⟨pairwise_nonzero m.2, ?_, by simp, ?_⟩, rfl⟩
      · intro i hi
        rw [← hwf.1]
        exact hlt i hi
      · intro v hv
        obtain ⟨j, hj, rfl⟩ := mem_map.1 hv
        have hj := hlt j hj
        refine hwf.2 _ ?_
        simp [List.getD, hj]
    · rintro p ⟨⟩ w hmem
      obtain ⟨j, hj, rfl⟩ := mem_sparse_writes.1 hmem
      have hj := hlt j hj
      simp [cellAt, place, ht, List.getD, hj]
    · intro j _ hhit
      rw [hitsCell, if_pos hb, ← mem_nonzero] at hhit
      refine ⟨_, rfl, mem_map.2
        ⟨⟨m.1, j, t.cells.getD j 0⟩, mem_sparse_writes.2 ⟨j, hhit, rfl⟩, rfl⟩⟩

theorem patchOf_other {new : Checkpoint} {m : String × List Bool}
    (ht : new.lookup m.1 = some t) (hb : t.bf16 = false)
    (hw : t.Wf) : ∃ o, patchOf new m = .ok o ∧ Patches new m t o := by
  have hwf := hw
  rw [Tensor.Wf, if_neg (by simp [hb])] at hwf
  have hcells : wholeCells t.dtype t.cells = t.cells :=
    if_neg (by simpa [Tensor.bf16] using hb)
  unfold patchOf
  simp only [ht]
  rw [if_neg (by simp [hb])]
  by_cases hany : m.2.any id = true
  · refine ⟨_, if_pos hany, ?_, ?_, ?_, ?_⟩
    · rintro p ⟨⟩
      simp [fits, ht]
    · rintro p ⟨⟩
      exact ⟨hwf, trivial⟩
    · rintro p ⟨⟩ w hmem
      obtain ⟨b, hbm, rfl⟩ := mem_map.1 hmem
      rw [hcells, mem_zipIdx_iff_getElem?] at hbm
      simpa [cellAt, place, ht] using hbm
    · intro j hj _
      refine ⟨_, rfl, mem_map.2 ⟨⟨m.1, j, t.cells[j]⟩, ?_, rfl⟩⟩
      refine mem_map.2 ⟨(t.cells[j], j), ?_, rfl⟩
      rw [hcells, mem_zipIdx_iff_getElem?]
      exact getElem?_eq_getElem hj
  · refine ⟨none, if_neg hany, nofun, nofun, nofun, ?_⟩
    intro j _ hhit
    rw [hitsCell, if_neg (by simp [hb])] at hhit
    exact absurd hhit hany

/-- A delta of masks that hit every cell moved since `f` carries `f` to
`t`. -/
theorem deltaFromMasks_carries (h : History) {masks : Masks} {f t : Nat}
    (hft : f < t) (base target : String) (hfit : MasksFit (h.ckpt t) masks)
    (hcov : Covers h.cells {p | Hits (h.ckpt t) masks p} f t) :
    ∃ d, deltaFromMasks (h.ckpt t) masks f t base target = .ok d
      ∧ Carries h d f t ∧ d.Wf ∧ d.targetSha256 = target := by
  have hone : ∀ m ∈ masks, ∃ t', (h.ckpt t).lookup m.1 = some t'
      ∧ ∃ o, patchOf (h.ckpt t) m = .ok o ∧ Patches (h.ckpt t) m t' o := by
    intro m hm
    have hnd : (masks.map Prod.fst).Nodup := by
      rw [hfit.names]
      exact h.nodup t
    have hl := lookup_of_mem hnd hm
    obtain ⟨t', ht'⟩ := lookup_of_names hfit.names.symm hl
    have hwf : t'.Wf := h.wf t _ (mem_of_lookup ht')
    have hsize := hfit.size _ _ _ hl ht'
    refine ⟨t', ht', ?_⟩
    by_cases hb : t'.bf16 = true
    · rw [if_pos hb] at hsize
      exact patchOf_bf16 ht' hb hsize hwf
    · exact patchOf_other ht' (by simpa using hb) hwf
  choose! tensor htensor patch hpatch hpatches using hone
  have hmem : ∀ p ∈ (masks.map patch).filterMap id,
      ∃ m ∈ masks, patch m = some p := by
    intro p hp
    obtain ⟨o, ho, hop⟩ := mem_filterMap.1 hp
    obtain ⟨m, hm, rfl⟩ := mem_map.1 ho
    exact ⟨m, hm, hop⟩
  refine ⟨
    { fromVersion := f, toVersion := t, baseSha256 := base
      targetSha256 := target
      patches := (masks.map patch).filterMap id }, ?_, ⟨?_, ?_, ?_⟩, ?_, rfl⟩
  · unfold deltaFromMasks
    rw [if_neg (by omega), mapM_ok masks hpatch]
    rfl
  · intro w hw
    obtain ⟨p, hp, hwp⟩ := mem_flatMap.1 hw
    obtain ⟨m, hm, hpm⟩ := hmem p hp
    exact (hpatches m hm).cells p hpm w hwp
  · intro p hp u hu hut
    refine hcov p (fun hhit => hp ?_) u hu hut
    obtain ⟨t', m, ht', hm, hlt, hcell⟩ := hhit
    have hmm := mem_of_lookup hm
    have heq : tensor (p.1, m) = t' := by
      have hread := htensor _ hmm
      rw [ht'] at hread
      injection hread with hread
      exact hread.symm
    obtain ⟨q, hq, hplace⟩ :=
      (hpatches _ hmm).hit p.2 (heq ▸ hlt) (heq ▸ hcell)
    obtain ⟨w, hw, hwp⟩ := mem_map.1 hplace
    refine mem_map.2 ⟨w, mem_flatMap.2 ⟨q, ?_, hw⟩, hwp⟩
    exact mem_filterMap.2 ⟨some q, mem_map.2 ⟨_, hmm, hq⟩, rfl⟩
  · intro p hp
    obtain ⟨m, hm, hpm⟩ := hmem p hp
    exact (hpatches m hm).fit p hpm
  · intro p hp
    obtain ⟨m, hm, hpm⟩ := hmem p hp
    exact (hpatches m hm).wf p hpm

-- ===== anchors

/-- `t.numel() * t.element_size()`. -/
def Tensor.nbytes (t : Tensor) : Nat :=
  if t.bf16 then 2 * t.cells.length else t.cells.length

/-- The shards closed so far, the open one and its size. -/
structure Sharding where
  closed : List Checkpoint := []
  last : Checkpoint := []
  size : Nat := 0

def Sharding.add (shardBytes : Nat) (a : Sharding) (x : String × Tensor) :
    Sharding :=
  if a.last ≠ [] ∧ a.size + x.2.nbytes > shardBytes then
    { closed := a.closed ++ [a.last], last := [x], size := x.2.nbytes }
  else
    { a with last := a.last ++ [x], size := a.size + x.2.nbytes }

def Sharding.shards (a : Sharding) : List Checkpoint := a.closed ++ [a.last]

/-- The shards `write_anchor_shards` saves. -/
def anchorShards (shardBytes : Nat) (s : Checkpoint) : List Checkpoint :=
  (s.foldl (Sharding.add shardBytes) {}).shards

/-- `load_anchor_shards`: each shard updates the dictionary. -/
def mergeShards (shards : List Checkpoint) : Checkpoint :=
  shards.foldl (fun s shard => shard.foldl (fun s x => put x.1 x.2 s) s) []

theorem Sharding.flatten_add (shardBytes : Nat) (a : Sharding)
    (x : String × Tensor) :
    (a.add shardBytes x).shards.flatten = a.shards.flatten ++ [x] := by
  unfold Sharding.add Sharding.shards
  split <;> simp

theorem flatten_anchorShards (shardBytes : Nat) (s : Checkpoint) :
    (anchorShards shardBytes s).flatten = s := by
  have hrun : ∀ (s : Checkpoint) (a : Sharding),
      (s.foldl (Sharding.add shardBytes) a).shards.flatten
        = a.shards.flatten ++ s := by
    intro s
    induction s with
    | nil => intro a; simp
    | cons x s ih =>
      intro a
      rw [foldl_cons, ih, Sharding.flatten_add]
      simp
  exact hrun s {}

/-- Upserts of new keys append. -/
theorem putAll_append {β : Type} (rows : List (String × β)) :
    ∀ s : List (String × β), ((s ++ rows).map Prod.fst).Nodup →
      rows.foldl (fun s x => put x.1 x.2 s) s = s ++ rows := by
  induction rows with
  | nil => intro s _; simp
  | cons x rows ih =>
    intro s hnd
    rw [foldl_cons, put_new _ _ _ (fresh_key hnd), ih]
    · simp
    · simpa using hnd

/-- An anchor loads back to the checkpoint it was written from. -/
theorem mergeShards_anchorShards (shardBytes : Nat) {s : Checkpoint}
    (hnd : (names s).Nodup) : mergeShards (anchorShards shardBytes s) = s := by
  unfold mergeShards
  rw [← foldl_flatten, flatten_anchorShards, putAll_append]
  · rfl
  · exact hnd

end Reliquary.Ckpt
