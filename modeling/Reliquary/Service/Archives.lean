/-
What the weight replay keeps of the service archives
(src/reliquary/validator/weight_only.py,
`WeightOnlyValidator._validated_service_archives`).

The scan goes over the archives in the order the bucket lists them. A
legacy archive passes through; of a service task's window one archive is
kept, the one with the smallest canonical JSON, and a window with two
copies of which one has no canonical JSON is poisoned. What is kept is
then reduced to the fields the replay pays from.

# Why the order does not matter

Seen from one (task, window), the scan's two collections are a `Cell`:
free, holding an archive, or poisoned, and an archive of that window moves
the cell by `Cell.see`. Two archives move a cell to the same place in
either order (`Cell.see_comm`), so the cell after a scan depends only on
which archives there were (`cell_scan`), and with it everything the
function computes from what was chosen.
-/
import Reliquary.Store.Sorted

namespace Reliquary.Service

open Store List Option

-- ===== the model

/-- What `archive.get("task_id")` gives: a text, or another value or none
at all, with the text `str` makes of it. -/
inductive TaskId
  | text (s : String)
  | other (s : String)

def TaskId.str : TaskId → String
  | .text s | .other s => s

/-- A task of the registry: whether its mechanism is the service one, its
contract and its cap, `none` where the entry has no usable one. -/
structure TaskEntry (γ : Type) where
  service : Bool
  contract : Option γ
  cap : Option ℚ

/-- An archive's fields as the code reads them, over the archives `α`, the
JSON values `ν` of a field and the canonical texts `β`. `none` is an
exception: of `taskId`, that the archive is no map or its task id cannot
be looked up; of `windowStart`, that `int` refuses the field; of
`canonicalJson`, that the archive is not canonical JSON; of `rewards`
(`service_archive_rewards`), that it refuses the archive. -/
structure ArchiveReader (α β ν γ : Type) where
  taskId : α → Option TaskId
  windowStart : α → Option Int
  windowStatus : α → Option ν
  text : String → ν
  canonicalJson : α → Option β
  rewards : α → γ → ℚ → Int × Int → Option (List (String × ℚ))

/-- What is kept of a service archive. -/
structure ServiceRecord (ν : Type) where
  taskId : String
  windowStart : Int
  windowStatus : ν
  rewardsByHotkey : List (String × ℚ)

def ServiceRecord.key {ν : Type} (x : ServiceRecord ν) : String × Int :=
  (x.taskId, x.windowStart)

/-- The scan's collections. -/
structure Scan (α : Type) where
  chosen : List ((String × Int) × α) := []
  poisoned : List (String × Int) := []
  out : List α := []

open Scan

section Model

variable {α β ν γ : Type} [LinearOrder β] [DecidableEq ν]
  (r : ArchiveReader α β ν γ) (declared : String → Option (TaskEntry γ))

def isService (a : α) : Option Bool :=
  (r.taskId a).map fun
    | .text s => (declared s).any fun entry => entry.service
    | .other _ => false

/-- `(str(archive["task_id"]), int(archive["window_start"]))`. -/
def archiveKey (a : α) : Option (String × Int) := do
  return ((← r.taskId a).str, ← r.windowStart a)

/-- A service archive with a usable window. -/
def Scan.add (s : Scan α) (k : String × Int) (a : α) : Scan α :=
  if k ∈ s.poisoned then s
  else match s.chosen.lookup k with
    | none => { s with chosen := put k a s.chosen }
    | some held =>
      match r.canonicalJson a, r.canonicalJson held with
      | some rank, some heldRank =>
        if rank < heldRank then { s with chosen := put k a s.chosen }
        else s
      | _, _ =>
        { s with
          chosen := s.chosen.filter fun x => x.1 != k
          poisoned := k :: s.poisoned }

/-- One round of the scan, for an archive of a service task or not. -/
def Scan.see (s : Scan α) (a : α) (service : Bool) : Scan α :=
  if service then
    match archiveKey r a with
    | none => s
    | some k => s.add r k a
  else { s with out := s.out ++ [a] }

def scanOne (s : Scan α) (a : α) : Option (Scan α) :=
  (isService r declared a).map (s.see r a)

/-- A task's contract and cap; without usable ones the function raises. -/
def contractOf (task : String) : Option (γ × ℚ) := do
  let entry ← declared task
  let contract ← entry.contract
  let cap ← entry.cap
  if 0 < cap ∧ cap ≤ 1 then some (contract, cap) else none

/-- The record of a chosen archive, `none` where it is dropped. -/
def recordOf (geometry : Int × Int) (k : String × Int) (a : α)
    (contract : γ × ℚ) : Option (ServiceRecord ν) :=
  let aborted := r.windowStatus a = some (r.text "aborted")
  let rewards :=
    if aborted then some []
    else r.rewards a contract.1 contract.2 geometry
  rewards.map fun rewards =>
    { taskId := k.1
      windowStart := k.2
      windowStatus :=
        if aborted then r.text "aborted"
        else (r.windowStatus a).getD (r.text "completed")
      rewardsByHotkey := rewards }

/-- The key the rows are sorted by. -/
def sortKey : α ⊕ ServiceRecord ν → Option (Int ×ₗ String)
  | .inl a => do return toLex (← r.windowStart a, (← r.taskId a).str)
  | .inr x => some (toLex (x.windowStart, x.taskId))

/-- `_validated_service_archives`: the legacy archives and the service
records, sorted. `none`: it raises. -/
def validatedServiceArchives (geometry : Int × Int) (archives : List α) :
    Option (List (α ⊕ ServiceRecord ν)) := do
  let s ← archives.foldlM (scanOne r declared) {}
  let contracts ← s.chosen.mapM fun x =>
    (contractOf declared x.1.1).map fun c => (x, c)
  let records := contracts.filterMap fun x =>
    recordOf r geometry x.1.1 x.1.2 x.2
  let keyed ← (s.out.map Sum.inl ++ records.map Sum.inr).mapM fun row =>
    (sortKey r row).map fun k => (row, k)
  return (sortBy Prod.snd keyed).map Prod.fst

end Model

/-- The service records among the rows. -/
def serviceRecords {α ν : Type} (rows : List (α ⊕ ServiceRecord ν)) :
    List (ServiceRecord ν) :=
  rows.filterMap Sum.getRight?

-- ===== a window in the scan

/-- What the scan has for one task and window. -/
inductive Cell (α : Type)
  | free
  | held (a : α)
  | poisoned

section Cells

variable {α β ν γ : Type} [LinearOrder β] {r : ArchiveReader α β ν γ}
  {declared : String → Option (TaskEntry γ)}

/-- One more archive of the window. -/
def Cell.see (r : ArchiveReader α β ν γ) : Cell α → α → Cell α
  | .free, a => .held a
  | .held b, a =>
    match r.canonicalJson a, r.canonicalJson b with
    | some i, some j => if i < j then .held a else .held b
    | _, _ => .poisoned
  | .poisoned, _ => .poisoned

def Scan.cell (s : Scan α) (k : String × Int) : Cell α :=
  if k ∈ s.poisoned then .poisoned
  else match s.chosen.lookup k with
    | none => .free
    | some a => .held a

/-- **Two archives move a window's cell alike in either order**, where an
archive is determined by its canonical JSON. -/
theorem Cell.see_comm (hjson : ∀ a b j, r.canonicalJson a = some j →
      r.canonicalJson b = some j → a = b) (c : Cell α) (a b : α) :
    (c.see r a).see r b = (c.see r b).see r a := by
  by_cases hab : a = b
  · rw [hab]
  -- no ties: different archives have different texts
  have hne : ∀ i j, r.canonicalJson a = some i →
      r.canonicalJson b = some j → i ≠ j :=
    fun i j ha hb h => hab (hjson a b i ha (h ▸ hb))
  cases c with
  | free =>
    rcases ha : r.canonicalJson a with _ | i <;>
      rcases hb : r.canonicalJson b with _ | j <;>
      simp only [Cell.see, ha, hb]
    rcases lt_or_gt_of_ne (hne i j ha hb) with h | h <;>
      simp [h, h.not_gt]
  | held x =>
    rcases ha : r.canonicalJson a with _ | i <;>
      rcases hb : r.canonicalJson b with _ | j <;>
      rcases hx : r.canonicalJson x with _ | l <;>
      simp only [Cell.see, ha, hb, hx] <;>
      split_ifs <;> simp only [ha, hb, hx] <;> grind
  | poisoned => rfl

/-- What an archive of a usable window does to the cells. -/
theorem Scan.cell_add (s : Scan α) (k k' : String × Int) (a : α) :
    (s.add r k a).cell k'
      = if k' = k then (s.cell k').see r a else s.cell k' := by
  unfold add
  by_cases hp : k ∈ s.poisoned
  · split_ifs with hk
    · simp [cell, hk, hp, Cell.see]
    · rfl
  rw [if_neg hp]
  by_cases hk : k' = k
  · subst hk
    cases hl : s.chosen.lookup k' with
    | none => simp [cell, hp, hl, Cell.see]
    | some b =>
      simp only [cell, hp, hl, Cell.see, if_true, if_false]
      rcases r.canonicalJson a with _ | i <;>
        rcases r.canonicalJson b with _ | j <;> simp [hp]
      split_ifs <;> simp [hl]
  · rw [if_neg hk]
    have hput : (put k a s.chosen).lookup k' = s.chosen.lookup k' := by
      rw [lookup_put, if_neg hk]
    have hdel := lookup_remove_ne hk s.chosen
    cases hl : s.chosen.lookup k with
    | none => simp only [cell, hput]
    | some b =>
      dsimp only
      rcases r.canonicalJson a with _ | i <;>
        rcases r.canonicalJson b with _ | j
      case some.some =>
        by_cases hij : i < j <;> simp only [hij, if_true, if_false,
          cell, hput]
      all_goals simp only [cell, hdel, mem_cons, hk, false_or]

/-- The archives of a task and window. -/
def copies (r : ArchiveReader α β ν γ)
    (declared : String → Option (TaskEntry γ)) (k : String × Int)
    (l : List α) : List α :=
  l.filter fun a =>
    isService r declared a == some true && archiveKey r a == some k

/-- The legacy archives. -/
def legacy (r : ArchiveReader α β ν γ)
    (declared : String → Option (TaskEntry γ)) (l : List α) : List α :=
  l.filter fun a => isService r declared a == some false

/-- What the collections keep to: one archive per key, none of a poisoned
one. -/
structure Scan.Wf (s : Scan α) : Prop where
  nodup : (s.chosen.map Prod.fst).Nodup
  clean : ∀ x ∈ s.chosen, x.1 ∉ s.poisoned

theorem Scan.Wf.add {s : Scan α} (h : s.Wf) (k : String × Int) (a : α) :
    (s.add r k a).Wf := by
  have hput : k ∉ s.poisoned →
      Scan.Wf { s with chosen := put k a s.chosen } := by
    intro hp
    exact ⟨nodup_keys_put k a h.nodup, forall_put h.clean hp⟩
  unfold Scan.add
  split_ifs with hp
  · exact h
  split
  · exact hput hp
  · split
    · split_ifs
      · exact hput hp
      · exact h
    · constructor
      · exact (filter_sublist.map _).nodup h.nodup
      · intro x hx
        have hx := mem_filter.1 hx
        simpa using ⟨by simpa using hx.2, h.clean x hx.1⟩

/-- A kept archive is what its cell holds. -/
theorem Scan.Wf.mem_chosen {s : Scan α} (h : s.Wf) (k : String × Int)
    (a : α) : (k, a) ∈ s.chosen ↔ s.cell k = .held a := by
  constructor
  · intro hm
    simp [cell, h.clean _ hm, lookup_of_mem h.nodup hm]
  · intro hc
    unfold cell at hc
    split_ifs at hc
    split at hc
    · cases hc
    · next b hl =>
        cases hc
        exact mem_of_lookup hl

theorem Scan.out_add (s : Scan α) (k : String × Int) (a : α) :
    (s.add r k a).out = s.out := by
  unfold add
  grind

/-- A scan goes through exactly when every archive's task can be looked
up. -/
theorem isSome_scan (l : List α) (s : Scan α) :
    (l.foldlM (scanOne r declared) s).isSome
      = l.all fun a => (isService r declared a).isSome := by
  induction l generalizing s with
  | nil => rfl
  | cons a l ih =>
    cases hsv : isService r declared a with
    | none => simp [scanOne, hsv]
    | some service => simpa [scanOne, hsv] using ih _

/-- **What a scan makes of the archives**: the legacy ones pass, and each
cell has seen the archives of its window. -/
theorem scan_spec {l : List α} {s s' : Scan α} (hs : s.Wf)
    (h : l.foldlM (scanOne r declared) s = some s') :
    s'.Wf ∧ s'.out = s.out ++ legacy r declared l ∧ ∀ k, s'.cell k
        = (copies r declared k l).foldl (Cell.see r) (s.cell k) := by
  induction l generalizing s with
  | nil =>
    cases h
    exact ⟨hs, by simp [legacy], fun k => by simp [copies]⟩
  | cons a l ih =>
    cases hsv : isService r declared a with
    | none => simp [scanOne, hsv] at h
    | some service =>
      have h : l.foldlM (scanOne r declared) (s.see r a service)
          = some s' := by simpa [scanOne, hsv] using h
      cases service with
      | false =>
        obtain ⟨hwf, hout, hcell⟩ :=
          ih (s := s.see r a false) ⟨hs.nodup, hs.clean⟩ h
        refine ⟨hwf, ?_, ?_⟩
        · simp [hout, see, legacy, hsv]
        · intro k
          have hsame : (s.see r a false).cell k = s.cell k := rfl
          rw [hcell, hsame]
          simp [copies, hsv]
      | true =>
        cases hk : archiveKey r a with
        | none =>
          have hsee : s.see r a true = s := by simp [see, hk]
          obtain ⟨hwf, hout, hcell⟩ := ih hs (hsee ▸ h)
          refine ⟨hwf, ?_, ?_⟩
          · simp [hout, legacy, hsv]
          · intro k
            simp [hcell, copies, hk]
        | some k₀ =>
          have hsee : s.see r a true = s.add r k₀ a := by
            simp [see, hk]
          obtain ⟨hwf, hout, hcell⟩ := ih (hs.add k₀ a) (hsee ▸ h)
          refine ⟨hwf, ?_, ?_⟩
          · simp [hout, out_add, legacy, hsv]
          · intro k
            rw [hcell, cell_add]
            by_cases hkk : k = k₀
            · simp [copies, hsv, hk, hkk]
            · simp [copies, hsv, hk, hkk, Ne.symm hkk]

end Cells

-- ===== the order of the bucket

section OrderFree

variable {α β ν γ : Type} {r : ArchiveReader α β ν γ}
  {declared : String → Option (TaskEntry γ)}

/-- A loop that may raise, over the same items in another order. -/
theorem mapM_perm {δ ε : Type} {f : δ → Option ε} {l l' : List δ}
    (h : l.Perm l') {m : List ε} (hm : l.mapM f = some m) :
    ∃ m', l'.mapM f = some m' ∧ m.Perm m' := by
  induction h generalizing m with
  | nil => exact ⟨m, hm, .refl m⟩
  | cons x _ ih =>
    simp only [mapM_cons, bind_eq_bind, bind_eq_some_iff] at hm ⊢
    obtain ⟨y, hy, m₁, hm₁, hm⟩ := hm
    obtain ⟨m₂, hm₂, hp⟩ := ih hm₁
    cases hm
    exact ⟨y :: m₂, ⟨y, hy, m₂, hm₂, rfl⟩, hp.cons y⟩
  | swap x y l =>
    simp only [mapM_cons, bind_eq_bind, bind_eq_some_iff] at hm ⊢
    obtain ⟨b, hb, _, ⟨a, ha, m₁, hm₁, hm⟩, hm'⟩ := hm
    cases hm
    cases hm'
    exact ⟨a :: b :: m₁, ⟨a, ha, _, ⟨b, hb, m₁, hm₁, rfl⟩, rfl⟩, .swap a b m₁⟩
  | trans _ _ ih₁ ih₂ =>
    obtain ⟨m₁, hm₁, hp₁⟩ := ih₁ hm
    obtain ⟨m₂, hm₂, hp₂⟩ := ih₂ hm₁
    exact ⟨m₂, hm₂, hp₁.trans hp₂⟩

/-- A loop's results, one per item. -/
theorem mapM_map_fst {δ ε : Type} {f : δ → Option ε} {l : List δ}
    {m : List (δ × ε)}
    (h : l.mapM (fun x => (f x).map fun y => (x, y)) = some m) :
    m.map Prod.fst = l := by
  induction l generalizing m with
  | nil =>
    cases h
    rfl
  | cons x l ih =>
    rw [mapM_cons] at h
    obtain ⟨y, hy, h⟩ := bind_eq_some_iff.1 h
    obtain ⟨m', hm', h⟩ := bind_eq_some_iff.1 h
    obtain ⟨z, -, rfl⟩ := map_eq_some_iff.1 hy
    cases h
    rw [map_cons, ih hm']

/-- The service records of the rows are those put among them. -/
theorem serviceRecords_rows (out : List α) (records : List (ServiceRecord ν)) :
    serviceRecords (out.map Sum.inl ++ records.map Sum.inr) = records := by
  simp [serviceRecords, filterMap_append, filterMap_map, Function.comp_def]

/-- Records are of the window their archive was kept for, so there is one
at most for each. -/
theorem nodup_records [DecidableEq ν] (geometry : Int × Int)
    {contracts : List (((String × Int) × α) × (γ × ℚ))}
    (h : (contracts.map fun x => x.1.1).Nodup) :
    ((contracts.filterMap fun x => recordOf r geometry x.1.1 x.1.2 x.2).map
      ServiceRecord.key).Nodup := by
  refine List.Nodup.sublist ?_ h
  induction contracts with
  | nil => simp
  | cons x contracts ih =>
    have ih := ih (nodup_cons.1 h).2
    cases hx : recordOf r geometry x.1.1 x.1.2 x.2 with
    | none => simpa [hx] using ih.cons _
    | some y =>
      have hy : y.key = x.1.1 := by
        obtain ⟨_, -, rfl⟩ := map_eq_some_iff.1 hx
        rfl
      simpa [hx, hy] using ih

variable [LinearOrder β]

/-- The archives two scans keep, over one another's archives in another
order. -/
theorem chosen_perm (hjson : ∀ a b j, r.canonicalJson a = some j →
      r.canonicalJson b = some j → a = b) {l l' : List α} (h : l.Perm l')
    {s s' : Scan α} (hs : l.foldlM (scanOne r declared) {} = some s)
    (hs' : l'.foldlM (scanOne r declared) {} = some s') :
    s.chosen.Perm s'.chosen := by
  have hwf : (mk [] [] [] : Scan α).Wf := ⟨nodup_nil, by simp⟩
  obtain ⟨hw, -, hcell⟩ := scan_spec hwf hs
  obtain ⟨hw', -, hcell'⟩ := scan_spec hwf hs'
  apply (perm_ext_iff_of_nodup (List.Nodup.of_map _ hw.nodup)
    (List.Nodup.of_map _ hw'.nodup)).2
  rintro ⟨k, a⟩
  have hcopies : (copies r declared k l).Perm (copies r declared k l') :=
    h.filter _
  rw [hw.mem_chosen, hw'.mem_chosen, hcell, hcell',
    hcopies.foldl_eq' fun a _ b _ c => Cell.see_comm hjson c a b]

variable [DecidableEq ν]

/-- **What another order of the archives returns**: the same service
records, one at most for a task and window. -/
theorem validated_perm (hjson : ∀ a b j, r.canonicalJson a = some j →
      r.canonicalJson b = some j → a = b) {geometry : Int × Int} {l l' : List α}
    (h : l.Perm l') {out : List (α ⊕ ServiceRecord ν)}
    (hl : validatedServiceArchives r declared geometry l = some out) :
    ∃ out', validatedServiceArchives r declared geometry l' = some out' ∧
      (serviceRecords out).Perm (serviceRecords out') ∧
      ((serviceRecords out).map ServiceRecord.key).Nodup := by
  obtain ⟨s, hs, hl⟩ := bind_eq_some_iff.1 hl
  obtain ⟨contracts, hc, hl⟩ := bind_eq_some_iff.1 hl
  obtain ⟨keyed, hk, hl⟩ := bind_eq_some_iff.1 hl
  cases hl
  -- the scan, the contracts and the sort keys of the other order
  obtain ⟨s', hs'⟩ : ∃ s', l'.foldlM (scanOne r declared) {} = some s' := by
    rw [← isSome_iff_exists, isSome_scan, ← h.all_eq, ← isSome_scan l {}, hs]
    rfl
  obtain ⟨contracts', hc', hcp⟩ := mapM_perm (chosen_perm hjson h hs hs') hc
  have hwf : (mk [] [] [] : Scan α).Wf := ⟨nodup_nil, by simp⟩
  have hscan := scan_spec hwf hs
  have hout : s.out.Perm s'.out := by
    rw [hscan.2.1, (scan_spec hwf hs').2.1]
    exact h.filter _
  obtain ⟨keyed', hk', -⟩ := mapM_perm
    ((hout.map Sum.inl).append ((hcp.filterMap fun x =>
      recordOf r geometry x.1.1 x.1.2 x.2).map Sum.inr)) hk
  have hrows := fun {rows : List (α ⊕ ServiceRecord ν)}
      {keyed : List ((α ⊕ ServiceRecord ν) × (Int ×ₗ String))}
      (hk : rows.mapM (fun row => (sortKey r row).map fun k => (row, k))
        = some keyed) =>
    show ((sortBy Prod.snd keyed).map Prod.fst).Perm rows from
      mapM_map_fst hk ▸ (perm_sortBy Prod.snd keyed).map Prod.fst
  have hrec := (hrows hk).filterMap Sum.getRight?
  have hrec' := (hrows hk').filterMap Sum.getRight?
  rw [← serviceRecords, ← serviceRecords, serviceRecords_rows] at hrec hrec'
  refine ⟨_, ?_, hrec.trans ((hcp.filterMap _).trans hrec'.symm), ?_⟩
  · exact bind_eq_some_iff.2 ⟨s', hs', bind_eq_some_iff.2
      ⟨contracts', hc', bind_eq_some_iff.2 ⟨keyed', hk', rfl⟩⟩⟩
  · apply (hrec.map ServiceRecord.key).nodup_iff.2
    apply nodup_records
    have hkeys := hscan.1.nodup
    rwa [← mapM_map_fst hc, List.map_map] at hkeys

/-- **What is returned, in any order of the archives**: the function
raises for both orders or for none, the service records are the same, and
there is one at most for a task and window. -/
theorem validated_order_free
    (hjson : ∀ a b j, r.canonicalJson a = some j →
      r.canonicalJson b = some j → a = b)
    (geometry : Int × Int) {l l' : List α} (h : l.Perm l') :
    (validatedServiceArchives r declared geometry l).isSome
      = (validatedServiceArchives r declared geometry l').isSome ∧
    ∀ out out', validatedServiceArchives r declared geometry l = some out →
      validatedServiceArchives r declared geometry l' = some out' →
      (serviceRecords out).Perm (serviceRecords out') ∧
        ((serviceRecords out).map ServiceRecord.key).Nodup := by
  constructor
  · rw [Bool.eq_iff_iff, isSome_iff_exists, isSome_iff_exists]
    constructor
    · rintro ⟨out, hl⟩
      obtain ⟨out', hl', -⟩ := validated_perm hjson h hl
      exact ⟨out', hl'⟩
    · rintro ⟨out', hl'⟩
      obtain ⟨out, hl, -⟩ := validated_perm hjson h.symm hl'
      exact ⟨out, hl⟩
  · intro out out' hl hl'
    obtain ⟨out'', hl'', hspec⟩ := validated_perm hjson h hl
    rw [hl'] at hl''
    cases hl''
    exact hspec

/-- Archives that are numbers, all of one window, ranked by themselves. -/
def numbered : ArchiveReader Nat Nat String Unit where
  taskId _ := some (.text "rl")
  windowStart _ := some 7
  windowStatus _ := none
  text s := s
  canonicalJson := some
  rewards a _ _ _ := some [("hotkey", a)]

/-- Three copies of a window, in two orders. -/
theorem validated_order_free_copies :
    let found := validatedServiceArchives numbered
      (fun _ => some ⟨true, some (), some 1⟩) (8, 8)
    (found [2, 1, 3]).isSome = (found [3, 2, 1]).isSome ∧
      ∀ out out', found [2, 1, 3] = some out → found [3, 2, 1] = some out' →
        (serviceRecords out).Perm (serviceRecords out') ∧
          ((serviceRecords out).map ServiceRecord.key).Nodup :=
  validated_order_free
    (fun _ _ _ ha hb => (some.inj ha).trans (some.inj hb).symm)
    (8, 8) (by decide)

end OrderFree

end Reliquary.Service
