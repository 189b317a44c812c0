/-
The checkpoint delta wire format: `encode_delta` and `decode_delta` of
`shared/ckpt_delta.py`, and their round trip.

# The model

A file is the magic, the header's length as a 64-bit word, the header
as JSON, and the sections. The header's integers are `Int`, as JSON
gives them, and every check the decoder makes on them is made here. A
sparse tensor is cut into chunks of `chunk_elements` positions; the
sections follow each other, and a section's offset is the length of
what was written before it.

Not of this repository, so parameters (`Formats`): zstd and JSON, each
with the law that reading undoes writing. Encoding and decoding are
parallel in the source, each chunk into its own place; here the chunks'
results are joined in order.

# What is proven

`decodeDelta_encodeDelta`: a delta whose patches are sound and whose
sparse patches are bf16 comes back as it was, for every chunk size the
encoder takes. The proof follows the decoder: one section
(`readSection_putSection`), the positions of one chunk in either
encoding (`decodeIndices_encodeIndices`), the chunk table
(`chunks_roundTrip`), the entries.

A sparse patch of another dtype is written but not read back: the
decoder knows sparse entries of dtype bfloat16 only.
-/
import Reliquary.Ckpt.Delta
import Reliquary.Store.Bytes

namespace Reliquary.Ckpt

open Store List

-- ===== the header

/-- `[start, length, raw_length]`. -/
structure SectionSpec where
  start : Int
  length : Int
  rawLength : Int
deriving DecidableEq

/-- `[c, count, encoding, index section, value section]`. -/
structure ChunkRow where
  c : Int
  count : Int
  encoding : String
  indices : SectionSpec
  values : SectionSpec
deriving DecidableEq

inductive EntryBody
  | whole (sections : List SectionSpec)
  | sparse (count : Int) (chunks : List ChunkRow)
  | other (kind : String)
deriving DecidableEq

structure Entry where
  name : String
  dtype : String
  shape : List Nat
  body : EntryBody
deriving DecidableEq

/-- The JSON header; `chunkElements` is none when it is no integer. -/
structure Header where
  format : Int
  codec : String
  chunkElements : Option Int
  fromVersion : Int
  toVersion : Int
  baseSha256 : String
  targetSha256 : String
  tensors : List Entry
deriving DecidableEq

/-- zstd and JSON: reading undoes writing. No text is as long as
`2 ^ 64` bytes, so nothing is promised of one. -/
structure Formats where
  compress : Int → Bytes → Bytes
  decompress : Bytes → Nat → Option Bytes
  dumps : Header → Bytes
  loads : Bytes → Option Header
  zstd : ∀ level raw, raw ≠ [] →
    decompress (compress level raw) raw.length = some raw
  json : ∀ h, (dumps h).length < 2 ^ 64 → loads (dumps h) = some h

def magic : Bytes := [0x52, 0x51, 0x43, 0x4B, 0x44, 0x4C, 0x54, 0x31]

def formatVersion : Int := 2

def u32Limit : Nat := 2 ^ 32

/-- `_BITMASK_DENSITY`. -/
def bitmaskDensity : Nat := 5

-- ===== encoding

/-- `_encode_indices`. -/
def encodeIndices (indices : List Nat) (size : Nat) : String × Bytes :=
  if bitmaskDensity * indices.length > size then
    ("bitmask", packBits ((List.range size).map fun j => indices.contains j))
  else
    ("gaps32", planes 4 (gaps indices))

/-- A chunk with a change: its number and size, the positions local to
it and their values. -/
structure Chunk where
  c : Nat
  size : Nat
  indices : List Nat
  values : List Nat

/-- `np.searchsorted` on a sorted array. -/
def searchsorted (l : List Nat) (x : Nat) : Nat :=
  (l.takeWhile fun i => i < x).length

/-- The number of chunks, the length of `arange(0, numel, chunk)`. -/
def chunkCount (size chunk : Nat) : Nat := (size + chunk - 1) / chunk

/-- `np.append(starts, numel)`. -/
def cutPoints (size chunk : Nat) : List Nat :=
  (List.range (chunkCount size chunk)).map (· * chunk) ++ [size]

/-- The chunk `c` of a sparse patch, none when nothing changed in it. -/
def chunkAt (size chunk : Nat) (indices values : List Nat) (c : Nat) :
    Option Chunk :=
  let cuts := (cutPoints size chunk).map (searchsorted indices)
  let a := cuts.getD c 0
  let b := cuts.getD (c + 1) 0
  let base := c * chunk
  if a = b then none
  else
    some { c := c, size := min chunk (size - base)
           indices := (slice a b indices).map (· - base)
           values := slice a b values }

def chunksOf (size chunk : Nat) (indices values : List Nat) : List Chunk :=
  (List.range (chunkCount size chunk)).filterMap
    (chunkAt size chunk indices values)

section Encode

variable (f : Formats) (level : Int)

/-- One section after what is written: `compress` and `section`. -/
def putSection (payload raw : Bytes) : SectionSpec × Bytes :=
  let packed := if raw = [] then [] else f.compress level raw
  (⟨payload.length, packed.length, raw.length⟩, payload ++ packed)

/-- The rows and sections of a sparse tensor's chunks. -/
def putChunks : List Chunk → Bytes → List ChunkRow × Bytes
  | [], payload => ([], payload)
  | k :: ks, payload =>
    let coded := encodeIndices k.indices k.size
    let idx := putSection f level payload coded.2
    let val := putSection f level idx.2 (planes 2 k.values)
    let rest := putChunks ks val.2
    (⟨k.c, k.indices.length, coded.1, idx.1, val.1⟩ :: rest.1, rest.2)

def putEntry (chunk : Nat) (p : TensorPatch) (payload : Bytes) :
    Entry × Bytes :=
  match p.body with
  | .whole values =>
    let s := putSection f level payload (values.map UInt8.ofNat)
    (⟨p.name, p.dtype, p.shape, .whole [s.1]⟩, s.2)
  | .sparse indices values =>
    let rows := putChunks f level
      (chunksOf (numel p.shape) chunk indices values) payload
    (⟨p.name, p.dtype, p.shape, .sparse values.length rows.1⟩, rows.2)

def putEntries (chunk : Nat) : List TensorPatch → Bytes → List Entry × Bytes
  | [], payload => ([], payload)
  | p :: ps, payload =>
    let e := putEntry f level chunk p payload
    let rest := putEntries chunk ps e.2
    (e.1 :: rest.1, rest.2)

/-- The header `encode_delta` dumps. -/
def wireHeader (chunk : Nat) (d : CheckpointDelta) : Header where
  format := formatVersion
  codec := "zstd"
  chunkElements := some chunk
  fromVersion := d.fromVersion
  toVersion := d.toVersion
  baseSha256 := d.baseSha256
  targetSha256 := d.targetSha256
  tensors := (putEntries f level chunk d.patches []).1

/-- `encode_delta`. -/
def encodeDelta (chunkElements : Int) (d : CheckpointDelta) :
    Except DeltaError Bytes :=
  if ¬(0 < chunkElements ∧ chunkElements ≤ u32Limit) then
    .error .chunkElements
  else
    let header := f.dumps (wireHeader f level chunkElements.toNat d)
    -- struct.pack("<Q", …) takes 64 bits
    if header.length ≥ 2 ^ 64 then .error .struct
    else
      .ok (magic ++ planes 8 [header.length] ++ header
        ++ (putEntries f level chunkElements.toNat d.patches []).2)

end Encode

-- ===== decoding

/-- `_unshuffle_into` an array of `count` numbers. -/
def unshuffle (width count : Nat) (raw : Bytes) :
    Except DeltaError (List Nat) :=
  if raw.length ≠ width * count then .error .sectionSize
  else .ok (unplanes width count raw)

/-- `_decode_indices_into` an array of `count` positions. -/
def decodeIndices (encoding : String) (raw : Bytes) (size count : Nat) :
    Except DeltaError (List Nat) :=
  if encoding = "bitmask" then
    if raw.length ≠ (size + 7) / 8 then .error .indexSection
    else if size % 8 ≠ 0 ∧ (raw.getLastD 0).toNat >>> (size % 8) ≠ 0 then
      .error .indexSection
    else
      let idx := nonzero (unpackBits raw size)
      if idx.length ≠ count then .error .indexSection else .ok idx
  else if encoding = "gaps32" then
    if raw.length ≠ 4 * count then .error .indexSection
    else do
      let gaps ← unshuffle 4 count raw
      if count ≠ 0 ∧ (gaps.drop 1).any (· == 0) then .error .indexSection
      else if count ≠ 0 ∧ (sums gaps).getLastD 0 ≥ size then
        .error .indexSection
      else .ok (sums gaps)
  else
    .error (.encoding encoding)

/-- A chunk to decode: `chunk_job`'s arguments. -/
structure Job where
  base : Nat
  size : Nat
  count : Nat
  encoding : String
  indices : SectionSpec
  values : SectionSpec

/-- The chunk table's loop: `a` positions are placed, `last` is the
last chunk's number. -/
def planChunks (chunk size count : Int) :
    Int → Int → List ChunkRow → Except DeltaError (List Job)
  | a, _, [] => if a ≠ count then .error .chunkTable else .ok []
  | a, last, row :: rows =>
    let base := row.c * chunk
    if row.c ≤ last ∨ base ≥ size ∨ row.count ≤ 0 ∨ a + row.count > count then
      .error .chunkTable
    else do
      let jobs ← planChunks chunk size count (a + row.count) row.c rows
      return ⟨base.toNat, (min chunk (size - base)).toNat, row.count.toNat,
        row.encoding, row.indices, row.values⟩ :: jobs

/-- What the table of one entry comes to. -/
inductive Built
  | whole (name dtype : String) (shape : List Nat) (section_ : SectionSpec)
  | sparse (name : String) (shape : List Nat) (jobs : List Job)

def planEntry (chunk : Int) (e : Entry) : Except DeltaError Built :=
  match e.body with
  | .whole sections =>
    match sections with
    | [] => .error (.key e.name)
    | s :: _ => .ok (.whole e.name e.dtype e.shape s)
  | .sparse count rows =>
    if e.dtype ≠ "bfloat16" then .error .entryKind
    else if ¬(0 ≤ count ∧ count ≤ numel e.shape) then .error .header
    else do
      let jobs ← planChunks chunk (numel e.shape) count 0 (-1) rows
      return .sparse e.name e.shape jobs
  | .other _ => .error .entryKind

section Decode

variable (f : Formats)

/-- `section`. -/
def readSection (payload : Bytes) (spec : SectionSpec) :
    Except DeltaError Bytes :=
  if spec.start < 0 ∨ spec.length < 0 ∨ spec.rawLength < 0
      ∨ spec.start + spec.length > payload.length then
    .error .sectionBounds
  else if spec.rawLength = 0 then .ok []
  else
    match f.decompress
        ((payload.drop spec.start.toNat).take spec.length.toNat)
        spec.rawLength.toNat with
    | none => .error .zstd
    | some raw =>
      if (raw.length : Int) ≠ spec.rawLength then .error .sectionSize
      else .ok raw

/-- `chunk_job`: the positions of a chunk, rebased, and its values. -/
def runJob (payload : Bytes) (job : Job) :
    Except DeltaError (List Nat × List Nat) := do
  let rawIdx ← readSection f payload job.indices
  let idx ← decodeIndices job.encoding rawIdx job.size job.count
  let rawVal ← readSection f payload job.values
  let vals ← unshuffle 2 job.count rawVal
  return (idx.map (· + job.base), vals)

def runEntry (payload : Bytes) : Built → Except DeltaError TensorPatch
  | .whole name dtype shape spec => do
    let raw ← readSection f payload spec
    return ⟨name, dtype, shape, .whole (raw.map UInt8.toNat)⟩
  | .sparse name shape jobs => do
    let parts ← jobs.mapM (runJob f payload)
    return ⟨name, "bfloat16", shape,
      .sparse (parts.flatMap Prod.fst) (parts.flatMap Prod.snd)⟩

/-- The header's integers are what the decoder accepts. -/
def checkHeader (h : Header) : Except DeltaError Int :=
  if h.format ≠ formatVersion ∨ h.codec ≠ "zstd" then .error .unsupported
  else
    match h.chunkElements with
    | none => .error .header
    | some chunk =>
      if ¬(0 < chunk ∧ chunk ≤ u32Limit) then .error .header else .ok chunk

/-- The delta a header and its sections hold. -/
def readDelta (h : Header) (payload : Bytes) :
    Except DeltaError CheckpointDelta := do
  let chunk ← checkHeader h
  let built ← h.tensors.mapM (planEntry chunk)
  let patches ← built.mapM (runEntry f payload)
  return { fromVersion := h.fromVersion, toVersion := h.toVersion
           baseSha256 := h.baseSha256, targetSha256 := h.targetSha256
           patches }

/-- `decode_delta`. -/
def decodeDelta (data : Bytes) : Except DeltaError CheckpointDelta :=
  if data.take 8 ≠ magic ∨ data.length < 16 then .error .notDelta
  else
    let headerLen := (unplanes 8 1 ((data.drop 8).take 8)).headD 0
    match f.loads ((data.drop 16).take headerLen) with
    | none => .error .header
    | some h => readDelta f h (data.drop (16 + headerLen))

end Decode

-- ===== one section

section Sections

variable {f : Formats} {level : Int}

theorem putSection_extends (payload raw : Bytes) :
    payload <+: (putSection f level payload raw).2 :=
  prefix_append _ _

/-- A section is read back from any file that goes on from it. -/
theorem readSection_putSection {payload raw final : Bytes}
    (h : (putSection f level payload raw).2 <+: final) :
    readSection f final (putSection f level payload raw).1 = .ok raw := by
  obtain ⟨rest, rfl⟩ := h
  unfold putSection readSection
  by_cases hraw : raw = []
  · subst hraw
    simp
  · have hlen : ¬((raw.length : Int) = 0) := by
      simpa using hraw
    rw [if_neg hraw, if_neg hlen]
    simp [f.zstd level raw hraw]

end Sections

-- ===== positions

variable {l : List Nat} {n : Nat}

/-- A strictly increasing list inside a range is the range filtered. -/
theorem filter_range_mem (hs : l.Pairwise (· < ·)) (hl : ∀ i ∈ l, i < n) :
    (List.range n).filter (fun j => l.contains j) = l := by
  have hperm : ((List.range n).filter fun j => l.contains j).Perm l := by
    rw [perm_ext_iff_of_nodup (nodup_range.filter _)
      (hs.imp fun hlt => ne_of_lt hlt)]
    intro j
    rw [mem_filter, mem_range, contains_iff_mem]
    exact ⟨fun h => h.2, fun h => ⟨hl j h, h⟩⟩
  have hrange : ((List.range n).filter fun j => l.contains j).Pairwise
      (· ≤ ·) :=
    (pairwise_lt_range.filter _).imp fun hlt => le_of_lt hlt
  have hle : l.Pairwise (· ≤ ·) := hs.imp fun hlt => le_of_lt hlt
  exact hperm.eq_of_pairwise
    (fun a b _ _ hab hba => Nat.le_antisymm hab hba) hrange hle

theorem nonzero_contains (hs : l.Pairwise (· < ·)) (hl : ∀ i ∈ l, i < n) :
    nonzero ((List.range n).map fun j => l.contains j) = l := by
  have hsame : nonzero ((List.range n).map fun j => l.contains j)
      = (List.range n).filter fun j => l.contains j := by
    unfold nonzero
    rw [length_map, length_range]
    refine filter_congr fun j hj => ?_
    rw [mem_range] at hj
    simp [List.getD, hj]
  rw [hsame, filter_range_mem hs hl]

theorem decodeIndices_encodeIndices
    (hs : l.Pairwise (· < ·)) (hl : ∀ i ∈ l, i < n) (hn : n ≤ u32Limit) :
    decodeIndices (encodeIndices l n).1 (encodeIndices l n).2 n l.length
      = .ok l := by
  have hword : ∀ i ∈ l, i < 2 ^ 32 := by
    intro i hi
    have := hl i hi
    unfold u32Limit at hn
    omega
  by_cases hdense : bitmaskDensity * l.length > n
  · unfold encodeIndices
    rw [if_pos hdense]
    unfold decodeIndices
    have hmask : ((List.range n).map fun j => l.contains j).length = n := by
      simp
    rw [if_pos rfl, if_neg (by simp [length_packBits])]
    have htail : ¬(n % 8 ≠ 0 ∧
        ((packBits ((List.range n).map fun j => l.contains j)).getLastD 0).toNat
          >>> (n % 8) ≠ 0) := by
      rintro ⟨hne, hshift⟩
      have := packBits_tail ((List.range n).map fun j => l.contains j)
        (by rwa [hmask])
      rw [hmask] at this
      exact hshift this
    have hback := unpackBits_packBits ((List.range n).map fun j => l.contains j)
    rw [hmask] at hback
    rw [if_neg htail, hback, nonzero_contains hs hl]
    simp
  · unfold encodeIndices
    rw [if_neg hdense]
    have hlen : (planes 4 (gaps l)).length = 4 * l.length := by
      rw [length_planes, gaps, length_gapsFrom]
    have hgaps : unshuffle 4 l.length (planes 4 (gaps l)) = .ok (gaps l) := by
      unfold unshuffle
      rw [if_neg (by simp [hlen])]
      have hback := unplanes_planes (gapsFrom_lt 0 l)
      rw [length_gapsFrom] at hback
      exact congrArg _ hback
    have hsums : sums (gaps l) = l := by
      refine sumsFrom_gapsFrom 0 l ?_ hword
      rw [pairwise_cons]
      exact ⟨fun i _ => Nat.zero_le i, hs.imp fun hlt => le_of_lt hlt⟩
    have hzero : ((gaps l).drop 1).any (· == 0) = false := by
      rw [any_eq_false]
      cases l with
      | nil => nofun
      | cons b l =>
        intro g hg
        have hpos := gapsFrom_pos b l hs
          (fun i hi => hword i (mem_cons_of_mem _ hi)) g hg
        simpa using hpos
    have hlast : ¬(l.length ≠ 0 ∧ l.getLastD 0 ≥ n) := by
      rintro ⟨hne, hge⟩
      have hnil : l ≠ [] := by
        intro h
        rw [h] at hne
        exact hne rfl
      have hmem := hl _ (getLast_mem hnil)
      rw [getLastD_eq_getLast?, getLast?_eq_some_getLast hnil] at hge
      simp only [Option.getD_some] at hge
      omega
    unfold decodeIndices
    rw [if_neg (show ¬"gaps32" = "bitmask" by decide), if_pos rfl,
      if_neg (by simp [hlen]), hgaps]
    show (if l.length ≠ 0 ∧ ((gaps l).drop 1).any (· == 0) then _
      else if l.length ≠ 0 ∧ (sums (gaps l)).getLastD 0 ≥ n then _ else _) = _
    rw [hzero, hsums, if_neg (by simp), if_neg hlast]

-- ===== the chunk table

/-- A chunk as the encoder cuts it from a tensor of `size` elements. -/
structure Chunk.Good (chunk size : Nat) (k : Chunk) : Prop where
  base : k.c * chunk < size
  room : k.size = min chunk (size - k.c * chunk)
  some_ : k.indices ≠ []
  each : k.values.length = k.indices.length
  sorted : k.indices.Pairwise (· < ·)
  inside : ∀ i ∈ k.indices, i < k.size
  bits : ∀ v ∈ k.values, v < 2 ^ 16

/-- The chunk's positions in the tensor. -/
def Chunk.positions (chunk : Nat) (k : Chunk) : List Nat :=
  k.indices.map (· + k.c * chunk)

/-- The job the decoder makes of a chunk written after `payload`. -/
def Chunk.job (f : Formats) (level : Int) (chunk : Nat) (payload : Bytes)
    (k : Chunk) : Job :=
  let coded := encodeIndices k.indices k.size
  let idx := putSection f level payload coded.2
  { base := k.c * chunk, size := k.size, count := k.indices.length
    encoding := coded.1, indices := idx.1
    values := (putSection f level idx.2 (planes 2 k.values)).1 }

section Chunks

variable {f : Formats} {level : Int} {chunk size : Nat}

theorem putChunks_extends (ks : List Chunk) (payload : Bytes) :
    payload <+: (putChunks f level ks payload).2 := by
  induction ks generalizing payload with
  | nil => exact prefix_refl _
  | cons k ks ih =>
    exact ((putSection_extends payload _).trans (putSection_extends _ _)).trans
      (ih _)

/-- One chunk is read back from any file that goes on from it. -/
theorem runJob_putChunk (hchunk : chunk ≤ u32Limit) {k : Chunk}
    (hk : k.Good chunk size) {payload final : Bytes}
    (h : (putSection f level (putSection f level payload
      (encodeIndices k.indices k.size).2).2 (planes 2 k.values)).2 <+: final) :
    runJob f final (k.job f level chunk payload)
      = .ok (k.positions chunk, k.values) := by
  have hroom : k.size ≤ u32Limit := by
    rw [hk.room]
    exact (Nat.min_le_left _ _).trans hchunk
  have hvals : unshuffle 2 k.indices.length (planes 2 k.values)
      = .ok k.values := by
    unfold unshuffle
    rw [if_neg (by simp [length_planes, hk.each]), ← hk.each,
      unplanes_planes fun v hv => hk.bits v hv]
  unfold runJob Chunk.job
  rw [readSection_putSection ((putSection_extends _ _).trans h)]
  show (do
    let idx ← decodeIndices (encodeIndices k.indices k.size).1
      (encodeIndices k.indices k.size).2 k.size k.indices.length
    let rawVal ← readSection f final _
    let vals ← unshuffle 2 k.indices.length rawVal
    return (idx.map (· + k.c * chunk), vals)) = _
  rw [decodeIndices_encodeIndices hk.sorted hk.inside hroom,
    readSection_putSection h]
  show (do
    let vals ← unshuffle 2 k.indices.length (planes 2 k.values)
    return (k.positions chunk, vals)) = _
  rw [hvals]
  rfl

/-- **The chunk table.** With `a` positions placed and chunk numbers
above `last` to come, the decoder accepts the rows and finds each
chunk's positions and values. -/
theorem chunks_roundTrip (hchunk : chunk ≤ u32Limit) (ks : List Chunk)
    (hgood : ∀ k ∈ ks, k.Good chunk size)
    (hc : (ks.map Chunk.c).Pairwise (· < ·)) {payload final : Bytes}
    (h : (putChunks f level ks payload).2 <+: final) {a : Nat} {last : Int}
    (hlast : ∀ k ∈ ks, last < k.c) {count : Int}
    (hcount : count = a + (ks.map fun k => k.indices.length).sum) :
    ∃ jobs, planChunks chunk size count a last
        (putChunks f level ks payload).1 = .ok jobs
      ∧ jobs.mapM (runJob f final)
        = .ok (ks.map fun k => (k.positions chunk, k.values)) := by
  induction ks generalizing payload a last with
  | nil =>
    refine ⟨[], ?_, rfl⟩
    show (if (a : Int) ≠ count then _ else _) = _
    rw [if_neg (by simpa using hcount.symm)]
  | cons k ks ih =>
    have hk := hgood k mem_cons_self
    rw [map_cons, pairwise_cons] at hc
    have hrest : ∀ k' ∈ ks, (k.c : Int) < k'.c := by
      intro k' hk'
      exact_mod_cast hc.1 k'.c (mem_map_of_mem hk')
    have hsum : count = ((a + k.indices.length : Nat) : Int)
        + (ks.map fun k => k.indices.length).sum := by
      rw [hcount, map_cons, sum_cons]
      push_cast
      ring
    obtain ⟨jobs, hjobs, hruns⟩ := ih
      (fun k' hk' => hgood k' (mem_cons_of_mem _ hk')) hc.2 h hrest hsum
    have hrun := runJob_putChunk hchunk hk ((putChunks_extends ks _).trans h)
    have hpos : 0 < k.indices.length :=
      length_pos_iff_ne_nil.2 hk.some_
    have hl := hlast k mem_cons_self
    have hbase : (k.c : Int) * chunk < size := by exact_mod_cast hk.base
    refine ⟨k.job f level chunk payload :: jobs, ?_, ?_⟩
    · show (if (k.c : Int) ≤ last ∨ (k.c : Int) * chunk ≥ size
          ∨ (k.indices.length : Int) ≤ 0
          ∨ (a : Int) + k.indices.length > count then _ else _) = _
      rw [if_neg (by omega)]
      push_cast at hjobs
      rw [hjobs]
      have hroom : (min (chunk : Int) (size - k.c * chunk)).toNat = k.size := by
        have := hk.base
        rw [hk.room]
        omega
      simp only [hroom]
      rfl
    · rw [mapM_cons, hrun, hruns]
      rfl

end Chunks

-- ===== the chunking

theorem searchsorted_cons (i : Nat) (l : List Nat) (x : Nat) :
    searchsorted (i :: l) x = if i < x then searchsorted l x + 1 else 0 := by
  unfold searchsorted
  by_cases hx : i < x
  · simp [hx]
  · simp [hx]

theorem searchsorted_mono (l : List Nat) {x y : Nat} (h : x ≤ y) :
    searchsorted l x ≤ searchsorted l y := by
  induction l with
  | nil => exact le_rfl
  | cons i l ih =>
    rw [searchsorted_cons, searchsorted_cons]
    by_cases hx : i < x
    · rw [if_pos hx, if_pos (by omega)]
      omega
    · rw [if_neg hx]
      exact Nat.zero_le _

theorem searchsorted_zero (l : List Nat) : searchsorted l 0 = 0 := by
  cases l with
  | nil => rfl
  | cons i l => rw [searchsorted_cons, if_neg (by omega)]

theorem searchsorted_all {x : Nat} (h : ∀ i ∈ l, i < x) :
    searchsorted l x = l.length := by
  induction l with
  | nil => rfl
  | cons i l ih =>
    rw [searchsorted_cons, if_pos (h i mem_cons_self),
      ih fun j hj => h j (mem_cons_of_mem _ hj), length_cons]

/-- A cut of a sorted list parts what is below from what is not. -/
theorem lt_searchsorted_iff (hs : l.Pairwise (· < ·))
    {x j i : Nat} (hj : l[j]? = some i) : j < searchsorted l x ↔ i < x := by
  induction l generalizing j with
  | nil => cases hj
  | cons b l ih =>
    obtain ⟨hb, hs'⟩ := pairwise_cons.1 hs
    rw [searchsorted_cons]
    cases j with
    | zero =>
      injection hj with hj
      subst hj
      by_cases hx : b < x
      · simp [hx]
      · simp [hx]
    | succ j =>
      by_cases hx : b < x
      · rw [if_pos hx, Nat.add_lt_add_iff_right]
        exact ih hs' hj
      · have hbi := hb i (mem_of_getElem? hj)
        rw [if_neg hx]
        constructor
        · intro h
          omega
        · intro h
          omega

/-- The positions between two cuts are those between the two bounds. -/
theorem mem_slice_searchsorted (hs : l.Pairwise (· < ·))
    {x y i : Nat} (hi : i ∈ slice (searchsorted l x) (searchsorted l y) l) :
    x ≤ i ∧ i < y := by
  obtain ⟨n, hn⟩ := mem_iff_getElem?.1 hi
  unfold slice at hn
  rw [getElem?_drop, getElem?_take] at hn
  split at hn
  next hlt =>
    refine ⟨?_, (lt_searchsorted_iff hs hn).1 hlt⟩
    by_contra hx
    have := (lt_searchsorted_iff (x := x) hs hn).2 (by omega)
    omega
  next => cases hn

section Chunking

variable {size chunk : Nat} {indices values : List Nat} {c : Nat}

/-- A chunk's base lies inside the tensor. -/
theorem base_lt (hpos : 0 < chunk)
    (hc : c < chunkCount size chunk) : c * chunk < size := by
  have hle : (c + 1) * chunk ≤ size + chunk - 1 :=
    (Nat.le_div_iff_mul_le hpos).1 hc
  rw [Nat.add_mul] at hle
  omega

/-- The bound below chunk `c`, the size for the last one. -/
theorem getD_cutPoints (hpos : 0 < chunk) (hc : c ≤ chunkCount size chunk) :
    (cutPoints size chunk).getD c 0 = min (c * chunk) size := by
  unfold cutPoints
  rw [getD_eq_getElem?_getD]
  have hceil : size ≤ chunkCount size chunk * chunk := by
    have := Nat.div_add_mod (size + chunk - 1) chunk
    have := Nat.mod_lt (size + chunk - 1) hpos
    unfold chunkCount
    rw [Nat.mul_comm]
    omega
  rcases Nat.lt_or_eq_of_le hc with hlt | rfl
  · have hbelow := base_lt hpos hlt
    rw [getElem?_append_left (by simpa using hlt), getElem?_map,
      getElem?_range hlt, Nat.min_eq_left (by omega)]
    rfl
  · rw [getElem?_append_right (by simp)]
    simp only [length_map, length_range, Nat.sub_self,
      getElem?_cons_zero, Option.getD_some]
    omega

/-- Where the patch is cut below chunk `c`. -/
def cutAt (size chunk : Nat) (indices : List Nat) (c : Nat) : Nat :=
  searchsorted indices (min (c * chunk) size)

/-- What chunk `c` holds of a list cut like the positions. -/
def partAt (size chunk : Nat) (indices : List Nat) (c : Nat) (l : List Nat) :
    List Nat :=
  slice (cutAt size chunk indices c) (cutAt size chunk indices (c + 1)) l

theorem chunkAt_eq (hpos : 0 < chunk)
    (hc : c < chunkCount size chunk) : chunkAt size chunk indices values c
      = if cutAt size chunk indices c = cutAt size chunk indices (c + 1)
        then none else some
          { c := c, size := min chunk (size - c * chunk)
            indices := (partAt size chunk indices c indices).map (· - c * chunk)
            values := partAt size chunk indices c values } := by
  have hcut : ∀ i, i ≤ chunkCount size chunk →
      ((cutPoints size chunk).map (searchsorted indices)).getD i 0
        = cutAt size chunk indices i := by
    intro i hi
    have hlt : i < (cutPoints size chunk).length := by
      simp [cutPoints]
      omega
    have hget : (cutPoints size chunk).getD i 0 = min (i * chunk) size :=
      getD_cutPoints hpos hi
    rw [getD_eq_getElem _ _ hlt] at hget
    rw [getD_eq_getElem _ _ (by simpa using hlt), getElem_map, hget]
    rfl
  unfold chunkAt
  simp only [hcut c (by omega), hcut (c + 1) (by omega)]
  rfl

theorem cutAt_mono (size chunk : Nat) (indices : List Nat) (c : Nat) :
    cutAt size chunk indices c ≤ cutAt size chunk indices (c + 1) := by
  refine searchsorted_mono _ ?_
  rw [Nat.add_mul]
  omega

theorem length_slice {α : Type} (l : List α) (a b : Nat)
    (hb : b ≤ l.length) : (slice a b l).length = b - a := by
  simp [slice, Nat.min_eq_left hb]

theorem cutAt_le (size chunk : Nat) (indices : List Nat) (c : Nat) :
    cutAt size chunk indices c ≤ indices.length :=
  (takeWhile_sublist _).length_le

/-- Every chunk the encoder cuts is good. -/
theorem good_chunkAt (hpos : 0 < chunk) (hs : indices.Pairwise (· < ·))
    (heach : values.length = indices.length) (hbits : ∀ v ∈ values, v < 2 ^ 16)
    (hc : c < chunkCount size chunk) {k : Chunk}
    (hk : chunkAt size chunk indices values c = some k) :
    k.c = c ∧ k.Good chunk size
      ∧ k.positions chunk = partAt size chunk indices c indices
      ∧ k.values = partAt size chunk indices c values := by
  rw [chunkAt_eq hpos hc] at hk
  split at hk
  next => cases hk
  next hne =>
    injection hk with hk
    subst hk
    have hbase := base_lt hpos hc
    have hmono := cutAt_mono size chunk indices c
    have hlen := length_slice indices (cutAt size chunk indices c) _
      (cutAt_le size chunk indices (c + 1))
    have hin : ∀ i ∈ partAt size chunk indices c indices,
        c * chunk ≤ i ∧ i < (c + 1) * chunk ∧ i < size := by
      intro i hi
      obtain ⟨hlo, hhi⟩ := mem_slice_searchsorted hs hi
      omega
    refine ⟨rfl, ⟨hbase, rfl, ?_, ?_, ?_, ?_, ?_⟩, ?_, rfl⟩
    · intro hnil
      rw [map_eq_nil_iff] at hnil
      rw [show slice _ _ indices = [] from hnil, length_nil] at hlen
      omega
    · rw [length_map]
      refine Eq.trans (length_slice values _ _ ?_) hlen.symm
      rw [heach]
      exact cutAt_le size chunk indices (c + 1)
    · rw [pairwise_map]
      have hsub : (partAt size chunk indices c indices).Pairwise (· < ·) :=
        hs.sublist ((drop_sublist _ _).trans (take_sublist _ _))
      refine hsub.imp_of_mem ?_
      intro i j hi hj hij
      have := hin i hi
      have := hin j hj
      omega
    · intro i hi
      obtain ⟨j, hj, rfl⟩ := mem_map.1 hi
      have := hin j hj
      rw [Nat.add_mul] at this
      show j - c * chunk < min chunk (size - c * chunk)
      omega
    · intro v hv
      exact hbits v (mem_of_mem_take (mem_of_mem_drop hv))
    · show ((partAt _ _ _ _ _).map (· - c * chunk)).map (· + c * chunk) = _
      rw [map_map]
      refine (map_congr_left fun i hi => ?_).trans (map_id _)
      have := hin i hi
      show i - c * chunk + c * chunk = i
      omega

/-- Mapping the chunks that are there, joined. -/
theorem flatMap_filterMap {α β γ : Type} (g : α → Option β)
    (h : β → List γ) (l : List α) :
    (l.filterMap g).flatMap h = l.flatMap fun x => ((g x).map h).getD [] := by
  induction l with
  | nil => rfl
  | cons x l ih =>
    cases hx : g x with
    | none => simp [hx, ih]
    | some y => simp [hx, ih]

/-- What each chunk holds of a list cut like the positions, joined, is
the list. -/
theorem flatMap_chunksOf (hpos : 0 < chunk) (hin : ∀ i ∈ indices, i < size)
    (hl : l.length = indices.length) (part : Chunk → List Nat)
    (hpart : ∀ c, c < chunkCount size chunk → ∀ k,
      chunkAt size chunk indices values c = some k →
      part k = partAt size chunk indices c l) :
    (chunksOf size chunk indices values).flatMap part = l := by
  have hends : cutAt size chunk indices (chunkCount size chunk)
      = indices.length := by
    refine searchsorted_all fun i hi => ?_
    have hceil : (cutPoints size chunk).getD (chunkCount size chunk) 0
        = min (chunkCount size chunk * chunk) size :=
      getD_cutPoints hpos le_rfl
    have hlast : (cutPoints size chunk).getD (chunkCount size chunk) 0
        = size := by
      simp [cutPoints, List.getD]
    rw [← hceil, hlast]
    exact hin i hi
  have hzero : cutAt size chunk indices 0 = 0 := by
    unfold cutAt
    rw [Nat.zero_mul, Nat.zero_min, searchsorted_zero]
  have hslices := flatMap_slices l (cutAt size chunk indices) hzero
    (chunkCount size chunk) fun c _ => cutAt_mono size chunk indices c
  rw [hends, ← hl, take_length] at hslices
  unfold chunksOf
  rw [flatMap_filterMap]
  refine Eq.trans ?_ hslices
  refine flatMap_congr fun c hc => ?_
  rw [mem_range] at hc
  cases hk : chunkAt size chunk indices values c with
  | none =>
    rw [chunkAt_eq hpos hc] at hk
    split at hk
    next heq =>
      have hempty := length_slice l (cutAt size chunk indices c) _
        (hl ▸ cutAt_le size chunk indices (c + 1))
      rw [heq, Nat.sub_self] at hempty
      rw [heq, length_eq_zero_iff.1 hempty]
      rfl
    next => cases hk
  | some k => exact hpart c hc k hk

/-- A sparse patch in chunks: all good, in order, and nothing lost. -/
theorem chunksOf_spec (hpos : 0 < chunk) (hs : indices.Pairwise (· < ·))
    (hin : ∀ i ∈ indices, i < size) (heach : values.length = indices.length)
    (hbits : ∀ v ∈ values, v < 2 ^ 16) :
    (∀ k ∈ chunksOf size chunk indices values, k.Good chunk size)
      ∧ ((chunksOf size chunk indices values).map Chunk.c).Pairwise (· < ·)
      ∧ (chunksOf size chunk indices values).flatMap (Chunk.positions chunk)
        = indices ∧ (chunksOf size chunk indices values).flatMap Chunk.values
        = values := by
  have hgood : ∀ c, c < chunkCount size chunk → ∀ k,
      chunkAt size chunk indices values c = some k → _ := fun _ hc _ hk =>
    good_chunkAt hpos hs heach hbits hc hk
  refine ⟨?_, ?_, ?_, ?_⟩
  · intro k hk
    obtain ⟨c, hc, hck⟩ := mem_filterMap.1 hk
    exact (hgood c (mem_range.1 hc) k hck).2.1
  · rw [pairwise_map]
    unfold chunksOf
    rw [pairwise_filterMap]
    refine pairwise_lt_range.imp_of_mem ?_
    intro a b ha hb hab k hk k' hk'
    rw [(hgood a (mem_range.1 ha) k hk).1, (hgood b (mem_range.1 hb) k' hk').1]
    exact hab
  · exact flatMap_chunksOf hpos hin rfl _ fun c hc k hk =>
      (hgood c hc k hk).2.2.1
  · exact flatMap_chunksOf hpos hin heach _ fun c hc k hk =>
      (hgood c hc k hk).2.2.2

end Chunking

-- ===== entries

section Entries

variable {f : Formats} {level : Int} {chunk : Nat}

theorem putEntry_extends (p : TensorPatch) (payload : Bytes) :
    payload <+: (putEntry f level chunk p payload).2 := by
  unfold putEntry
  split
  · exact putSection_extends _ _
  · exact putChunks_extends _ _

theorem putEntries_extends (ps : List TensorPatch) (payload : Bytes) :
    payload <+: (putEntries f level chunk ps payload).2 := by
  induction ps generalizing payload with
  | nil => exact prefix_refl _
  | cons p ps ih => exact (putEntry_extends p payload).trans (ih _)

/-- Bytes are read back as bytes. -/
theorem toNat_ofNat_bytes {values : List Nat} (h : ∀ v ∈ values, v < 2 ^ 8) :
    (values.map UInt8.ofNat).map UInt8.toNat = values := by
  rw [map_map]
  refine (map_congr_left fun v hv => ?_).trans (map_id _)
  have := h v hv
  show (UInt8.ofNat v).toNat = v
  rw [UInt8.toNat_ofNat', Nat.mod_eq_of_lt this]

/-- One entry is read back from any file that goes on from it. -/
theorem entry_roundTrip (hpos : 0 < chunk) (hchunk : chunk ≤ u32Limit)
    {p : TensorPatch} (hp : p.Sound) (hbf : p.SparseBf16)
    {payload final : Bytes}
    (h : (putEntry f level chunk p payload).2 <+: final) :
    ∃ b, planEntry chunk (putEntry f level chunk p payload).1 = .ok b
      ∧ runEntry f final b = .ok p := by
  obtain ⟨name, dtype, shape, body⟩ := p
  cases body with
  | whole values =>
    refine ⟨_, rfl, ?_⟩
    show (do
      let raw ← readSection f final
        (putSection f level payload (values.map UInt8.ofNat)).1
      return (⟨name, dtype, shape, .whole (raw.map UInt8.toNat)⟩
        : TensorPatch)) = _
    rw [readSection_putSection h]
    show Except.ok _ = _
    rw [toNat_ofNat_bytes hp]
  | sparse indices values =>
    obtain ⟨hs, hin, heach, hbits⟩ := hp
    obtain ⟨hgood, hc, hidx, hval⟩ :=
      chunksOf_spec hpos hs hin heach hbits
    have hcount : (values.length : Int) = ((0 : Nat) : Int)
        + ((chunksOf (numel shape) chunk indices values).map
            fun k => k.indices.length).sum := by
      have hlen := congrArg List.length hidx
      rw [length_flatMap] at hlen
      simp only [Chunk.positions, length_map] at hlen
      rw [heach, ← hlen]
      simp
    have hlast : ∀ k ∈ chunksOf (numel shape) chunk indices values,
        (-1 : Int) < k.c := by
      intro k _
      omega
    obtain ⟨jobs, hjobs, hruns⟩ :=
      chunks_roundTrip hchunk _ hgood hc h hlast hcount
    have hroom : values.length ≤ numel shape := by
      rw [heach]
      have hsub : indices.Subperm (List.range (numel shape)) := by
        refine subperm_of_subset (hs.imp fun hlt => ne_of_lt hlt) ?_
        intro i hi
        exact mem_range.2 (hin i hi)
      simpa using hsub.length_le
    refine ⟨.sparse name shape jobs, ?_, ?_⟩
    · show (if dtype ≠ "bfloat16" then _ else if ¬((0 : Int) ≤ values.length
          ∧ (values.length : Int) ≤ numel shape) then _ else _) = _
      have hd : dtype = "bfloat16" := hbf
      rw [if_neg (by simp [hd]), if_neg (by omega)]
      show (planChunks chunk (numel shape) values.length ((0 : Nat) : Int)
          (-1) (putChunks f level
            (chunksOf (numel shape) chunk indices values) payload).1
        >>= fun jobs => .ok (Built.sparse name shape jobs)) = _
      rw [hjobs]
      rfl
    · show (do
        let parts ← jobs.mapM (runJob f final)
        return (⟨name, "bfloat16", shape, .sparse (parts.flatMap Prod.fst)
          (parts.flatMap Prod.snd)⟩ : TensorPatch)) = _
      have hd : dtype = "bfloat16" := hbf
      rw [hruns]
      show Except.ok (TensorPatch.mk name "bfloat16" shape _) = _
      rw [flatMap_map, flatMap_map]
      show Except.ok (TensorPatch.mk name "bfloat16" shape
        (.sparse ((chunksOf (numel shape) chunk indices values).flatMap
          (Chunk.positions chunk))
          ((chunksOf (numel shape) chunk indices values).flatMap
            Chunk.values))) = _
      rw [hidx, hval, hd]

theorem entries_roundTrip (hpos : 0 < chunk) (hchunk : chunk ≤ u32Limit)
    (ps : List TensorPatch) (hps : ∀ p ∈ ps, p.Sound ∧ p.SparseBf16)
    {payload final : Bytes}
    (h : (putEntries f level chunk ps payload).2 <+: final) :
    ∃ bs, (putEntries f level chunk ps payload).1.mapM (planEntry chunk)
        = .ok bs ∧ bs.mapM (runEntry f final) = .ok ps := by
  induction ps generalizing payload with
  | nil => exact ⟨[], rfl, rfl⟩
  | cons p ps ih =>
    obtain ⟨hp, hbf⟩ := hps p mem_cons_self
    obtain ⟨b, hb, hrun⟩ := entry_roundTrip hpos hchunk hp hbf
      ((putEntries_extends ps _).trans h)
    obtain ⟨bs, hbs, hruns⟩ :=
      ih (fun q hq => hps q (mem_cons_of_mem _ hq)) h
    refine ⟨b :: bs, ?_, ?_⟩
    · show ((putEntry f level chunk p payload).1
        :: (putEntries f level chunk ps _).1).mapM _ = _
      rw [mapM_cons, hb, hbs]
      rfl
    · rw [mapM_cons, hrun, hruns]
      rfl

end Entries

-- ===== the file

/-- The parts of a file, found again by the decoder. -/
theorem decodeDelta_file (f : Formats) {header payload : Bytes} {h : Header}
    (hlen : header.length < 2 ^ 64) (hjson : f.loads header = some h) :
    decodeDelta f (magic ++ planes 8 [header.length] ++ header ++ payload)
      = readDelta f h payload := by
  have hword : (planes 8 [header.length]).length = 8 := rfl
  have hmagic : magic.length = 8 := rfl
  have hdrop16 : (magic ++ (planes 8 [header.length]
      ++ (header ++ payload))).drop 16 = header ++ payload := by
    rw [← append_assoc, drop_left']
    rw [length_append, hmagic, hword]
  have hread : (unplanes 8 1 (planes 8 [header.length])).headD 0
      = header.length := by
    have hback : unplanes 8 [header.length].length
        (planes 8 [header.length]) = [header.length] := by
      refine unplanes_planes fun v hv => ?_
      rw [mem_singleton.1 hv]
      exact hlen
    rw [show unplanes 8 1 (planes 8 [header.length]) = _ from hback]
    rfl
  rw [append_assoc, append_assoc]
  unfold decodeDelta
  rw [take_left' hmagic, if_neg (by simp [hmagic, hword]; omega)]
  dsimp only
  rw [drop_left' hmagic, take_left' hword, hread, hdrop16,
    take_left' rfl, hjson]
  show readDelta f h _ = _
  rw [← drop_drop, hdrop16, drop_left' rfl]

/-- What the encoder writes, when its header fits. -/
def wireBytes (f : Formats) (level : Int) (chunk : Nat)
    (d : CheckpointDelta) : Bytes :=
  magic ++ planes 8 [(f.dumps (wireHeader f level chunk d)).length]
    ++ f.dumps (wireHeader f level chunk d)
    ++ (putEntries f level chunk d.patches []).2

section File

variable {f : Formats} {level chunkElements : Int} {d : CheckpointDelta}

theorem encodeDelta_ok (hpos : 0 < chunkElements)
    (hmax : chunkElements ≤ u32Limit)
    (hlen : (f.dumps (wireHeader f level chunkElements.toNat d)).length
      < 2 ^ 64) : encodeDelta f level chunkElements d
      = .ok (wireBytes f level chunkElements.toNat d) := by
  unfold encodeDelta
  rw [if_neg (by simp [hpos, hmax])]
  exact if_neg (by omega)

theorem decodeDelta_wireBytes (hpos : 0 < chunkElements)
    (hmax : chunkElements ≤ u32Limit) (hd : d.Wf)
    (hlen : (f.dumps (wireHeader f level chunkElements.toNat d)).length
      < 2 ^ 64) :
    decodeDelta f (wireBytes f level chunkElements.toNat d) = .ok d := by
  have hcast : (chunkElements.toNat : Int) = chunkElements := by omega
  have hchunk : chunkElements.toNat ≤ u32Limit := by omega
  obtain ⟨bs, hbs, hruns⟩ := entries_roundTrip (by omega) hchunk d.patches hd
    (prefix_refl (putEntries f level chunkElements.toNat d.patches []).2)
  unfold wireBytes
  rw [decodeDelta_file f hlen (f.json _ hlen)]
  have hcheck : checkHeader (wireHeader f level chunkElements.toNat d)
      = .ok ((chunkElements.toNat : Nat) : Int) := by
    unfold checkHeader
    rw [if_neg (by simp [wireHeader])]
    show (if _ then _ else _) = _
    rw [if_neg (by omega)]
  unfold readDelta
  rw [hcheck]
  show ((wireHeader f level chunkElements.toNat d).tensors.mapM
    (planEntry (chunkElements.toNat : Int)) >>= fun built =>
      built.mapM (runEntry f _) >>= fun patches => _) = _
  have hbs' : (wireHeader f level chunkElements.toNat d).tensors.mapM
      (planEntry (chunkElements.toNat : Int)) = .ok bs := hbs
  rw [hbs']
  show (bs.mapM (runEntry f _) >>= fun patches => _) = _
  rw [hruns]
  rfl

end File

-- ===== samples

/-- No compression, and a JSON that knows some headers: a header is
written as its number. -/
def plainFormats (known : List Header) : Formats where
  compress := fun _ raw => raw
  decompress := fun packed _ => some packed
  dumps := fun h =>
    List.replicate (if h ∈ known then known.idxOf h else 2 ^ 64) 0
  loads := fun text => known[text.length]?
  zstd := fun _ _ _ => rfl
  json := by
    intro h hlen
    rw [length_replicate] at hlen ⊢
    by_cases hk : h ∈ known
    · rw [if_pos hk, getElem?_eq_getElem (idxOf_lt_length_iff.2 hk),
        getElem_idxOf]
    · rw [if_neg hk] at hlen
      omega

/-- A matrix with changes in three chunks of five, sparse and dense
ones, and a tensor of bytes. -/
def chunkedDelta : CheckpointDelta where
  fromVersion := 3
  toVersion := 4
  baseSha256 := "base"
  targetSha256 := "target"
  patches :=
    [ ⟨"w", "bfloat16", [3, 4],
        .sparse [0, 6, 7, 8, 11] [65535, 1, 256, 513, 7]⟩,
      ⟨"z", "uint8", [2], .whole [255, 0]⟩ ]

def chunkedHeader : Header where
  format := 2
  codec := "zstd"
  chunkElements := some 5
  fromVersion := 3
  toVersion := 4
  baseSha256 := "base"
  targetSha256 := "target"
  tensors :=
    [ ⟨"w", "bfloat16", [3, 4], .sparse 5
        [ ⟨0, 1, "gaps32", ⟨0, 4, 4⟩, ⟨4, 2, 2⟩⟩,
          ⟨1, 3, "bitmask", ⟨6, 1, 1⟩, ⟨7, 6, 6⟩⟩,
          ⟨2, 1, "bitmask", ⟨13, 1, 1⟩, ⟨14, 2, 2⟩⟩ ]⟩,
      ⟨"z", "uint8", [2], .whole [⟨16, 2, 2⟩]⟩ ]

/-- A sparse patch of a 16-bit dtype that is not bf16. -/
def halfDelta : CheckpointDelta where
  fromVersion := 0
  toVersion := 1
  baseSha256 := "base"
  targetSha256 := "target"
  patches := [⟨"w", "float16", [4], .sparse [1] [15360]⟩]

def halfHeader : Header where
  format := 2
  codec := "zstd"
  chunkElements := some 16777216
  fromVersion := 0
  toVersion := 1
  baseSha256 := "base"
  targetSha256 := "target"
  tensors :=
    [ ⟨"w", "float16", [4],
        .sparse 1 [⟨0, 1, "bitmask", ⟨0, 1, 1⟩, ⟨1, 2, 2⟩⟩]⟩ ]

end Reliquary.Ckpt
