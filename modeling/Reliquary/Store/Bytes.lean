/-
Byte-level encodings of number lists, each with its inverse.

- `planes w`: the little-endian bytes of `w`-byte numbers, grouped by
  significance (all first bytes, then all second bytes, …). One number
  is the ordinary little-endian word.
- `packBits`: flags, eight to a byte, the first in the lowest bit.
- `gaps`: an increasing list as its first element and differences, in
  32-bit words; `sums` undoes it.
- `slices`: a list cut at increasing positions.

Everything is over lists of naturals and `UInt8`; the bounds under
which an encoding is lossless are hypotheses of its inversion lemma.
-/
import Mathlib

namespace Reliquary.Store

open List Option

abbrev Bytes := List UInt8

-- ===== byte planes

/-- The byte of significance `k`. -/
def byteOf (k v : Nat) : UInt8 := UInt8.ofNat (v / 256 ^ k)

theorem toNat_byteOf (k v : Nat) : (byteOf k v).toNat = v / 256 ^ k % 256 := by
  simp [byteOf]

/-- The byte planes of `width`-byte numbers. -/
def planes (width : Nat) (vals : List Nat) : Bytes :=
  (List.range width).flatMap fun k => vals.map (byteOf k)

/-- Numbers from the bytes of each significance. -/
def digitsSum (width : Nat) (digit : Nat → Nat) : Nat :=
  ((List.range width).map fun k => digit k * 256 ^ k).sum

/-- Numbers read back from `width` planes of `count` bytes. -/
def unplanes (width count : Nat) (raw : Bytes) : List Nat :=
  (List.range count).map fun i =>
    digitsSum width fun k => (raw.getD (k * count + i) 0).toNat

theorem length_planes (width : Nat) (vals : List Nat) :
    (planes width vals).length = width * vals.length := by
  simp [planes]

variable {α : Type}

/-- An element of equally long blocks. -/
theorem getElem?_blocks (f : Nat → List α) {n : Nat}
    (hf : ∀ k, (f k).length = n) (w : Nat) {k i : Nat} (hk : k < w)
    (hi : i < n) : ((List.range w).flatMap f)[k * n + i]? = (f k)[i]? := by
  induction w with
  | zero => omega
  | succ w ih =>
    have hlen : ((List.range w).flatMap f).length = w * n := by
      simp [hf]
    rw [range_succ, flatMap_append, flatMap_singleton]
    rcases Nat.lt_succ_iff_lt_or_eq.1 hk with hlt | rfl
    · have hpos : k * n + i < w * n := by nlinarith
      rw [getElem?_append_left (by omega), ih hlt]
    · rw [getElem?_append_right (by omega)]
      congr 1
      omega

/-- The digits of a number sum to it. -/
theorem digitsSum_digits (width v : Nat) :
    digitsSum width (fun k => v / 256 ^ k % 256) = v % 256 ^ width := by
  unfold digitsSum
  induction width with
  | zero => simp [Nat.mod_one]
  | succ w ih =>
    rw [range_succ, map_append, sum_append, ih]
    simp only [map_cons, map_nil, sum_cons, sum_nil]
    rw [Nat.mod_pow_succ, Nat.mul_comm (256 ^ w)]
    omega

theorem digitsSum_congr {width : Nat} {f g : Nat → Nat}
    (h : ∀ k, k < width → f k = g k) :
    digitsSum width f = digitsSum width g := by
  unfold digitsSum
  congr 1
  refine map_congr_left fun k hk => ?_
  rw [h k (mem_range.1 hk)]

theorem unplanes_planes {width : Nat} {vals : List Nat}
    (h : ∀ v ∈ vals, v < 256 ^ width) :
    unplanes width vals.length (planes width vals) = vals := by
  unfold unplanes
  apply ext_getElem
  · simp
  · intro i hi hi'
    rw [getElem_map, getElem_range]
    have hdigit : ∀ k, k < width →
        ((planes width vals).getD (k * vals.length + i) 0).toNat
          = vals[i] / 256 ^ k % 256 := by
      intro k hk
      rw [getD_eq_getElem?_getD, planes,
        getElem?_blocks _ (fun k => length_map _) width hk hi',
        getElem?_map, getElem?_eq_getElem hi']
      exact toNat_byteOf k vals[i]
    rw [digitsSum_congr hdigit, digitsSum_digits,
      Nat.mod_eq_of_lt (h _ (getElem_mem hi'))]

-- ===== bits

/-- Flags packed eight to a byte, lowest bit first. -/
def packBits (mask : List Bool) : Bytes :=
  (List.range ((mask.length + 7) / 8)).map fun i =>
    UInt8.ofNat (Nat.ofBits fun k : Fin 8 => mask.getD (8 * i + k) false)

/-- The first `count` flags of packed bytes. -/
def unpackBits (packed : Bytes) (count : Nat) : List Bool :=
  (List.range count).map fun j => (packed.getD (j / 8) 0).toNat.testBit (j % 8)

theorem length_packBits (mask : List Bool) :
    (packBits mask).length = (mask.length + 7) / 8 := by
  simp [packBits]

/-- The byte at a place of packed flags, bit by bit. -/
theorem testBit_packBits (mask : List Bool) {i k : Nat}
    (hi : i < (mask.length + 7) / 8) :
    ((packBits mask).getD i 0).toNat.testBit k
      = (decide (k < 8) && mask.getD (8 * i + k) false) := by
  rw [getD_eq_getElem?_getD, packBits, getElem?_map,
    getElem?_range hi, map_some, getD_some,
    UInt8.toNat_ofNat', Nat.mod_eq_of_lt (Nat.ofBits_lt_two_pow _)]
  by_cases hk : k < 8
  · simp [hk]
  · rw [Nat.testBit_ofBits_ge _ _ (by omega)]
    simp [hk]

theorem unpackBits_packBits (mask : List Bool) :
    unpackBits (packBits mask) mask.length = mask := by
  unfold unpackBits
  apply ext_getElem
  · simp
  · intro j hj hj'
    have hi : j / 8 < (mask.length + 7) / 8 := by omega
    have hpos : 8 * (j / 8) + j % 8 = j := Nat.div_add_mod j 8
    rw [getElem_map, getElem_range, testBit_packBits mask hi, hpos]
    have hlt : j % 8 < 8 := Nat.mod_lt _ (by omega)
    simp [hlt, List.getD, hj']

/-- The last byte of packed flags has nothing above the last flag. -/
theorem packBits_tail (mask : List Bool) (h : mask.length % 8 ≠ 0) :
    ((packBits mask).getLastD 0).toNat >>> (mask.length % 8) = 0 := by
  have hn : 0 < (mask.length + 7) / 8 := by omega
  have hne : packBits mask ≠ [] := by
    rw [← length_pos_iff_ne_nil, length_packBits]
    exact hn
  have hlast : (packBits mask).getLastD 0
      = (packBits mask).getD ((mask.length + 7) / 8 - 1) 0 := by
    rw [getLastD_eq_getLast?, getLast?_eq_getElem?,
      length_packBits, getD_eq_getElem?_getD]
  apply Nat.eq_of_testBit_eq
  intro k
  rw [hlast, Nat.testBit_shiftRight, testBit_packBits mask (by omega),
    Nat.zero_testBit]
  have hout : mask.length ≤ 8 * ((mask.length + 7) / 8 - 1)
      + (mask.length % 8 + k) := by omega
  rw [getD_eq_default _ _ hout]
  simp

-- ===== gaps

/-- The differences of neighbours as unsigned 32-bit words. -/
def gapsFrom (a : Nat) : List Nat → List Nat
  | [] => []
  | b :: l => (((b : Int) - a) % 2 ^ 32).toNat :: gapsFrom b l

/-- The first element, then the differences. -/
def gaps (l : List Nat) : List Nat := gapsFrom 0 l

/-- Running sums. -/
def sumsFrom (a : Nat) : List Nat → List Nat
  | [] => []
  | g :: l => (a + g) :: sumsFrom (a + g) l

def sums (l : List Nat) : List Nat := sumsFrom 0 l

theorem length_gapsFrom (a : Nat) (l : List Nat) :
    (gapsFrom a l).length = l.length := by
  induction l generalizing a with
  | nil => rfl
  | cons b l ih => rw [gapsFrom, length_cons, ih, length_cons]

theorem gapsFrom_lt (a : Nat) (l : List Nat) :
    ∀ g ∈ gapsFrom a l, g < 256 ^ 4 := by
  induction l generalizing a with
  | nil => nofun
  | cons b l ih =>
    intro g hg
    rcases mem_cons.1 hg with rfl | hg
    · omega
    · exact ih b g hg

theorem sumsFrom_gapsFrom (a : Nat) (l : List Nat)
    (hs : (a :: l).Pairwise (· ≤ ·)) (hl : ∀ b ∈ l, b < 2 ^ 32) :
    sumsFrom a (gapsFrom a l) = l := by
  induction l generalizing a with
  | nil => rfl
  | cons b l ih =>
    obtain ⟨ha, hs'⟩ := pairwise_cons.1 hs
    have hab : a ≤ b := ha b mem_cons_self
    have hb : b < 2 ^ 32 := hl b mem_cons_self
    have hsum : a + (((b : Int) - a) % 2 ^ 32).toNat = b := by
      omega
    rw [gapsFrom, sumsFrom, hsum,
      ih b hs' fun c hc => hl c (mem_cons_of_mem _ hc)]

/-- The gaps of a strictly increasing list are positive. -/
theorem gapsFrom_pos (a : Nat) (l : List Nat) (hs : (a :: l).Pairwise (· < ·))
    (hl : ∀ b ∈ l, b < 2 ^ 32) : ∀ g ∈ gapsFrom a l, g ≠ 0 := by
  induction l generalizing a with
  | nil => nofun
  | cons b l ih =>
    obtain ⟨ha, hs'⟩ := pairwise_cons.1 hs
    have hab : a < b := ha b mem_cons_self
    have hb : b < 2 ^ 32 := hl b mem_cons_self
    intro g hg
    rcases mem_cons.1 hg with rfl | hg
    · omega
    · exact ih b hs' (fun c hc => hl c (mem_cons_of_mem _ hc)) g hg

-- ===== slices

/-- `l[a:b]`. -/
def slice {α : Type} (a b : Nat) (l : List α) : List α := (l.take b).drop a

/-- Consecutive slices join. -/
theorem take_append_slice (l : List α) {a b : Nat} (h : a ≤ b) :
    l.take a ++ slice a b l = l.take b := by
  have hsplit := take_append_drop a (l.take b)
  rw [take_take, Nat.min_eq_left h] at hsplit
  exact hsplit

/-- The slices between increasing cuts make up the list. -/
theorem flatMap_slices (l : List α) (cut : Nat → Nat)
    (h0 : cut 0 = 0) (n : Nat) (hmono : ∀ i, i < n → cut i ≤ cut (i + 1)) :
    (List.range n).flatMap (fun i => slice (cut i) (cut (i + 1)) l)
      = l.take (cut n) := by
  induction n with
  | zero => simp [h0]
  | succ n ih =>
    rw [range_succ, flatMap_append, flatMap_singleton,
      ih fun i hi => hmono i (by omega)]
    exact take_append_slice l (hmono n (by omega))

end Reliquary.Store
