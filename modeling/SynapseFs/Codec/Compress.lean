import Mathlib.Data.Nat.Bitwise
import SynapseFs.Core.Error
import SynapseFs.Lib.Bytes

/-! Frames: compression, and the byte transforms in front of it.

zstd is not part of the tree, so it is a parameter (`Zstd`). The transforms keep
the length of their input and copy a trailing part that does not fill an element
or a group of eight elements. -/
namespace SynapseFs.Codec
open Lib Core

structure CompressOptions where
  level : Int
  checksum : Bool
  deriving DecidableEq, Repr

/-- `ZSTD_compress2` and `ZSTD_decompress` on whole frames; a failure is its name. -/
structure Zstd where
  compress : CompressOptions → Bytes → Except String Bytes
  /-- The second argument is the capacity of the destination. -/
  decompress : Bytes → Nat → Except String Bytes

/-- A frame that was written decompresses into a buffer of its length. -/
def Zstd.Lossless (z : Zstd) : Prop :=
  ∀ opts src, ∃ frame, z.compress opts src = .ok frame ∧ z.decompress frame src.length = .ok src

def compressFrame (z : Zstd) (src : Bytes) (opts : CompressOptions) : Outcome Bytes :=
  match z.compress opts src with
  | .ok out => .ok out
  | .error name => sfsErr .internal "zstd compress failed" name

/-- The result and what is in the destination. -/
def decompressFrame (z : Zstd) (src dst : Bytes) : Outcome (Nat × Bytes) :=
  match z.decompress src dst.length with
  | .ok data => .ok (data.length, filled data dst)
  | .error name => sfsErr .malformedObject "zstd decompress failed" name

/-- A frame that fills its destination. -/
theorem decompressFrame_eq {z : Zstd} {src dst data : Bytes} (h : z.decompress src dst.length = .ok data)
    (hlen : data.length = dst.length) : decompressFrame z src dst = .ok (dst.length, data) := by
  unfold decompressFrame
  rw [h]
  dsimp only
  rw [filled_of_length_eq hlen, hlen]

def wholeElems (totalBytes elemBytes : Nat) : Nat := if elemBytes = 0 then 0 else totalBytes / elemBytes

/-! ### Byte planes -/

def byteplaneSplit (src : Bytes) (elemBytes : Nat) : Bytes :=
  if elemBytes ≤ 1 then src
  else
    let n := wholeElems src.length elemBytes
    grid elemBytes n (fun plane i => src.getD (i * elemBytes + plane) 0) ++ src.drop (elemBytes * n)

/-- The destination is as long as the source. -/
def byteplaneJoin (src : Bytes) (elemBytes : Nat) : Bytes :=
  if elemBytes ≤ 1 then src
  else
    let n := wholeElems src.length elemBytes
    grid n elemBytes (fun i plane => src.getD (plane * n + i) 0) ++ src.drop (elemBytes * n)

/-! ### Bit planes -/

/-- The byte with the given bits, the lowest first. -/
def packBits (bit : Nat → Bool) : UInt8 := UInt8.ofNat (Nat.ofBits fun k : Fin 8 => bit k)

def bitAt (b : UInt8) (k : Nat) : Bool := b.toNat.testBit k

def bitshuffle (src : Bytes) (elemBytes : Nat) : Bytes :=
  if elemBytes = 0 then src
  else
    let bytesPerPlane := wholeElems src.length elemBytes / 8
    grid (elemBytes * 8) bytesPerPlane (fun bit g =>
      packBits fun k => bitAt (src.getD ((g * 8 + k) * elemBytes + bit / 8) 0) (bit % 8)) ++
      src.drop (elemBytes * 8 * bytesPerPlane)

/-- The destination is as long as the source. -/
def bitunshuffle (src : Bytes) (elemBytes : Nat) : Bytes :=
  if elemBytes = 0 then src
  else
    let bytesPerPlane := wholeElems src.length elemBytes / 8
    grid (bytesPerPlane * 8) elemBytes (fun i byteInElem =>
      packBits fun q => bitAt (src.getD ((byteInElem * 8 + q) * bytesPerPlane + i / 8) 0) (i % 8)) ++
      src.drop (elemBytes * 8 * bytesPerPlane)

/-! ### Round trips -/

theorem getD_append_of_getElem? {a b : Bytes} {j : Nat} {x : UInt8} (h : a[j]? = some x) : (a ++ b).getD j 0 = x := by
  obtain ⟨hj, -⟩ := List.getElem?_eq_some_iff.mp h
  rw [List.getD_eq_getElem?_getD, List.getElem?_append_left hj, h]
  rfl

/-- A transform that rearranges a prefix and copies the rest. -/
theorem drop_append_drop (a src : Bytes) {n : Nat} (ha : a.length = n) : (a ++ src.drop n).drop n = src.drop n := by
  rw [← ha, List.drop_left]

theorem length_append_drop (a src : Bytes) {n : Nat} (ha : a.length = n) (hn : n ≤ src.length) :
    (a ++ src.drop n).length = src.length := by
  rw [List.length_append, List.length_drop, ha]
  omega

theorem elems_le (total elemBytes : Nat) : elemBytes * wholeElems total elemBytes ≤ total := by
  unfold wholeElems
  split
  · omega
  · exact Nat.mul_div_le total elemBytes

theorem planes_le (total elemBytes : Nat) : elemBytes * 8 * (wholeElems total elemBytes / 8) ≤ total := by
  rw [Nat.mul_assoc]
  exact (Nat.mul_le_mul_left _ (Nat.mul_div_le _ 8)).trans (elems_le total elemBytes)

theorem length_byteplaneSplit (src : Bytes) (elemBytes : Nat) : (byteplaneSplit src elemBytes).length = src.length := by
  unfold byteplaneSplit
  split
  · rfl
  · exact length_append_drop _ _ (length_grid _ _ _) (elems_le _ _)

theorem length_byteplaneJoin (src : Bytes) (elemBytes : Nat) : (byteplaneJoin src elemBytes).length = src.length := by
  unfold byteplaneJoin
  split
  · rfl
  · exact length_append_drop _ _ ((length_grid _ _ _).trans (Nat.mul_comm _ _)) (elems_le _ _)

theorem byteplaneJoin_split (src : Bytes) (elemBytes : Nat) :
    byteplaneJoin (byteplaneSplit src elemBytes) elemBytes = src := by
  have hlen := length_byteplaneSplit src elemBytes
  unfold byteplaneJoin
  dsimp only
  rw [hlen]
  unfold byteplaneSplit
  by_cases h : elemBytes ≤ 1
  · rw [if_pos h, if_pos h]
  · rw [if_neg h, if_neg h]
    have hle := elems_le src.length elemBytes
    dsimp only
    generalize wholeElems src.length elemBytes = n at hle ⊢
    have hback : ∀ i < n, ∀ plane < elemBytes,
        (grid elemBytes n (fun plane i => src.getD (i * elemBytes + plane) 0) ++ src.drop (elemBytes * n)).getD
          (plane * n + i) 0 = src.getD (i * elemBytes + plane) 0 := fun i hi plane hp =>
      getD_append_of_getElem? (getElem?_grid _ hp hi)
    rw [grid_congr hback, drop_append_drop _ _ (length_grid _ _ _), grid_getD _ _ _ _ (by rw [Nat.mul_comm]; exact hle),
      Nat.mul_comm n, List.take_append_drop]

theorem bitAt_packBits (bit : Nat → Bool) {k : Nat} (hk : k < 8) : bitAt (packBits bit) k = bit k := by
  have hlt : (Nat.ofBits fun k : Fin 8 => bit k) < 256 := Nat.ofBits_lt_two_pow _
  rw [bitAt, packBits, UInt8.toNat_ofNat', Nat.mod_eq_of_lt hlt, Nat.testBit_ofBits_lt _ k hk]

theorem bitAt_ext {a b : UInt8} (h : ∀ k < 8, bitAt a k = bitAt b k) : a = b := by
  refine UInt8.toNat_inj.mp (Nat.eq_of_testBit_eq fun k => ?_)
  by_cases hk : k < 8
  · exact h k hk
  · have hpow : 2 ^ 8 ≤ 2 ^ k := Nat.pow_le_pow_right (by decide) (by omega)
    rw [Nat.testBit_lt_two_pow (a.toNat_lt.trans_le hpow), Nat.testBit_lt_two_pow (b.toNat_lt.trans_le hpow)]

theorem length_bitshuffle (src : Bytes) (elemBytes : Nat) : (bitshuffle src elemBytes).length = src.length := by
  unfold bitshuffle
  split
  · rfl
  · exact length_append_drop _ _ (length_grid _ _ _) (planes_le _ _)

theorem length_bitunshuffle (src : Bytes) (elemBytes : Nat) : (bitunshuffle src elemBytes).length = src.length := by
  unfold bitunshuffle
  split
  · rfl
  · refine length_append_drop _ _ ((length_grid _ _ _).trans ?_) (planes_le _ _)
    ring

theorem bitunshuffle_shuffle (src : Bytes) (elemBytes : Nat) :
    bitunshuffle (bitshuffle src elemBytes) elemBytes = src := by
  have hlen := length_bitshuffle src elemBytes
  unfold bitunshuffle
  dsimp only
  rw [hlen]
  unfold bitshuffle
  by_cases h : elemBytes = 0
  · rw [if_pos h, if_pos h]
  · rw [if_neg h, if_neg h]
    have hle := planes_le src.length elemBytes
    dsimp only
    generalize wholeElems src.length elemBytes / 8 = m at hle ⊢
    -- Bit `q` of byte `p` of element `i` sits in plane `8p + q`, byte `i / 8`, bit `i % 8`.
    have hback : ∀ i < m * 8, ∀ p < elemBytes, packBits (fun q => bitAt
        ((grid (elemBytes * 8) m (fun bit g => packBits fun k =>
          bitAt (src.getD ((g * 8 + k) * elemBytes + bit / 8) 0) (bit % 8)) ++ src.drop (elemBytes * 8 * m)).getD
            ((p * 8 + q) * m + i / 8) 0) (i % 8)) = src.getD (i * elemBytes + p) 0 := by
      intro i hi p hp
      refine bitAt_ext fun q hq => ?_
      rw [bitAt_packBits _ hq, getD_append_of_getElem? (getElem?_grid _ (by omega) (by omega)),
        bitAt_packBits _ (Nat.mod_lt i (by decide)), Nat.div_add_mod' i 8]
      rw [show (p * 8 + q) / 8 = p by omega, show (p * 8 + q) % 8 = q by omega]
    have htot : m * 8 * elemBytes = elemBytes * 8 * m := by ring
    rw [grid_congr hback, drop_append_drop _ _ (length_grid _ _ _), grid_getD _ _ _ _ (by rw [htot]; exact hle), htot,
      List.take_append_drop]

end SynapseFs.Codec
