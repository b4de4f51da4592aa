import SynapseFs.Core.Oid

/-! The loose-object container: a 40-byte header, one digest per chunk, the payload.

The container is local storage detail; the address of an object is the hash of
its frame (`Core.computeOid`) and never of these bytes. The header's fields are
whatever the file says: `kind` and `compression` are bytes that need not name an
enumerator, `chunkLog2` need not be a shift amount, and the two lengths need not
describe the file. -/
namespace SynapseFs.Format
open Lib Core

structure ObjectHeader where
  kind : UInt8
  compression : UInt8
  chunkLog2 : Nat
  payloadLen : Nat
  storedLen : Nat
  chunkCount : Nat
  deriving DecidableEq, Repr

namespace ObjectHeader

def kSize : Nat := 40

/-- `"SFSOBJ" 0 1`. -/
def kMagic : Bytes := [0x53, 0x46, 0x53, 0x4f, 0x42, 0x4a, 0, 1]

/-- Where the payload starts. The count is 32 bits wide, so nothing wraps. -/
def payloadOffset (h : ObjectHeader) : Nat := kSize + h.chunkCount * kOidBytes

def encode (h : ObjectHeader) : Bytes :=
  kMagic ++ [h.kind] ++ [h.compression] ++ storeLe 4 h.chunkLog2 ++ storeLe 8 h.payloadLen ++
    storeLe 8 h.storedLen ++ storeLe 4 h.chunkCount ++ List.replicate 6 0

def decode (b : Bytes) : Outcome ObjectHeader :=
  if b.length < kSize then sfsErr .malformedObject "loose object header truncated" ""
  else if slice b 0 8 ≠ kMagic then sfsErr .malformedObject "bad loose object magic" ""
  else .ok
    { kind := b.getD 8 0
      compression := b.getD 9 0
      chunkLog2 := loadLe (slice b 10 4)
      payloadLen := loadLe (slice b 14 8)
      storedLen := loadLe (slice b 22 8)
      chunkCount := loadLe (slice b 30 4) }

/-- The widths of the fields. -/
def Fits (h : ObjectHeader) : Prop :=
  h.chunkLog2 < 2 ^ 32 ∧ h.payloadLen < 2 ^ 64 ∧ h.storedLen < 2 ^ 64 ∧ h.chunkCount < 2 ^ 32

theorem length_encode (h : ObjectHeader) : h.encode.length = kSize := by
  simp [encode, kMagic, kSize]

/-- Only the first forty bytes are looked at. -/
theorem decode_take {b : Bytes} {h : ObjectHeader} (hd : decode b = .ok h) : decode (b.take kSize) = .ok h := by
  unfold decode at hd ⊢
  by_cases hl : b.length < kSize
  · rw [if_pos hl] at hd
    exact absurd hd sfsErr_ne_ok
  · rw [if_neg hl] at hd
    have hlen : ¬ (b.take kSize).length < kSize := by
      rw [List.length_take]
      omega
    have hs : ∀ off len, off + len ≤ kSize → slice (b.take kSize) off len = slice b off len := by
      intro off len h
      conv_rhs => rw [← List.take_append_drop kSize b]
      rw [slice_append_left _ _ _ _ (by rw [List.length_take]; omega)]
    have hg : ∀ i, i < kSize → (b.take kSize).getD i 0 = b.getD i 0 := by
      intro i hi
      simp [List.getD_eq_getElem?_getD, List.getElem?_take_of_lt hi]
    rw [if_neg hlen, hs 0 8 (by decide), hs 10 4 (by decide), hs 14 8 (by decide), hs 22 8 (by decide),
      hs 30 4 (by decide), hg 8 (by decide), hg 9 (by decide)]
    exact hd

theorem decode_bounds {b : Bytes} {h : ObjectHeader} (hd : decode b = .ok h) :
    kSize ≤ b.length ∧ h.payloadLen < 2 ^ 64 ∧ h.chunkCount < 2 ^ 32 := by
  unfold decode at hd
  split at hd
  · exact absurd hd sfsErr_ne_ok
  · split at hd
    · exact absurd hd sfsErr_ne_ok
    · next hl _ =>
      cases hd
      have hb : ∀ off len, off + len ≤ kSize → loadLe (slice b off len) < 256 ^ len := by
        intro off len h
        have := loadLe_lt (slice b off len)
        rwa [length_slice, Nat.min_eq_left (by omega)] at this
      exact ⟨by omega, hb 14 8 (by decide), hb 30 4 (by decide)⟩

/-- Decoding undoes encoding, for fields that fit their widths. -/
theorem decode_encode (h : ObjectHeader) (rest : Bytes) (hl : h.chunkLog2 < 2 ^ 32) (hp : h.payloadLen < 2 ^ 64)
    (hs : h.storedLen < 2 ^ 64) (hc : h.chunkCount < 2 ^ 32) : decode (h.encode ++ rest) = .ok h := by
  obtain ⟨kind, compression, chunkLog2, payloadLen, storedLen, chunkCount⟩ := h
  -- Each field sits behind the fields before it; the lengths of those are its offset.
  have h0 : slice (encode ⟨kind, compression, chunkLog2, payloadLen, storedLen, chunkCount⟩ ++ rest) 0 8 = kMagic := by
    simp only [encode, List.append_assoc]
    exact slice_middle [] kMagic _ rfl rfl
  have h10 : slice (encode ⟨kind, compression, chunkLog2, payloadLen, storedLen, chunkCount⟩ ++ rest) 10 4 =
      storeLe 4 chunkLog2 := by
    rw [show encode ⟨kind, compression, chunkLog2, payloadLen, storedLen, chunkCount⟩ ++ rest =
      (kMagic ++ [kind] ++ [compression]) ++ (storeLe 4 chunkLog2 ++ (storeLe 8 payloadLen ++ (storeLe 8 storedLen ++
        (storeLe 4 chunkCount ++ (List.replicate 6 0 ++ rest))))) by simp only [encode, List.append_assoc]]
    exact slice_middle _ _ _ rfl (by simp)
  have h14 : slice (encode ⟨kind, compression, chunkLog2, payloadLen, storedLen, chunkCount⟩ ++ rest) 14 8 =
      storeLe 8 payloadLen := by
    rw [show encode ⟨kind, compression, chunkLog2, payloadLen, storedLen, chunkCount⟩ ++ rest =
      (kMagic ++ [kind] ++ [compression] ++ storeLe 4 chunkLog2) ++ (storeLe 8 payloadLen ++ (storeLe 8 storedLen ++
        (storeLe 4 chunkCount ++ (List.replicate 6 0 ++ rest)))) by simp only [encode, List.append_assoc]]
    exact slice_middle _ _ _ (by simp [kMagic]) (by simp)
  have h22 : slice (encode ⟨kind, compression, chunkLog2, payloadLen, storedLen, chunkCount⟩ ++ rest) 22 8 =
      storeLe 8 storedLen := by
    rw [show encode ⟨kind, compression, chunkLog2, payloadLen, storedLen, chunkCount⟩ ++ rest =
      (kMagic ++ [kind] ++ [compression] ++ storeLe 4 chunkLog2 ++ storeLe 8 payloadLen) ++ (storeLe 8 storedLen ++
        (storeLe 4 chunkCount ++ (List.replicate 6 0 ++ rest))) by simp only [encode, List.append_assoc]]
    exact slice_middle _ _ _ (by simp [kMagic]) (by simp)
  have h30 : slice (encode ⟨kind, compression, chunkLog2, payloadLen, storedLen, chunkCount⟩ ++ rest) 30 4 =
      storeLe 4 chunkCount := by
    rw [show encode ⟨kind, compression, chunkLog2, payloadLen, storedLen, chunkCount⟩ ++ rest =
      (kMagic ++ [kind] ++ [compression] ++ storeLe 4 chunkLog2 ++ storeLe 8 payloadLen ++ storeLe 8 storedLen) ++
        (storeLe 4 chunkCount ++ (List.replicate 6 0 ++ rest)) by simp only [encode, List.append_assoc]]
    exact slice_middle _ _ _ (by simp [kMagic]) (by simp)
  unfold decode
  rw [if_neg (by rw [List.length_append, length_encode]; omega), if_neg (by rw [h0]; exact not_not.mpr rfl), h10, h14,
    h22, h30, loadLe_storeLe_of_lt hl, loadLe_storeLe_of_lt hp, loadLe_storeLe_of_lt hs, loadLe_storeLe_of_lt hc]
  rfl

end ObjectHeader

/-! ### Chunks -/

/-- Chunk `i` of a payload, short at the end. -/
def chunk (payload : Bytes) (chunkBytes i : Nat) : Bytes := slice payload (i * chunkBytes) chunkBytes

/-- `ceil_div`. -/
def chunkTotal (len chunkBytes : Nat) : Nat := (len + chunkBytes - 1) / chunkBytes

def computeChunkDigests (blake3 : Bytes → Oid) (payload : Bytes) (chunkBytes : Nat) : Bytes :=
  if payload = [] then [] else
    (List.range (chunkTotal payload.length chunkBytes)).flatMap fun i => digest blake3 (chunk payload chunkBytes i)

theorem lt_chunkTotal {len chunkBytes : Nat} (hc : 0 < chunkBytes) (i : Nat) :
    i < chunkTotal len chunkBytes ↔ i * chunkBytes < len := by
  rw [chunkTotal, Nat.lt_iff_add_one_le, Nat.le_div_iff_mul_le hc, Nat.succ_mul]
  omega

/-- One digest a chunk, also of a payload without chunks. -/
theorem computeChunkDigests_eq (blake3 : Bytes → Oid) (payload : Bytes) {chunkBytes : Nat} (hc : 0 < chunkBytes) :
    computeChunkDigests blake3 payload chunkBytes =
      (List.range (chunkTotal payload.length chunkBytes)).flatMap fun i => digest blake3 (chunk payload chunkBytes i) := by
  unfold computeChunkDigests
  by_cases h : payload = []
  · have hzero : chunkTotal payload.length chunkBytes = 0 := by
      rw [h, chunkTotal]
      exact Nat.div_eq_of_lt (by rw [List.length_nil]; omega)
    rw [if_pos h, hzero]
    rfl
  · rw [if_neg h]

theorem length_computeChunkDigests (blake3 : Bytes → Oid) (payload : Bytes) {chunkBytes : Nat} (hc : 0 < chunkBytes) :
    (computeChunkDigests blake3 payload chunkBytes).length = chunkTotal payload.length chunkBytes * kOidBytes := by
  rw [computeChunkDigests_eq blake3 payload hc, length_flatMap_const _ _ fun _ _ => length_digest _ _,
    List.length_range]

/-- Row `i` of the table is the digest of chunk `i`. -/
theorem unit_computeChunkDigests (blake3 : Bytes → Oid) (payload : Bytes) {chunkBytes i : Nat} (hc : 0 < chunkBytes)
    (hi : i < chunkTotal payload.length chunkBytes) :
    unit (computeChunkDigests blake3 payload chunkBytes) kOidBytes i = digest blake3 (chunk payload chunkBytes i) := by
  rw [computeChunkDigests_eq blake3 payload hc,
    unit_flatMap _ _ (fun _ _ => length_digest _ _) i (by rw [List.length_range]; exact hi), List.getElem_range]

def verifyChunk (blake3 : Bytes → Oid) (chunk digestTable : Bytes) (chunkIndex : Nat) : Outcome Unit :=
  let off := chunkIndex * kOidBytes
  if off + kOidBytes > digestTable.length then sfsErr .malformedObject "chunk index out of range" ""
  else if digest blake3 chunk ≠ slice digestTable off kOidBytes then
    sfsErr .chunkDigestMismatch "chunk digest mismatch" (toString chunkIndex)
  else .ok ()

theorem verifyChunk_eq_ok {blake3 : Bytes → Oid} {c table : Bytes} {i : Nat} :
    verifyChunk blake3 c table i = .ok () ↔
      (i + 1) * kOidBytes ≤ table.length ∧ digest blake3 c = slice table (i * kOidBytes) kOidBytes := by
  have hm : (i + 1) * kOidBytes = i * kOidBytes + kOidBytes := Nat.succ_mul _ _
  unfold verifyChunk
  rw [hm]
  dsimp only
  split
  · next h => exact ⟨fun hx => absurd hx sfsErr_ne_ok, fun hx => absurd hx.1 (by omega)⟩
  · next h =>
    split
    · next hne => exact ⟨fun hx => absurd hx sfsErr_ne_ok, fun hx => absurd hx.2 hne⟩
    · next he => exact ⟨fun _ => ⟨by omega, not_not.mp he⟩, fun _ => rfl⟩

/-- `is_pow2`. -/
def isPow2 (v : Nat) : Bool := v != 0 && v == 2 ^ v.log2

theorem isPow2_eq {v : Nat} (h : isPow2 v = true) : 2 ^ v.log2 = v := by
  rw [isPow2, Bool.and_eq_true, beq_iff_eq] at h
  exact h.2.symm

theorem isPow2_pos {v : Nat} (h : isPow2 v = true) : 0 < v := by
  rw [← isPow2_eq h]
  exact Nat.two_pow_pos _

/-- The body of a loose-object file. Only the uncompressed container exists in
this build; the chunk count is cut to 32 bits. -/
def encodeObject (blake3 : Bytes → Oid) (kind : ObjectKind) (payload : Bytes) (chunkBytes : Nat) : Outcome Bytes :=
  if isPow2 chunkBytes = false then sfsErr .internal "chunk_bytes must be a power of two" ""
  else
    let digests := computeChunkDigests blake3 payload chunkBytes
    let hdr : ObjectHeader :=
      { kind := kind.toByte
        compression := 0
        chunkLog2 := chunkBytes.log2
        payloadLen := payload.length
        storedLen := payload.length
        chunkCount := u32 (digests.length / kOidBytes) }
    .ok (hdr.encode ++ digests ++ payload)

end SynapseFs.Format
