import SynapseFs.Store.Loose

/-! What `put` writes is what both readers return.

`put_round_trip` is about the container alone: the header the file starts with
decodes to the fields it was encoded from, its digest table has a row for each
chunk of the payload (`encoded_chunksVerify`), and a file of that shape is read
back whole by `get` and piecewise by `readRange`. Nothing is asked of the hash,
since both sides apply the same one. -/
namespace SynapseFs.Store.LooseStore
open Lib Core Format

/-- The header `encodeObject` puts before a payload. -/
def headerOf (blake3 : Bytes → Oid) (kind : ObjectKind) (payload : Bytes) (chunkBytes : Nat) : ObjectHeader :=
  { kind := kind.toByte
    compression := 0
    chunkLog2 := chunkBytes.log2
    payloadLen := payload.length
    storedLen := payload.length
    chunkCount := u32 ((computeChunkDigests blake3 payload chunkBytes).length / kOidBytes) }

/-- What a payload and its chunks are bounded by: a span's length is a signed
64-bit word, and the count of chunks must not be cut. -/
structure Storable (payload : Bytes) (chunkBytes : Nat) : Prop where
  pow2 : isPow2 chunkBytes = true
  word : chunkBytes < 2 ^ 64
  span : payload.length < 2 ^ 63
  count : chunkTotal payload.length chunkBytes < 2 ^ 32

section
variable {blake3 : Bytes → Oid} {kind : ObjectKind} {payload : Bytes} {chunkBytes : Nat}

theorem encodeObject_eq (h : isPow2 chunkBytes = true) :
    encodeObject blake3 kind payload chunkBytes =
      .ok ((headerOf blake3 kind payload chunkBytes).encode ++ computeChunkDigests blake3 payload chunkBytes ++ payload) := by
  unfold encodeObject
  rw [h, if_neg (by decide)]
  rfl

namespace Storable

theorem chunkCount_eq (h : Storable payload chunkBytes) :
    (headerOf blake3 kind payload chunkBytes).chunkCount = chunkTotal payload.length chunkBytes := by
  show u32 (_ / kOidBytes) = _
  rw [length_computeChunkDigests blake3 payload (isPow2_pos h.pow2), Nat.mul_div_cancel _ (by decide), u32_of_lt h.count]

theorem chunkLog2_lt (h : Storable payload chunkBytes) :
    (headerOf blake3 kind payload chunkBytes).chunkLog2 < 64 := by
  have hpow : 2 ^ chunkBytes.log2 < 2 ^ 64 := by
    rw [isPow2_eq h.pow2]
    exact h.word
  exact (Nat.pow_lt_pow_iff_right Nat.one_lt_two).mp hpow

theorem fits (h : Storable payload chunkBytes) : (headerOf blake3 kind payload chunkBytes).Fits := by
  have hlog : (headerOf blake3 kind payload chunkBytes).chunkLog2 < 64 := h.chunkLog2_lt
  have hspan := h.span
  refine ⟨by omega, ?_, ?_, ?_⟩
  · show payload.length < _
    omega
  · show payload.length < _
    omega
  · rw [h.chunkCount_eq]
    exact h.count

/-- The payload starts where the table ends. -/
theorem payloadOffset_eq (h : Storable payload chunkBytes) :
    (headerOf blake3 kind payload chunkBytes).payloadOffset =
      ((headerOf blake3 kind payload chunkBytes).encode ++ computeChunkDigests blake3 payload chunkBytes).length := by
  rw [List.length_append, ObjectHeader.length_encode, length_computeChunkDigests blake3 payload (isPow2_pos h.pow2),
    ObjectHeader.payloadOffset, h.chunkCount_eq]

end Storable

/-! ### The file `put` writes -/

theorem encoded_holds (h : Storable payload chunkBytes) :
    Holds blake3 ((headerOf blake3 kind payload chunkBytes).encode ++ computeChunkDigests blake3 payload chunkBytes ++
      payload) (headerOf blake3 kind payload chunkBytes) (computeOid blake3 kind payload) kind payload where
  decode := by
    have hfits : (headerOf blake3 kind payload chunkBytes).Fits := h.fits
    obtain ⟨hlog, hlen, hstored, hcount⟩ := hfits
    rw [List.append_assoc]
    exact ObjectHeader.decode_encode _ _ hlog hlen hstored hcount
  kind_eq := rfl
  plain := rfl
  length_eq := by
    rw [List.length_append, h.payloadOffset_eq]
    rfl
  payload_eq := by
    rw [h.payloadOffset_eq, List.drop_left]
  address := rfl

/-- Behind the header there is a row for each chunk, and it is that chunk's digest. -/
theorem encoded_chunksVerify (h : Storable payload chunkBytes) :
    ChunksVerify blake3 ((headerOf blake3 kind payload chunkBytes).encode ++
      computeChunkDigests blake3 payload chunkBytes ++ payload) (headerOf blake3 kind payload chunkBytes) := by
  intro _
  refine ⟨h.chunkLog2_lt, fun i hi => ?_⟩
  have hpos := isPow2_pos h.pow2
  have hsize : 2 ^ (headerOf blake3 kind payload chunkBytes).chunkLog2 = chunkBytes := isPow2_eq h.pow2
  rw [hsize] at hi ⊢
  have hrow : i < chunkTotal payload.length chunkBytes := (lt_chunkTotal hpos i).mpr hi
  refine ⟨by rw [h.chunkCount_eq]; exact hrow, ?_⟩
  have hin : i * kOidBytes + kOidBytes ≤ (computeChunkDigests blake3 payload chunkBytes).length := by
    rw [length_computeChunkDigests blake3 payload hpos, ← Nat.succ_mul]
    exact Nat.mul_le_mul_right _ hrow
  rw [← (encoded_holds h).payload_eq, ← unit_computeChunkDigests blake3 payload hpos hrow, List.append_assoc,
    ← ObjectHeader.length_encode (headerOf blake3 kind payload chunkBytes), slice_append_right,
    slice_append_left _ _ _ _ hin]
  rfl

theorem length_encoded_lt (h : Storable payload chunkBytes) :
    ((headerOf blake3 kind payload chunkBytes).encode ++ computeChunkDigests blake3 payload chunkBytes ++
      payload).length < 2 ^ 64 := by
  have hspan := h.span
  have hcount := h.count
  rw [List.length_append, ← h.payloadOffset_eq, ObjectHeader.payloadOffset, h.chunkCount_eq, ObjectHeader.kSize,
    kOidBytes]
  omega

end

theorem put_empty_slot {blake3 : Bytes → Oid} {s : LooseStore} {kind : ObjectKind} {payload : Bytes}
    (hslot : s.files.get? (computeOid blake3 kind payload) = none) (h : isPow2 s.chunkBytes = true) :
    s.put blake3 kind payload = .ok (computeOid blake3 kind payload,
      { s with files := s.files.insert (computeOid blake3 kind payload)
                 ((headerOf blake3 kind payload s.chunkBytes).encode ++
                   computeChunkDigests blake3 payload s.chunkBytes ++ payload) }) := by
  unfold put
  dsimp only
  rw [hslot, encodeObject_eq h]
  rfl

/-- After `put` into an empty slot the object is read back whole, and every range
of it is its slice of the payload, short only at the end. -/
theorem put_round_trip (blake3 : Bytes → Oid) (s : LooseStore) (kind : ObjectKind) (payload : Bytes)
    (hslot : s.files.get? (computeOid blake3 kind payload) = none) (hs : Storable payload s.chunkBytes) :
    (∃ s', s.put blake3 kind payload = .ok (computeOid blake3 kind payload, s') ∧
      s'.get blake3 (computeOid blake3 kind payload) kind = .ok payload ∧
      ∀ offset out, s'.readRange blake3 (computeOid blake3 kind payload) kind offset out =
        .ok (min out.length (payload.length - offset), filled (slice payload offset out.length) out)) ∧
    ∀ (hdr : ObjectHeader) (rest : Bytes), hdr.Fits → ObjectHeader.decode (hdr.encode ++ rest) = .ok hdr := by
  constructor
  · have hput := put_empty_slot hslot hs.pow2
    set file := (headerOf blake3 kind payload s.chunkBytes).encode ++
      computeChunkDigests blake3 payload s.chunkBytes ++ payload with hfile
    set s' : LooseStore := { s with files := s.files.insert (computeOid blake3 kind payload) file } with hs'
    have hget : s'.files.get? (computeOid blake3 kind payload) = some file := FinMap.get?_insert_self _ _ _
    have hlen : file.length < 2 ^ 64 := length_encoded_lt hs
    have hholds : Holds blake3 file _ (computeOid blake3 kind payload) kind payload := encoded_holds hs
    have hwhole : s'.get blake3 (computeOid blake3 kind payload) kind = .ok payload :=
      get_eq_ok.mpr ⟨file, _, hget, hlen, hholds⟩
    obtain ⟨payload', hp, hread⟩ := servesRanges_of_chunksVerify hget hlen hholds (encoded_chunksVerify hs)
    cases hp.symm.trans hwhole
    exact ⟨s', hput, hwhole, hread⟩
  · intro hdr rest h
    obtain ⟨hlog, hlen, hstored, hcount⟩ := h
    exact ObjectHeader.decode_encode hdr rest hlog hlen hstored hcount

/-- One byte in one chunk of a store that is empty. -/
theorem put_round_trip_oneByte :
    let oid := computeOid oneByteHash .raw [1]
    let s : LooseStore := ⟨2 ^ 22, FinMap.empty⟩
    s.files.get? oid = none ∧ Storable [1] s.chunkBytes ∧
    ((∃ s', s.put oneByteHash .raw [1] = .ok (oid, s') ∧ s'.get oneByteHash oid .raw = .ok [1] ∧
      ∀ offset out, s'.readRange oneByteHash oid .raw offset out =
        .ok (min out.length ([(1 : UInt8)].length - offset), filled (slice [1] offset out.length) out)) ∧
    ∀ (hdr : ObjectHeader) (rest : Bytes), hdr.Fits → ObjectHeader.decode (hdr.encode ++ rest) = .ok hdr) := by
  intro oid s
  have hslot : s.files.get? oid = none := rfl
  have hs : Storable [1] s.chunkBytes := ⟨by decide, by decide, by decide, by decide⟩
  exact ⟨hslot, hs, put_round_trip oneByteHash s .raw [1] hslot hs⟩

end SynapseFs.Store.LooseStore
