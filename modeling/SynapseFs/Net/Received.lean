import SynapseFs.Store.Loose

/-! The check that a received object file passes before it is renamed into place.

It is the third reader of the loose-object container. Like `LooseStore.get` it
hashes the payload against the address; unlike `get` it takes the payload's
length from the header without asking that the file end there, and does not look
at the compression byte. -/
namespace SynapseFs.Net
open Lib Core Format Store

/-- `verify_received_object_payload`, for the content of the temporary file. The
sum of offset and length is 64 bits wide. -/
def verifyReceivedObjectPayload (blake3 : Bytes → Oid) (file : Bytes) (expected : Oid) : Outcome Bool :=
  match ObjectHeader.decode file with
  | .error _ => .ok false
  | .ok hdr =>
    if file.length < u64 (hdr.payloadOffset + hdr.payloadLen) then .ok false
    else if file.length < hdr.payloadOffset + hdr.payloadLen then .error (.undefined "span past the file")
    else .ok (computeOidOf blake3 hdr.kind (slice file hdr.payloadOffset hdr.payloadLen) = expected)

/-- `LooseStore::get` for a kind that need not be an enumerator. -/
def getAs (blake3 : Bytes → Oid) (s : LooseStore) (oid : Oid) (kind : UInt8) : Outcome Bytes := do
  let file ← s.openFile oid
  let hdr ← ObjectHeader.decode file
  if hdr.kind ≠ kind then sfsErr .objectKindMismatch "object kind mismatch" oid.toString
  else if hdr.compression ≠ 0 then
    sfsErr .notImplemented "compressed objects not supported in this build" oid.toString
  else if file.length ≠ u64 (hdr.payloadOffset + hdr.payloadLen) then
    sfsErr .malformedObject "object size does not match header" oid.toString
  else if file.length < hdr.payloadOffset then .error (.undefined "iterator past the end")
  else
    let payload := file.drop hdr.payloadOffset
    if computeOidOf blake3 kind payload ≠ oid then
      sfsErr .hashMismatch "object content does not hash to its address" oid.toString
    else .ok payload

/-- On an enumerator it is `get`. -/
theorem getAs_toByte (blake3 : Bytes → Oid) (s : LooseStore) (oid : Oid) (kind : ObjectKind) :
    getAs blake3 s oid kind.toByte = s.get blake3 oid kind := by
  unfold getAs LooseStore.get LooseStore.checkHeader LooseStore.checkPayload
  refine congrArg _ (funext fun file => congrArg _ (funext fun hdr => ?_))
  simp only [computeOidOf_toByte]
  split
  · rfl
  · split
    · rfl
    · rfl

section
variable {blake3 : Bytes → Oid} {file : Bytes} {oid : Oid} {hdr : ObjectHeader}

theorem getAs_eq_ok {s : LooseStore} (hf : s.files.get? oid = some file) (hd : ObjectHeader.decode file = .ok hdr)
    (hfile : file.length < 2 ^ 64) {payload : Bytes} :
    getAs blake3 s oid hdr.kind = .ok payload ↔ hdr.compression = 0 ∧
      file.length = hdr.payloadOffset + hdr.payloadLen ∧ payload = file.drop hdr.payloadOffset ∧
      computeOidOf blake3 hdr.kind payload = oid := by
  obtain ⟨-, hlen, hcount⟩ := ObjectHeader.decode_bounds hd
  have hoff := LooseStore.payloadOffset_lt hcount
  have hget : getAs blake3 s oid hdr.kind = (if hdr.compression ≠ 0 then
        sfsErr .notImplemented "compressed objects not supported in this build" oid.toString
      else if file.length ≠ u64 (hdr.payloadOffset + hdr.payloadLen) then
        sfsErr .malformedObject "object size does not match header" oid.toString
      else if file.length < hdr.payloadOffset then .error (.undefined "iterator past the end")
      else if computeOidOf blake3 hdr.kind (file.drop hdr.payloadOffset) ≠ oid then
        sfsErr .hashMismatch "object content does not hash to its address" oid.toString
      else .ok (file.drop hdr.payloadOffset)) := by
    unfold getAs
    rw [LooseStore.openFile_eq_ok.mpr hf]
    show (ObjectHeader.decode file >>= fun hdr' => _) = _
    rw [hd]
    show (if hdr.kind ≠ hdr.kind then _ else _) = _
    rw [if_neg (not_not.mpr rfl)]
  rw [hget]
  constructor
  · intro h
    split at h
    · exact absurd h sfsErr_ne_ok
    · next hc =>
      split at h
      · exact absurd h sfsErr_ne_ok
      · next hsize =>
        split at h
        · cases h
        · next hshort =>
          split at h
          · exact absurd h sfsErr_ne_ok
          · next ha =>
            cases h
            unfold u64 at hsize
            exact ⟨not_not.mp hc, by omega, rfl, not_not.mp ha⟩
  · rintro ⟨hc, hl, rfl, ha⟩
    rw [if_neg (not_not.mpr hc), if_neg (not_not.mpr (by rw [u64_of_lt (by omega)]; exact hl)), if_neg (by omega),
      if_neg (not_not.mpr ha)]

/-- The check stays within the file, and what it accepts the store reads. -/
def AcceptsReadable (blake3 : Bytes → Oid) (file : Bytes) (expected : Oid) : Prop :=
  (∀ f, verifyReceivedObjectPayload blake3 file expected ≠ .error f) ∧
    (verifyReceivedObjectPayload blake3 file expected = .ok true → ∀ s : LooseStore, s.files.get? expected = some file →
      ∃ hdr payload, ObjectHeader.decode file = .ok hdr ∧ getAs blake3 s expected hdr.kind = .ok payload ∧
        computeOidOf blake3 hdr.kind payload = expected)

/-- What the check leaves to luck: that offset and length do not wrap below the
file's size, and that a file whose payload hashes to the address is uncompressed
and ends with that payload. -/
def Tight (blake3 : Bytes → Oid) (file : Bytes) (expected : Oid) : Prop :=
  ∀ hdr, ObjectHeader.decode file = .ok hdr → u64 (hdr.payloadOffset + hdr.payloadLen) ≤ file.length →
    hdr.payloadOffset + hdr.payloadLen < 2 ^ 64 ∧
      (computeOidOf blake3 hdr.kind (slice file hdr.payloadOffset hdr.payloadLen) = expected →
        hdr.compression = 0 ∧ file.length = hdr.payloadOffset + hdr.payloadLen)

theorem verifyReceived_eq (hd : ObjectHeader.decode file = .ok hdr)
    (hle : u64 (hdr.payloadOffset + hdr.payloadLen) ≤ file.length) (expected : Oid) :
    verifyReceivedObjectPayload blake3 file expected =
      if file.length < hdr.payloadOffset + hdr.payloadLen then .error (.undefined "span past the file")
      else .ok (computeOidOf blake3 hdr.kind (slice file hdr.payloadOffset hdr.payloadLen) = expected) := by
  unfold verifyReceivedObjectPayload
  rw [hd]
  dsimp only
  rw [if_neg (not_lt.mpr hle)]

theorem tight_of_acceptsReadable {expected : Oid} (hfile : file.length < 2 ^ 64)
    (h : AcceptsReadable blake3 file expected) : Tight blake3 file expected := by
  obtain ⟨hsafe, hread⟩ := h
  intro hdr hd hle
  have heq := @verifyReceived_eq blake3 file hdr hd hle expected
  by_cases hpast : file.length < hdr.payloadOffset + hdr.payloadLen
  · rw [if_pos hpast] at heq
    exact absurd heq (hsafe _)
  · rw [if_neg hpast] at heq
    refine ⟨by omega, fun hhash => ?_⟩
    rw [decide_eq_true hhash] at heq
    obtain ⟨hdr', payload, hd', hget, -⟩ :=
      hread heq ⟨0, FinMap.empty.insert expected file⟩ (FinMap.get?_insert_self _ _ _)
    cases hd.symm.trans hd'
    obtain ⟨hc, hl, -, -⟩ := (getAs_eq_ok (FinMap.get?_insert_self _ _ _) hd hfile).mp hget
    exact ⟨hc, hl⟩

theorem acceptsReadable_of_tight {expected : Oid} (hfile : file.length < 2 ^ 64) (ht : Tight blake3 file expected) :
    AcceptsReadable blake3 file expected := by
  have hrefused : verifyReceivedObjectPayload blake3 file expected = .ok false →
      AcceptsReadable blake3 file expected := by
    intro heq
    rw [AcceptsReadable, heq]
    exact ⟨nofun, nofun⟩
  cases hd : ObjectHeader.decode file with
  | error e =>
    refine hrefused ?_
    unfold verifyReceivedObjectPayload
    rw [hd]
  | ok hdr =>
    by_cases hle : u64 (hdr.payloadOffset + hdr.payloadLen) ≤ file.length
    · obtain ⟨hwrap, htight⟩ := ht hdr hd hle
      have heq := @verifyReceived_eq blake3 file hdr hd hle expected
      rw [u64_of_lt hwrap] at hle
      rw [if_neg (not_lt.mpr hle)] at heq
      rw [AcceptsReadable, heq]
      refine ⟨nofun, fun htrue s hs => ?_⟩
      have hhash := of_decide_eq_true (Except.ok.inj htrue)
      obtain ⟨hc, hl⟩ := htight hhash
      have hpay : slice file hdr.payloadOffset hdr.payloadLen = file.drop hdr.payloadOffset :=
        slice_all _ _ (by omega)
      rw [hpay] at hhash
      exact ⟨hdr, file.drop hdr.payloadOffset, hd, (getAs_eq_ok hs hd hfile).mpr ⟨hc, hl, rfl, hhash⟩, hhash⟩
    · refine hrefused ?_
      unfold verifyReceivedObjectPayload
      rw [hd]
      dsimp only
      rw [if_pos (not_le.mp hle)]

/-- What sync accepts, the store can read: exactly for the files that are tight. -/
theorem acceptsReadable_iff_tight (blake3 : Bytes → Oid) (file : Bytes) (expected : Oid) (hfile : file.length < 2 ^ 64) :
    AcceptsReadable blake3 file expected ↔ Tight blake3 file expected :=
  ⟨tight_of_acceptsReadable hfile, acceptsReadable_of_tight hfile⟩

end

theorem acceptsReadable_iff_tight_tabled :
    let oid := computeOid LooseStore.oneByteHash .raw [1]
    verifyReceivedObjectPayload LooseStore.oneByteHash LooseStore.tabled oid = .ok true ∧
      (AcceptsReadable LooseStore.oneByteHash LooseStore.tabled oid ↔
        Tight LooseStore.oneByteHash LooseStore.tabled oid) := by
  intro oid
  exact ⟨by decide, acceptsReadable_iff_tight LooseStore.oneByteHash LooseStore.tabled oid (by decide)⟩

/-- A bare header whose length and offset add up to 32 in 64 bits. -/
def wrappedFile : Bytes := ObjectHeader.encode ⟨0, 0, 16, 2 ^ 64 - 8, 0, 0⟩

/-- One payload byte, and one byte more than the header announces. -/
def trailedFile : Bytes := ObjectHeader.encode ⟨0, 0, 16, 1, 1, 0⟩ ++ [1, 2]

/-- One payload byte behind a compression byte that this build does not read. -/
def compressedFile : Bytes := ObjectHeader.encode ⟨0, 1, 16, 1, 1, 0⟩ ++ [1]

/-- Whatever the hash: the first file sends the check out of its bytes, and the
other two are accepted under the address of `[1]` and cannot be read there. -/
theorem accepts_unreadable : ¬ ∃ blake3 : Bytes → Oid, AcceptsReadable blake3 wrappedFile zeroOid ∨
    AcceptsReadable blake3 trailedFile (computeOid blake3 .raw [1]) ∨
    AcceptsReadable blake3 compressedFile (computeOid blake3 .raw [1]) := by
  rintro ⟨blake3, h | h | h⟩
  · have ht := tight_of_acceptsReadable (by decide) h ⟨0, 0, 16, 2 ^ 64 - 8, 0, 0⟩ (by decide) (by decide)
    exact absurd ht.1 (by decide)
  · have ht := tight_of_acceptsReadable (by decide) h ⟨0, 0, 16, 1, 1, 0⟩ (by decide) (by decide)
    exact absurd (ht.2 rfl).2 (by decide)
  · have ht := tight_of_acceptsReadable (by decide) h ⟨0, 1, 16, 1, 1, 0⟩ (by decide) (by decide)
    exact absurd (ht.2 rfl).1 (by decide)

end SynapseFs.Net
