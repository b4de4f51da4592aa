import SynapseFs.Format.Object
import SynapseFs.Lib.FinMap

/-! Loose objects: one file per object under `objects/`.

There are two readers of one container. `get` takes the whole file, checks its
length and re-hashes the payload against the address; it never looks at
`chunkLog2` or at the digest table. `readRange` trusts exactly those two and
checks the chunks it touches. A file that the first accepts is served by the
second when its digest table covers its payload (`ChunksVerify`), and only then.

The file system neither fails nor runs out of memory here: a read returns what
the file holds. Shifts, wraparound and reads outside a buffer are modelled. -/
namespace SynapseFs.Store
open Lib Core Format

/-- The object files by the address their path spells. -/
structure LooseStore where
  /-- `cfg.chunk_bytes`, for objects written from now on. -/
  chunkBytes : Nat
  files : FinMap Oid Bytes

namespace LooseStore

variable (blake3 : Bytes → Oid)

def openFile (s : LooseStore) (oid : Oid) : Outcome Bytes :=
  match s.files.get? oid with
  | some file => .ok file
  | none => sfsErr .objectNotFound "object not found" oid.toString

/-- Identical bytes are not written again: a file at the address is left alone. -/
def put (s : LooseStore) (kind : ObjectKind) (payload : Bytes) : Outcome (Oid × LooseStore) :=
  let oid := computeOid blake3 kind payload
  match s.files.get? oid with
  | some _ => .ok (oid, s)
  | none => do
    let encoded ← encodeObject blake3 kind payload s.chunkBytes
    return (oid, { s with files := s.files.insert oid encoded })

def checkHeader (hdr : ObjectHeader) (expectedKind : ObjectKind) (oid : Oid) : Outcome Unit :=
  if hdr.kind ≠ expectedKind.toByte then sfsErr .objectKindMismatch "object kind mismatch" oid.toString
  else if hdr.compression ≠ 0 then
    sfsErr .notImplemented "compressed objects not supported in this build" oid.toString
  else .ok ()

/-- The payload behind the digest table, hashed against its address. -/
def checkPayload (file : Bytes) (hdr : ObjectHeader) (oid : Oid) (kind : ObjectKind) : Outcome Bytes :=
  if file.length ≠ u64 (hdr.payloadOffset + hdr.payloadLen) then
    sfsErr .malformedObject "object size does not match header" oid.toString
  else if file.length < hdr.payloadOffset then .error (.undefined "iterator past the end")
  else
    let payload := file.drop hdr.payloadOffset
    if computeOid blake3 kind payload ≠ oid then
      sfsErr .hashMismatch "object content does not hash to its address" oid.toString
    else .ok payload

def get (s : LooseStore) (oid : Oid) (expectedKind : ObjectKind) : Outcome Bytes := do
  let file ← s.openFile oid
  let hdr ← ObjectHeader.decode file
  checkHeader hdr expectedKind oid
  checkPayload blake3 file hdr oid expectedKind

/-- The chunk that holds `absOff`, verified, and where in it `absOff` is. The
chunk index is cut to 32 bits. -/
def readChunk (file : Bytes) (hdr : ObjectHeader) (digests : Bytes) (oid : Oid) (absOff : Nat) :
    Outcome (Bytes × Nat) :=
  let chunkBytes := 2 ^ hdr.chunkLog2
  let chunkIdx := u32 (absOff / chunkBytes)
  let chunkStart := u64 (chunkIdx * chunkBytes)
  let chunkLen := min chunkBytes (u64Sub hdr.payloadLen chunkStart)
  let chunkBuf := slice file (u64 (hdr.payloadOffset + chunkStart)) chunkLen
  if chunkBuf.length ≠ chunkLen then sfsErr .io "short read on chunk" oid.toString
  else do
    verifyChunk blake3 chunkBuf digests chunkIdx
    return (chunkBuf, u64Sub absOff chunkStart)

/-- The loop of `read_range`: every round takes what its chunk has. -/
def readChunks (file : Bytes) (hdr : ObjectHeader) (digests : Bytes) (oid : Oid) (offset want : Nat) :
    Nat → Nat → Bytes → Outcome (Nat × Bytes)
  | 0, done, out => if done < want then .error .outOfFuel else .ok (done, out)
  | fuel + 1, done, out =>
    if done < want then do
      let (chunkBuf, within) ← readChunk blake3 file hdr digests oid (u64 (offset + done))
      let take := min (want - done) (u64Sub chunkBuf.length within)
      if chunkBuf.length < within + take then .error (.undefined "memcpy past the chunk")
      else
        readChunks file hdr digests oid offset want fuel (done + take)
          (overwrite out done (slice chunkBuf within take))
    else .ok (done, out)

def readRange (s : LooseStore) (oid : Oid) (expectedKind : ObjectKind) (offset : Nat) (out : Bytes) :
    Outcome (Nat × Bytes) := do
  let file ← s.openFile oid
  if file.length < ObjectHeader.kSize then sfsErr .malformedObject "cannot read object header" oid.toString
  else do
    let hdr ← ObjectHeader.decode (file.take ObjectHeader.kSize)
    checkHeader hdr expectedKind oid
    if hdr.payloadLen ≤ offset then .ok (0, out)
    else if 64 ≤ hdr.chunkLog2 then .error (.undefined "shift past the word")
    else
      let digests := slice file ObjectHeader.kSize (hdr.chunkCount * kOidBytes)
      let want := min out.length (hdr.payloadLen - offset)
      if digests.length ≠ hdr.chunkCount * kOidBytes then
        sfsErr .malformedObject "cannot read chunk digest table" oid.toString
      else readChunks blake3 file hdr digests oid offset want want 0 out

def verifyBlock (s : LooseStore) (oid : Oid) (expectedKind : ObjectKind) : Outcome Unit := do
  let _ ← s.get blake3 oid expectedKind
  return ()

def contains (s : LooseStore) (oid : Oid) : Bool := (s.files.get? oid).isSome

def readHeader (s : LooseStore) (oid : Oid) : Outcome ObjectHeader := do
  let file ← s.openFile oid
  if file.length < ObjectHeader.kSize then sfsErr .malformedObject "cannot read object header" oid.toString
  else ObjectHeader.decode (file.take ObjectHeader.kSize)

def sizeOf (s : LooseStore) (oid : Oid) : Outcome Nat := do
  let hdr ← s.readHeader oid
  return hdr.payloadLen

def listAll (s : LooseStore) : List Oid := s.files.keys

def unlink (s : LooseStore) (oid : Oid) : LooseStore := { s with files := s.files.erase oid }

/-! ### Whole objects -/

/-- What a file must be for `get` to return `payload`. -/
structure Holds (file : Bytes) (hdr : ObjectHeader) (oid : Oid) (kind : ObjectKind) (payload : Bytes) : Prop where
  decode : ObjectHeader.decode file = .ok hdr
  kind_eq : hdr.kind = kind.toByte
  plain : hdr.compression = 0
  length_eq : file.length = hdr.payloadOffset + hdr.payloadLen
  payload_eq : payload = file.drop hdr.payloadOffset
  address : computeOid blake3 kind payload = oid

variable {blake3}

theorem openFile_eq_ok {s : LooseStore} {oid : Oid} {file : Bytes} :
    s.openFile oid = .ok file ↔ s.files.get? oid = some file := by
  unfold openFile
  cases s.files.get? oid with
  | none => exact ⟨fun h => absurd h sfsErr_ne_ok, nofun⟩
  | some f => simp

theorem checkHeader_eq_ok {hdr : ObjectHeader} {kind : ObjectKind} {oid : Oid} {u : Unit} :
    checkHeader hdr kind oid = .ok u ↔ hdr.kind = kind.toByte ∧ hdr.compression = 0 := by
  unfold checkHeader
  by_cases hk : hdr.kind = kind.toByte
  · by_cases hc : hdr.compression = 0
    · simp [hk, hc]
    · simp [hk, hc, sfsErr]
  · simp [hk, sfsErr]

/-- When the two lengths wrap, the file ends before the payload starts. -/
theorem checkPayload_eq_ok {file : Bytes} {hdr : ObjectHeader} {oid : Oid} {kind : ObjectKind} {payload : Bytes}
    (hlen : hdr.payloadLen < 2 ^ 64) (hoff : hdr.payloadOffset < 2 ^ 64) :
    checkPayload blake3 file hdr oid kind = .ok payload ↔
      file.length = hdr.payloadOffset + hdr.payloadLen ∧ payload = file.drop hdr.payloadOffset ∧
        computeOid blake3 kind payload = oid ∧ file.length < 2 ^ 64 := by
  unfold checkPayload
  by_cases hsize : file.length = u64 (hdr.payloadOffset + hdr.payloadLen)
  · rw [if_neg (not_not.mpr hsize)]
    by_cases hshort : file.length < hdr.payloadOffset
    · rw [if_pos hshort]
      exact ⟨nofun, fun h => absurd h.1 (by omega)⟩
    · rw [if_neg hshort]
      have hexact : file.length = hdr.payloadOffset + hdr.payloadLen := by
        unfold u64 at hsize
        omega
      have hfile : file.length < 2 ^ 64 := hsize ▸ u64_lt _
      by_cases ha : computeOid blake3 kind (file.drop hdr.payloadOffset) = oid
      · simp only [ha, ne_eq, not_true_eq_false, if_false, Except.ok.injEq]
        constructor
        · rintro rfl
          exact ⟨hexact, rfl, ha, hfile⟩
        · rintro ⟨_, rfl, _⟩
          rfl
      · simp only [ne_eq, ha, not_false_eq_true, if_true]
        constructor
        · intro h
          exact absurd h sfsErr_ne_ok
        · rintro ⟨_, rfl, h, _⟩
          exact absurd h ha
  · rw [if_pos hsize]
    constructor
    · intro h
      exact absurd h sfsErr_ne_ok
    · rintro ⟨hl, _, _, hb⟩
      exact absurd (by rw [u64_of_lt (by omega)]; exact hl) hsize

theorem payloadOffset_lt {hdr : ObjectHeader} (h : hdr.chunkCount < 2 ^ 32) : hdr.payloadOffset < 2 ^ 64 := by
  unfold ObjectHeader.payloadOffset ObjectHeader.kSize kOidBytes
  omega

theorem get_eq_ok {s : LooseStore} {oid : Oid} {kind : ObjectKind} {payload : Bytes} :
    s.get blake3 oid kind = .ok payload ↔
      ∃ file hdr, s.files.get? oid = some file ∧ file.length < 2 ^ 64 ∧ Holds blake3 file hdr oid kind payload := by
  unfold get
  simp only [bind_eq_ok, openFile_eq_ok, checkHeader_eq_ok]
  constructor
  · rintro ⟨file, hf, hdr, hd, _, ⟨hk, hc⟩, hp⟩
    obtain ⟨_, hlen, hcount⟩ := ObjectHeader.decode_bounds hd
    obtain ⟨hl, hpay, ha, hb⟩ := (checkPayload_eq_ok hlen (payloadOffset_lt hcount)).mp hp
    exact ⟨file, hdr, hf, hb, hd, hk, hc, hl, hpay, ha⟩
  · rintro ⟨file, hdr, hf, hb, h⟩
    obtain ⟨_, hlen, hcount⟩ := ObjectHeader.decode_bounds h.decode
    exact ⟨file, hf, hdr, h.decode, (), ⟨h.kind_eq, h.plain⟩,
      (checkPayload_eq_ok hlen (payloadOffset_lt hcount)).mpr ⟨h.length_eq, h.payload_eq, h.address, hb⟩⟩

theorem verifyBlock_eq_ok {s : LooseStore} {oid : Oid} {kind : ObjectKind} :
    s.verifyBlock blake3 oid kind = .ok () ↔ ∃ payload, s.get blake3 oid kind = .ok payload := by
  unfold verifyBlock
  simp only [bind_eq_ok]
  exact ⟨fun ⟨p, h, _⟩ => ⟨p, h⟩, fun ⟨p, h⟩ => ⟨p, h, rfl⟩⟩

/-! ### Ranged reads -/

variable (blake3) in
/-- The table holds the digest of every chunk of the payload, at a chunk size
that is a shift amount. Nothing is asked of a file without payload. -/
def ChunksVerify (file : Bytes) (hdr : ObjectHeader) : Prop :=
  0 < hdr.payloadLen → hdr.chunkLog2 < 64 ∧ ∀ i, i * 2 ^ hdr.chunkLog2 < hdr.payloadLen →
    i < hdr.chunkCount ∧ slice file (ObjectHeader.kSize + i * kOidBytes) kOidBytes =
      digest blake3 (chunk (file.drop hdr.payloadOffset) (2 ^ hdr.chunkLog2) i)

section
variable {file : Bytes} {hdr : ObjectHeader} {oid : Oid} {kind : ObjectKind} {payload : Bytes}

theorem Holds.length_payload (h : Holds blake3 file hdr oid kind payload) : payload.length = hdr.payloadLen := by
  rw [h.payload_eq, List.length_drop, h.length_eq]
  omega

/-- The table as `readRange` loads it. -/
def table (file : Bytes) (hdr : ObjectHeader) : Bytes := slice file ObjectHeader.kSize (hdr.chunkCount * kOidBytes)

theorem Holds.length_table (h : Holds blake3 file hdr oid kind payload) :
    (table file hdr).length = hdr.chunkCount * kOidBytes := by
  have := h.length_eq
  unfold ObjectHeader.payloadOffset at this
  rw [table, length_slice]
  omega

theorem slice_table {i : Nat} (hi : i < hdr.chunkCount) :
    slice (table file hdr) (i * kOidBytes) kOidBytes = slice file (ObjectHeader.kSize + i * kOidBytes) kOidBytes := by
  refine slice_slice _ _ _ _ _ ?_
  rw [← Nat.succ_mul]
  exact Nat.mul_le_mul_right _ hi

/-- A chunk whose index fits 32 bits is the chunk of the payload. -/
theorem readChunk_eq (h : Holds blake3 file hdr oid kind payload) (hfile : file.length < 2 ^ 64) {absOff : Nat}
    (hoff : absOff < hdr.payloadLen) (hidx : absOff / 2 ^ hdr.chunkLog2 < 2 ^ 32) :
    readChunk blake3 file hdr (table file hdr) oid absOff = (do
      verifyChunk blake3 (chunk payload (2 ^ hdr.chunkLog2) (absOff / 2 ^ hdr.chunkLog2)) (table file hdr)
        (absOff / 2 ^ hdr.chunkLog2)
      return (chunk payload (2 ^ hdr.chunkLog2) (absOff / 2 ^ hdr.chunkLog2), absOff % 2 ^ hdr.chunkLog2)) := by
  have hlen := h.length_eq
  have hpay := h.length_payload
  have hstart : absOff / 2 ^ hdr.chunkLog2 * 2 ^ hdr.chunkLog2 ≤ absOff := Nat.div_mul_le_self _ _
  have hword : u64 (absOff / 2 ^ hdr.chunkLog2 * 2 ^ hdr.chunkLog2) = absOff / 2 ^ hdr.chunkLog2 * 2 ^ hdr.chunkLog2 :=
    u64_of_lt (by omega)
  have hsub : absOff - absOff / 2 ^ hdr.chunkLog2 * 2 ^ hdr.chunkLog2 = absOff % 2 ^ hdr.chunkLog2 := by
    have := Nat.div_add_mod' absOff (2 ^ hdr.chunkLog2)
    omega
  have hbuf : slice file (hdr.payloadOffset + absOff / 2 ^ hdr.chunkLog2 * 2 ^ hdr.chunkLog2)
      (min (2 ^ hdr.chunkLog2) (hdr.payloadLen - absOff / 2 ^ hdr.chunkLog2 * 2 ^ hdr.chunkLog2)) =
      chunk payload (2 ^ hdr.chunkLog2) (absOff / 2 ^ hdr.chunkLog2) := by
    rw [← slice_drop, ← h.payload_eq, ← hpay, slice_min]
    rfl
  unfold readChunk
  dsimp only
  rw [u32_of_lt hidx, hword, u64_of_lt (by omega), u64Sub_of_le (by omega) (by omega),
    u64Sub_of_le hstart (by omega), hbuf, hsub, chunk, length_slice, hpay, if_neg (not_not.mpr rfl)]

/-- A chunk index cut to 32 bits names an earlier chunk: the offset lies past it. -/
theorem readChunk_cut {digests : Bytes} {absOff : Nat} (hoff : absOff < 2 ^ 64)
    (hidx : 2 ^ 32 ≤ absOff / 2 ^ hdr.chunkLog2) {r : Bytes × Nat}
    (hr : readChunk blake3 file hdr digests oid absOff = .ok r) : r.1.length < r.2 ∧ r.2 < 2 ^ 64 := by
  set cb := 2 ^ hdr.chunkLog2 with hcb
  have hpos : 0 < cb := Nat.two_pow_pos _
  -- The true index is at least `2 ^ 32` above the cut one.
  have hcut : u32 (absOff / cb) + 2 ^ 32 ≤ absOff / cb := by
    unfold u32
    have := Nat.div_add_mod (absOff / cb) (2 ^ 32)
    have : 1 ≤ absOff / cb / 2 ^ 32 := Nat.div_pos hidx (by decide)
    omega
  have hmul : u32 (absOff / cb) * cb + 2 ^ 32 * cb ≤ absOff := by
    rw [← Nat.add_mul]
    exact le_trans (Nat.mul_le_mul_right _ hcut) (Nat.div_mul_le_self _ _)
  unfold readChunk at hr
  simp only [← hcb] at hr
  rw [u64_of_lt (by omega : u32 (absOff / cb) * cb < 2 ^ 64), u64Sub_of_le (by omega : _ ≤ absOff) hoff] at hr
  split at hr
  · exact absurd hr sfsErr_ne_ok
  · next hl =>
    rw [bind_eq_ok] at hr
    obtain ⟨_, _, hr⟩ := hr
    cases hr
    refine ⟨?_, by omega⟩
    show List.length _ < _
    rw [not_not.mp hl]
    omega

/-- What one round copies out of its chunk of the payload: the next bytes of the range. -/
theorem overwrite_chunk (h : Holds blake3 file hdr oid kind payload) {offset want done : Nat} (out : Bytes)
    (hdone : done < want) (hwant : offset + want ≤ hdr.payloadLen) :
    let c := chunk payload (2 ^ hdr.chunkLog2) ((offset + done) / 2 ^ hdr.chunkLog2)
    let take := min (want - done) (c.length - (offset + done) % 2 ^ hdr.chunkLog2)
    0 < take ∧ (offset + done) % 2 ^ hdr.chunkLog2 + take ≤ c.length ∧
      overwrite (filled (slice payload offset done) out) done (slice c ((offset + done) % 2 ^ hdr.chunkLog2) take) =
        filled (slice payload offset (done + take)) out := by
  generalize hcb : 2 ^ hdr.chunkLog2 = cb
  have hpos : 0 < cb := hcb ▸ Nat.two_pow_pos _
  intro c take
  have htake : take = min (want - done) (c.length - (offset + done) % cb) := rfl
  have hmod := Nat.div_add_mod' (offset + done) cb
  have hlt := Nat.mod_lt (offset + done) hpos
  have hpay := h.length_payload
  have hlenc : c.length = min cb (hdr.payloadLen - (offset + done) / cb * cb) := by
    show (chunk _ _ _).length = _
    rw [chunk, length_slice, hpay]
  have hfit : (offset + done) % cb + take ≤ c.length := by omega
  have hbytes : slice c ((offset + done) % cb) take = slice payload (offset + done) take := by
    show slice (chunk _ _ _) _ _ = _
    rw [chunk, slice_slice _ _ _ _ _ (by omega), hmod]
  refine ⟨by omega, hfit, ?_⟩
  have hd : (slice payload offset done).length = done := by rw [length_slice]; omega
  have := overwrite_filled (slice payload offset done) (slice payload (offset + done) take) out
  rwa [hd, slice_append_slice, ← hbytes] at this

theorem readChunks_step (h : Holds blake3 file hdr oid kind payload) (hfile : file.length < 2 ^ 64)
    (hok : ∀ i, i * 2 ^ hdr.chunkLog2 < hdr.payloadLen → i < hdr.chunkCount ∧
      slice file (ObjectHeader.kSize + i * kOidBytes) kOidBytes =
        digest blake3 (chunk (file.drop hdr.payloadOffset) (2 ^ hdr.chunkLog2) i))
    {offset want done fuel : Nat} (out : Bytes) (hdone : done < want) (hwant : offset + want ≤ hdr.payloadLen) :
    ∃ more, done < more ∧ more ≤ want ∧
      readChunks blake3 file hdr (table file hdr) oid offset want (fuel + 1) done
        (filled (slice payload offset done) out) =
      readChunks blake3 file hdr (table file hdr) oid offset want fuel more
        (filled (slice payload offset more) out) := by
  obtain ⟨hsize, hplen, hcount⟩ := ObjectHeader.decode_bounds h.decode
  obtain ⟨hpos, hfit, hwrite⟩ := overwrite_chunk h out hdone hwant
  have hdiv := Nat.div_mul_le_self (offset + done) (2 ^ hdr.chunkLog2)
  obtain ⟨hidx, hdig⟩ := hok _ (by omega : (offset + done) / 2 ^ hdr.chunkLog2 * 2 ^ hdr.chunkLog2 < hdr.payloadLen)
  rw [← h.payload_eq] at hdig
  have hverify : verifyChunk blake3 (chunk payload (2 ^ hdr.chunkLog2) ((offset + done) / 2 ^ hdr.chunkLog2))
      (table file hdr) ((offset + done) / 2 ^ hdr.chunkLog2) = .ok () := by
    rw [verifyChunk_eq_ok, h.length_table, slice_table hidx]
    exact ⟨Nat.mul_le_mul_right _ hidx, hdig.symm⟩
  have hread := readChunk_eq h hfile (by omega : offset + done < hdr.payloadLen) (by omega)
  rw [hverify] at hread
  refine ⟨_, Nat.lt_add_of_pos_right hpos, by omega, ?_⟩
  rw [readChunks, if_pos hdone, u64_of_lt (by omega), hread]
  simp only [bind, Except.bind, pure, Except.pure]
  rw [u64Sub_of_le (by omega) (by rw [chunk, length_slice, h.length_payload]; omega), if_neg (by omega), hwrite]

theorem readChunks_run (h : Holds blake3 file hdr oid kind payload) (hfile : file.length < 2 ^ 64)
    (hok : ∀ i, i * 2 ^ hdr.chunkLog2 < hdr.payloadLen → i < hdr.chunkCount ∧
      slice file (ObjectHeader.kSize + i * kOidBytes) kOidBytes =
        digest blake3 (chunk (file.drop hdr.payloadOffset) (2 ^ hdr.chunkLog2) i))
    (offset want : Nat) (out : Bytes) (hwant : offset + want ≤ hdr.payloadLen) (fuel : Nat) :
    ∀ done, done ≤ want → want ≤ done + fuel →
      readChunks blake3 file hdr (table file hdr) oid offset want fuel done
        (filled (slice payload offset done) out) = .ok (want, filled (slice payload offset want) out) := by
  induction fuel with
  | zero =>
    intro done hle hge
    obtain rfl : done = want := by omega
    rw [readChunks, if_neg (lt_irrefl _)]
  | succ fuel ih =>
    intro done hle hge
    by_cases hdone : done < want
    · obtain ⟨more, hlt, hmore, hstep⟩ := readChunks_step h hfile hok out hdone hwant
      rw [hstep]
      exact ih more hmore (by omega)
    · obtain rfl : done = want := by omega
      rw [readChunks, if_neg (lt_irrefl _)]

/-- The first forty bytes decode as the file does, so only the table is left to fail. -/
theorem readRange_holds {s : LooseStore} (hget : s.files.get? oid = some file)
    (h : Holds blake3 file hdr oid kind payload) (offset : Nat) (out : Bytes) :
    s.readRange blake3 oid kind offset out =
      if hdr.payloadLen ≤ offset then .ok (0, out)
      else if 64 ≤ hdr.chunkLog2 then .error (.undefined "shift past the word")
      else readChunks blake3 file hdr (table file hdr) oid offset (min out.length (hdr.payloadLen - offset))
        (min out.length (hdr.payloadLen - offset)) 0 out := by
  obtain ⟨hsize, -, -⟩ := ObjectHeader.decode_bounds h.decode
  unfold readRange
  rw [openFile_eq_ok.mpr hget]
  show (if file.length < ObjectHeader.kSize then _ else _) = _
  rw [if_neg (by omega), ObjectHeader.decode_take h.decode]
  show (checkHeader hdr kind oid >>= fun _ => _) = _
  rw [show checkHeader hdr kind oid = .ok () from checkHeader_eq_ok.mpr ⟨h.kind_eq, h.plain⟩]
  show (if _ then _ else if _ then _ else if (table file hdr).length ≠ _ then _ else _) = _
  rw [if_neg (not_not.mpr h.length_table)]
  rfl

/-- Every ranged read returns its slice of the payload, short only at the end. -/
def ServesRanges (blake3 : Bytes → Oid) (s : LooseStore) (oid : Oid) (kind : ObjectKind) : Prop :=
  ∃ payload, s.get blake3 oid kind = .ok payload ∧ ∀ offset out,
    s.readRange blake3 oid kind offset out =
      .ok (min out.length (payload.length - offset), filled (slice payload offset out.length) out)

theorem servesRanges_of_chunksVerify {s : LooseStore} (hget : s.files.get? oid = some file)
    (hfile : file.length < 2 ^ 64) (h : Holds blake3 file hdr oid kind payload) (hc : ChunksVerify blake3 file hdr) :
    ServesRanges blake3 s oid kind := by
  refine ⟨payload, get_eq_ok.mpr ⟨file, hdr, hget, hfile, h⟩, fun offset out => ?_⟩
  rw [readRange_holds hget h, h.length_payload]
  by_cases hoff : hdr.payloadLen ≤ offset
  · rw [if_pos hoff, slice_past _ _ (by rw [h.length_payload]; exact hoff), filled_nil, Nat.sub_eq_zero_of_le hoff,
      Nat.min_zero]
  · obtain ⟨hlog, hok⟩ := hc (by omega)
    have hrun := readChunks_run h hfile hok offset (min out.length (hdr.payloadLen - offset)) out (by omega)
      (min out.length (hdr.payloadLen - offset)) 0 (Nat.zero_le _) (by omega)
    rw [slice_zero_len, filled_nil] at hrun
    rw [if_neg hoff, if_neg (by omega), hrun, ← h.length_payload, slice_min]

/-- Reading one byte at a chunk's start already checks that chunk's digest. -/
theorem chunksVerify_of_servesRanges {s : LooseStore} (hget : s.files.get? oid = some file)
    (hfile : file.length < 2 ^ 64) (h : Holds blake3 file hdr oid kind payload) (hr : ServesRanges blake3 s oid kind) :
    ChunksVerify blake3 file hdr := by
  intro hpos
  obtain ⟨_, _, hread⟩ := hr
  have hlog : hdr.chunkLog2 < 64 := by
    by_contra hlog
    have := hread 0 []
    rw [readRange_holds hget h, if_neg (by omega), if_pos (by omega)] at this
    cases this
  refine ⟨hlog, fun i hi => ?_⟩
  obtain ⟨_, hplen, _⟩ := ObjectHeader.decode_bounds h.decode
  have hone := hread (i * 2 ^ hdr.chunkLog2) [0]
  have hwant : min [(0 : UInt8)].length (hdr.payloadLen - i * 2 ^ hdr.chunkLog2) = 1 := by
    rw [List.length_singleton]
    omega
  rw [readRange_holds hget h, if_neg (by omega), if_neg (by omega), hwant, readChunks, if_pos one_pos, Nat.add_zero,
    u64_of_lt (by omega), bind_eq_ok] at hone
  obtain ⟨⟨chunkBuf, within⟩, hchunk, hrest⟩ := hone
  have hdiv : i * 2 ^ hdr.chunkLog2 / 2 ^ hdr.chunkLog2 = i := Nat.mul_div_cancel _ (Nat.two_pow_pos _)
  by_cases hidx : i < 2 ^ 32
  · rw [readChunk_eq h hfile hi (by rw [hdiv]; exact hidx), hdiv, bind_eq_ok] at hchunk
    obtain ⟨_, hv, _⟩ := hchunk
    obtain ⟨hin, hdig⟩ := verifyChunk_eq_ok.mp hv
    rw [h.length_table] at hin
    have hcount : i < hdr.chunkCount := Nat.le_of_mul_le_mul_right hin (by decide)
    rw [slice_table hcount] at hdig
    exact ⟨hcount, by rw [← hdig, h.payload_eq]⟩
  · -- The copy out of the chunk that the cut index names leaves the chunk.
    have hcut := readChunk_cut (by omega) (by rw [hdiv]; omega) hchunk
    simp only at hcut hrest
    rw [if_pos ?_] at hrest
    · cases hrest
    · omega

end

/-- A verified object is served by range exactly when its table holds the digest
of each chunk of its payload. -/
theorem verified_serves_ranges_iff (blake3 : Bytes → Oid) (s : LooseStore) (oid : Oid) (kind : ObjectKind)
    (h : s.verifyBlock blake3 oid kind = .ok ()) :
    ServesRanges blake3 s oid kind ↔
      ∃ file hdr, s.files.get? oid = some file ∧ ObjectHeader.decode file = .ok hdr ∧ ChunksVerify blake3 file hdr := by
  obtain ⟨payload, hp⟩ := verifyBlock_eq_ok.mp h
  obtain ⟨file, hdr, hget, hfile, hh⟩ := get_eq_ok.mp hp
  constructor
  · intro hr
    exact ⟨file, hdr, hget, hh.decode, chunksVerify_of_servesRanges hget hfile hh hr⟩
  · rintro ⟨file', hdr', hget', hdec, hc⟩
    cases hget.symm.trans hget'
    cases hh.decode.symm.trans hdec
    exact servesRanges_of_chunksVerify hget hfile hh hc

/-! ### A verified object that ranged reads refuse -/

/-- One payload byte behind a header that announces no digest at all. -/
def untabled : Bytes := ObjectHeader.encode ⟨0, 0, 22, 1, 1, 0⟩ ++ [1]

def untabledStore (blake3 : Bytes → Oid) : LooseStore :=
  ⟨2 ^ 22, FinMap.empty.insert (computeOid blake3 .raw [1]) untabled⟩

theorem untabled_holds (blake3 : Bytes → Oid) :
    Holds blake3 untabled ⟨0, 0, 22, 1, 1, 0⟩ (computeOid blake3 .raw [1]) .raw [1] where
  decode := by decide
  kind_eq := rfl
  plain := rfl
  length_eq := by decide
  payload_eq := by decide
  address := rfl

/-- Whatever the hash: `verifyBlock` accepts the file and a one-byte read fails. -/
theorem verified_object_not_served : ¬ ∃ blake3 : Bytes → Oid, ∀ s oid kind,
    verifyBlock blake3 s oid kind = .ok () → ServesRanges blake3 s oid kind := by
  rintro ⟨blake3, h⟩
  have hget : (untabledStore blake3).files.get? (computeOid blake3 .raw [1]) = some untabled :=
    FinMap.get?_insert_self _ _ _
  have hfile : untabled.length < 2 ^ 64 := by decide
  have hv : (untabledStore blake3).verifyBlock blake3 (computeOid blake3 .raw [1]) .raw = .ok () :=
    verifyBlock_eq_ok.mpr ⟨[1], get_eq_ok.mpr ⟨_, _, hget, hfile, untabled_holds blake3⟩⟩
  have hc := chunksVerify_of_servesRanges hget hfile (untabled_holds blake3) (h _ _ _ hv)
  exact absurd ((hc Nat.one_pos).2 0 (by decide)).1 (by decide)

/-- BLAKE3 on the one-byte payload: framed, and as a chunk. -/
def oneByteHash (b : Bytes) : Oid :=
  if b = [1] then
    ⟨[0x48, 0xfc, 0x72, 0x1f, 0xbb, 0xc1, 0x72, 0xe0, 0x92, 0x5f, 0xa2, 0x7a, 0xf1, 0x67, 0x1d, 0xe2,
      0x25, 0xba, 0x92, 0x71, 0x34, 0x80, 0x29, 0x98, 0xb1, 0x0a, 0x15, 0x68, 0xa1, 0x88, 0x65, 0x2b], rfl⟩
  else
    ⟨[0xa9, 0x3e, 0xe1, 0xf5, 0xd1, 0x08, 0xff, 0xb5, 0xb9, 0x91, 0x9c, 0x01, 0x06, 0x4b, 0xa6, 0x74,
      0x40, 0xd5, 0xb1, 0x27, 0x51, 0x97, 0xa1, 0x13, 0x71, 0x7b, 0xc7, 0xee, 0x87, 0x59, 0xc3, 0x0b], rfl⟩

def tabled : Bytes := ObjectHeader.encode ⟨0, 0, 22, 1, 1, 1⟩ ++ digest oneByteHash [1] ++ [1]

theorem verified_serves_ranges_iff_tabled :
    let oid := computeOid oneByteHash .raw [1]
    let s : LooseStore := ⟨2 ^ 22, FinMap.empty.insert oid tabled⟩
    s.verifyBlock oneByteHash oid .raw = .ok () ∧ (ServesRanges oneByteHash s oid .raw ↔
      ∃ file hdr, s.files.get? oid = some file ∧ ObjectHeader.decode file = .ok hdr ∧
        ChunksVerify oneByteHash file hdr) := by
  intro oid s
  have hv : s.verifyBlock oneByteHash oid .raw = .ok () := by decide
  exact ⟨hv, verified_serves_ranges_iff oneByteHash s oid .raw hv⟩

end LooseStore

end SynapseFs.Store
