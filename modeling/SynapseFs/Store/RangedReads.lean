import SynapseFs.Store.Loose

/-! What a ranged read is bound to.

`readRange` checks each chunk against the digest table in front of it, in the
same file, and looks at the address only to find that file. So what it returns is
fixed by the header and the table (`readRange_unique`), and by the address only
when the file as a whole hashes to it (`readRange_slice`). -/
namespace SynapseFs.Store
open Lib Core Format

namespace LooseStore

/-! ### The address is only a path -/

section
variable {blake3 : Bytes → Oid} {file : Bytes} {hdr : ObjectHeader} {digests : Bytes} {oid oid' : Oid}

theorem readChunk_path {absOff : Nat} {r : Bytes × Nat} (h : readChunk blake3 file hdr digests oid absOff = .ok r) :
    readChunk blake3 file hdr digests oid' absOff = .ok r := by
  unfold readChunk at h ⊢
  dsimp only at h ⊢
  split at h
  · exact absurd h sfsErr_ne_ok
  · next hlen =>
    rw [if_neg hlen]
    exact h

theorem readChunks_path {offset want fuel : Nat} : ∀ {done : Nat} {out : Bytes} {r : Nat × Bytes},
    readChunks blake3 file hdr digests oid offset want fuel done out = .ok r →
    readChunks blake3 file hdr digests oid' offset want fuel done out = .ok r := by
  induction fuel with
  | zero => exact fun h => h
  | succ fuel ih =>
    intro done out r h
    unfold readChunks at h ⊢
    split at h
    · next hdone =>
      rw [if_pos hdone]
      obtain ⟨c, hc, h⟩ := bind_eq_ok.mp h
      refine bind_eq_ok.mpr ⟨c, readChunk_path hc, ?_⟩
      dsimp only at h ⊢
      split at h
      · cases h
      · next hfit =>
        rw [if_neg hfit]
        exact ih h
    · next hdone =>
      rw [if_neg hdone]
      exact h

/-- What a successful ranged read went through. -/
structure RangeRead (blake3 : Bytes → Oid) (oid : Oid) (kind : ObjectKind) (offset : Nat) (out file : Bytes)
    (hdr : ObjectHeader) (r : Nat × Bytes) : Prop where
  size : ObjectHeader.kSize ≤ file.length
  decode : ObjectHeader.decode (file.take ObjectHeader.kSize) = .ok hdr
  kind_eq : hdr.kind = kind.toByte
  plain : hdr.compression = 0
  served : (hdr.payloadLen ≤ offset ∧ r = (0, out)) ∨
    (offset < hdr.payloadLen ∧ hdr.chunkLog2 < 64 ∧ (table file hdr).length = hdr.chunkCount * kOidBytes ∧
      readChunks blake3 file hdr (table file hdr) oid offset (min out.length (hdr.payloadLen - offset))
        (min out.length (hdr.payloadLen - offset)) 0 out = .ok r)

theorem readRange_eq_ok {s : LooseStore} {kind : ObjectKind} {offset : Nat} {out : Bytes} {r : Nat × Bytes} :
    s.readRange blake3 oid kind offset out = .ok r ↔
      ∃ file hdr, s.files.get? oid = some file ∧ RangeRead blake3 oid kind offset out file hdr r := by
  constructor
  · intro h
    obtain ⟨file, hf, h⟩ := bind_eq_ok.mp h
    split at h
    · exact absurd h sfsErr_ne_ok
    · next hsize =>
      obtain ⟨hdr, hd, h⟩ := bind_eq_ok.mp h
      obtain ⟨_, hc, h⟩ := bind_eq_ok.mp h
      obtain ⟨hk, hp⟩ := checkHeader_eq_ok.mp hc
      refine ⟨file, hdr, openFile_eq_ok.mp hf, not_lt.mp hsize, hd, hk, hp, ?_⟩
      split at h
      · next hpast =>
        cases h
        exact .inl ⟨hpast, rfl⟩
      · next hin =>
        split at h
        · cases h
        · next hlog =>
          dsimp only at h
          split at h
          · exact absurd h sfsErr_ne_ok
          · next htable => exact .inr ⟨not_le.mp hin, not_le.mp hlog, not_not.mp htable, h⟩
  · rintro ⟨file, hdr, hf, h⟩
    refine bind_eq_ok.mpr ⟨file, openFile_eq_ok.mpr hf, ?_⟩
    rw [if_neg (not_lt.mpr h.size)]
    refine bind_eq_ok.mpr ⟨hdr, h.decode, bind_eq_ok.mpr ⟨(), checkHeader_eq_ok.mpr ⟨h.kind_eq, h.plain⟩, ?_⟩⟩
    rcases h.served with ⟨hpast, rfl⟩ | ⟨hin, hlog, htable, hr⟩
    · rw [if_pos hpast]
    · rw [if_neg (not_le.mpr hin), if_neg (not_le.mpr hlog)]
      show (if (table file hdr).length ≠ _ then _ else _) = _
      rw [if_neg (not_not.mpr htable)]
      exact hr

/-- A file that is served under one address is served the same under any other. -/
theorem readRange_path {s s' : LooseStore} {kind : ObjectKind} {offset : Nat} {out : Bytes} {r : Nat × Bytes}
    (hf : s.files.get? oid = some file) (hf' : s'.files.get? oid' = some file)
    (h : s.readRange blake3 oid kind offset out = .ok r) : s'.readRange blake3 oid' kind offset out = .ok r := by
  obtain ⟨_, hdr, hget, hr⟩ := readRange_eq_ok.mp h
  cases hf.symm.trans hget
  refine readRange_eq_ok.mpr ⟨file, hdr, hf', hr.size, hr.decode, hr.kind_eq, hr.plain, ?_⟩
  rcases hr.served with hpast | ⟨hin, hlog, htable, hrun⟩
  · exact .inl hpast
  · exact .inr ⟨hin, hlog, htable, readChunks_path hrun⟩

end

/-! ### A file that holds its object -/

section
variable {blake3 : Bytes → Oid} {file : Bytes} {hdr : ObjectHeader} {oid : Oid} {kind : ObjectKind} {payload : Bytes}

theorem readChunks_slice (h : Holds blake3 file hdr oid kind payload) (hfile : file.length < 2 ^ 64) {offset want : Nat}
    (out : Bytes) (hwant : offset + want ≤ hdr.payloadLen) (fuel : Nat) : ∀ {done : Nat} {r : Nat × Bytes},
    done ≤ want → readChunks blake3 file hdr (table file hdr) oid offset want fuel done
      (filled (slice payload offset done) out) = .ok r → r = (want, filled (slice payload offset want) out) := by
  obtain ⟨-, hplen, -⟩ := ObjectHeader.decode_bounds h.decode
  induction fuel with
  | zero =>
    intro done r hle hr
    unfold readChunks at hr
    split at hr
    · cases hr
    · obtain rfl : done = want := by omega
      cases hr
      rfl
  | succ fuel ih =>
    intro done r hle hr
    unfold readChunks at hr
    split at hr
    · next hdone =>
      obtain ⟨⟨c, within⟩, hc, hr⟩ := bind_eq_ok.mp hr
      rw [u64_of_lt (by omega)] at hc
      dsimp only at hr
      by_cases hidx : (offset + done) / 2 ^ hdr.chunkLog2 < 2 ^ 32
      · obtain ⟨hpos, hfit, hwrite⟩ := overwrite_chunk h out hdone hwant
        rw [readChunk_eq h hfile (by omega) hidx] at hc
        obtain ⟨_, -, hc⟩ := bind_eq_ok.mp hc
        cases hc
        rw [u64Sub_of_le (by omega) (by rw [chunk, length_slice, h.length_payload]; omega), if_neg (by omega),
          hwrite] at hr
        exact ih (by omega) hr
      · -- The index was cut: the copy would leave the chunk.
        have hcut := readChunk_cut (by omega) (not_lt.mp hidx) hc
        dsimp only at hcut
        rw [if_pos (by omega)] at hr
        cases hr
    · obtain rfl : done = want := by omega
      cases hr
      rfl

/-- Where the whole object is there, a ranged read that succeeds returns its slice. -/
theorem readRange_slice {s : LooseStore} (hget : s.get blake3 oid kind = .ok payload) {offset : Nat} {out : Bytes}
    {r : Nat × Bytes} (hr : s.readRange blake3 oid kind offset out = .ok r) :
    r = (min out.length (payload.length - offset), filled (slice payload offset out.length) out) := by
  obtain ⟨file, hdr, hf, hfile, hh⟩ := get_eq_ok.mp hget
  rw [readRange_holds hf hh] at hr
  have hpay := hh.length_payload
  split at hr
  · next hpast =>
    cases hr
    rw [slice_past _ _ (by omega), filled_nil, Nat.sub_eq_zero_of_le (by omega), Nat.min_zero]
  · split at hr
    · cases hr
    · have hzero : filled (slice payload offset 0) out = out := by rw [slice_zero_len, filled_nil]
      rw [← hpay] at hr
      rw [← hzero] at hr
      have hlen : (filled (slice payload offset 0) out).length = out.length := by rw [hzero]
      rw [hlen] at hr
      rw [readChunks_slice hh hfile out (by omega) _ (Nat.zero_le _) hr, slice_min]

end

/-! ### Two files -/

section
variable {blake3 : Bytes → Oid} {f f' : Bytes} {hdr : ObjectHeader} {digests : Bytes} {oid : Oid}

/-- No two stretches of the two files collide. -/
def Apart (blake3 : Bytes → Oid) (f f' : Bytes) : Prop :=
  ∀ off len off' len', blake3 (slice f off len) = blake3 (slice f' off' len') → slice f off len = slice f' off' len'

/-- A chunk that passes the check is fixed by its digest. -/
theorem readChunk_unique (ha : Apart blake3 f f') {absOff : Nat} {r r' : Bytes × Nat}
    (h : readChunk blake3 f hdr digests oid absOff = .ok r) (h' : readChunk blake3 f' hdr digests oid absOff = .ok r') :
    r = r' := by
  unfold readChunk at h h'
  dsimp only at h h'
  split at h
  · exact absurd h sfsErr_ne_ok
  · split at h'
    · exact absurd h' sfsErr_ne_ok
    · obtain ⟨_, hv, h⟩ := bind_eq_ok.mp h
      obtain ⟨_, hv', h'⟩ := bind_eq_ok.mp h'
      have hd := (verifyChunk_eq_ok.mp hv).2.trans (verifyChunk_eq_ok.mp hv').2.symm
      cases h
      cases h'
      rw [ha _ _ _ _ (Oid.ext hd)]

theorem readChunks_unique (ha : Apart blake3 f f') {offset want fuel : Nat} : ∀ {done : Nat} {out : Bytes}
    {r r' : Nat × Bytes}, readChunks blake3 f hdr digests oid offset want fuel done out = .ok r →
    readChunks blake3 f' hdr digests oid offset want fuel done out = .ok r' → r = r' := by
  induction fuel with
  | zero =>
    intro done out r r' h h'
    exact Except.ok.inj (h.symm.trans h')
  | succ fuel ih =>
    intro done out r r' h h'
    unfold readChunks at h h'
    split at h
    · next hdone =>
      rw [if_pos hdone] at h'
      obtain ⟨c, hc, h⟩ := bind_eq_ok.mp h
      obtain ⟨c', hc', h'⟩ := bind_eq_ok.mp h'
      cases readChunk_unique ha hc hc'
      dsimp only at h h'
      split at h
      · cases h
      · next hfit =>
        rw [if_neg hfit] at h'
        exact ih h h'
    · next hdone =>
      rw [if_neg hdone] at h'
      exact Except.ok.inj (h.symm.trans h')

/-- Two files begin with the same header and the same digest table. -/
def SameTable (f f' : Bytes) : Prop :=
  f.take ObjectHeader.kSize = f'.take ObjectHeader.kSize ∧
    ∀ hdr, ObjectHeader.decode (f.take ObjectHeader.kSize) = .ok hdr → table f hdr = table f' hdr

/-- Behind one header and one table there is one answer. -/
theorem readRange_unique {s s' : LooseStore} (hf : s.files.get? oid = some f) (hf' : s'.files.get? oid = some f')
    (hs : SameTable f f') (ha : Apart blake3 f f') {kind : ObjectKind} {offset : Nat} {out : Bytes} {r r' : Nat × Bytes}
    (h : s.readRange blake3 oid kind offset out = .ok r) (h' : s'.readRange blake3 oid kind offset out = .ok r') :
    r = r' := by
  obtain ⟨_, hdr, hget, hr⟩ := readRange_eq_ok.mp h
  obtain ⟨_, hdr', hget', hr'⟩ := readRange_eq_ok.mp h'
  cases hf.symm.trans hget
  cases hf'.symm.trans hget'
  have hhdr : hdr = hdr' := Except.ok.inj (hr.decode.symm.trans ((congrArg ObjectHeader.decode hs.1).trans hr'.decode))
  subst hhdr
  rcases hr.served with ⟨hpast, rfl⟩ | ⟨hin, -, -, hrun⟩
  · rcases hr'.served with ⟨-, rfl⟩ | ⟨hin', -⟩
    · rfl
    · omega
  · rcases hr'.served with ⟨hpast', -⟩ | ⟨-, -, -, hrun'⟩
    · omega
    · rw [← hs.2 hdr hr.decode] at hrun'
      exact readChunks_unique ha hrun hrun'

end

/-! ### The binding -/

/-- What a ranged read returns is a slice of the object at the address, if the
file holds that object; and in any case the only answer that its header and its
digest table allow. -/
theorem readRange_bound (blake3 : Bytes → Oid) (s : LooseStore) (oid : Oid) (kind : ObjectKind) (offset : Nat)
    (out : Bytes) {n : Nat} {bytes : Bytes} (h : s.readRange blake3 oid kind offset out = .ok (n, bytes)) :
    (∀ payload, s.get blake3 oid kind = .ok payload → computeOid blake3 kind payload = oid ∧
      n = min out.length (payload.length - offset) ∧ bytes = filled (slice payload offset n) out) ∧
    ∀ (s' : LooseStore) (f f' : Bytes), s.files.get? oid = some f → s'.files.get? oid = some f' → SameTable f f' →
      Apart blake3 f f' → ∀ n' bytes', s'.readRange blake3 oid kind offset out = .ok (n', bytes') →
        n' = n ∧ bytes' = bytes := by
  refine ⟨fun payload hget => ?_, fun s' f f' hf hf' hs ha n' bytes' h' => ?_⟩
  · obtain ⟨_, _, _, _, hh⟩ := get_eq_ok.mp hget
    cases readRange_slice hget h
    exact ⟨hh.address, rfl, by rw [slice_min]⟩
  · cases readRange_unique hf hf' hs ha h h'
    exact ⟨rfl, rfl⟩

/-- One payload byte with its digest. -/
def oneByteFile (blake3 : Bytes → Oid) (b : UInt8) : Bytes :=
  ObjectHeader.encode ⟨0, 0, 22, 1, 1, 1⟩ ++ digest blake3 [b] ++ [b]

theorem readRange_bound_tailed :
    let oid := computeOid oneByteHash .raw [1]
    let s : LooseStore := ⟨2 ^ 22, FinMap.empty.insert oid tabled⟩
    let s' : LooseStore := ⟨2 ^ 22, FinMap.empty.insert oid (tabled ++ [9])⟩
    s.readRange oneByteHash oid .raw 0 [0] = .ok (1, [1]) ∧ s.get oneByteHash oid .raw = .ok [1] ∧
      computeOid oneByteHash .raw [1] = oid ∧ SameTable tabled (tabled ++ [9]) ∧
      s'.readRange oneByteHash oid .raw 0 [0] = .ok (1, [1]) := by
  intro oid s s'
  have hr : s.readRange oneByteHash oid .raw 0 [0] = .ok (1, [1]) := by decide
  have hg : s.get oneByteHash oid .raw = .ok [1] := by decide
  have hb := readRange_bound oneByteHash s oid .raw 0 [0] hr
  refine ⟨hr, hg, (hb.1 [1] hg).1, ⟨by decide, fun hdr hd => ?_⟩, by decide⟩
  have htabled : ObjectHeader.decode (tabled.take ObjectHeader.kSize) = .ok ⟨0, 0, 22, 1, 1, 1⟩ := by decide
  cases htabled.symm.trans hd
  decide

/-- The container of one byte holds that byte under its own address. -/
theorem oneByteFile_holds (blake3 : Bytes → Oid) (b : UInt8) :
    Holds blake3 (oneByteFile blake3 b) ⟨0, 0, 22, 1, 1, 1⟩ (computeOid blake3 .raw [b]) .raw [b] where
  decode := by
    unfold oneByteFile
    rw [List.append_assoc]
    exact ObjectHeader.decode_encode _ _ (by decide) (by decide) (by decide) (by decide)
  kind_eq := rfl
  plain := rfl
  length_eq := by
    simp only [oneByteFile, List.length_append, ObjectHeader.length_encode, length_digest]
    rfl
  payload_eq := by
    rw [oneByteFile, List.drop_left']
    simp [ObjectHeader.length_encode, ObjectHeader.payloadOffset]
  address := rfl

theorem oneByteFile_chunks (blake3 : Bytes → Oid) (b : UInt8) :
    ChunksVerify blake3 (oneByteFile blake3 b) ⟨0, 0, 22, 1, 1, 1⟩ := by
  intro _
  refine ⟨by decide, fun i hi => ?_⟩
  obtain rfl : i = 0 := by
    dsimp only at hi
    omega
  refine ⟨by decide, ?_⟩
  rw [← (oneByteFile_holds blake3 b).payload_eq, oneByteFile, List.append_assoc]
  exact slice_middle _ _ _ (ObjectHeader.length_encode _) (length_digest _ _)

def foreignStore (blake3 : Bytes → Oid) (oid : Oid) (b : UInt8) : LooseStore :=
  ⟨2 ^ 22, FinMap.empty.insert oid (oneByteFile blake3 b)⟩

/-- Under any address, the container of a byte serves that byte. -/
theorem foreign_served (blake3 : Bytes → Oid) (oid : Oid) (b : UInt8) :
    (foreignStore blake3 oid b).readRange blake3 oid .raw 0 [0] = .ok (1, [b]) := by
  have hown : (foreignStore blake3 (computeOid blake3 .raw [b]) b).files.get? (computeOid blake3 .raw [b]) =
      some (oneByteFile blake3 b) := FinMap.get?_insert_self _ _ _
  have hlen : (oneByteFile blake3 b).length < 2 ^ 64 := by
    simp [oneByteFile, ObjectHeader.length_encode, ObjectHeader.kSize, kOidBytes]
  obtain ⟨payload, hget, hserve⟩ :=
    servesRanges_of_chunksVerify hown hlen (oneByteFile_holds blake3 b) (oneByteFile_chunks blake3 b)
  cases hget.symm.trans (get_eq_ok.mpr ⟨_, _, hown, hlen, oneByteFile_holds blake3 b⟩)
  exact readRange_path hown (FinMap.get?_insert_self _ _ _) (hserve 0 [0])

/-- Whatever the hash, two files at one address serve different bytes; and if only
`[1]` hashes to the address of `[1]`, the second file serves a byte that no
payload with that address has. -/
theorem readRange_not_bound :
    (¬ ∃ blake3 : Bytes → Oid, ∀ (s s' : LooseStore) oid kind offset out r r',
      s.readRange blake3 oid kind offset out = .ok r → s'.readRange blake3 oid kind offset out = .ok r' → r = r') ∧
    ∀ blake3 : Bytes → Oid, (∀ p, computeOid blake3 .raw p = computeOid blake3 .raw [1] → p = [1]) →
      ¬ ∀ (s : LooseStore) oid kind offset out n bytes, s.readRange blake3 oid kind offset out = .ok (n, bytes) → 0 < n →
        ∃ p, computeOid blake3 kind p = oid ∧ bytes = filled (slice p offset n) out := by
  constructor
  · rintro ⟨blake3, h⟩
    have := h _ _ zeroOid .raw 0 [0] _ _ (foreign_served blake3 zeroOid 1) (foreign_served blake3 zeroOid 2)
    cases this
  · intro blake3 honly h
    obtain ⟨p, hp, hbytes⟩ := h _ _ .raw 0 [0] 1 [2] (foreign_served blake3 (computeOid blake3 .raw [1]) 2) Nat.one_pos
    rw [honly p hp] at hbytes
    cases hbytes

end LooseStore

end SynapseFs.Store
