import SynapseFs.Core.RepoConfig
import SynapseFs.Lib.Blocks
import SynapseFs.Store.Containers

/-! The streaming put.

`StreamingWriter` builds the container `put` builds without ever holding the
payload: bytes go to a file under `tmp/` as they come, a chunk buffer is digested
whenever it is full, and `commit` lays header, digests and payload out in a
second file that is renamed into place. `put_streamed` is the outcome of a whole
session, for any cut of the payload into pieces. It is what `put` returns except
for one check: `encodeObject` refuses a chunk size that is no power of two, and
nothing here does (`stream_agrees_iff`).

The file system does not fail, and BLAKE3 in pieces is BLAKE3 of what they make
up, so the hasher is the bytes it has taken. -/
namespace SynapseFs.Store
open Lib Core Format

/-- The trailing zeros of a 64-bit word. -/
def countrZero (v : Nat) : Nat := ((List.range 64).find? fun i => v.testBit i).getD 64

def log2Exact (v : Nat) : Nat := countrZero v

theorem log2Exact_eq {v : Nat} (h : isPow2 v = true) (hv : v < 2 ^ 64) : log2Exact v = v.log2 := by
  have hpow := isPow2_eq h
  have hlt : v.log2 < 64 := by
    rw [← hpow] at hv
    exact (Nat.pow_lt_pow_iff_right Nat.one_lt_two).mp hv
  have hfind : (List.range 64).find? (fun i => v.testBit i) = some v.log2 := by
    rw [List.find?_range_eq_some]
    refine ⟨?_, List.mem_range.mpr hlt, fun j hj => ?_⟩
    · rw [← hpow, Nat.testBit_two_pow, hpow, decide_eq_true_eq]
    · rw [← hpow, Nat.testBit_two_pow, Bool.not_eq_true', decide_eq_false_iff_not]
      omega
  rw [log2Exact, countrZero, hfind]
  rfl

/-- The object files, and the files under `tmp/` by name. -/
structure StoreDirs where
  loose : LooseStore
  tmp : FinMap String Bytes

/-- What an opened file holds: `O_CREAT` without `O_TRUNC`. -/
def openCreate (tmp : FinMap String Bytes) (name : String) : Bytes := (tmp.get? name).getD []

/-- `dest.filename()`: the address without its first byte. -/
def fanoutName (oid : Oid) : String := String.ofList (hexEncode (oid.bytes.drop 1))

def finalName (oid : Oid) : String := fanoutName oid ++ ".final"

def tmpName (pid counter : Nat) : String := "wr." ++ toString pid ++ "." ++ toString counter

structure StreamingWriter where
  kind : ObjectKind
  expectedLen : Nat
  tmpPath : String
  chunkBytes : Nat
  /-- The bytes the hasher has taken. -/
  hasher : Bytes
  written : Nat
  chunkBuf : Bytes
  digests : Bytes

/-- `begin_put`: the temp file is opened and the hash frame begun. -/
def beginPut (d : StoreDirs) (pid counter : Nat) (kind : ObjectKind) (payloadLen : Nat) : StreamingWriter × StoreDirs :=
  ({ kind
     expectedLen := payloadLen
     tmpPath := tmpName pid counter
     chunkBytes := d.loose.chunkBytes
     hasher := framePrefix kind payloadLen
     written := 0
     chunkBuf := []
     digests := [] },
    { d with tmp := d.tmp.insert (tmpName pid counter) (openCreate d.tmp (tmpName pid counter)) })

namespace StreamingWriter

variable (blake3 : Bytes → Oid)

def flushChunk (digests chunkBuf : Bytes) : Bytes := digests ++ digest blake3 chunkBuf

def write (w : StreamingWriter) (data : Bytes) (d : StoreDirs) : StreamingWriter × StoreDirs :=
  if data = [] then (w, d)
  else
    let (digests, chunkBuf) :=
      Blocks.absorb (flushChunk blake3) w.chunkBytes data.length (w.digests, w.chunkBuf) data
    ({ w with hasher := w.hasher ++ data, digests, chunkBuf, written := u64 (w.written + data.length) },
      { d with tmp := d.tmp.insert w.tmpPath (pwriteAll 0 (openCreate d.tmp w.tmpPath) data w.written) })

/-- The loop that streams the payload from one file into the other, a buffer at a time. -/
def copyPayload (path : String) (file : Bytes) (written : Nat) : Nat → Nat → Nat → Bytes → Outcome Bytes
  | 0, inOff, _, out => if inOff < written then .error .outOfFuel else .ok out
  | fuel + 1, inOff, outOff, out =>
    if inOff < written then
      let want := min (2 ^ 20) (written - inOff)
      let buf := slice file inOff want
      if buf.length ≠ want then sfsErr .io "copy failed" path
      else copyPayload path file written fuel (inOff + want) (outOff + want) (pwriteAll 0 out buf outOff)
    else .ok out

def commit (w : StreamingWriter) (d : StoreDirs) : Outcome (Oid × StoreDirs) :=
  let digests := if w.chunkBuf = [] then w.digests else flushChunk blake3 w.digests w.chunkBuf
  if w.written ≠ w.expectedLen then sfsErr .internal "streaming writer: written != declared length" w.tmpPath
  else
    let oid := blake3 w.hasher
    match d.loose.files.get? oid with
    | some _ => .ok (oid, { d with tmp := d.tmp.erase w.tmpPath })
    | none =>
      let hdr : ObjectHeader :=
        { kind := w.kind.toByte
          compression := 0
          chunkLog2 := log2Exact w.chunkBytes
          payloadLen := w.expectedLen
          storedLen := w.expectedLen
          chunkCount := u32 (digests.length / kOidBytes) }
      let out := pwriteAll 0 (openCreate d.tmp (finalName oid)) hdr.encode 0
      let out := pwriteAll 0 out digests ObjectHeader.kSize
      match d.tmp.get? w.tmpPath with
      | none => sfsErr .io "cannot reopen payload temp file" w.tmpPath
      | some file => do
        let out ← copyPayload w.tmpPath file w.written w.written 0 (ObjectHeader.kSize + digests.length) out
        return (oid, { loose := { d.loose with files := d.loose.files.insert oid out }
                       tmp := (d.tmp.erase (finalName oid)).erase w.tmpPath })

end StreamingWriter

/-- `begin_put`, a `write` for each piece, `commit`. -/
def putStreamed (blake3 : Bytes → Oid) (d : StoreDirs) (pid counter : Nat) (kind : ObjectKind) (size : Nat)
    (pieces : List Bytes) : Outcome (Oid × StoreDirs) :=
  let (w, d) := pieces.foldl (fun (w, d) piece => w.write blake3 piece d) (beginPut d pid counter kind size)
  w.commit blake3 d

/-! ### Names under `tmp/` -/

theorem finalName_ne_tmpName (oid : Oid) (pid counter : Nat) : finalName oid ≠ tmpName pid counter := by
  have hlen := oid.length_eq
  have hhex : ∀ n < 16, hexDigit n ≠ 'w' := by decide
  intro h
  have hhead := congrArg (fun s => s.toList.head?) h
  obtain ⟨x, rest, hx⟩ : ∃ x rest, oid.bytes.drop 1 = x :: rest := by
    cases hdrop : oid.bytes.drop 1 with
    | nil =>
      have := congrArg List.length hdrop
      rw [List.length_drop, hlen, kOidBytes, List.length_nil] at this
      omega
    | cons x rest => exact ⟨x, rest, rfl⟩
  have hbyte : x.toNat < 256 := x.toNat_lt
  simp only [finalName, fanoutName, tmpName, hx, hexEncode, String.toList_append, String.toList_ofList,
    List.cons_append, List.head?_cons, String.reduceToList, Option.some.injEq] at hhead
  exact hhex _ (by omega) hhead

/-! ### A session -/

/-- Where a session stands once the pieces so far make up `done`. -/
structure Streamed (blake3 : Bytes → Oid) (kind : ObjectKind) (size : Nat) (loose : LooseStore) (path : String)
    (done : Bytes) (w : StreamingWriter) (d : StoreDirs) : Prop where
  kind_eq : w.kind = kind
  expectedLen_eq : w.expectedLen = size
  path_eq : w.tmpPath = path
  chunkBytes_eq : w.chunkBytes = loose.chunkBytes
  hasher_eq : w.hasher = framePrefix kind size ++ done
  written_eq : w.written = done.length
  fed_eq : (w.digests, w.chunkBuf) = Blocks.fed (StreamingWriter.flushChunk blake3) loose.chunkBytes [] done
  loose_eq : d.loose = loose
  tmp_eq : d.tmp.get? path = some done
  tmp_other : ∀ name, name ≠ path → d.tmp.get? name = none

section
variable {blake3 : Bytes → Oid} {kind : ObjectKind} {size : Nat} {loose : LooseStore} {path : String}

theorem beginPut_streamed (hc : 0 < loose.chunkBytes) (pid counter : Nat) :
    let (w, d) := beginPut ⟨loose, FinMap.empty⟩ pid counter kind size
    Streamed blake3 kind size loose (tmpName pid counter) [] w d where
  kind_eq := rfl
  expectedLen_eq := rfl
  path_eq := rfl
  chunkBytes_eq := rfl
  hasher_eq := (List.append_nil _).symm
  written_eq := rfl
  fed_eq := (Blocks.fed_short _ _ hc).symm
  loose_eq := rfl
  tmp_eq := FinMap.get?_insert_self _ _ _
  tmp_other := fun _ h => FinMap.get?_insert_ne _ _ h

theorem write_streamed (hc : 0 < loose.chunkBytes) {done data : Bytes} (hlen : (done ++ data).length < 2 ^ 64)
    {w : StreamingWriter} {d : StoreDirs} (h : Streamed blake3 kind size loose path done w d) :
    Streamed blake3 kind size loose path (done ++ data) (w.write blake3 data d).1 (w.write blake3 data d).2 := by
  unfold StreamingWriter.write
  by_cases hdata : data = []
  · rw [if_pos hdata, hdata, List.append_nil]
    exact h
  · rw [if_neg hdata]
    have hrest := Blocks.fed_rest_lt (StreamingWriter.flushChunk blake3) hc [] done
    have hpiece := Blocks.absorb_eq (StreamingWriter.flushChunk blake3) hc data.length
      (Blocks.fed (StreamingWriter.flushChunk blake3) loose.chunkBytes [] done).1 hrest (le_refl data.length)
    rw [Blocks.fed_append _ hc, Prod.mk.eta, ← h.fed_eq] at hpiece
    constructor
    · exact h.kind_eq
    · exact h.expectedLen_eq
    · exact h.path_eq
    · exact h.chunkBytes_eq
    · rw [← List.append_assoc, ← h.hasher_eq]
    · show u64 (w.written + data.length) = _
      rw [List.length_append] at hlen
      rw [h.written_eq, List.length_append, u64_of_lt hlen]
    · rw [← hpiece, h.chunkBytes_eq]
    · exact h.loose_eq
    · show (d.tmp.insert w.tmpPath _).get? path = _
      rw [h.path_eq, FinMap.get?_insert_self, openCreate, h.tmp_eq, Option.getD_some, h.written_eq, pwriteAll_end]
    · intro name hname
      show (d.tmp.insert w.tmpPath _).get? name = none
      rw [h.path_eq, FinMap.get?_insert_ne _ _ hname]
      exact h.tmp_other name hname

/-- Every piece goes behind the ones before it. -/
theorem writes_streamed (hc : 0 < loose.chunkBytes) (pieces : List Bytes) (done : Bytes)
    (hlen : (done ++ pieces.flatten).length < 2 ^ 64) (w : StreamingWriter) (d : StoreDirs)
    (h : Streamed blake3 kind size loose path done w d) :
    let (w', d') := pieces.foldl (fun (w, d) piece => w.write blake3 piece d) (w, d)
    Streamed blake3 kind size loose path (done ++ pieces.flatten) w' d' := by
  induction pieces generalizing done w d with
  | nil =>
    rw [List.flatten_nil, List.append_nil]
    exact h
  | cons piece rest ih =>
    rw [List.flatten_cons, ← List.append_assoc] at hlen ⊢
    rw [List.foldl_cons]
    have hshort : (done ++ piece).length < 2 ^ 64 := by
      rw [List.length_append] at hlen
      omega
    exact ih (done ++ piece) hlen _ _ (write_streamed hc hshort h)

/-- The copy appends what is left of the payload. -/
theorem copyPayload_spec (path : String) (file : Bytes) (fuel inOff : Nat) (out : Bytes) (hin : inOff ≤ file.length)
    (hfuel : file.length - inOff ≤ fuel) :
    StreamingWriter.copyPayload path file file.length fuel inOff out.length out = .ok (out ++ file.drop inOff) := by
  induction fuel generalizing inOff out with
  | zero =>
    obtain rfl : inOff = file.length := by omega
    rw [StreamingWriter.copyPayload, if_neg (lt_irrefl _), List.drop_length, List.append_nil]
  | succ fuel ih =>
    unfold StreamingWriter.copyPayload
    by_cases hmore : inOff < file.length
    · rw [if_pos hmore]
      dsimp only
      set want := min (2 ^ 20) (file.length - inOff) with hwant
      have hlen : (slice file inOff want).length = want := by
        rw [length_slice]
        omega
      have hnext := ih (inOff + want) (out ++ slice file inOff want) (by omega) (by omega)
      rw [List.length_append, hlen] at hnext
      rw [if_neg (not_not.mpr hlen), pwriteAll_end, hnext, List.append_assoc, slice, ← List.drop_drop,
        List.take_append_drop]
    · rw [if_neg hmore, List.drop_eq_nil_of_le (by omega), List.append_nil]

/-- The chunks digested on the way are the chunks of the payload. -/
theorem digests_streamed (hc : 0 < loose.chunkBytes) {payload : Bytes} {w : StreamingWriter} {d : StoreDirs}
    (h : Streamed blake3 kind size loose path payload w d) :
    (if w.chunkBuf = [] then w.digests else StreamingWriter.flushChunk blake3 w.digests w.chunkBuf) =
      computeChunkDigests blake3 payload loose.chunkBytes := by
  have hbuf := congrArg Prod.snd h.fed_eq
  have hdig := congrArg Prod.fst h.fed_eq
  dsimp only at hbuf hdig
  rw [hbuf, hdig, Blocks.fed_flush _ hc, computeChunkDigests_eq blake3 payload hc, List.flatMap_eq_foldl]
  rfl

/-- The header of the streamed file: that of `put`, but for the chunk size. -/
def streamedHeader (blake3 : Bytes → Oid) (kind : ObjectKind) (payload : Bytes) (chunkBytes : Nat) : ObjectHeader :=
  { LooseStore.headerOf blake3 kind payload chunkBytes with chunkLog2 := log2Exact chunkBytes }

theorem commit_streamed (hc : 0 < loose.chunkBytes) {payload : Bytes} {pid counter : Nat} {w : StreamingWriter}
    {d : StoreDirs} (h : Streamed blake3 kind payload.length loose (tmpName pid counter) payload w d)
    (hslot : loose.files.get? (computeOid blake3 kind payload) = none) :
    ∃ tmp, w.commit blake3 d = .ok (computeOid blake3 kind payload,
      { loose := { loose with files := loose.files.insert (computeOid blake3 kind payload)
                                ((streamedHeader blake3 kind payload loose.chunkBytes).encode ++
                                  computeChunkDigests blake3 payload loose.chunkBytes ++ payload) }
        tmp }) := by
  have hoid : blake3 w.hasher = computeOid blake3 kind payload := by rw [h.hasher_eq]; rfl
  have hfinal : openCreate d.tmp (finalName (computeOid blake3 kind payload)) = [] := by
    rw [openCreate, h.tmp_other _ (finalName_ne_tmpName _ pid counter)]
    rfl
  have hcopy := copyPayload_spec (tmpName pid counter) payload payload.length 0
    ((streamedHeader blake3 kind payload loose.chunkBytes).encode ++ computeChunkDigests blake3 payload loose.chunkBytes)
    (Nat.zero_le _) (by omega)
  rw [List.length_append, ObjectHeader.length_encode, List.drop_zero] at hcopy
  have hhead : ∀ b : Bytes, pwriteAll 0 [] b 0 = b := pwriteAll_end 0 []
  have htable : ∀ (hdr : ObjectHeader) (b : Bytes), pwriteAll 0 hdr.encode b ObjectHeader.kSize = hdr.encode ++ b := by
    intro hdr b
    rw [← ObjectHeader.length_encode hdr, pwriteAll_end]
  refine ⟨(d.tmp.erase (finalName (computeOid blake3 kind payload))).erase (tmpName pid counter), ?_⟩
  unfold StreamingWriter.commit
  simp only [digests_streamed hc h, hoid, h.loose_eq, hslot, h.written_eq, h.expectedLen_eq, h.path_eq, h.tmp_eq,
    h.kind_eq, h.chunkBytes_eq, hfinal, hhead, htable, ne_eq, not_true_eq_false, if_false]
  exact bind_eq_ok.mpr ⟨_, hcopy, rfl⟩

end

/-- A whole session over a slot that is free, whatever the pieces and the chunk size. -/
theorem putStreamed_eq {blake3 : Bytes → Oid} {loose : LooseStore} {kind : ObjectKind} {payload : Bytes}
    {pieces : List Bytes} (hc : 0 < loose.chunkBytes) (hp : pieces.flatten = payload) (hlen : payload.length < 2 ^ 64)
    (hslot : loose.files.get? (computeOid blake3 kind payload) = none) (pid counter : Nat) :
    ∃ tmp, putStreamed blake3 ⟨loose, FinMap.empty⟩ pid counter kind payload.length pieces =
      .ok (computeOid blake3 kind payload,
        { loose := { loose with files := loose.files.insert (computeOid blake3 kind payload)
                                  ((streamedHeader blake3 kind payload loose.chunkBytes).encode ++
                                    computeChunkDigests blake3 payload loose.chunkBytes ++ payload) }
          tmp }) := by
  have hbegin : Streamed blake3 kind payload.length loose (tmpName pid counter) [] _ _ :=
    beginPut_streamed hc pid counter
  have hrun := writes_streamed hc pieces [] (by rw [List.nil_append, hp]; exact hlen) _ _ hbegin
  rw [List.nil_append, hp] at hrun
  exact commit_streamed hc hrun hslot

/-! ### Against the one-shot put -/

/-- Both fail, or both return one address and leave the same object files. -/
def Agree (streamed : Outcome (Oid × StoreDirs)) (put : Outcome (Oid × LooseStore)) : Prop :=
  ((∃ e, streamed = .error (.error e)) ∧ ∃ e, put = .error (.error e)) ∨
    ∃ oid d s, streamed = .ok (oid, d) ∧ put = .ok (oid, s) ∧ d.loose.files = s.files

/-- The repository right after it was made. -/
def emptyStore (cfg : Core.RepoConfig) : LooseStore := ⟨cfg.chunkBytes.toNat, FinMap.empty⟩

theorem streamedHeader_eq {blake3 : Bytes → Oid} {kind : ObjectKind} {payload : Bytes} {chunkBytes : Nat}
    (h : isPow2 chunkBytes = true) (hc : chunkBytes < 2 ^ 64) :
    streamedHeader blake3 kind payload chunkBytes = LooseStore.headerOf blake3 kind payload chunkBytes := by
  rw [streamedHeader, log2Exact_eq h hc]
  rfl

theorem put_refuses {blake3 : Bytes → Oid} {s : LooseStore} {kind : ObjectKind} {payload : Bytes}
    (hslot : s.files.get? (computeOid blake3 kind payload) = none) (h : isPow2 s.chunkBytes = false) :
    s.put blake3 kind payload = sfsErr .internal "chunk_bytes must be a power of two" "" := by
  unfold LooseStore.put encodeObject
  dsimp only
  rw [hslot, if_pos h]
  rfl

/-- The two writers agree on every payload, however it is cut, exactly when the
chunk size is a power of two. -/
theorem stream_agrees_iff (blake3 : Bytes → Oid) (cfg : Core.RepoConfig) (hcfg : cfg.validate = .ok ())
    (kind : ObjectKind) (payload : Bytes) (pieces : List Bytes) (hp : pieces.flatten = payload)
    (hspan : payload.length < 2 ^ 63) (pid counter : Nat) :
    Agree (putStreamed blake3 ⟨emptyStore cfg, FinMap.empty⟩ pid counter kind payload.length pieces)
        ((emptyStore cfg).put blake3 kind payload) ↔ isPow2 cfg.chunkBytes.toNat = true := by
  have hc : 0 < (emptyStore cfg).chunkBytes := Core.RepoConfig.chunkBytes_pos hcfg
  have hslot : (emptyStore cfg).files.get? (computeOid blake3 kind payload) = none := rfl
  obtain ⟨tmp, hstream⟩ := putStreamed_eq hc hp (by omega) hslot pid counter
  constructor
  · rintro (⟨⟨e, he⟩, -⟩ | ⟨oid, d, s, -, hput, -⟩)
    · rw [hstream] at he
      cases he
    · by_contra hpow
      rw [put_refuses hslot (Bool.eq_false_of_not_eq_true hpow)] at hput
      exact absurd hput sfsErr_ne_ok
  · intro hpow
    have hput := LooseStore.put_empty_slot hslot hpow
    have hhdr : streamedHeader blake3 kind payload _ = _ := streamedHeader_eq hpow cfg.chunkBytes.toNat_lt
    refine .inr ⟨_, _, _, hstream, hput, ?_⟩
    show FinMap.insert _ _ _ = FinMap.insert _ _ _
    rw [show (emptyStore cfg).chunkBytes = cfg.chunkBytes.toNat from rfl, hhdr]

/-- The defaults, with chunks of `chunkBytes`. -/
def configOf (chunkBytes : UInt64) : Core.RepoConfig := ⟨1, chunkBytes, 128 * 1024, 5, false⟩

/-- One byte in two pieces, one of them empty, at the default chunk size. -/
theorem stream_agrees_iff_default :
    (configOf (64 * 1024)).validate = .ok () ∧
    (Agree (putStreamed LooseStore.oneByteHash ⟨emptyStore (configOf (64 * 1024)), FinMap.empty⟩ 1 0 .raw 1 [[], [1]])
        ((emptyStore (configOf (64 * 1024))).put LooseStore.oneByteHash .raw [1]) ↔
      isPow2 (configOf (64 * 1024)).chunkBytes.toNat = true) :=
  ⟨by decide, stream_agrees_iff LooseStore.oneByteHash (configOf (64 * 1024)) (by decide) .raw [1] [[], [1]] rfl
    (by decide) 1 0⟩

/-- `chunk_bytes=3` passes `validate`: the streamed put stores a byte that `put` refuses. -/
theorem stream_disagrees : ¬ ∀ (blake3 : Bytes → Oid) (cfg : Core.RepoConfig), cfg.validate = .ok () →
    ∀ (kind : ObjectKind) (payload : Bytes) (pieces : List Bytes), pieces.flatten = payload →
      payload.length < 2 ^ 63 → ∀ pid counter, Agree (putStreamed blake3 ⟨emptyStore cfg, FinMap.empty⟩ pid counter kind payload.length pieces)
        ((emptyStore cfg).put blake3 kind payload) := by
  intro h
  have hslot : (emptyStore (configOf 3)).files.get? (computeOid LooseStore.oneByteHash .raw [1]) = none := rfl
  have hflat : [[(1 : UInt8)]].flatten = [1] := rfl
  obtain ⟨tmp, hstream⟩ := putStreamed_eq (by decide) hflat (by decide) hslot 1 0
  rcases h LooseStore.oneByteHash (configOf 3) (by decide) .raw [1] [[1]] rfl (by decide) 1 0 with
    ⟨⟨e, he⟩, -⟩ | ⟨oid, d, s, -, hput, -⟩
  · rw [hstream] at he
    cases he
  · rw [put_refuses hslot (by decide)] at hput
    exact absurd hput sfsErr_ne_ok

end SynapseFs.Store
