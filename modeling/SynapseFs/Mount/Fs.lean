import SynapseFs.Codec.Reconstruct
import SynapseFs.Mount.BlockCache
import SynapseFs.Mount.Inode

/-! The read-only view of one commit.

A read walks the file from its offset: the interval table says where the next bytes
come from, the header block or a frame of a group, and the frame comes from the cache
or is read into it. The stores behind a mount may answer differently from one read to
the next (an object that could not be read may be there again), so every call of
`read` comes with the context as it answers during that call. The addresses of new
cache entries are the allocator's choice. -/
namespace SynapseFs.Mount
open Lib Core Format SynapseFs.Codec

/-- The mount-layer cache granularity. -/
def kFrameBytes : Nat := 128 * 1024

/-- `SynapseFs::Impl`, the context and the options left out. -/
structure Fs where
  manifest : Manifest
  table : IntervalTable
  cache : Cache FrameKey
  fileName : String
  fileSize : Nat
  headerBlock : Oid
  /-- The manifest's own identifier, the same in every key of the cache. -/
  artifactOid : Oid

namespace Fs

/-- `SynapseFs::create`. -/
def create (libs : Libs) (ctx : ReadCtx) (m : Manifest) (cacheBytes : Nat) : Outcome Fs := do
  m.validate
  let table ← IntervalTable.build m
  if ctx.blocks.isNone then sfsErr .internal "SynapseFs::create: null block store" ""
  else
    return {
      manifest := m, table := table, cache := .new cacheBytes, fileName := m.file.name, fileSize := m.file.totalBytes,
      headerBlock := m.file.headerBlock, artifactOid := m.oid libs.json libs.blake3 }

/-! ### One read -/

section
variable (libs : Libs) (hops : Nat) (alloc : Cache FrameKey → Ptr)

/-- The bytes of the header block from `within` on, into a buffer. -/
def serveHeader (fs : Fs) (ctx : ReadCtx) (iv : Interval) (cur : Nat) (remaining : Bytes) :
    Outcome (Nat × Bytes) :=
  let within := u64Sub cur iv.fileOffset
  let want := min remaining.length (u64Sub iv.length within)
  match ctx.blocks with
  | none => .error (.undefined "null block store")
  | some blocks => blocks.readRange fs.headerBlock .header within (remaining.take want)

/-- The `fill` callback. The count that `read_range` returns is not looked at. -/
def fillFrame (ctx : ReadCtx) (m : Manifest) (group : String) (frameStart : Nat) (buf : Bytes) : Outcome Bytes := do
  let (_, bytes) ← readRange libs hops { ctx with manifest := some m } group frameStart buf
  return bytes

/-- `want` bytes of a frame, copied under a lease. -/
def copyFrame (fs : Fs) (ctx : ReadCtx) (cache : Cache FrameKey) (group : String) (key : FrameKey)
    (frameStart offsetInFrame want : Nat) : Cache FrameKey × Outcome (Nat × Bytes) :=
  match cache.getOrFill key kFrameBytes (alloc cache) (fillFrame libs hops ctx fs.manifest group frameStart) with
  | (cache, .error f) => (cache, .error f)
  | (cache, .ok e) =>
    (cache.release key e,
      if e.ready ∧ offsetInFrame + want ≤ e.data.length then .ok (want, slice e.data offsetInFrame want)
      else .error (.undefined "copy outside the frame"))

/-- What is wanted of the frame of a group that holds the byte at `cur`. -/
def serveFrame (fs : Fs) (ctx : ReadCtx) (cache : Cache FrameKey) (iv : Interval) (cur remaining : Nat) :
    Cache FrameKey × Outcome (Nat × Bytes) :=
  let within := u64Sub cur iv.fileOffset
  let groupOff := u64 (iv.groupOffset + within)
  let frameIdx := groupOff / kFrameBytes
  let frameStart := frameIdx * kFrameBytes
  let offsetInFrame := groupOff - frameStart
  let want := min (min remaining (u64Sub iv.length within)) (kFrameBytes - offsetInFrame)
  fs.copyFrame libs hops alloc ctx cache (fs.table.groupName iv.groupIndex) ⟨fs.artifactOid, iv.groupIndex, u32 frameIdx⟩
    frameStart offsetInFrame want

/-- The next bytes of the file, from wherever they come. -/
def serve (fs : Fs) (ctx : ReadCtx) (cache : Cache FrameKey) (iv : Interval) (cur : Nat) (remaining : Bytes) :
    Cache FrameKey × Outcome (Nat × Bytes) :=
  if iv.isHeader then (cache, fs.serveHeader ctx iv cur remaining)
  else fs.serveFrame libs hops alloc ctx cache iv cur remaining.length

/-- The loop of `read`, at most `fuel` turns: `done` bytes are in `out` and `cur` is the offset of the next. -/
def readLoop (fs : Fs) (ctx : ReadCtx) :
    Nat → Cache FrameKey → Nat → Nat → Bytes → Cache FrameKey × Outcome (Nat × Bytes)
  | fuel, cache, cur, done, out =>
    if out.length ≤ done ∨ fs.fileSize ≤ cur then (cache, .ok (done, out))
    else
      match fuel, fs.table.find cur with
      | 0, _ => (cache, .error .outOfFuel)
      | _, none => (cache, .ok (done, out))
      | fuel + 1, some iv =>
        match fs.serve libs hops alloc ctx cache iv cur (out.drop done) with
        | (cache, .error f) => (cache, .error f)
        | (cache, .ok (n, bytes)) =>
          -- A header block that is shorter than the manifest says ends the read.
          if iv.isHeader ∧ n = 0 then (cache, .ok (done, overwrite out done bytes))
          else fs.readLoop ctx fuel cache (u64 (cur + n)) (done + n) (overwrite out done bytes)

/-- `SynapseFs::read`. Every turn copies at least a byte. -/
def read (fs : Fs) (ctx : ReadCtx) (offset : Nat) (out : Bytes) : Fs × Outcome (Nat × Bytes) :=
  if fs.fileSize ≤ offset ∨ out = [] then (fs, .ok (0, out))
  else
    let (cache, result) := fs.readLoop libs hops alloc ctx out.length fs.cache offset 0 out
    ({ fs with cache := cache }, result)

end

/-- A call of `read`, with the context as it answers during the call. -/
structure ReadCall where
  ctx : ReadCtx
  offset : Nat
  out : Bytes

/-- A sequence of reads on one mount, and their results. -/
def reads (libs : Libs) (hops : Nat) (alloc : Cache FrameKey → Ptr) :
    Fs → List ReadCall → List (Outcome (Nat × Bytes))
  | _, [] => []
  | fs, c :: rest =>
    let (fs', result) := fs.read libs hops alloc c.ctx c.offset c.out
    result :: reads libs hops alloc fs' rest

/-! ### The file a mount shows -/

/-- A manifest as a commit builds it: every buffer entry has a group of its own, named after its tensor and shorter
than 2^49 bytes, the header ends where the first entry starts, and the file's size is a 64-bit number. -/
structure Shape (m : Manifest) (header : Bytes) (content : String → Bytes) : Prop where
  valid : m.validate = .ok ()
  own : ∀ e ∈ m.buffer, e.group = e.tensor
  distinct : (m.buffer.map Format.BufferEntry.tensor).Nodup
  small : ∀ e ∈ m.buffer, e.nbytes < 2 ^ 49
  headerLen : ∀ e ∈ m.buffer.head?, header.length = e.off
  bytes : ∀ e ∈ m.buffer, (content e.group).length = e.nbytes
  fits : header.length + (m.buffer.map Format.BufferEntry.nbytes).sum < 2 ^ 64

/-- The header, then the tensors in buffer order. -/
def stream (m : Manifest) (header : Bytes) (content : String → Bytes) : Bytes :=
  header ++ m.buffer.flatMap fun e => content e.group

namespace Shape

variable {m : Manifest} {header : Bytes} {content : String → Bytes}

theorem buffer (h : Shape m header content) : ∃ first rest, m.buffer = first :: rest ∧ first.off = header.length ∧
    Tiles header.length (m.buffer.map Manifest.extent) m.file.totalBytes ∧
    ∀ e ∈ m.buffer, (m.findGroup e.group).isSome := by
  obtain ⟨first, rest, hbuffer, htiles⟩ := Manifest.validate_tiles h.valid
  have hlen : header.length = first.off := h.headerLen first (by rw [hbuffer]; rfl)
  rw [← hlen] at htiles
  exact ⟨first, rest, hbuffer, hlen.symm, htiles h.fits⟩

theorem tiles (h : Shape m header content) : Tiles header.length (m.buffer.map Manifest.extent) m.file.totalBytes :=
  let ⟨_, _, _, _, htiles, _⟩ := h.buffer
  htiles

theorem extent_bytes (h : Shape m header content) {e : Format.BufferEntry} (he : e ∈ m.buffer) :
    (content e.group).length = (Manifest.extent e).2 - (Manifest.extent e).1 := by
  rw [h.bytes e he, Manifest.extent]
  omega

theorem total (h : Shape m header content) :
    m.file.totalBytes = header.length + (m.buffer.map Format.BufferEntry.nbytes).sum := by
  have hlen := h.tiles.length_flatMap fun e he => h.extent_bytes he
  have hle := h.tiles.le
  rw [List.length_flatMap, List.map_congr_left fun e he => h.bytes e he] at hlen
  omega

theorem length_stream (h : Shape m header content) : (stream m header content).length = m.file.totalBytes := by
  have hlen := h.tiles.length_flatMap fun e he => h.extent_bytes he
  have hle := h.tiles.le
  rw [stream, List.length_append, hlen]
  omega

theorem slice_header {w n : Nat} (hw : w + n ≤ header.length) :
    slice (stream m header content) w n = slice header w n :=
  slice_append_left _ _ _ _ hw

theorem slice_entry (h : Shape m header content) {e : Format.BufferEntry} (he : e ∈ m.buffer) {w n : Nat}
    (hw : w + n ≤ e.nbytes) : slice (stream m header content) (e.off + w) n = slice (content e.group) w n := by
  have hle : header.length ≤ e.off := (h.tiles.mem (List.mem_map_of_mem he)).1
  have hslice := h.tiles.slice_flatMap (w := w) (n := n) (fun e he => h.extent_bytes he) he
    (by rw [Manifest.extent]; omega)
  rw [← hslice, stream, show e.off + w = header.length + ((Manifest.extent e).1 - header.length + w) by
    rw [Manifest.extent]; omega, slice_append_right]

theorem bytes_lt (h : Shape m header content) (e : Format.BufferEntry) (he : e ∈ m.buffer) : e.nbytes < 2 ^ 64 := by
  have := h.small e he
  omega

theorem distinct_groups (h : Shape m header content) : (m.buffer.map Format.BufferEntry.group).Nodup := by
  rw [List.map_congr_left h.own]
  exact h.distinct

end Shape

/-! ### What the stores answer -/

/-- The part of `b` that is asked for, or an error. -/
def RightOrFails (b : Bytes) (off : Nat) (out : Bytes) (answer : Outcome (Nat × Bytes)) : Prop :=
  answer = .ok ((slice b off out.length).length, filled (slice b off out.length) out) ∨
    ∃ err, answer = .error (.error err)

section
variable (libs : Libs) (hops : Nat) (ctx : ReadCtx) (m : Manifest) (header : Bytes) (content : String → Bytes)

/-- The stores hold the file: every read of its parts gives the bytes asked for. -/
structure Holds : Prop where
  blocks : ∃ blocks, ctx.blocks = some blocks ∧ blocks.Serves m.file.headerBlock .header header
  groups : ∀ e ∈ m.buffer, Reads (readRange libs hops { ctx with manifest := some m } e.group) (content e.group)

/-- The stores hold the file, but a read may fail. -/
structure Answers : Prop where
  blocks : ∃ blocks, ctx.blocks = some blocks ∧ ∀ off out, off < 2 ^ 64 →
    RightOrFails header off out (blocks.readRange m.file.headerBlock .header off out)
  groups : ∀ e ∈ m.buffer, ∀ off out, off < 2 ^ 64 → out.length < kMaxVector →
    RightOrFails (content e.group) off out (readRange libs hops { ctx with manifest := some m } e.group off out)

/-- An error that one of the reads behind a mount gives. -/
def Fails (err : Error) : Prop :=
  (∃ blocks off out, ctx.blocks = some blocks ∧
    blocks.readRange m.file.headerBlock .header off out = .error (.error err)) ∨
  ∃ name off out, readRange libs hops { ctx with manifest := some m } name off out = .error (.error err)

end

theorem Holds.answers {libs : Libs} {hops : Nat} {ctx : ReadCtx} {m : Manifest} {header : Bytes}
    {content : String → Bytes} (h : Holds libs hops ctx m header content) : Answers libs hops ctx m header content where
  blocks := by
    obtain ⟨blocks, hblocks, -, hread⟩ := h.blocks
    exact ⟨blocks, hblocks, fun off out hoff => Or.inl (hread off out hoff)⟩
  groups := fun e he off out hoff hout => Or.inl (h.groups e he off out hoff hout)

/-- What a frame of the cache holds: the group's bytes, and zeros behind its end. -/
def frameOf (m : Manifest) (content : String → Bytes) (k : FrameKey) : Bytes :=
  filled (slice (content ((m.buffer.map Format.BufferEntry.group).getD k.tensorIndex "")) (k.frameIndex * kFrameBytes)
    kFrameBytes) (List.replicate kFrameBytes 0)

theorem length_frameOf (m : Manifest) (content : String → Bytes) (k : FrameKey) :
    (frameOf m content k).length = kFrameBytes := by
  rw [frameOf, length_filled, length_slice, List.length_replicate]
  omega

/-- A mount of `m` between two reads. -/
structure Mounts (fs : Fs) (m : Manifest) (header : Bytes) (content : String → Bytes) : Prop where
  manifest : fs.manifest = m
  table : fs.table = ⟨IntervalTable.layout header.length m.buffer, m.buffer.map Format.BufferEntry.group,
    m.file.totalBytes⟩
  fileSize : fs.fileSize = m.file.totalBytes
  headerBlock : fs.headerBlock = m.file.headerBlock
  cache : fs.cache.Settled (frameOf m content)

section
variable {libs : Libs} {hops : Nat} (alloc : Cache FrameKey → Ptr) {ctx : ReadCtx} {m : Manifest} {header : Bytes}
  {content : String → Bytes} {fs : Fs} {cache : Cache FrameKey}

/-- The cache is as between calls again, and the result is the given one or a failure of the stores. -/
def Gives (libs : Libs) (hops : Nat) (ctx : ReadCtx) (m : Manifest) (content : String → Bytes) (good : Nat × Bytes)
    (result : Cache FrameKey × Outcome (Nat × Bytes)) : Prop :=
  result.1.Settled (frameOf m content) ∧
    (result.2 = .ok good ∨ ∃ err, Fails libs hops ctx m err ∧ result.2 = .error (.error err))

theorem groupAt {i : Nat} {e : Format.BufferEntry} (he : m.buffer[i]? = some e) :
    (m.buffer.map Format.BufferEntry.group).getD i "" = e.group := by
  rw [List.getD_eq_getElem?_getD, List.getElem?_map, he]
  rfl

/-- The part of a frame before the end of its group is the part of the file it stands for. -/
theorem slice_frameOf (hshape : Shape m header content) {i idx off n : Nat} {e : Format.BufferEntry}
    (he : m.buffer[i]? = some e) (artifact : Oid) (hin : off + n ≤ kFrameBytes)
    (hend : idx * kFrameBytes + off + n ≤ e.nbytes) :
    slice (frameOf m content ⟨artifact, i, idx⟩) off n =
      slice (stream m header content) (e.off + (idx * kFrameBytes + off)) n := by
  have hmem := List.mem_of_getElem? he
  rw [frameOf, groupAt he, slice_filled, slice_slice _ _ _ _ _ hin, hshape.slice_entry hmem hend]
  rw [length_slice, hshape.bytes e hmem]
  dsimp only
  omega

/-- The fill of a frame writes what the frame is to hold. -/
theorem fillFrame_eq (hans : Answers libs hops ctx m header content) {i idx : Nat} {e : Format.BufferEntry}
    (he : m.buffer[i]? = some e) (hidx : idx * kFrameBytes < 2 ^ 64) (artifact : Oid) :
    fillFrame libs hops ctx m e.group (idx * kFrameBytes) (List.replicate kFrameBytes 0) =
        .ok (frameOf m content ⟨artifact, i, idx⟩) ∨
      ∃ err, Fails libs hops ctx m err ∧
        fillFrame libs hops ctx m e.group (idx * kFrameBytes) (List.replicate kFrameBytes 0) = .error (.error err) := by
  unfold fillFrame
  rcases hans.groups e (List.mem_of_getElem? he) (idx * kFrameBytes) (List.replicate kFrameBytes 0) hidx
    (by rw [List.length_replicate]; decide) with hok | ⟨err, herr⟩
  · left
    rw [hok, frameOf, groupAt he, List.length_replicate]
    rfl
  · exact Or.inr ⟨err, Or.inr ⟨_, _, _, herr⟩, by rw [herr]; rfl⟩

theorem copyFrame_eq (hfs : fs.Mounts m header content) (hans : Answers libs hops ctx m header content)
    (hcache : cache.Settled (frameOf m content)) {i : Nat} {e : Format.BufferEntry} (he : m.buffer[i]? = some e)
    (idx off want : Nat) (hidx : idx * kFrameBytes < 2 ^ 64) (hin : off + want ≤ kFrameBytes) :
    Gives libs hops ctx m content (want, slice (frameOf m content ⟨fs.artifactOid, i, idx⟩) off want)
      (fs.copyFrame libs hops alloc ctx cache e.group ⟨fs.artifactOid, i, idx⟩ (idx * kFrameBytes) off want) := by
  have hleased {c' : Cache FrameKey} {f : Entry FrameKey}
      (hget : cache.getOrFill ⟨fs.artifactOid, i, idx⟩ kFrameBytes (alloc cache)
        (fillFrame libs hops ctx m e.group (idx * kFrameBytes)) = (c', .ok f))
      (hready : f.ready = true) (hdata : f.data = frameOf m content ⟨fs.artifactOid, i, idx⟩)
      (hset : (c'.release ⟨fs.artifactOid, i, idx⟩ f).Settled (frameOf m content)) :
      Gives libs hops ctx m content (want, slice (frameOf m content ⟨fs.artifactOid, i, idx⟩) off want)
        (fs.copyFrame libs hops alloc ctx cache e.group ⟨fs.artifactOid, i, idx⟩ (idx * kFrameBytes) off want) := by
    unfold copyFrame
    rw [hfs.manifest, hget]
    refine ⟨hset, Or.inl ?_⟩
    dsimp only
    rw [hdata, length_frameOf, if_pos ⟨hready, hin⟩]
  cases hmap : cache.map.get? ⟨fs.artifactOid, i, idx⟩ with
  | some f =>
    obtain ⟨c', f', hget, hready, hdata, hset⟩ := Cache.getOrFill_hit hcache hmap kFrameBytes (alloc cache) _
    exact hleased hget hready hdata hset
  | none =>
    rcases fillFrame_eq hans he hidx fs.artifactOid with hok | ⟨err, hfails, herr⟩
    · obtain ⟨c', f', hget, hready, hdata, hset⟩ := Cache.getOrFill_filled hcache hmap (alloc cache) hok
      exact hleased hget hready hdata hset
    · obtain ⟨c', hget, hset⟩ := Cache.getOrFill_failed hcache hmap (alloc cache) herr
      unfold copyFrame
      rw [hfs.manifest, hget]
      exact ⟨hset, Or.inr ⟨err, hfails, rfl⟩⟩

/-! ### The loop -/

/-- A turn of the loop brings the next bytes of the stream, at least one of them. -/
def Served (libs : Libs) (hops : Nat) (ctx : ReadCtx) (m : Manifest) (header : Bytes) (content : String → Bytes)
    (cur remaining : Nat) (result : Cache FrameKey × Outcome (Nat × Bytes)) : Prop :=
  ∃ n, 0 < n ∧ n ≤ remaining ∧ cur + n ≤ m.file.totalBytes ∧
    Gives libs hops ctx m content (n, slice (stream m header content) cur n) result

theorem serveFrame_eq (hshape : Shape m header content) (hfs : fs.Mounts m header content)
    (hans : Answers libs hops ctx m header content) (hcache : cache.Settled (frameOf m content)) {i cur remaining : Nat}
    {e : Format.BufferEntry} (he : m.buffer[i]? = some e) (hle : e.off ≤ cur) (hlt : cur < e.off + e.nbytes)
    (hpos : 0 < remaining) :
    Served libs hops ctx m header content cur remaining
      (fs.serveFrame libs hops alloc ctx cache ⟨e.off, e.nbytes, 0, i, false⟩ cur remaining) := by
  have hmem := List.mem_of_getElem? he
  have hsmall := hshape.small e hmem
  have hend : e.off + e.nbytes ≤ m.file.totalBytes := (hshape.tiles.mem (List.mem_map_of_mem hmem)).2.2
  have htotal : m.file.totalBytes < 2 ^ 64 := hshape.total ▸ hshape.fits
  have hwithin : u64Sub cur e.off = cur - e.off := u64Sub_of_le hle (by omega)
  have havail : u64Sub e.nbytes (cur - e.off) = e.nbytes - (cur - e.off) := u64Sub_of_le (by omega) (by omega)
  have hoff : u64 (0 + (cur - e.off)) = cur - e.off := by rw [Nat.zero_add]; exact u64_of_lt (by omega)
  have hidx : (cur - e.off) / kFrameBytes < 2 ^ 32 := by
    rw [Nat.div_lt_iff_lt_mul (by decide), show 2 ^ 32 * kFrameBytes = 2 ^ 49 by decide]
    omega
  have hdiv : (cur - e.off) / kFrameBytes * kFrameBytes ≤ cur - e.off := Nat.div_mul_le_self _ _
  have hmod : cur - e.off - (cur - e.off) / kFrameBytes * kFrameBytes < kFrameBytes := by
    rw [← Nat.mod_eq_sub_div_mul]
    exact Nat.mod_lt _ (by decide)
  have hname : fs.table.groupName i = e.group := by
    rw [hfs.table]
    exact groupAt he
  have hserve : fs.serveFrame libs hops alloc ctx cache ⟨e.off, e.nbytes, 0, i, false⟩ cur remaining =
      fs.copyFrame libs hops alloc ctx cache e.group ⟨fs.artifactOid, i, (cur - e.off) / kFrameBytes⟩
        ((cur - e.off) / kFrameBytes * kFrameBytes) (cur - e.off - (cur - e.off) / kFrameBytes * kFrameBytes)
        (min (min remaining (e.nbytes - (cur - e.off)))
          (kFrameBytes - (cur - e.off - (cur - e.off) / kFrameBytes * kFrameBytes))) := by
    unfold serveFrame
    dsimp only
    rw [hwithin, hoff, havail, hname, u32_of_lt hidx]
  generalize (cur - e.off) / kFrameBytes = idx at *
  generalize hwant : min (min remaining (e.nbytes - (cur - e.off))) (kFrameBytes - (cur - e.off - idx * kFrameBytes)) =
    want at *
  refine ⟨want, by omega, by omega, by omega, ?_⟩
  have hcopy := copyFrame_eq alloc hfs hans hcache he idx (cur - e.off - idx * kFrameBytes) want (by omega) (by omega)
  rw [slice_frameOf hshape he _ (by omega) (by omega),
    show e.off + (idx * kFrameBytes + (cur - e.off - idx * kFrameBytes)) = cur by omega] at hcopy
  rw [hserve]
  exact hcopy

theorem serveHeader_eq (hshape : Shape m header content) (hfs : fs.Mounts m header content)
    (hans : Answers libs hops ctx m header content) (hcache : cache.Settled (frameOf m content)) {cur : Nat}
    {remaining : Bytes} (hlt : cur < header.length) (hpos : 0 < remaining.length) :
    Served libs hops ctx m header content cur remaining.length
      (cache, fs.serveHeader ctx ⟨0, header.length, 0, 0, true⟩ cur remaining) := by
  have hfits := hshape.fits
  have htotal := hshape.total
  have hwithin : u64Sub cur 0 = cur := u64Sub_of_le (Nat.zero_le cur) (by omega)
  have havail : u64Sub header.length cur = header.length - cur := u64Sub_of_le (by omega) (by omega)
  obtain ⟨blocks, hblocks, hread⟩ := hans.blocks
  have hserve : fs.serveHeader ctx ⟨0, header.length, 0, 0, true⟩ cur remaining =
      blocks.readRange m.file.headerBlock .header cur
        (remaining.take (min remaining.length (header.length - cur))) := by
    unfold serveHeader
    dsimp only
    rw [hwithin, havail, hblocks, hfs.headerBlock]
  generalize hwant : min remaining.length (header.length - cur) = want at *
  have htake : (remaining.take want).length = want := by rw [List.length_take]; omega
  have hslice : (slice header cur want).length = want := by rw [length_slice]; omega
  refine ⟨want, by omega, by omega, by omega, hcache, ?_⟩
  rw [hserve]
  rcases hread cur (remaining.take want) (by omega) with hok | ⟨err, herr⟩
  · left
    rw [htake, hslice, filled_of_length_eq (hslice.trans htake.symm)] at hok
    rw [hok, Shape.slice_header (by omega)]
  · exact Or.inr ⟨err, Or.inl ⟨blocks, _, _, hblocks, herr⟩, herr⟩

theorem serve_eq (hshape : Shape m header content) (hfs : fs.Mounts m header content)
    (hans : Answers libs hops ctx m header content) (hcache : cache.Settled (frameOf m content)) {cur : Nat}
    (hlt : cur < m.file.totalBytes) :
    ∃ iv, fs.table.find cur = some iv ∧ ∀ remaining : Bytes, 0 < remaining.length →
      Served libs hops ctx m header content cur remaining.length
        (fs.serve libs hops alloc ctx cache iv cur remaining) := by
  obtain ⟨iv, hmem, hfind, hle, hin⟩ := IntervalTable.find_eq
    (t := ⟨IntervalTable.layout header.length m.buffer, m.buffer.map Format.BufferEntry.group, m.file.totalBytes⟩)
    (IntervalTable.layout_tiles hshape.tiles) (hshape.total ▸ hshape.fits) hlt
  refine ⟨iv, by rw [hfs.table]; exact hfind, fun remaining hpos => ?_⟩
  rcases IntervalTable.mem_layout hmem with rfl | ⟨e, i, he, rfl⟩
  · rw [Nat.zero_add] at hin
    exact serveHeader_eq hshape hfs hans hcache hin hpos
  · exact serveFrame_eq alloc hshape hfs hans hcache he hle hin hpos

/-- The loop has reached the end of the buffer or of the file. -/
theorem readLoop_done (hshape : Shape m header content) (hfs : fs.Mounts m header content) {offset done fuel : Nat}
    {out : Bytes} (hcache : cache.Settled (frameOf m content)) (hdone : done ≤ out.length)
    (hend : offset + done ≤ m.file.totalBytes) (hstop : out.length ≤ done ∨ m.file.totalBytes ≤ offset + done) :
    Gives libs hops ctx m content
      (min out.length (m.file.totalBytes - offset), filled (slice (stream m header content) offset out.length) out)
      (fs.readLoop libs hops alloc ctx fuel cache (offset + done) done
        (filled (slice (stream m header content) offset done) out)) := by
  have hlen : (filled (slice (stream m header content) offset done) out).length = out.length := by
    rw [length_filled, length_slice, hshape.length_stream]
    omega
  have hmin : min out.length (m.file.totalBytes - offset) = done := by omega
  have hslice := slice_min (stream m header content) offset out.length
  rw [hshape.length_stream, hmin] at hslice
  unfold readLoop
  rw [hlen, hfs.fileSize, if_pos hstop, hmin, ← hslice]
  exact ⟨hcache, Or.inl rfl⟩

/-- The loop ends with the slice of the stream in the buffer, whatever is in the cache. -/
theorem readLoop_eq (hshape : Shape m header content) (hfs : fs.Mounts m header content)
    (hans : Answers libs hops ctx m header content) (offset : Nat) (out : Bytes) (fuel : Nat) :
    ∀ {cache : Cache FrameKey} {done : Nat}, cache.Settled (frameOf m content) → done ≤ out.length →
      offset + done ≤ m.file.totalBytes → out.length ≤ done + fuel →
      Gives libs hops ctx m content
        (min out.length (m.file.totalBytes - offset), filled (slice (stream m header content) offset out.length) out)
        (fs.readLoop libs hops alloc ctx fuel cache (offset + done) done
          (filled (slice (stream m header content) offset done) out)) := by
  have htotal : m.file.totalBytes < 2 ^ 64 := hshape.total ▸ hshape.fits
  have hstream := hshape.length_stream
  induction fuel with
  | zero =>
    intro cache done hcache hdone hend hfuel
    exact readLoop_done alloc hshape hfs hcache hdone hend (Or.inl hfuel)
  | succ fuel ih =>
    intro cache done hcache hdone hend hfuel
    by_cases hstop : out.length ≤ done ∨ m.file.totalBytes ≤ offset + done
    · exact readLoop_done alloc hshape hfs hcache hdone hend hstop
    · have hslice : (slice (stream m header content) offset done).length = done := by
        rw [length_slice, hstream]
        omega
      have hlen : (filled (slice (stream m header content) offset done) out).length = out.length := by
        rw [length_filled, hslice]
        omega
      obtain ⟨iv, hfind, hserve⟩ := serve_eq alloc hshape hfs hans hcache (show offset + done < m.file.totalBytes by omega)
      obtain ⟨n, hpos, hn, hcur, hcache', hresult⟩ :=
        hserve ((filled (slice (stream m header content) offset done) out).drop done)
          (by rw [List.length_drop, hlen]; omega)
      rw [List.length_drop, hlen] at hn
      unfold readLoop
      rw [hlen, hfs.fileSize, if_neg hstop, hfind]
      dsimp only
      rcases hpair : fs.serve libs hops alloc ctx cache iv (offset + done)
        ((filled (slice (stream m header content) offset done) out).drop done) with ⟨cache', result⟩
      rw [hpair] at hcache' hresult
      rcases hresult with rfl | ⟨err, hfails, rfl⟩
      · -- The new bytes go right behind the ones that are there.
        have hwrite : overwrite (filled (slice (stream m header content) offset done) out) done
            (slice (stream m header content) (offset + done) n) =
              filled (slice (stream m header content) offset (done + n)) out := by
          have hover := overwrite_filled (slice (stream m header content) offset done)
            (slice (stream m header content) (offset + done) n) out
          rwa [hslice, slice_append_slice] at hover
        dsimp only
        rw [if_neg (by omega), hwrite, u64_of_lt (by omega), Nat.add_assoc]
        exact ih hcache' (by omega) (by omega) (by omega)
      · exact ⟨hcache', Or.inr ⟨err, hfails, rfl⟩⟩

end

/-! ### Runs of reads -/

/-- What a read of the file `data` returns: the bytes from its offset on, as many as the buffer takes and the file
has, and the rest of the buffer as it was; or a failure of the stores. -/
def Shown (libs : Libs) (hops : Nat) (m : Manifest) (data : Bytes) (c : ReadCall) (result : Outcome (Nat × Bytes)) :
    Prop :=
  result = .ok (min c.out.length (m.file.totalBytes - c.offset), filled (slice data c.offset c.out.length) c.out) ∨
    ∃ err, Fails libs hops c.ctx m err ∧ result = .error (.error err)

/-- The mount shows the file: it can be set up over every cache budget, and then every sequence of reads, with
whatever the stores answer, gives slices of the stream that `reconstruct_file` emits. -/
def Shows (libs : Libs) (hops : Nat) (ctx : ReadCtx) (m : Manifest) (header : Bytes) (content : String → Bytes) : Prop :=
  ∃ data, reconstructFile collect libs hops { ctx with manifest := some m } [] = .ok data ∧
    ∀ cacheBytes alloc, ∃ fs, create libs ctx m cacheBytes = .ok fs ∧
      ∀ calls : List ReadCall, (∀ c ∈ calls, Answers libs hops c.ctx m header content) →
        List.Forall₂ (Shown libs hops m data) calls (fs.reads libs hops alloc calls)

section
variable {libs : Libs} {hops : Nat} (alloc : Cache FrameKey → Ptr) {ctx : ReadCtx} {m : Manifest} {header : Bytes}
  {content : String → Bytes}

theorem read_eq (hshape : Shape m header content) {fs : Fs} (hfs : fs.Mounts m header content) (c : ReadCall)
    (hans : Answers libs hops c.ctx m header content) :
    (fs.read libs hops alloc c.ctx c.offset c.out).1.Mounts m header content ∧
      Shown libs hops m (stream m header content) c (fs.read libs hops alloc c.ctx c.offset c.out).2 := by
  unfold read
  by_cases hstop : fs.fileSize ≤ c.offset ∨ c.out = []
  · rw [if_pos hstop]
    rw [hfs.fileSize] at hstop
    refine ⟨hfs, Or.inl ?_⟩
    rcases hstop with hpast | hempty
    · rw [slice_past _ _ (by rw [hshape.length_stream]; exact hpast), filled_nil, Nat.sub_eq_zero_of_le hpast,
        Nat.min_zero]
    · rw [hempty, List.length_nil, Nat.zero_min, slice_zero_len, filled_nil]
  · rw [if_neg hstop]
    have hlt : c.offset ≤ m.file.totalBytes := by
      rw [← hfs.fileSize]
      omega
    obtain ⟨hcache, hresult⟩ := readLoop_eq alloc hshape hfs hans c.offset c.out c.out.length hfs.cache
      (Nat.zero_le _) hlt (Nat.le_add_left _ _)
    rw [slice_zero_len, filled_nil] at hcache hresult
    exact ⟨⟨hfs.manifest, hfs.table, hfs.fileSize, hfs.headerBlock, hcache⟩, hresult⟩

/-- Every read leaves a mount for the next one. -/
theorem reads_eq (hshape : Shape m header content) (calls : List ReadCall) : ∀ {fs : Fs}, fs.Mounts m header content →
    (∀ c ∈ calls, Answers libs hops c.ctx m header content) →
      List.Forall₂ (Shown libs hops m (stream m header content)) calls (fs.reads libs hops alloc calls) := by
  induction calls with
  | nil => exact fun _ _ => .nil
  | cons c rest ih =>
    intro fs hfs hans
    obtain ⟨hnext, hshown⟩ := read_eq alloc hshape hfs c (hans c List.mem_cons_self)
    exact .cons hshown (ih hnext fun c' hc' => hans c' (List.mem_cons_of_mem _ hc'))

theorem create_eq (hshape : Shape m header content) (hblocks : ctx.blocks.isSome) (hfew : m.buffer.length < 2 ^ 32)
    (cacheBytes : Nat) : ∃ fs, create libs ctx m cacheBytes = .ok fs ∧ fs.Mounts m header content := by
  obtain ⟨first, rest, hbuffer, hoff, htiles, -⟩ := hshape.buffer
  have hbuild := IntervalTable.build_eq hshape.valid hbuffer (by rw [hoff]; exact htiles) hshape.distinct_groups hshape.bytes_lt
    hfew
  have hnull : ¬ctx.blocks.isNone = true := by
    rw [Option.isNone_iff_eq_none]
    exact Option.isSome_iff_ne_none.mp hblocks
  refine ⟨_, bind_eq_ok.mpr ⟨(), hshape.valid, bind_eq_ok.mpr ⟨_, hbuild, if_neg hnull⟩⟩, ?_⟩
  exact ⟨rfl, by rw [hoff], rfl, rfl, Cache.settled_new cacheBytes⟩

theorem create_overflow (hshape : Shape m header content) (hmany : 2 ^ 32 ≤ m.buffer.length) (cacheBytes : Nat) :
    create libs ctx m cacheBytes = .error (.undefined "group_cursor read outside the vector") := by
  have hbuild := IntervalTable.build_overflow hshape.valid hshape.distinct_groups hshape.bytes_lt
    hmany
  unfold create
  rw [hshape.valid, hbuild]
  rfl

theorem reconstructFile_stream (hshape : Shape m header content) (hholds : Holds libs hops ctx m header content) :
    reconstructFile collect libs hops { ctx with manifest := some m } [] = .ok (stream m header content) := by
  obtain ⟨blocks, hblocks, hget, -⟩ := hholds.blocks
  obtain ⟨-, -, -, -, -, hgroups⟩ := hshape.buffer
  exact reconstructFile_eq rfl hblocks hget hgroups hholds.groups fun e he =>
    ⟨hshape.bytes e he, hshape.bytes_lt e he⟩

end

/-- **A mount shows the checked-out file** when the manifest has fewer than 2^32 buffer entries, and only then: with
2^32 of them setting up the interval table is undefined. -/
theorem shows_iff {libs : Libs} {hops : Nat} {ctx : ReadCtx} {m : Manifest} {header : Bytes} {content : String → Bytes}
    (hshape : Shape m header content) (hholds : Holds libs hops ctx m header content) :
    Shows libs hops ctx m header content ↔ m.buffer.length < 2 ^ 32 := by
  constructor
  · rintro ⟨data, -, hmount⟩
    by_contra hmany
    obtain ⟨fs, hcreate, -⟩ := hmount 0 fun _ => ⟨0, 0⟩
    rw [create_overflow hshape (not_lt.mp hmany)] at hcreate
    cases hcreate
  · intro hfew
    refine ⟨_, reconstructFile_stream hshape hholds, fun cacheBytes alloc => ?_⟩
    obtain ⟨blocks, hblocks, -⟩ := hholds.blocks
    obtain ⟨fs, hcreate, hmounts⟩ : ∃ fs, create libs ctx m cacheBytes = .ok fs ∧ fs.Mounts m header content :=
      create_eq hshape (by rw [hblocks]; rfl) hfew cacheBytes
    exact ⟨fs, hcreate, fun calls hcalls => reads_eq alloc hshape calls hmounts hcalls⟩

/-! ### Files of one-byte tensors -/

def plainHeader : Bytes := List.replicate 24 1

def plainHeaderOid : Oid :=
  ⟨[0x3d, 0x3d, 0x20, 0x62, 0x8c, 0x10, 0xbb, 0xc3, 0x87, 0x82, 0xc9, 0x74, 0x04, 0x41, 0xb3, 0xa3,
    0xd7, 0xe8, 0x54, 0xcb, 0x0a, 0xa4, 0xd3, 0x66, 0x0b, 0xf9, 0x1d, 0xd8, 0x17, 0x05, 0x42, 0x37], rfl⟩

/-- The identifier of the block that holds the byte 7. -/
def plainOid : Oid :=
  ⟨[0x8d, 0x7c, 0xe5, 0x62, 0xd0, 0xec, 0x9e, 0x9a, 0x90, 0xda, 0xa1, 0x4c, 0x8b, 0xef, 0xbf, 0x3d,
    0x48, 0xd5, 0xad, 0x1c, 0xfe, 0x86, 0x4a, 0x2e, 0x81, 0xbd, 0x08, 0xfd, 0xb3, 0x06, 0x02, 0x3d], rfl⟩

/-- A mount takes nothing but the manifest's identifier from the libraries; this is the one of two tensors. -/
def plainLibs : Libs where
  json := ⟨fun _ => .error "no text is read", fun _ => []⟩
  zstd := ⟨fun _ _ => .error "nothing is compressed", fun _ _ => .error "nothing is decompressed"⟩
  blake3 _ :=
    ⟨[0xa1, 0x37, 0xca, 0xed, 0x50, 0x09, 0xef, 0x47, 0x93, 0x3c, 0xb6, 0xd7, 0x4e, 0xe8, 0x91, 0x21,
      0xb4, 0x07, 0xa7, 0xce, 0x03, 0x36, 0xe9, 0x21, 0x93, 0x5a, 0xa8, 0xf9, 0x9c, 0xb3, 0x66, 0x46], rfl⟩

def plainEntry (i : Nat) : Format.BufferEntry := ⟨toString i, 24 + i, 1, toString i⟩

theorem toString_injective : Function.Injective (toString : Nat → String) := by
  intro a b h
  have hdigits : Nat.toDigits 10 a = Nat.toDigits 10 b := String.ofList_injective h
  rw [← Nat.ofDigitChars_ten_toDigits (n := a), hdigits, Nat.ofDigitChars_ten_toDigits]

theorem nodup_names (n : Nat) : ((List.range n).map fun i => toString i).Nodup :=
  (List.nodup_map_iff toString_injective).mpr List.nodup_range

/-- `n` tensors of one byte, each the byte 7. -/
def plainManifest (n : Nat) : Manifest where
  formatVersion := 1
  hashAlgo := "blake3"
  file := ⟨"model.safetensors", plainHeaderOid, 24 + n, ""⟩
  buffer := (List.range n).map plainEntry
  groups := ⟨(List.range n).map fun i => (toString i, ⟨.full, some plainOid, none, none, 0⟩), by
    rw [List.map_map]
    exact nodup_names n⟩

def plainObject (kind : ObjectKind) : Bytes := if kind = .header then plainHeader else [7]

def plainCtx : ReadCtx where
  blocks := some {
    get := fun _ kind => .ok (plainObject kind)
    readRange := fun _ kind off out => .ok ((slice (plainObject kind) off out.length).length,
      filled (slice (plainObject kind) off out.length) out) }
  manifest := none
  history := none
  maxDepth := 4
  topology := none

theorem findGroup_plain {n i : Nat} (h : i < n) :
    (plainManifest n).findGroup (toString i) = some ⟨.full, some plainOid, none, none, 0⟩ :=
  FinMap.get?_eq_some.mpr (List.mem_map.mpr ⟨i, List.mem_range.mpr h, rfl⟩)

theorem validateBuffer_plain (n : Nat) (hn : 24 + n < 2 ^ 64) (k : Nat) : ∀ i start, start + k = n →
    (plainManifest n).validateBuffer i (24 + start) ((List.range' start k).map plainEntry) = .ok (24 + n) := by
  induction k with
  | zero =>
    intro i start h
    rw [← h]
    rfl
  | succ k ih =>
    intro i start h
    rw [List.range'_succ, List.map_cons, Manifest.validateBuffer, if_neg (by simp [plainEntry]),
      if_neg (by simp [plainEntry]), if_neg]
    · rw [show (plainEntry start).nbytes = 1 from rfl, u64_of_lt (by omega), Nat.add_assoc]
      exact ih (i + 1) (start + 1) (by omega)
    · rw [show (plainEntry start).group = toString start from rfl, findGroup_plain (by omega)]
      simp

theorem validate_plain {n : Nat} (hpos : 0 < n) (hn : 24 + n < 2 ^ 64) : (plainManifest n).validate = .ok () := by
  have hbuffer : (plainManifest n).buffer = plainEntry 0 :: ((List.range' 1 (n - 1)).map plainEntry) := by
    show (List.range n).map plainEntry = _
    rw [List.range_eq_range', show n = (n - 1) + 1 by omega, List.range'_succ]
    rfl
  have hwalk : (plainManifest n).validateBuffer 0 (24 + 0) (plainManifest n).buffer = .ok (24 + n) := by
    show (plainManifest n).validateBuffer 0 (24 + 0) ((List.range n).map plainEntry) = _
    rw [List.range_eq_range']
    exact validateBuffer_plain n hn n 0 0 (Nat.zero_add n)
  unfold Manifest.validate
  split
  · next hnil =>
    rw [hbuffer] at hnil
    cases hnil
  · next first rest hcons =>
    rw [hbuffer] at hcons
    cases hcons
    refine bind_eq_ok.mpr ⟨_, hwalk, ?_⟩
    rw [if_neg (by simp [plainManifest])]
    refine forM_eq_ok.mpr fun e he => ?_
    obtain ⟨i, -, rfl⟩ := List.mem_map.mp he
    rfl

theorem shape_plain {n : Nat} (hpos : 0 < n) (hn : 24 + n < 2 ^ 64) :
    Shape (plainManifest n) plainHeader fun _ => [7] where
  valid := validate_plain hpos hn
  own := by
    intro e he
    obtain ⟨i, -, rfl⟩ := List.mem_map.mp he
    rfl
  distinct := by
    show (((List.range n).map plainEntry).map Format.BufferEntry.tensor).Nodup
    rw [List.map_map]
    exact nodup_names n
  small := by
    intro e he
    obtain ⟨i, -, rfl⟩ := List.mem_map.mp he
    exact Nat.one_lt_two_pow (by decide)
  headerLen := by
    intro e he
    change e ∈ ((List.range n).map plainEntry).head? at he
    rw [List.range_eq_range', show n = (n - 1) + 1 by omega, List.range'_succ] at he
    cases he
    rfl
  bytes := by
    intro e he
    obtain ⟨i, -, rfl⟩ := List.mem_map.mp he
    rfl
  fits := by
    have hsum : ((plainManifest n).buffer.map Format.BufferEntry.nbytes).sum = n := by
      show (((List.range n).map plainEntry).map Format.BufferEntry.nbytes).sum = n
      rw [List.map_map, show Format.BufferEntry.nbytes ∘ plainEntry = fun _ => 1 from rfl]
      simp
    rw [hsum]
    exact hn

theorem holds_plain (n : Nat) : Holds plainLibs 1 plainCtx (plainManifest n) plainHeader fun _ => [7] where
  blocks := ⟨_, rfl, rfl, fun _ _ _ => rfl⟩
  groups := by
    intro e he off out _ _
    obtain ⟨i, hi, rfl⟩ := List.mem_map.mp he
    have hgroup : (plainManifest n).findGroup (plainEntry i).group = some ⟨.full, some plainOid, none, none, 0⟩ :=
      findGroup_plain (List.mem_range.mp hi)
    unfold readRange plainCtx
    dsimp only
    rw [hgroup]
    rfl

theorem length_plain (n : Nat) : (plainManifest n).buffer.length = n := by
  show ((List.range n).map plainEntry).length = n
  rw [List.length_map, List.length_range]

/-- Two tensors: every read is a slice of the file, over every budget. -/
theorem shows_two : (plainManifest 2).buffer.length < 2 ^ 32 ∧
    Shows plainLibs 1 plainCtx (plainManifest 2) plainHeader fun _ => [7] := by
  have hfew : (plainManifest 2).buffer.length < 2 ^ 32 := by
    rw [length_plain]
    omega
  exact ⟨hfew, (shows_iff (shape_plain (by omega) (by omega)) (holds_plain 2)).mpr hfew⟩

/-- 2^32 tensors: the manifest has the shape, and there is no mount of it. -/
theorem not_shows_wide : Shape (plainManifest (2 ^ 32)) plainHeader (fun _ => [7]) ∧
    Holds plainLibs 1 plainCtx (plainManifest (2 ^ 32)) plainHeader (fun _ => [7]) ∧
    ¬Shows plainLibs 1 plainCtx (plainManifest (2 ^ 32)) plainHeader fun _ => [7] := by
  have hshape : Shape (plainManifest (2 ^ 32)) plainHeader fun _ => [7] :=
    shape_plain (Nat.two_pow_pos 32) (by omega)
  refine ⟨hshape, holds_plain _, ?_⟩
  rintro ⟨data, -, hmount⟩
  obtain ⟨fs, hcreate, -⟩ := hmount 0 fun _ => ⟨0, 0⟩
  rw [create_overflow hshape (Nat.le_of_eq (length_plain (2 ^ 32)).symm)] at hcreate
  cases hcreate

end Fs

end SynapseFs.Mount
