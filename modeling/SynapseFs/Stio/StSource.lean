import SynapseFs.Format.StHeader

/-! The lazy reader of a checkpoint file.

`open` keeps the header and the layout; rows are read from the file when they are
asked for. The file itself is a byte string that does not change while it is
open, and is shorter than `2 ^ 63` bytes, as an `off_t` counts them. -/
namespace SynapseFs.Stio
open Lib Core Format

structure StSourceOptions where
  useMmap : Bool
  deriving DecidableEq, Repr

structure StSource where
  file : Bytes
  useMmap : Bool
  headerPrefix : Bytes
  header : StHeader
  layout : List Core.BufferEntry

namespace StSource

/-- `StSource::open` of a file that can be opened and read. -/
def openFile (json : JsonLib) (path : String) (file : Bytes) (opts : StSourceOptions) : Outcome StSource :=
  if file.length < 8 then sfsErr .notSafetensors "file too small to be safetensors" path
  else do
    let jsonLen ← readHeaderLen (file.take 8)
    if jsonLen = 0 ∨ file.length < u64 (8 + jsonLen) then sfsErr .notSafetensors "implausible header length" path
    else
      let headerPrefix := file.take (u64 (8 + jsonLen))
      let header ← parseStHeader json headerPrefix
      validateBufferLayout header.bufferLayout header.headerExtent file.length
      return ⟨file, opts.useMmap, headerPrefix, header, header.bufferLayout⟩

def tensorMeta (s : StSource) (name : String) : Option TensorMeta := s.header.tensors.get? name

/-- From the mapping, or by `pread`, which takes no offset from `2 ^ 63` on. -/
def readRaw (s : StSource) (dataOffset : Nat) (out : Bytes) : Outcome (Nat × Bytes) :=
  if !s.useMmap && decide (2 ^ 63 ≤ dataOffset) && !out.isEmpty then sfsErr .io "read failed" (toString dataOffset)
  else
    let bytes := slice s.file dataOffset out.length
    .ok (bytes.length, filled bytes out)

/-- Rows along axis 0. -/
def readUnits (s : StSource) (name : String) (first count : Nat) (out : Bytes) : Outcome (Nat × Bytes) :=
  match s.tensorMeta name with
  | none => sfsErr .tensorNotInBufferLayout "no such tensor" name
  | some m => do
    let stride ← m.unitBytes 0
    let offset := u64 (m.dataOff + first * stride)
    let want := u64 (count * stride)
    if out.length < want then sfsErr .internal "output buffer too small for requested units" ""
    else
      let (n, bytes) ← s.readRaw offset (out.take want)
      return (n, bytes ++ out.drop want)

/-- The source that the writer path sees. -/
def source (s : StSource) : TensorSource := ⟨s.layout, s.tensorMeta, s.readUnits⟩

/-- The bytes of a tensor. -/
def tensorBytes (s : StSource) (m : TensorMeta) : Bytes := slice s.file m.dataOff m.nbytes

/-- A file is opened by its header's text: the layout of the tensors decides. -/
theorem openFile_eq (json : JsonLib) (path : String) {text data : Bytes} (opts : StSourceOptions)
    {fields : List (String × Json)} {header : StHeader} (hne : text ≠ [])
    (hlen : 8 + text.length + data.length < 2 ^ 63) (hparse : json.parse text = .ok (.obj fields))
    (hfields : fields.foldlM addField ⟨8 + text.length, FinMap.empty, FinMap.empty⟩ = .ok header)
    (hvalid : validateBufferLayout header.bufferLayout header.headerExtent (8 + text.length + data.length) = .ok ()) :
    openFile json path (storeLe 8 text.length ++ (text ++ data)) opts =
      .ok ⟨storeLe 8 text.length ++ (text ++ data), opts.useMmap, storeLe 8 text.length ++ text, header,
        header.bufferLayout⟩ := by
  have hpos : 0 < text.length := List.length_pos_iff.mpr hne
  have hload : loadLe (storeLe 8 text.length) = text.length := loadLe_storeLe_of_lt (by omega)
  have htake8 : (storeLe 8 text.length ++ (text ++ data)).take 8 = storeLe 8 text.length :=
    List.take_left' (length_storeLe _ _)
  have htotal : (storeLe 8 text.length ++ (text ++ data)).length = 8 + text.length + data.length := by
    simp only [List.length_append, length_storeLe]
    omega
  have htake : (storeLe 8 text.length ++ (text ++ data)).take (8 + text.length) = storeLe 8 text.length ++ text := by
    rw [← List.append_assoc]
    exact List.take_left' (by rw [List.length_append, length_storeLe])
  have hread : readHeaderLen (storeLe 8 text.length) = .ok text.length := by
    unfold readHeaderLen
    rw [length_storeLe, if_neg (by omega), List.take_of_length_le (length_storeLe _ _).le, hload]
  have hheader : parseStHeader json (storeLe 8 text.length ++ text) = .ok header := by
    have hread' : readHeaderLen (storeLe 8 text.length ++ text) = .ok text.length := by
      unfold readHeaderLen
      rw [List.length_append, length_storeLe, if_neg (by omega), List.take_left' (length_storeLe _ _), hload]
    have htext : slice (storeLe 8 text.length ++ text) 8 text.length = text := by
      unfold slice
      rw [List.drop_left' (length_storeLe _ _), List.take_length]
    refine bind_eq_ok.mpr ⟨_, hread', ?_⟩
    rw [List.length_append, length_storeLe, u64_of_lt (by omega), if_neg (by omega), if_neg (by omega), htext, hparse]
    exact hfields
  unfold openFile
  rw [htotal, if_neg (by omega), htake8]
  refine bind_eq_ok.mpr ⟨_, hread, ?_⟩
  rw [u64_of_lt (by omega), if_neg (by omega)]
  dsimp only
  rw [htake]
  exact bind_eq_ok.mpr ⟨header, hheader, bind_eq_ok.mpr ⟨(), hvalid, rfl⟩⟩

/-! ### What an open file is -/

/-- Every tensor has one entry, the entries tile the data section, and all of it is in the file. -/
structure Opened (s : StSource) : Prop where
  size : s.file.length < 2 ^ 63
  described : AllDescribed s.header
  entries : ∀ e, e ∈ s.layout ↔ ∃ m, s.tensorMeta e.tensor = some m ∧ e = ⟨e.tensor, m.dataOff, m.nbytes, e.tensor⟩
  names : (s.layout.map Core.BufferEntry.tensor).Nodup
  tiles : Tiles s.header.headerExtent (s.layout.map extent) s.file.length

/-- The pieces of an open file. -/
theorem openFile_ok {json : JsonLib} {path : String} {file : Bytes} {opts : StSourceOptions} {s : StSource}
    (h : openFile json path file opts = .ok s) : AllDescribed s.header ∧ s.header.headerExtent ≤ file.length ∧
      validateBufferLayout s.header.bufferLayout s.header.headerExtent file.length = .ok () ∧
      s = ⟨file, opts.useMmap, file.take s.header.headerExtent, s.header, s.header.bufferLayout⟩ := by
  have h8 : (file.take 8).take 8 = file.take 8 := by rw [List.take_take, Nat.min_self]
  unfold openFile at h
  split at h
  · exact absurd h sfsErr_ne_ok
  · obtain ⟨n, hn, h⟩ := bind_eq_ok.mp h
    obtain ⟨-, rfl⟩ := readHeaderLen_ok hn
    split at h
    · exact absurd h sfsErr_ne_ok
    · obtain ⟨header, hheader, h⟩ := bind_eq_ok.mp h
      obtain ⟨_, hvalid, h⟩ := bind_eq_ok.mp h
      cases h
      rw [h8] at hheader ⊢
      obtain ⟨hdesc, hpre, hextent, hle⟩ := parseStHeader_ok hheader
      rw [List.length_take] at hpre hle
      -- the prefix holds the eight bytes that its length was read from
      rw [List.take_take, Nat.min_eq_left (by omega)] at hextent
      exact ⟨hdesc, hle.trans (Nat.min_le_right _ _), hvalid, by rw [hextent]⟩

/-- Behind the header the entries of an open file are not empty and tile it, so that header and entries are the file. -/
theorem openFile_describes {json : JsonLib} {path : String} {file : Bytes} {opts : StSourceOptions} {s : StSource}
    (h : openFile json path file opts = .ok s) : s.header.headerExtent ≤ file.length ∧
      Tiles s.header.headerExtent (s.layout.map extent) file.length ∧ (∀ e ∈ s.layout, 0 < e.nbytes) ∧
      s.headerPrefix ++ s.layout.flatMap (fun e => slice file e.off e.nbytes) = file := by
  obtain ⟨hdesc, hle, hvalid, hs⟩ := openFile_ok h
  have htiles := validateBufferLayout_tiles hdesc hle hvalid
  have hlayout : s.layout = s.header.bufferLayout := by rw [hs]
  have hpre : s.headerPrefix = file.take s.header.headerExtent := by rw [hs]
  rw [← hlayout] at htiles
  refine ⟨hle, htiles, fun e he => ?_, ?_⟩
  · have hmem : e.off < e.off + e.nbytes := (htiles.mem (List.mem_map_of_mem he)).2.1
    omega
  · have hdata := htiles.flatMap_slice file
    have hentry : ∀ e : Core.BufferEntry, (extent e).2 - (extent e).1 = e.nbytes := fun e => Nat.add_sub_cancel_left _ _
    simp only [hentry] at hdata
    rw [hpre, show (s.layout.flatMap fun e => slice file e.off e.nbytes) = _ from hdata, slice,
      List.take_of_length_le (List.length_drop).le, List.take_append_drop]

theorem opened_of_openFile {json : JsonLib} {path : String} {file : Bytes} {opts : StSourceOptions} {s : StSource}
    (hsize : file.length < 2 ^ 63) (h : openFile json path file opts = .ok s) : s.Opened ∧ s.file = file := by
  obtain ⟨hdesc, hle, hvalid, hs⟩ := openFile_ok h
  have hlayout : s.layout = s.header.bufferLayout := by rw [hs]
  have hfile : s.file = file := by rw [hs]
  refine ⟨⟨hfile ▸ hsize, hdesc, fun e => ?_, ?_, ?_⟩, hfile⟩
  · rw [hlayout]
    exact mem_bufferLayout
  · rw [hlayout]
    exact nodup_bufferLayout s.header
  · rw [hlayout, hfile]
    exact validateBufferLayout_tiles hdesc hle hvalid

section
variable {s : StSource} {name : String} {m : TensorMeta}

/-- The tensor's entry. -/
theorem Opened.entry (h : s.Opened) (hm : s.tensorMeta name = some m) :
    (⟨name, m.dataOff, m.nbytes, name⟩ : Core.BufferEntry) ∈ s.layout := (h.entries _).mpr ⟨m, hm, rfl⟩

/-- The tensor lies in the file. -/
theorem Opened.inFile (h : s.Opened) (hm : s.tensorMeta name = some m) :
    0 < m.nbytes ∧ m.dataOff + m.nbytes ≤ s.file.length := by
  have hmem := h.tiles.mem (List.mem_map_of_mem (h.entry hm))
  have hlt : m.dataOff < m.dataOff + m.nbytes := hmem.2.1
  exact ⟨by omega, hmem.2.2⟩

theorem Opened.typed (h : s.Opened) : s.source.Typed := fun name m hm => (h.described name m hm).dims

theorem length_tensorBytes (h : s.Opened) (hm : s.tensorMeta name = some m) : (s.tensorBytes m).length = m.nbytes := by
  have := h.inFile hm
  rw [tensorBytes, length_slice]
  omega

/-- Any rows that end in the tensor are read in full. -/
theorem readsRows (h : s.Opened) (hm : s.tensorMeta name = some m) {w : Nat} (hw : m.unitBytes 0 = .ok w) :
    s.source.ReadsRows name (s.tensorBytes m) w := by
  intro first count out hle hout
  have hlen := length_tensorBytes h hm
  obtain ⟨-, hin⟩ := h.inFile hm
  have hsize := h.size
  rw [hlen, Nat.add_mul] at hle
  show s.readUnits name first count out = _
  unfold readUnits
  rw [hm]
  refine bind_eq_ok.mpr ⟨w, hw, ?_⟩
  dsimp only
  rw [u64_of_lt (by omega), u64_of_lt (by omega), if_neg (by omega), ← hout, List.take_length, List.drop_length]
  have hslice : slice s.file (m.dataOff + first * w) (count * w) = slice (s.tensorBytes m) (first * w) (count * w) :=
    (slice_slice _ _ _ _ _ (by omega)).symm
  have hfull : (slice (s.tensorBytes m) (first * w) (count * w)).length = count * w := by
    rw [length_slice, hlen]
    omega
  have hraw : s.readRaw (m.dataOff + first * w) out = .ok (count * w, slice (s.tensorBytes m) (first * w) (count * w)) := by
    unfold readRaw
    rw [decide_eq_false (by omega), Bool.and_false, Bool.false_and, if_neg Bool.false_ne_true]
    dsimp only
    rw [hout, hslice, hfull, filled_of_length_eq (hfull.trans hout.symm)]
  rw [hraw, hout]
  show Except.ok _ = _
  rw [List.append_nil]

end

/-! ### A file of one tensor -/

/-- The header of the one tensor `w`, as it is parsed. -/
def soleFields (dtype : DType) (shape : List Nat) (nbytes : Nat) : List (String × Json) :=
  [("w", .obj [("data_offsets", .arr [.uint 0, .uint nbytes]), ("dtype", .str dtype.toString),
    ("shape", .arr (shape.map Json.uint))])]

def soleSource (text data : Bytes) (dtype : DType) (shape : List Nat) : StSource where
  file := storeLe 8 text.length ++ (text ++ data)
  useMmap := false
  headerPrefix := storeLe 8 text.length ++ text
  header := ⟨8 + text.length, ⟨[("w", ⟨"w", shape, dtype, 8 + text.length, data.length⟩)], List.nodup_singleton _⟩,
    FinMap.empty⟩
  layout := [⟨"w", 8 + text.length, data.length, "w"⟩]

theorem tensorBytes_sole (text data : Bytes) (dtype : DType) (shape : List Nat) :
    (soleSource text data dtype shape).tensorBytes ⟨"w", shape, dtype, 8 + text.length, data.length⟩ = data := by
  show slice (storeLe 8 text.length ++ (text ++ data)) (8 + text.length) data.length = data
  unfold slice
  rw [← List.append_assoc, List.drop_left' (by rw [List.length_append, length_storeLe]), List.take_length]

/-- It opens whatever shape and dtype it declares. -/
theorem openFile_sole {json : JsonLib} (path : String) {text data : Bytes} {dtype : DType} {shape : List Nat}
    (hparse : json.parse text = .ok (.obj (soleFields dtype shape data.length))) (hne : text ≠ []) (hdata : data ≠ [])
    (hlen : 8 + text.length + data.length < 2 ^ 63) (hdims : ∀ d ∈ shape, d < 2 ^ 64) :
    openFile json path (soleSource text data dtype shape).file ⟨false⟩ = .ok (soleSource text data dtype shape) := by
  have hu64 : ∀ n, n < 2 ^ 64 → (Json.uint n).getU64 = .ok n := fun n hn => congrArg Except.ok (Nat.mod_eq_of_lt hn)
  have hshape : (shape.map Json.uint).mapM Json.getU64 = .ok shape := mapM_map_eq_ok _ fun d hd => hu64 d (hdims d hd)
  have htensor : tensorMetaFromJson (8 + text.length) "w" (.obj [("data_offsets", .arr [.uint 0, .uint data.length]),
      ("dtype", .str dtype.toString), ("shape", .arr (shape.map Json.uint))]) =
        .ok ⟨"w", shape, dtype, 8 + text.length, data.length⟩ := by
    refine bind_eq_ok.mpr ⟨_, rfl, bind_eq_ok.mpr ⟨_, rfl, bind_eq_ok.mpr ⟨dtype, DType.fromString_toString _, ?_⟩⟩⟩
    refine bind_eq_ok.mpr ⟨shape, bind_eq_ok.mpr ⟨_, rfl, hshape⟩, bind_eq_ok.mpr ⟨_, rfl, ?_⟩⟩
    refine bind_eq_ok.mpr ⟨(0, data.length), ?_, ?_⟩
    · refine bind_eq_ok.mpr ⟨_, hu64 _ (by omega), bind_eq_ok.mpr ⟨_, hu64 _ (by omega), if_neg (Nat.not_lt_zero _)⟩⟩
    · show Except.ok _ = Except.ok _
      rw [u64_of_lt (by omega)]
      rfl
  have hvalid : validateBufferLayout [⟨"w", 8 + text.length, data.length, "w"⟩] (8 + text.length)
      (8 + text.length + data.length) = .ok () := by
    have hpos := List.length_pos_iff.mpr hdata
    unfold validateBufferLayout validateEntries validateEntries
    dsimp only
    rw [if_neg (not_not.mpr rfl), if_neg (by omega), u64_of_lt (by omega), if_neg (not_not.mpr rfl)]
  refine openFile_eq json path ⟨false⟩ hne hlen hparse ?_ hvalid
  refine bind_eq_ok.mpr ⟨_, bind_eq_ok.mpr ⟨_, htensor, rfl⟩, rfl⟩

/-- The header of a checkpoint with the one tensor `w`, of two bytes. -/
def twoBytesText (shape : String) : Bytes :=
  asciiOf ["\x7b\"w\":\x7b\"data_offsets\":[0,2],\"dtype\":\"U8\",\"shape\":[", shape, "]\x7d\x7d"]

def twoBytesJson (shape : List Nat) : JsonLib where
  parse text := if text = [] then .error "[json.exception.parse_error.101] attempting to parse an empty input"
    else .ok (.obj (soleFields .u8 shape 2))
  dump _ := []

theorem length_twoBytesText {l : List Char} (hl : l.length ≤ 255) : (twoBytesText (String.ofList l)).length ≤ 255 * 3 := by
  iterate 3 refine length_asciiOf_le (by first | assumption | decide) ?_
  exact Nat.le_refl _

theorem open_twoBytes {l : List Char} (hl : l.length ≤ 255) {shape : List Nat} (hdims : ∀ d ∈ shape, d < 2 ^ 64) :
    openFile (twoBytesJson shape) "model.safetensors"
      (soleSource (twoBytesText (String.ofList l)) [5, 6] .u8 shape).file ⟨false⟩ =
        .ok (soleSource (twoBytesText (String.ofList l)) [5, 6] .u8 shape) := by
  have hne : twoBytesText (String.ofList l) ≠ [] := asciiOf_ne_nil
  have hlen := length_twoBytesText hl
  refine openFile_sole _ ?_ hne (List.cons_ne_nil _ _) ?_ hdims
  · unfold twoBytesJson
    dsimp only
    rw [if_neg hne]
    rfl
  · show 8 + _ + 2 < 2 ^ 63
    omega

theorem describes_twoBytes : ∃ s, openFile (twoBytesJson [2]) "model.safetensors"
      (soleSource (twoBytesText "2") [5, 6] .u8 [2]).file ⟨false⟩ = .ok s ∧
    s.headerPrefix ++ s.layout.flatMap (fun e => slice (soleSource (twoBytesText "2") [5, 6] .u8 [2]).file e.off e.nbytes) =
      (soleSource (twoBytesText "2") [5, 6] .u8 [2]).file := by
  have hopen := @open_twoBytes ['2'] (by decide) [2] (by decide)
  exact ⟨_, hopen, (openFile_describes hopen).2.2.2⟩

end StSource

end SynapseFs.Stio
