import Mathlib.Data.List.Sort
import SynapseFs.Core.Interfaces
import SynapseFs.Format.Json
import SynapseFs.Lib.FinMap
import SynapseFs.Lib.Tiling

/-! The safetensors header: where the tensors of a checkpoint lie.

A tensor's extent comes from its `data_offsets` alone. Shape and dtype are read
beside it, and nothing in the header relates the two: what `validateBufferLayout`
checks is that the extents tile the file behind the header. -/
namespace SynapseFs.Format
open Lib Core

structure StHeader where
  /-- Where the data section starts. -/
  headerExtent : Nat
  tensors : FinMap String TensorMeta
  metadata : FinMap String String

/-! ### Parsing -/

def readHeaderLen (first8 : Bytes) : Outcome Nat :=
  if first8.length < 8 then sfsErr .notSafetensors "file too small to contain an 8-byte header length" ""
  else .ok (loadLe (first8.take 8))

def dataOffsets (key : String) (off : Json) : Outcome (Nat × Nat) :=
  match off with
  | .arr [b, e] => do
    let first ← b.getU64
    let last ← e.getU64
    if last < first then sfsErr .notSafetensors "tensor data_offsets begin > end" key else return (first, last)
  | _ => sfsErr .notSafetensors "tensor has malformed data_offsets" key

/-- No shape is an empty one. -/
def shapeFromJson (v : Json) : Outcome (List Nat) :=
  if v.contains "shape" then do (← v.atKey "shape").items.mapM Json.getU64 else .ok []

def tensorMetaFromJson (headerExtent : Nat) (key : String) (v : Json) : Outcome TensorMeta := do
  let dtype ← DType.fromString (← (← v.atKey "dtype").getStr)
  let shape ← shapeFromJson v
  let (first, last) ← dataOffsets key (← v.atKey "data_offsets")
  return ⟨key, shape, dtype, u64 (headerExtent + first), last - first⟩

/-- The texts of `__metadata__`. -/
def metadataFromJson (v : Json) (m : FinMap String String) : FinMap String String :=
  match v with
  | .obj fields => fields.foldl (fun m f =>
      match f.2 with
      | .str s => m.insert f.1 s
      | _ => m) m
  | _ => m

/-- One field of the header; what is no tensor is passed over. -/
def addField (h : StHeader) (field : String × Json) : Outcome StHeader :=
  if field.1 = "__metadata__" then .ok { h with metadata := metadataFromJson field.2 h.metadata }
  else if !field.2.contains "dtype" || !field.2.contains "data_offsets" then .ok h
  else do
    let t ← tensorMetaFromJson h.headerExtent field.1 field.2
    -- `emplace` keeps what is there
    if (h.tensors.get? field.1).isSome then return h
    else return { h with tensors := h.tensors.insert field.1 t }

def parseStHeader (json : JsonLib) (filePrefix : Bytes) : Outcome StHeader := do
  let n ← readHeaderLen filePrefix
  if n = 0 ∨ filePrefix.length < u64 (8 + n) then
    sfsErr .notSafetensors "implausible or truncated header length" ""
  else if filePrefix.length - 8 < n then .error (.undefined "string_view outside the file")
  else
    match json.parse (slice filePrefix 8 n) with
    | .error what => sfsErr .notSafetensors ("header JSON parse failed: " ++ what) ""
    | .ok (.obj fields) => fields.foldlM addField ⟨u64 (8 + n), FinMap.empty, FinMap.empty⟩
    | .ok _ => sfsErr .notSafetensors "safetensors header is not a JSON object" ""

/-! ### Layout -/

/-- Every tensor, by data offset; each is its own group until a topology is parsed. -/
def StHeader.bufferLayout (h : StHeader) : List Core.BufferEntry :=
  (h.tensors.entries.insertionSort fun a b => a.2.dataOff ≤ b.2.dataOff).map fun e =>
    ⟨e.1, e.2.dataOff, e.2.nbytes, e.1⟩

/-- The loop over the entries from number `i` on. -/
def validateEntries (total : Nat) : Nat → Nat → List Core.BufferEntry → Outcome Unit
  | _, cursor, [] =>
    if cursor ≠ total then
      sfsErr .tensorNotInBufferLayout
        ("buffer entries cover " ++ toString cursor ++ " but total is " ++ toString total) ""
    else .ok ()
  | i, cursor, e :: rest =>
    if e.off ≠ cursor then
      sfsErr .tensorNotInBufferLayout ("gap or overlap at buffer entry " ++ toString i) e.tensor
    else if e.nbytes = 0 then sfsErr .tensorNotInBufferLayout "zero-length buffer entry" e.tensor
    else validateEntries total (i + 1) (u64 (cursor + e.nbytes)) rest

def validateBufferLayout (entries : List Core.BufferEntry) (headerExtent totalBytes : Nat) : Outcome Unit :=
  validateEntries totalBytes 0 headerExtent entries

/-! ### What a header says of a tensor -/

/-- The extent of a tensor, as two 64-bit offsets behind the header give it. -/
def ExtentFrom (headerExtent : Nat) (m : TensorMeta) : Prop :=
  ∃ first last, first ≤ last ∧ last < 2 ^ 64 ∧ m.dataOff = u64 (headerExtent + first) ∧ m.nbytes = last - first

/-- What holds of every tensor of a parsed header. -/
structure Described (headerExtent : Nat) (name : String) (m : TensorMeta) : Prop where
  owner : m.shapeOwner = name
  dims : ∀ d ∈ m.shape, d < 2 ^ 64
  extent : ExtentFrom headerExtent m

theorem getU64_lt {j : Json} {n : Nat} (h : j.getU64 = .ok n) : n < 2 ^ 64 := by
  unfold Json.getU64 Json.getArithmetic at h
  split at h
  · cases h
    exact Nat.mod_lt _ (by decide)
  · next z =>
    cases h
    omega
  · split at h
    · split at h
      · next hz =>
        cases h
        omega
      · cases h
    · cases h
  · cases h

theorem dataOffsets_ok {key : String} {off : Json} {r : Nat × Nat} (h : dataOffsets key off = .ok r) :
    r.1 ≤ r.2 ∧ r.2 < 2 ^ 64 := by
  unfold dataOffsets at h
  split at h
  · obtain ⟨first, -, h⟩ := bind_eq_ok.mp h
    obtain ⟨last, hlast, h⟩ := bind_eq_ok.mp h
    split at h
    · exact absurd h sfsErr_ne_ok
    · next hle =>
      cases h
      exact ⟨not_lt.mp hle, getU64_lt hlast⟩
  · exact absurd h sfsErr_ne_ok

theorem tensorMetaFromJson_described {headerExtent : Nat} {key : String} {v : Json} {m : TensorMeta}
    (h : tensorMetaFromJson headerExtent key v = .ok m) : Described headerExtent key m := by
  unfold tensorMetaFromJson at h
  simp only [bind_eq_ok] at h
  obtain ⟨_, -, _, -, _, -, shape, hshape, _, -, ⟨first, last⟩, hoff, h⟩ := h
  cases h
  obtain ⟨hle, hlt⟩ := dataOffsets_ok hoff
  refine ⟨rfl, fun d hd => ?_, first, last, hle, hlt, rfl, rfl⟩
  unfold shapeFromJson at hshape
  split at hshape
  · obtain ⟨_, -, hshape⟩ := bind_eq_ok.mp hshape
    obtain ⟨j, -, hj⟩ := exists_of_mapM hshape hd
    exact getU64_lt hj
  · cases hshape
    cases hd

/-- All tensors read so far are described. -/
def AllDescribed (h : StHeader) : Prop := ∀ name m, h.tensors.get? name = some m → Described h.headerExtent name m

theorem addField_described {h h' : StHeader} {field : String × Json} (hok : addField h field = .ok h')
    (hd : AllDescribed h) : AllDescribed h' ∧ h'.headerExtent = h.headerExtent := by
  unfold addField at hok
  split at hok
  · cases hok
    exact ⟨hd, rfl⟩
  · split at hok
    · cases hok
      exact ⟨hd, rfl⟩
    · obtain ⟨t, ht, hok⟩ := bind_eq_ok.mp hok
      split at hok
      · cases hok
        exact ⟨hd, rfl⟩
      · cases hok
        refine ⟨fun name m hm => ?_, rfl⟩
        by_cases hname : name = field.1
        · subst hname
          rw [FinMap.get?_insert_self] at hm
          cases hm
          exact tensorMetaFromJson_described ht
        · rw [FinMap.get?_insert_ne _ _ hname] at hm
          exact hd name m hm

theorem readHeaderLen_ok {first8 : Bytes} {n : Nat} (h : readHeaderLen first8 = .ok n) :
    8 ≤ first8.length ∧ n = loadLe (first8.take 8) := by
  unfold readHeaderLen at h
  split at h
  · exact absurd h sfsErr_ne_ok
  · next hlen =>
    cases h
    exact ⟨not_lt.mp hlen, rfl⟩

/-- A parsed header lies in what it was parsed from, and every tensor is described. -/
theorem parseStHeader_ok {json : JsonLib} {filePrefix : Bytes} {h : StHeader}
    (hok : parseStHeader json filePrefix = .ok h) : AllDescribed h ∧ 8 ≤ filePrefix.length ∧
      h.headerExtent = u64 (8 + loadLe (filePrefix.take 8)) ∧ h.headerExtent ≤ filePrefix.length := by
  obtain ⟨n, hn, hok⟩ := bind_eq_ok.mp hok
  obtain ⟨h8, rfl⟩ := readHeaderLen_ok hn
  split at hok
  · exact absurd hok sfsErr_ne_ok
  · next hlen =>
    rw [not_or, not_lt] at hlen
    split at hok
    · cases hok
    · split at hok
      · exact absurd hok sfsErr_ne_ok
      · have hinv := foldlM_invariant
          (I := fun h : StHeader => AllDescribed h ∧ h.headerExtent = u64 (8 + loadLe (filePrefix.take 8)))
          (fun b a _ c hb hc => ?_) ?_ hok
        · exact ⟨hinv.1, h8, hinv.2, hinv.2 ▸ hlen.2⟩
        · obtain ⟨hd, he⟩ := addField_described hc hb.1
          exact ⟨hd, he.trans hb.2⟩
        · exact ⟨nofun, rfl⟩
      · exact absurd hok sfsErr_ne_ok

/-! ### What an accepted layout is -/

theorem mem_bufferLayout {h : StHeader} {e : Core.BufferEntry} : e ∈ h.bufferLayout ↔
    ∃ m, h.tensors.get? e.tensor = some m ∧ e = ⟨e.tensor, m.dataOff, m.nbytes, e.tensor⟩ := by
  unfold StHeader.bufferLayout
  simp only [List.mem_map, List.mem_insertionSort, Prod.exists, FinMap.get?_eq_some]
  constructor
  · rintro ⟨name, m, hmem, rfl⟩
    exact ⟨m, hmem, rfl⟩
  · rintro ⟨m, hmem, he⟩
    exact ⟨e.tensor, m, hmem, he.symm⟩

theorem bufferLayout_sorted (h : StHeader) : h.bufferLayout.Pairwise fun a b => a.off ≤ b.off := by
  unfold StHeader.bufferLayout
  rw [List.pairwise_map]
  exact List.pairwise_insertionSort _ _

theorem nodup_bufferLayout (h : StHeader) : (h.bufferLayout.map Core.BufferEntry.tensor).Nodup := by
  unfold StHeader.bufferLayout
  rw [List.map_map]
  have hperm := (List.perm_insertionSort (fun a b : String × TensorMeta => a.2.dataOff ≤ b.2.dataOff) h.tensors.entries).map
    Prod.fst
  exact hperm.nodup_iff.mpr h.tensors.nodup

/-- The extent of an entry. -/
def extent (e : Core.BufferEntry) : Nat × Nat := (e.off, e.off + e.nbytes)

/-- No sum wraps: an extent that ends past `2 ^ 64` would end in front of the data section. -/
theorem validateEntries_tiles {headerExtent total : Nat} (htotal : headerExtent ≤ total)
    {entries : List Core.BufferEntry} : ∀ {i cursor : Nat}, validateEntries total i cursor entries = .ok () →
    (∀ e ∈ entries, headerExtent ≤ e.off ∧ e.off < 2 ^ 64 ∧
      ∃ first last, first ≤ last ∧ last < 2 ^ 64 ∧ e.off = u64 (headerExtent + first) ∧ e.nbytes = last - first) →
    Tiles cursor (entries.map extent) total := by
  induction entries with
  | nil =>
    intro i cursor h _
    unfold validateEntries at h
    split at h
    · exact absurd h sfsErr_ne_ok
    · next heq =>
      rw [not_not.mp heq]
      exact .nil total
  | cons e rest ih =>
    intro i cursor h hall
    unfold validateEntries at h
    split at h
    · exact absurd h sfsErr_ne_ok
    · next hoff =>
      split at h
      · exact absurd h sfsErr_ne_ok
      · next hpos =>
        have hoff := not_not.mp hoff
        obtain ⟨hle, hlt, first, last, hfl, hlast, heoff, hn⟩ := hall e List.mem_cons_self
        have hrest : ∀ e' ∈ rest, headerExtent ≤ e'.off := fun e' he' => (hall e' (List.mem_cons_of_mem _ he')).1
        have hfits : cursor + e.nbytes < 2 ^ 64 := by
          by_contra hwrap
          have hbegin : e.off = headerExtent + first := by
            unfold u64 at heoff
            omega
          have hsmall : u64 (cursor + e.nbytes) < headerExtent := by
            unfold u64
            omega
          cases rest with
          | nil =>
            unfold validateEntries at h
            split at h
            · exact absurd h sfsErr_ne_ok
            · next heq => omega
          | cons e' rest' =>
            unfold validateEntries at h
            split at h
            · exact absurd h sfsErr_ne_ok
            · next heq =>
              have := hrest e' List.mem_cons_self
              omega
        rw [u64_of_lt hfits, ← hoff] at h
        rw [List.map_cons, ← hoff]
        exact .cons (by omega) (ih h fun e' he' => hall e' (List.mem_cons_of_mem _ he'))

/-- The layout of a described header that is accepted tiles the file behind the header. -/
theorem validateBufferLayout_tiles {h : StHeader} (hdesc : AllDescribed h) {total : Nat} (hle : h.headerExtent ≤ total)
    (hvalid : validateBufferLayout h.bufferLayout h.headerExtent total = .ok ()) :
    Tiles h.headerExtent (h.bufferLayout.map extent) total := by
  refine validateEntries_tiles hle hvalid fun e he => ?_
  obtain ⟨m, hm, heq⟩ := mem_bufferLayout.mp he
  obtain ⟨first, last, hfl, hlast, hoff, hn⟩ := (hdesc e.tensor m hm).extent
  have hoff' : e.off = u64 (h.headerExtent + first) := heq ▸ hoff
  have hn' : e.nbytes = last - first := heq ▸ hn
  refine ⟨?_, hoff' ▸ u64_lt _, first, last, hfl, hlast, hoff', hn'⟩
  -- the first entry starts the data section, and the entries are sorted
  have hsorted := bufferLayout_sorted h
  unfold validateBufferLayout at hvalid
  cases hl : h.bufferLayout with
  | nil =>
    rw [hl] at he
    cases he
  | cons e₀ rest =>
    rw [hl] at he hsorted hvalid
    have hfirst : e₀.off = h.headerExtent := by
      unfold validateEntries at hvalid
      split at hvalid
      · exact absurd hvalid sfsErr_ne_ok
      · next heq => exact not_not.mp heq
    rcases List.mem_cons.mp he with rfl | he
    · exact hfirst.ge
    · exact hfirst ▸ (List.pairwise_cons.mp hsorted).1 e he

end SynapseFs.Format
