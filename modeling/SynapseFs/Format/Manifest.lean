import SynapseFs.Format.Commit
import SynapseFs.Lib.FinMap
import SynapseFs.Lib.Tiling

/-! The manifest: a verbatim header block, a buffer layout that covers every
byte, and for each tensor group where its bytes come from. -/
namespace SynapseFs.Format
open Lib Core

inductive GroupMode where
  | full | delta
  deriving DecidableEq, Repr

structure DeltaBase where
  commit : Oid
  group : String
  deriving DecidableEq, Repr

structure GroupEntry where
  mode : GroupMode
  /-- Full: an object of kind Raw. -/
  block : Option Oid
  base : Option DeltaBase
  /-- Delta: an object of kind Diff. -/
  diffBlock : Option Oid
  chainDepth : Nat
  deriving DecidableEq, Repr

structure FileInfo where
  name : String
  headerBlock : Oid
  totalBytes : Nat
  sha256 : String
  deriving DecidableEq, Repr

structure BufferEntry where
  tensor : String
  off : Nat
  nbytes : Nat
  group : String
  deriving DecidableEq, Repr

structure Manifest where
  formatVersion : Nat
  hashAlgo : String
  file : FileInfo
  /-- In buffer order, every tensor. -/
  buffer : List BufferEntry
  groups : FinMap String GroupEntry

namespace Manifest

def findGroup (m : Manifest) (name : String) : Option GroupEntry := m.groups.get? name

/-- The buffer loop: entry `i` starts where the one before it ended. -/
def validateBuffer (m : Manifest) : Nat → Nat → List BufferEntry → Outcome Nat
  | _, cursor, [] => .ok cursor
  | i, cursor, e :: rest =>
    if e.off ≠ cursor then
      sfsErr .tensorNotInBufferLayout ("gap or overlap at buffer entry " ++ toString i) e.tensor
    else if e.nbytes = 0 then sfsErr .tensorNotInBufferLayout "zero-length buffer entry" e.tensor
    else if (m.findGroup e.group).isNone then
      sfsErr .malformedObject "buffer entry references unknown group" e.group
    else m.validateBuffer (i + 1) (u64 (cursor + e.nbytes)) rest

def validateGroup (name : String) (g : GroupEntry) : Outcome Unit :=
  match g.mode with
  | .full =>
    if g.block.isNone then sfsErr .malformedObject "Full group missing block" name
    else if g.chainDepth ≠ 0 then sfsErr .malformedObject "Full group must have chain_depth 0" name
    else .ok ()
  | .delta =>
    if g.base.isNone ∨ g.diffBlock.isNone then
      sfsErr .malformedObject "Delta group missing base or diff_block" name
    else .ok ()

def validate (m : Manifest) : Outcome Unit :=
  match m.buffer with
  | [] => sfsErr .malformedObject "manifest has no buffer entries" ""
  | first :: _ => do
    let cursor ← m.validateBuffer 0 first.off m.buffer
    if cursor ≠ m.file.totalBytes then
      sfsErr .tensorNotInBufferLayout ("buffer covers " ++ toString cursor ++ " but file.total_bytes is " ++
        toString m.file.totalBytes) ""
    else forM m.groups.entries fun (name, g) => validateGroup name g

def groupToJson (g : GroupEntry) : Json :=
  .mkObj <|
    [("mode", .str (if g.mode = .full then "full" else "delta"))] ++
    (g.block.map fun b => ("block", Json.str b.toString)).toList ++
    (g.base.map fun b =>
      ("base", Json.mkObj [("commit", .str b.commit.toString), ("group", .str b.group)])).toList ++
    (g.diffBlock.map fun d => ("diff_block", Json.str d.toString)).toList ++
    [("chain_depth", .uint g.chainDepth)]

def toJson (m : Manifest) : Json :=
  .mkObj
    [("format_version", .uint m.formatVersion),
     ("hash_algo", .str m.hashAlgo),
     ("file", .mkObj
       [("name", .str m.file.name),
        ("header_block", .str m.file.headerBlock.toString),
        ("total_bytes", .uint m.file.totalBytes),
        ("sha256", .str m.file.sha256)]),
     ("buffer", .arr (m.buffer.map fun e => .mkObj
       [("tensor", .str e.tensor), ("off", .uint e.off), ("nbytes", .uint e.nbytes), ("group", .str e.group)])),
     ("groups", .mkObj (m.groups.entries.map fun (name, g) => (name, groupToJson g)))]

def toCanonicalJson (json : JsonLib) (m : Manifest) : Bytes := json.dump m.toJson

def oid (json : JsonLib) (blake3 : Bytes → Oid) (m : Manifest) : Oid :=
  computeOid blake3 .manifest (m.toCanonicalJson json)

def bufferEntryFromJson (be : Json) : Outcome BufferEntry := do
  let tensor ← (← be.atKey "tensor").getStr
  let off ← (← be.atKey "off").getU64
  let nbytes ← (← be.atKey "nbytes").getU64
  let group ← (← be.atKey "group").getStr
  return { tensor, off, nbytes, group }

/-- A field the loop reads only when the object has it. -/
def optionalField {α : Type} (j : Json) (key : String) (read : Json → Outcome α) : Outcome (Option α) :=
  if j.contains key then do
    let a ← read (← j.atKey key)
    return some a
  else .ok none

def groupFromJson (v : Json) : Outcome GroupEntry := do
  let mode ← (← v.atKey "mode").getStr
  let block ← optionalField v "block" Commit.oidField
  let base ← optionalField v "base" fun b => do
    let commit ← Commit.oidField (← b.atKey "commit")
    let group ← (← b.atKey "group").getStr
    return { commit, group }
  let diffBlock ← optionalField v "diff_block" Commit.oidField
  let chainDepth ← v.valueOr "chain_depth" Json.getU32 0
  return { mode := if mode = "full" then .full else .delta, block, base, diffBlock, chainDepth }

/-- `groups.emplace`: the first binding of a name stays. -/
def emplaceGroup (groups : FinMap String GroupEntry) (item : Outcome String × Json) :
    Outcome (FinMap String GroupEntry) := do
  let g ← groupFromJson item.2
  let key ← item.1
  return if (groups.get? key).isSome then groups else groups.insert key g

def fromJson (j : Json) : Outcome Manifest := do
  let formatVersion ← (← j.atKey "format_version").getU32
  let hashAlgo ← (← j.atKey "hash_algo").getStr
  let fj ← j.atKey "file"
  let name ← (← fj.atKey "name").getStr
  let headerBlock ← Commit.oidField (← fj.atKey "header_block")
  let totalBytes ← (← fj.atKey "total_bytes").getU64
  let sha256 ← fj.valueOr "sha256" Json.getStr ""
  let buffer ← (← j.atKey "buffer").items.mapM bufferEntryFromJson
  let groups ← (← j.atKey "groups").keyedItems.foldlM emplaceGroup FinMap.empty
  return { formatVersion, hashAlgo, file := { name, headerBlock, totalBytes, sha256 }, buffer, groups }

def parse (json : JsonLib) (bytes : Bytes) : Outcome Manifest :=
  match json.parse bytes with
  | .error what => sfsErr .malformedObject ("manifest JSON parse failed: " ++ what) ""
  | .ok j => do
    let m ← catching (fromJson j) fun what =>
      sfsErr .malformedObject ("manifest field missing/malformed: " ++ what) ""
    m.validate
    if m.toCanonicalJson json ≠ bytes then
      sfsErr .canonicalizationMismatch "manifest does not round-trip to identical bytes" ""
    else .ok m

/-- What validation promises of each group. -/
theorem validateGroup_eq_ok {name : String} {g : GroupEntry} {u : Unit} : validateGroup name g = .ok u ↔
    (g.mode = .full → g.block.isSome ∧ g.chainDepth = 0) ∧ (g.mode = .delta → g.base.isSome ∧ g.diffBlock.isSome) := by
  unfold validateGroup
  cases hm : g.mode with
  | full => cases hb : g.block <;> by_cases hd : g.chainDepth = 0 <;> simp [hd, sfsErr]
  | delta => cases hb : g.base <;> cases hd : g.diffBlock <;> simp [sfsErr]

theorem validate_groups {m : Manifest} (h : m.validate = .ok ()) {name : String} {g : GroupEntry}
    (hg : m.findGroup name = some g) : validateGroup name g = .ok () := by
  unfold validate at h
  split at h
  · exact absurd h sfsErr_ne_ok
  · rw [bind_eq_ok] at h
    obtain ⟨cursor, -, h⟩ := h
    split at h
    · exact absurd h sfsErr_ne_ok
    · exact forM_eq_ok.mp h (name, g) (FinMap.get?_eq_some.mp hg)

/-- Where an entry's bytes are in the file. -/
def extent (e : BufferEntry) : Nat × Nat := (e.off, e.off + e.nbytes)

/-- Entries that pass lie end to end, as long as the cursor does not wrap. -/
theorem validateBuffer_tiles {m : Manifest} {l : List BufferEntry} : ∀ {i cursor last : Nat},
    m.validateBuffer i cursor l = .ok last → cursor + (l.map BufferEntry.nbytes).sum < 2 ^ 64 →
      Tiles cursor (l.map extent) last ∧ ∀ e ∈ l, (m.findGroup e.group).isSome := by
  induction l with
  | nil =>
    intro i cursor last h _
    cases h
    exact ⟨.nil cursor, nofun⟩
  | cons e rest ih =>
    intro i cursor last h hfit
    unfold validateBuffer at h
    split at h
    · exact absurd h sfsErr_ne_ok
    · next hoff =>
      split at h
      · exact absurd h sfsErr_ne_ok
      · next hpos =>
        split at h
        · exact absurd h sfsErr_ne_ok
        · next hgroup =>
          rw [List.map_cons, List.sum_cons] at hfit
          rw [u64_of_lt (by omega)] at h
          obtain ⟨htiles, hgroups⟩ := ih h (by omega)
          have heq : e.off = cursor := not_not.mp hoff
          refine ⟨?_, List.forall_mem_cons.mpr ⟨?_, hgroups⟩⟩
          · rw [List.map_cons, Tiles.cons_iff]
            refine ⟨heq, ?_, ?_⟩
            · show cursor < e.off + e.nbytes
              omega
            · rw [show (extent e).2 = cursor + e.nbytes by rw [extent, heq]]
              exact htiles
          · cases hg : m.findGroup e.group with
            | none => simp [hg] at hgroup
            | some g => rfl

/-- The first entry's offset is the length of the header, and the entries reach from there to `total_bytes`. -/
theorem validate_tiles {m : Manifest} (h : m.validate = .ok ()) :
    ∃ first rest, m.buffer = first :: rest ∧
      (first.off + (m.buffer.map BufferEntry.nbytes).sum < 2 ^ 64 →
        Tiles first.off (m.buffer.map extent) m.file.totalBytes ∧ ∀ e ∈ m.buffer, (m.findGroup e.group).isSome) := by
  unfold validate at h
  split at h
  · exact absurd h sfsErr_ne_ok
  · next first rest hbuffer =>
    refine ⟨first, rest, hbuffer, fun hfit => ?_⟩
    obtain ⟨cursor, hwalk, h⟩ := bind_eq_ok.mp h
    split at h
    · exact absurd h sfsErr_ne_ok
    · next hcursor =>
      rw [← not_not.mp hcursor]
      exact validateBuffer_tiles hwalk hfit

/-- An accepted manifest is valid and is the one its bytes serialise. -/
theorem parse_canonical {json : JsonLib} {bytes : Bytes} {m : Manifest} (h : parse json bytes = .ok m) :
    m.validate = .ok () ∧ m.toCanonicalJson json = bytes := by
  unfold parse at h
  split at h
  · exact absurd h sfsErr_ne_ok
  · simp only [bind_eq_ok] at h
    obtain ⟨m', -, _, hv, h⟩ := h
    split at h
    · exact absurd h sfsErr_ne_ok
    · next hc =>
      cases h
      exact ⟨hv, not_not.mp hc⟩

theorem validateBuffer_fuel (m : Manifest) (l : List BufferEntry) : ∀ i cursor,
    m.validateBuffer i cursor l ≠ .error .outOfFuel := by
  induction l with
  | nil => exact fun _ _ => nofun
  | cons e rest ih =>
    intro i cursor
    unfold validateBuffer
    split
    · exact nofun
    · split
      · exact nofun
      · split
        · exact nofun
        · exact ih _ _

theorem validate_fuel (m : Manifest) : m.validate ≠ .error .outOfFuel := by
  unfold validate
  split
  · exact nofun
  · refine bind_fuel (m.validateBuffer_fuel _ _ _) fun cursor _ => ?_
    split
    · exact nofun
    · refine forM_fuel (fun ⟨name, g⟩ => ?_) _
      show validateGroup name g ≠ _
      unfold validateGroup
      split
      · split
        · exact nofun
        · split <;> exact nofun
      · split <;> exact nofun

theorem optionalField_fuel {α : Type} (j : Json) (key : String) {read : Json → Outcome α}
    (hr : ∀ v, read v ≠ .error .outOfFuel) : optionalField j key read ≠ .error .outOfFuel := by
  unfold optionalField
  split
  · exact bind_fuel (j.atKey_fuel key) fun _ _ => bind_fuel (hr _) fun _ _ => nofun
  · exact nofun

theorem emplaceGroup_fuel (groups : FinMap String GroupEntry) (key : Outcome String) (v : Json)
    (hk : key ≠ .error .outOfFuel) : emplaceGroup groups (key, v) ≠ .error .outOfFuel := by
  refine bind_fuel ?_ fun _ _ => bind_fuel hk fun _ _ => nofun
  refine bind_fuel (v.atKey_fuel _) fun _ _ => bind_fuel (Json.getStr_fuel _) fun _ _ => ?_
  refine bind_fuel (optionalField_fuel _ _ Commit.oidField_fuel) fun _ _ => ?_
  refine bind_fuel (optionalField_fuel _ _ fun b => ?_) fun _ _ => ?_
  · refine bind_fuel (b.atKey_fuel _) fun _ _ => bind_fuel (Commit.oidField_fuel _) fun _ _ => ?_
    exact bind_fuel (b.atKey_fuel _) fun _ _ => bind_fuel (Json.getStr_fuel _) fun _ _ => nofun
  · refine bind_fuel (optionalField_fuel _ _ Commit.oidField_fuel) fun _ _ => ?_
    exact bind_fuel (Json.valueOr_fuel _ _ _ Json.getU32_fuel) fun _ _ => nofun

theorem fromJson_fuel (j : Json) : fromJson j ≠ .error .outOfFuel := by
  refine bind_fuel (j.atKey_fuel _) fun _ _ => bind_fuel (Json.getU32_fuel _) fun _ _ => ?_
  refine bind_fuel (j.atKey_fuel _) fun _ _ => bind_fuel (Json.getStr_fuel _) fun _ _ => ?_
  refine bind_fuel (j.atKey_fuel _) fun fj _ => ?_
  refine bind_fuel (fj.atKey_fuel _) fun _ _ => bind_fuel (Json.getStr_fuel _) fun _ _ => ?_
  refine bind_fuel (fj.atKey_fuel _) fun _ _ => bind_fuel (Commit.oidField_fuel _) fun _ _ => ?_
  refine bind_fuel (fj.atKey_fuel _) fun _ _ => bind_fuel (Json.getArithmetic_fuel 64 _) fun _ _ => ?_
  refine bind_fuel (Json.valueOr_fuel _ _ _ Json.getStr_fuel) fun _ _ => ?_
  refine bind_fuel (j.atKey_fuel _) fun _ _ => bind_fuel (mapM_fuel (fun be => ?_) _) fun _ _ => ?_
  · refine bind_fuel (be.atKey_fuel _) fun _ _ => bind_fuel (Json.getStr_fuel _) fun _ _ => ?_
    refine bind_fuel (be.atKey_fuel _) fun _ _ => bind_fuel (Json.getArithmetic_fuel 64 _) fun _ _ => ?_
    refine bind_fuel (be.atKey_fuel _) fun _ _ => bind_fuel (Json.getArithmetic_fuel 64 _) fun _ _ => ?_
    exact bind_fuel (be.atKey_fuel _) fun _ _ => bind_fuel (Json.getStr_fuel _) fun _ _ => nofun
  · refine bind_fuel (j.atKey_fuel _) fun gj _ => bind_fuel ?_ fun _ _ => nofun
    exact foldlM_fuel _ _ fun b item hitem => emplaceGroup_fuel b item.1 item.2 (Json.keyedItems_fuel hitem)

theorem parse_fuel (json : JsonLib) (bytes : Bytes) : parse json bytes ≠ .error .outOfFuel := by
  unfold parse
  split
  · exact nofun
  · refine bind_fuel (catching_fuel (fromJson_fuel _) fun _ => nofun) fun m _ => ?_
    refine bind_fuel m.validate_fuel fun _ _ => ?_
    split <;> exact nofun

end Manifest

end SynapseFs.Format
