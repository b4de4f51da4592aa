import SynapseFs.Format.Manifest
import SynapseFs.Format.Tree

/-! Canonical objects: a commit, a manifest and a tree each have one text.

An address is taken of a text, so two texts of one object would be two addresses,
and a text of two objects would be one. What a reader tolerates on the way in (a
default for a missing key, upper-case hex, a number that wraps, a boolean for a
number, unknown keys) is settled by the comparison with the re-serialised bytes
at the end of each `parse`; that the comparison never refuses what the program
itself writes is the round trip here. -/
namespace SynapseFs.Format
open Lib Core

/-- One text for each value. `write` is the text of `toJson`; that the library
reads a text back is asked of the value at hand only. -/
structure CanonicalFormat {α : Type} (json : JsonLib) (valid : α → Prop) (toJson : α → Json) (write : α → Bytes)
    (parse : Bytes → Outcome α) : Prop where
  parse_write : ∀ x, valid x → json.parse (write x) = .ok (toJson x) → parse (write x) = .ok x
  write_parse : ∀ bytes x, parse bytes = .ok x → write x = bytes
  eq_iff : ∀ bytes bytes' x x', parse bytes = .ok x → parse bytes' = .ok x' → (x = x' ↔ bytes = bytes')

/-- The comparison at the end of `parse` already makes equal values of equal texts, and the other way round. -/
theorem CanonicalFormat.of_round_trips {α : Type} {json : JsonLib} {valid : α → Prop} {toJson : α → Json}
    {write : α → Bytes} {parse : Bytes → Outcome α}
    (hparse : ∀ x, valid x → json.parse (write x) = .ok (toJson x) → parse (write x) = .ok x)
    (hwrite : ∀ bytes x, parse bytes = .ok x → write x = bytes) : CanonicalFormat json valid toJson write parse := by
  refine ⟨hparse, hwrite, fun bytes bytes' x x' h h' => ⟨fun he => ?_, fun he => ?_⟩⟩
  · rw [← hwrite bytes x h, he, hwrite bytes' x' h']
  · rw [he, h'] at h
    exact (Except.ok.inj h).symm

theorem Commit.oidField_toString (o : Oid) : Commit.oidField (.str o.toString) = .ok o :=
  bind_eq_ok.mpr ⟨o.toString, rfl, Oid.parse_toString o⟩

/-! ### Commits -/

/-- What `Commit::parse` asks of a commit, and that the version fits its type. -/
structure Commit.Valid (c : Commit) : Prop where
  formatVersion : c.formatVersion < 2 ^ 32
  parents : c.parents.length ≤ 2
  timestamp : isValidTimestamp c.timestamp = true

namespace Commit

theorem fromJson_toJson {c : Commit} (h : c.Valid) : fromJson c.toJson = .ok c := by
  unfold fromJson toJson
  refine bind_eq_ok.mpr ⟨_, Json.atKey_mkObj rfl, bind_eq_ok.mpr ⟨_, Json.getU32_uint h.formatVersion, ?_⟩⟩
  refine bind_eq_ok.mpr ⟨_, Json.atKey_mkObj rfl, bind_eq_ok.mpr ⟨c.parents, ?_, ?_⟩⟩
  · exact mapM_map_eq_ok _ fun p _ => oidField_toString p
  rw [if_neg (Nat.not_lt.mpr h.parents)]
  refine bind_eq_ok.mpr ⟨_, Json.atKey_mkObj rfl, bind_eq_ok.mpr ⟨_, oidField_toString _, ?_⟩⟩
  refine bind_eq_ok.mpr ⟨_, Json.atKey_mkObj rfl, bind_eq_ok.mpr ⟨_, oidField_toString _, ?_⟩⟩
  refine bind_eq_ok.mpr ⟨_, Json.atKey_mkObj rfl, bind_eq_ok.mpr ⟨_, rfl, ?_⟩⟩
  refine bind_eq_ok.mpr ⟨_, Json.valueOr_mkObj rfl rfl, ?_⟩
  exact bind_eq_ok.mpr ⟨_, Json.valueOr_mkObj rfl rfl, rfl⟩

theorem parse_toCanonicalJson {json : JsonLib} {c : Commit} (h : c.Valid)
    (hread : json.parse (c.toCanonicalJson json) = .ok c.toJson) : parse json (c.toCanonicalJson json) = .ok c := by
  unfold parse
  rw [hread]
  refine bind_eq_ok.mpr ⟨c, (catching_eq_ok fun _ => sfsErr_ne_ok).mpr (fromJson_toJson h), ?_⟩
  rw [if_neg (by rw [h.timestamp]; exact Bool.noConfusion), if_neg (not_not.mpr rfl)]

end Commit

/-! ### Manifests -/

/-- What `Manifest::parse` asks of a manifest, that its numbers fit their types,
and that `groups` is in the order of a `std::map`. -/
structure Manifest.Valid (m : Manifest) : Prop where
  formatVersion : m.formatVersion < 2 ^ 32
  totalBytes : m.file.totalBytes < 2 ^ 64
  buffer : ∀ e ∈ m.buffer, e.off < 2 ^ 64 ∧ e.nbytes < 2 ^ 64
  chainDepth : ∀ e ∈ m.groups.entries, e.2.chainDepth < 2 ^ 32
  sorted : m.groups.entries.Pairwise fun a b => a.1 < b.1
  validate : m.validate = .ok ()

namespace Manifest

/-- A field that is written only when there is something to write. -/
theorem optionalField_map {α : Type} {fields : List (String × Json)} {key : String} {o : Option α} {write : α → Json}
    {read : Json → Outcome α} (h : fields.reverse.lookup key = o.map write) (hread : ∀ a, read (write a) = .ok a) :
    optionalField (.mkObj fields) key read = .ok o := by
  unfold optionalField
  cases o with
  | none =>
    rw [if_neg]
    rw [Json.not_contains_mkObj h]
    exact Bool.noConfusion
  | some a =>
    rw [if_pos (Json.contains_mkObj h)]
    exact bind_eq_ok.mpr ⟨write a, Json.atKey_mkObj h, bind_eq_ok.mpr ⟨a, hread a, rfl⟩⟩

/-- The text of a base. -/
def baseToJson (b : DeltaBase) : Json := .mkObj [("commit", .str b.commit.toString), ("group", .str b.group)]

theorem baseFromJson_toJson (b : DeltaBase) : (do
    let commit ← Commit.oidField (← (baseToJson b).atKey "commit")
    let group ← (← (baseToJson b).atKey "group").getStr
    return ({ commit, group } : DeltaBase)) = .ok b := by
  refine bind_eq_ok.mpr ⟨_, Json.atKey_mkObj rfl, bind_eq_ok.mpr ⟨_, Commit.oidField_toString _, ?_⟩⟩
  exact bind_eq_ok.mpr ⟨_, Json.atKey_mkObj rfl, bind_eq_ok.mpr ⟨_, rfl, rfl⟩⟩

/-- The fields `groupToJson` sets, in its order. -/
def groupFields (g : GroupEntry) : List (String × Json) :=
  [("mode", .str (if g.mode = .full then "full" else "delta"))] ++
    (g.block.map fun b => ("block", Json.str b.toString)).toList ++
    (g.base.map fun b => ("base", baseToJson b)).toList ++
    (g.diffBlock.map fun d => ("diff_block", Json.str d.toString)).toList ++
    [("chain_depth", .uint g.chainDepth)]

theorem lookup_groupFields (g : GroupEntry) :
    (groupFields g).reverse.lookup "mode" = some (.str (if g.mode = .full then "full" else "delta")) ∧
    (groupFields g).reverse.lookup "block" = g.block.map (fun b => .str b.toString) ∧
    (groupFields g).reverse.lookup "base" = g.base.map baseToJson ∧
    (groupFields g).reverse.lookup "diff_block" = g.diffBlock.map (fun d => .str d.toString) ∧
    (groupFields g).reverse.lookup "chain_depth" = some (.uint g.chainDepth) := by
  obtain ⟨mode, block, base, diffBlock, chainDepth⟩ := g
  unfold groupFields
  cases block <;> cases base <;> cases diffBlock <;> simp [Json.lookup_cons_ite]

/-- What is absent from a group is left out of its text, and read back as absent. -/
theorem groupFromJson_toJson {g : GroupEntry} (h : g.chainDepth < 2 ^ 32) : groupFromJson (groupToJson g) = .ok g := by
  obtain ⟨hmode, hblock, hbase, hdiff, hdepth⟩ := lookup_groupFields g
  rw [show groupToJson g = .mkObj (groupFields g) from rfl]
  unfold groupFromJson
  refine bind_eq_ok.mpr ⟨_, Json.atKey_mkObj hmode, bind_eq_ok.mpr ⟨_, rfl, ?_⟩⟩
  refine bind_eq_ok.mpr ⟨g.block, optionalField_map hblock Commit.oidField_toString, ?_⟩
  refine bind_eq_ok.mpr ⟨g.base, optionalField_map hbase baseFromJson_toJson, ?_⟩
  refine bind_eq_ok.mpr ⟨g.diffBlock, optionalField_map hdiff Commit.oidField_toString, ?_⟩
  refine bind_eq_ok.mpr ⟨g.chainDepth, Json.valueOr_mkObj hdepth (Json.getU32_uint h), ?_⟩
  obtain ⟨mode, block, base, diffBlock, chainDepth⟩ := g
  cases mode <;> rfl

/-- Groups that come in order, under their names, are inserted one behind the other. -/
theorem foldlM_emplaceGroup {l : List (String × GroupEntry)} (hl : ∀ e ∈ l, e.2.chainDepth < 2 ^ 32) :
    ∀ {groups : FinMap String GroupEntry} {all : FinMap String GroupEntry}, all.entries = groups.entries ++ l →
      (l.map fun e => (Except.ok e.1, groupToJson e.2)).foldlM emplaceGroup groups = .ok all := by
  induction l with
  | nil =>
    intro groups all h
    exact congrArg Except.ok (FinMap.eq_of_entries (by rw [h, List.append_nil]))
  | cons e rest ih =>
    intro groups all h
    have hnew : e.1 ∉ groups.keys := by
      have hnodup := all.nodup
      rw [h, List.map_append, List.map_cons] at hnodup
      exact fun hm => (List.nodup_append.mp hnodup).2.2 _ hm _ List.mem_cons_self rfl
    have hstep : emplaceGroup groups (.ok e.1, groupToJson e.2) = .ok (groups.insert e.1 e.2) := by
      refine bind_eq_ok.mpr ⟨_, groupFromJson_toJson (hl e List.mem_cons_self), bind_eq_ok.mpr ⟨_, rfl, ?_⟩⟩
      rw [FinMap.get?_eq_none.mpr hnew]
      rfl
    rw [List.map_cons, List.foldlM_cons, hstep]
    refine ih (fun e he => hl e (List.mem_cons_of_mem _ he)) ?_
    rw [FinMap.entries_insert_new e.2 hnew, h, List.append_assoc]
    rfl

theorem fromJson_toJson {m : Manifest} (h : m.Valid) : fromJson m.toJson = .ok m := by
  unfold fromJson toJson
  refine bind_eq_ok.mpr ⟨_, Json.atKey_mkObj rfl, bind_eq_ok.mpr ⟨_, Json.getU32_uint h.formatVersion, ?_⟩⟩
  refine bind_eq_ok.mpr ⟨_, Json.atKey_mkObj rfl, bind_eq_ok.mpr ⟨_, rfl, ?_⟩⟩
  refine bind_eq_ok.mpr ⟨_, Json.atKey_mkObj rfl, ?_⟩
  refine bind_eq_ok.mpr ⟨_, Json.atKey_mkObj rfl, bind_eq_ok.mpr ⟨_, rfl, ?_⟩⟩
  refine bind_eq_ok.mpr ⟨_, Json.atKey_mkObj rfl, bind_eq_ok.mpr ⟨_, Commit.oidField_toString _, ?_⟩⟩
  refine bind_eq_ok.mpr ⟨_, Json.atKey_mkObj rfl, bind_eq_ok.mpr ⟨_, Json.getU64_uint h.totalBytes, ?_⟩⟩
  refine bind_eq_ok.mpr ⟨_, Json.valueOr_mkObj rfl rfl, ?_⟩
  refine bind_eq_ok.mpr ⟨_, Json.atKey_mkObj rfl, bind_eq_ok.mpr ⟨m.buffer, ?_, ?_⟩⟩
  · refine mapM_map_eq_ok _ fun e he => ?_
    obtain ⟨hoff, hnbytes⟩ := h.buffer e he
    refine bind_eq_ok.mpr ⟨_, Json.atKey_mkObj rfl, bind_eq_ok.mpr ⟨_, rfl, ?_⟩⟩
    refine bind_eq_ok.mpr ⟨_, Json.atKey_mkObj rfl, bind_eq_ok.mpr ⟨_, Json.getU64_uint hoff, ?_⟩⟩
    refine bind_eq_ok.mpr ⟨_, Json.atKey_mkObj rfl, bind_eq_ok.mpr ⟨_, Json.getU64_uint hnbytes, ?_⟩⟩
    exact bind_eq_ok.mpr ⟨_, Json.atKey_mkObj rfl, bind_eq_ok.mpr ⟨_, rfl, rfl⟩⟩
  refine bind_eq_ok.mpr ⟨_, Json.atKey_mkObj rfl, bind_eq_ok.mpr ⟨m.groups, ?_, rfl⟩⟩
  have hsorted : (m.groups.entries.map fun e => (e.1, groupToJson e.2)).Pairwise fun a b => a.1 < b.1 :=
    List.pairwise_map.mpr h.sorted
  rw [Json.mkObj_sorted hsorted]
  unfold Json.keyedItems
  dsimp only
  rw [List.map_map]
  exact foldlM_emplaceGroup h.chainDepth rfl

theorem parse_toCanonicalJson {json : JsonLib} {m : Manifest} (h : m.Valid)
    (hread : json.parse (m.toCanonicalJson json) = .ok m.toJson) : parse json (m.toCanonicalJson json) = .ok m := by
  unfold parse
  rw [hread]
  refine bind_eq_ok.mpr ⟨m, (catching_eq_ok fun _ => sfsErr_ne_ok).mpr (fromJson_toJson h), ?_⟩
  refine bind_eq_ok.mpr ⟨(), h.validate, ?_⟩
  rw [if_neg (not_not.mpr rfl)]

end Manifest

/-! ### Trees -/

/-- What `Tree::parse` asks of a tree; the version it asks for fits the type. -/
def Tree.Valid (t : Tree) : Prop := t.validate = .ok ()

namespace Tree

theorem fromJson_toJson {t : Tree} (h : t.formatVersion < 2 ^ 32) : fromJson t.toJson = .ok t := by
  unfold fromJson toJson
  refine bind_eq_ok.mpr ⟨_, Json.atKey_mkObj rfl, bind_eq_ok.mpr ⟨_, Json.getU32_uint h, ?_⟩⟩
  refine bind_eq_ok.mpr ⟨_, Json.atKey_mkObj rfl, bind_eq_ok.mpr ⟨t.entries, ?_, rfl⟩⟩
  refine mapM_map_eq_ok _ fun e _ => ?_
  refine bind_eq_ok.mpr ⟨_, Json.atKey_mkObj rfl, bind_eq_ok.mpr ⟨_, rfl, ?_⟩⟩
  exact bind_eq_ok.mpr ⟨_, Json.atKey_mkObj rfl, bind_eq_ok.mpr ⟨_, Commit.oidField_toString _, rfl⟩⟩

theorem parse_toCanonicalJson {json : JsonLib} {t : Tree} (h : t.Valid)
    (hread : json.parse (t.toCanonicalJson json) = .ok t.toJson) : parse json (t.toCanonicalJson json) = .ok t := by
  have hversion : t.formatVersion < 2 ^ 32 := by
    rw [(validate_sorted h).1]
    decide
  unfold parse
  rw [hread]
  refine bind_eq_ok.mpr ⟨t, (catching_eq_ok fun _ => sfsErr_ne_ok).mpr (fromJson_toJson hversion), ?_⟩
  refine bind_eq_ok.mpr ⟨(), h, ?_⟩
  rw [if_neg (not_not.mpr rfl)]

end Tree

/-- Of all three formats: a valid object is read back from its text, an accepted
text is the one its object has, and so objects are equal as their texts are. -/
theorem objects_canonical (json : JsonLib) :
    CanonicalFormat json Commit.Valid Commit.toJson (Commit.toCanonicalJson json) (Commit.parse json) ∧
    CanonicalFormat json Manifest.Valid Manifest.toJson (Manifest.toCanonicalJson json) (Manifest.parse json) ∧
    CanonicalFormat json Tree.Valid Tree.toJson (Tree.toCanonicalJson json) (Tree.parse json) := by
  refine ⟨.of_round_trips ?_ ?_, .of_round_trips ?_ ?_, .of_round_trips ?_ ?_⟩
  · exact fun c => Commit.parse_toCanonicalJson
  · exact fun bytes c h => (Commit.parse_canonical h).1
  · exact fun m => Manifest.parse_toCanonicalJson
  · exact fun bytes m h => (Manifest.parse_canonical h).2
  · exact fun t => Tree.parse_toCanonicalJson
  · exact fun bytes t h => (Tree.parse_canonical h).2

/-! One file. -/

def oneFileTree : Tree := { entries := [{ name := "a", manifest := .fill 1 }] }

def oneFileText : Bytes :=
  asciiOf ["\x7b\"entries\":[\x7b\"manifest\":\"b3:01010101010101010101010101010101",
    "01010101010101010101010101010101\",\"name\":\"a\"\x7d],\"format_version\":2\x7d"]

theorem oneFile_canonical : oneFileTree.Valid ∧
    Tree.parse (.sole oneFileTree.toJson oneFileText) oneFileText = .ok oneFileTree := by
  have hvalid : oneFileTree.Valid := by rfl
  exact ⟨hvalid, (objects_canonical _).2.2.parse_write oneFileTree hvalid (JsonLib.sole_parse _ _)⟩

end SynapseFs.Format
