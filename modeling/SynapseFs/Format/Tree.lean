import SynapseFs.Format.Commit

/-! The tree object of a sharded checkpoint: a manifest for each file name.

Names are strictly ascending, so one set of files has one serialisation, and
nothing here sorts: an unsorted tree serialises unsorted and is refused when it
is read back. -/
namespace SynapseFs.Format
open Lib Core

def kTreeFormatVersion : Nat := 2

structure TreeEntry where
  name : String
  manifest : Oid
  deriving DecidableEq, Repr

structure Tree where
  formatVersion : Nat := kTreeFormatVersion
  entries : List TreeEntry
  deriving DecidableEq, Repr

/-- A plain file name: no separator and no control character, in UTF-8 the same on bytes. -/
def isValidTreeEntryName (name : String) : Bool :=
  name ≠ "" && name ≠ "." && name ≠ ".." &&
    name.toList.all fun c => c ≠ '/' && c ≠ '\\' && 0x20 ≤ c.toNat && c.toNat ≠ 0x7f

namespace Tree

/-- The entry loop, with the name before, which sortedness and uniqueness are checked against. -/
def validateEntries : Option String → List TreeEntry → Outcome Unit
  | _, [] => .ok ()
  | before, e :: rest =>
    if isValidTreeEntryName e.name = false then sfsErr .malformedObject "invalid tree entry name" e.name
    else if e.manifest = zeroOid then sfsErr .malformedObject "tree entry addresses the null oid" e.name
    else
      match before with
      | none => validateEntries (some e.name) rest
      | some name =>
        if name < e.name then validateEntries (some e.name) rest
        else
          sfsErr .malformedObject
            (if name = e.name then "duplicate tree entry name" else "tree entries are not sorted by name") e.name

def validate (t : Tree) : Outcome Unit :=
  if t.formatVersion ≠ kTreeFormatVersion then
    sfsErr .unsupportedFormatVersion ("tree format_version must be " ++ toString kTreeFormatVersion)
      (toString t.formatVersion)
  else if t.entries = [] then sfsErr .malformedObject "tree has no entries" ""
  else validateEntries none t.entries

def entryToJson (e : TreeEntry) : Json := .mkObj [("name", .str e.name), ("manifest", .str e.manifest.toString)]

def toJson (t : Tree) : Json :=
  .mkObj [("format_version", .uint t.formatVersion), ("entries", .arr (t.entries.map entryToJson))]

def toCanonicalJson (json : JsonLib) (t : Tree) : Bytes := json.dump t.toJson

def oid (json : JsonLib) (blake3 : Bytes → Oid) (t : Tree) : Oid := computeOid blake3 .tree (t.toCanonicalJson json)

def entryFromJson (e : Json) : Outcome TreeEntry := do
  let name ← (← e.atKey "name").getStr
  let manifest ← Commit.oidField (← e.atKey "manifest")
  return { name, manifest }

def fromJson (j : Json) : Outcome Tree := do
  let formatVersion ← (← j.atKey "format_version").getU32
  match ← j.atKey "entries" with
  | .arr items => return { formatVersion, entries := ← items.mapM entryFromJson }
  | _ => sfsErr .malformedObject "tree entries is not an array" ""

def parse (json : JsonLib) (bytes : Bytes) : Outcome Tree :=
  match json.parse bytes with
  | .error what => sfsErr .malformedObject ("tree JSON parse failed: " ++ what) ""
  | .ok j => do
    let t ← catching (fromJson j) fun what => sfsErr .malformedObject ("tree field missing/malformed: " ++ what) ""
    t.validate
    if t.toCanonicalJson json ≠ bytes then
      sfsErr .canonicalizationMismatch "tree does not round-trip to identical bytes" ""
    else .ok t

/-- An accepted tree is valid and is the one its bytes serialise. -/
theorem parse_canonical {json : JsonLib} {bytes : Bytes} {t : Tree} (h : parse json bytes = .ok t) :
    t.validate = .ok () ∧ t.toCanonicalJson json = bytes := by
  unfold parse at h
  split at h
  · exact absurd h sfsErr_ne_ok
  · simp only [bind_eq_ok] at h
    obtain ⟨t', -, _, hv, h⟩ := h
    split at h
    · exact absurd h sfsErr_ne_ok
    · next hc =>
      cases h
      exact ⟨hv, not_not.mp hc⟩

/-- Entries that pass are in order, and none has a name that could leave the checkout. -/
theorem validateEntries_sorted {l : List TreeEntry} : ∀ {before : Option String}, validateEntries before l = .ok () →
    (∀ name ∈ before, ∀ e ∈ l, name < e.name) ∧ (l.map TreeEntry.name).Pairwise (· < ·) ∧
      ∀ e ∈ l, isValidTreeEntryName e.name = true ∧ e.manifest ≠ zeroOid := by
  induction l with
  | nil => exact fun _ => ⟨nofun, .nil, nofun⟩
  | cons e rest ih =>
    intro before h
    unfold validateEntries at h
    split at h
    · exact absurd h sfsErr_ne_ok
    · next hname =>
      split at h
      · exact absurd h sfsErr_ne_ok
      · next hnull =>
        have hself : isValidTreeEntryName e.name = true ∧ e.manifest ≠ zeroOid := ⟨by simpa using hname, hnull⟩
        -- Whatever came before, the rest follows this entry.
        have hrest : validateEntries (some e.name) rest = .ok () ∧ ∀ name ∈ before, name < e.name := by
          split at h
          · exact ⟨h, nofun⟩
          · split at h
            · next hlt => exact ⟨h, fun name hn => Option.some.inj hn ▸ hlt⟩
            · exact absurd h sfsErr_ne_ok
        obtain ⟨hafter, hsorted, hall⟩ := ih hrest.1
        refine ⟨fun name hn e' he' => ?_, ?_, List.forall_mem_cons.mpr ⟨hself, hall⟩⟩
        · rcases List.mem_cons.mp he' with rfl | he'
          · exact hrest.2 name hn
          · exact String.lt_trans (hrest.2 name hn) (hafter e.name rfl e' he')
        · refine List.pairwise_cons.mpr ⟨fun name hn => ?_, hsorted⟩
          obtain ⟨e', he', rfl⟩ := List.mem_map.mp hn
          exact hafter e.name rfl e' he'

/-- A valid tree lists files by ascending names that all stay inside one directory. -/
theorem validate_sorted {t : Tree} (h : t.validate = .ok ()) : t.formatVersion = kTreeFormatVersion ∧
    t.entries ≠ [] ∧ (t.entries.map TreeEntry.name).Pairwise (· < ·) ∧
      ∀ e ∈ t.entries, isValidTreeEntryName e.name = true ∧ e.manifest ≠ zeroOid := by
  unfold validate at h
  split at h
  · exact absurd h sfsErr_ne_ok
  · next hversion =>
    split at h
    · exact absurd h sfsErr_ne_ok
    · next hne => exact ⟨not_not.mp hversion, hne, (validateEntries_sorted h).2⟩

end Tree

end SynapseFs.Format
