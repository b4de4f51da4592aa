import SynapseFs.Core.Oid
import SynapseFs.Format.Json

/-! The commit object. Its canonical JSON is what the address is taken of, so a
parsed commit must serialise back to the bytes it was parsed from. -/
namespace SynapseFs.Format
open Lib Core

structure Commit where
  formatVersion : Nat
  /-- None for a root, one for a commit, two for a merge. -/
  parents : List Oid
  manifest : Oid
  topology : Oid
  timestamp : String
  author : String
  message : String
  deriving DecidableEq, Repr

/-- `\d{4}-\d{2}-\d{2}T\d{2}:\d{2}:\d{2}Z`. -/
def isValidTimestamp (s : String) : Bool :=
  let shape := "dddd-dd-ddTdd:dd:ddZ".toList
  s.toList.length == shape.length &&
    (s.toList.zip shape).all fun (c, p) => if p = 'd' then c.isDigit else c == p

namespace Commit

def toJson (c : Commit) : Json :=
  .mkObj
    [("format_version", .uint c.formatVersion),
     ("parents", .arr (c.parents.map fun p => .str p.toString)),
     ("manifest", .str c.manifest.toString),
     ("topology", .str c.topology.toString),
     ("timestamp", .str c.timestamp),
     ("author", .str c.author),
     ("message", .str c.message)]

def toCanonicalJson (json : JsonLib) (c : Commit) : Bytes := json.dump c.toJson

def oid (json : JsonLib) (blake3 : Bytes → Oid) (c : Commit) : Oid :=
  computeOid blake3 .commit (c.toCanonicalJson json)

/-- A field that holds an oid in text form. -/
def oidField (j : Json) : Outcome Oid := do
  let s ← j.getStr
  Oid.parse s

def fromJson (j : Json) : Outcome Commit := do
  let formatVersion ← (← j.atKey "format_version").getU32
  let parents ← (← j.atKey "parents").items.mapM oidField
  if 2 < parents.length then sfsErr .malformedObject "commit has more than 2 parents" ""
  else do
    let manifest ← oidField (← j.atKey "manifest")
    let topology ← oidField (← j.atKey "topology")
    let timestamp ← (← j.atKey "timestamp").getStr
    let author ← j.valueOr "author" Json.getStr ""
    let message ← j.valueOr "message" Json.getStr ""
    return { formatVersion, parents, manifest, topology, timestamp, author, message }

def parse (json : JsonLib) (bytes : Bytes) : Outcome Commit :=
  match json.parse bytes with
  | .error what => sfsErr .malformedObject ("commit JSON parse failed: " ++ what) ""
  | .ok j => do
    let c ← catching (fromJson j) fun what =>
      sfsErr .malformedObject ("commit field missing/malformed: " ++ what) ""
    if isValidTimestamp c.timestamp = false then
      sfsErr .malformedObject "commit timestamp is not RFC 3339 UTC" c.timestamp
    else if c.toCanonicalJson json ≠ bytes then
      sfsErr .canonicalizationMismatch "commit does not round-trip to identical bytes" ""
    else .ok c

/-- An accepted commit is the one its bytes serialise, with a well-formed timestamp. -/
theorem parse_canonical {json : JsonLib} {bytes : Bytes} {c : Commit} (h : parse json bytes = .ok c) :
    c.toCanonicalJson json = bytes ∧ isValidTimestamp c.timestamp = true := by
  unfold parse at h
  split at h
  · exact absurd h sfsErr_ne_ok
  · rw [bind_eq_ok] at h
    obtain ⟨c', -, h⟩ := h
    split at h
    · exact absurd h sfsErr_ne_ok
    · next ht =>
      split at h
      · exact absurd h sfsErr_ne_ok
      · next hc =>
        cases h
        exact ⟨not_not.mp hc, by simpa using ht⟩

theorem fromJson_parents {j : Json} {c : Commit} (h : fromJson j = .ok c) : c.parents.length ≤ 2 := by
  unfold fromJson at h
  simp only [bind_eq_ok] at h
  obtain ⟨_, -, _, -, _, -, parents, -, h⟩ := h
  split at h
  · exact absurd h sfsErr_ne_ok
  · next hle =>
    simp only [bind_eq_ok] at h
    obtain ⟨_, -, _, -, _, -, _, -, _, -, _, -, _, -, _, -, h⟩ := h
    cases h
    exact Nat.le_of_not_lt hle

theorem parse_parents {json : JsonLib} {bytes : Bytes} {c : Commit} (h : parse json bytes = .ok c) :
    c.parents.length ≤ 2 := by
  unfold parse at h
  split at h
  · exact absurd h sfsErr_ne_ok
  · obtain ⟨c', hj, h⟩ := bind_eq_ok.mp h
    rw [catching_eq_ok fun _ => sfsErr_ne_ok] at hj
    split at h
    · exact absurd h sfsErr_ne_ok
    · split at h
      · exact absurd h sfsErr_ne_ok
      · cases h
        exact fromJson_parents hj

theorem oidField_fuel (j : Json) : oidField j ≠ .error .outOfFuel :=
  bind_fuel j.getStr_fuel fun _ _ => Oid.parse_fuel _

theorem parse_fuel (json : JsonLib) (bytes : Bytes) : parse json bytes ≠ .error .outOfFuel := by
  have hfield : ∀ {α β : Type} (j : Json) (key : String) (get : Json → Outcome α) (f : α → Outcome β),
      (∀ v, get v ≠ .error .outOfFuel) → (∀ a, f a ≠ .error .outOfFuel) →
      (j.atKey key >>= fun v => get v >>= f) ≠ .error .outOfFuel := fun j key get f hg hf =>
    bind_fuel (j.atKey_fuel key) fun v _ => bind_fuel (hg v) fun a _ => hf a
  have hjson : ∀ j, fromJson j ≠ .error .outOfFuel := by
    intro j
    refine hfield _ _ _ _ Json.getU32_fuel fun _ => hfield _ _ _ _ (fun v => mapM_fuel oidField_fuel _) fun _ => ?_
    split
    · exact nofun
    · refine hfield _ _ _ _ oidField_fuel fun _ => hfield _ _ _ _ oidField_fuel fun _ =>
        hfield _ _ _ _ Json.getStr_fuel fun _ => ?_
      exact bind_fuel (Json.valueOr_fuel _ _ _ Json.getStr_fuel) fun _ _ =>
        bind_fuel (Json.valueOr_fuel _ _ _ Json.getStr_fuel) fun _ _ => nofun
  unfold parse
  split
  · exact nofun
  · refine bind_fuel (catching_fuel (hjson _) fun _ => nofun) fun c _ => ?_
    split
    · exact nofun
    · split <;> exact nofun

end Commit

end SynapseFs.Format
