import SynapseFs.Store.Dag
import SynapseFs.Store.Loose

/-! Commits and manifests as a store of objects holds them.

`CommitStore::read` and `ManifestStore::read` fetch, parse and re-hash; their
caches only remember what a read returned, so they are left out. What the rest
of a repository's logic can observe of an object file is how it reads as a commit
and as a manifest (`StoredObject`); a directory of files is seen that way through
`LooseStore.stored`. -/
namespace SynapseFs.Store
open Lib Core Format

variable (json : JsonLib) (blake3 : Bytes → Oid)

def LooseStore.readCommit (s : LooseStore) (oid : Oid) : Outcome Commit := do
  let bytes ← s.get blake3 oid .commit
  let c ← Commit.parse json bytes
  if c.oid json blake3 ≠ oid then
    sfsErr .hashMismatch "commit does not hash to its own address" oid.toString
  else return c

def LooseStore.readManifest (s : LooseStore) (oid : Oid) : Outcome Manifest := do
  let bytes ← s.get blake3 oid .manifest
  let m ← Manifest.parse json bytes
  if m.oid json blake3 ≠ oid then
    sfsErr .hashMismatch "manifest does not hash to its own address" oid.toString
  else return m

namespace LooseStore

theorem get_fuel (s : LooseStore) (oid : Oid) (kind : ObjectKind) : s.get blake3 oid kind ≠ .error .outOfFuel := by
  refine bind_fuel ?_ fun file _ => bind_fuel ?_ fun hdr _ => bind_fuel ?_ fun _ _ => ?_
  · unfold openFile
    split <;> exact nofun
  · unfold ObjectHeader.decode
    split
    · exact nofun
    · split <;> exact nofun
  · unfold checkHeader
    split
    · exact nofun
    · split <;> exact nofun
  · unfold checkPayload
    split
    · exact nofun
    · split
      · exact nofun
      · dsimp only
        split <;> exact nofun

variable {json blake3}

/-- A commit that reads is an object of kind commit that parses. -/
theorem readCommit_eq_ok {s : LooseStore} {oid : Oid} {c : Commit} (h : s.readCommit json blake3 oid = .ok c) :
    ∃ bytes, s.get blake3 oid .commit = .ok bytes ∧ Commit.parse json bytes = .ok c := by
  unfold readCommit at h
  simp only [bind_eq_ok] at h
  obtain ⟨bytes, hget, c', hparse, h⟩ := h
  split at h
  · exact absurd h sfsErr_ne_ok
  · cases h
    exact ⟨bytes, hget, hparse⟩

theorem readManifest_eq_ok {s : LooseStore} {oid : Oid} {m : Manifest}
    (h : s.readManifest json blake3 oid = .ok m) :
    ∃ bytes, s.get blake3 oid .manifest = .ok bytes ∧ Manifest.parse json bytes = .ok m := by
  unfold readManifest at h
  simp only [bind_eq_ok] at h
  obtain ⟨bytes, hget, m', hparse, h⟩ := h
  split at h
  · exact absurd h sfsErr_ne_ok
  · cases h
    exact ⟨bytes, hget, hparse⟩

theorem mem_listAll_of_get {s : LooseStore} {oid : Oid} {kind : ObjectKind} {payload : Bytes}
    (h : s.get blake3 oid kind = .ok payload) : oid ∈ s.listAll := by
  obtain ⟨file, hdr, hfile, -⟩ := get_eq_ok.mp h
  exact FinMap.mem_keys.mpr ⟨file, hfile⟩

variable (json blake3)

def commits (s : LooseStore) : CommitStore where
  read := s.readCommit json blake3
  oids := s.listAll
  covers := by
    intro o c h
    obtain ⟨bytes, hget, -⟩ := readCommit_eq_ok h
    exact mem_listAll_of_get hget
  parents_le := by
    intro o c h
    obtain ⟨bytes, -, hparse⟩ := readCommit_eq_ok h
    exact Commit.parse_parents hparse
  total := by
    intro o
    refine bind_fuel (get_fuel blake3 s o _) fun bytes _ => bind_fuel (Commit.parse_fuel json bytes) fun c _ => ?_
    split <;> exact nofun

def manifests (s : LooseStore) : ManifestStore where
  read := s.readManifest json blake3
  total := by
    intro o
    refine bind_fuel (get_fuel blake3 s o _) fun bytes _ => bind_fuel (Manifest.parse_fuel json bytes) fun m _ => ?_
    split <;> exact nofun

end LooseStore

/-! ### Stores by value -/

/-- How one object file reads. -/
structure StoredObject where
  asCommit : Outcome Commit
  asManifest : Outcome Manifest
  parents_le : ∀ c, asCommit = .ok c → c.parents.length ≤ 2
  commit_total : asCommit ≠ .error .outOfFuel
  manifest_total : asManifest ≠ .error .outOfFuel

abbrev ObjectMap := FinMap Oid StoredObject

namespace ObjectMap

def readAs {α : Type} (objects : ObjectMap) (view : StoredObject → Outcome α) (oid : Oid) : Outcome α :=
  match objects.get? oid with
  | some obj => view obj
  | none => sfsErr .objectNotFound "object not found" oid.toString

theorem readAs_eq_ok {α : Type} {objects : ObjectMap} {view : StoredObject → Outcome α} {oid : Oid} {a : α} :
    objects.readAs view oid = .ok a ↔ ∃ obj, objects.get? oid = some obj ∧ view obj = .ok a := by
  unfold readAs
  cases objects.get? oid with
  | none =>
    constructor
    · exact fun h => absurd h sfsErr_ne_ok
    · rintro ⟨_, h, _⟩
      cases h
  | some obj => simp

theorem readAs_fuel {α : Type} (objects : ObjectMap) (view : StoredObject → Outcome α) (oid : Oid)
    (hv : ∀ obj, view obj ≠ .error .outOfFuel) : objects.readAs view oid ≠ .error .outOfFuel := by
  unfold readAs
  split
  · exact hv _
  · exact nofun

def commits (objects : ObjectMap) : CommitStore where
  read := objects.readAs StoredObject.asCommit
  oids := objects.keys
  covers := by
    intro o c h
    obtain ⟨obj, hobj, -⟩ := readAs_eq_ok.mp h
    exact FinMap.mem_keys.mpr ⟨obj, hobj⟩
  parents_le := by
    intro o c h
    obtain ⟨obj, -, hc⟩ := readAs_eq_ok.mp h
    exact obj.parents_le c hc
  total := fun o => readAs_fuel objects _ o StoredObject.commit_total

def manifests (objects : ObjectMap) : ManifestStore where
  read := objects.readAs StoredObject.asManifest
  total := fun o => readAs_fuel objects _ o StoredObject.manifest_total

end ObjectMap

/-- The files of a loose store, each as it reads. -/
def LooseStore.stored (s : LooseStore) : ObjectMap :=
  s.files.mapKV fun oid _ =>
    { asCommit := s.readCommit json blake3 oid
      asManifest := s.readManifest json blake3 oid
      parents_le := (s.commits json blake3).parents_le oid
      commit_total := (s.commits json blake3).total oid
      manifest_total := (s.manifests json blake3).total oid }

theorem LooseStore.readCommit_missing {s : LooseStore} {oid : Oid} (h : s.files.get? oid = none) :
    s.readCommit json blake3 oid = sfsErr .objectNotFound "object not found" oid.toString := by
  unfold readCommit LooseStore.get openFile
  rw [h]
  rfl

theorem LooseStore.readManifest_missing {s : LooseStore} {oid : Oid} (h : s.files.get? oid = none) :
    s.readManifest json blake3 oid = sfsErr .objectNotFound "object not found" oid.toString := by
  unfold readManifest LooseStore.get openFile
  rw [h]
  rfl

/-- Seen by value, a loose store reads the same commits and manifests. -/
theorem LooseStore.stored_reads (s : LooseStore) (oid : Oid) :
    (s.stored json blake3).commits.read oid = s.readCommit json blake3 oid ∧
      (s.stored json blake3).manifests.read oid = s.readManifest json blake3 oid := by
  have hget := FinMap.get?_mapKV s.files (fun oid _ => StoredObject.mk (s.readCommit json blake3 oid)
    (s.readManifest json blake3 oid) ((s.commits json blake3).parents_le oid) ((s.commits json blake3).total oid)
    ((s.manifests json blake3).total oid)) oid
  unfold ObjectMap.commits ObjectMap.manifests ObjectMap.readAs stored
  cases hf : s.files.get? oid with
  | some file =>
    rw [hf] at hget
    simp only [hget, Option.map_some, and_self]
  | none =>
    rw [hf] at hget
    simp only [hget, Option.map_none, readCommit_missing json blake3 hf, readManifest_missing json blake3 hf, and_self]

end SynapseFs.Store
