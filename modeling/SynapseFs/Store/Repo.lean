import SynapseFs.Store.Gc
import SynapseFs.Store.Journal
import SynapseFs.Store.MergeLogic

/-! A repository under its commands.

A command reads, decides, and then makes durable writes one after another: object
files, the journal record, the ref. What it will write is a list computed from the
state it finds (`runCommit`, `runMerge`, `runBranch`, `runCheckout`; the commands
that write objects hold the exclusive lock), so a crash or an error between two
writes leaves the repository after a prefix of that list. `gc` and recovery are
steps of their own.

Objects are kept by value: an address holds what its file reads as. Writing at an
address that has a file leaves the file. -/
namespace SynapseFs.Store
open Lib Core Format

structure Repo where
  objects : ObjectMap
  refs : RefStore
  journal : Journal

/-! ### Writes -/

inductive Write where
  | object (oid : Oid) (obj : StoredObject)
  | refUpdate (refName : String) (expected : Option Oid) (desired : Oid)
  | journalBegin (rec : JournalRecord)
  | journalCommit (seq : Nat)
  | headSymbolic (refName : String)
  | headDetached (oid : Oid)

namespace Repo

def putObject (objects : ObjectMap) (oid : Oid) (obj : StoredObject) : ObjectMap :=
  if (objects.get? oid).isSome then objects else objects.insert oid obj

def write (r : Repo) : Write → Repo × Outcome Unit
  | .object oid obj => ({ r with objects := putObject r.objects oid obj }, .ok ())
  | .refUpdate refName expected desired =>
    let (refs, st) := r.refs.update refName expected desired
    ({ r with refs }, st)
  | .journalBegin rec => ({ r with journal := r.journal.begin rec }, .ok ())
  | .journalCommit seq => ({ r with journal := r.journal.commit seq }, .ok ())
  | .headSymbolic refName =>
    let (refs, st) := r.refs.setHeadSymbolic refName
    ({ r with refs }, st)
  | .headDetached oid =>
    let (refs, st) := r.refs.setHeadDetached oid
    ({ r with refs }, st)

/-- The first `k` writes; one that fails is the last. -/
def writes : Repo → Nat → List Write → Repo
  | r, 0, _ => r
  | r, _ + 1, [] => r
  | r, k + 1, w :: rest =>
    match r.write w with
    | (r, .ok ()) => r.writes k rest
    | (r, .error _) => r

def init (dot : Path) (hdot : ∀ c ∈ dot, PlainName c) : Repo where
  objects := .empty
  refs :=
    { tree := FileTree.ofLists [dot ++ ["refs", "heads"]] [(dot ++ ["HEAD"], "ref: refs/heads/main\n")]
        (by simp) (by simp) (by simp)
      dot := dot
      dot_plain := hdot }
  journal := .empty

end Repo

/-! ### Objects that are put -/

def Extends (a b : ObjectMap) : Prop := ∀ o obj, a.get? o = some obj → b.get? o = some obj

theorem Extends.trans {a b c : ObjectMap} (hab : Extends a b) (hbc : Extends b c) : Extends a c :=
  fun o obj h => hbc o obj (hab o obj h)

theorem readCommit_iff {objects : ObjectMap} {o : Oid} {c : Commit} :
    objects.commits.read o = .ok c ↔ ∃ obj, objects.get? o = some obj ∧ obj.asCommit = .ok c :=
  ObjectMap.readAs_eq_ok

theorem readManifest_of_get {objects : ObjectMap} {o : Oid} {m : Manifest}
    (h : objects.get? o = some (manifestObject m)) : objects.manifests.read o = .ok m :=
  ObjectMap.readAs_eq_ok.mpr ⟨_, h, rfl⟩

theorem putObject_extends (objects : ObjectMap) (oid : Oid) (obj : StoredObject) :
    Extends objects (Repo.putObject objects oid obj) := by
  intro o a ha
  unfold Repo.putObject
  split
  · exact ha
  · next hn =>
    rw [FinMap.get?_insert_ne _ _ ?_, ha]
    rintro rfl
    exact hn (by rw [ha]; rfl)

theorem putObject_cases {objects : ObjectMap} {oid o : Oid} {obj a : StoredObject}
    (h : (Repo.putObject objects oid obj).get? o = some a) : objects.get? o = some a ∨ (o = oid ∧ a = obj) := by
  unfold Repo.putObject at h
  split at h
  · exact .inl h
  · rw [FinMap.get?_insert] at h
    split at h
    · next he =>
      cases h
      exact .inr ⟨he, rfl⟩
    · exact .inl h

/-- Without a collision an object is there once it has been put. -/
theorem putObject_self {objects : ObjectMap} {oid : Oid} {obj : StoredObject}
    (h : ∀ old, objects.get? oid = some old → old = obj) : (Repo.putObject objects oid obj).get? oid = some obj := by
  unfold Repo.putObject
  split
  · next hs =>
    obtain ⟨old, hold⟩ := Option.isSome_iff_exists.mp hs
    rw [hold, h old hold]
  · exact FinMap.get?_insert_self _ _ _

/-! ### Commands -/

variable (json : JsonLib) (blake3 : Bytes → Oid)

/-- What `sfs commit` has read, matched and encoded when it writes: the file's
header and layout, and the blocks that its groups are stored in. -/
structure CommitInput where
  header : Bytes
  fileName : String
  totalBytes : Nat
  sha256 : String
  buffer : List Format.BufferEntry
  /-- Raw and diff blocks, in the order they are put. -/
  blocks : List (ObjectKind × Bytes)
  groups : FinMap String GroupEntry
  /-- A group names blocks that were put for it. -/
  stored : ∀ name g, (name, g) ∈ groups.entries → ∀ o ∈ groupObjects g, ∃ b ∈ blocks, computeOid blake3 b.1 b.2 = o
  /-- The bytes of config.json; none when there is no such file. -/
  topology : Bytes
  noAlign : Bool
  timestamp : String
  author : String
  message : String

namespace CommitInput
variable {blake3} (i : CommitInput blake3)

def manifest : Manifest where
  formatVersion := 1
  hashAlgo := "blake3"
  file :=
    { name := i.fileName, headerBlock := computeOid blake3 .header i.header, totalBytes := i.totalBytes
      sha256 := i.sha256 }
  buffer := i.buffer
  groups := i.groups

/-- `store_topology`: two bytes of JSON stand for no config. -/
def topologyBytes : Bytes := if i.topology = [] then [123, 125] else i.topology

def commit (parent : Option Oid) : Commit where
  formatVersion := 1
  parents := parent.toList
  manifest := i.manifest.oid json blake3
  topology := computeOid blake3 .topology i.topologyBytes
  timestamp := i.timestamp
  author := i.author
  message := if i.message = "" then "(no message)" else i.message

theorem commit_parents (parent : Option Oid) : (i.commit json parent).parents.length ≤ 2 := by
  cases parent <;> simp [commit]

/-- The header and the blocks. -/
def blobWrites : List Write :=
  ((ObjectKind.header, i.header) :: i.blocks).map fun b => .object (computeOid blake3 b.1 b.2) blobObject

/-- What follows when the manifest is valid; `commit_and_advance` is last. -/
def advanceWrites (refName : String) (parent : Option Oid) : List Write :=
  [.object (i.manifest.oid json blake3) (manifestObject i.manifest),
   .object (computeOid blake3 .topology i.topologyBytes) blobObject,
   .object ((i.commit json parent).oid json blake3) (commitObject (i.commit json parent) (i.commit_parents json parent)),
   .refUpdate refName parent ((i.commit json parent).oid json blake3)]

end CommitInput

/-- The branch tip; none when the branch has no commits yet. -/
def parentOf (r : Repo) (refName : String) : Outcome (Option Oid) :=
  match r.refs.resolve r.objects.keys refName with
  | .ok tip => .ok (some tip)
  | .error (.error e) => if e.kind = .refNotFound then .ok none else .error (.error e)
  | .error other => .error other

/-- Alignment reads the parent's commit and manifest. -/
def readsParent (r : Repo) (noAlign : Bool) (parent : Option Oid) : Outcome Unit :=
  match parent with
  | none => .ok ()
  | some tip =>
    if noAlign then .ok ()
    else do
      let c ← r.objects.commits.read tip
      let _ ← r.objects.manifests.read c.manifest
      return ()

def runCommit (r : Repo) (i : CommitInput blake3) : Outcome (List Write) := do
  match ← r.refs.readHead with
  | .detached _ => return []
  | .symbolic refName =>
    let parent ← parentOf r refName
    match readsParent r i.noAlign parent with
    | .error _ => return i.blobWrites.take 1
    | .ok () =>
      match i.manifest.validate with
      | .error _ => return i.blobWrites
      | .ok () => return i.blobWrites ++ i.advanceWrites json refName parent

structure MergeInput where
  branch : String
  takeOurs : Bool
  takeTheirs : Bool
  timestamp : String
  author : String
  message : String

namespace MergeInput

def strategy (i : MergeInput) : MergeStrategy :=
  if i.takeTheirs then .theirs else if i.takeOurs then .ours else .refuse

def commit (i : MergeInput) (refName : String) (ours theirs : Oid) (ourCommit : Commit) (merged : Manifest) : Commit where
  formatVersion := 1
  parents := [ours, theirs]
  manifest := merged.oid json blake3
  topology := ourCommit.topology
  timestamp := i.timestamp
  author := i.author
  message := if i.message = "" then "Merge " ++ i.branch ++ " into " ++ refName else i.message

/-- The objects first, then the journal record, the ref, and the record's removal. -/
def mergeWrites (i : MergeInput) (refName : String) (ours theirs : Oid) (ourCommit : Commit) (merged : Manifest) :
    List Write :=
  let mergeCommit := i.commit json blake3 refName ours theirs ourCommit merged
  let mergeOid := mergeCommit.oid json blake3
  [.object (merged.oid json blake3) (manifestObject merged),
   .object mergeOid (commitObject mergeCommit (by simp [mergeCommit, commit])),
   .journalBegin
    { op := .merge, timestamp := i.timestamp, refName := refName, refOld := some ours, refNew := some mergeOid },
   .refUpdate refName (some ours) mergeOid,
   .journalCommit 0]

end MergeInput

def runMerge (r : Repo) (i : MergeInput) : Outcome (List Write) :=
  if i.takeOurs && i.takeTheirs then .ok []
  else do
    match ← r.refs.readHead with
    | .detached _ => return []
    | .symbolic refName =>
      let ours ← r.refs.resolve r.objects.keys refName
      let theirs ← r.refs.revParse r.objects.keys i.branch
      let plan ← planMerge r.objects.commits r.objects.manifests ours theirs i.strategy
      if plan.conflicts ≠ [] then return []
      else if plan.fastForward then
        match plan.newCommit with
        | none => return []
        | some new => return if new = ours then [] else [.refUpdate refName (some ours) new]
      else
        match plan.merged with
        | none => return []
        | some merged =>
          let ourCommit ← r.objects.commits.read ours
          return i.mergeWrites json blake3 refName ours theirs ourCommit merged

/-- Where `sfs branch` starts: HEAD when no start point is given. -/
def branchStart (r : Repo) (startPoint : String) : Outcome Oid :=
  if startPoint = "" then do
    match ← r.refs.readHead with
    | .detached oid => return oid
    | .symbolic refName => r.refs.resolve r.objects.keys refName
  else r.refs.revParse r.objects.keys startPoint

def runBranch (r : Repo) (name startPoint : String) : Outcome (List Write) := do
  let start ← branchStart r startPoint
  return [.refUpdate name none start]

/-- Only the part of `sfs checkout` that moves HEAD. -/
def runCheckout (r : Repo) (revision : String) : Outcome (List Write) :=
  if r.refs.listHeads.any fun h => h.name = "refs/heads/" ++ revision ∨ h.name = revision then do
    let _ ← r.refs.resolve r.objects.keys ("refs/heads/" ++ revision)
    return [.headSymbolic ("refs/heads/" ++ revision)]
  else do
    let target ← r.refs.revParse r.objects.keys revision
    return [.headDetached target]

/-! ### Runs -/

inductive Action where
  | commit (i : CommitInput blake3)
  | merge (i : MergeInput)
  | branch (name startPoint : String)
  | checkout (revision : String)
  | gc (env : GcEnv) (size : StoredObject → Nat) (opts : GcOptions)
  | recover

variable {blake3}

/-- The writes of a command; none when it is refused or fails before the first. -/
def Action.writes (r : Repo) : Action blake3 → List Write
  | .commit i => (runCommit json blake3 r i).toOption.getD []
  | .merge i => (runMerge json blake3 r i).toOption.getD []
  | .branch name startPoint => (runBranch r name startPoint).toOption.getD []
  | .checkout revision => (runCheckout r revision).toOption.getD []
  | .gc .. | .recover => []

/-- `k` is where a crash cuts the writes of a command short. -/
def Repo.step (r : Repo) (a : Action blake3) (k : Nat) : Repo :=
  match a with
  | .gc env size opts =>
    match SynapseFs.Store.gc env r.objects.commits r.objects.manifests r.refs size r.objects opts with
    | .ok (_, objects) => { r with objects }
    | .error _ => r
  | .recover =>
    let ((journal, refs), _) := r.journal.recover r.objects.keys r.refs
    { r with journal, refs }
  | a => r.writes k (a.writes json r)

end SynapseFs.Store
