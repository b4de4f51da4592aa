import SynapseFs.Store.CommitPlanner
import SynapseFs.Store.Repo
import SynapseFs.Store.Verify

/-! Histories: the commits and manifests that planning and merging leave behind.

A history grows from the empty store. A commit takes what `planCommitGroups`
returns for it, with the parent's depths read from the parent's manifest; a merge
takes what `planMerge` returns for two stored commits. Nothing else is known of
the checkpoints, the topologies, the reports or the options. -/
namespace SynapseFs.Store
open Lib Core Format Align SynapseFs.Codec

/-- What `sfs commit` hands the planner about the parent. -/
def parentInfo (objects : ObjectMap) : Option Oid → Outcome (FinMap String ParentTensorInfo)
  | none => .ok .empty
  | some parent => do
    let m ← manifestFor objects.commits objects.manifests parent
    return m.groups.mapKV fun _ g => ⟨parent, g.chainDepth⟩

/-- A manifest and the commit that names it. -/
structure Recorded where
  manifest : Manifest
  commit : Commit
  parents_le : commit.parents.length ≤ 2

section
variable (libs : Libs)

def Recorded.oid (r : Recorded) : Oid := r.commit.oid libs.json libs.blake3

/-- The manifest goes in before the commit. -/
def record (objects : ObjectMap) (r : Recorded) : ObjectMap :=
  Repo.putObject (Repo.putObject objects (r.manifest.oid libs.json libs.blake3) (manifestObject r.manifest))
    (r.oid libs) (commitObject r.commit r.parents_le)

/-- Neither address is taken by another object, and they differ. -/
structure Clear (objects : ObjectMap) (r : Recorded) : Prop where
  manifest : ∀ old, objects.get? (r.manifest.oid libs.json libs.blake3) = some old → old = manifestObject r.manifest
  commit : ∀ old, objects.get? (r.oid libs) = some old → old = commitObject r.commit r.parents_le
  apart : r.oid libs ≠ r.manifest.oid libs.json libs.blake3

/-- Every store of commits that planning and merging can lead to. -/
inductive Built (cfg : RepoConfig) : ObjectMap → Prop where
  | empty : Built cfg .empty
  | commit {objects : ObjectMap} (h : Built cfg objects) {parent : Option Oid} {info : FinMap String ParentTensorInfo}
      (hinfo : parentInfo objects parent = .ok info) {base target : TensorSource} {topo : Topology}
      {report : MatchReport} {opts : EncodeOptions} {o : PlanOutput}
      (hplan : planCommitGroups libs base target topo report info cfg opts = .ok o) {r : Recorded}
      (hgroups : r.manifest.groups = o.entries) (hparents : r.commit.parents = parent.toList)
      (hmanifest : r.commit.manifest = r.manifest.oid libs.json libs.blake3) (hclear : Clear libs objects r) :
      Built cfg (record libs objects r)
  | merge {objects : ObjectMap} (h : Built cfg objects) {ours theirs : Oid} {strategy : MergeStrategy}
      {result : MergeResult} (hplan : planMerge objects.commits objects.manifests ours theirs strategy = .ok result)
      {r : Recorded} (hmerged : result.merged = some r.manifest) (hparents : r.commit.parents = [ours, theirs])
      (hmanifest : r.commit.manifest = r.manifest.oid libs.json libs.blake3) (hclear : Clear libs objects r) :
      Built cfg (record libs objects r)

end

/-! ### Stores that grow -/

section
variable {libs : Libs} {a b : ObjectMap}

theorem Extends.commit (hx : Extends a b) {o : Oid} {c : Commit} (h : a.commits.read o = .ok c) :
    b.commits.read o = .ok c := by
  obtain ⟨obj, hobj, hc⟩ := readCommit_iff.mp h
  exact readCommit_iff.mpr ⟨obj, hx o obj hobj, hc⟩

theorem Extends.manifest (hx : Extends a b) {o : Oid} {m : Manifest} (h : a.manifests.read o = .ok m) :
    b.manifests.read o = .ok m := by
  obtain ⟨obj, hobj, hm⟩ := ObjectMap.readAs_eq_ok.mp h
  exact ObjectMap.readAs_eq_ok.mpr ⟨obj, hx o obj hobj, hm⟩

theorem Extends.manifestFor (hx : Extends a b) {o : Oid} {m : Manifest}
    (h : manifestFor a.commits a.manifests o = .ok m) : Store.manifestFor b.commits b.manifests o = .ok m := by
  obtain ⟨c, hc, hm⟩ := bind_eq_ok.mp h
  exact bind_eq_ok.mpr ⟨c, hx.commit hc, hx.manifest hm⟩

theorem record_extends (objects : ObjectMap) (r : Recorded) : Extends objects (record libs objects r) :=
  Extends.trans (putObject_extends _ _ _) (putObject_extends _ _ _)

/-- Once recorded, the commit and its manifest read. -/
theorem record_reads {objects : ObjectMap} {r : Recorded} (hc : Clear libs objects r)
    (hm : r.commit.manifest = r.manifest.oid libs.json libs.blake3) :
    (record libs objects r).commits.read (r.oid libs) = .ok r.commit ∧
      manifestFor (record libs objects r).commits (record libs objects r).manifests (r.oid libs) = .ok r.manifest := by
  have hmanifest := putObject_self hc.manifest
  have hcommit : (record libs objects r).get? (r.oid libs) = some (commitObject r.commit r.parents_le) := by
    refine putObject_self fun old hold => ?_
    rcases putObject_cases hold with hold | ⟨ho, -⟩
    · exact hc.commit old hold
    · exact absurd ho hc.apart
  have hread : (record libs objects r).commits.read (r.oid libs) = .ok r.commit :=
    readCommit_iff.mpr ⟨_, hcommit, rfl⟩
  refine ⟨hread, bind_eq_ok.mpr ⟨r.commit, hread, ?_⟩⟩
  rw [hm]
  exact readManifest_of_get (putObject_extends _ _ _ _ _ hmanifest)

/-- A commit that reads was there before, or is the one that was recorded. -/
theorem record_cases {objects : ObjectMap} {r : Recorded} {o : Oid} {c : Commit}
    (h : (record libs objects r).commits.read o = .ok c) :
    objects.commits.read o = .ok c ∨ (o = r.oid libs ∧ c = r.commit) := by
  obtain ⟨obj, hobj, hc⟩ := readCommit_iff.mp h
  rcases putObject_cases hobj with hobj | ⟨rfl, rfl⟩
  · rcases putObject_cases hobj with hobj | ⟨-, rfl⟩
    · exact .inl (readCommit_iff.mpr ⟨obj, hobj, hc⟩)
    · cases hc
  · cases hc
    exact .inr ⟨rfl, rfl⟩

end

end SynapseFs.Store
