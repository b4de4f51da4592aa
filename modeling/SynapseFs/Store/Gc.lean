import SynapseFs.Store.Objects
import SynapseFs.Store.Refs

/-! Garbage collection: remove what no ref reaches.

The tips are the branches that `listHeads` finds and a detached HEAD. Names
resolve through more than that (`RefStore.Through`): what a name reaches is kept
when the file its oid was read from is one of the files the tips are read from. -/
namespace SynapseFs.Store
open Lib Core Format

structure GcOptions where
  prune : Bool
  dryRun : Bool

structure GcReport where
  objectsScanned : Nat
  objectsPruned : Nat
  bytesReclaimed : Nat
  tempFilesRemoved : Nat
  deriving DecidableEq, Repr

/-- What gc finds outside the refs and the objects. -/
structure GcEnv where
  /-- `RepoLock::acquire`. -/
  lock : Outcome Unit
  mountAttached : Outcome Bool
  /-- The sizes of the files left in `tmp/` and `incoming/`. -/
  tempSizes : List Nat

def gcTips (refs : RefStore) : List Oid :=
  refs.listHeads.map Ref.target ++
    match refs.readHead with
    | .ok (.detached oid) => [oid]
    | _ => []

variable {ν : Type}

/-- `objects` are the object files; `size` is the size of one. -/
def gc (env : GcEnv) (cs : CommitStore) (ms : ManifestStore) (refs : RefStore) (size : ν → Nat)
    (objects : FinMap Oid ν) (opts : GcOptions) : Outcome (GcReport × FinMap Oid ν) := do
  env.lock
  if ← env.mountAttached then
    sfsErr .repositoryLocked "a mount daemon is attached; unmount before running gc" ""
  else
    let report : GcReport :=
      { objectsScanned := 0, objectsPruned := 0, bytesReclaimed := env.tempSizes.sum
        tempFilesRemoved := env.tempSizes.length }
    if opts.prune = false ∨ gcTips refs = [] then return (report, objects)
    else
      let live ← reachableObjects cs ms (gcTips refs)
      let dead := objects.entries.filter fun e => e.1 ∉ live
      let report :=
        { report with
          objectsScanned := objects.entries.length
          objectsPruned := dead.length
          bytesReclaimed := report.bytesReclaimed + (dead.map fun e => size e.2).sum }
      return (report, if opts.dryRun then objects else objects.filterKeys fun o => o ∈ live)

theorem Reachable.mono {cs : CommitStore} {tips tips' : List Oid} {o : Oid} (h : Reachable cs tips o)
    (hsub : ∀ t ∈ tips, t ∈ tips') : Reachable cs tips' o := by
  obtain ⟨tip, ht, ha⟩ := h
  exact ⟨tip, hsub tip ht, ha⟩

theorem Referenced.mono {cs : CommitStore} {ms : ManifestStore} {tips tips' : List Oid} {kind : ObjectKind} {o : Oid}
    (h : Referenced cs ms tips kind o) (hsub : ∀ t ∈ tips, t ∈ tips') : Referenced cs ms tips' kind o := by
  cases h with
  | commit h => exact .commit (h.mono hsub)
  | manifest h hc => exact .manifest (h.mono hsub) hc
  | topology h hc => exact .topology (h.mono hsub) hc
  | header h hc hm => exact .header (h.mono hsub) hc hm
  | raw h hc hm hg hb => exact .raw (h.mono hsub) hc hm hg hb
  | diff h hc hm hg hd => exact .diff (h.mono hsub) hc hm hg hd

/-- Either nothing is removed, or exactly what the tips do not reference. -/
theorem gc_objects {env : GcEnv} {cs : CommitStore} {ms : ManifestStore} {refs : RefStore} {size : ν → Nat}
    {objects objects' : FinMap Oid ν} {opts : GcOptions} {report : GcReport}
    (h : gc env cs ms refs size objects opts = .ok (report, objects')) :
    objects' = objects ∨ ∃ live, opts.prune = true ∧ opts.dryRun = false ∧
      reachableObjects cs ms (gcTips refs) = .ok live ∧ objects' = objects.filterKeys fun o => o ∈ live := by
  unfold gc at h
  simp only [bind_eq_ok] at h
  obtain ⟨_, -, attached, -, h⟩ := h
  split at h
  · exact absurd h sfsErr_ne_ok
  · split at h
    · cases h
      exact .inl rfl
    · next hprune =>
      obtain ⟨live, hlive, h⟩ := bind_eq_ok.mp h
      cases h
      simp only [not_or, Bool.not_eq_false] at hprune
      split
      · exact .inl rfl
      · next hdry => exact .inr ⟨live, hprune.1, by simpa using hdry, hlive, rfl⟩

/-- A gc that nothing stops prunes what the tips do not reference. -/
theorem gc_prunes {cs : CommitStore} {ms : ManifestStore} {refs : RefStore} {live : List Oid} (size : ν → Nat)
    (objects : FinMap Oid ν) (htips : gcTips refs ≠ []) (hlive : reachableObjects cs ms (gcTips refs) = .ok live) :
    ∃ report, gc ⟨.ok (), .ok false, []⟩ cs ms refs size objects ⟨true, false⟩ =
      .ok (report, objects.filterKeys fun o => o ∈ live) := by
  unfold gc
  show ∃ report, (if true = false ∨ gcTips refs = [] then _ else _) = _
  rw [if_neg (by simp [htips]), hlive]
  exact ⟨_, rfl⟩

/-- What a tip references stays. -/
theorem gc_keeps {env : GcEnv} {cs : CommitStore} {ms : ManifestStore} {refs : RefStore} {size : ν → Nat}
    {objects objects' : FinMap Oid ν} {opts : GcOptions} {report : GcReport}
    (h : gc env cs ms refs size objects opts = .ok (report, objects')) {kind : ObjectKind} {o : Oid}
    (ho : Referenced cs ms (gcTips refs) kind o) : objects'.get? o = objects.get? o := by
  rcases gc_objects h with rfl | ⟨live, -, -, hlive, rfl⟩
  · rfl
  · have : o ∈ live := ((reachableObjects_spec hlive).1 o).mpr ⟨kind, ho⟩
    rw [FinMap.get?_filterKeys, if_pos (decide_eq_true this)]

/-! ### Which refs gc sees -/

/-- The files the tips are read from: the entries of `refs/heads`, and HEAD. -/
def RefSource.Listed (dot : Path) : RefSource → Prop
  | .detachedHead => True
  | .file p => p = dot ++ ["HEAD"] ∨ ∃ name, p = dot ++ ["refs", "heads"] ++ [name]

theorem mem_gcTips_of_detached {r : RefStore} {o : Oid} (h : r.readHead = .ok (.detached o)) : o ∈ gcTips r := by
  unfold gcTips
  rw [h]
  exact List.mem_append_right _ (List.mem_singleton_self o)

theorem mem_gcTips_of_nameFile {r : RefStore} {spec : String} {p : Path} {o : Oid} (h : r.NameFile spec p o)
    (hl : (RefSource.file p).Listed r.dot) : o ∈ gcTips r := by
  obtain ⟨text, hfind, ho⟩ := h
  have hnode := RefStore.find_eq_some hfind
  rcases hl with rfl | ⟨name, rfl⟩
  · exact mem_gcTips_of_detached (RefStore.readHead_of_file hnode ho)
  · exact List.mem_append_left _ (List.mem_map.mpr ⟨_, RefStore.mem_listHeads hnode ho, rfl⟩)

theorem mem_gcTips {r : RefStore} {spec : String} {src : RefSource} {o : Oid} (h : r.Through spec src o)
    (hl : src.Listed r.dot) : o ∈ gcTips r := by
  cases h with
  | detached h => exact mem_gcTips_of_detached h
  | symbolic _ _ hf => exact mem_gcTips_of_nameFile hf hl
  | name _ hf => exact mem_gcTips_of_nameFile hf hl

/-- Nothing that a name reaches through `src` is pruned, in any repository at `dot`. -/
def KeepsThrough (dot : Path) (src : RefSource) : Prop :=
  ∀ (env : GcEnv) (refs : RefStore) (size : StoredObject → Nat) (objects objects' : ObjectMap) (report : GcReport)
    (spec : String) (oid : Oid) (objs : List Oid),
    refs.dot = dot → refs.Through spec src oid → reachableObjects objects.commits objects.manifests [oid] = .ok objs →
    gc env objects.commits objects.manifests refs size objects ⟨true, false⟩ = .ok (report, objects') →
    ∀ o ∈ objs, objects'.get? o = objects.get? o

theorem keepsThrough_of_listed {dot : Path} {src : RefSource} (hl : src.Listed dot) : KeepsThrough dot src := by
  intro env refs size objects objects' report spec oid objs hdot hthrough hobjs hgc o ho
  subst hdot
  obtain ⟨kind, href⟩ := ((reachableObjects_spec hobjs).1 o).mp ho
  refine gc_keeps hgc (href.mono fun t ht => ?_)
  rw [List.mem_singleton.mp ht]
  exact mem_gcTips hthrough hl

/-! ### Refs that gc does not see

A ref at any other path is missed. Two root commits stand in the store; HEAD is
detached at one of them, and the only ref to the other is the file at `p`. -/

/-- A path a ref file can have in a repository whose directories are directories
and whose HEAD is a file. -/
def RefSource.Possible (dot : Path) : RefSource → Prop
  | .detachedHead => True
  | .file p => (∀ c ∈ p, PlainName c) ∧ ¬ p <+: dot ++ ["refs", "heads"] ∧
      (dot ++ ["HEAD"] <+: p → p = dot ++ ["HEAD"])

def oidOf (b : UInt8) : Oid := .fill b

def rootCommit (b : UInt8) : Commit :=
  { formatVersion := 1, parents := [], manifest := oidOf 2, topology := oidOf 3, timestamp := "2025-01-01T00:00:00Z"
    author := "", message := toString b }

def plainManifest : Manifest :=
  { formatVersion := 1, hashAlgo := "blake3"
    file := { name := "model.safetensors", headerBlock := oidOf 4, totalBytes := 16, sha256 := "" }
    buffer := [{ tensor := "t", off := 8, nbytes := 8, group := "t" }]
    groups := FinMap.empty.insert "t"
      { mode := .full, block := some (oidOf 5), base := none, diffBlock := none, chainDepth := 0 } }

private def kindMismatch {α : Type} : Outcome α := sfsErr .objectKindMismatch "object kind mismatch" ""

def commitObject (c : Commit) (h : c.parents.length ≤ 2) : StoredObject :=
  ⟨.ok c, kindMismatch, fun _ hc => by cases hc; exact h, nofun, nofun⟩

def manifestObject (m : Manifest) : StoredObject := ⟨kindMismatch, .ok m, nofun, nofun, nofun⟩

def blobObject : StoredObject := ⟨kindMismatch, kindMismatch, nofun, nofun, nofun⟩

/-- Two roots with the same content but for the message. -/
def twoRoots : ObjectMap where
  entries :=
    [(oidOf 0, commitObject (rootCommit 0) (by decide)), (oidOf 1, commitObject (rootCommit 1) (by decide)),
      (oidOf 2, manifestObject plainManifest), (oidOf 3, blobObject), (oidOf 4, blobObject), (oidOf 5, blobObject)]
  nodup := by decide

theorem twoRoots_live : reachableObjects twoRoots.commits twoRoots.manifests [oidOf 0] =
    .ok [oidOf 4, oidOf 5, oidOf 0, oidOf 2, oidOf 3] := by
  rfl

theorem twoRoots_other : reachableObjects twoRoots.commits twoRoots.manifests [oidOf 1] =
    .ok [oidOf 4, oidOf 5, oidOf 1, oidOf 2, oidOf 3] := by
  rfl

/-- Where the only tip is the one root, the other is pruned. -/
theorem not_keepsThrough {refs : RefStore} {src : RefSource} {spec : String} (htips : gcTips refs = [oidOf 0])
    (h : refs.Through spec src (oidOf 1)) : ¬ KeepsThrough refs.dot src := by
  intro hkeep
  obtain ⟨report, hgc⟩ := gc_prunes (fun _ => 0) twoRoots (by rw [htips]; exact nofun)
    (by rw [htips]; exact twoRoots_live)
  have := hkeep _ refs _ _ _ report spec _ _ rfl h twoRoots_other hgc (oidOf 1) (by decide)
  rw [FinMap.get?_filterKeys, if_neg (by decide)] at this
  exact absurd this.symm (by decide)

section
variable {dot p : Path}

/-- HEAD detached at one root, the file at `p` holding the other. -/
def straySource (hdot : ∀ c ∈ dot, PlainName c) (hp : (RefSource.file p).Possible dot) (hne : p ≠ dot ++ ["HEAD"]) :
    RefStore where
  tree := FileTree.ofLists [dot ++ ["refs", "heads"], p.dropLast]
    [(dot ++ ["HEAD"], (oidOf 0).toString ++ "\n"), (p, (oidOf 1).toString ++ "\n")]
    (by simpa using Ne.symm hne)
    (by
      have hnil : p ≠ [] := fun h => hp.2.1 (h ▸ List.nil_prefix)
      have hlast : ∀ q : Path, q ≠ [] → ¬ q <+: q.dropLast := fun q hq h => by
        have := h.length_le
        have := List.length_pos_of_ne_nil hq
        rw [List.length_dropLast] at *
        omega
      intro f hf t ht
      simp only [List.mem_cons, List.not_mem_nil, or_false] at hf ht
      rcases hf with rfl | rfl <;> rcases ht with rfl | rfl | rfl
      · simp
      · simp
      · exact fun h => hne (hp.2.2 (h.trans (List.dropLast_prefix p)))
      · simpa using hnil
      · exact hp.2.1
      · exact hlast p hnil)
    (by
      intro f hf
      simp only [List.mem_cons, List.not_mem_nil, or_false] at hf
      rcases hf with rfl | rfl
      · exact ⟨dot ++ ["refs", "heads"], by simp, by simp⟩
      · exact ⟨p.dropLast, by simp, List.prefix_rfl⟩)
  dot := dot
  dot_plain := hdot

theorem straySource_file (hdot : ∀ c ∈ dot, PlainName c) (hp : (RefSource.file p).Possible dot)
    (hne : p ≠ dot ++ ["HEAD"]) (q : Path) (text : String) :
    (straySource hdot hp hne).tree.nodes.get? q = some (.file text) ↔
      (q, text) ∈ [(dot ++ ["HEAD"], (oidOf 0).toString ++ "\n"), (p, (oidOf 1).toString ++ "\n")] := by
  unfold straySource
  dsimp only
  rw [FileTree.ofLists_file]

theorem straySource_tips (hdot : ∀ c ∈ dot, PlainName c) (hp : (RefSource.file p).Possible dot)
    (hne : p ≠ dot ++ ["HEAD"]) (hl : ¬ (RefSource.file p).Listed dot) :
    gcTips (straySource hdot hp hne) = [oidOf 0] := by
  have hheads : (straySource hdot hp hne).listHeads = [] := by
    refine List.filterMap_eq_nil_iff.mpr fun ⟨name, node⟩ hmem => ?_
    cases node with
    | dir => rfl
    | file text =>
      have hfile := (straySource_file hdot hp hne _ _).mp (FileTree.mem_children.mp hmem)
      simp only [List.mem_cons, Prod.mk.injEq, List.not_mem_nil, or_false] at hfile
      rcases hfile with ⟨h, -⟩ | ⟨h, -⟩
      · exact absurd h (by simp [RefStore.refsHeads, straySource])
      · exact absurd (Or.inr ⟨name, h.symm⟩) hl
  have hhead : (straySource hdot hp hne).readHead = .ok (.detached (oidOf 0)) :=
    RefStore.readHead_of_file ((straySource_file hdot hp hne _ _).mpr List.mem_cons_self)
      (by rw [trimmed_line]; exact Oid.parse_toString _)
  rw [gcTips, hheads, hhead]
  rfl

theorem listed_of_keepsThrough (hdot : ∀ c ∈ dot, PlainName c) (hp : (RefSource.file p).Possible dot)
    (h : KeepsThrough dot (.file p)) : (RefSource.file p).Listed dot := by
  by_contra hl
  have hne : p ≠ dot ++ ["HEAD"] := fun he => hl (.inl he)
  have hnil : p ≠ [] := fun he => hp.2.1 (he ▸ List.nil_prefix)
  obtain ⟨hspec, hfile⟩ := RefStore.nameFile_absolute hnil hp.1
    ((straySource_file hdot hp hne _ _).mpr (List.mem_cons_of_mem _ List.mem_cons_self))
    (by rw [trimmed_line]; exact Oid.parse_toString (oidOf 1))
  exact not_keepsThrough (straySource_tips hdot hp hne hl) (.name hspec hfile) h

end

/-- In a repository at `dot`, what names reach through a source is safe from gc
exactly when the source is a detached HEAD, HEAD itself, or an entry of
`refs/heads`. -/
theorem keepsThrough_iff_listed (dot : Path) (hdot : ∀ c ∈ dot, PlainName c) (src : RefSource)
    (hsrc : src.Possible dot) : KeepsThrough dot src ↔ src.Listed dot := by
  refine ⟨fun h => ?_, keepsThrough_of_listed⟩
  cases src with
  | detachedHead => trivial
  | file p => exact listed_of_keepsThrough hdot hsrc h

theorem keepsThrough_iff_listed_main :
    (RefSource.file ["repo", ".synapsefs", "refs", "heads", "main"]).Possible ["repo", ".synapsefs"] ∧
      (KeepsThrough ["repo", ".synapsefs"] (.file ["repo", ".synapsefs", "refs", "heads", "main"]) ↔
        (RefSource.file ["repo", ".synapsefs", "refs", "heads", "main"]).Listed ["repo", ".synapsefs"]) := by
  have hp : (RefSource.file ["repo", ".synapsefs", "refs", "heads", "main"]).Possible ["repo", ".synapsefs"] :=
    ⟨by decide, by decide, by decide⟩
  exact ⟨hp, keepsThrough_iff_listed ["repo", ".synapsefs"] (by decide) _ hp⟩

/-- The branch `feature/x`, created beside `main`. -/
def nestedBranch : RefStore where
  tree := FileTree.ofLists [["repo", ".synapsefs", "refs", "heads", "feature"]]
    [(["repo", ".synapsefs", "HEAD"], "ref: refs/heads/main\n"),
      (["repo", ".synapsefs", "refs", "heads", "main"], (oidOf 0).toString ++ "\n"),
      (["repo", ".synapsefs", "refs", "heads", "feature", "x"], (oidOf 1).toString ++ "\n")]
    (by decide) (by decide) (by decide)
  dot := ["repo", ".synapsefs"]
  dot_plain := repo_plain

/-- gc prunes the commit that `feature/x` names. -/
theorem gc_prunes_nested_branch : ¬ ∀ (env : GcEnv) (refs : RefStore) (size : StoredObject → Nat)
    (objects objects' : ObjectMap) (report : GcReport) (spec : String) (src : RefSource) (oid : Oid) (objs : List Oid),
    refs.Through spec src oid → reachableObjects objects.commits objects.manifests [oid] = .ok objs →
    gc env objects.commits objects.manifests refs size objects ⟨true, false⟩ = .ok (report, objects') →
    ∀ o ∈ objs, objects'.get? o = objects.get? o := by
  intro h
  have htips : gcTips nestedBranch = [oidOf 0] := by decide
  have hfile : nestedBranch.NameFile "feature/x" ["repo", ".synapsefs", "refs", "heads", "feature", "x"] (oidOf 1) :=
    ⟨(oidOf 1).toString ++ "\n", by decide, by rw [trimmed_line]; exact Oid.parse_toString _⟩
  exact not_keepsThrough htips (.name (by decide) hfile) fun env refs size objects objects' report spec oid objs _ ht
    hobjs hgc => h env refs size objects objects' report spec _ oid objs ht hobjs hgc

end SynapseFs.Store
