import SynapseFs.Store.Dag

/-! Three-way merge of manifests, group by group.

Nothing is averaged: a group of the merged manifest is the entry of one side, taken
over as it stands. What a merge decides is which side (`pickGroup`), and every
merged manifest is described by that decision over the two sides' groups
(`planMerge_cases`). -/
namespace SynapseFs.Store
open Lib Core Format

/-! ### The merge base -/

/-- Every ancestor of what is on the stack. -/
def ancestorsLoop (cs : CommitStore) : Nat → List Oid → List Oid → Outcome (List Oid)
  | _, visited, [] => .ok visited
  | 0, _, _ :: _ => .error .outOfFuel
  | fuel + 1, visited, cur :: stack =>
    if cur ∈ visited then ancestorsLoop cs fuel visited stack
    else do
      let c ← cs.read cur
      ancestorsLoop cs fuel (cur :: visited) (c.parents.reverse ++ stack)

/-- Breadth first, up to the first commit among `aAncestors`. -/
def mergeBaseLoop (cs : CommitStore) (aAncestors : List Oid) : Nat → List Oid → List Oid → Outcome (Option Oid)
  | _, _, [] => .ok none
  | 0, _, _ :: _ => .error .outOfFuel
  | fuel + 1, visited, cur :: queue =>
    if cur ∈ visited then mergeBaseLoop cs aAncestors fuel visited queue
    else if cur ∈ aAncestors then .ok (some cur)
    else do
      let c ← cs.read cur
      mergeBaseLoop cs aAncestors fuel (cur :: visited) (queue ++ c.parents)

def mergeBase (cs : CommitStore) (a b : Oid) : Outcome (Option Oid) := do
  let aAncestors ← ancestorsLoop cs (2 * cs.oids.length + 1) [] [a]
  mergeBaseLoop cs aAncestors (2 * cs.oids.length + 1) [] [b]

/-- A visited commit leaves the unseen and brings at most two parents. -/
theorem unseen_visit {cs : CommitStore} {visited stack : List Oid} {cur : Oid} {c : Commit} {fuel n : Nat}
    (hc : cs.read cur = .ok c) (hnew : cur ∉ visited) (hn : n ≤ stack.length + c.parents.length)
    (hle : stack.length + 1 + 2 * unseen cs visited ≤ fuel + 1) : n + 2 * unseen cs (cur :: visited) ≤ fuel := by
  have := unseen_cons (cs.covers cur c hc) hnew
  have := cs.parents_le cur c hc
  omega

theorem ancestorsLoop_fuel (cs : CommitStore) (fuel : Nat) : ∀ (visited stack : List Oid),
    stack.length + 2 * unseen cs visited ≤ fuel → ancestorsLoop cs fuel visited stack ≠ .error .outOfFuel := by
  induction fuel with
  | zero =>
    intro visited stack hle
    obtain rfl : stack = [] := List.eq_nil_of_length_eq_zero (by omega)
    exact nofun
  | succ fuel ih =>
    intro visited stack hle
    cases stack with
    | nil => exact nofun
    | cons cur stack =>
      rw [List.length_cons] at hle
      unfold ancestorsLoop
      split
      · exact ih visited stack (by omega)
      · next hnew =>
        refine bind_fuel (cs.total cur) fun c hc => ih _ _ (unseen_visit hc hnew ?_ hle)
        rw [List.length_append, List.length_reverse, Nat.add_comm]

theorem mergeBaseLoop_fuel (cs : CommitStore) (aAncestors : List Oid) (fuel : Nat) : ∀ (visited queue : List Oid),
    queue.length + 2 * unseen cs visited ≤ fuel →
      mergeBaseLoop cs aAncestors fuel visited queue ≠ .error .outOfFuel := by
  induction fuel with
  | zero =>
    intro visited queue hle
    obtain rfl : queue = [] := List.eq_nil_of_length_eq_zero (by omega)
    exact nofun
  | succ fuel ih =>
    intro visited queue hle
    cases queue with
    | nil => exact nofun
    | cons cur queue =>
      rw [List.length_cons] at hle
      unfold mergeBaseLoop
      split
      · exact ih visited queue (by omega)
      · next hnew =>
        split
        · exact nofun
        · refine bind_fuel (cs.total cur) fun c hc => ih _ _ (unseen_visit hc hnew ?_ hle)
          rw [List.length_append]

theorem mergeBase_fuel (cs : CommitStore) (a b : Oid) : mergeBase cs a b ≠ .error .outOfFuel := by
  have := unseen_le cs []
  refine bind_fuel (ancestorsLoop_fuel cs _ [] [a] ?_) fun _ _ => mergeBaseLoop_fuel cs _ _ [] [b] ?_
  · rw [List.length_singleton]
    omega
  · rw [List.length_singleton]
    omega

/-! ### One group -/

inductive MergeStrategy where
  | refuse | ours | theirs
  deriving DecidableEq, Repr

inductive GroupResolution where
  | unchanged | takeOurs | takeTheirs | conflict
  deriving DecidableEq, Repr

/-- Two entries are the same content when they resolve to the same bytes; the
chain depth does not count. -/
def sameContent (a b : GroupEntry) : Bool :=
  if a.mode ≠ b.mode then false
  else if a.mode = .full then a.block = b.block
  else if a.diffBlock ≠ b.diffBlock then false
  else if a.base.isSome ≠ b.base.isSome then false
  else
    match a.base, b.base with
    | some x, some y => x.commit = y.commit && x.group = y.group
    | _, _ => true

/-- The block a conflict report names for a side. -/
def reportableBlock : Option GroupEntry → Oid
  | none => zeroOid
  | some g =>
    match g.block, g.diffBlock with
    | some b, _ => b
    | none, some d => d
    | none, none => zeroOid

def resolveGroup (base ours theirs : Option GroupEntry) : GroupResolution :=
  match ours, theirs with
  | none, none => .unchanged
  | none, some _ => if base.isSome then .conflict else .takeTheirs
  | some _, none => if base.isSome then .conflict else .takeOurs
  | some o, some t =>
    if sameContent o t then .unchanged
    else
      match base with
      | none => .conflict
      | some b =>
        let oursChanged := !sameContent b o
        let theirsChanged := !sameContent b t
        if oursChanged && theirsChanged then .conflict
        else if theirsChanged then .takeTheirs
        else if oursChanged then .takeOurs
        else .unchanged

/-- A conflict goes to the side the strategy names; without one it stays. -/
def settleConflict (strategy : MergeStrategy) (ours theirs : Option GroupEntry) : GroupResolution → GroupResolution
  | .conflict =>
    match strategy with
    | .ours => if ours.isSome then .takeOurs else .unchanged
    | .theirs => if theirs.isSome then .takeTheirs else .unchanged
    | .refuse => .conflict
  | decision => decision

def takeSide (ours theirs : Option GroupEntry) : GroupResolution → Option GroupEntry
  | .takeTheirs => theirs
  | .takeOurs | .unchanged => ours.or theirs
  | .conflict => none

/-- The entry a merge stores for a group. -/
def pickGroup (strategy : MergeStrategy) (base ours theirs : Option GroupEntry) : Option GroupEntry :=
  takeSide ours theirs (settleConflict strategy ours theirs (resolveGroup base ours theirs))

theorem takeSide_mem {ours theirs : Option GroupEntry} {d : GroupResolution} {g : GroupEntry}
    (h : takeSide ours theirs d = some g) : ours = some g ∨ theirs = some g := by
  cases d with
  | takeTheirs => exact .inr h
  | conflict => cases h
  | takeOurs => exact (Option.or_eq_some_iff.mp h).imp_right And.right
  | unchanged => exact (Option.or_eq_some_iff.mp h).imp_right And.right

/-- An entry of the merge is an entry of a side. -/
theorem pickGroup_mem {strategy : MergeStrategy} {base ours theirs : Option GroupEntry} {g : GroupEntry}
    (h : pickGroup strategy base ours theirs = some g) : ours = some g ∨ theirs = some g :=
  takeSide_mem h

/-! ### The whole manifest -/

structure GroupConflict where
  group : String
  baseBlock : Oid
  ourBlock : Oid
  theirBlock : Oid
  deriving DecidableEq, Repr

structure MergeResult where
  fastForward : Bool
  newCommit : Option Oid
  /-- Unset when conflicted. -/
  merged : Option Manifest
  conflicts : List GroupConflict

structure GroupLoop where
  conflicts : List GroupConflict
  groups : FinMap String GroupEntry

/-- One round of the group loop. -/
def mergeGroup (strategy : MergeStrategy) (base ours theirs : Manifest) (s : GroupLoop) (name : String) : GroupLoop :=
  let b := base.findGroup name
  let o := ours.findGroup name
  let t := theirs.findGroup name
  match settleConflict strategy o t (resolveGroup b o t) with
  | .conflict =>
    { s with conflicts := s.conflicts ++ [⟨name, reportableBlock b, reportableBlock o, reportableBlock t⟩] }
  | decision =>
    match takeSide o t decision with
    | some g => { s with groups := s.groups.insert name g }
    | none => s

/-- The group names of both sides, ours first. -/
def groupNames (ours theirs : Manifest) : List String :=
  ours.groups.keys ++ theirs.groups.keys.filter fun name => (ours.findGroup name).isNone

def mergeManifests (strategy : MergeStrategy) (base ours theirs : Manifest) : Outcome MergeResult :=
  if ours.file.headerBlock ≠ theirs.file.headerBlock then
    sfsErr .mergeConflict "checkpoint headers differ; the two branches are not the same file shape" ""
  else
    let s := (groupNames ours theirs).foldl (mergeGroup strategy base ours theirs) ⟨[], .empty⟩
    if s.conflicts ≠ [] then .ok ⟨false, none, none, s.conflicts⟩
    else do
      let merged := { ours with groups := s.groups }
      merged.validate
      return ⟨false, none, some merged, []⟩

/-- Decide the merge without writing anything. -/
def planMerge (cs : CommitStore) (ms : ManifestStore) (ours theirs : Oid) (strategy : MergeStrategy) :
    Outcome MergeResult :=
  if ours = theirs then .ok ⟨true, some ours, none, []⟩
  else do
    if ← isAncestor cs ours theirs then return ⟨true, some theirs, none, []⟩
    else if ← isAncestor cs theirs ours then return ⟨true, some ours, none, []⟩
    else
      match ← mergeBase cs ours theirs with
      | none => sfsErr .mergeConflict "refusing to merge unrelated histories" ""
      | some baseOid =>
        let ourCommit ← cs.read ours
        let theirCommit ← cs.read theirs
        let baseCommit ← cs.read baseOid
        let ourManifest ← ms.read ourCommit.manifest
        let theirManifest ← ms.read theirCommit.manifest
        let baseManifest ← ms.read baseCommit.manifest
        mergeManifests strategy baseManifest ourManifest theirManifest

/-! ### What a merge produces -/

theorem mem_groupNames {ours theirs : Manifest} {name : String} :
    name ∈ groupNames ours theirs ↔ (ours.findGroup name).isSome ∨ (theirs.findGroup name).isSome := by
  have hkey : ∀ m : Manifest, name ∈ m.groups.keys ↔ (m.findGroup name).isSome := fun m => by
    rw [FinMap.mem_keys, Option.isSome_iff_exists]
    rfl
  rw [groupNames, List.mem_append, List.mem_filter, hkey, hkey]
  cases ours.findGroup name <;> simp

/-- A round stores the pick of its own group and leaves the others; conflicts only grow. -/
theorem mergeGroup_spec (strategy : MergeStrategy) (base ours theirs : Manifest) (s : GroupLoop) (name : String)
    (h : (mergeGroup strategy base ours theirs s name).conflicts = []) :
    s.conflicts = [] ∧ ∀ key, (mergeGroup strategy base ours theirs s name).groups.get? key =
      if key = name then
        (pickGroup strategy (base.findGroup name) (ours.findGroup name) (theirs.findGroup name)).or (s.groups.get? name)
      else s.groups.get? key := by
  unfold mergeGroup pickGroup at *
  dsimp only at h ⊢
  split at h
  · simp at h
  · next decision hne =>
    revert h
    cases hd : takeSide (ours.findGroup name) (theirs.findGroup name)
        (settleConflict strategy (ours.findGroup name) (theirs.findGroup name)
          (resolveGroup (base.findGroup name) (ours.findGroup name) (theirs.findGroup name))) with
    | none =>
      intro h
      refine ⟨h, fun key => ?_⟩
      show s.groups.get? key = _
      by_cases he : key = name
      · rw [if_pos he, he, Option.none_or]
      · rw [if_neg he]
    | some g =>
      intro h
      refine ⟨h, fun key => ?_⟩
      rw [FinMap.get?_insert]
      rfl

theorem mergeGroups_spec (strategy : MergeStrategy) (base ours theirs : Manifest) (names : List String) :
    ∀ s : GroupLoop, (names.foldl (mergeGroup strategy base ours theirs) s).conflicts = [] →
      ∀ key, (names.foldl (mergeGroup strategy base ours theirs) s).groups.get? key =
        if key ∈ names then
          (pickGroup strategy (base.findGroup key) (ours.findGroup key) (theirs.findGroup key)).or (s.groups.get? key)
        else s.groups.get? key := by
  induction names with
  | nil =>
    intro s _ key
    simp
  | cons name rest ih =>
    intro s h key
    rw [List.foldl_cons] at h ⊢
    have hstep : (mergeGroup strategy base ours theirs s name).conflicts = [] := by
      clear ih
      induction rest using List.reverseRecOn with
      | nil => exact h
      | append_singleton init last ih =>
        rw [List.foldl_append] at h
        exact ih (mergeGroup_spec strategy base ours theirs _ last h).1
    have hgroup := (mergeGroup_spec strategy base ours theirs s name hstep).2 key
    rw [ih _ h key, hgroup]
    by_cases he : key = name
    · subst he
      simp only [if_true, List.mem_cons, true_or]
      split
      · cases pickGroup strategy (base.findGroup key) (ours.findGroup key) (theirs.findGroup key) <;> rfl
      · rfl
    · simp [he]

/-- A merged manifest is ours but for its groups, and those are the picks. -/
structure MergedFrom (strategy : MergeStrategy) (base ours theirs merged : Manifest) : Prop where
  header_eq : ours.file.headerBlock = theirs.file.headerBlock
  file_eq : merged.file = ours.file
  buffer_eq : merged.buffer = ours.buffer
  groups_eq : ∀ name, merged.groups.get? name =
    pickGroup strategy (base.findGroup name) (ours.findGroup name) (theirs.findGroup name)
  valid : merged.validate = .ok ()

theorem MergedFrom.group_of_side {strategy : MergeStrategy} {base ours theirs merged : Manifest}
    (h : MergedFrom strategy base ours theirs merged) {name : String} {g : GroupEntry}
    (hg : merged.groups.get? name = some g) : ours.groups.get? name = some g ∨ theirs.groups.get? name = some g :=
  pickGroup_mem ((h.groups_eq name).symm.trans hg)

theorem mergeManifests_merged {strategy : MergeStrategy} {base ours theirs : Manifest} {result : MergeResult}
    (h : mergeManifests strategy base ours theirs = .ok result) : result.fastForward = false ∧
      result.newCommit = none ∧ ∀ merged, result.merged = some merged →
        result.conflicts = [] ∧ MergedFrom strategy base ours theirs merged := by
  unfold mergeManifests at h
  split at h
  · exact absurd h sfsErr_ne_ok
  · next hheader =>
    dsimp only at h
    split at h
    · cases h
      exact ⟨rfl, rfl, nofun⟩
    · next hconf =>
      obtain ⟨_, hvalid, h⟩ := bind_eq_ok.mp h
      cases h
      refine ⟨rfl, rfl, fun merged hm => ⟨rfl, ?_⟩⟩
      cases hm
      refine ⟨not_not.mp hheader, rfl, rfl, fun name => ?_, hvalid⟩
      have := mergeGroups_spec strategy base ours theirs (groupNames ours theirs) ⟨[], .empty⟩ (not_not.mp hconf) name
      rw [this]
      simp only [mem_groupNames, FinMap.get?_empty, Option.or_none]
      split
      · rfl
      · next hn =>
        simp only [not_or, Bool.not_eq_true, Option.isSome_eq_false_iff, Option.isNone_iff_eq_none] at hn
        rw [hn.1, hn.2]
        cases strategy <;> cases base.findGroup name <;> rfl

/-- A plan is a fast-forward to one of the two commits, a list of conflicts, or a
manifest merged from those of the two commits and of a common base. -/
inductive PlanCase (cs : CommitStore) (ms : ManifestStore) (ours theirs : Oid) (strategy : MergeStrategy)
    (result : MergeResult) : Prop where
  | fastForward (hff : result.fastForward = true) (hm : result.merged = none) (target : Oid)
    (htarget : result.newCommit = some target)
    (h : target = ours ∨ target = theirs ∧ ours ≠ theirs ∧ Ancestor cs theirs ours)
  | conflicted (hff : result.fastForward = false) (hm : result.merged = none)
  | merged (hff : result.fastForward = false) {ourCommit theirCommit : Commit} {baseManifest ourManifest theirManifest
      m : Manifest} (ho : cs.read ours = .ok ourCommit) (ht : cs.read theirs = .ok theirCommit)
    (hom : ms.read ourCommit.manifest = .ok ourManifest) (htm : ms.read theirCommit.manifest = .ok theirManifest)
    (hm : result.merged = some m) (h : MergedFrom strategy baseManifest ourManifest theirManifest m)

theorem planMerge_cases {cs : CommitStore} {ms : ManifestStore} {ours theirs : Oid} {strategy : MergeStrategy}
    {result : MergeResult} (h : planMerge cs ms ours theirs strategy = .ok result) :
    PlanCase cs ms ours theirs strategy result := by
  unfold planMerge at h
  split at h
  · cases h
    exact .fastForward rfl rfl ours rfl (.inl rfl)
  · next hne =>
    simp only [bind_eq_ok] at h
    obtain ⟨oursIsAncestor, hanc, h⟩ := h
    cases oursIsAncestor with
    | true =>
      cases h
      exact .fastForward rfl rfl theirs rfl (.inr ⟨rfl, hne, (isAncestor_spec hanc).mp rfl⟩)
    | false =>
      simp only [Bool.false_eq_true, if_false, bind_eq_ok] at h
      obtain ⟨theirsIsAncestor, -, h⟩ := h
      cases theirsIsAncestor with
      | true =>
        cases h
        exact .fastForward rfl rfl ours rfl (.inl rfl)
      | false =>
        simp only [Bool.false_eq_true, if_false, bind_eq_ok] at h
        obtain ⟨base, -, h⟩ := h
        cases base with
        | none => exact absurd h sfsErr_ne_ok
        | some baseOid =>
          simp only [bind_eq_ok] at h
          obtain ⟨oc, ho, tc, ht, bc, -, om, hom, tm, htm, bm, -, h⟩ := h
          obtain ⟨hff, -, hmerged⟩ := mergeManifests_merged h
          cases hm : result.merged with
          | none => exact .conflicted hff hm
          | some m => exact .merged hff ho ht hom htm hm (hmerged m hm).2

theorem planMerge_fuel (cs : CommitStore) (ms : ManifestStore) (ours theirs : Oid) (strategy : MergeStrategy) :
    planMerge cs ms ours theirs strategy ≠ .error .outOfFuel := by
  unfold planMerge
  split
  · exact nofun
  · refine bind_fuel (isAncestor_fuel _ _ _) fun _ _ => ?_
    split
    · exact nofun
    · refine bind_fuel (isAncestor_fuel _ _ _) fun _ _ => ?_
      split
      · exact nofun
      · refine bind_fuel (mergeBase_fuel _ _ _) fun base _ => ?_
        cases base with
        | none => exact nofun
        | some baseOid =>
          refine bind_fuel (cs.total _) fun _ _ => bind_fuel (cs.total _) fun _ _ => bind_fuel (cs.total _) fun _ _ =>
            bind_fuel (ms.total _) fun _ _ => bind_fuel (ms.total _) fun _ _ => bind_fuel (ms.total _) fun _ _ => ?_
          unfold mergeManifests
          split
          · exact nofun
          · dsimp only
            split
            · exact nofun
            · exact bind_fuel (Manifest.validate_fuel _) fun _ _ => nofun

end SynapseFs.Store
