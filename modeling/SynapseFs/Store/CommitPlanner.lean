import SynapseFs.Align.Matcher
import SynapseFs.Codec.Reconstruct

/-! Deciding how each tensor of a commit is stored.

Phase A encodes every group with alignment evidence, once; phase B takes back a
Delta whose columns depend on a group that is not Delta itself, until nothing
changes; phase C writes the artifacts, and every other tensor goes in whole. -/
namespace SynapseFs.Store
open Lib Core Format Align SynapseFs.Codec

/-! ### Snapshot policy -/

structure RepoConfig where
  maxChainDepth : Nat
  /-- `delta > snapshot_alpha * full`, in doubles. -/
  exceedsAlpha : Nat → Nat → Bool

inductive StorageDecision where
  | delta | fullNoBase | fullNotAlignable | fullChainTooDeep | fullDeltaTooLarge
  deriving DecidableEq, Repr

structure SnapshotInputs where
  hasBase : Bool
  alignable : Bool
  baseChainDepth : Nat
  deltaBytes : Nat
  fullBytes : Nat

def SnapshotInputs.decide (i : SnapshotInputs) (cfg : RepoConfig) : StorageDecision :=
  if !i.hasBase then .fullNoBase
  else if !i.alignable then .fullNotAlignable
  else if cfg.maxChainDepth < u32 (i.baseChainDepth + 1) then .fullChainTooDeep
  else if cfg.exceedsAlpha i.deltaBytes i.fullBytes then .fullDeltaTooLarge
  else .delta

/-! ### Sources -/

/-- The inner source with the columns of one tensor moved. -/
def columnPermutingSource (inner : TensorSource) (tensor : String) (colPerm : List Nat) (unitBytes : Nat) :
    TensorSource where
  bufferLayout := inner.bufferLayout
  tensorMeta := inner.tensorMeta
  readUnits name first count out :=
    if name ≠ tensor then inner.readUnits name first count out
    else do
      let (n, rows) ← inner.readUnits name first count out
      let rowBytes := u64 (colPerm.length * unitBytes)
      if n ≠ u64 (count * rowBytes) then
        sfsErr .internal "ColumnPermutingSource: short read from inner source" tensor
      else
        let moved ← permuteRows rows count rowBytes colPerm unitBytes
        return (n, filled moved rows)

/-! ### Groups -/

/-- Nothing of the group needs recording for others to read their columns. -/
def groupIsEffectivelyIdentity (topo : Topology) (report : MatchReport) (group : String) : Bool :=
  if (topo.findGroup group).any PermGroup.pinned then true
  else
    match report.groups.get? group with
    | none => true
    | some gm => gm.identity || !gm.alignable

/-- Encoding the group's own tensors is not worth an attempt. -/
def groupHasNoAlignmentEvidence (topo : Topology) (report : MatchReport) (group : String) : Bool :=
  if (topo.findGroup group).any PermGroup.pinned then true
  else
    match report.groups.get? group with
    | none => true
    | some gm => !gm.alignable

def materializePermutation (gm : GroupMatch) (groupSize : Nat) : List Nat :=
  if gm.permutation ≠ [] then gm.permutation else List.range groupSize

def tensorsOwningGroup (topo : Topology) (group : String) : List String :=
  (topo.tensors.entries.filter fun e => e.2.any fun ax => ax.dim = 0 ∧ ax.group = group).map Prod.fst

def secondaryDependencies (topo : Topology) (report : MatchReport) (members : List String) : List String :=
  members.flatMap fun tensor =>
    (((topo.tensors.get? tensor).getD []).filter fun ax =>
      ax.dim ≠ 0 ∧ !groupIsEffectivelyIdentity topo report ax.group).map AxisBinding.group

structure ParentTensorInfo where
  parentCommit : Oid
  chainDepth : Nat
  deriving DecidableEq, Repr

structure GroupPlan where
  name : String
  members : List String
  encoded : EncodeResult
  decision : StorageDecision
  secondaryDeps : List String

/-! ### Phase A -/

/-- The column adapter of one member, when its secondary group really moves. -/
def adaptMember (target : TensorSource) (topo : Topology) (report : MatchReport) (src : TensorSource) (tensor : String) :
    Outcome TensorSource :=
  match (topo.tensors.get? tensor).bind secondaryBinding with
  | none => .ok src
  | some secondary =>
    if groupIsEffectivelyIdentity topo report secondary.group then .ok src
    else do
      let other ← atOrThrow "unordered_map::at" (report.groups.get? secondary.group)
      match target.tensorMeta tensor with
      | none => sfsErr .tensorNotInBufferLayout "tensor missing from target" tensor
      | some m =>
        return columnPermutingSource src tensor (expand other.permutation secondary.block)
          (secondaryUnitBytes m.shape secondary.dim m.dtype)

/-- The deepest chain among the members that have a base. -/
def maxBaseDepth (parentInfo : FinMap String ParentTensorInfo) (members : List String) : Nat :=
  members.foldl (fun d tensor =>
    match parentInfo.get? tensor with
    | none => d
    | some info => max d info.chainDepth) 0

def planGroup (libs : Libs) (base target : TensorSource) (topo : Topology) (report : MatchReport)
    (parentInfo : FinMap String ParentTensorInfo) (cfg : RepoConfig) (opts : EncodeOptions)
    (group : String × PermGroup) : Outcome (Option GroupPlan) :=
  if groupHasNoAlignmentEvidence topo report group.1 then .ok none
  else
    let members := tensorsOwningGroup topo group.1
    if members = [] then .ok none
    else do
      let gm ← atOrThrow "unordered_map::at" (report.groups.get? group.1)
      let source ← members.foldlM (adaptMember target topo report) base
      let encoded ← encodeGroup libs source target topo group.1 (materializePermutation gm group.2.size) gm.alignable
        ⟨"weight_matching_lap", gm.costRaw, gm.costNormalized⟩ opts
      let inputs : SnapshotInputs :=
        { hasBase := members.any fun tensor => (parentInfo.get? tensor).isSome
          alignable := gm.alignable
          baseChainDepth := maxBaseDepth parentInfo members
          deltaBytes := encoded.artifact.length
          fullBytes := encoded.fullBytes }
      return some
        { name := group.1, members, encoded, decision := inputs.decide cfg,
          secondaryDeps := secondaryDependencies topo report members }

/-! ### Phase B -/

/-- A dependency that is a candidate and was not kept. -/
def lostDependency (plans : List GroupPlan) (deltas : List String) (plan : GroupPlan) : Bool :=
  plan.secondaryDeps.any fun dep => (plans.any fun p => p.name = dep) && !deltas.contains dep

/-- One sweep over the plans; what it takes back counts at once. -/
def downgradeSweep (plans : List GroupPlan) : List GroupPlan → List String → List String
  | [], deltas => deltas
  | plan :: rest, deltas =>
    downgradeSweep plans rest
      (if deltas.contains plan.name && lostDependency plans deltas plan then deltas.filter (· ≠ plan.name) else deltas)

/-- `while (changed)`. -/
def downgradeLoop (plans : List GroupPlan) : Nat → List String → Outcome (List String)
  | 0, _ => .error .outOfFuel
  | fuel + 1, deltas =>
    let swept := downgradeSweep plans plans deltas
    if swept.length = deltas.length then .ok swept else downgradeLoop plans fuel swept

/-- The names that stay Delta. A sweep that changes something drops a name, so
there are no more sweeps than plans, and one. -/
def keptDeltas (plans : List GroupPlan) : Outcome (List String) :=
  downgradeLoop plans (plans.length + 1) ((plans.filter fun p => p.decision = .delta).map GroupPlan.name)

/-! ### Phase C -/

/-- The entries so far, and what has been put into the block store. -/
structure PlanOutput where
  entries : FinMap String GroupEntry
  puts : List (ObjectKind × Bytes)

def deltaEntry (info : ParentTensorInfo) (tensor : String) (oid : Oid) : GroupEntry :=
  { mode := .delta, block := none, base := some ⟨info.parentCommit, tensor⟩, diffBlock := some oid,
    chainDepth := u32 (info.chainDepth + 1) }

def writeMember (parentInfo : FinMap String ParentTensorInfo) (oid : Oid) (entries : FinMap String GroupEntry)
    (tensor : String) : Outcome (FinMap String GroupEntry) := do
  let info ← atOrThrow "unordered_map::at" (parentInfo.get? tensor)
  return entries.insert tensor (deltaEntry info tensor oid)

def writeDelta (blake3 : Bytes → Oid) (parentInfo : FinMap String ParentTensorInfo) (kept : List String) (o : PlanOutput)
    (plan : GroupPlan) : Outcome PlanOutput :=
  if kept.contains plan.name then do
    let entries ← plan.members.foldlM
      (writeMember parentInfo (computeOid blake3 .diff plan.encoded.artifact)) o.entries
    return ⟨entries, o.puts ++ [(.diff, plan.encoded.artifact)]⟩
  else .ok o

def fullEntry (oid : Oid) : GroupEntry :=
  { mode := .full, block := some oid, base := none, diffBlock := none, chainDepth := 0 }

def writeFull (blake3 : Bytes → Oid) (target : TensorSource) (o : PlanOutput) (entry : Core.BufferEntry) :
    Outcome PlanOutput :=
  if (o.entries.get? entry.tensor).isSome then .ok o
  else
    match target.tensorMeta entry.tensor with
    | none => sfsErr .tensorNotInBufferLayout "buffer entry missing from target" entry.tensor
    | some m => do
      let buf ← zeroVector entry.nbytes
      let (n, bytes) ← target.readUnits entry.tensor 0 (m.shape.headD 1) buf
      if n ≠ bytes.length then sfsErr .internal "short read storing Full tensor" entry.tensor
      else return ⟨o.entries.insert entry.tensor (fullEntry (computeOid blake3 .raw bytes)), o.puts ++ [(.raw, bytes)]⟩

def planCommitGroups (libs : Libs) (base target : TensorSource) (topo : Topology) (report : MatchReport)
    (parentInfo : FinMap String ParentTensorInfo) (cfg : RepoConfig) (opts : EncodeOptions) : Outcome PlanOutput := do
  let plans := (← topo.groups.entries.mapM (planGroup libs base target topo report parentInfo cfg opts)).filterMap id
  let kept ← keptDeltas plans
  let deltas ← plans.foldlM (writeDelta libs.blake3 parentInfo kept) ⟨FinMap.empty, []⟩
  target.bufferLayout.foldlM (writeFull libs.blake3 target) deltas

/-! ### What phase A plans -/

section
variable {libs : Libs} {base target : TensorSource} {topo : Topology} {report : MatchReport}
  {parentInfo : FinMap String ParentTensorInfo} {cfg : RepoConfig} {opts : EncodeOptions}

/-- What is known of a group that has a plan. -/
structure Planned (libs : Libs) (base target : TensorSource) (topo : Topology) (report : MatchReport)
    (parentInfo : FinMap String ParentTensorInfo) (cfg : RepoConfig) (opts : EncodeOptions) (g : PermGroup)
    (gm : GroupMatch) (source : TensorSource) (p : GroupPlan) : Prop where
  group : topo.groups.get? p.name = some g
  evidence : groupHasNoAlignmentEvidence topo report p.name = false
  reported : report.groups.get? p.name = some gm
  members_eq : p.members = tensorsOwningGroup topo p.name
  source_eq : p.members.foldlM (adaptMember target topo report) base = .ok source
  encoded_eq : encodeGroup libs source target topo p.name (materializePermutation gm g.size) gm.alignable
    ⟨"weight_matching_lap", gm.costRaw, gm.costNormalized⟩ opts = .ok p.encoded
  decision_eq : p.decision = SnapshotInputs.decide
    ⟨p.members.any fun tensor => (parentInfo.get? tensor).isSome, gm.alignable, maxBaseDepth parentInfo p.members,
      p.encoded.artifact.length, p.encoded.fullBytes⟩ cfg
  deps_eq : p.secondaryDeps = secondaryDependencies topo report p.members

theorem planGroup_some {g : String × PermGroup} {p : GroupPlan} (hg : g ∈ topo.groups.entries)
    (h : planGroup libs base target topo report parentInfo cfg opts g = .ok (some p)) :
    ∃ gm source, Planned libs base target topo report parentInfo cfg opts g.2 gm source p := by
  unfold planGroup at h
  split at h
  · cases h
  · next hev =>
    dsimp only at h
    split at h
    · cases h
    · obtain ⟨gm, hgm, h⟩ := bind_eq_ok.mp h
      obtain ⟨source, hsource, h⟩ := bind_eq_ok.mp h
      obtain ⟨encoded, henc, h⟩ := bind_eq_ok.mp h
      cases h
      exact ⟨gm, source, FinMap.get?_eq_some.mpr hg, Bool.not_eq_true _ ▸ hev, atOrThrow_eq_ok.mp hgm, rfl, hsource, henc,
        rfl, rfl⟩

/-- A group with evidence and a member has a plan. -/
theorem planGroup_isSome {g : String × PermGroup} {r : Option GroupPlan}
    (h : planGroup libs base target topo report parentInfo cfg opts g = .ok r)
    (hev : groupHasNoAlignmentEvidence topo report g.1 = false) (hmem : tensorsOwningGroup topo g.1 ≠ []) :
    ∃ p, r = some p ∧ p.name = g.1 := by
  unfold planGroup at h
  rw [hev] at h
  dsimp only at h
  rw [if_neg (by decide), if_neg hmem] at h
  obtain ⟨gm, -, h⟩ := bind_eq_ok.mp h
  obtain ⟨source, -, h⟩ := bind_eq_ok.mp h
  obtain ⟨encoded, -, h⟩ := bind_eq_ok.mp h
  cases h
  exact ⟨_, rfl, rfl⟩

theorem mem_tensorsOwningGroup {group tensor : String} : tensor ∈ tensorsOwningGroup topo group ↔
    ∃ axes, topo.tensors.get? tensor = some axes ∧ ∃ ax ∈ axes, ax.dim = 0 ∧ ax.group = group := by
  unfold tensorsOwningGroup
  simp only [List.mem_map, List.mem_filter, List.any_eq_true, decide_eq_true_eq, Prod.exists, FinMap.get?_eq_some]
  constructor
  · rintro ⟨t, axes, ⟨hmem, hax⟩, rfl⟩
    exact ⟨axes, hmem, hax⟩
  · rintro ⟨axes, hmem, hax⟩
    exact ⟨tensor, axes, ⟨hmem, hax⟩, rfl⟩

/-- Every member's depth is below the deepest. -/
theorem le_maxBaseDepth {members : List String} {tensor : String} {info : ParentTensorInfo} (hm : tensor ∈ members)
    (hi : parentInfo.get? tensor = some info) : info.chainDepth ≤ maxBaseDepth parentInfo members := by
  have hgrow : ∀ (l : List String) (d : Nat), d ≤ l.foldl (fun d tensor =>
      match parentInfo.get? tensor with
      | none => d
      | some info => max d info.chainDepth) d := by
    intro l
    induction l with
    | nil => exact fun d => le_rfl
    | cons t rest ih =>
      intro d
      rw [List.foldl_cons]
      refine le_trans ?_ (ih _)
      split
      · exact le_rfl
      · exact le_max_left _ _
  unfold maxBaseDepth
  obtain ⟨front, back, rfl⟩ := List.append_of_mem hm
  rw [List.foldl_append, List.foldl_cons, hi]
  exact (le_max_right _ _).trans (hgrow back _)

/-- And the deepest is one of them, or none. -/
theorem maxBaseDepth_le {d : Nat}
    (h : ∀ name pi, parentInfo.get? name = some pi → pi.chainDepth ≤ d) (members : List String) :
    maxBaseDepth parentInfo members ≤ d := by
  unfold maxBaseDepth
  refine List.foldlRecOn (motive := (· ≤ d)) members _ (Nat.zero_le d) fun acc hacc t _ => ?_
  split
  · exact hacc
  · next pi hpi => exact max_le hacc (h t pi hpi)

/-- The depth a Delta member gets stays within the bound, if its base's does. -/
theorem depth_of_delta {i : SnapshotInputs} (h : i.decide cfg = .delta) {d : Nat} (hd : d ≤ i.baseChainDepth)
    (hbase : i.baseChainDepth ≤ cfg.maxChainDepth) : u32 (d + 1) ≤ cfg.maxChainDepth := by
  have hdeep : u32 (i.baseChainDepth + 1) ≤ cfg.maxChainDepth := by
    unfold SnapshotInputs.decide at h
    split at h
    · cases h
    · split at h
      · cases h
      · split at h
        · cases h
        · next hle => exact not_lt.mp hle
  by_cases hwrap : cfg.maxChainDepth + 1 < 2 ^ 32
  · rw [u32_of_lt (by omega)] at hdeep ⊢
    omega
  · have := u32_lt (d + 1)
    omega

/-! ### What phase B keeps -/

theorem downgradeSweep_sub (plans l : List GroupPlan) : ∀ deltas, ∀ n ∈ downgradeSweep plans l deltas, n ∈ deltas := by
  induction l with
  | nil => exact fun _ _ h => h
  | cons p rest ih =>
    intro deltas n hn
    have := ih _ n hn
    split at this
    · exact List.mem_of_mem_filter this
    · exact this

theorem downgradeSweep_length (plans l : List GroupPlan) : ∀ deltas,
    (downgradeSweep plans l deltas).length ≤ deltas.length := by
  induction l with
  | nil => exact fun _ => le_rfl
  | cons p rest ih =>
    intro deltas
    refine (ih _).trans ?_
    split
    · exact List.length_filter_le _ _
    · exact le_rfl

/-- A sweep that drops nothing found every dependency kept. -/
theorem downgradeSweep_stable (plans l : List GroupPlan) : ∀ deltas,
    (downgradeSweep plans l deltas).length = deltas.length →
    downgradeSweep plans l deltas = deltas ∧
      ∀ p ∈ l, p.name ∈ deltas → lostDependency plans deltas p = false := by
  induction l with
  | nil => exact fun _ _ => ⟨rfl, nofun⟩
  | cons p rest ih =>
    intro deltas hlen
    unfold downgradeSweep at hlen ⊢
    have hle := downgradeSweep_length plans rest
      (if deltas.contains p.name && lostDependency plans deltas p then deltas.filter (· ≠ p.name) else deltas)
    by_cases hdrop : (deltas.contains p.name && lostDependency plans deltas p) = true
    · rw [if_pos hdrop] at hlen hle
      have hmem : p.name ∈ deltas := List.contains_iff_mem.mp (Bool.and_eq_true_iff.mp hdrop).1
      have hshort : (deltas.filter (· ≠ p.name)).length < deltas.length :=
        List.length_filter_lt_length_iff_exists.mpr ⟨p.name, hmem, by simp⟩
      omega
    · rw [if_neg hdrop] at hlen ⊢
      obtain ⟨heq, hall⟩ := ih deltas hlen
      refine ⟨heq, fun q hq hmem => ?_⟩
      rcases List.mem_cons.mp hq with rfl | hq
      · rw [List.contains_iff_mem.mpr hmem, Bool.true_and] at hdrop
        exact Bool.not_eq_true _ ▸ hdrop
      · exact hall q hq hmem

theorem downgradeLoop_spec (plans : List GroupPlan) : ∀ (fuel : Nat) (deltas kept : List String),
    downgradeLoop plans fuel deltas = .ok kept →
    (∀ n ∈ kept, n ∈ deltas) ∧ ∀ p ∈ plans, p.name ∈ kept → lostDependency plans kept p = false := by
  intro fuel
  induction fuel with
  | zero => exact fun _ _ h => nomatch h
  | succ fuel ih =>
    intro deltas kept h
    unfold downgradeLoop at h
    dsimp only at h
    split at h
    · next hlen =>
      cases h
      obtain ⟨heq, hall⟩ := downgradeSweep_stable plans plans deltas hlen
      rw [heq]
      exact ⟨fun _ hn => hn, hall⟩
    · obtain ⟨hsub, hclosed⟩ := ih _ kept h
      exact ⟨fun n hn => downgradeSweep_sub plans plans deltas n (hsub n hn), hclosed⟩

theorem downgradeLoop_total (plans : List GroupPlan) : ∀ (fuel : Nat) (deltas : List String), deltas.length < fuel →
    ∃ kept, downgradeLoop plans fuel deltas = .ok kept := by
  intro fuel
  induction fuel with
  | zero => exact fun _ h => absurd h (Nat.not_lt_zero _)
  | succ fuel ih =>
    intro deltas hlt
    unfold downgradeLoop
    dsimp only
    split
    · exact ⟨_, rfl⟩
    · next hne =>
      have hle := downgradeSweep_length plans plans deltas
      exact ih _ (by omega)

/-- The fixed point is always reached. -/
theorem keptDeltas_total (plans : List GroupPlan) : ∃ kept, keptDeltas plans = .ok kept := by
  refine downgradeLoop_total plans _ _ ?_
  rw [List.length_map]
  exact Nat.lt_succ_of_le (List.length_filter_le _ _)

theorem keptDeltas_spec {plans : List GroupPlan} {kept : List String} (h : keptDeltas plans = .ok kept) :
    (∀ n ∈ kept, ∃ p ∈ plans, p.name = n ∧ p.decision = .delta) ∧
      ∀ p ∈ plans, p.name ∈ kept → ∀ dep ∈ p.secondaryDeps, (∃ q ∈ plans, q.name = dep) → dep ∈ kept := by
  obtain ⟨hsub, hclosed⟩ := downgradeLoop_spec plans _ _ kept h
  refine ⟨fun n hn => ?_, fun p hp hk dep hdep ⟨q, hq, hqn⟩ => ?_⟩
  · obtain ⟨p, hp, hpn⟩ := List.mem_map.mp (hsub n hn)
    obtain ⟨hmem, hdec⟩ := List.mem_filter.mp hp
    exact ⟨p, hmem, hpn, of_decide_eq_true hdec⟩
  · have hno := hclosed p hp hk
    unfold lostDependency at hno
    rw [List.any_eq_false] at hno
    have hdep' := hno dep hdep
    have hplan : (plans.any fun p => decide (p.name = dep)) = true :=
      List.any_eq_true.mpr ⟨q, hq, decide_eq_true hqn⟩
    rw [hplan, Bool.true_and, Bool.not_eq_true', Bool.not_eq_false] at hdep'
    exact List.contains_iff_mem.mp hdep'

/-! ### What phase C writes -/

theorem writeMembers_spec {oid : Oid} (members : List String) : ∀ {entries entries' : FinMap String GroupEntry},
    members.foldlM (writeMember parentInfo oid) entries = .ok entries' → ∀ name,
    (name ∈ members ∧ ∃ info, parentInfo.get? name = some info ∧
      entries'.get? name = some (deltaEntry info name oid)) ∨
    (name ∉ members ∧ entries'.get? name = entries.get? name) := by
  induction members with
  | nil =>
    intro entries entries' h name
    cases h
    exact .inr ⟨List.not_mem_nil, rfl⟩
  | cons t rest ih =>
    intro entries entries' h name
    rw [List.foldlM_cons] at h
    obtain ⟨mid, hmid, h⟩ := bind_eq_ok.mp h
    obtain ⟨info, hinfo, hmid⟩ := bind_eq_ok.mp hmid
    cases hmid
    rcases ih h name with ⟨hmem, hget⟩ | ⟨hnot, hget⟩
    · exact .inl ⟨List.mem_cons_of_mem _ hmem, hget⟩
    · by_cases hname : name = t
      · subst hname
        rw [FinMap.get?_insert_self] at hget
        exact .inl ⟨List.mem_cons_self, info, atOrThrow_eq_ok.mp hinfo, hget⟩
      · rw [FinMap.get?_insert_ne _ _ hname] at hget
        exact .inr ⟨by simp [hname, hnot], hget⟩

/-- The entry of a member of a kept plan, with the artifact that was put for it. -/
def DeltaOf (libs : Libs) (parentInfo : FinMap String ParentTensorInfo) (plans : List GroupPlan) (kept : List String)
    (puts : List (ObjectKind × Bytes)) (name : String) (e : GroupEntry) : Prop :=
  ∃ p ∈ plans, p.name ∈ kept ∧ name ∈ p.members ∧ (.diff, p.encoded.artifact) ∈ puts ∧
    ∃ info, parentInfo.get? name = some info ∧
      e = deltaEntry info name (computeOid libs.blake3 .diff p.encoded.artifact)

theorem DeltaOf.mono {plans plans' : List GroupPlan} {kept : List String} {puts puts' : List (ObjectKind × Bytes)}
    {name : String} {e : GroupEntry} (h : DeltaOf libs parentInfo plans kept puts name e)
    (hplans : ∀ p ∈ plans, p ∈ plans') (hputs : ∀ b ∈ puts, b ∈ puts') :
    DeltaOf libs parentInfo plans' kept puts' name e := by
  obtain ⟨p, hp, hk, hm, hput, hinfo⟩ := h
  exact ⟨p, hplans p hp, hk, hm, hputs _ hput, hinfo⟩

/-- After some of the plans: every entry is a member's, and every member has one. -/
structure DeltasWritten (libs : Libs) (parentInfo : FinMap String ParentTensorInfo) (plans : List GroupPlan)
    (kept : List String) (o : PlanOutput) : Prop where
  sound : ∀ name e, o.entries.get? name = some e → DeltaOf libs parentInfo plans kept o.puts name e
  complete : ∀ p ∈ plans, p.name ∈ kept → ∀ name ∈ p.members, (o.entries.get? name).isSome

theorem writeDeltas_spec {kept : List String} {todo : List GroupPlan} : ∀ {done : List GroupPlan} {o o' : PlanOutput},
    todo.foldlM (writeDelta libs.blake3 parentInfo kept) o = .ok o' → DeltasWritten libs parentInfo done kept o →
    DeltasWritten libs parentInfo (done ++ todo) kept o' := by
  induction todo with
  | nil =>
    intro done o o' h hw
    cases h
    rwa [List.append_nil]
  | cons p rest ih =>
    intro done o o' h hw
    rw [List.foldlM_cons] at h
    obtain ⟨mid, hmid, h⟩ := bind_eq_ok.mp h
    rw [← List.singleton_append, ← List.append_assoc]
    refine ih h ?_
    have hold : ∀ q ∈ done, q ∈ done ++ [p] := fun q hq => List.mem_append_left _ hq
    unfold writeDelta at hmid
    split at hmid
    · next hkept =>
      have hkept := List.contains_iff_mem.mp hkept
      obtain ⟨entries, hentries, hmid⟩ := bind_eq_ok.mp hmid
      cases hmid
      have hspec := writeMembers_spec p.members hentries
      have hputs : ∀ b ∈ o.puts, b ∈ o.puts ++ [(ObjectKind.diff, p.encoded.artifact)] := fun b hb =>
        List.mem_append_left _ hb
      constructor
      · intro name e he
        rcases hspec name with ⟨hm, info, hinfo, hget⟩ | ⟨-, hget⟩
        · cases hget.symm.trans he
          exact ⟨p, List.mem_append_right _ List.mem_cons_self, hkept, hm,
            List.mem_append_right _ List.mem_cons_self, info, hinfo, rfl⟩
        · exact (hw.sound name e (hget.symm.trans he)).mono hold hputs
      · intro q hq hqk name hm
        rcases hspec name with ⟨-, info, -, hget⟩ | ⟨hnot, hget⟩
        · exact Option.isSome_of_eq_some hget
        · rcases List.mem_append.mp hq with hq | hq
          · exact hget.symm ▸ hw.complete q hq hqk name hm
          · rw [List.mem_singleton.mp hq] at hm
            exact absurd hm hnot
    · next hkept =>
      cases hmid
      refine ⟨fun name e he => (hw.sound name e he).mono hold fun _ hb => hb, fun q hq hqk name hm => ?_⟩
      rcases List.mem_append.mp hq with hq | hq
      · exact hw.complete q hq hqk name hm
      · rw [List.mem_singleton.mp hq] at hqk
        exact absurd (List.contains_iff_mem.mpr hqk) hkept

/-- The bytes that are stored for a tensor as a whole. -/
def WholeRead (target : TensorSource) (entry : Core.BufferEntry) (bytes : Bytes) : Prop :=
  ∃ m, target.tensorMeta entry.tensor = some m ∧
    target.readUnits entry.tensor 0 (m.shape.headD 1) (List.replicate entry.nbytes 0) = .ok (bytes.length, bytes)

/-- The entry of a tensor that no kept plan has, with the block that was put for it. -/
def FullOf (libs : Libs) (target : TensorSource) (puts : List (ObjectKind × Bytes)) (name : String) (e : GroupEntry) :
    Prop :=
  ∃ entry ∈ target.bufferLayout, entry.tensor = name ∧ ∃ bytes, WholeRead target entry bytes ∧ (.raw, bytes) ∈ puts ∧
    e = fullEntry (computeOid libs.blake3 .raw bytes)

theorem writeFulls_spec {layout : List Core.BufferEntry} (hsub : ∀ entry ∈ layout, entry ∈ target.bufferLayout) :
    ∀ {o o' : PlanOutput}, layout.foldlM (writeFull libs.blake3 target) o = .ok o' →
    (∀ b ∈ o.puts, b ∈ o'.puts) ∧ (∀ name e, o.entries.get? name = some e → o'.entries.get? name = some e) ∧
    (∀ name e, o'.entries.get? name = some e → o.entries.get? name = some e ∨
      (o.entries.get? name = none ∧ FullOf libs target o'.puts name e)) ∧
    ∀ entry ∈ layout, (o'.entries.get? entry.tensor).isSome := by
  induction layout with
  | nil =>
    intro o o' h
    cases h
    exact ⟨fun _ hb => hb, fun _ _ he => he, fun _ _ he => .inl he, nofun⟩
  | cons entry rest ih =>
    intro o o' h
    rw [List.foldlM_cons] at h
    obtain ⟨mid, hmid, h⟩ := bind_eq_ok.mp h
    obtain ⟨hputs, hkeep, hprov, hdom⟩ := ih (fun e he => hsub e (List.mem_cons_of_mem _ he)) h
    unfold writeFull at hmid
    split at hmid
    · next hsome =>
      cases hmid
      refine ⟨hputs, hkeep, hprov, fun e he => ?_⟩
      rcases List.mem_cons.mp he with rfl | he
      · obtain ⟨v, hv⟩ := Option.isSome_iff_exists.mp hsome
        exact Option.isSome_of_eq_some (hkeep _ _ hv)
      · exact hdom e he
    · next hnone =>
      have hnone := Option.not_isSome_iff_eq_none.mp hnone
      split at hmid
      · exact absurd hmid sfsErr_ne_ok
      · next m hm =>
        obtain ⟨buf, hbuf, hmid⟩ := bind_eq_ok.mp hmid
        obtain ⟨⟨n, bytes⟩, hread, hmid⟩ := bind_eq_ok.mp hmid
        dsimp only at hmid
        split at hmid
        · exact absurd hmid sfsErr_ne_ok
        · next hn =>
          cases hmid
          have hn := not_not.mp hn
          have hzero : buf = List.replicate entry.nbytes 0 := by
            unfold zeroVector at hbuf
            split at hbuf
            · cases hbuf
            · cases hbuf
              rfl
          subst hn hzero
          refine ⟨fun b hb => hputs b (List.mem_append_left _ hb), fun name e he => hkeep name e ?_, fun name e he => ?_,
            fun e he => ?_⟩
          · have hne : name ≠ entry.tensor := by
              rintro rfl
              rw [hnone] at he
              cases he
            rw [FinMap.get?_insert_ne _ _ hne, he]
          · rcases hprov name e he with hmid | ⟨hmid, hfull⟩
            · by_cases hname : name = entry.tensor
              · subst hname
                rw [FinMap.get?_insert_self] at hmid
                cases hmid
                exact .inr ⟨hnone, entry, hsub entry List.mem_cons_self, rfl, bytes, ⟨m, hm, hread⟩,
                  hputs _ (List.mem_append_right _ List.mem_cons_self), rfl⟩
              · rw [FinMap.get?_insert_ne _ _ hname] at hmid
                exact .inl hmid
            · by_cases hname : name = entry.tensor
              · subst hname
                rw [FinMap.get?_insert_self] at hmid
                cases hmid
              · rw [FinMap.get?_insert_ne _ _ hname] at hmid
                exact .inr ⟨hmid, hfull⟩
          · rcases List.mem_cons.mp he with rfl | he
            · exact Option.isSome_of_eq_some (hkeep _ _ (FinMap.get?_insert_self _ _ _))
            · exact hdom e he

/-! ### The plan as a whole -/

/-- The rule for `planCommitGroups`: a set of groups is kept, closed under what
their columns depend on; their members are Delta, and everything else is Full. -/
structure PlanSpec (libs : Libs) (base target : TensorSource) (topo : Topology) (report : MatchReport)
    (parentInfo : FinMap String ParentTensorInfo) (cfg : RepoConfig) (opts : EncodeOptions) (plans : List GroupPlan)
    (kept : List String) (o : PlanOutput) : Prop where
  planned : ∀ p ∈ plans, ∃ g gm source, Planned libs base target topo report parentInfo cfg opts g gm source p
  candidates : ∀ g ∈ topo.groups.entries, groupHasNoAlignmentEvidence topo report g.1 = false →
    tensorsOwningGroup topo g.1 ≠ [] → ∃ p ∈ plans, p.name = g.1
  names : (plans.map GroupPlan.name).Nodup
  kept_delta : ∀ p ∈ plans, p.name ∈ kept → p.decision = .delta
  kept_closed : ∀ p ∈ plans, p.name ∈ kept → ∀ dep ∈ p.secondaryDeps, (∃ q ∈ plans, q.name = dep) → dep ∈ kept
  entries : ∀ name e, o.entries.get? name = some e →
    DeltaOf libs parentInfo plans kept o.puts name e ∨
    (FullOf libs target o.puts name e ∧ ∀ p ∈ plans, p.name ∈ kept → name ∉ p.members)
  members : ∀ p ∈ plans, p.name ∈ kept → ∀ name ∈ p.members, ∃ e, o.entries.get? name = some e ∧
    DeltaOf libs parentInfo plans kept o.puts name e
  layout : ∀ entry ∈ target.bufferLayout, (o.entries.get? entry.tensor).isSome

/-- Plans keep the order and the names of the groups. -/
theorem planNames_sublist {groups : List (String × PermGroup)} : ∀ {results : List (Option GroupPlan)},
    groups.mapM (planGroup libs base target topo report parentInfo cfg opts) = .ok results →
    ((results.filterMap id).map GroupPlan.name).Sublist (groups.map Prod.fst) := by
  induction groups with
  | nil =>
    intro results h
    cases h
    exact .slnil
  | cons g rest ih =>
    intro results h
    rw [List.mapM_cons] at h
    obtain ⟨r, hr, h⟩ := bind_eq_ok.mp h
    obtain ⟨rs, hrs, h⟩ := bind_eq_ok.mp h
    cases h
    cases r with
    | none => exact (ih hrs).cons _
    | some p =>
      have hname : p.name = g.1 := by
        unfold planGroup at hr
        split at hr
        · cases hr
        · dsimp only at hr
          split at hr
          · cases hr
          · obtain ⟨_, -, hr⟩ := bind_eq_ok.mp hr
            obtain ⟨_, -, hr⟩ := bind_eq_ok.mp hr
            obtain ⟨_, -, hr⟩ := bind_eq_ok.mp hr
            cases hr
            rfl
      show (p.name :: (rs.filterMap id).map GroupPlan.name).Sublist (g.1 :: rest.map Prod.fst)
      rw [hname]
      exact (ih hrs).cons_cons _

/-- What phase A leaves: a plan for each group with evidence and a member, and no other. -/
theorem planGroups_spec {results : List (Option GroupPlan)}
    (h : topo.groups.entries.mapM (planGroup libs base target topo report parentInfo cfg opts) = .ok results) :
    (∀ p ∈ results.filterMap id, ∃ g gm source,
      Planned libs base target topo report parentInfo cfg opts g gm source p) ∧
    (∀ g ∈ topo.groups.entries, groupHasNoAlignmentEvidence topo report g.1 = false →
      tensorsOwningGroup topo g.1 ≠ [] → ∃ p ∈ results.filterMap id, p.name = g.1) ∧
    ((results.filterMap id).map GroupPlan.name).Nodup := by
  obtain ⟨hlen, hall⟩ := mapM_eq_ok h
  refine ⟨fun p hp => ?_, fun g hg hev hmem => ?_, (planNames_sublist h).nodup topo.groups.nodup⟩
  · obtain ⟨r, hr, rfl⟩ := List.mem_filterMap.mp hp
    obtain ⟨i, hi, hget⟩ := List.mem_iff_getElem.mp hr
    have hplan := hall i (by omega) hi
    rw [hget] at hplan
    exact ⟨_, planGroup_some (List.getElem_mem _) hplan⟩
  · obtain ⟨i, hi, hget⟩ := List.mem_iff_getElem.mp hg
    have hplan := hall i hi (by omega)
    rw [hget] at hplan
    obtain ⟨p, hp, hname⟩ := planGroup_isSome hplan hev hmem
    exact ⟨p, List.mem_filterMap.mpr ⟨some p, hp ▸ List.getElem_mem _, rfl⟩, hname⟩

/-- What is kept was decided to be Delta. -/
theorem kept_delta {plans : List GroupPlan} {kept : List String} (h : keptDeltas plans = .ok kept)
    (hnames : (plans.map GroupPlan.name).Nodup) {p : GroupPlan} (hp : p ∈ plans) (hk : p.name ∈ kept) :
    p.decision = .delta := by
  obtain ⟨q, hq, hqn, hdec⟩ := (keptDeltas_spec h).1 p.name hk
  rwa [List.inj_on_of_nodup_map hnames hp hq hqn.symm]

theorem planCommitGroups_spec {o : PlanOutput}
    (h : planCommitGroups libs base target topo report parentInfo cfg opts = .ok o) :
    ∃ plans kept, PlanSpec libs base target topo report parentInfo cfg opts plans kept o := by
  obtain ⟨results, hresults, h⟩ := bind_eq_ok.mp h
  obtain ⟨kept, hkept, h⟩ := bind_eq_ok.mp h
  obtain ⟨deltas, hdeltas, h⟩ := bind_eq_ok.mp h
  obtain ⟨hplanned, hcandidates, hnames⟩ := planGroups_spec hresults
  have hwritten : DeltasWritten libs parentInfo ([] ++ results.filterMap id) kept deltas :=
    writeDeltas_spec hdeltas ⟨nofun, nofun⟩
  rw [List.nil_append] at hwritten
  obtain ⟨hputs, hkeep, hprov, hdom⟩ := writeFulls_spec (fun _ he => he) h
  refine ⟨results.filterMap id, kept, hplanned, hcandidates, hnames, fun p hp hk => kept_delta hkept hnames hp hk,
    (keptDeltas_spec hkept).2, ?_, ?_, hdom⟩
  · intro name e he
    rcases hprov name e he with hd | ⟨hnone, hf⟩
    · exact .inl ((hwritten.sound name e hd).mono (fun _ hp => hp) hputs)
    · refine .inr ⟨hf, fun p hp hk hm => ?_⟩
      have := hwritten.complete p hp hk name hm
      rw [hnone] at this
      cases this
  · intro p hp hk name hm
    obtain ⟨e, he⟩ := Option.isSome_iff_exists.mp (hwritten.complete p hp hk name hm)
    exact ⟨e, hkeep name e he, (hwritten.sound name e he).mono (fun _ hp => hp) hputs⟩

end

end SynapseFs.Store
