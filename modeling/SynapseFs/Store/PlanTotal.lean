import Mathlib.Logic.Relation
import SynapseFs.Codec.Artifact
import SynapseFs.Stio.StSource
import SynapseFs.Store.CommitPlanner

/-! When the planner returns.

The planner looks at tensors one by one and at groups as a whole. Whether a group
has a base is asked of the group (one tensor with a parent is enough), the base
itself is looked up for each tensor, with `at`; and every tensor that is not stored
as a Delta is read whole, by rows, so that it must have rows. `planTotal_iff` says
exactly which inputs come through, whatever the repository is configured to. -/
namespace SynapseFs.Store
open Lib Core Format Align Stio SynapseFs.Codec

/-! ### What the sweeps keep -/

section
variable {plans : List GroupPlan} {S : String → Prop}

/-- A set of plans that loses no dependency is kept by a sweep. -/
theorem downgradeSweep_keeps (hS : ∀ p ∈ plans, S p.name → ∀ dep ∈ p.secondaryDeps, (∃ q ∈ plans, q.name = dep) → S dep)
    (l : List GroupPlan) : ∀ deltas, (∀ p ∈ l, p ∈ plans) → (∀ p ∈ plans, S p.name → p.name ∈ deltas) →
      ∀ p ∈ plans, S p.name → p.name ∈ downgradeSweep plans l deltas := by
  induction l with
  | nil => exact fun deltas _ h => h
  | cons q rest ih =>
    intro deltas hl h
    refine ih _ (fun p hp => hl p (List.mem_cons_of_mem _ hp)) fun p hp hSp => ?_
    split
    · next hdrop =>
      refine List.mem_filter.mpr ⟨h p hp hSp, decide_eq_true fun hname => ?_⟩
      -- `q` is dropped, so it is not in the set
      obtain ⟨-, hlost⟩ := Bool.and_eq_true_iff.mp hdrop
      obtain ⟨dep, hdep, hmiss⟩ := List.any_eq_true.mp hlost
      obtain ⟨hplan, hnot⟩ := Bool.and_eq_true_iff.mp hmiss
      obtain ⟨r, hr, hrn⟩ := List.any_eq_true.mp hplan
      have hrn := of_decide_eq_true hrn
      have hdelta : dep ∈ deltas := by
        rw [← hrn]
        refine h r hr (hrn ▸ hS q (hl q List.mem_cons_self) (hname ▸ hSp) dep hdep ⟨r, hr, hrn⟩)
      rw [List.contains_iff_mem.mpr hdelta] at hnot
      cases hnot
    · exact h p hp hSp

/-- It is kept to the end, if all of it was decided to be Delta. -/
theorem keptDeltas_keeps (hS : ∀ p ∈ plans, S p.name → ∀ dep ∈ p.secondaryDeps, (∃ q ∈ plans, q.name = dep) → S dep)
    (hdelta : ∀ p ∈ plans, S p.name → p.decision = .delta) {kept : List String} (h : keptDeltas plans = .ok kept) :
    ∀ p ∈ plans, S p.name → p.name ∈ kept := by
  have hloop : ∀ fuel deltas, downgradeLoop plans fuel deltas = .ok kept →
      (∀ p ∈ plans, S p.name → p.name ∈ deltas) → ∀ p ∈ plans, S p.name → p.name ∈ kept := by
    intro fuel
    induction fuel with
    | zero => exact fun _ h => nomatch h
    | succ fuel ih =>
      intro deltas h hin
      have hswept := downgradeSweep_keeps hS plans deltas (fun p hp => hp) hin
      unfold downgradeLoop at h
      dsimp only at h
      split at h
      · cases h
        exact hswept
      · exact ih _ h hswept
  refine hloop _ _ h fun p hp hSp => List.mem_map.mpr ⟨p, List.mem_filter.mpr ⟨hp, ?_⟩, rfl⟩
  exact decide_eq_true (hdelta p hp hSp)

end

/-! ### Candidates -/

/-- The group is encoded: there is evidence for it, and a tensor in it. -/
def Candidate (topo : Topology) (report : MatchReport) (group : String) : Prop :=
  (topo.groups.get? group).isSome ∧ groupHasNoAlignmentEvidence topo report group = false ∧
    tensorsOwningGroup topo group ≠ []

/-- A column of the group's tensors moves with another group that is encoded. -/
def Needs (topo : Topology) (report : MatchReport) (group other : String) : Prop :=
  other ∈ secondaryDependencies topo report (tensorsOwningGroup topo group) ∧ Candidate topo report other

/-- Some tensor of the group has a parent. -/
def Based (topo : Topology) (parentInfo : FinMap String ParentTensorInfo) (group : String) : Prop :=
  ∃ tensor ∈ tensorsOwningGroup topo group, (parentInfo.get? tensor).isSome

/-- What phase A asks of the encoder. -/
def encodeCandidate (libs : Libs) (base target : TensorSource) (topo : Topology) (report : MatchReport)
    (opts : EncodeOptions) (group : String × PermGroup) : Outcome EncodeResult := do
  let gm ← atOrThrow "unordered_map::at" (report.groups.get? group.1)
  let source ← (tensorsOwningGroup topo group.1).foldlM (adaptMember target topo report) base
  encodeGroup libs source target topo group.1 (materializePermutation gm group.2.size) gm.alignable
    ⟨"weight_matching_lap", gm.costRaw, gm.costNormalized⟩ opts

section
variable {libs : Libs} {base target : TensorSource} {topo : Topology} {report : MatchReport}
  {parentInfo : FinMap String ParentTensorInfo} {cfg : RepoConfig} {opts : EncodeOptions}

/-- Phase A returns for a group unless the encoder does not. -/
theorem planGroup_ok_iff {g : String × PermGroup} (hg : g ∈ topo.groups.entries) :
    (∃ r, planGroup libs base target topo report parentInfo cfg opts g = .ok r) ↔
      (Candidate topo report g.1 → ∃ r, encodeCandidate libs base target topo report opts g = .ok r) := by
  have hsome : (topo.groups.get? g.1).isSome := by
    rw [FinMap.get?_eq_some.mpr hg]
    rfl
  unfold planGroup
  by_cases hev : groupHasNoAlignmentEvidence topo report g.1 = true
  · rw [if_pos hev]
    exact ⟨fun _ hc => absurd hc.2.1 (by rw [hev]; decide), fun _ => ⟨none, rfl⟩⟩
  · rw [if_neg hev]
    dsimp only
    by_cases hmem : tensorsOwningGroup topo g.1 = []
    · rw [if_pos hmem]
      exact ⟨fun _ hc => absurd hmem hc.2.2, fun _ => ⟨none, rfl⟩⟩
    · rw [if_neg hmem]
      have hc : Candidate topo report g.1 := ⟨hsome, Bool.not_eq_true _ ▸ hev, hmem⟩
      constructor
      · intro ⟨r, hr⟩ _
        obtain ⟨gm, hgm, hr⟩ := bind_eq_ok.mp hr
        obtain ⟨source, hsource, hr⟩ := bind_eq_ok.mp hr
        obtain ⟨encoded, henc, -⟩ := bind_eq_ok.mp hr
        exact ⟨encoded, bind_eq_ok.mpr ⟨gm, hgm, bind_eq_ok.mpr ⟨source, hsource, henc⟩⟩⟩
      · intro h
        obtain ⟨encoded, henc⟩ := h hc
        obtain ⟨gm, hgm, henc⟩ := bind_eq_ok.mp henc
        obtain ⟨source, hsource, henc⟩ := bind_eq_ok.mp henc
        exact ⟨_, bind_eq_ok.mpr ⟨gm, hgm, bind_eq_ok.mpr ⟨source, hsource, bind_eq_ok.mpr ⟨encoded, henc, rfl⟩⟩⟩⟩

/-- A group that is stored as a Delta has a tensor with a parent. -/
theorem Planned.based {g : PermGroup} {gm : GroupMatch} {source : TensorSource} {p : GroupPlan}
    (h : Planned libs base target topo report parentInfo cfg opts g gm source p) (hd : p.decision = .delta) :
    Based topo parentInfo p.name := by
  rw [h.decision_eq] at hd
  unfold SnapshotInputs.decide at hd
  dsimp only at hd
  split at hd
  · cases hd
  · next hb =>
    rw [Bool.not_eq_true', Bool.not_eq_false] at hb
    rw [h.members_eq] at hb
    exact List.any_eq_true.mp hb

/-- Every plan is a candidate's. -/
theorem candidate_of_plan {results : List (Option GroupPlan)}
    (h : topo.groups.entries.mapM (planGroup libs base target topo report parentInfo cfg opts) = .ok results)
    {p : GroupPlan} (hp : p ∈ results.filterMap id) : Candidate topo report p.name := by
  obtain ⟨r, hr, rfl⟩ := List.mem_filterMap.mp hp
  obtain ⟨g, hg, hplan⟩ := exists_of_mapM h hr
  obtain ⟨gm, source, hplanned⟩ := planGroup_some hg hplan
  refine ⟨by rw [hplanned.group]; rfl, hplanned.evidence, ?_⟩
  unfold planGroup at hplan
  split at hplan
  · cases hplan
  · dsimp only at hplan
    split at hplan
    · cases hplan
    · next hmem =>
      obtain ⟨_, -, hplan⟩ := bind_eq_ok.mp hplan
      obtain ⟨_, -, hplan⟩ := bind_eq_ok.mp hplan
      obtain ⟨_, -, hplan⟩ := bind_eq_ok.mp hplan
      cases hplan
      exact hmem

/-- A kept group needs only kept groups, so every group it comes to is based. -/
theorem based_of_kept {results : List (Option GroupPlan)} {kept : List String}
    (h : topo.groups.entries.mapM (planGroup libs base target topo report parentInfo cfg opts) = .ok results)
    (hkept : keptDeltas (results.filterMap id) = .ok kept) {group other : String}
    (hpath : Relation.ReflTransGen (Needs topo report) group other) :
    (∃ p ∈ results.filterMap id, p.name = group) → group ∈ kept → Based topo parentInfo other := by
  obtain ⟨hplanned, hcandidates, hnames⟩ := planGroups_spec h
  induction hpath using Relation.ReflTransGen.head_induction_on with
  | refl =>
    rintro ⟨p, hp, rfl⟩ hk
    obtain ⟨g, gm, source, hpl⟩ := hplanned p hp
    exact hpl.based (kept_delta hkept hnames hp hk)
  | head hneeds _ ih =>
    rintro ⟨p, hp, rfl⟩ hk
    obtain ⟨hdep, hsome, hev, hmem⟩ := hneeds
    obtain ⟨g, gm, source, hpl⟩ := hplanned p hp
    obtain ⟨g', hg'⟩ := Option.isSome_iff_exists.mp hsome
    have hplan := hcandidates _ (FinMap.get?_eq_some.mp hg') hev hmem
    refine ih hplan ((keptDeltas_spec hkept).2 p hp hk _ ?_ hplan)
    rw [hpl.deps_eq, hpl.members_eq]
    exact hdep

/-- With no bound on depth or size, a group that comes to based groups only is kept. -/
theorem kept_of_based {results : List (Option GroupPlan)} {kept : List String}
    (hcfg : cfg = ⟨2 ^ 32 - 1, fun _ _ => false⟩)
    (h : topo.groups.entries.mapM (planGroup libs base target topo report parentInfo cfg opts) = .ok results)
    (hkept : keptDeltas (results.filterMap id) = .ok kept) {p : GroupPlan} (hp : p ∈ results.filterMap id)
    (hall : ∀ other, Relation.ReflTransGen (Needs topo report) p.name other → Based topo parentInfo other) :
    p.name ∈ kept := by
  obtain ⟨hplanned, -, -⟩ := planGroups_spec h
  refine keptDeltas_keeps (S := fun group => ∀ other, Relation.ReflTransGen (Needs topo report) group other →
    Based topo parentInfo other) (fun q hq hS dep hdep hplan other hpath => ?_) (fun q hq hS => ?_) hkept p hp hall
  · obtain ⟨r, hr, rfl⟩ := hplan
    obtain ⟨g, gm, source, hpl⟩ := hplanned q hq
    rw [hpl.deps_eq, hpl.members_eq] at hdep
    exact hS other (.head ⟨hdep, candidate_of_plan h hr⟩ hpath)
  · obtain ⟨g, gm, source, hpl⟩ := hplanned q hq
    have hbased := hS q.name .refl
    have halign : gm.alignable = true := by
      have hev := hpl.evidence
      unfold groupHasNoAlignmentEvidence at hev
      split at hev
      · cases hev
      · rw [hpl.reported] at hev
        simpa using hev
    have hany : (q.members.any fun tensor => (parentInfo.get? tensor).isSome) = true := by
      rw [hpl.members_eq]
      exact List.any_eq_true.mpr hbased
    rw [hpl.decision_eq, hany, halign, hcfg]
    unfold SnapshotInputs.decide
    dsimp only
    have hdepth := u32_lt (maxBaseDepth parentInfo q.members + 1)
    rw [if_neg (by decide), if_neg (by decide), if_neg (by omega), if_neg Bool.false_ne_true]

end

/-! ### Tensors with rows -/

/-- The first dimension divides the tensor into rows. -/
def HasRows (m : TensorMeta) : Prop := ∃ d, m.shape[0]? = some d ∧ 0 < d ∧ m.nbytes % d = 0

theorem unitBytes_ok_iff {m : TensorMeta} : (∃ w, m.unitBytes 0 = .ok w) ↔ HasRows m := by
  unfold TensorMeta.unitBytes HasRows
  cases hd : m.shape[0]? with
  | none => exact ⟨fun ⟨_, h⟩ => absurd h sfsErr_ne_ok, fun ⟨_, h, _⟩ => nomatch h⟩
  | some d =>
    dsimp only
    by_cases hz : d = 0
    · rw [if_pos hz]
      refine ⟨fun ⟨_, h⟩ => absurd h sfsErr_ne_ok, fun ⟨_, h, hpos, _⟩ => ?_⟩
      cases h
      omega
    · rw [if_neg hz]
      by_cases hn : m.nbytes % d = 0
      · rw [if_neg (not_not.mpr hn)]
        exact ⟨fun _ => ⟨d, rfl, Nat.pos_of_ne_zero hz, hn⟩, fun _ => ⟨_, rfl⟩⟩
      · rw [if_pos hn]
        refine ⟨fun ⟨_, h⟩ => absurd h sfsErr_ne_ok, fun ⟨_, h, _, hmod⟩ => ?_⟩
        cases h
        exact absurd hmod hn

theorem encodeGroup_unitBytes {libs : Libs} {base target : TensorSource} {topo : Topology} {group : String}
    {perm : List Nat} {alignable : Bool} {alignment : AlignmentInfo} {opts : EncodeOptions} {r : EncodeResult}
    (h : encodeGroup libs base target topo group perm alignable alignment opts = .ok r) {name : String}
    (hname : name ∈ tensorsOwningGroup topo group) :
    ∃ m w, target.tensorMeta name = some m ∧ m.unitBytes 0 = .ok w := by
  obtain ⟨axes, haxes, ax, hax, hdim, hgroup⟩ := mem_tensorsOwningGroup.mp hname
  obtain ⟨_, -, h⟩ := bind_eq_ok.mp h
  obtain ⟨s, hs, -⟩ := bind_eq_ok.mp h
  obtain ⟨d, e, hstep⟩ := exists_step_of_foldlM hs (FinMap.get?_eq_some.mp haxes)
  unfold encodeBound at hstep
  cases hb : dimZeroBinding group axes with
  | none =>
    have := List.find?_eq_none.mp hb ax hax
    simp only [decide_eq_true_eq] at this
    exact absurd ⟨hdim, hgroup⟩ this
  | some binding =>
    dsimp only at hstep
    rw [hb] at hstep
    unfold encodeTensor at hstep
    cases hm : target.tensorMeta name with
    | none =>
      dsimp only at hstep
      rw [hm] at hstep
      exact absurd hstep sfsErr_ne_ok
    | some m =>
      dsimp only at hstep
      rw [hm] at hstep
      obtain ⟨w, hw, -⟩ := bind_eq_ok.mp hstep
      rw [(dimZeroBinding_dim hb).2.1] at hw
      exact ⟨m, w, rfl, hw⟩

/-! ### Plans that come through -/

/-- Every buffer entry has its entry, a tensor without a parent is Full, and a Full block is the tensor. -/
structure Covers (libs : Libs) (s : StSource) (parentInfo : FinMap String ParentTensorInfo) (o : PlanOutput) : Prop where
  entries : ∀ name, (o.entries.get? name).isSome ↔ ∃ e ∈ s.layout, e.tensor = name
  parentless : ∀ name e, o.entries.get? name = some e → parentInfo.get? name = none → e.mode = .full
  verbatim : ∀ name e, o.entries.get? name = some e → e.mode = .full → ∃ m, s.tensorMeta name = some m ∧
    e.block = some (computeOid libs.blake3 .raw (s.tensorBytes m)) ∧ (.raw, s.tensorBytes m) ∈ o.puts

/-- What the planner needs of its input. -/
structure Plannable (libs : Libs) (base : TensorSource) (s : StSource) (topo : Topology) (report : MatchReport)
    (parentInfo : FinMap String ParentTensorInfo) (opts : EncodeOptions) : Prop where
  rows : ∀ name m, s.tensorMeta name = some m → HasRows m
  encoded : ∀ g ∈ topo.groups.entries, Candidate topo report g.1 →
    ∃ r, encodeCandidate libs base s.source topo report opts g = .ok r
  /-- A group that is based, with all the groups it needs, has a parent for every tensor. -/
  whole : ∀ group, Candidate topo report group →
    (∀ other, Relation.ReflTransGen (Needs topo report) group other → Based topo parentInfo other) →
    ∀ tensor ∈ tensorsOwningGroup topo group, (parentInfo.get? tensor).isSome

section
variable {libs : Libs} {base : TensorSource} {s : StSource} {topo : Topology} {report : MatchReport}
  {parentInfo : FinMap String ParentTensorInfo} {cfg : RepoConfig} {opts : EncodeOptions}

/-- A tensor with rows is read whole. -/
theorem readWhole (hs : s.Opened) {name : String} {m : TensorMeta} (hm : s.tensorMeta name = some m) {w : Nat}
    (hw : m.unitBytes 0 = .ok w) : s.source.readUnits name 0 (m.shape.headD 1) (List.replicate m.nbytes 0) =
      .ok ((s.tensorBytes m).length, s.tensorBytes m) := by
  obtain ⟨units, hunits, -, hn⟩ := TensorMeta.unitBytes_eq_ok hw
  have hhead : m.shape.headD 1 = units := by
    cases hsh : m.shape with
    | nil =>
      rw [hsh] at hunits
      cases hunits
    | cons d rest =>
      rw [hsh] at hunits
      cases hunits
      rfl
  have hlen := StSource.length_tensorBytes hs hm
  have hread := StSource.readsRows hs hm hw 0 units (List.replicate m.nbytes 0) (by rw [hlen, Nat.zero_add, hn])
    (by rw [List.length_replicate, hn])
  rw [hhead, hread, Nat.zero_mul, ← hn, ← hlen, slice_full]

theorem covers_of_plan (hs : s.Opened)
    (hover : ∀ name axes, topo.tensors.get? name = some axes → (s.tensorMeta name).isSome)
    (hrows : ∀ name m, s.tensorMeta name = some m → HasRows m) {o : PlanOutput}
    (h : planCommitGroups libs base s.source topo report parentInfo cfg opts = .ok o) : Covers libs s parentInfo o := by
  obtain ⟨plans, kept, hspec⟩ := planCommitGroups_spec h
  refine ⟨fun name => ⟨fun hsome => ?_, fun ⟨e, he, hname⟩ => hname ▸ hspec.layout e he⟩, fun name e he hnone => ?_,
    fun name e he hfull => ?_⟩
  · obtain ⟨e, he⟩ := Option.isSome_iff_exists.mp hsome
    rcases hspec.entries name e he with ⟨p, hp, -, hmem, -⟩ | ⟨⟨entry, hentry, hname, -⟩, -⟩
    · obtain ⟨g, gm, source, hpl⟩ := hspec.planned p hp
      rw [hpl.members_eq] at hmem
      obtain ⟨axes, haxes, -⟩ := mem_tensorsOwningGroup.mp hmem
      obtain ⟨m, hm⟩ := Option.isSome_iff_exists.mp (hover name axes haxes)
      exact ⟨_, hs.entry hm, rfl⟩
    · exact ⟨entry, hentry, hname⟩
  · rcases hspec.entries name e he with ⟨p, -, -, -, -, info, hinfo, -⟩ | ⟨⟨entry, -, -, bytes, -, -, rfl⟩, -⟩
    · rw [hnone] at hinfo
      cases hinfo
    · rfl
  · rcases hspec.entries name e he with ⟨p, -, -, -, -, info, -, rfl⟩ | ⟨⟨entry, hentry, rfl, bytes, hread, hput, rfl⟩, -⟩
    · cases hfull
    · obtain ⟨m, hm, hread⟩ := hread
      obtain ⟨w, hw⟩ := unitBytes_ok_iff.mpr (hrows entry.tensor m hm)
      have hbytes : entry.nbytes = m.nbytes := by
        obtain ⟨m', hm', heq⟩ := (hs.entries entry).mp hentry
        cases hm.symm.trans hm'
        rw [heq]
      rw [hbytes, readWhole hs hm hw] at hread
      obtain rfl : s.tensorBytes m = bytes := congrArg Prod.snd (Except.ok.inj hread)
      exact ⟨m, hm, rfl, hput⟩

theorem writeFull_ok (hs : s.Opened) (hrows : ∀ name m, s.tensorMeta name = some m → HasRows m) (o : PlanOutput)
    {entry : Core.BufferEntry} (he : entry ∈ s.layout) : ∃ o', writeFull libs.blake3 s.source o entry = .ok o' := by
  obtain ⟨m, hm, heq⟩ := (hs.entries entry).mp he
  obtain ⟨w, hw⟩ := unitBytes_ok_iff.mpr (hrows entry.tensor m hm)
  have hbytes : entry.nbytes = m.nbytes := by rw [heq]
  have hmeta : s.source.tensorMeta entry.tensor = some m := hm
  have hin := hs.inFile hm
  have hsize := hs.size
  unfold writeFull
  split
  · exact ⟨o, rfl⟩
  · rw [hmeta, hbytes]
    exact ⟨_, bind_eq_ok.mpr ⟨_, zeroVector_eq (by unfold kMaxVector; omega),
      bind_eq_ok.mpr ⟨_, readWhole hs hm hw, if_neg (not_not.mpr rfl)⟩⟩⟩

/-- A kept group is written, when it has a parent for every tensor. -/
theorem writeDelta_ok {kept : List String} {p : GroupPlan} (o : PlanOutput)
    (h : p.name ∈ kept → ∀ tensor ∈ p.members, (parentInfo.get? tensor).isSome) :
    ∃ o', writeDelta libs.blake3 parentInfo kept o p = .ok o' := by
  unfold writeDelta
  split
  · next hk =>
    have hmember : ∀ entries, ∀ tensor ∈ p.members, ∃ entries',
        writeMember parentInfo (computeOid libs.blake3 .diff p.encoded.artifact) entries tensor = .ok entries' := by
      intro entries tensor ht
      obtain ⟨info, hinfo⟩ := Option.isSome_iff_exists.mp (h (List.contains_iff_mem.mp hk) tensor ht)
      exact ⟨_, bind_eq_ok.mpr ⟨info, atOrThrow_eq_ok.mpr hinfo, rfl⟩⟩
    obtain ⟨entries, hentries⟩ := exists_foldlM_ok hmember o.entries
    exact ⟨_, bind_eq_ok.mpr ⟨entries, hentries, rfl⟩⟩
  · exact ⟨o, rfl⟩

/-- And only then. -/
theorem parents_of_writeDelta {kept : List String} {p : GroupPlan} {o o' : PlanOutput}
    (h : writeDelta libs.blake3 parentInfo kept o p = .ok o') (hk : p.name ∈ kept) :
    ∀ tensor ∈ p.members, (parentInfo.get? tensor).isSome := by
  intro tensor htensor
  unfold writeDelta at h
  rw [if_pos (List.contains_iff_mem.mpr hk)] at h
  obtain ⟨entries, hmembers, -⟩ := bind_eq_ok.mp h
  obtain ⟨e, e', hmember⟩ := exists_step_of_foldlM hmembers htensor
  obtain ⟨info, hinfo, -⟩ := bind_eq_ok.mp hmember
  rw [atOrThrow_eq_ok.mp hinfo]
  rfl

theorem plan_ok (hs : s.Opened) (hp : Plannable libs base s topo report parentInfo opts) (cfg : RepoConfig) :
    ∃ o, planCommitGroups libs base s.source topo report parentInfo cfg opts = .ok o := by
  have hgroups : ∀ g ∈ topo.groups.entries,
      ∃ r, planGroup libs base s.source topo report parentInfo cfg opts g = .ok r := fun g hg =>
    (planGroup_ok_iff hg).mpr (hp.encoded g hg)
  obtain ⟨results, hresults⟩ := exists_mapM_ok hgroups
  obtain ⟨kept, hkept⟩ := keptDeltas_total (results.filterMap id)
  obtain ⟨hplanned, -, -⟩ := planGroups_spec hresults
  have hdelta : ∀ o, ∀ p ∈ results.filterMap id, ∃ o', writeDelta libs.blake3 parentInfo kept o p = .ok o' := by
    intro o p hpm
    refine writeDelta_ok o fun hk => ?_
    obtain ⟨g, gm, source, hpl⟩ := hplanned p hpm
    rw [hpl.members_eq]
    exact hp.whole p.name (candidate_of_plan hresults hpm) fun other hpath =>
      based_of_kept hresults hkept hpath ⟨p, hpm, rfl⟩ hk
  obtain ⟨deltas, hdeltas⟩ := exists_foldlM_ok hdelta ⟨FinMap.empty, []⟩
  obtain ⟨o, ho⟩ := exists_foldlM_ok (l := s.source.bufferLayout) (fun o e he => writeFull_ok hs hp.rows o he) deltas
  exact ⟨o, bind_eq_ok.mpr ⟨results, hresults, bind_eq_ok.mpr ⟨kept, hkept, bind_eq_ok.mpr ⟨deltas, hdeltas, ho⟩⟩⟩⟩

/-- A tensor that has an entry has rows: it was encoded, or read whole. -/
theorem hasRows_of_plan {o : PlanOutput}
    (h : planCommitGroups libs base s.source topo report parentInfo cfg opts = .ok o) {name : String} {m : TensorMeta}
    (hm : s.tensorMeta name = some m) (hentry : (o.entries.get? name).isSome) : HasRows m := by
  obtain ⟨plans, kept, hspec⟩ := planCommitGroups_spec h
  obtain ⟨e, he⟩ := Option.isSome_iff_exists.mp hentry
  refine unitBytes_ok_iff.mp ?_
  rcases hspec.entries name e he with ⟨p, hp, -, hmem, -⟩ | ⟨⟨entry, -, rfl, bytes, ⟨m', hm', hread⟩, -⟩, -⟩
  · obtain ⟨g, gm, source, hpl⟩ := hspec.planned p hp
    obtain ⟨m', w, hm', hw⟩ := encodeGroup_unitBytes hpl.encoded_eq (hpl.members_eq ▸ hmem)
    cases hm.symm.trans hm'
    exact ⟨w, hw⟩
  · cases hm.symm.trans hm'
    have hread : s.readUnits entry.tensor 0 (m.shape.headD 1) (List.replicate entry.nbytes 0) = .ok _ := hread
    unfold StSource.readUnits at hread
    rw [hm] at hread
    obtain ⟨w, hw, -⟩ := bind_eq_ok.mp hread
    exact ⟨w, hw⟩

end

/-! ### Two rows, and a scalar -/

/-- The two rows are swapped, and have a parent. -/
def swapReport : MatchReport := ⟨⟨[("g", ⟨[1, 0], false, true, 0, 0⟩)], List.nodup_singleton _⟩⟩

def swapParent : FinMap String ParentTensorInfo := ⟨[("w", ⟨pairWriter.blake3 [], 0⟩)], List.nodup_singleton _⟩

/-- The group of the pair is written from any source that shows its two rows. -/
theorem groupHeader_pair {base target : TensorSource} {off : Nat} (hmeta : target.tensorMeta "w" = some ⟨"w", [2], .u8, off, 2⟩)
    (hread : target.readUnits "w" 0 2 [0, 0] = .ok (2, [5, 6])) :
    groupHeader pairWriter base target pairTopology "g" [1, 0] true ⟨"weight_matching_lap", 0, 0⟩ rawOptions =
      .ok (pairHeader 0, ⟨pairPayload, 2, (pairHeader 0).tensors⟩) := by
  have htensor : encodeTensor pairWriter rawOptions base target [1, 0] "w" ⟨0, "g", 1⟩ ⟨[1, 0, 0, 0], 0, []⟩ =
      .ok ⟨pairPayload, 2, (pairHeader 0).tensors⟩ := by
    unfold encodeTensor
    rw [hmeta]
    refine bind_eq_ok.mpr ⟨1, TensorMeta.unitBytes_of_units rfl Nat.two_pos rfl, ?_⟩
    refine bind_eq_ok.mpr ⟨_, bind_eq_ok.mpr ⟨_, bind_eq_ok.mpr ⟨_, hread, rfl⟩, rfl⟩, rfl⟩
  exact bind_eq_ok.mpr ⟨_, rfl, bind_eq_ok.mpr ⟨_, bind_eq_ok.mpr ⟨_, htensor, rfl⟩, rfl⟩⟩

end SynapseFs.Store
