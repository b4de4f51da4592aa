import SynapseFs.Store.CommitSource

/-! A linear history of checkpoints, and one link of it.

A history is a list of versions, the newest first, each planned against the one
before, under one topology. `Commits.artifact` says that what a plan stores reads
over a predecessor that reads, and `Commits.resolves` that planner and reader name
the same columns. -/
namespace SynapseFs.Store
open Lib Core Format Align SynapseFs.Codec

/-! ### Histories -/

/-- What the commits of a history share. -/
structure Timeline where
  libs : Libs
  blocks : BlockReads
  /-- The manifest of a commit. -/
  history : Oid → Outcome Manifest
  cfg : RepoConfig
  topology : Topology
  /-- Shape and dtype of every tensor. -/
  tensors : FinMap String (List Nat × DType)

/-- A commit: its checkpoint, what it was planned from, and its manifest. -/
structure Version where
  oid : Oid
  source : TensorSource
  data : String → Bytes
  base : TensorSource
  report : MatchReport
  opts : EncodeOptions
  plan : PlanOutput
  manifest : Manifest

namespace Timeline

variable (t : Timeline)

/-- How a commit is read. -/
def ctx (m : Manifest) : ReadCtx :=
  { blocks := some t.blocks, manifest := some m, history := some t.history, maxDepth := t.cfg.maxChainDepth,
    topology := some t.topology }

/-- The topology is valid for the tensors: axes as long as their groups, 32-bit numbers, dim 1 behind dim 0, and a
tensor for every group that is not pinned. No dimension is empty, and rows have less than `2 ^ 32` bytes. -/
structure Valid : Prop where
  validated : t.topology.validate (t.tensors.mapKV fun _ tensor => tensor.1) = .ok ()
  sizes : ∀ name g, t.topology.findGroup name = some g → g.size < 2 ^ 32
  blocks : ∀ name axes, t.topology.tensors.get? name = some axes → ∀ axis ∈ axes, axis.block < 2 ^ 32
  second : ∀ name axes, t.topology.tensors.get? name = some axes → ∀ axis ∈ axes, axis.dim ≠ 0 → axis.dim = 1
  owned : ∀ name g, t.topology.findGroup name = some g → g.pinned = false → tensorsOwningGroup t.topology name ≠ []
  dims : ∀ name shape dtype, t.tensors.get? name = some (shape, dtype) → ∀ d ∈ shape, 1 ≤ d
  rows : ∀ name shape dtype, t.tensors.get? name = some (shape, dtype) → (shape.drop 1).prod * dtype.size < 2 ^ 32
  lossless : t.libs.zstd.Lossless

/-- The tensor that is asked for the order of columns is found, and has its own order from no other group. -/
def Resolved : Prop :=
  ∀ name axes secondary, t.topology.tensors.get? name = some axes → secondaryBinding axes = some secondary →
    (t.topology.findGroup secondary.group).any PermGroup.pinned = false →
    ∃ owner, ownerOf t.topology secondary.group = some owner ∧
      ∀ group, owner ∈ tensorsOwningGroup t.topology group → group = secondary.group

/-- A checkpoint of the timeline: its tensors have their shapes and sizes, and are read by rows. -/
structure Holds (source : TensorSource) (data : String → Bytes) : Prop where
  shapes : ∀ name, (source.tensorMeta name).map (fun m => (m.shape, m.dtype)) = t.tensors.get? name
  typed : source.Typed
  layout : ∀ e ∈ source.bufferLayout, ∀ m, source.tensorMeta e.tensor = some m → e.nbytes = m.nbytes
  listed : ∀ name m, source.tensorMeta name = some m → ∃ e ∈ source.bufferLayout, e.tensor = name
  nbytes : ∀ name m, source.tensorMeta name = some m → m.nbytes = m.shape.prod * m.dtype.size
  small : ∀ name m, source.tensorMeta name = some m → m.nbytes < kMaxVector
  length : ∀ name m, source.tensorMeta name = some m → (data name).length = m.nbytes
  reads : ∀ name m w, source.tensorMeta name = some m → m.unitBytes 0 = .ok w → source.ReadsRows name (data name) w
  /-- What is read has rows. -/
  rows : ∀ name m first count out r, source.tensorMeta name = some m → source.readUnits name first count out = .ok r →
    ∃ w, m.unitBytes 0 = .ok w

/-- A bijection of the group, or nothing for the identity; and costs that are numbers. -/
structure Matches (gm : GroupMatch) (size : Nat) : Prop where
  identity : gm.identity = true ↔ gm.permutation = []
  bijective : gm.identity = false → isValidPermutation gm.permutation size = true
  costRaw : (Json.f64Trunc gm.costRaw).isSome
  costNormalized : (Json.f64Trunc gm.costNormalized).isSome

def Reported (report : MatchReport) : Prop :=
  ∀ name g gm, t.topology.findGroup name = some g → report.groups.get? name = some gm → gm.alignable = true →
    Matches gm g.size

/-- What `sfs commit` hands the planner about the predecessor. -/
def predecessorInfo : List Version → FinMap String ParentTensorInfo
  | [] => .empty
  | prev :: _ => prev.manifest.groups.mapKV fun _ g => ⟨prev.oid, g.chainDepth⟩

/-- The predecessor's file, or its commit. -/
def Predecessor : List Version → TensorSource → Prop
  | [], _ => True
  | prev :: past, base => base = prev.source ∨ ∃ (header : StHeader) (fuel : Nat), past.length < fuel ∧
      (∀ name, header.tensors.get? name = prev.source.tensorMeta name) ∧
      base = commitTensorSource t.libs fuel header (t.ctx prev.manifest)

/-- A commit on top of the past: planned, stored and recorded. -/
structure Commits (past : List Version) (v : Version) : Prop where
  holds : t.Holds v.source v.data
  reported : t.Reported v.report
  base : t.Predecessor past v.base
  planned : planCommitGroups t.libs v.base v.source t.topology v.report (predecessorInfo past) t.cfg v.opts = .ok v.plan
  groups : v.manifest.groups = v.plan.entries
  recorded : t.history v.oid = .ok v.manifest
  stored : ∀ b ∈ v.plan.puts, t.blocks.Serves (computeOid t.libs.blake3 b.1 b.2) b.1 b.2
  headers : ∀ name g gm source, t.topology.findGroup name = some g → v.report.groups.get? name = some gm →
    (tensorsOwningGroup t.topology name).foldlM (adaptMember v.source t.topology v.report) v.base = .ok source →
    HeaderReads t.libs source v.source t.topology name (materializePermutation gm g.size) gm.alignable
      ⟨"weight_matching_lap", gm.costRaw, gm.costNormalized⟩ v.opts

/-- The newest version first. -/
def History : List Version → Prop
  | [] => True
  | v :: past => History past ∧ t.Commits past v

/-- Every row of a group with evidence has an index: one that can be stored where the group moves, and one of 32 bits
where the identity is spelled out. -/
def Addressed (v : Version) : Prop :=
  ∀ name g gm, t.topology.findGroup name = some g → v.report.groups.get? name = some gm →
    groupHasNoAlignmentEvidence t.topology v.report name = false → Storable (materializePermutation gm g.size) ∧
      ∀ tensor axes axis, t.topology.tensors.get? tensor = some axes → axis ∈ axes → axis.dim = 0 → axis.group = name →
        g.size * axis.block < 2 ^ 61 ∧ (v.opts.residual ≠ .raw →
          materializePermutation gm g.size = List.range g.size → g.size * axis.block ≤ 2 ^ 32)

/-! ### Shapes and orders -/

section
variable {t}

/-- A bound axis has the length of its group. -/
theorem Valid.axis (ht : t.Valid) {source : TensorSource} {data : String → Bytes} (hs : t.Holds source data)
    {tensor : String} {axes : List AxisBinding} (haxes : t.topology.tensors.get? tensor = some axes) :
    ∃ m, source.tensorMeta tensor = some m ∧ ∀ axis ∈ axes, ∃ g, t.topology.findGroup axis.group = some g ∧
      m.shape[axis.dim]? = some (g.size * axis.block) := by
  obtain ⟨-, hbound⟩ := t.topology.validate_spec ht.validated
  obtain ⟨shape, hshape, hall⟩ := hbound tensor axes haxes
  rw [FinMap.get?_mapKV, ← hs.shapes] at hshape
  cases hm : source.tensorMeta tensor with
  | none =>
    rw [hm] at hshape
    cases hshape
  | some m =>
    rw [hm] at hshape
    cases hshape
    refine ⟨m, rfl, fun axis haxis => ?_⟩
    obtain ⟨g, hg, hlen⟩ := hall axis haxis
    have hsize := ht.sizes _ g hg
    have hblock := ht.blocks tensor axes haxes axis haxis
    have hfit : g.size * axis.block < 2 ^ 32 * 2 ^ 32 := Nat.mul_lt_mul'' hsize hblock
    exact ⟨g, hg, by rw [hlen, u64_of_lt (by omega)]⟩

/-- The rows of a tensor of the timeline. -/
theorem Holds.row {source : TensorSource} {data : String → Bytes} (ht : t.Valid) (hs : t.Holds source data)
    {tensor : String} {m : TensorMeta} (hm : source.tensorMeta tensor = some m) {rows : Nat}
    (hrows : m.shape[0]? = some rows) : ∃ w, m.unitBytes 0 = .ok w ∧ w = (m.shape.drop 1).prod * m.dtype.size ∧ 0 < w ∧
      0 < rows ∧ m.nbytes = rows * w ∧ tensorBytes m.shape m.dtype = rows * w ∧ w < 2 ^ 32 ∧
      w % m.dtype.size = 0 := by
  have htensor : t.tensors.get? tensor = some (m.shape, m.dtype) := by rw [← hs.shapes, hm]; rfl
  have hdims := ht.dims _ _ _ htensor
  have hbytes := hs.nbytes _ _ hm
  have hsmall := hs.small _ _ hm
  cases hshape : m.shape with
  | nil =>
    rw [hshape] at hrows
    cases hrows
  | cons d rest =>
    rw [hshape] at hrows hdims htensor
    cases hrows
    rw [hshape, List.prod_cons, Nat.mul_assoc] at hbytes
    have hpos : 0 < rest.prod * m.dtype.size :=
      Nat.mul_pos (List.prod_pos_iff_forall_pos_nat.mpr fun d hd => hdims d (List.mem_cons_of_mem _ hd))
        m.dtype.size_pos
    refine ⟨rest.prod * m.dtype.size, TensorMeta.unitBytes_of_units (by rw [hshape]; rfl)
      (hdims _ List.mem_cons_self) hbytes, rfl, hpos, hdims _ List.mem_cons_self, hbytes, ?_, ht.rows _ _ _ htensor, Nat.mul_mod_left _ _⟩
    unfold kMaxVector at hsmall
    rw [tensorBytes_eq, List.prod_cons, Nat.mul_assoc]
    rw [List.prod_cons, Nat.mul_assoc, ← hbytes]
    omega

/-- A tensor of the timeline is the same in every checkpoint, up to its place in the file. -/
theorem Holds.same {source source' : TensorSource} {data data' : String → Bytes} (hs : t.Holds source data)
    (hs' : t.Holds source' data') {tensor : String} {m : TensorMeta} (hm : source.tensorMeta tensor = some m) :
    ∃ m', source'.tensorMeta tensor = some m' ∧ m'.shape = m.shape ∧ m'.dtype = m.dtype ∧ m'.nbytes = m.nbytes := by
  have hshapes := hs.shapes tensor
  rw [← hs'.shapes, hm] at hshapes
  obtain ⟨m', hm', heq⟩ := Option.map_eq_some_iff.mp hshapes.symm
  have hshape : m'.shape = m.shape := congrArg Prod.fst heq
  have hdtype : m'.dtype = m.dtype := congrArg Prod.snd heq
  exact ⟨m', hm', hshape, hdtype, by rw [hs'.nbytes _ _ hm', hs.nbytes _ _ hm, hshape, hdtype]⟩

/-- A group that moves columns has evidence, and an order that is a bijection. -/
theorem moves_spec {report : MatchReport} {group : String}
    (h : groupIsEffectivelyIdentity t.topology report group = false) :
    (t.topology.findGroup group).any PermGroup.pinned = false ∧
      groupHasNoAlignmentEvidence t.topology report group = false ∧
      ∃ gm, report.groups.get? group = some gm ∧ gm.identity = false ∧ gm.alignable = true := by
  unfold groupIsEffectivelyIdentity at h
  unfold groupHasNoAlignmentEvidence
  split at h
  · cases h
  · next hpinned =>
    split at h
    · cases h
    · next gm hgm =>
      obtain ⟨hidentity, halignable⟩ := Bool.or_eq_false_iff.mp h
      rw [Bool.not_eq_false'] at halignable
      rw [if_neg hpinned, hgm]
      exact ⟨Bool.not_eq_true _ ▸ hpinned, by rw [halignable]; rfl, gm, rfl, hidentity, halignable⟩

theorem evidence_spec {report : MatchReport} {group : String} {gm : GroupMatch}
    (h : groupHasNoAlignmentEvidence t.topology report group = false) (hgm : report.groups.get? group = some gm) :
    gm.alignable = true ∧ (t.topology.findGroup group).any PermGroup.pinned = false := by
  unfold groupHasNoAlignmentEvidence at h
  split at h
  · cases h
  · next hpinned =>
    rw [hgm] at h
    rw [Bool.not_eq_false'] at h
    exact ⟨h, Bool.not_eq_true _ ▸ hpinned⟩

/-- A group with evidence moves columns unless its match is the identity. -/
theorem effectivelyIdentity_of_evidence {report : MatchReport} {group : String} {gm : GroupMatch}
    (h : groupHasNoAlignmentEvidence t.topology report group = false) (hgm : report.groups.get? group = some gm) :
    groupIsEffectivelyIdentity t.topology report group = gm.identity := by
  obtain ⟨hal, hpinned⟩ := evidence_spec h hgm
  unfold groupIsEffectivelyIdentity
  rw [hpinned, if_neg Bool.false_ne_true, hgm]
  dsimp only
  rw [hal, Bool.not_true, Bool.or_false]

/-- The order of a group is a bijection of its units. -/
theorem Matches.order {gm : GroupMatch} {size : Nat} (h : Matches gm size) :
    isValidPermutation (materializePermutation gm size) size = true := by
  unfold materializePermutation
  cases hid : gm.identity with
  | true =>
    rw [if_neg (not_not.mpr (h.identity.mp hid)), isValidPermutation_iff]
    exact ⟨List.length_range, fun p hp => List.mem_range.mp hp, List.nodup_range⟩
  | false =>
    have hne : gm.permutation ≠ [] := fun hnil => by
      rw [h.identity.mpr hnil] at hid
      cases hid
    rw [if_pos hne]
    exact h.bijective hid

/-- What moves with a group that has a match: the order, or nothing for the identity. -/
theorem Matches.moved {gm : GroupMatch} {size : Nat} (h : Matches gm size) :
    materialised (materializePermutation gm size) = if gm.identity then [] else materialised gm.permutation := by
  unfold materializePermutation
  cases hid : gm.identity with
  | true =>
    rw [if_neg (not_not.mpr (h.identity.mp hid)), if_pos rfl]
    exact materialised_range (by rw [List.length_range])
  | false =>
    have hne : gm.permutation ≠ [] := fun hnil => by
      rw [h.identity.mpr hnil] at hid
      cases hid
    rw [if_pos hne, if_neg Bool.false_ne_true]

/-- A tensor of a group has rows. -/
theorem Valid.member (ht : t.Valid) {source : TensorSource} {data : String → Bytes} (hs : t.Holds source data)
    {group tensor : String} (h : tensor ∈ tensorsOwningGroup t.topology group) :
    ∃ m w, source.tensorMeta tensor = some m ∧ m.unitBytes 0 = .ok w := by
  obtain ⟨axes, haxes, axis, haxis, hdim, -⟩ := mem_tensorsOwningGroup.mp h
  obtain ⟨m, hm, hlen⟩ := ht.axis hs haxes
  obtain ⟨g, -, hrows⟩ := hlen axis haxis
  rw [hdim] at hrows
  obtain ⟨w, hw, -⟩ := hs.row ht hm hrows
  exact ⟨m, w, hm, hw⟩

/-! ### Columns -/

/-- The columns that move are dim 1 of the tensor, as long as their group. -/
theorem Valid.columnsFit (ht : t.Valid) {source : TensorSource} {data : String → Bytes} (hs : t.Holds source data)
    {report : MatchReport} (hreport : t.Reported report) {tensor : String} {m : TensorMeta}
    (hm : source.tensorMeta tensor = some m) {w : Nat} (hw : m.unitBytes 0 = .ok w) :
    ColumnsFit t.topology report tensor m w := by
  obtain ⟨rows, hrows, -, -⟩ := TensorMeta.unitBytes_eq_ok hw
  obtain ⟨w', hw', hwidth, hpos, -, -, -, hlt, -⟩ := hs.row ht hm hrows
  cases hw.symm.trans hw'
  refine ⟨hlt, fun secondary hsec hmoves => ?_⟩
  obtain ⟨-, -, gm, hgm, hid, hal⟩ := moves_spec hmoves
  obtain ⟨axes, haxes, hbind⟩ := Option.bind_eq_some_iff.mp hsec
  have hmem := List.mem_of_find?_eq_some hbind
  have hdim : secondary.dim = 1 := ht.second _ _ haxes _ hmem (by simpa using List.find?_some hbind)
  obtain ⟨m', hm', haxis⟩ := ht.axis hs haxes
  cases hm.symm.trans hm'
  obtain ⟨g, hg, hlen⟩ := haxis secondary hmem
  rw [hdim] at hlen
  have hbij := (hreport _ g gm hg hgm hal).bijective hid
  obtain ⟨hplen, hplt, hpnd⟩ := isValidPermutation_iff.mp hbij
  have hperm : gm.permutation.Perm (List.range g.size) :=
    (List.subperm_of_subset hpnd fun p hp => List.mem_range.mpr (hplt p hp)).perm_of_length_le
      (by rw [List.length_range, hplen])
  -- the shape is `rows :: size * block :: trailing`
  cases hshape : m.shape with
  | nil =>
    rw [hshape] at hrows
    cases hrows
  | cons d rest =>
    cases hrest : rest with
    | nil =>
      rw [hshape, hrest] at hlen
      cases hlen
    | cons c trailing =>
      rw [hshape, hrest] at hlen
      cases hlen
      have hsmall : g.size * secondary.block * trailing.prod * m.dtype.size = w := by
        rw [hwidth, hshape, hrest]
        show _ = (g.size * secondary.block :: trailing).prod * _
        rw [List.prod_cons]
      refine ⟨gm, hgm, ⟨d, g.size, secondary.block, trailing, m.dtype, gm.permutation, hperm, ?_⟩, hdim, rfl, rfl, ?_, rfl,
        hsmall, hpos⟩
      · rw [hsmall]
        unfold kMaxVector
        omega
      · rfl

/-! ### One link -/

theorem tensorsOwningGroup_nodup (topology : Topology) (group : String) : (tensorsOwningGroup topology group).Nodup :=
  (List.filter_sublist.map Prod.fst).nodup topology.tensors.nodup

/-- The version reads as its checkpoint, with a budget of `links` or more. -/
structure Sound (t : Timeline) (links : Nat) (v : Version) : Prop where
  holds : t.Holds v.source v.data
  recorded : t.history v.oid = .ok v.manifest
  reads : ∀ name m, v.source.tensorMeta name = some m → ∀ fuel, links ≤ fuel →
    Reads (readRange t.libs fuel (t.ctx v.manifest) name) (v.data name)
  depths : ∀ name g, v.manifest.findGroup name = some g → g.chainDepth ≤ t.cfg.maxChainDepth

variable {past : List Version} {prev v : Version}

/-- The planner's base reads as the predecessor. -/
theorem Commits.base_reads (h : t.Commits (prev :: past) v) (hprev : t.Sound (past.length + 1) prev)
    {tensor : String} {m : TensorMeta} (hm : v.source.tensorMeta tensor = some m) {w : Nat} (hw : m.unitBytes 0 = .ok w) :
    v.base.ReadsRows tensor (prev.data tensor) w ∧ (prev.data tensor).length = m.nbytes := by
  obtain ⟨m', hm', hshape, hdtype, hnbytes⟩ := h.holds.same hprev.holds hm
  obtain ⟨rows, hrows, hpos, hbytes⟩ := TensorMeta.unitBytes_eq_ok hw
  have hw' : m'.unitBytes 0 = .ok w :=
    TensorMeta.unitBytes_of_units (by rw [hshape]; exact hrows) hpos (hnbytes.trans hbytes)
  have hlen := hprev.holds.length _ _ hm'
  refine ⟨?_, hlen.trans hnbytes⟩
  rcases h.base with hbase | ⟨header, fuel, hfuel, hheader, hbase⟩
  · rw [hbase]
    exact hprev.holds.reads _ _ _ hm' hw'
  · rw [hbase]
    have hsmall := hprev.holds.small _ _ hm'
    exact commitTensorSource_reads ((hheader tensor).trans hm') hw' (hprev.reads _ _ hm' fuel hfuel) (hlen ▸ hsmall)

/-- The artifact of a plan comes apart, and each tensor of the group reads over the predecessor. -/
theorem Commits.artifact (ht : t.Valid) (h : t.Commits (prev :: past) v) (hprev : t.Sound (past.length + 1) prev)
    (haddr : t.Addressed v) {g : PermGroup} {gm : GroupMatch} {source : TensorSource} {p : GroupPlan}
    (hp : Planned t.libs v.base v.source t.topology v.report (predecessorInfo (prev :: past)) t.cfg v.opts g gm source p) :
    ∃ view, parseDiffArtifact t.libs.json p.encoded.artifact = .ok view ∧
      readPermutation view.header.permutation view.payload = .ok (materialised (materializePermutation gm g.size)) ∧
      ∀ tensor ∈ p.members, ∃ m diff, v.source.tensorMeta tensor = some m ∧
        TensorReads t.libs view tensor m (v.data tensor) (prev.data tensor)
          (columnsOf t.topology v.report tensor m.shape m.dtype) diff := by
  have hg : t.topology.findGroup p.name = some g := hp.group
  obtain ⟨hal, -⟩ := evidence_spec hp.evidence hp.reported
  have hmatch := h.reported p.name g gm hg hp.reported hal
  obtain ⟨hstorable, hindexed⟩ := haddr p.name g gm hg hp.reported hp.evidence
  have hv := hmatch.order
  have hlen : (materializePermutation gm g.size).length = g.size := (isValidPermutation_iff.mp hv).1
  have hsize := ht.sizes _ _ hg
  -- every tensor has its data by name
  obtain ⟨mOf, hmOf⟩ : ∃ mOf : String → TensorMeta, ∀ name m, v.source.tensorMeta name = some m → mOf name = m :=
    ⟨fun name => (v.source.tensorMeta name).getD ⟨name, [], .u8, 0, 0⟩, fun name m hm => by simp [hm]⟩
  have hhops : ∀ e ∈ t.topology.tensors.entries, ∀ binding, dimZeroBinding p.name e.2 = some binding →
      Hop v.opts source v.source (materializePermutation gm g.size) e.1 binding.block (mOf e.1)
          (((mOf e.1).shape.drop 1).prod * (mOf e.1).dtype.size) (v.data e.1) (prev.data e.1)
          (columnsOf t.topology v.report e.1 (mOf e.1).shape (mOf e.1).dtype) ∧
        tensorBytes (mOf e.1).shape (mOf e.1).dtype = (materializePermutation gm g.size).length * binding.block *
          (((mOf e.1).shape.drop 1).prod * (mOf e.1).dtype.size) := by
    intro e he binding hbind
    have haxes : t.topology.tensors.get? e.1 = some e.2 := FinMap.get?_eq_some.mpr he
    obtain ⟨hmem, hdim, hgroup⟩ := dimZeroBinding_dim hbind
    obtain ⟨m, hm, haxis⟩ := ht.axis h.holds haxes
    rw [hmOf _ _ hm]
    obtain ⟨g', hg', hrows⟩ := haxis binding hmem
    rw [hgroup, hg] at hg'
    cases hg'
    rw [hdim, ← hlen] at hrows
    obtain ⟨w, hw, hwidth, hwpos, -, hnbytes, hbytes, -, helem⟩ := h.holds.row ht hm hrows
    rw [← hwidth]
    obtain ⟨hbase, hblen⟩ := h.base_reads hprev hm hw
    have hsmall := h.holds.small _ _ hm
    have hfit := ht.columnsFit h.holds h.reported hm hw
    have hmember : e.1 ∈ p.members := hp.members_eq ▸ mem_tensorsOwningGroup.mpr ⟨e.2, haxes, binding, hmem, hdim, hgroup⟩
    obtain ⟨hfew, hspelled⟩ := hindexed e.1 e.2 binding haxes hmem hdim hgroup
    have hmoved := adaptMembers_reads p.members (hp.members_eq ▸ tensorsOwningGroup_nodup _ _) hp.source_eq e.1 hmember
      hm hfit hrows (hblen.trans hnbytes) (hblen ▸ hsmall) hbase
    refine ⟨⟨hm, hw, hwpos, hrows, ht.blocks _ _ haxes _ hmem, by rw [hlen]; exact hfew, h.holds.reads _ _ _ hm hw,
      (h.holds.length _ _ hm).trans hnbytes, hblen.trans hnbytes, (h.holds.length _ _ hm) ▸ hsmall, helem, hfit.fits,
      fun _ => hmoved, fun hraw hid => ?_⟩, hbytes⟩
    rw [hlen] at hid ⊢
    exact hspelled hraw hid
  obtain ⟨view, hparse, hperm, hreads⟩ := @group_reads _ _ _ _ _ _ _ _ _ _ mOf
    (fun name => ((mOf name).shape.drop 1).prod * (mOf name).dtype.size) v.data prev.data
    (fun name => columnsOf t.topology v.report name (mOf name).shape (mOf name).dtype) ht.lossless h.holds.typed
    hp.encoded_eq (h.headers p.name g gm source hg hp.reported (hp.members_eq ▸ hp.source_eq)) hmatch.costRaw
    hmatch.costNormalized (hlen.symm ▸ hv) (hlen.symm ▸ hsize) hstorable hhops
  refine ⟨view, hparse, hperm, fun tensor htensor => ?_⟩
  rw [hp.members_eq] at htensor
  obtain ⟨axes, haxes, axis, haxis, hdim, hgroup⟩ := mem_tensorsOwningGroup.mp htensor
  have hbound : (dimZeroBinding p.name axes).isSome :=
    List.find?_isSome.mpr ⟨axis, haxis, decide_eq_true ⟨hdim, hgroup⟩⟩
  obtain ⟨diff, hdiff⟩ := hreads (tensor, axes) (FinMap.get?_eq_some.mp haxes) hbound
  obtain ⟨m, hm, -⟩ := ht.axis h.holds haxes
  rw [hmOf _ _ hm] at hdiff
  exact ⟨m, diff, hm, hdiff⟩

variable {plans : List GroupPlan} {kept : List String}

theorem mem_of_ownerOf {topology : Topology} {group owner : String} (h : ownerOf topology group = some owner) :
    owner ∈ tensorsOwningGroup topology group := by
  obtain ⟨e, he, rfl⟩ := Option.map_eq_some_iff.mp h
  have hfound := List.find?_some he
  obtain ⟨hany, -⟩ := of_decide_eq_true hfound
  refine List.mem_map.mpr ⟨e, List.mem_filter.mpr ⟨List.mem_of_find?_eq_some he, ?_⟩, rfl⟩
  exact hany

/-- Every tensor of the checkpoint has an entry. -/
theorem Commits.entry (h : t.Commits past v) (hspec : PlanSpec t.libs v.base v.source t.topology v.report
    (predecessorInfo past) t.cfg v.opts plans kept v.plan) {tensor : String} {m : TensorMeta}
    (hm : v.source.tensorMeta tensor = some m) : ∃ e, v.plan.entries.get? tensor = some e ∧
      v.manifest.findGroup tensor = some e := by
  obtain ⟨entry, hentry, rfl⟩ := h.holds.listed _ _ hm
  obtain ⟨e, he⟩ := Option.isSome_iff_exists.mp (hspec.layout entry hentry)
  refine ⟨e, he, ?_⟩
  show v.manifest.groups.get? _ = _
  rw [h.groups, he]

/-- The owner's artifact has the order that the planner moved columns by: it is a Delta, if columns moved. -/
theorem Commits.ownerPermutation_eq (ht : t.Valid) (h : t.Commits (prev :: past) v)
    (hprev : t.Sound (past.length + 1) prev) (haddr : t.Addressed v) (hspec : PlanSpec t.libs v.base v.source t.topology
      v.report (predecessorInfo (prev :: past)) t.cfg v.opts plans kept v.plan) {group owner : String}
    (howner : owner ∈ tensorsOwningGroup t.topology group)
    (honly : ∀ other, owner ∈ tensorsOwningGroup t.topology other → other = group)
    (hkept : groupIsEffectivelyIdentity t.topology v.report group = false →
      group ∈ kept ∧ ∃ q ∈ plans, q.name = group) :
    ownerPermutation t.libs t.blocks v.manifest owner = .ok (columnOrder t.topology v.report group) := by
  obtain ⟨axes, haxes, -⟩ := mem_tensorsOwningGroup.mp howner
  obtain ⟨m, hm, -⟩ := ht.axis h.holds haxes
  obtain ⟨e, he, hfind⟩ := h.entry hspec hm
  unfold ownerPermutation
  rw [hfind]
  dsimp only
  rcases hspec.entries owner e he with ⟨q, hq, hqk, hmem, hput, info, hinfo, rfl⟩ | ⟨⟨entry, -, -, bytes, -, -, rfl⟩, hfull⟩
  · obtain ⟨g, gm, source, hplanned⟩ := hspec.planned q hq
    obtain rfl : q.name = group := honly _ (hplanned.members_eq ▸ hmem)
    obtain ⟨view, hparse, hperm, -⟩ := h.artifact ht hprev haddr hplanned
    obtain ⟨hal, -⟩ := evidence_spec hplanned.evidence hplanned.reported
    have hmatch := h.reported _ g gm hplanned.group hplanned.reported hal
    refine bind_eq_ok.mpr ⟨_, (h.stored _ hput).1, bind_eq_ok.mpr ⟨view, hparse, ?_⟩⟩
    rw [hperm, hmatch.moved, columnOrder, effectivelyIdentity_of_evidence hplanned.evidence hplanned.reported,
      hplanned.reported]
    rfl
  · -- a Full owner names no order, and none is needed
    show Except.ok [] = _
    unfold columnOrder
    cases hmoves : groupIsEffectivelyIdentity t.topology v.report group with
    | true => rfl
    | false =>
      obtain ⟨hk, q, hq, hqn⟩ := hkept hmoves
      subst hqn
      obtain ⟨g, gm, source, hplanned⟩ := hspec.planned q hq
      exact absurd (hplanned.members_eq ▸ howner) (hfull q hq hk)

/-- Planner and reader name the same columns for a tensor of a kept plan. -/
theorem Commits.resolves (ht : t.Valid) (hres : t.Resolved) (h : t.Commits (prev :: past) v)
    (hprev : t.Sound (past.length + 1) prev) (haddr : t.Addressed v) (hspec : PlanSpec t.libs v.base v.source t.topology
      v.report (predecessorInfo (prev :: past)) t.cfg v.opts plans kept v.plan) {p : GroupPlan} (hp : p ∈ plans)
    (hk : p.name ∈ kept) {diff : TensorDiff} (htensor : diff.shapeName ∈ p.members) {m : TensorMeta}
    (hm : v.source.tensorMeta diff.shapeName = some m) (hshape : diff.shape = m.shape) (hdtype : diff.dtype = m.dtype) :
    resolveSecondaryPermutation t.libs t.blocks (t.ctx v.manifest) diff =
      .ok (columnsOf t.topology v.report diff.shapeName m.shape m.dtype) := by
  unfold resolveSecondaryPermutation columnsOf Timeline.ctx
  dsimp only
  cases hsec : (t.topology.tensors.get? diff.shapeName).bind secondaryBinding with
  | none => rfl
  | some secondary =>
    dsimp only
    obtain ⟨axes, haxes, hbind⟩ := Option.bind_eq_some_iff.mp hsec
    have hmem := List.mem_of_find?_eq_some hbind
    by_cases hpinned : (t.topology.findGroup secondary.group).any PermGroup.pinned = true
    · have hidentity : groupIsEffectivelyIdentity t.topology v.report secondary.group = true := if_pos hpinned
      have hstay : columnOrder t.topology v.report secondary.group = [] := if_pos hidentity
      rw [if_pos hpinned, hstay]
    · rw [if_neg hpinned]
      obtain ⟨owner, howner, honly⟩ := hres _ axes secondary haxes hbind (Bool.not_eq_true _ ▸ hpinned)
      obtain ⟨m', hm', haxis⟩ := ht.axis h.holds haxes
      cases hm.symm.trans hm'
      obtain ⟨g, hg, hlen⟩ := haxis secondary hmem
      -- what moves columns is encoded, and was kept with the plan
      have hkept : groupIsEffectivelyIdentity t.topology v.report secondary.group = false →
          secondary.group ∈ kept ∧ ∃ q ∈ plans, q.name = secondary.group := by
        intro hmoves
        obtain ⟨-, hev, -⟩ := moves_spec hmoves
        have hunpinned : g.pinned = false := by
          rw [hg] at hpinned
          exact Bool.not_eq_true _ ▸ hpinned
        have hcandidate := hspec.candidates (secondary.group, g) (FinMap.get?_eq_some.mp hg) hev
          (ht.owned _ g hg hunpinned)
        obtain ⟨g', gm', source, hplanned⟩ := hspec.planned p hp
        have hdep : secondary.group ∈ p.secondaryDeps := by
          rw [hplanned.deps_eq]
          refine List.mem_flatMap.mpr ⟨_, htensor, List.mem_map.mpr ⟨secondary, List.mem_filter.mpr ⟨?_, ?_⟩, rfl⟩⟩
          · rw [haxes]
            exact hmem
          · have hdim : secondary.dim ≠ 0 := by simpa using List.find?_some hbind
            exact decide_eq_true ⟨hdim, by rw [hmoves]; rfl⟩
        exact ⟨hspec.kept_closed p hp hk _ hdep hcandidate, hcandidate⟩
      rw [howner]
      dsimp only
      rw [h.ownerPermutation_eq ht hprev haddr hspec (mem_of_ownerOf howner) honly hkept]
      refine bind_eq_ok.mpr ⟨_, rfl, ?_⟩
      cases horder : columnOrder t.topology v.report secondary.group with
      | nil => rfl
      | cons i rest =>
        dsimp only
        obtain ⟨g', gm, source, hplanned⟩ := hspec.planned p hp
        obtain ⟨m', w, hm', hw⟩ := ht.member h.holds (hplanned.members_eq ▸ htensor)
        cases hm.symm.trans hm'
        have hle := (ht.columnsFit h.holds h.reported hm hw).columns_le hsec
        rw [horder] at hle
        rw [expandReserved_eq (hle.trans_lt (by decide)), hshape, hdtype]
        rfl

end

end Timeline

end SynapseFs.Store
