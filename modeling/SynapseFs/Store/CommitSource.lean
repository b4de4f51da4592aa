import SynapseFs.Codec.GroupReads
import SynapseFs.Format.StHeader
import SynapseFs.Store.ColumnConvention

/-! The base that a commit is planned against.

A committed checkpoint is read through its own delta chain; on top of it the planner
moves the columns of one tensor after the other. `columnsOf` says which columns that
are, and `adaptMembers_reads` that the encoder sees just those moved. -/
namespace SynapseFs.Store
open Lib Core Format Align SynapseFs.Codec

/-! ### A committed checkpoint as a source -/

/-- `CommitTensorSource`: the stored header's tensors, read with `read_range`. -/
def commitTensorSource (libs : Libs) (fuel : Nat) (header : StHeader) (ctx : ReadCtx) : TensorSource where
  bufferLayout := header.bufferLayout
  tensorMeta name := header.tensors.get? name
  readUnits name first count out :=
    match header.tensors.get? name with
    | none => sfsErr .tensorNotInBufferLayout "tensor not in base commit" name
    | some m => do
      let stride ← m.unitBytes 0
      let offset := u64 (first * stride)
      let want := u64 (count * stride)
      if out.length < want then sfsErr .internal "output buffer too small for requested units" name
      else
        let (n, bytes) ← readRange libs fuel ctx name offset (out.take want)
        return (n, bytes ++ out.drop want)

/-- A tensor that reads back is read by its rows. -/
theorem commitTensorSource_reads {libs : Libs} {fuel : Nat} {header : StHeader} {ctx : ReadCtx} {name : String}
    {m : TensorMeta} {w : Nat} {data : Bytes} (hm : header.tensors.get? name = some m) (hw : m.unitBytes 0 = .ok w)
    (hr : Reads (readRange libs fuel ctx name) data) (hmax : data.length < kMaxVector) :
    (commitTensorSource libs fuel header ctx).ReadsRows name data w := by
  intro first count out hle hout
  rw [Nat.add_mul] at hle
  unfold kMaxVector at hmax
  have hslice : (slice data (first * w) (count * w)).length = out.length := by
    rw [length_slice, hout]
    omega
  have hread := hr (first * w) out (by omega) (by unfold kMaxVector; omega)
  rw [hout, filled_of_length_eq hslice, hslice, hout] at hread
  unfold commitTensorSource
  dsimp only
  rw [hm]
  refine bind_eq_ok.mpr ⟨w, hw, ?_⟩
  rw [u64_of_lt (by omega), u64_of_lt (by omega), if_neg (by omega), ← hout, List.take_length, List.drop_length, hout]
  refine bind_eq_ok.mpr ⟨_, hread, ?_⟩
  show Except.ok _ = _
  rw [List.append_nil]

/-! ### Columns that stay -/

/-- Moving every column to its own place changes nothing. -/
theorem moveColumns_range {b : Bytes} {rows w cols u : Nat} (hb : b.length = rows * w) (hw : cols * u = w) :
    moveColumns b w rows (List.range cols) u = b := by
  have hrow : ∀ r ∈ List.range rows, units (unit b w r) u (List.range cols) = unit b w r := by
    intro r hr
    have hlen := length_unit b (row_le hb.ge (List.mem_range.mp hr))
    rw [List.range_eq_range', units_range', Nat.zero_mul, hw]
    exact (congrArg (slice (unit b w r) 0) hlen.symm).trans (slice_full _)
  have hall : (List.range rows).flatMap (fun r => unit b w r) = b := by
    have := units_range' b w 0 rows
    rw [units, ← List.range_eq_range', Nat.zero_mul, ← hb, slice_full] at this
    exact this
  rw [moveColumns, List.flatMap_congr hrow, hall]

/-! ### Columns that move -/

/-- The order that columns move by with a group: nothing, if they stay. -/
def columnOrder (topo : Topology) (report : MatchReport) (group : String) : List Nat :=
  if groupIsEffectivelyIdentity topo report group then []
  else materialised ((report.groups.get? group).elim [] GroupMatch.permutation)

/-- The columns that the planner moves for a tensor, as the reader will name them. -/
def columnsOf (topo : Topology) (report : MatchReport) (name : String) (shape : List Nat) (dtype : DType) :
    SecondaryAxis :=
  match (topo.tensors.get? name).bind secondaryBinding with
  | none => ⟨[], 0⟩
  | some secondary =>
    match columnOrder topo report secondary.group with
    | [] => ⟨[], 0⟩
    | perm => ⟨expand perm secondary.block, secondaryUnitBytes shape secondary.dim dtype⟩

section
variable {topo : Topology} {report : MatchReport} {group name : String}

/-- Columns that move do so by the group's match. -/
theorem columnOrder_moved (h : columnOrder topo report group ≠ []) :
    groupIsEffectivelyIdentity topo report group = false ∧
      ∀ gm, report.groups.get? group = some gm → columnOrder topo report group = gm.permutation := by
  unfold columnOrder at h ⊢
  split at h
  · exact absurd rfl h
  · next hmoves =>
    refine ⟨Bool.not_eq_true _ ▸ hmoves, fun gm hgm => ?_⟩
    rw [hgm] at h ⊢
    dsimp only [Option.elim_some] at h ⊢
    rw [if_neg hmoves]
    exact materialised_moved fun hid => h (materialised_range hid)

/-- Columns that stay do so for a match with the identity. -/
theorem columnOrder_stays (hmoves : groupIsEffectivelyIdentity topo report group = false) {gm : GroupMatch}
    (hgm : report.groups.get? group = some gm) (h : columnOrder topo report group = []) :
    gm.permutation = List.range gm.permutation.length := by
  unfold columnOrder at h
  rw [hmoves, if_neg Bool.false_ne_true, hgm] at h
  by_contra hne
  have hnil : gm.permutation = [] := (materialised_moved hne).symm.trans h
  exact hne (by rw [hnil]; rfl)

theorem columnsOf_stay {shape : List Nat} {dtype : DType} (h : ∀ secondary,
    (topo.tensors.get? name).bind secondaryBinding = some secondary → columnOrder topo report secondary.group = []) :
    columnsOf topo report name shape dtype = ⟨[], 0⟩ := by
  unfold columnsOf
  split
  · rfl
  · next secondary hsec => rw [h secondary hsec]

theorem columnsOf_move {shape : List Nat} {dtype : DType} {secondary : AxisBinding}
    (hsec : (topo.tensors.get? name).bind secondaryBinding = some secondary)
    (h : columnOrder topo report secondary.group ≠ []) : columnsOf topo report name shape dtype =
      ⟨expand (columnOrder topo report secondary.group) secondary.block,
        secondaryUnitBytes shape secondary.dim dtype⟩ := by
  unfold columnsOf
  rw [hsec]
  dsimp only
  split
  · next hnil => exact absurd hnil h
  · rfl

end

/-- A moved axis of the tensor is dim 1, as long as its group, in rows of less than `2 ^ 32` bytes. -/
structure ColumnsFit (topo : Topology) (report : MatchReport) (name : String) (m : TensorMeta) (w : Nat) : Prop where
  rowBytes : w < 2 ^ 32
  axis : ∀ secondary, (topo.tensors.get? name).bind secondaryBinding = some secondary →
    groupIsEffectivelyIdentity topo report secondary.group = false →
    ∃ gm, report.groups.get? secondary.group = some gm ∧ ∃ axis : ColumnAxis, secondary.dim = 1 ∧
      axis.block = secondary.block ∧ axis.perm = gm.permutation ∧ axis.shape = m.shape ∧ axis.dtype = m.dtype ∧
      axis.rowBytes = w ∧ 0 < w

section
variable {topo : Topology} {report : MatchReport} {name : String} {m : TensorMeta} {w : Nat}

theorem columns_rows {axis : ColumnAxis} (hpos : 0 < axis.rowBytes) (hlt : axis.rowBytes < 2 ^ 32) :
    axis.secondary.perm.length * axis.secondary.unitBytes = axis.rowBytes ∧ axis.size * axis.block ≤ 2 ^ 32 := by
  have hcols : 0 < axis.size * axis.block := Nat.pos_of_ne_zero fun h0 => by
    rw [axis.rowBytes_eq, h0, Nat.zero_mul] at hpos
    omega
  have hunit : 0 < axis.trailing.prod * axis.dtype.size := Nat.pos_of_ne_zero fun h0 => by
    rw [axis.rowBytes_eq, h0, Nat.mul_zero] at hpos
    omega
  rw [axis.rowBytes_eq] at hlt
  refine ⟨ColumnAxis.row_of_fits (.inr ?_), ?_⟩
  · exact (Nat.le_mul_of_pos_left _ hcols).trans_lt hlt
  · exact (Nat.le_mul_of_pos_right _ hunit).trans hlt.le

/-- The columns of a fitting tensor fit its rows. -/
theorem ColumnsFit.fits (h : ColumnsFit topo report name m w) : (columnsOf topo report name m.shape m.dtype).Fits w := by
  unfold columnsOf
  split
  · exact fun hne => absurd rfl hne
  · next secondary hsec =>
    split
    · exact fun hne => absurd rfl hne
    · next hne =>
      obtain ⟨hmoves, horder⟩ := columnOrder_moved hne
      obtain ⟨gm, hgm, axis, hdim, hblock, hperm, hshape, hdtype, hrow, hpos⟩ := h.axis secondary hsec hmoves
      obtain ⟨hwidth, -⟩ := @columns_rows axis (hrow ▸ hpos) (hrow ▸ h.rowBytes)
      rw [horder gm hgm, ← hperm, ← hblock, ← hshape, ← hdtype, hdim]
      exact fun _ => ⟨axis.secondary_lt, hwidth.trans hrow⟩

/-- Their number has 32 bits. -/
theorem ColumnsFit.columns_le (h : ColumnsFit topo report name m w) {secondary : AxisBinding}
    (hsec : (topo.tensors.get? name).bind secondaryBinding = some secondary) :
    (columnOrder topo report secondary.group).length * secondary.block ≤ 2 ^ 32 := by
  by_cases horder : columnOrder topo report secondary.group = []
  · rw [horder, List.length_nil, Nat.zero_mul]
    exact Nat.zero_le _
  · obtain ⟨hmoves, hperm⟩ := columnOrder_moved horder
    obtain ⟨gm, hgm, axis, -, hblock, haxis, -, -, hrow, hpos⟩ := h.axis secondary hsec hmoves
    obtain ⟨-, hle⟩ := @columns_rows axis (hrow ▸ hpos) (hrow ▸ h.rowBytes)
    rw [hperm gm hgm, ← haxis, axis.length_perm, ← hblock]
    exact hle

/-- The planner's view of a tensor reads the base rows with `columnsOf` moved, and the view of any other as before. -/
theorem adaptMember_reads {target src src' : TensorSource} {tensor : String}
    (h : adaptMember target topo report src tensor = .ok src') :
    (∀ other, other ≠ tensor → src'.readUnits other = src.readUnits other) ∧
    ∀ {m w rows} {base : Bytes}, target.tensorMeta tensor = some m → ColumnsFit topo report tensor m w →
      m.shape[0]? = some rows → base.length = rows * w → base.length < kMaxVector → src.ReadsRows tensor base w →
      src'.ReadsRows tensor (movedColumns base w rows (columnsOf topo report tensor m.shape m.dtype)) w := by
  have hother : ∀ other, other ≠ tensor → src'.readUnits other = src.readUnits other := by
    intro other hne
    unfold adaptMember at h
    split at h
    · cases h
      rfl
    · split at h
      · cases h
        rfl
      · obtain ⟨gm, -, h⟩ := bind_eq_ok.mp h
        split at h
        · exact absurd h sfsErr_ne_ok
        · cases h
          funext first count out
          exact if_pos hne
  refine ⟨hother, fun {m w rows base} hm hfit hrows hbase hmax hr => ?_⟩
  cases hsec : (topo.tensors.get? tensor).bind secondaryBinding with
  | none =>
    unfold adaptMember at h
    rw [hsec] at h
    cases h
    rw [columnsOf_stay fun secondary hsome => by rw [hsec] at hsome; cases hsome]
    exact hr
  | some secondary =>
    by_cases hidentity : groupIsEffectivelyIdentity topo report secondary.group = true
    · unfold adaptMember at h
      rw [hsec] at h
      dsimp only at h
      rw [if_pos hidentity] at h
      cases h
      have hstay : columnOrder topo report secondary.group = [] := if_pos hidentity
      rw [columnsOf_stay fun other hsome => by rw [hsec] at hsome; cases hsome; exact hstay]
      exact hr
    · have hmoves := Bool.not_eq_true _ ▸ hidentity
      obtain ⟨gm, hgm, axis, hdim, hblock, hperm, hshape, hdtype, hrow, hpos⟩ := hfit.axis secondary hsec hmoves
      obtain ⟨axes, haxes, hbind⟩ := Option.bind_eq_some_iff.mp hsec
      have hsec' : secondaryBinding axes = some ⟨1, secondary.group, axis.block⟩ := by
        rw [hbind, hblock, ← hdim]
      cases (adaptMember_moving haxes hsec' hmoves hgm hperm.symm hm hshape.symm hdtype.symm).symm.trans h
      obtain ⟨hwidth, hcols⟩ := @columns_rows axis (hrow ▸ hpos) (hrow ▸ hfit.rowBytes)
      have hrows' : axis.rows = rows := by
        rw [← hshape] at hrows
        exact Option.some.inj hrows
      have hbase' : base.length = axis.rows * axis.rowBytes := by rw [hbase, hrows', hrow]
      have hreads := ColumnAxis.moving_reads hbase' hmax (hrow ▸ hr) hwidth
      rw [hrow] at hreads
      have hmoved : axis.moved base = movedColumns base w rows (columnsOf topo report tensor m.shape m.dtype) := by
        by_cases horder : columnOrder topo report secondary.group = []
        · -- a bijection that moves nothing
          have hid := columnOrder_stays hmoves hgm horder
          rw [← hperm, axis.length_perm] at hid
          have hsame : axis.secondary.perm = List.range (axis.size * axis.block) := by
            show expand axis.perm axis.block = _
            rw [hid]
            exact expandPermutation_range _ _ hcols
          rw [columnsOf_stay fun other hsome => by rw [hsec] at hsome; cases hsome; exact horder, ColumnAxis.moved, hsame]
          refine moveColumns_range hbase' ?_
          rw [← axis.length_secondary]
          exact hwidth
        · have hcolumns : columnsOf topo report tensor m.shape m.dtype = axis.secondary := by
            rw [columnsOf_move hsec horder, (columnOrder_moved horder).2 gm hgm, ← hperm, ← hblock, ← hshape, ← hdtype,
              hdim]
            rfl
          rw [hcolumns, ColumnAxis.moved, hrow, hrows']
          unfold movedColumns
          split
          · next hnil =>
            rw [hnil, List.length_nil, Nat.zero_mul] at hwidth
            omega
          · rfl
      rw [← hmoved]
      exact hreads

/-- All the members' views together: the columns of members have moved, other tensors are as they were. -/
theorem adaptMembers_reads {target : TensorSource} (members : List String) (hnodup : members.Nodup) :
    ∀ {src source : TensorSource}, members.foldlM (adaptMember target topo report) src = .ok source →
    ∀ tensor ∈ members, ∀ {m w rows} {base : Bytes}, target.tensorMeta tensor = some m →
      ColumnsFit topo report tensor m w → m.shape[0]? = some rows → base.length = rows * w →
      base.length < kMaxVector → src.ReadsRows tensor base w →
      source.ReadsRows tensor (movedColumns base w rows (columnsOf topo report tensor m.shape m.dtype)) w := by
  -- a tensor that is no member is read as before
  have hkeep : ∀ (members : List String) (src source : TensorSource) (tensor : String), tensor ∉ members →
      members.foldlM (adaptMember target topo report) src = .ok source →
      source.readUnits tensor = src.readUnits tensor := by
    intro members src source tensor hnot h
    refine @foldlM_invariant _ _ _ (fun s : TensorSource => s.readUnits tensor = src.readUnits tensor) _ _ _ ?_ rfl h
    intro s member hmem s' hs hstep
    refine ((adaptMember_reads hstep).1 tensor ?_).trans hs
    rintro rfl
    exact hnot hmem
  induction members with
  | nil =>
    intro src source _ tensor htensor
    cases htensor
  | cons member rest ih =>
    intro src source h tensor htensor m w rows base hm hfit hrows hbase hmax hr
    obtain ⟨hnot, hrest⟩ := List.nodup_cons.mp hnodup
    rw [List.foldlM_cons] at h
    obtain ⟨mid, hmid, hfold⟩ := bind_eq_ok.mp h
    rcases List.mem_cons.mp htensor with rfl | hmem
    · have hmoved := (adaptMember_reads hmid).2 hm hfit hrows hbase hmax hr
      have hsame := hkeep rest mid source tensor hnot hfold
      intro first count out hle hout
      rw [hsame]
      exact hmoved first count out hle hout
    · refine ih hrest hfold tensor hmem hm hfit hrows hbase hmax fun first count out hle hout => ?_
      have hne : tensor ≠ member := by
        rintro rfl
        exact hnot hmem
      rw [(adaptMember_reads hmid).1 tensor hne]
      exact hr first count out hle hout

end

end SynapseFs.Store
