import SynapseFs.Codec.Artifact
import SynapseFs.Codec.GatherRuns

/-! One link of a chain: an artifact that `encode_group` wrote, read over its base.

The writer gathers rows whose columns have moved, by the expanded permutation. The
reader takes the permutation from the payload, gathers, and moves the columns last.
`group_reads` puts one against the other: over bases that read back, every tensor of
the artifact reads as its target. -/
namespace SynapseFs.Codec
open Lib Core Format

/-! ### The permutation in front of the payload -/

/-- The payload only grows, so the permutation stays at its front. -/
theorem payload_grows {libs : Libs} {opts : EncodeOptions} {base target : TensorSource} {group : String}
    {order : List Nat} {entries : List (String × List AxisBinding)} {front : Bytes} {s : EncodeState}
    (h : entries.foldlM (encodeBound libs opts base target group order) ⟨front, 0, []⟩ = .ok s) :
    ∃ more, s.payload = front ++ more := by
  refine @foldlM_invariant _ _ _ (fun s : EncodeState => ∃ more, s.payload = front ++ more) _ _ _ ?_
    ⟨[], (List.append_nil front).symm⟩ h
  rintro s entry - s' ⟨more, hmore⟩ hstep
  unfold encodeBound at hstep
  split at hstep
  · cases hstep
    exact ⟨more, hmore⟩
  · unfold encodeTensor at hstep
    split at hstep
    · exact absurd hstep sfsErr_ne_ok
    · obtain ⟨w, -, hstep⟩ := bind_eq_ok.mp hstep
      dsimp only at hstep
      split at hstep
      · exact absurd hstep sfsErr_ne_ok
      · obtain ⟨fs, hfold, hstep⟩ := bind_eq_ok.mp hstep
        obtain ⟨_, -, hstep⟩ := bind_eq_ok.mp hstep
        cases hstep
        refine @foldlM_invariant _ _ _ (fun fs : FrameState => ∃ more, fs.payload = front ++ more) _ _ _ ?_
          ⟨more, hmore⟩ hfold
        rintro fs range - fs' ⟨more, hmore⟩ hframe
        obtain ⟨_, -, hframe⟩ := bind_eq_ok.mp hframe
        obtain ⟨_, -, hframe⟩ := bind_eq_ok.mp hframe
        obtain ⟨comp, -, hframe⟩ := bind_eq_ok.mp hframe
        cases hframe
        exact ⟨more ++ comp, by rw [hmore, List.append_assoc]⟩

/-- The permutation in front of a payload has two or four bytes for each index. -/
theorem length_writePermutation {payload out : Bytes} {order : List Nat} {ref : PermutationRef}
    (h : writePermutation payload order = .ok (ref, out)) : out.length ≤ payload.length + 2 ^ 34 := by
  obtain ⟨id, -, h⟩ := bind_eq_ok.mp h
  cases id with
  | true =>
    cases h
    exact Nat.le_add_right _ _
  | false =>
    cases h
    generalize hwidth : (if u32 order.length ≤ 65536 then 2 else 4) = width
    have hle : width ≤ 4 := by
      rw [← hwidth]
      split <;> omega
    have hn := u32_lt order.length
    have hregion : u32 order.length * width ≤ 2 ^ 32 * 4 := Nat.mul_le_mul hn.le hle
    have hlen : (storeIndices (List.replicate (u32 order.length * width) 0) width (u32 order.length) order).length =
        u32 order.length * width := by
      unfold storeIndices
      refine List.foldlRecOn (motive := fun r : Bytes => r.length = u32 order.length * width) _ _
        List.length_replicate fun r hr i hi => ?_
      have hi := List.mem_range.mp hi
      have hlast : i * width + width ≤ u32 order.length * width := by
        rw [← Nat.succ_mul]
        exact Nat.mul_le_mul_right _ hi
      have hwrap : u32 (i * width) ≤ i * width := Nat.mod_le _ _
      rw [length_overwrite, hr]
      rw [length_storeLe, hr]
      omega
    rw [List.length_append, hlen]
    omega

/-- What the reader makes of the permutation: nothing of the identity. -/
def expandedOrder (order : List Nat) (block : Nat) : List Nat := expand (materialised order) block

/-- An order whose indices are addressed without wraparound. -/
def Storable (order : List Nat) : Prop := order = List.range order.length ∨ order.length ≤ 2 ^ 30

section
variable {order : List Nat}

theorem materialised_range (h : order = List.range order.length) : materialised order = [] := if_pos h

theorem materialised_moved (h : order ≠ List.range order.length) : materialised order = order := if_neg h

theorem expandedOrder_range (h : order = List.range order.length) (block : Nat) : expandedOrder order block = [] := by
  rw [expandedOrder, materialised_range h]
  rfl

/-- Written and read: the permutation, and its expansion for an axis. -/
theorem readOrder_written (hv : isValidPermutation order order.length = true) (hn : order.length < 2 ^ 32)
    (hs : Storable order) {ref : PermutationRef} {front : Bytes} (hw : writePermutation [] order = .ok (ref, front))
    (more : Bytes) : readPermutation ref.stored (front ++ more) = .ok (materialised order) ∧
      ∀ (header : DiffHeader) (name : String) (block : Nat), header.permutation = ref.stored → 0 < order.length →
        block < 2 ^ 32 → order.length * block < 2 ^ 61 →
        expandedFor header (front ++ more) name (order.length * block) = .ok (expandedOrder order block) := by
  by_cases hid : order = List.range order.length
  · have hw' := writePermutation_identity [] hn
    rw [← hid] at hw'
    cases hw'.symm.trans hw
    refine ⟨by rw [materialised_range hid]; rfl, fun header name block hp _ _ _ => ?_⟩
    unfold expandedFor
    rw [hp, expandedOrder_range hid]
    rfl
  · obtain ⟨indices, hw', hindices⟩ := writePermutation_explicit [] hn hid
    have hle := hs.resolve_left hid
    cases hw'.symm.trans hw
    rw [hindices hle]
    have hread := readPermutation_written [] hv hle more
    refine ⟨by rw [materialised_moved hid]; exact hread, fun header name block hp hpos hblock hsize => ?_⟩
    have hnum : header.permutation.n = order.length := by rw [hp]; rfl
    have hkind : header.permutation.kind = .explicit := by rw [hp]; rfl
    unfold expandedFor
    rw [hkind]
    refine bind_eq_ok.mpr ⟨order, by rw [hp]; exact hread, ?_⟩
    rw [hnum, if_neg (by rw [not_or, not_not]; exact ⟨hpos.ne', Nat.mul_mod_right _ _⟩), Nat.mul_div_cancel_left _ hpos,
      u32_of_lt hblock, expandReserved_eq hsize, expandedOrder, materialised_moved hid]

end

/-! ### The artifact -/

/-- Header and payload of an artifact, as the reader finds them. -/
structure ArtifactReads (libs : Libs) (order : List Nat) (artifact : Bytes) (s : EncodeState) (view : DiffArtifactView) :
    Prop where
  parsed : parseDiffArtifact libs.json artifact = .ok view
  payload_eq : view.payload = s.payload
  tensors_eq : view.header.tensors = s.tensors
  small : s.payload.length < kMaxVector
  permutation : readPermutation view.header.permutation view.payload = .ok (materialised order)
  expanded : ∀ (name : String) (block : Nat), 0 < order.length → block < 2 ^ 32 → order.length * block < 2 ^ 61 →
    expandedFor view.header view.payload name (order.length * block) = .ok (expandedOrder order block)

/-- The JSON library reads back the header that is written for a group, and no value from an empty text. -/
structure HeaderReads (libs : Libs) (base target : TensorSource) (topology : Topology) (group : String)
    (order : List Nat) (alignable : Bool) (alignment : AlignmentInfo) (opts : EncodeOptions) : Prop where
  empty : ∀ v, libs.json.parse [] ≠ .ok v
  header : ∀ header s, groupHeader libs base target topology group order alignable alignment opts = .ok (header, s) →
    libs.json.parse (libs.json.dump header.toJson) = .ok header.toJson

section
variable {libs : Libs} {opts : EncodeOptions} {source target : TensorSource} {topology : Topology} {group : String}
  {order : List Nat} {alignable : Bool} {alignment : AlignmentInfo} {result : EncodeResult}

theorem artifact_reads (htyped : target.Typed)
    (hdone : encodeGroup libs source target topology group order alignable alignment opts = .ok result)
    (hjson : HeaderReads libs source target topology group order alignable alignment opts)
    (hraw : (Json.f64Trunc alignment.costRaw).isSome) (hnorm : (Json.f64Trunc alignment.costNormalized).isSome)
    (hv : isValidPermutation order order.length = true) (hn : order.length < 2 ^ 32) (hs : Storable order) :
    ∃ ref front s view, writePermutation [] order = .ok (ref, front) ∧
      topology.tensors.entries.foldlM (encodeBound libs opts source target group order) ⟨front, 0, []⟩ = .ok s ∧
      ArtifactReads libs order result.artifact s view := by
  obtain ⟨header, s, hbuilt, hsize, rfl⟩ := encodeGroup_ok hdone
  obtain ⟨ref, front, hw, hfold, hheader⟩ := groupHeader_ok hbuilt
  obtain ⟨more, hmore⟩ := payload_grows hfold
  have hback := (readsBack_iff htyped hbuilt hdone hraw hnorm hjson.empty (hjson.header header s hbuilt) hsize [] hv hn).mpr hs
  have hheader' := withoutIdentityN_built hbuilt
  have hstored : (withoutIdentityN header).permutation = ref.stored := by rw [hheader', hheader]
  have htensors : (withoutIdentityN header).tensors = s.tensors := by rw [hheader', hheader]
  obtain ⟨hread, hexp⟩ := readOrder_written hv hn hs hw more
  rw [← hmore] at hread hexp
  refine ⟨ref, front, s, _, hw, hfold, hback.artifact, rfl, htensors, by omega, ?_, fun name block => ?_⟩
  · dsimp only
    rw [hstored]
    exact hread
  · exact hexp _ name block hstored

end

/-! ### One tensor -/

/-- What writer and reader have of one tensor: rows of one width on either side, and
a source that reads the base rows with their columns moved. A raw residual reads no base. -/
structure Hop (opts : EncodeOptions) (source target : TensorSource) (order : List Nat) (name : String) (block : Nat)
    (m : TensorMeta) (w : Nat) (data base : Bytes) (secondary : SecondaryAxis) : Prop where
  meta_eq : target.tensorMeta name = some m
  unitBytes_eq : m.unitBytes 0 = .ok w
  width_pos : 0 < w
  rows : m.shape[0]? = some (order.length * block)
  block_lt : block < 2 ^ 32
  rows_lt : order.length * block < 2 ^ 61
  reads : target.ReadsRows name data w
  length_data : data.length = order.length * block * w
  length_base : base.length = order.length * block * w
  small : data.length < kMaxVector
  elements : w % m.dtype.size = 0
  fits : secondary.Fits w
  moved : opts.residual ≠ .raw → source.ReadsRows name (movedColumns base w (order.length * block) secondary) w
  /-- The writer expands the identity as well, to indices of 32 bits. -/
  indexed : opts.residual ≠ .raw → order = List.range order.length → order.length * block ≤ 2 ^ 32

section
variable {opts : EncodeOptions} {source target : TensorSource} {order : List Nat} {name : String} {block : Nat}
  {m : TensorMeta} {w : Nat} {data base : Bytes} {secondary : SecondaryAxis}

/-- The rows that the reader gathers and moves. -/
def hopRows (order : List Nat) (block w : Nat) (base : Bytes) (secondary : SecondaryAxis) : Bytes :=
  movedColumns (gatheredRows base w (expandedOrder order block)) w (order.length * block) secondary

theorem Hop.order_pos (h : Hop opts source target order name block m w data base secondary) :
    0 < order.length * block := by
  obtain ⟨units, hu, hpos, -⟩ := TensorMeta.unitBytes_eq_ok h.unitBytes_eq
  cases h.rows.symm.trans hu
  exact hpos

/-- An expanded index is a row, and has 32 bits. -/
theorem expand_index {order : List Nat} (hlt : ∀ p ∈ order, p < order.length) (block : Nat) :
    ∀ q ∈ expand order block, q < order.length * block ∧ q < 2 ^ 32 := by
  intro q hq
  refine ⟨expand_lt hlt q hq, ?_⟩
  obtain ⟨p, -, hq⟩ := List.mem_flatMap.mp hq
  obtain ⟨b, -, rfl⟩ := List.mem_map.mp hq
  exact u32_lt _

theorem expandedOrder_index (hlt : ∀ p ∈ order, p < order.length) (block : Nat) :
    (∀ q ∈ expandedOrder order block, q < order.length * block ∧ q < 2 ^ 32) ∧
      (expandedOrder order block = [] ∨ (expandedOrder order block).length = order.length * block) := by
  by_cases hid : order = List.range order.length
  · rw [expandedOrder_range hid]
    exact ⟨nofun, .inl rfl⟩
  · rw [expandedOrder, materialised_moved hid]
    exact ⟨expand_index hlt block, .inr (length_expandPermutation _ _)⟩

/-- Rows first or columns first: the gathered rows with their columns moved. -/
theorem units_movedColumns {b : Bytes} {rows : Nat} (hs : secondary.Fits w) (hb : b.length = rows * w) (idx : List Nat)
    (hidx : ∀ i ∈ idx, i < rows) :
    units (movedColumns b w rows secondary) w idx = movedColumns (units b w idx) w idx.length secondary := by
  unfold movedColumns
  cases hp : secondary.perm with
  | nil => rfl
  | cons p rest =>
    obtain ⟨hlt, hw⟩ := hs (by rw [hp]; exact nofun)
    rw [hp] at hlt hw
    exact units_moveColumns hlt hw hb.ge idx hidx

/-- What the writer gathers are the reader's rows. -/
theorem Hop.gathers (h : Hop opts source target order name block m w data base secondary)
    (hlt : ∀ p ∈ order, p < order.length) (hraw : opts.residual ≠ .raw) {a count : Nat}
    (hle : a + count ≤ order.length * block) :
    gatherBaseUnits source name (expand order block) a count w =
      .ok (slice (hopRows order block w base secondary) (a * w) (count * w)) := by
  have hlen : (expand order block).length = order.length * block := length_expandPermutation _ _
  have hindex := expand_index hlt block
  have hmoved := length_movedColumns h.fits h.length_base
  have hgather := gatherBaseUnits_eq (h.moved hraw) (hlen ▸ hle) (fun q hq => lt_min (hindex q hq).1 (hindex q hq).2)
    (min_le_right _ _) ((Nat.mul_le_mul_right w (min_le_left _ _)).trans hmoved.ge)
  rw [hgather]
  congr 1
  by_cases hid : order = List.range order.length
  · -- the identity, which the writer spells out
    have hspelled : expand order block = List.range (order.length * block) := by
      conv_lhs => rw [hid]
      exact expandPermutation_range _ _ (h.indexed hraw hid)
    have hslice : slice (List.range (order.length * block)) a count = List.range' a count := by
      refine List.ext_getElem (by simp; omega) fun i hi hi' => ?_
      simp [slice]
    rw [hspelled, hslice, units_range', hopRows, expandedOrder_range hid]
    rfl
  · have hcons : ∀ b : Bytes, gatheredRows b w (expand order block) = units b w (expand order block) := by
      intro b
      cases he : expand order block with
      | nil =>
        rw [he, List.length_nil] at hlen
        have := h.order_pos
        omega
      | cons q rest => rfl
    rw [hopRows, expandedOrder, materialised_moved hid, hcons, ← hlen,
      ← units_movedColumns h.fits (hlen.symm ▸ h.length_base) _ (fun q hq => hlen.symm ▸ (hindex q hq).1), hlen]
    refine slice_units _ (index_le (fun q hq => (hindex q hq).1) hmoved) (hlen.symm ▸ hle)

theorem Hop.encodable (h : Hop opts source target order name block m w data base secondary)
    (hlt : ∀ p ∈ order, p < order.length) :
    Encodable opts source target order name block m w data (hopRows order block w base secondary) where
  meta_eq := h.meta_eq
  unitBytes_eq := h.unitBytes_eq
  rows := h.rows
  reads := h.reads
  length_data := h.length_data
  length_gathered := by
    obtain ⟨hidx, hlen⟩ := expandedOrder_index hlt block
    exact length_movedColumns h.fits (length_gatheredRows (fun p hp => (hidx p hp).1) hlen h.length_base)
  elements := h.elements
  gathers := fun hraw _ _ hle => h.gathers hlt hraw hle

/-- A tensor of the artifact, read over a base that reads back. -/
theorem Hop.tensor_reads {libs : Libs} {artifact : Bytes} {s : EncodeState} {view : DiffArtifactView} {t : TensorDiff}
    (h : Hop opts source target order name block m w data base secondary) (hlt : ∀ p ∈ order, p < order.length)
    (hview : ArtifactReads libs order artifact s view)
    (ht : TensorHolds libs opts name m w (order.length * block) data (hopRows order block w base secondary) s.payload t)
    (hbytes : tensorBytes m.shape m.dtype = order.length * block * w) {blocks : BlockReads} {ctx : ReadCtx}
    {readBase : BaseRead} (hbase : Reads readBase base)
    (hsec : resolveSecondaryPermutation libs blocks ctx t = .ok secondary) (baseName : String) :
    Reads (readTensorRange libs blocks ctx readBase view.header view.payload t baseName) data := by
  obtain ⟨hidx, hlen⟩ := expandedOrder_index hlt block
  have henc := h.encodable hlt
  have hpos := h.order_pos
  have hsmall := h.small
  rw [h.length_data] at hsmall
  have hwle : w ≤ order.length * block * w := Nat.le_mul_of_pos_left w hpos
  have hwidth : secondary.perm ≠ [] → w = u64 (secondary.perm.length * secondary.unitBytes) := fun hne => by
    rw [(h.fits hne).2, u64_of_lt]
    unfold kMaxVector at hsmall
    omega
  rw [← hview.payload_eq] at ht
  refine readTensorRange_reads ht hpos h.width_pos hbytes (hview.expanded name block (Nat.pos_of_mul_pos_right hpos)
    h.block_lt h.rows_lt) hsec hwidth (fun first last hlt hlast => ?_) h.length_data henc.length_gathered h.elements
    hsmall (hview.payload_eq ▸ hview.small)
  exact baseFrame_eq hbase baseName hidx hlen h.fits h.length_base (h.length_base ▸ hsmall) h.width_pos hlt hlast

end

/-! ### The group -/

section
variable {libs : Libs} {opts : EncodeOptions} {source target : TensorSource} {topology : Topology} {group : String}
  {order : List Nat} {alignable : Bool} {alignment : AlignmentInfo} {result : EncodeResult} {m : String → TensorMeta}
  {w : String → Nat} {data base : String → Bytes} {secondary : String → SecondaryAxis}

/-- The tensor's part of an artifact: what the header says of it, and that it reads over any base that does. -/
structure TensorReads (libs : Libs) (view : DiffArtifactView) (name : String) (m : TensorMeta) (data base : Bytes)
    (secondary : SecondaryAxis) (t : TensorDiff) : Prop where
  found : view.header.tensors.find? (fun t => t.shapeName = name) = some t
  name_eq : t.shapeName = name
  shape_eq : t.shape = m.shape
  dtype_eq : t.dtype = m.dtype
  reads : ∀ {blocks : BlockReads} {ctx : ReadCtx} {readBase : BaseRead}, Reads readBase base →
    resolveSecondaryPermutation libs blocks ctx t = .ok secondary → ∀ baseName : String,
    Reads (readTensorRange libs blocks ctx readBase view.header view.payload t baseName) data

/-- The rule for one link: the artifact of a group comes apart, and each of its tensors reads over its base. -/
theorem group_reads (hz : libs.zstd.Lossless) (htyped : target.Typed)
    (hdone : encodeGroup libs source target topology group order alignable alignment opts = .ok result)
    (hjson : HeaderReads libs source target topology group order alignable alignment opts)
    (hraw : (Json.f64Trunc alignment.costRaw).isSome) (hnorm : (Json.f64Trunc alignment.costNormalized).isSome)
    (hv : isValidPermutation order order.length = true) (hn : order.length < 2 ^ 32) (hs : Storable order)
    (hhops : ∀ e ∈ topology.tensors.entries, ∀ binding, dimZeroBinding group e.2 = some binding →
      Hop opts source target order e.1 binding.block (m e.1) (w e.1) (data e.1) (base e.1) (secondary e.1) ∧
        tensorBytes (m e.1).shape (m e.1).dtype = order.length * binding.block * w e.1) :
    ∃ view, parseDiffArtifact libs.json result.artifact = .ok view ∧
      readPermutation view.header.permutation view.payload = .ok (materialised order) ∧
      ∀ e ∈ topology.tensors.entries, (dimZeroBinding group e.2).isSome →
        ∃ t, TensorReads libs view e.1 (m e.1) (data e.1) (base e.1) (secondary e.1) t := by
  obtain ⟨-, hlt, -⟩ := isValidPermutation_iff.mp hv
  obtain ⟨ref, front, s, view, hw, hfold, hview⟩ := artifact_reads htyped hdone hjson hraw hnorm hv hn hs
  refine ⟨view, hview.parsed, hview.permutation, fun e he hbound => ?_⟩
  -- the rows of one tensor do not depend on the axis it is bound by, so they are chosen by name
  have hrows : ∃ gathered : String → Bytes, ∀ e ∈ topology.tensors.entries, ∀ binding,
      dimZeroBinding group e.2 = some binding →
        gathered e.1 = hopRows order binding.block (w e.1) (base e.1) (secondary e.1) := by
    refine ⟨fun name => ((topology.tensors.get? name).bind (dimZeroBinding group)).elim [] fun binding =>
      hopRows order binding.block (w name) (base name) (secondary name), fun e he binding hb => ?_⟩
    have hget : topology.tensors.get? e.1 = some e.2 := FinMap.get?_eq_some.mpr he
    dsimp only
    rw [hget, Option.bind_some, hb, Option.elim_some]
  obtain ⟨gathered, hgathered⟩ := hrows
  have henc : GroupEncodable opts source target group order m w data gathered topology.tensors.entries := by
    intro e he binding hb
    rw [hgathered e he binding hb]
    exact (hhops e he binding hb).1.encodable hlt
  obtain ⟨more, tensors, full, hfold', hholds⟩ := encodeBounds_spec hz topology.tensors.entries ⟨front, 0, []⟩ henc
  cases hfold.symm.trans hfold'
  rw [List.nil_append] at hview
  obtain ⟨t, ht, hname⟩ := hholds.complete e he hbound
  have hsome : (tensors.find? fun t => t.shapeName = e.1).isSome := List.find?_isSome.mpr ⟨t, ht, decide_eq_true hname⟩
  obtain ⟨t, hfind⟩ := Option.isSome_iff_exists.mp hsome
  have hname : t.shapeName = e.1 := by simpa using List.find?_some hfind
  obtain ⟨e', he', binding, hb, hth⟩ := hholds.sound t (List.mem_of_find?_eq_some hfind)
  have hsame : e' = e := by
    have hfields := congrArg TensorDiff.shapeName hth.fields
    exact List.inj_on_of_nodup_map topology.tensors.nodup he' he (hfields.symm.trans hname)
  subst hsame
  obtain ⟨hhop, hbytes⟩ := hhops e' he' binding hb
  rw [hgathered e' he' binding hb] at hth
  refine ⟨t, hview.tensors_eq ▸ hfind, hname, by rw [hth.fields], by rw [hth.fields], fun hr hsec baseName => ?_⟩
  exact hhop.tensor_reads hlt hview hth hbytes hr hsec baseName

end

/-- A Delta tensor that reads has read its group's permutation. -/
theorem readDeltaRange_permutation {libs : Libs} {blocks : BlockReads} {ctx : ReadCtx}
    {readAt : ReadCtx → String → BaseRead} {group : GroupEntry} {name : String} {off : Nat} {out : Bytes}
    {r : Nat × Bytes} (h : readDeltaRange libs blocks ctx readAt group name off out = .ok r) {diffBlock : Oid}
    {bytes : Bytes} {view : DiffArtifactView} (hdiff : group.diffBlock = some diffBlock)
    (hget : blocks.get diffBlock .diff = .ok bytes) (hparse : parseDiffArtifact libs.json bytes = .ok view)
    (hkind : view.header.permutation.kind = .explicit) :
    ∃ order, readPermutation view.header.permutation view.payload = .ok order := by
  unfold readDeltaRange at h
  rw [hdiff] at h
  split at h
  · next hdiff' =>
    cases hdiff'
    split at h
    · exact absurd h sfsErr_ne_ok
    · split at h
      · exact absurd h sfsErr_ne_ok
      · obtain ⟨bytes', hget', h⟩ := bind_eq_ok.mp h
        cases hget.symm.trans hget'
        obtain ⟨view', hparse', h⟩ := bind_eq_ok.mp h
        cases hparse.symm.trans hparse'
        split at h
        · exact absurd h sfsErr_ne_ok
        · obtain ⟨_, -, h⟩ := bind_eq_ok.mp h
          unfold readTensorRange at h
          split at h
          · exact absurd h sfsErr_ne_ok
          · dsimp only at h
            split at h
            · exact absurd h sfsErr_ne_ok
            · obtain ⟨expanded, hexp, -⟩ := bind_eq_ok.mp h
              unfold expandedFor at hexp
              rw [hkind] at hexp
              obtain ⟨order, horder, -⟩ := bind_eq_ok.mp hexp
              exact ⟨order, horder⟩
  · exact absurd h sfsErr_ne_ok

end SynapseFs.Codec
