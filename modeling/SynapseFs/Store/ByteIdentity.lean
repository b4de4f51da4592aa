import SynapseFs.Store.Chains
import SynapseFs.Store.PlanTotal
import SynapseFs.Store.Timeline

/-! Byte identity of delta chains.

The invariant of a history is that every version reads as the checkpoint that was
committed, through every link down to the first, within the bound on chains. A
commit keeps it, whatever its plan stores as a Delta, as long as the indices of its
groups are addressed within 32 bits. -/
namespace SynapseFs.Store
open Lib Core Format Align Stio SynapseFs.Codec

namespace Timeline

section
variable {t : Timeline} {past : List Version} {prev v : Version} {plans : List GroupPlan} {kept : List String}

/-! ### One commit -/

/-- A tensor that is stored whole reads as it was committed. -/
theorem Commits.full_reads (h : t.Commits past v) {tensor : String} {m : TensorMeta}
    (hm : v.source.tensorMeta tensor = some m) {e : GroupEntry} (hfind : v.manifest.findGroup tensor = some e)
    (hfull : FullOf t.libs v.source v.plan.puts tensor e) (fuel : Nat) :
    Reads (readRange t.libs (fuel + 1) (t.ctx v.manifest) tensor) (v.data tensor) := by
  obtain ⟨entry, hentry, rfl, bytes, ⟨m', hm', hread⟩, hput, rfl⟩ := hfull
  cases hm.symm.trans hm'
  -- the whole of the rows
  obtain ⟨w, hw⟩ := h.holds.rows _ _ _ _ _ _ hm hread
  obtain ⟨rows, hrows, -, hbytes⟩ := TensorMeta.unitBytes_eq_ok hw
  have hhead : m.shape.headD 1 = rows := by
    cases hshape : m.shape with
    | nil =>
      rw [hshape] at hrows
      cases hrows
    | cons d rest =>
      rw [hshape] at hrows
      cases hrows
      rfl
  have hlen := h.holds.length _ _ hm
  have hrow := h.holds.reads _ _ _ hm hw 0 rows (List.replicate entry.nbytes 0) (by rw [Nat.zero_add, hlen, hbytes])
    (by rw [List.length_replicate, h.holds.layout _ hentry _ hm, hbytes])
  rw [hhead, hrow, Nat.zero_mul, ← hbytes, ← hlen, slice_full] at hread
  obtain rfl : v.data entry.tensor = bytes := congrArg Prod.snd (Except.ok.inj hread)
  intro off out hoff _
  show readRange t.libs (fuel + 1) (t.ctx v.manifest) entry.tensor off out = _
  unfold readRange Timeline.ctx
  dsimp only
  rw [hfind]
  exact (h.stored _ hput).2 off out hoff

/-- A tensor that is stored as a Delta reads as it was committed, if the predecessor does. -/
theorem Commits.delta_reads (ht : t.Valid) (hres : t.Resolved) (h : t.Commits (prev :: past) v)
    (hprev : t.Sound (past.length + 1) prev) (haddr : t.Addressed v) (hspec : PlanSpec t.libs v.base v.source t.topology
      v.report (predecessorInfo (prev :: past)) t.cfg v.opts plans kept v.plan) {tensor : String} {m : TensorMeta}
    (hm : v.source.tensorMeta tensor = some m) {e : GroupEntry} (hfind : v.manifest.findGroup tensor = some e)
    (hdelta : DeltaOf t.libs (predecessorInfo (prev :: past)) plans kept v.plan.puts tensor e) {fuel : Nat}
    (hfuel : past.length + 1 ≤ fuel) :
    Reads (readRange t.libs (fuel + 1) (t.ctx v.manifest) tensor) (v.data tensor) ∧
      e.chainDepth ≤ t.cfg.maxChainDepth := by
  obtain ⟨p, hp, hk, hmem, hput, info, hinfo, rfl⟩ := hdelta
  obtain ⟨g, gm, source, hplanned⟩ := hspec.planned p hp
  have hpast : ∀ name info, (predecessorInfo (prev :: past)).get? name = some info →
      info.parentCommit = prev.oid ∧ info.chainDepth ≤ t.cfg.maxChainDepth := by
    intro name info hinfo
    unfold predecessorInfo at hinfo
    rw [FinMap.get?_mapKV] at hinfo
    obtain ⟨entry, hentry, rfl⟩ := Option.map_eq_some_iff.mp hinfo
    exact ⟨rfl, hprev.depths _ _ hentry⟩
  have hdecided := hspec.kept_delta p hp hk
  rw [hplanned.decision_eq] at hdecided
  have hdepth : u32 (info.chainDepth + 1) ≤ t.cfg.maxChainDepth :=
    depth_of_delta hdecided (le_maxBaseDepth hmem hinfo) (maxBaseDepth_le (fun name i hi => (hpast name i hi).2) _)
  refine ⟨?_, hdepth⟩
  obtain ⟨view, hparse, -, htensors⟩ := h.artifact ht hprev haddr hplanned
  obtain ⟨m', diff, hm', hdiff⟩ := htensors tensor hmem
  cases hm.symm.trans hm'
  obtain ⟨mp, hmp, -⟩ := h.holds.same hprev.holds hm
  have hsec := h.resolves ht hres hprev haddr hspec hp hk (hdiff.name_eq.symm ▸ hmem) (hdiff.name_eq.symm ▸ hm)
    hdiff.shape_eq hdiff.dtype_eq
  rw [hdiff.name_eq] at hsec
  have hbase := hprev.reads _ _ hmp fuel hfuel
  have hcommit : t.history info.parentCommit = .ok prev.manifest := by
    rw [(hpast tensor info hinfo).1]
    exact hprev.recorded
  have hrange : readRange t.libs (fuel + 1) (t.ctx v.manifest) tensor = _ :=
    readRange_delta rfl rfl rfl hfind rfl rfl rfl hdepth (h.stored _ hput).1 hparse hdiff.found hcommit
  rw [hrange]
  exact hdiff.reads hbase hsec tensor

/-! ### The run -/

/-- The step lemma: a commit reads as its checkpoint, if the one before it does. -/
theorem Commits.sound (ht : t.Valid) (hres : t.Resolved) (h : t.Commits past v)
    (hpast : ∀ prev rest, past = prev :: rest → t.Sound past.length prev) (haddr : t.Addressed v) :
    t.Sound (past.length + 1) v := by
  obtain ⟨plans, kept, hspec⟩ := planCommitGroups_spec h.planned
  have hentry : ∀ {tensor e}, v.manifest.findGroup tensor = some e → v.plan.entries.get? tensor = some e := by
    intro tensor e he
    rw [← h.groups]
    exact he
  refine ⟨h.holds, h.recorded, fun tensor m hm fuel hfuel => ?_, fun tensor e he => ?_⟩
  · obtain ⟨n, rfl⟩ : ∃ n, fuel = n + 1 := ⟨fuel - 1, by omega⟩
    obtain ⟨e, he, hfind⟩ := h.entry hspec hm
    rcases hspec.entries tensor e he with hdelta | ⟨hfull, -⟩
    · cases past with
      | nil =>
        obtain ⟨p, -, -, -, -, info, hinfo, -⟩ := hdelta
        cases hinfo
      | cons prev rest =>
        exact (h.delta_reads ht hres (hpast prev rest rfl) haddr hspec hm hfind hdelta (Nat.le_of_succ_le_succ hfuel)).1
    · exact h.full_reads hm hfind hfull n
  · rcases hspec.entries tensor e (hentry he) with hdelta | ⟨⟨entry, -, -, bytes, -, -, rfl⟩, -⟩
    · cases past with
      | nil =>
        obtain ⟨p, -, -, -, -, info, hinfo, -⟩ := hdelta
        cases hinfo
      | cons prev rest =>
        have hmem := hdelta
        obtain ⟨p, hp, -, hmem, -⟩ := hmem
        obtain ⟨g, gm, source, hplanned⟩ := hspec.planned p hp
        obtain ⟨m, w, hm, -⟩ := ht.member h.holds (hplanned.members_eq ▸ hmem)
        exact (h.delta_reads ht hres (hpast prev rest rfl) haddr hspec hm he hdelta le_rfl).2
    · exact Nat.zero_le _

/-- The run lemma: every version of a history is sound. -/
theorem History.sound (ht : t.Valid) (hres : t.Resolved) : ∀ {versions : List Version}, t.History versions →
    (∀ v ∈ versions, t.Addressed v) → ∀ v ∈ versions, t.Sound versions.length v := by
  intro versions
  induction versions with
  | nil =>
    intro _ _ v hv
    cases hv
  | cons newest past ih =>
    intro hhist haddr v hv
    have hpast := ih hhist.1 fun v hv => haddr v (List.mem_cons_of_mem _ hv)
    rcases List.mem_cons.mp hv with rfl | hv
    · refine hhist.2.sound ht hres (fun prev rest heq => ?_) (haddr _ List.mem_cons_self)
      exact hpast prev (by rw [heq]; exact List.mem_cons_self)
    · have hold := hpast v hv
      exact ⟨hold.holds, hold.recorded, fun name m hm fuel hfuel => hold.reads name m hm fuel (Nat.le_of_succ_le hfuel),
        hold.depths⟩

/-- Every version reads as its checkpoint: what a tensor has of a range, and that is all that is read. -/
def ReadBack (t : Timeline) (versions : List Version) : Prop :=
  ∀ v ∈ versions, ∀ name m, v.source.tensorMeta name = some m → ∀ fuel, versions.length ≤ fuel → ∀ off out, off < 2 ^ 64 →
    out.length < kMaxVector → readRange t.libs fuel (t.ctx v.manifest) name off out =
      .ok (min out.length (m.nbytes - off), filled (slice (v.data name) off out.length) out)

/-- Byte identity: a history whose indices fit reads back, version by version. -/
theorem history_reads_back (ht : t.Valid) (hres : t.Resolved) {versions : List Version}
    (h : t.History versions) (haddr : ∀ v ∈ versions, t.Addressed v) : t.ReadBack versions := by
  intro v hv name m hm fuel hfuel off out hoff hout
  have hsound := History.sound ht hres h haddr v hv
  have hread := hsound.reads name m hm fuel hfuel off out hoff hout
  rw [hread, length_slice, hsound.holds.length name m hm]

end

end Timeline

/-! ### Two versions of one tensor -/

section
variable {t : Timeline}

/-- An open file is a checkpoint, if its tensors are as long as their shapes say. -/
theorem Timeline.holds_opened {s : StSource} (hs : s.Opened)
    (hshapes : ∀ name, (s.tensorMeta name).map (fun m => (m.shape, m.dtype)) = t.tensors.get? name)
    (hnbytes : ∀ name m, s.tensorMeta name = some m → m.nbytes = m.shape.prod * m.dtype.size) :
    t.Holds s.source fun name => (s.tensorMeta name).elim [] s.tensorBytes where
  shapes := hshapes
  typed := hs.typed
  layout e he m hm := by
    obtain ⟨m', hm', heq⟩ := (hs.entries e).mp he
    cases hm.symm.trans hm'
    rw [heq]
  listed name m hm := ⟨_, hs.entry hm, rfl⟩
  nbytes := hnbytes
  small name m hm := by
    have hin := hs.inFile hm
    have hsize := hs.size
    unfold kMaxVector
    omega
  length name m hm := by
    have hm : s.tensorMeta name = some m := hm
    rw [hm]
    exact StSource.length_tensorBytes hs hm
  reads name m w hm hw := by
    have hm : s.tensorMeta name = some m := hm
    rw [hm]
    exact StSource.readsRows hs hm hw
  rows name m first count out r hm hread := by
    have hm : s.tensorMeta name = some m := hm
    have hread : s.readUnits name first count out = .ok r := hread
    unfold StSource.readUnits at hread
    rw [hm] at hread
    obtain ⟨w, hw, -⟩ := bind_eq_ok.mp hread
    exact ⟨w, hw⟩

end

/-- The rows of `w` are the group `g`, as in the pair. -/
def rowsTopology (n : Nat) : Topology where
  groups := ⟨[("g", ⟨n, false⟩)], List.nodup_singleton _⟩
  tensors := pairTopology.tensors

/-- The first two rows are exchanged. -/
def exchangedReport (k : Nat) : MatchReport := ⟨⟨[("g", ⟨exchanged k, false, true, 0, 0⟩)], List.nodup_singleton _⟩⟩

/-- Everything goes into one frame. -/
def frameOptions : EncodeOptions := ⟨.raw, .none, .zstd, ⟨3, false⟩, 2 ^ 31, false⟩

/-- A file of the bytes `data`, each of them a row. -/
def rowsFile (text data : Bytes) : StSource := StSource.soleSource text data .u8 [data.length]

theorem opened_rowsFile {text data : Bytes} (hne : text ≠ []) (hdata : data ≠ [])
    (hlen : 8 + text.length + data.length < 2 ^ 63) : (rowsFile text data).Opened := by
  have hopen := @StSource.openFile_sole
    ⟨fun _ => .ok (.obj (StSource.soleFields .u8 [data.length] data.length)), fun _ => []⟩ "" text data .u8 [data.length]
    rfl hne hdata hlen (fun d hd => by rw [List.mem_singleton.mp hd]; omega)
  refine (StSource.opened_of_openFile ?_ hopen).1
  show (storeLe 8 text.length ++ (text ++ data)).length < 2 ^ 63
  rw [List.length_append, List.length_append, length_storeLe]
  omega

/-- The row meta of `w`. -/
def rowsMeta (text data : Bytes) : TensorMeta := ⟨"w", [data.length], .u8, 8 + text.length, data.length⟩

theorem meta_rowsFile {text data : Bytes} {name : String} {m : TensorMeta}
    (h : (rowsFile text data).tensorMeta name = some m) : name = "w" ∧ m = rowsMeta text data := by
  cases List.mem_singleton.mp (FinMap.get?_eq_some.mp h)
  exact ⟨rfl, rfl⟩

theorem read_rowsFile {text data : Bytes} (hs : (rowsFile text data).Opened) (hdata : data ≠ []) :
    (rowsFile text data).source.readUnits "w" 0 data.length (List.replicate data.length 0) = .ok (data.length, data) := by
  have hunit : (rowsMeta text data).unitBytes 0 = .ok 1 :=
    TensorMeta.unitBytes_of_units rfl (List.length_pos_iff.mpr hdata) (Nat.mul_one _).symm
  have hread := @readWhole _ hs "w" (rowsMeta text data) rfl 1 hunit
  have hbytes : (rowsFile text data).tensorBytes (rowsMeta text data) = data := StSource.tensorBytes_sole text data .u8 _
  rw [hbytes] at hread
  exact hread


/-! ### The plans -/

section
variable {libs : Libs} {text old new : Bytes}

/-- With nothing to match, the file is stored whole. -/
theorem plan_first (hs : (rowsFile text old).Opened) (hdata : old ≠ []) (base : TensorSource)
    (parentInfo : FinMap String ParentTensorInfo) (cfg : RepoConfig) (opts : EncodeOptions) :
    planCommitGroups libs base (rowsFile text old).source (rowsTopology old.length) ⟨.empty⟩ parentInfo cfg opts =
      .ok ⟨FinMap.empty.insert "w" (fullEntry (computeOid libs.blake3 .raw old)), [(.raw, old)]⟩ := by
  have hlt : old.length < kMaxVector := by
    have hin := @StSource.Opened.inFile _ "w" (rowsMeta text old) hs rfl
    have hsize := hs.size
    have hbytes : (rowsMeta text old).nbytes = old.length := rfl
    unfold kMaxVector
    omega
  refine bind_eq_ok.mpr ⟨[none], rfl, bind_eq_ok.mpr ⟨[], rfl, bind_eq_ok.mpr ⟨⟨.empty, []⟩, rfl, ?_⟩⟩⟩
  refine bind_eq_ok.mpr ⟨_, ?_, rfl⟩
  show (zeroVector old.length >>= _) = _
  refine bind_eq_ok.mpr ⟨_, zeroVector_eq hlt, bind_eq_ok.mpr ⟨_, read_rowsFile hs hdata, ?_⟩⟩
  exact if_neg (not_not.mpr rfl)

/-- A short axis has one frame. -/
theorem steps_short {total step : Nat} (hpos : 0 < total) (hle : total ≤ step) : steps total step = [(0, total)] := by
  have hone : (total + step - 1) / step = 1 := Nat.div_eq_of_lt_le (by omega) (by omega)
  unfold steps
  rw [hone]
  simp [hle]

/-- The group of the exchanged rows, as it is written. -/
theorem groupHeader_rows {k : Nat} (hnew : new.length = k + 2) (hle : k + 2 ≤ 2 ^ 31) (hs : (rowsFile text new).Opened)
    {comp : Bytes} (hcomp : libs.zstd.compress ⟨3, false⟩ new = .ok comp) (base : TensorSource) : ∃ header s,
      groupHeader libs base (rowsFile text new).source (rowsTopology new.length) "g" (exchanged k) true
        ⟨"weight_matching_lap", 0, 0⟩ frameOptions = .ok (header, s) ∧ header.permutation.kind = .explicit ∧
      header.permutation.n = k + 2 ∧ (65536 < k + 2 → header.permutation.width = 4) ∧
      s.payload.length ≤ 2 ^ 34 + comp.length := by
  have hlen := length_exchanged k
  have hdata : new ≠ [] := fun hnil => by
    rw [hnil] at hnew
    cases hnew
  have hpos : 0 < new.length := List.length_pos_iff.mpr hdata
  obtain ⟨front, hwrite, -⟩ := writePermutation_explicit [] (by omega) (exchanged_ne k)
  have hfront := length_writePermutation hwrite
  have htotal : (expand (exchanged k) 1).length = new.length := by
    rw [expand, length_expandPermutation, hlen, Nat.mul_one, hnew]
  have hunits : frameUnits (2 ^ 31) 1 = 2 ^ 31 := by decide
  have hunit : (rowsMeta text new).unitBytes 0 = .ok 1 := TensorMeta.unitBytes_of_units rfl hpos (Nat.mul_one _).symm
  -- one frame, which holds all of the rows
  have hframe : encodeFrame libs frameOptions base (rowsFile text new).source .u8 "w" (expand (exchanged k) 1) 1
      ⟨[] ++ front, 0, []⟩ (0, new.length) = .ok ⟨[] ++ front ++ comp, u64 (0 + new.length),
        [⟨0, new.length, ([] ++ front).length, comp.length, libs.blake3 new⟩]⟩ := by
    refine bind_eq_ok.mpr ⟨(new.length, new), ?_, bind_eq_ok.mpr ⟨new, rfl, bind_eq_ok.mpr ⟨comp, ?_, rfl⟩⟩⟩
    · rw [Nat.sub_zero, Nat.mul_one]
      exact read_rowsFile hs hdata
    · show compressFrame libs.zstd new ⟨3, false⟩ = _
      unfold compressFrame
      rw [hcomp]
  have hloop : (steps new.length (frameUnits (2 ^ 31) 1)).foldlM
      (encodeFrame libs frameOptions base (rowsFile text new).source .u8 "w" (expand (exchanged k) 1) 1)
      ⟨[] ++ front, 0, []⟩ = .ok ⟨[] ++ front ++ comp, u64 (0 + new.length),
        [⟨0, new.length, ([] ++ front).length, comp.length, libs.blake3 new⟩]⟩ := by
    rw [hunits, steps_short hpos (by omega), List.foldlM_cons]
    exact bind_eq_ok.mpr ⟨_, hframe, rfl⟩
  have htensor : encodeTensor libs frameOptions base (rowsFile text new).source (exchanged k) "w" ⟨0, "g", 1⟩
      ⟨[] ++ front, 0, []⟩ = .ok ⟨[] ++ front ++ comp, u64 (0 + new.length), [{
        shapeName := "w", shape := [new.length], dtype := .u8, residual := .raw, transform := .none
        frames := [⟨0, new.length, ([] ++ front).length, comp.length, libs.blake3 new⟩] }]⟩ := by
    refine bind_eq_ok.mpr ⟨1, hunit, ?_⟩
    dsimp only
    rw [htotal]
    show (if (some new.length : Option Nat) ≠ some new.length then _ else _) = _
    rw [if_neg (not_not.mpr rfl)]
    refine bind_eq_ok.mpr ⟨_, hloop, bind_eq_ok.mpr ⟨(), ?_, rfl⟩⟩
    exact validateTiling_of_tiles hpos (.cons hpos (.nil _))
  refine ⟨_, _, bind_eq_ok.mpr ⟨_, hwrite, bind_eq_ok.mpr ⟨_, bind_eq_ok.mpr ⟨_, htensor, rfl⟩, rfl⟩⟩, rfl, hlen,
    fun hwide => ?_, ?_⟩
  · rcases explicitRef_width (exchanged k) with ⟨-, hle⟩ | ⟨hwidth, -⟩
    · omega
    · exact hwidth
  · rw [List.length_append]
    rw [List.length_nil, Nat.zero_add] at hfront
    omega

/-- No delta is too large, and chains have at most 16 links. -/
def rowsConfig : RepoConfig := ⟨16, fun _ _ => false⟩

/-- The exchanged rows are stored as a Delta of the parent. -/
theorem plan_second {k : Nat} {base : TensorSource} {result : EncodeResult}
    (henc : encodeGroup libs base (rowsFile text new).source (rowsTopology new.length) "g" (exchanged k) true
      ⟨"weight_matching_lap", 0, 0⟩ frameOptions = .ok result) {parentInfo : FinMap String ParentTensorInfo} {oid : Oid}
    (hinfo : parentInfo.get? "w" = some ⟨oid, 0⟩) :
    planCommitGroups libs base (rowsFile text new).source (rowsTopology new.length) (exchangedReport k) parentInfo
        rowsConfig frameOptions =
      .ok ⟨FinMap.empty.insert "w" (deltaEntry ⟨oid, 0⟩ "w" (computeOid libs.blake3 .diff result.artifact)),
        [(.diff, result.artifact)]⟩ := by
  have hdepth : maxBaseDepth parentInfo ["w"] = 0 := by
    unfold maxBaseDepth
    rw [List.foldl_cons, hinfo]
    rfl
  have hplan : planGroup libs base (rowsFile text new).source (rowsTopology new.length) (exchangedReport k) parentInfo
      rowsConfig frameOptions ("g", ⟨new.length, false⟩) = .ok (some ⟨"g", ["w"], result, .delta, []⟩) := by
    refine bind_eq_ok.mpr ⟨⟨exchanged k, false, true, 0, 0⟩, rfl, bind_eq_ok.mpr ⟨base, rfl, ?_⟩⟩
    refine bind_eq_ok.mpr ⟨result, henc, ?_⟩
    have hbased : (["w"].any fun tensor => (parentInfo.get? tensor).isSome) = true := by
      rw [List.any_cons, hinfo]
      rfl
    have hdecision : SnapshotInputs.decide ⟨["w"].any fun tensor => (parentInfo.get? tensor).isSome, true,
        maxBaseDepth parentInfo ["w"], result.artifact.length, result.fullBytes⟩ rowsConfig = .delta := by
      rw [hbased, hdepth]
      rfl
    exact congrArg (fun d => Except.ok (some (GroupPlan.mk "g" ["w"] result d []))) hdecision
  refine bind_eq_ok.mpr ⟨[some ⟨"g", ["w"], result, .delta, []⟩], ?_, bind_eq_ok.mpr ⟨["g"], rfl, ?_⟩⟩
  · show List.mapM _ [_] = _
    rw [List.mapM_cons]
    exact bind_eq_ok.mpr ⟨_, hplan, rfl⟩
  · refine bind_eq_ok.mpr ⟨⟨FinMap.empty.insert "w"
      (deltaEntry ⟨oid, 0⟩ "w" (computeOid libs.blake3 .diff result.artifact)), [(.diff, result.artifact)]⟩, ?_, rfl⟩
    refine bind_eq_ok.mpr ⟨_, bind_eq_ok.mpr ⟨FinMap.empty.insert "w" _, ?_, rfl⟩, rfl⟩
    exact bind_eq_ok.mpr ⟨_, bind_eq_ok.mpr ⟨⟨oid, 0⟩, atOrThrow_eq_ok.mpr hinfo, rfl⟩, rfl⟩

end

/-! ### The history -/

def rowsVersion (oid : Oid) (text data : Bytes) (base : TensorSource) (report : MatchReport) (plan : PlanOutput) :
    Version where
  oid := oid
  source := (rowsFile text data).source
  data name := ((rowsFile text data).tensorMeta name).elim [] (rowsFile text data).tensorBytes
  base := base
  report := report
  opts := frameOptions
  plan := plan
  manifest :=
    { formatVersion := 1, hashAlgo := "blake3", file := ⟨"model.safetensors", pairOid 3, 8 + text.length + data.length, ""⟩,
      buffer := [⟨"w", 8 + text.length, data.length, "w"⟩], groups := plan.entries }

/-- The rows as they are stored first: whole. -/
def firstVersion (libs : Libs) (text old : Bytes) : Version :=
  rowsVersion (pairOid 1) text old (rowsFile text old).source ⟨.empty⟩
    ⟨FinMap.empty.insert "w" (fullEntry (computeOid libs.blake3 .raw old)), [(.raw, old)]⟩

/-- The rows with two of them exchanged: a Delta. -/
def secondVersion (libs : Libs) (text old new artifact : Bytes) (k : Nat) : Version :=
  rowsVersion (pairOid 2) text new (rowsFile text old).source (exchangedReport k)
    ⟨FinMap.empty.insert "w" (deltaEntry ⟨pairOid 1, 0⟩ "w" (computeOid libs.blake3 .diff artifact)), [(.diff, artifact)]⟩

/-- One object of each kind. -/
def rowsBlocks (raw diff : Bytes) : BlockReads where
  get _ kind := .ok (if kind = .diff then diff else raw)
  readRange _ kind off out :=
    .ok ((slice (if kind = .diff then diff else raw) off out.length).length,
      filled (slice (if kind = .diff then diff else raw) off out.length) out)

def rowsTimeline (libs : Libs) (text old new artifact : Bytes) (k : Nat) : Timeline where
  libs := libs
  blocks := rowsBlocks old artifact
  history oid :=
    .ok (if oid = pairOid 1 then (firstVersion libs text old).manifest
      else (secondVersion libs text old new artifact k).manifest)
  cfg := rowsConfig
  topology := rowsTopology (k + 2)
  tensors := ⟨[("w", ([k + 2], .u8))], List.nodup_singleton _⟩

section
variable {libs : Libs} {text old new artifact : Bytes} {k : Nat}

theorem valid_rows (hle : k + 2 ≤ 2 ^ 31) (hz : libs.zstd.Lossless) :
    (rowsTimeline libs text old new artifact k).Valid where
  validated := by
    refine bind_eq_ok.mpr ⟨(), forM_eq_ok.mpr fun g hg => ?_, forM_eq_ok.mpr fun e he => ?_⟩
    · rw [List.mem_singleton.mp hg]
      exact if_neg (Nat.succ_ne_zero _)
    · rw [List.mem_singleton.mp he]
      refine forM_eq_ok.mpr fun axis haxis => ?_
      rw [List.mem_singleton.mp haxis]
      refine if_neg (not_not.mpr ?_)
      show k + 2 = u64 ((k + 2) * 1)
      rw [Nat.mul_one, u64_of_lt (by omega)]
  sizes name g h := by
    cases List.mem_singleton.mp (FinMap.get?_eq_some.mp h)
    show k + 2 < 2 ^ 32
    omega
  blocks name axes h axis haxis := by
    cases List.mem_singleton.mp (FinMap.get?_eq_some.mp h)
    rw [List.mem_singleton.mp haxis]
    decide
  second name axes h axis haxis hdim := by
    cases List.mem_singleton.mp (FinMap.get?_eq_some.mp h)
    rw [List.mem_singleton.mp haxis] at hdim
    exact absurd rfl hdim
  owned name g h _ := by
    cases List.mem_singleton.mp (FinMap.get?_eq_some.mp h)
    exact List.cons_ne_nil "w" []
  dims name shape dtype h d hd := by
    cases List.mem_singleton.mp (FinMap.get?_eq_some.mp h)
    rw [List.mem_singleton.mp hd]
    omega
  rows name shape dtype h := by
    cases List.mem_singleton.mp (FinMap.get?_eq_some.mp h)
    show 1 * 1 < 2 ^ 32
    decide
  lossless := hz

theorem resolved_rows : (rowsTimeline libs text old new artifact k).Resolved := by
  intro name axes secondary h hsec _
  cases List.mem_singleton.mp (FinMap.get?_eq_some.mp h)
  cases hsec

theorem holds_rows {data : Bytes} (hdata : data.length = k + 2) (htext : text ≠ [])
    (hlen : 8 + text.length + data.length < 2 ^ 63) (oid : Oid) (base : TensorSource) (report : MatchReport)
    (plan : PlanOutput) : (rowsTimeline libs text old new artifact k).Holds (rowsVersion oid text data base report plan).source
      (rowsVersion oid text data base report plan).data := by
  have hne : data ≠ [] := fun hnil => by
    rw [hnil] at hdata
    cases hdata
  refine Timeline.holds_opened (opened_rowsFile htext hne hlen) (fun name => ?_) fun name m hm => ?_
  · by_cases hname : name = "w"
    · subst hname
      show some ([data.length], DType.u8) = some ([k + 2], DType.u8)
      rw [hdata]
    · have hnone : (rowsFile text data).tensorMeta name = none := by
        cases hm : (rowsFile text data).tensorMeta name with
        | none => rfl
        | some m => exact absurd (meta_rowsFile hm).1 hname
      rw [hnone]
      cases ht : (rowsTimeline libs text old new artifact k).tensors.get? name with
      | none => rfl
      | some tensor =>
        cases List.mem_singleton.mp (FinMap.get?_eq_some.mp ht)
        exact absurd rfl hname
  · obtain ⟨-, rfl⟩ := meta_rowsFile hm
    show data.length = [data.length].prod * 1
    rw [List.prod_singleton, Nat.mul_one]

theorem serves_rows (raw diff : Bytes) (oid : Oid) : (rowsBlocks raw diff).Serves oid .raw raw ∧
    (rowsBlocks raw diff).Serves oid .diff diff :=
  ⟨⟨rfl, fun _ _ _ => rfl⟩, ⟨rfl, fun _ _ _ => rfl⟩⟩

theorem commits_first (hold : old.length = k + 2) (htext : text ≠ []) (hlen : 8 + text.length + old.length < 2 ^ 63) :
    (rowsTimeline libs text old new artifact k).Commits [] (firstVersion libs text old) where
  holds := holds_rows hold htext hlen _ _ _ _
  reported _ _ _ _ h _ := by cases h
  base := trivial
  planned := by
    have hne : old ≠ [] := fun hnil => by
      rw [hnil] at hold
      cases hold
    show planCommitGroups libs _ _ (rowsTopology (k + 2)) _ _ _ _ = _
    rw [← hold]
    exact plan_first (opened_rowsFile htext hne hlen) hne _ _ _ _
  groups := rfl
  recorded := congrArg Except.ok (if_pos rfl)
  stored b hb := by
    rw [List.mem_singleton.mp hb]
    exact (serves_rows _ _ _).1
  headers _ _ _ _ _ h _ := by cases h

theorem commits_second (hnew : new.length = k + 2) (htext : text ≠ [])
    (hlen : 8 + text.length + (k + 2) < 2 ^ 63) {result : EncodeResult}
    (henc : encodeGroup libs (rowsFile text old).source (rowsFile text new).source (rowsTopology new.length) "g"
      (exchanged k) true ⟨"weight_matching_lap", 0, 0⟩ frameOptions = .ok result)
    (hjson : HeaderReads libs (rowsFile text old).source (rowsFile text new).source (rowsTopology new.length) "g"
      (exchanged k) true ⟨"weight_matching_lap", 0, 0⟩ frameOptions) :
    (rowsTimeline libs text old new result.artifact k).Commits [firstVersion libs text old]
      (secondVersion libs text old new result.artifact k) where
  holds := holds_rows hnew htext (hnew.symm ▸ hlen) _ _ _ _
  reported name g gm hg hgm _ := by
    cases List.mem_singleton.mp (FinMap.get?_eq_some.mp hg)
    cases List.mem_singleton.mp (FinMap.get?_eq_some.mp hgm)
    have hvalid := valid_exchanged k
    rw [length_exchanged] at hvalid
    have hcost : (Json.f64Trunc 0).isSome := by decide
    exact ⟨⟨fun h => absurd h Bool.false_ne_true, fun h => absurd h (List.cons_ne_nil _ _)⟩, fun _ => hvalid, hcost, hcost⟩
  base := .inl rfl
  planned := by
    show planCommitGroups libs _ _ (rowsTopology (k + 2)) _ _ _ _ = _
    rw [← hnew]
    exact plan_second henc rfl
  groups := rfl
  recorded := by
    have hne : pairOid 2 ≠ pairOid 1 := by decide
    exact congrArg Except.ok (if_neg hne)
  stored b hb := by
    rw [List.mem_singleton.mp hb]
    exact (serves_rows _ _ _).2
  headers name g gm source hg hgm hsource := by
    cases List.mem_singleton.mp (FinMap.get?_eq_some.mp hg)
    cases List.mem_singleton.mp (FinMap.get?_eq_some.mp hgm)
    have hsame : source = (rowsFile text old).source := (Except.ok.inj hsource).symm
    rw [hsame]
    show HeaderReads libs _ _ (rowsTopology (k + 2)) _ _ _ _ _
    rw [← hnew]
    exact hjson

theorem history_rows (hold : old.length = k + 2) (hnew : new.length = k + 2) (htext : text ≠ [])
    (hlen : 8 + text.length + (k + 2) < 2 ^ 63) {result : EncodeResult}
    (henc : encodeGroup libs (rowsFile text old).source (rowsFile text new).source (rowsTopology new.length) "g"
      (exchanged k) true ⟨"weight_matching_lap", 0, 0⟩ frameOptions = .ok result)
    (hjson : HeaderReads libs (rowsFile text old).source (rowsFile text new).source (rowsTopology new.length) "g"
      (exchanged k) true ⟨"weight_matching_lap", 0, 0⟩ frameOptions) :
    (rowsTimeline libs text old new result.artifact k).History
      [secondVersion libs text old new result.artifact k, firstVersion libs text old] :=
  ⟨⟨trivial, commits_first hold htext (hold.symm ▸ hlen)⟩, commits_second hnew htext hlen henc hjson⟩

/-- A Delta of more than `2 ^ 30` exchanged rows is not read. -/
theorem unread_rows (hnew : new.length = k + 2) (hwide : 2 ^ 30 < k + 2)
    (htext : text ≠ []) (hlen : 8 + text.length + (k + 2) < 2 ^ 63) {header : DiffHeader} {s : EncodeState}
    {result : EncodeResult} (hbuilt : groupHeader libs (rowsFile text old).source (rowsFile text new).source
      (rowsTopology new.length) "g" (exchanged k) true ⟨"weight_matching_lap", 0, 0⟩ frameOptions = .ok (header, s))
    (henc : encodeGroup libs (rowsFile text old).source (rowsFile text new).source (rowsTopology new.length) "g"
      (exchanged k) true ⟨"weight_matching_lap", 0, 0⟩ frameOptions = .ok result)
    (hempty : ∀ v, libs.json.parse [] ≠ .ok v)
    (hjson : libs.json.parse (libs.json.dump header.toJson) = .ok header.toJson)
    (hkind : header.permutation.kind = .explicit) (hn : header.permutation.n = k + 2) (hwidth : header.permutation.width = 4)
    (fuel off : Nat) (out : Bytes) (r : Nat × Bytes) :
    readRange libs fuel ((rowsTimeline libs text old new result.artifact k).ctx
      (secondVersion libs text old new result.artifact k).manifest) "w" off out ≠ .ok r := by
  intro h
  obtain ⟨header', s', hbuilt', hsize, hresult⟩ := encodeGroup_ok henc
  cases hbuilt.symm.trans hbuilt'
  have htyped : (rowsFile text new).source.Typed :=
    (opened_rowsFile htext (List.ne_nil_of_length_pos (by omega)) (hnew.symm ▸ hlen)).typed
  have hparse := parseDiffArtifact_built htyped hbuilt (by omega) (by decide) (by decide) hempty hjson hsize
  have hsame : withoutIdentityN header = header := by
    unfold withoutIdentityN
    rw [hkind]
  rw [hsame] at hparse
  cases fuel with
  | zero => cases h
  | succ fuel =>
    have hartifact : result.artifact = layOut (header.toCanonicalJson libs.json) s.payload := by rw [hresult]
    have hdelta : readDeltaRange libs (rowsBlocks old result.artifact)
        ((rowsTimeline libs text old new result.artifact k).ctx
          (secondVersion libs text old new result.artifact k).manifest) (readRange libs fuel)
        (deltaEntry ⟨pairOid 1, 0⟩ "w" (computeOid libs.blake3 .diff result.artifact)) "w" off out = .ok r := h
    obtain ⟨order, horder⟩ := readDeltaRange_permutation hdelta rfl rfl (hartifact ▸ hparse) hkind
    exact readPermutation_wide hkind hwidth (hn.symm ▸ hwide) _ _ horder

theorem addressed_rows (hle : k + 2 ≤ 2 ^ 30) : ∀ v ∈ [secondVersion libs text old new artifact k, firstVersion libs text old],
    (rowsTimeline libs text old new artifact k).Addressed v := by
  intro v hv name g gm hg hgm _
  cases List.mem_singleton.mp (FinMap.get?_eq_some.mp hg)
  rcases List.mem_cons.mp hv with hv | hv
  · subst hv
    cases List.mem_singleton.mp (FinMap.get?_eq_some.mp hgm)
    refine ⟨.inr ((length_exchanged k).trans_le hle), fun tensor axes axis haxes haxis _ _ => ⟨?_, ?_⟩⟩
    · cases List.mem_singleton.mp (FinMap.get?_eq_some.mp haxes)
      rw [List.mem_singleton.mp haxis]
      show (k + 2) * 1 < 2 ^ 61
      omega
    · exact fun hraw => absurd rfl hraw
  · rw [List.mem_singleton.mp hv] at hgm
    cases hgm

end

/-- Two bytes in one raw block, and the text of the header they are stored with. -/
def twoLibs : Libs := ⟨pairWriter.json, smallZstd, pairWriter.blake3⟩

theorem lossless_small : smallZstd.Lossless := fun _ _ => ⟨_, rfl, rfl⟩

/-- The two bytes as they are stored. -/
theorem groupHeader_two {text : Bytes} (hs : (rowsFile text [5, 6]).Opened) (base : TensorSource) :
    groupHeader twoLibs base (rowsFile text [5, 6]).source (rowsTopology 2) "g" (exchanged 0) true
      ⟨"weight_matching_lap", 0, 0⟩ frameOptions = .ok (pairHeader 0, ⟨pairPayload, 2, (pairHeader 0).tensors⟩) := by
  have htensor : encodeTensor twoLibs frameOptions base (rowsFile text [5, 6]).source [1, 0] "w" ⟨0, "g", 1⟩
      ⟨[1, 0, 0, 0], 0, []⟩ = .ok ⟨pairPayload, 2, (pairHeader 0).tensors⟩ := by
    refine bind_eq_ok.mpr ⟨1, TensorMeta.unitBytes_of_units rfl Nat.two_pos rfl, ?_⟩
    refine bind_eq_ok.mpr ⟨_, bind_eq_ok.mpr ⟨_, bind_eq_ok.mpr ⟨_, read_rowsFile hs (List.cons_ne_nil _ _), rfl⟩, rfl⟩, rfl⟩
  exact bind_eq_ok.mpr ⟨_, rfl, bind_eq_ok.mpr ⟨_, bind_eq_ok.mpr ⟨_, htensor, rfl⟩, rfl⟩⟩

theorem history_reads_back_two : ∃ (t : Timeline) (versions : List Version), versions.length = 2 ∧ t.Valid ∧ t.Resolved ∧
    t.History versions ∧ (∀ v ∈ versions, t.Addressed v) ∧ t.ReadBack versions := by
  have htext : 0 < (pairText "0").length ∧ (pairText "0").length ≤ 255 * 8 := length_pairText (by decide)
  have hne : pairText "0" ≠ [] := List.ne_nil_of_length_pos htext.1
  have hjson : twoLibs.json.parse (twoLibs.json.dump (pairHeader 0).toJson) = .ok (pairHeader 0).toJson :=
    parse_pairWriter hne
  have hempty : ∀ v, twoLibs.json.parse [] ≠ .ok v := fun _ => nofun
  have hplaced : StSource.twoBytesText "2" ≠ [] := asciiOf_ne_nil
  have hshort : (StSource.twoBytesText "2").length ≤ 255 * 3 := StSource.length_twoBytesText (l := ['2']) (by decide)
  generalize StSource.twoBytesText "2" = text at hplaced hshort
  have hlen : 8 + text.length + (0 + 2) < 2 ^ 63 := by omega
  have hopened : (rowsFile text [5, 6]).Opened := opened_rowsFile hplaced (List.cons_ne_nil _ _) hlen
  have hbuilt := groupHeader_two hopened (rowsFile text [6, 5]).source
  obtain ⟨result, henc⟩ := encodeGroup_short hbuilt htext.2 (by decide)
  have hheader : HeaderReads twoLibs (rowsFile text [6, 5]).source (rowsFile text [5, 6]).source (rowsTopology 2) "g"
      (exchanged 0) true ⟨"weight_matching_lap", 0, 0⟩ frameOptions := by
    refine ⟨hempty, fun header s hs => ?_⟩
    cases hbuilt.symm.trans hs
    exact hjson
  have ht : (rowsTimeline twoLibs text [6, 5] [5, 6] result.artifact 0).Valid := valid_rows (by decide) lossless_small
  have hhist := @history_rows twoLibs text [6, 5] [5, 6] 0 rfl rfl hplaced hlen result henc hheader
  have haddr := @addressed_rows twoLibs text [6, 5] [5, 6] result.artifact 0 (by decide)
  exact ⟨_, _, rfl, ht, resolved_rows, hhist, haddr, Timeline.history_reads_back ht resolved_rows hhist haddr⟩

/-- A JSON library on one value. -/
def readsOnly (value : Json) : JsonLib where
  parse text := if text = [] then .error "[json.exception.parse_error.101] attempting to parse an empty input" else .ok value
  dump _ := [123]

/-- The header does not depend on the library that writes it. -/
theorem groupHeader_json (libs : Libs) (json : JsonLib) {base target : TensorSource} {topology : Topology} {group : String}
    {order : List Nat} {alignable : Bool} {alignment : AlignmentInfo} {opts : EncodeOptions} :
    groupHeader ⟨json, libs.zstd, libs.blake3⟩ base target topology group order alignable alignment opts =
      groupHeader libs base target topology group order alignable alignment opts := rfl

/-- One row more than a 32-bit offset reaches: the first two of them are exchanged, and the commit is not read again. -/
theorem wide_history_unread : ∃ (t : Timeline) (versions : List Version), t.Valid ∧ t.Resolved ∧ t.History versions ∧
    ¬t.ReadBack versions := by
  obtain ⟨data, hdata⟩ : ∃ data : Bytes, data.length = 2 ^ 30 - 1 + 2 := ⟨List.replicate _ 0, List.length_replicate⟩
  have htext : ([123] : Bytes) ≠ [] := List.cons_ne_nil _ _
  have hlen : 8 + ([123] : Bytes).length + (2 ^ 30 - 1 + 2) < 2 ^ 63 := by decide
  have hne : data ≠ [] := fun hnil => by
    rw [hnil] at hdata
    cases hdata
  have hopened : (rowsFile [123] data).Opened := opened_rowsFile htext hne (hdata.symm ▸ hlen)
  -- the library is chosen to read the header that is built
  obtain ⟨header, s, hbuilt, hkind, hn, hwidth, hpayload⟩ := @groupHeader_rows twoLibs [123] data (2 ^ 30 - 1) hdata (by decide)
    hopened _ rfl (rowsFile [123] data).source
  have hbuilt := (groupHeader_json twoLibs (readsOnly header.toJson)).trans hbuilt
  have hsize : 8 + (header.toCanonicalJson (readsOnly header.toJson)).length + s.payload.length < kMaxVector := by
    have hcomp : ([0x28, 0xb5, 0x2f, 0xfd, 0x20, UInt8.ofNat data.length, UInt8.ofNat (8 * data.length + 1), 0, 0] ++
        data).length = 9 + data.length := List.length_append
    have hdump : (header.toCanonicalJson (readsOnly header.toJson)).length = 1 := rfl
    rw [hcomp] at hpayload
    rw [hdump]
    unfold kMaxVector
    omega
  have henc := encodeGroup_done hbuilt hsize
  have hempty : ∀ v, (readsOnly header.toJson).parse [] ≠ .ok v := fun _ => nofun
  have hjson : (readsOnly header.toJson).parse ((readsOnly header.toJson).dump header.toJson) = .ok header.toJson :=
    rfl
  have hheader : HeaderReads ⟨readsOnly header.toJson, smallZstd, pairWriter.blake3⟩ (rowsFile [123] data).source
      (rowsFile [123] data).source (rowsTopology data.length) "g" (exchanged (2 ^ 30 - 1)) true
      ⟨"weight_matching_lap", 0, 0⟩ frameOptions := by
    refine ⟨hempty, fun header' s' hs => ?_⟩
    cases hbuilt.symm.trans hs
    exact hjson
  refine ⟨_, _, valid_rows (by decide) lossless_small, resolved_rows,
    history_rows hdata hdata htext hlen henc hheader, fun hback => ?_⟩
  have hread := hback _ List.mem_cons_self "w" (rowsMeta [123] data) rfl 2 le_rfl 0 [] (by decide) (by decide)
  exact unread_rows hdata (by decide) htext hlen hbuilt henc hempty hjson hkind hn (hwidth (by decide)) 2 0 [] _ hread

end SynapseFs.Store
