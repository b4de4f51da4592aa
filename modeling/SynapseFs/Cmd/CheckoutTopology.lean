import SynapseFs.Align.TopologyRefines
import SynapseFs.Cmd.Checkout
import SynapseFs.Stio.StSource
import SynapseFs.Store.Gc

/-! The topology of a commit, when it is written and when it is read.

A commit parses its configuration against the checkpoint file. A checkout and a mount
have no file: they parse what the commit stored against a source with a header and no
data, always strictly, and go on without a topology when that fails. `checkout_topology`
says what they get: the classes of the commit, and the pins of the commit but for the
input's; unless the commit had no configuration, or was lenient about a layer. -/
namespace SynapseFs.Cmd
open Lib Core Format Codec Align Stio

/-! ### When it is written -/

/-- `store_topology`: the object of a commit without a configuration. -/
def topologyObject (config : Bytes) : Bytes := if config = [] then [0x7b, 0x7d] else config

/-! ### When it is read -/

/-- `HeaderOnlyTensorSource`. -/
def headerOnlySource (h : StHeader) : TensorSource where
  bufferLayout := h.bufferLayout
  tensorMeta name := h.tensors.get? name
  readUnits name _ _ _ := sfsErr .notImplemented "HeaderOnlyTensorSource has no tensor data" name

/-- `std::nullopt` for an error; an exception goes on. -/
def orNone {α : Type} : Outcome α → Outcome (Option α)
  | .ok a => .ok (some a)
  | .error (.error _) => .ok none
  | .error f => .error f

def loadCommitTopology (json : JsonLib) (hashOrder : List (Nat × List Nat) → List (Nat × List Nat)) (blocks : BlockReads)
    (c : Commit) (m : Manifest) : Outcome (Option Topology) :=
  orNone do
    let header ← parseStHeader json (← blocks.get m.file.headerBlock .header)
    let topoBytes ← blocks.get c.topology .topology
    parseTopology json hashOrder (headerOnlySource header) topoBytes ⟨true⟩

/-! ### The two -/

/-- The objects that a commit of the file puts: its header, and its configuration or what stands for none. -/
structure TopologyStored (blocks : BlockReads) (c : Commit) (m : Manifest) (s : StSource) (config : Bytes) : Prop where
  header : blocks.get m.file.headerBlock .header = .ok s.headerPrefix
  topology : blocks.get c.topology .topology = .ok (topologyObject config)

/-- How a parse ends, against the plan. -/
def Parsed (json : JsonLib) (hashOrder : List (Nat × List Nat) → List (Nat × List Nat)) (src : TensorSource) (config : Bytes)
    (popts : ParseOptions) : Prop :=
  (∃ e, Plan.planTopology json src config popts = .error e ∧ parseTopology json hashOrder src config popts = .error e) ∨
    ∃ p, Plan.planTopology json src config popts = .ok p ∧
      (((∃ k, p.Uneven k) ∧
          ∃ context, parseTopology json hashOrder src config popts = sfsErr .blockFactorMismatch AxisUnionFind.mismatch context) ∨
        (¬∃ k, p.Uneven k) ∧ ∃ topo group, parseTopology json hashOrder src config popts = .ok topo ∧ p.Realized topo group)

section
variable {json : JsonLib} {path : String} {file : Bytes} {opts : StSourceOptions} {s : StSource} {blocks : BlockReads}
  {c : Commit} {m : Manifest} {config : Bytes}

/-- The header that a file was opened with is the header of its prefix. -/
theorem openFile_header (h : StSource.openFile json path file opts = .ok s) :
    parseStHeader json s.headerPrefix = .ok s.header ∧ s.layout = s.header.bufferLayout := by
  unfold StSource.openFile at h
  split at h
  · exact absurd h sfsErr_ne_ok
  · obtain ⟨n, -, h⟩ := bind_eq_ok.mp h
    split at h
    · exact absurd h sfsErr_ne_ok
    · obtain ⟨header, hheader, h⟩ := bind_eq_ok.mp h
      obtain ⟨-, -, h⟩ := bind_eq_ok.mp h
      cases h
      exact ⟨hheader, rfl⟩

theorem listed_header (h : StHeader) : Plan.Listed (headerOnlySource h) := fun name t hmeta =>
  List.mem_map.mpr ⟨⟨name, t.dataOff, t.nbytes, name⟩, mem_bufferLayout.mpr ⟨t, hmeta, rfl⟩, rfl⟩

/-- The parser reads no rows: the file and its header are parsed alike. -/
theorem parse_headerOnly (hlayout : s.layout = s.header.bufferLayout) (hashOrder : List (Nat × List Nat) → List (Nat × List Nat))
    (opts' : ParseOptions) : parseTopology json hashOrder s.source config opts' =
      parseTopology json hashOrder (headerOnlySource s.header) config opts' := by
  unfold StSource.source headerOnlySource
  rw [hlayout]
  rfl

theorem parse_noLayers {src : TensorSource} {hashOrder : List (Nat × List Nat) → List (Nat × List Nat)} {text : Bytes}
    (hne : text ≠ []) (hjson : json.parse text = .ok (.obj [])) :
    parseTopology json hashOrder src text ⟨true⟩ = sfsErr .topologyParse "config.json has no 'layers' array" "" := by
  have hbuild : buildAxes json src text ⟨true⟩ = sfsErr .topologyParse "config.json has no 'layers' array" "" := by
    unfold buildAxes parseConfig
    rw [if_neg hne, hjson]
    rfl
  unfold parseTopology
  rw [hbuild]
  rfl

/-- What `parse_cases` leaves of a parser that has made a topology. -/
theorem realized_of_parse {src : TensorSource} {hashOrder : List (Nat × List Nat) → List (Nat × List Nat)} {popts : ParseOptions}
    {topo : Topology} (hcases : Parsed json hashOrder src config popts)
    (hparse : parseTopology json hashOrder src config popts = .ok topo) :
    ∃ p group, Plan.planTopology json src config popts = .ok p ∧ (¬∃ k, p.Uneven k) ∧ p.Realized topo group := by
  rcases hcases with ⟨e, -, herr⟩ | ⟨p, hplan, ⟨-, context, herr⟩ | ⟨heven, topo', group, hparse', hreal⟩⟩
  · rw [hparse] at herr
    cases herr
  · rw [hparse] at herr
    exact absurd herr.symm sfsErr_ne_ok
  · rw [hparse] at hparse'
    cases hparse'
    exact ⟨p, group, hplan, heven, hreal⟩

theorem parse_of_plan {src : TensorSource} {hashOrder : List (Nat × List Nat) → List (Nat × List Nat)} {popts : ParseOptions}
    {p : Plan} (hcases : Parsed json hashOrder src config popts) (hplan : Plan.planTopology json src config popts = .ok p)
    (heven : ¬∃ k, p.Uneven k) :
    ∃ topo group, parseTopology json hashOrder src config popts = .ok topo ∧ p.Realized topo group := by
  rcases hcases with ⟨e, herr, -⟩ | ⟨q, hq, ⟨hbad, -⟩ | ⟨-, hres⟩⟩
  · rw [hplan] at herr
    cases herr
  · rw [hplan] at hq
    cases hq
    exact absurd hbad heven
  · rw [hplan] at hq
    cases hq
    exact hres

theorem loadCommitTopology_eq (hopen : StSource.openFile json path file opts = .ok s)
    (hstored : TopologyStored blocks c m s config) (hashOrder : List (Nat × List Nat) → List (Nat × List Nat)) :
    loadCommitTopology json hashOrder blocks c m =
      orNone (parseTopology json hashOrder (headerOnlySource s.header) (topologyObject config) ⟨true⟩) := by
  unfold loadCommitTopology
  rw [hstored.header, hstored.topology]
  simp only [bind, Except.bind]
  rw [(openFile_header hopen).1]

end

/-- **What a checkout parses is what the commit parsed.** A commit without a configuration has no topology when it is
read, and a lenient commit has none if its configuration has a layer of a type that the parser does not know. Otherwise
the topology that is read has the same classes, and pins what the commit pinned, and the input besides: it is the same
topology if the commit was strict and the tables are gone through in the same order. -/
theorem checkout_topology {json : JsonLib} {path : String} {file : Bytes} {opts : StSourceOptions} {s : StSource}
    {blocks : BlockReads} {c : Commit} {m : Manifest} {config : Bytes}
    {hashOrder hashOrder' : List (Nat × List Nat) → List (Nat × List Nat)} {strict : Bool} {topo : Topology}
    (hopen : StSource.openFile json path file opts = .ok s) (hstored : TopologyStored blocks c m s config)
    (hhash : ∀ l, (hashOrder l).Perm l) (hhash' : ∀ l, (hashOrder' l).Perm l) (hfew : 2 * s.layout.length + 4 < 2 ^ 32)
    (htyped : ∀ name t, s.tensorMeta name = some t → ∀ d ∈ t.shape, d < 2 ^ 32)
    (hempty : json.parse [0x7b, 0x7d] = .ok (.obj []))
    (hparse : parseTopology json hashOrder s.source config ⟨strict⟩ = .ok topo) :
    config = [] ∧ loadCommitTopology json hashOrder' blocks c m = .ok none ∨
      strict = false ∧ Plan.Unsupported (parseTopology json hashOrder' s.source config ⟨true⟩) ∧
        loadCommitTopology json hashOrder' blocks c m = .ok none ∨
      ∃ (p p' : Plan) (topo' : Topology) (group group' : AxisClass → String),
        loadCommitTopology json hashOrder' blocks c m = .ok (some topo') ∧ p.Realized topo group ∧
        p'.Realized topo' group' ∧ p'.axes = p.axes ∧ (∀ k, strict = true ∨ k ≠ .input → (k ∈ p'.pinned ↔ k ∈ p.pinned)) ∧
        (strict = true → hashOrder' = hashOrder → topo' = topo) := by
  obtain ⟨-, hlayout⟩ := openFile_header hopen
  have hload := loadCommitTopology_eq hopen hstored hashOrder'
  by_cases hconfig : config = []
  · refine .inl ⟨hconfig, ?_⟩
    rw [hload, topologyObject, if_pos hconfig, parse_noLayers (by decide) hempty]
    rfl
  rw [topologyObject, if_neg hconfig] at hload
  rw [parse_headerOnly hlayout] at hparse
  rw [parse_headerOnly hlayout, hload]
  rw [hlayout] at hfew
  have hlisted := listed_header s.header
  have hcommit := parse_cases json hashOrder (headerOnlySource s.header) config ⟨strict⟩ hhash hlisted hfew htyped
  have hread := parse_cases json hashOrder' (headerOnlySource s.header) config ⟨true⟩ hhash' hlisted hfew htyped
  obtain ⟨p, group, hplan, heven, hreal⟩ := realized_of_parse hcommit hparse
  cases strict with
  | true =>
    obtain ⟨topo', group', hparse', hreal'⟩ := parse_of_plan hread hplan heven
    refine .inr (.inr ⟨p, p, topo', group, group', by rw [hparse']; rfl, hreal, hreal', rfl, fun _ _ => Iff.rfl, ?_⟩)
    rintro - rfl
    rw [hparse] at hparse'
    exact (Except.ok.inj hparse').symm
  | false =>
    rcases Plan.planTopology_looser json (headerOnlySource s.header) config with
      ⟨context, hstrict⟩ | ⟨e, -, hlenient⟩ | ⟨p', q, hstrict, hlenient, hlooser⟩
    · have hfails : parseTopology json hashOrder' (headerOnlySource s.header) config ⟨true⟩ =
          sfsErr .topologyParse "unsupported layer type" context := by
        rcases hread with ⟨e, he, hparse'⟩ | ⟨p', hp', -⟩
        · rw [hparse', Except.error.inj (he.symm.trans hstrict)]
          rfl
        · rw [hstrict] at hp'
          cases hp'
      exact .inr (.inl ⟨rfl, ⟨context, hfails⟩, by rw [hfails]; rfl⟩)
    · rw [hlenient] at hplan
      cases hplan
    · rw [hlenient] at hplan
      cases hplan
      have heven' : ¬∃ k, p'.Uneven k := by
        rintro ⟨k, hk⟩
        rw [Plan.Uneven, ← hlooser.axes] at hk
        exact heven ⟨k, hk⟩
      obtain ⟨topo', group', hparse', hreal'⟩ := parse_of_plan hread hstrict heven'
      refine .inr (.inr ⟨p, p', topo', group, group', by rw [hparse']; rfl, hreal, hreal', hlooser.axes.symm, ?_, ?_⟩)
      · rintro k (hk | hk)
        · cases hk
        · rw [hlooser.pinned, List.mem_filter, decide_eq_true_iff]
          exact ⟨fun h => ⟨h, hk⟩, fun h => h.1⟩
      · intro hstrict
        cases hstrict

/-! ### A file of one weight -/

/-- The text of a configuration. -/
def geluConfig : Bytes := [0x7b, 1, 0x7d]

/-- The weight is linear, and there is a layer that the parser does not know behind it. -/
def oneWeightJson : JsonLib where
  parse text :=
    if text = [0x7b, 0x7d] then .ok (.obj [])
    else if text = geluConfig then
      .ok (.obj [("layers", .arr [.obj [("type", .str "linear")], .obj [("type", .str "gelu")]])])
    else .ok (.obj [("0.weight", .obj [("data_offsets", .arr [.uint 0, .uint 4]), ("dtype", .str "U8"),
      ("shape", .arr [.uint 2, .uint 2])])])
  dump _ := []

def oneWeightPrefix : Bytes := storeLe 8 1 ++ [0x7b]

def oneWeightSource : StSource where
  file := oneWeightPrefix ++ [1, 2, 3, 4]
  useMmap := false
  headerPrefix := oneWeightPrefix
  header := ⟨9, ⟨[("0.weight", ⟨"0.weight", [2, 2], .u8, 9, 4⟩)], List.nodup_singleton _⟩, .empty⟩
  layout := [⟨"0.weight", 9, 4, "0.weight"⟩]

def oneWeightBlocks : BlockReads where
  get _ kind := .ok (if kind = .header then oneWeightPrefix else geluConfig)
  readRange _ _ _ out := .ok (0, out)

/-- A lenient commit of it. -/
theorem checkout_topology_oneWeight : ∃ topo, parseTopology oneWeightJson id oneWeightSource.source geluConfig ⟨false⟩ = .ok topo ∧
    (geluConfig = [] ∧
        loadCommitTopology oneWeightJson List.reverse oneWeightBlocks (Store.rootCommit 0) Store.plainManifest = .ok none ∨
      false = false ∧ Plan.Unsupported (parseTopology oneWeightJson List.reverse oneWeightSource.source geluConfig ⟨true⟩) ∧
        loadCommitTopology oneWeightJson List.reverse oneWeightBlocks (Store.rootCommit 0) Store.plainManifest = .ok none ∨
      ∃ (p p' : Plan) (topo' : Topology) (group group' : AxisClass → String),
        loadCommitTopology oneWeightJson List.reverse oneWeightBlocks (Store.rootCommit 0) Store.plainManifest =
          .ok (some topo') ∧ p.Realized topo group ∧ p'.Realized topo' group' ∧ p'.axes = p.axes ∧
        (∀ k, false = true ∨ k ≠ .input → (k ∈ p'.pinned ↔ k ∈ p.pinned)) ∧
        (false = true → List.reverse = (id : List (Nat × List Nat) → List (Nat × List Nat)) → topo' = topo)) := by
  have hopen : StSource.openFile oneWeightJson "model.safetensors" oneWeightSource.file ⟨false⟩ = .ok oneWeightSource := rfl
  refine ⟨_, rfl, checkout_topology hopen ⟨rfl, rfl⟩ (fun _ => List.Perm.refl _) List.reverse_perm (by decide) ?_ rfl rfl⟩
  intro name t hmeta d hd
  have hmem : (name, t) ∈ [("0.weight", (⟨"0.weight", [2, 2], .u8, 9, 4⟩ : TensorMeta))] := FinMap.get?_eq_some.mp hmeta
  cases List.mem_singleton.mp hmem
  rcases List.mem_pair.mp hd with rfl | rfl <;> decide

end SynapseFs.Cmd
