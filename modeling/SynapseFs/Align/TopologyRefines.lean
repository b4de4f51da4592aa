import SynapseFs.Align.TopologyWalk

/-! The parser refines the plan.

Behind the layers come the tensors that they left, then `finalize` and the check of the
shapes, which never fails. The two options differ in the pin of the input and in layers
of a type that the parser does not know. -/
namespace SynapseFs.Align
open Lib Core
open Format (Json JsonLib)

/-! ### The rest of the file -/

/-- The parser is where the plan is, behind the layers. -/
structure Covering (src : TensorSource) (p : Plan) (st : BuildState) : Prop where
  tracked : ∃ ops, Tracked p.axes p.pinned st ops
  sized : Plan.Sized src p.axes
  own : ∀ a ∈ p.axes, ∀ t, a.cls = .own t → a.key.tensor = t

section
variable {src : TensorSource} {p : Plan} {st : BuildState}

theorem tracked_nil : Tracked [] [] .empty [] where
  built := ⟨id, AxisOp.built_nil⟩
  added := rfl
  sound x y h := absurd h List.not_mem_nil
  linked x y a b ha := by simp at ha
  pinSound h hpin := absurd hpin List.not_mem_nil
  pinComplete c hc := absurd hc List.not_mem_nil
  recorded tensor dim h := absurd rfl h
  touched t := Iff.rfl

theorem covering_nil : Covering src ⟨[], [], none, []⟩ .empty where
  tracked := ⟨[], tracked_nil⟩
  sized _ ha := absurd ha List.not_mem_nil
  own _ ha := absurd ha List.not_mem_nil

theorem follows_nil (spatial : List Int) : Follows 0 ⟨[], [], none, spatial⟩ ⟨.empty, none, spatial⟩ where
  tracked := ⟨[], tracked_nil⟩
  spatial := rfl
  current := .inl ⟨rfl, rfl, rfl⟩
  named _ ha := absurd ha List.not_mem_nil
  classes _ ha := absurd ha List.not_mem_nil

theorem Follows.covering {idx : Nat} {w : Walk} (f : Follows idx p w) (hsized : Plan.Sized src p.axes) :
    Covering src p w.st where
  tracked := f.tracked
  sized := hsized
  own a ha t hown := by
    rcases f.classes a ha with he | ⟨i, -, he⟩
    · rw [he] at hown
      cases hown
    · rw [he] at hown
      cases hown

variable (hlisted : Plan.Listed src) (hfew : 2 * src.bufferLayout.length + 4 < 2 ^ 32)
include hlisted hfew

theorem walkLayers_covers (layers : Json) (inputShape : Option (List Int)) (opts : ParseOptions) :
    (∃ e, Plan.planLayers src layers inputShape opts = .error e ∧ walkLayers src layers inputShape opts .empty = .error e) ∨
      ∃ p st, Plan.planLayers src layers inputShape opts = .ok p ∧ walkLayers src layers inputShape opts .empty = .ok st ∧
        Covering src p st := by
  unfold Plan.planLayers walkLayers
  cases layerList layers with
  | error e => exact .inl ⟨e, rfl, rfl⟩
  | ok layers =>
    simp only [bind, Except.bind]
    cases paramIndices layers with
    | error e => exact .inl ⟨e, rfl, rfl⟩
    | ok params =>
      dsimp only
      cases params.getLast? with
      | none => exact .inl ⟨_, rfl, rfl⟩
      | some lastParamIdx =>
        dsimp only
        rcases layers_follow hlisted hfew lastParamIdx layers (follows_nil (inputShape.getD []))
          (fun a ha => absurd ha List.not_mem_nil) with ⟨e, hplan, hwalk⟩ | ⟨p, w, hplan, hwalk, f, hsized⟩
        · rw [hplan, hwalk]
          exact .inl ⟨e, rfl, rfl⟩
        · rw [hplan, hwalk]
          exact .inr ⟨p, w.st, rfl, rfl, f.covering hsized⟩

theorem buildAxes_covers (lib : JsonLib) (config : Bytes) (opts : ParseOptions) :
    (∃ e, Plan.planAxes lib src config opts = .error e ∧ buildAxes lib src config opts = .error e) ∨
      ∃ p st, Plan.planAxes lib src config opts = .ok p ∧ buildAxes lib src config opts = .ok st ∧ Covering src p st := by
  unfold Plan.planAxes buildAxes
  by_cases hempty : config = []
  · rw [if_pos hempty, if_pos hempty]
    exact .inr ⟨_, _, rfl, rfl, covering_nil⟩
  rw [if_neg hempty, if_neg hempty]
  cases parseConfig lib config with
  | error e => exact .inl ⟨e, rfl, rfl⟩
  | ok cfg =>
    simp only [bind, Except.bind]
    by_cases hlayers : cfg.contains "layers"
    · rw [if_pos hlayers, if_pos hlayers]
      cases inputShapeOf cfg with
      | error e => exact .inl ⟨e, rfl, rfl⟩
      | ok inputShape =>
        cases cfg.atKey "layers" with
        | error e => exact .inl ⟨e, rfl, rfl⟩
        | ok layers => exact walkLayers_covers hlisted hfew layers inputShape opts
    · rw [if_neg hlayers, if_neg hlayers]
      exact .inl ⟨_, rfl, rfl⟩

theorem coverTensor_covers (c : Covering src p st) (entry : Core.BufferEntry) :
    ∃ st', coverTensor src st entry = .ok st' ∧ Covering src (Plan.cover src p entry) st' := by
  obtain ⟨ops, t⟩ := c.tracked
  unfold coverTensor Plan.cover
  by_cases htouched : entry.tensor ∈ p.axes.map fun a => a.key.tensor
  · rw [if_pos ((t.touched _).mpr htouched), if_pos htouched]
    exact ⟨st, rfl, c⟩
  rw [if_neg fun h => htouched ((t.touched _).mp h), if_neg htouched]
  cases hmeta : src.tensorMeta entry.tensor with
  | none => exact ⟨st, rfl, c⟩
  | some m =>
    dsimp only
    cases hshape : m.shape with
    | nil => exact ⟨st, rfl, c⟩
    | cons len rest =>
      have hnew : (⟨entry.tensor, 0⟩ : AxisKey) ∉ p.axes.map Axis.key := by
        intro hmem
        obtain ⟨a, ha, hkey⟩ := List.mem_map.mp hmem
        exact htouched (List.mem_map.mpr ⟨a, ha, by rw [hkey]⟩)
      have hclass : AxisClass.own entry.tensor ∉ p.axes.map Axis.cls := by
        intro hmem
        obtain ⟨a, ha, hcls⟩ := List.mem_map.mp hmem
        exact htouched (List.mem_map.mpr ⟨a, ha, c.own a ha _ hcls⟩)
      have hsmall := Plan.length_le_of_sized c.sized hlisted t.nodup
      obtain ⟨hhandle, t'⟩ := t.fresh ⟨⟨entry.tensor, 0⟩, len, .own entry.tensor⟩ hnew (by omega) hclass
      obtain ⟨st', hpin, t''⟩ := t'.pin (h := p.axes.length) (a := ⟨⟨entry.tensor, 0⟩, len, .own entry.tensor⟩) (by simp)
      rw [← hhandle] at hpin
      refine ⟨st', hpin, ⟨_, t''⟩, fun a ha => ?_, fun a ha => ?_⟩
      · rcases List.mem_append.mp ha with ha | ha
        · exact c.sized a ha
        · rw [List.mem_singleton.mp ha]
          exact ⟨by simp, m, hmeta, by simp [hshape]⟩
      · rcases List.mem_append.mp ha with ha | ha
        · exact c.own a ha
        · rw [List.mem_singleton.mp ha]
          rintro t ⟨⟩
          rfl

theorem coverTensors_covers (layout : List Core.BufferEntry) : ∀ {p : Plan} {st : BuildState}, Covering src p st →
    ∃ st', layout.foldlM (coverTensor src) st = .ok st' ∧ Covering src (layout.foldl (Plan.cover src) p) st' := by
  induction layout with
  | nil => exact fun c => ⟨_, rfl, c⟩
  | cons entry layout ih =>
    intro p st c
    obtain ⟨st', hcover, c'⟩ := coverTensor_covers hlisted hfew c entry
    obtain ⟨st'', hcovers, c''⟩ := ih c'
    refine ⟨st'', ?_, c''⟩
    rw [List.foldlM_cons, hcover]
    exact hcovers

end

/-! ### The topology -/

section
variable {src : TensorSource} {p : Plan} {st : BuildState} {ops : List AxisOp}

/-- The lengths that `finalize` compares are those of a class. -/
theorem lengths_eq (t : Tracked p.axes p.pinned st ops) {h : Nat} {a : Axis} (ha : p.axes[h]? = some a) :
    AxisOp.lengths ops h = {len | ∃ b ∈ p.axes, b.cls = a.cls ∧ b.len = len} := by
  ext len
  constructor
  · rintro ⟨j, key, hj, hconnected⟩
    rw [t.added, List.getElem?_map, Option.map_eq_some_iff] at hj
    obtain ⟨b, hb, he⟩ := hj
    exact ⟨b, List.mem_of_getElem? hb, ((t.connected_iff ha hb).mp hconnected).symm, congrArg Prod.snd he⟩
  · rintro ⟨b, hb, hcls, rfl⟩
    obtain ⟨j, hj⟩ := List.getElem?_of_mem hb
    refine ⟨j, b.key, ?_, (t.connected_iff ha hj).mpr hcls.symm⟩
    rw [t.added, List.getElem?_map, hj]
    rfl

theorem uneven_iff (t : Tracked p.axes p.pinned st ops) {h : Nat} {a : Axis} (ha : p.axes[h]? = some a) :
    AxisOp.Uneven ops h ↔ p.Uneven a.cls := by
  rw [AxisOp.Uneven, Plan.Uneven, lengths_eq t ha]
  simp only [Set.mem_ofPred_eq]
  constructor
  · rintro ⟨m, hm, rfl | ⟨len, ⟨b, hb, hcls, rfl⟩, hdvd⟩⟩
    · exact ⟨0, hm, .inl rfl⟩
    · exact ⟨m, hm, .inr ⟨b, hb, hcls, hdvd⟩⟩
  · rintro ⟨m, hm, rfl | ⟨b, hb, hcls, hdvd⟩⟩
    · exact ⟨0, hm, .inl rfl⟩
    · exact ⟨m, hm, .inr ⟨b.len, ⟨b, hb, hcls, rfl⟩, hdvd⟩⟩

theorem exists_uneven_class (t : Tracked p.axes p.pinned st ops) : (∃ h, AxisOp.Uneven ops h) ↔ ∃ c, p.Uneven c := by
  constructor
  · rintro ⟨h, m, hm, hbad⟩
    obtain ⟨⟨j, key, hj, hconnected⟩, -⟩ := id hm
    rw [t.added, List.getElem?_map, Option.map_eq_some_iff] at hj
    obtain ⟨b, hb, -⟩ := hj
    have hlengths : AxisOp.lengths ops h = AxisOp.lengths ops j := AxisOp.lengths_congr hconnected
    exact ⟨b.cls, (uneven_iff t hb).mp ⟨m, hlengths ▸ hm, by rwa [← hlengths]⟩⟩
  · rintro ⟨c, m, hm, hbad⟩
    obtain ⟨⟨b, hb, hcls, -⟩, -⟩ := id hm
    obtain ⟨j, hj⟩ := List.getElem?_of_mem hb
    exact ⟨j, (uneven_iff t hj).mpr ⟨m, hcls ▸ hm, hcls ▸ hbad⟩⟩

/-- The name that `finalize` gives the first axis of a class. -/
def classGroup (p : Plan) (group : Nat → String) (c : AxisClass) : String :=
  group (p.axes.findIdx fun a => a.cls = c)

theorem classGroup_eq (t : Tracked p.axes p.pinned st ops) {topo : Topology} {group : Nat → String}
    (hfin : AxisOp.Finalized ops topo group) {h : Nat} {a : Axis} (ha : p.axes[h]? = some a) :
    classGroup p group a.cls = group h := by
  have hlt : p.axes.findIdx (fun b => b.cls = a.cls) < p.axes.length :=
    List.findIdx_lt_length_of_exists ⟨a, List.mem_of_getElem? ha, by simp⟩
  have hcls : (p.axes[p.axes.findIdx fun b => b.cls = a.cls]).cls = a.cls := by
    simpa using List.findIdx_getElem (w := hlt)
  refine (hfin.same _ _ (t.length ▸ hlt) (t.length ▸ (List.getElem?_eq_some_iff.mp ha).1)).mpr ?_
  exact (t.connected_iff (List.getElem?_eq_getElem hlt) ha).mpr hcls

theorem realized (t : Tracked p.axes p.pinned st ops) {topo : Topology} {group : Nat → String}
    (hfin : AxisOp.Finalized ops topo group) : p.Realized topo (classGroup p group) where
  inj a ha b hb h := by
    obtain ⟨i, hi⟩ := List.getElem?_of_mem ha
    obtain ⟨j, hj⟩ := List.getElem?_of_mem hb
    rw [classGroup_eq t hfin hi, classGroup_eq t hfin hj] at h
    refine (t.connected_iff hi hj).mp ((hfin.same i j ?_ ?_).mp h)
    · exact t.length ▸ (List.getElem?_eq_some_iff.mp hi).1
    · exact t.length ▸ (List.getElem?_eq_some_iff.mp hj).1
  bound a ha := by
    obtain ⟨i, hi⟩ := List.getElem?_of_mem ha
    have hadded : (AxisOp.added ops)[i]? = some (a.key, a.len) := by
      rw [t.added, List.getElem?_map, hi]
      rfl
    obtain ⟨g, block, bindings, hgroup, hbindings, hmem, hlen, hpinned⟩ := hfin.bound i _ _ hadded
    rw [classGroup_eq t hfin hi]
    refine ⟨g, block, bindings, hgroup, hbindings, hmem, hlen, hpinned.trans ⟨?_, fun hc => ?_⟩⟩
    · rintro ⟨j, hconnected, hpin⟩
      obtain ⟨b, hb, hc⟩ := t.pinSound j hpin
      rwa [(t.connected_iff hi hb).mp hconnected]
    · obtain ⟨j, b, hb, hcls, hpin⟩ := t.pinComplete _ hc
      exact ⟨j, (t.connected_iff hi hb).mpr hcls.symm, hpin⟩
  only tensor bindings h := by
    obtain ⟨hnodup, hkeys⟩ := hfin.once tensor bindings h
    refine ⟨hnodup, fun b hb => ?_⟩
    have hmem := hkeys b hb
    rw [t.keys] at hmem
    obtain ⟨a, ha, hkey⟩ := List.mem_map.mp hmem
    exact ⟨a, ha, hkey⟩
  named name hname := by
    obtain ⟨h, hlt, rfl⟩ := hfin.named name hname
    have hlt' : h < p.axes.length := t.length ▸ hlt
    exact ⟨p.axes[h], List.getElem_mem _, classGroup_eq t hfin (List.getElem?_eq_getElem hlt')⟩

theorem shapesOf_spec (hlisted : Plan.Listed src) {name : String} {m : TensorMeta} (h : src.tensorMeta name = some m) :
    (shapesOf src).get? name = some m.shape := by
  have hfold : ∀ (layout : List Core.BufferEntry) (shapes : FinMap String (List Nat)),
      name ∈ layout.map (·.tensor) ∨ shapes.get? name = some m.shape →
      (layout.foldl (addShape src) shapes).get? name = some m.shape := by
    intro layout
    induction layout with
    | nil => exact fun shapes h => h.elim (fun h => absurd h List.not_mem_nil) id
    | cons entry layout ih =>
      intro shapes hor
      refine ih _ ?_
      unfold addShape
      rw [List.map_cons, List.mem_cons] at hor
      by_cases hname : name = entry.tensor
      · right
        rw [← hname, h]
        exact FinMap.get?_insert_self _ _ _
      · rcases hor with (hhead | hrest) | hget
        · exact absurd hhead hname
        · exact .inl hrest
        · right
          cases src.tensorMeta entry.tensor with
          | none => exact hget
          | some m' => rwa [FinMap.get?_insert_ne _ _ hname]
  exact hfold _ _ (.inl (hlisted name m h))

end

/-- The parser fails where the plan fails, or because the lengths of a class do not fit, or makes the classes. -/
theorem parse_cases (lib : JsonLib) (hashOrder : List (Nat × List Nat) → List (Nat × List Nat)) (src : TensorSource)
    (config : Bytes) (opts : ParseOptions) (hhash : ∀ l, (hashOrder l).Perm l) (hlisted : Plan.Listed src)
    (hfew : 2 * src.bufferLayout.length + 4 < 2 ^ 32)
    (htyped : ∀ name m, src.tensorMeta name = some m → ∀ d ∈ m.shape, d < 2 ^ 32) :
    (∃ e, Plan.planTopology lib src config opts = .error e ∧ parseTopology lib hashOrder src config opts = .error e) ∨
      ∃ p, Plan.planTopology lib src config opts = .ok p ∧
        (((∃ c, p.Uneven c) ∧
            ∃ context, parseTopology lib hashOrder src config opts = sfsErr .blockFactorMismatch AxisUnionFind.mismatch context) ∨
          (¬∃ c, p.Uneven c) ∧ ∃ topo group, parseTopology lib hashOrder src config opts = .ok topo ∧ p.Realized topo group) := by
  unfold Plan.planTopology parseTopology
  rcases buildAxes_covers hlisted hfew lib config opts with ⟨e, hplan, hbuild⟩ | ⟨p, st, hplan, hbuild, c⟩
  · rw [hplan, hbuild]
    exact .inl ⟨e, rfl, rfl⟩
  obtain ⟨st', hcover, c'⟩ := coverTensors_covers hlisted hfew src.bufferLayout c
  obtain ⟨ops, t⟩ := c'.tracked
  obtain ⟨root, hbuilt⟩ := t.built
  refine .inr ⟨src.bufferLayout.foldl (Plan.cover src) p, by rw [hplan]; rfl, ?_⟩
  have hlen : ∀ a ∈ AxisOp.added ops, a.2 < 2 ^ 32 := by
    intro a ha
    rw [t.added] at ha
    obtain ⟨b, hb, rfl⟩ := List.mem_map.mp ha
    obtain ⟨-, m, hmeta, hdim⟩ := c'.sized b hb
    exact htyped _ m hmeta _ (List.mem_of_getElem? hdim)
  have hsmall : (AxisOp.added ops).length < 2 ^ 32 := by
    have := Plan.length_le_of_sized c'.sized hlisted t.nodup
    rw [t.length]
    omega
  have hrecorded : AxisOp.Recorded ops (shapesOf src) := by
    intro key len hmem
    rw [t.added] at hmem
    obtain ⟨b, hb, he⟩ := List.mem_map.mp hmem
    cases he
    obtain ⟨-, m, hmeta, hdim⟩ := c'.sized b hb
    exact ⟨m.shape, shapesOf_spec hlisted hmeta, hdim⟩
  rw [hbuild]
  simp only [bind, Except.bind, hcover]
  rw [← exists_uneven_class t]
  rcases AxisOp.finalize_cases hbuilt hlen hsmall hhash with ⟨hno, topo, uf, group, hfin, hspec⟩ | ⟨hbad, context, hfin⟩
  · refine .inr ⟨hno, topo, _, ?_, realized t hspec⟩
    rw [hfin]
    dsimp only
    rw [hspec.valid _ hrecorded]
    rfl
  · refine .inl ⟨hbad, context, ?_⟩
    rw [hfin]
    rfl

/-- Two layers with a flatten between them, and a counter that no layer names. -/
def flattenedSource : TensorSource where
  bufferLayout := [⟨"0.weight", 0, 12, ""⟩, ⟨"0.bias", 12, 4, ""⟩, ⟨"2.weight", 16, 16, ""⟩, ⟨"steps", 32, 1, ""⟩]
  tensorMeta name :=
    ([("0.weight", [4, 3]), ("0.bias", [4]), ("2.weight", [2, 8]), ("steps", [1])].lookup name).map fun shape =>
      ⟨name, shape, .u8, 0, shape.prod⟩
  readUnits _ _ _ out := .ok (out.length, out)

def flattenedConfig : JsonLib where
  parse _ := .ok (.obj [("layers", .arr [.obj [("type", .str "linear")], .obj [("type", .str "flatten")],
    .obj [("type", .str "linear")]])])
  dump _ := []

theorem flattenedSource_known {name : String} {m : TensorMeta} (h : flattenedSource.tensorMeta name = some m) :
    name ∈ flattenedSource.bufferLayout.map (·.tensor) ∧ ∀ d ∈ m.shape, d < 2 ^ 32 := by
  obtain ⟨shape, hlookup, rfl⟩ := Option.map_eq_some_iff.mp h
  obtain ⟨front, back, he, -⟩ := List.lookup_eq_some_iff.mp hlookup
  have hmem : (name, shape) ∈ [("0.weight", [4, 3]), ("0.bias", [4]), ("2.weight", [2, 8]), ("steps", [1])] := by
    rw [he]
    simp
  have hall : ∀ e ∈ [("0.weight", [4, 3]), ("0.bias", [4]), ("2.weight", [2, 8]), ("steps", [1])],
      e.1 ∈ flattenedSource.bufferLayout.map (·.tensor) ∧ ∀ d ∈ e.2, d < 2 ^ 32 := by decide
  exact hall _ hmem

/-- What strictness adds: it pins the input of the network, and it refuses layers of a type that the parser does not
know. It changes neither the groups nor any other failure. -/
theorem parse_lenient (lib : JsonLib) (hashOrder : List (Nat × List Nat) → List (Nat × List Nat)) (src : TensorSource)
    (config : Bytes) (hhash : ∀ l, (hashOrder l).Perm l) (hlisted : Plan.Listed src)
    (hfew : 2 * src.bufferLayout.length + 4 < 2 ^ 32)
    (htyped : ∀ name m, src.tensorMeta name = some m → ∀ d ∈ m.shape, d < 2 ^ 32) :
    Plan.Unsupported (parseTopology lib hashOrder src config ⟨true⟩) ∨
      (∃ e, parseTopology lib hashOrder src config ⟨true⟩ = .error e ∧
        parseTopology lib hashOrder src config ⟨false⟩ = .error e) ∨
      (∃ context context', parseTopology lib hashOrder src config ⟨true⟩ =
          sfsErr .blockFactorMismatch AxisUnionFind.mismatch context ∧
        parseTopology lib hashOrder src config ⟨false⟩ = sfsErr .blockFactorMismatch AxisUnionFind.mismatch context') ∨
      ∃ (p p' : Plan) (topo topo' : Topology) (group group' : AxisClass → String),
        parseTopology lib hashOrder src config ⟨true⟩ = .ok topo ∧
        parseTopology lib hashOrder src config ⟨false⟩ = .ok topo' ∧ p.Realized topo group ∧ p'.Realized topo' group' ∧
        p'.axes = p.axes ∧ ∀ c, c ∈ p'.pinned ↔ c ∈ p.pinned ∧ c ≠ .input := by
  have hstrict := parse_cases lib hashOrder src config ⟨true⟩ hhash hlisted hfew htyped
  have hlenient := parse_cases lib hashOrder src config ⟨false⟩ hhash hlisted hfew htyped
  rcases Plan.planTopology_looser lib src config with ⟨context, hplan⟩ | ⟨e, hplan, hplan'⟩ | ⟨p, p', hplan, hplan', h⟩
  · rcases hstrict with ⟨e, he, hparse⟩ | ⟨p, hp, -⟩
    · rw [he] at hplan
      exact .inl ⟨context, by rw [hparse, Except.error.inj hplan]; rfl⟩
    · rw [hplan] at hp
      cases hp
  · rcases hstrict with ⟨e₁, he₁, hparse⟩ | ⟨p, hp, -⟩
    · rcases hlenient with ⟨e₂, he₂, hparse'⟩ | ⟨p, hp, -⟩
      · rw [hplan] at he₁
        rw [hplan'] at he₂
        cases he₁
        cases he₂
        exact .inr (.inl ⟨e, hparse, hparse'⟩)
      · rw [hplan'] at hp
        cases hp
    · rw [hplan] at hp
      cases hp
  · rcases hstrict with ⟨e, he, -⟩ | ⟨q, hq, hres⟩
    · rw [hplan] at he
      cases he
    rcases hlenient with ⟨e, he, -⟩ | ⟨q', hq', hres'⟩
    · rw [hplan'] at he
      cases he
    rw [hplan] at hq
    rw [hplan'] at hq'
    cases hq
    cases hq'
    have huneven : ∀ c, p'.Uneven c ↔ p.Uneven c := fun c => by rw [Plan.Uneven, Plan.Uneven, h.axes]
    simp only [huneven] at hres'
    rcases hres with ⟨hbad, context, hparse⟩ | ⟨hno, topo, group, hparse, hreal⟩
    · rcases hres' with ⟨-, context', hparse'⟩ | ⟨hno, -⟩
      · exact .inr (.inr (.inl ⟨context, context', hparse, hparse'⟩))
      · exact absurd hbad hno
    · rcases hres' with ⟨hbad, -⟩ | ⟨-, topo', group', hparse', hreal'⟩
      · exact absurd hbad hno
      · refine .inr (.inr (.inr ⟨p, p', topo, topo', group, group', hparse, hparse', hreal, hreal', h.axes, fun c => ?_⟩))
        rw [h.pinned, List.mem_filter, decide_eq_true_iff]

theorem flattened_lenient :
    Plan.Unsupported (parseTopology flattenedConfig List.reverse flattenedSource [123] ⟨true⟩) ∨
      (∃ e, parseTopology flattenedConfig List.reverse flattenedSource [123] ⟨true⟩ = .error e ∧
        parseTopology flattenedConfig List.reverse flattenedSource [123] ⟨false⟩ = .error e) ∨
      (∃ context context', parseTopology flattenedConfig List.reverse flattenedSource [123] ⟨true⟩ =
          sfsErr .blockFactorMismatch AxisUnionFind.mismatch context ∧
        parseTopology flattenedConfig List.reverse flattenedSource [123] ⟨false⟩ =
          sfsErr .blockFactorMismatch AxisUnionFind.mismatch context') ∨
      ∃ (p p' : Plan) (topo topo' : Topology) (group group' : AxisClass → String),
        parseTopology flattenedConfig List.reverse flattenedSource [123] ⟨true⟩ = .ok topo ∧
        parseTopology flattenedConfig List.reverse flattenedSource [123] ⟨false⟩ = .ok topo' ∧ p.Realized topo group ∧
        p'.Realized topo' group' ∧ p'.axes = p.axes ∧ ∀ c, c ∈ p'.pinned ↔ c ∈ p.pinned ∧ c ≠ .input :=
  parse_lenient flattenedConfig List.reverse flattenedSource [123] List.reverse_perm
    (fun _ _ h => (flattenedSource_known h).1) (by decide) fun _ _ h => (flattenedSource_known h).2

end SynapseFs.Align
