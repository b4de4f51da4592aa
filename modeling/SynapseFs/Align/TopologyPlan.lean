import SynapseFs.Align.TopologyParser

/-! What the topology parser is for: axes by what they move with.

A plan gives every axis that the parser registers its class outright: the input of the
network, the output of a layer, or nothing but itself. It needs no union-find. The parser
refines it (`parse_refines`): it fails where the plan fails and with the same failure, and
otherwise its groups are the classes of the plan, pinned where the plan says so, unless
the lengths of some class are not multiples of the least of them. -/
namespace SynapseFs.Align
open Lib Core
open Format (Json JsonLib)

/-! ### Plans -/

/-- What an axis moves with. -/
inductive AxisClass where
  | input
  | output (layer : Nat)
  | own (tensor : String)
  deriving DecidableEq, Repr

structure Axis where
  key : AxisKey
  len : Nat
  cls : AxisClass
  deriving DecidableEq, Repr

structure Plan where
  axes : List Axis
  pinned : List AxisClass
  /-- The layer whose output is current. -/
  layer : Option Nat
  spatial : List Int

namespace Plan

def planVector (src : TensorSource) (name : String) (c : AxisClass) : Outcome (List Axis) :=
  match src.tensorMeta name with
  | none => .ok []
  | some m => do return [⟨⟨name, 0⟩, ← atOrThrow "vector::at" m.shape[0]?, c⟩]

def planParam (src : TensorSource) (opts : ParseOptions) (last : Bool) (p : Plan) (idx : Nat) (t : String) (layer : Json) :
    Outcome Plan := do
  let weight := toString idx ++ ".weight"
  let wmeta ← requireMeta src weight
  if wmeta.shape.length < 2 then sfsErr .topologyParse "linear/conv2d weight must have rank >= 2" weight
  else do
    let bias ← planVector src (toString idx ++ ".bias") (.output idx)
    let spatial ← paramSpatial t (wmeta.shape.getD 0 0) p.spatial layer
    return {
      axes := p.axes ++ [⟨⟨weight, 0⟩, wmeta.shape.getD 0 0, .output idx⟩,
        ⟨⟨weight, 1⟩, wmeta.shape.getD 1 0, p.layer.elim .input .output⟩] ++ bias
      pinned := p.pinned ++ (if p.layer = none ∧ opts.strict then [.input] else []) ++ if last then [.output idx] else []
      layer := some idx
      spatial := spatial }

def planNorm (src : TensorSource) (p : Plan) (idx : Nat) (t : String) : Outcome Plan :=
  match p.layer with
  | none => sfsErr .topologyParse (t ++ " with no preceding conv2d/linear") (toString idx)
  | some l => do
    let vectors ← normSuffixes.mapM fun suffix => planVector src (toString idx ++ suffix) (.output l)
    return { p with axes := p.axes ++ vectors.flatten }

def planLayer (src : TensorSource) (opts : ParseOptions) (lastParamIdx : Nat) (p : Plan) (e : Json × Nat) : Outcome Plan := do
  let (layer, idx) := e
  let t ← layerType layer
  if t = "" then sfsErr .topologyParse "layer missing 'type'" (toString idx)
  else if isParam t then planParam src opts (idx = lastParamIdx) p idx t layer
  else if isNorm t then planNorm src p idx t
  else if t = "maxpool2d" then do return { p with spatial := ← poolSpatial p.spatial layer }
  else if t = "flatten" then do return { p with spatial := ← flatSpatial p.spatial }
  else if isPlain t then return p
  else if opts.strict then sfsErr .topologyParse "unsupported layer type" (toString idx ++ ": " ++ t)
  else return p

def planLayers (src : TensorSource) (layers : Json) (inputShape : Option (List Int)) (opts : ParseOptions) : Outcome Plan := do
  let layers ← layerList layers
  let params ← paramIndices layers
  match params.getLast? with
  | none => sfsErr .topologyParse "config has no parameterized (linear/conv2d) layers" ""
  | some lastParamIdx => layers.zipIdx.foldlM (planLayer src opts lastParamIdx) ⟨[], [], none, inputShape.getD []⟩

/-- The tensors that are left, each on its own. -/
def cover (src : TensorSource) (p : Plan) (entry : Core.BufferEntry) : Plan :=
  if entry.tensor ∈ p.axes.map fun a => a.key.tensor then p
  else
    match src.tensorMeta entry.tensor with
    | none => p
    | some m =>
      match m.shape with
      | [] => p
      | len :: _ =>
        { p with axes := p.axes ++ [⟨⟨entry.tensor, 0⟩, len, .own entry.tensor⟩], pinned := p.pinned ++ [.own entry.tensor] }

def planAxes (lib : JsonLib) (src : TensorSource) (config : Bytes) (opts : ParseOptions) : Outcome Plan :=
  if config = [] then .ok ⟨[], [], none, []⟩
  else do
    let cfg ← parseConfig lib config
    if cfg.contains "layers" then do
      let inputShape ← inputShapeOf cfg
      planLayers src (← cfg.atKey "layers") inputShape opts
    else sfsErr .topologyParse "config.json has no 'layers' array" ""

def planTopology (lib : JsonLib) (src : TensorSource) (config : Bytes) (opts : ParseOptions) : Outcome Plan := do
  let p ← planAxes lib src config opts
  return src.bufferLayout.foldl (cover src) p

/-- The least length of a class is 0 or does not divide every length of it. -/
def Uneven (p : Plan) (c : AxisClass) : Prop :=
  ∃ m, IsLeast {len | ∃ a ∈ p.axes, a.cls = c ∧ a.len = len} m ∧ (m = 0 ∨ ∃ a ∈ p.axes, a.cls = c ∧ ¬m ∣ a.len)

/-- The groups of the topology are the classes of the plan. -/
structure Realized (p : Plan) (topo : Topology) (group : AxisClass → String) : Prop where
  inj : ∀ a ∈ p.axes, ∀ b ∈ p.axes, group a.cls = group b.cls → a.cls = b.cls
  bound : ∀ a ∈ p.axes, ∃ g block bindings, topo.findGroup (group a.cls) = some g ∧
    topo.tensors.get? a.key.tensor = some bindings ∧ ⟨a.key.dim, group a.cls, block⟩ ∈ bindings ∧ a.len = g.size * block ∧
    (g.pinned = true ↔ a.cls ∈ p.pinned)
  only : ∀ tensor bindings, topo.tensors.get? tensor = some bindings → (bindings.map AxisBinding.dim).Nodup ∧
    ∀ b ∈ bindings, ∃ a ∈ p.axes, a.key = ⟨tensor, b.dim⟩
  named : ∀ name ∈ topo.groups.keys, ∃ a ∈ p.axes, group a.cls = name

end Plan

/-! ### Plans and the file -/

namespace Plan

section
variable {src : TensorSource} {opts : ParseOptions}

/-- The axes are dimensions of tensors of the file. -/
def Sized (src : TensorSource) (axes : List Axis) : Prop :=
  ∀ a ∈ axes, a.key.dim < 2 ∧ ∃ m, src.tensorMeta a.key.tensor = some m ∧ m.shape[a.key.dim]? = some a.len

theorem planVector_sized {name : String} {c : AxisClass} {l : List Axis} (h : planVector src name c = .ok l) :
    Sized src l := by
  unfold planVector at h
  cases hmeta : src.tensorMeta name with
  | none =>
    rw [hmeta] at h
    cases h
    exact fun a ha => absurd ha List.not_mem_nil
  | some m =>
    rw [hmeta] at h
    obtain ⟨len, hlen, h⟩ := bind_eq_ok.mp h
    cases h
    intro a ha
    rw [List.mem_singleton.mp ha]
    refine ⟨by simp, m, hmeta, ?_⟩
    cases hshape : m.shape[0]? with
    | none =>
      rw [hshape] at hlen
      cases hlen
    | some d =>
      rw [hshape] at hlen
      cases hlen
      rfl

theorem planParam_sized {last : Bool} {p p' : Plan} {idx : Nat} {t : String} {layer : Json} (hp : Sized src p.axes)
    (h : p.planParam src opts last idx t layer = .ok p') : Sized src p'.axes := by
  unfold planParam at h
  obtain ⟨wmeta, hmeta, h⟩ := bind_eq_ok.mp h
  split at h
  · exact absurd h sfsErr_ne_ok
  next hrank =>
  obtain ⟨bias, hbias, h⟩ := bind_eq_ok.mp h
  obtain ⟨spatial, -, h⟩ := bind_eq_ok.mp h
  cases h
  have hweight : src.tensorMeta (toString idx ++ ".weight") = some wmeta := by
    unfold requireMeta at hmeta
    split at hmeta
    · cases hmeta
      assumption
    · exact absurd hmeta sfsErr_ne_ok
  have hdim : ∀ d < 2, wmeta.shape[d]? = some (wmeta.shape.getD d 0) := by
    intro d hd
    rw [List.getD_eq_getElem?_getD, List.getElem?_eq_getElem (by omega), Option.getD_some]
  intro a ha
  rcases List.mem_append.mp ha with ha | ha
  · rcases List.mem_append.mp ha with ha | ha
    · exact hp a ha
    · rcases List.mem_pair.mp ha with rfl | rfl
      · exact ⟨by simp, wmeta, hweight, hdim 0 (by omega)⟩
      · exact ⟨by simp, wmeta, hweight, hdim 1 (by omega)⟩
  · exact planVector_sized hbias a ha

theorem planNorm_sized {p p' : Plan} {idx : Nat} {t : String} (hp : Sized src p.axes)
    (h : p.planNorm src idx t = .ok p') : Sized src p'.axes := by
  unfold planNorm at h
  split at h
  · exact absurd h sfsErr_ne_ok
  · obtain ⟨vectors, hvectors, h⟩ := bind_eq_ok.mp h
    cases h
    intro a ha
    rcases List.mem_append.mp ha with ha | ha
    · exact hp a ha
    · obtain ⟨l, hl, ha⟩ := List.mem_flatten.mp ha
      obtain ⟨suffix, -, hplan⟩ := exists_of_mapM hvectors hl
      exact planVector_sized hplan a ha

theorem planLayer_sized {lastParamIdx : Nat} {p p' : Plan} {e : Json × Nat} (hp : Sized src p.axes)
    (h : p.planLayer src opts lastParamIdx e = .ok p') : Sized src p'.axes := by
  unfold planLayer at h
  obtain ⟨t, -, h⟩ := bind_eq_ok.mp h
  split at h
  · exact absurd h sfsErr_ne_ok
  split at h
  · exact planParam_sized hp h
  split at h
  · exact planNorm_sized hp h
  split at h
  · obtain ⟨spatial, -, h⟩ := bind_eq_ok.mp h
    cases h
    exact hp
  split at h
  · obtain ⟨spatial, -, h⟩ := bind_eq_ok.mp h
    cases h
    exact hp
  split at h
  · cases h
    exact hp
  split at h
  · exact absurd h sfsErr_ne_ok
  · cases h
    exact hp

/-- Every tensor that the file knows is listed. -/
def Listed (src : TensorSource) : Prop := ∀ name m, src.tensorMeta name = some m → name ∈ src.bufferLayout.map (·.tensor)

/-- There are at most two axes for each tensor. -/
theorem length_le_of_sized {axes : List Axis} (hsized : Sized src axes) (hlisted : Listed src)
    (hnodup : (axes.map Axis.key).Nodup) : axes.length ≤ 2 * src.bufferLayout.length := by
  have hsub : axes.map Axis.key ⊆ (src.bufferLayout.map fun e => (⟨e.tensor, 0⟩ : AxisKey)) ++
      src.bufferLayout.map fun e => (⟨e.tensor, 1⟩ : AxisKey) := by
    intro key hkey
    obtain ⟨a, ha, rfl⟩ := List.mem_map.mp hkey
    obtain ⟨hdim, m, hmeta, -⟩ := hsized a ha
    obtain ⟨e, he, hname⟩ := List.mem_map.mp (hlisted _ m hmeta)
    obtain ⟨⟨tensor, dim⟩, len, cls⟩ := a
    dsimp only at hdim hname ⊢
    rw [List.mem_append]
    rcases Nat.le_one_iff_eq_zero_or_eq_one.mp (Nat.le_of_lt_succ hdim) with rfl | rfl
    · exact .inl (List.mem_map.mpr ⟨e, he, by rw [hname]⟩)
    · exact .inr (List.mem_map.mpr ⟨e, he, by rw [hname]⟩)
  have hle := (hnodup.subperm hsub).length_le
  simp only [List.length_map, List.length_append] at hle
  omega

end

end Plan

/-- Every tensor of the file that has a dimension. -/
theorem Plan.planTopology_covers {lib : JsonLib} {src : TensorSource} {config : Bytes} {opts : ParseOptions} {p : Plan}
    (hlisted : Plan.Listed src) (h : Plan.planTopology lib src config opts = .ok p) {name : String} {m : TensorMeta}
    (hmeta : src.tensorMeta name = some m) (hshape : m.shape ≠ []) : ∃ a ∈ p.axes, a.key.tensor = name := by
  have hkept : ∀ (p : Plan) (entry : Core.BufferEntry), (∃ a ∈ p.axes, a.key.tensor = name) →
      ∃ a ∈ (Plan.cover src p entry).axes, a.key.tensor = name := by
    rintro p entry ⟨a, ha, hname⟩
    refine ⟨a, ?_, hname⟩
    unfold Plan.cover
    split
    · exact ha
    split
    · exact ha
    split
    · exact ha
    · exact List.mem_append_left _ ha
  have hfold : ∀ (layout : List Core.BufferEntry) (p : Plan),
      name ∈ layout.map (·.tensor) ∨ (∃ a ∈ p.axes, a.key.tensor = name) →
      ∃ a ∈ (layout.foldl (Plan.cover src) p).axes, a.key.tensor = name := by
    intro layout
    induction layout with
    | nil => exact fun p h => h.elim (fun h => absurd h List.not_mem_nil) id
    | cons entry layout ih =>
      intro p hor
      refine ih _ ?_
      rcases hor with hmem | hold
      · rw [List.map_cons, List.mem_cons] at hmem
        rcases hmem with rfl | hmem
        · right
          unfold Plan.cover
          split
          · next htouched =>
            obtain ⟨a, ha, he⟩ := List.mem_map.mp htouched
            exact ⟨a, ha, he⟩
          · rw [hmeta]
            dsimp only
            split
            · next hnil => exact absurd hnil hshape
            · exact ⟨_, List.mem_append_right _ List.mem_cons_self, rfl⟩
        · exact .inl hmem
      · exact .inr (hkept p entry hold)
  obtain ⟨q, -, h⟩ := bind_eq_ok.mp h
  cases h
  exact hfold _ q (.inl (hlisted name m hmeta))

/-! ### What the options change -/

namespace Plan

/-- The plan without strictness has no pin on the input. -/
structure Looser (p p' : Plan) : Prop where
  axes : p'.axes = p.axes
  pinned : p'.pinned = p.pinned.filter (· ≠ .input)
  layer : p'.layer = p.layer
  spatial : p'.spatial = p.spatial

section
variable {src : TensorSource} {p p' : Plan}

def Unsupported {α : Type} (x : Outcome α) : Prop := ∃ context, x = sfsErr .topologyParse "unsupported layer type" context

theorem planParam_looser (h : Looser p p') (last : Bool) (idx : Nat) (t : String) (layer : Json) :
    (∃ e, p.planParam src ⟨true⟩ last idx t layer = .error e ∧ p'.planParam src ⟨false⟩ last idx t layer = .error e) ∨
      ∃ q q', p.planParam src ⟨true⟩ last idx t layer = .ok q ∧ p'.planParam src ⟨false⟩ last idx t layer = .ok q' ∧
        Looser q q' := by
  unfold planParam
  rw [h.axes, h.pinned, h.layer, h.spatial]
  dsimp only
  cases requireMeta src (toString idx ++ ".weight") with
  | error e => exact .inl ⟨e, rfl, rfl⟩
  | ok wmeta =>
    simp only [bind, Except.bind]
    by_cases hrank : wmeta.shape.length < 2
    · rw [if_pos hrank, if_pos hrank]
      exact .inl ⟨_, rfl, rfl⟩
    rw [if_neg hrank, if_neg hrank]
    cases planVector src (toString idx ++ ".bias") (.output idx) with
    | error e => exact .inl ⟨e, rfl, rfl⟩
    | ok bias =>
      cases paramSpatial t (wmeta.shape.getD 0 0) p.spatial layer with
      | error e => exact .inl ⟨e, rfl, rfl⟩
      | ok spatial =>
        refine .inr ⟨_, _, rfl, rfl, rfl, ?_, rfl, rfl⟩
        dsimp only
        rw [List.filter_append, List.filter_append]
        cases last <;> by_cases hlayer : p.layer = none <;> simp [hlayer]

theorem planNorm_looser (h : Looser p p') (idx : Nat) (t : String) :
    (∃ e, p.planNorm src idx t = .error e ∧ p'.planNorm src idx t = .error e) ∨
      ∃ q q', p.planNorm src idx t = .ok q ∧ p'.planNorm src idx t = .ok q' ∧ Looser q q' := by
  unfold planNorm
  rw [h.layer]
  cases hlayer : p.layer with
  | none => exact .inl ⟨_, rfl, rfl⟩
  | some l =>
    simp only [bind, Except.bind]
    cases normSuffixes.mapM fun suffix => planVector src (toString idx ++ suffix) (.output l) with
    | error e => exact .inl ⟨e, rfl, rfl⟩
    | ok vectors => exact .inr ⟨_, _, rfl, rfl, congrArg (· ++ vectors.flatten) h.axes, h.pinned, rfl, h.spatial⟩

/-- One layer, strict or not. -/
theorem planLayer_looser (h : Looser p p') (lastParamIdx : Nat) (e : Json × Nat) :
    Unsupported (p.planLayer src ⟨true⟩ lastParamIdx e) ∨
      (∃ err, p.planLayer src ⟨true⟩ lastParamIdx e = .error err ∧ p'.planLayer src ⟨false⟩ lastParamIdx e = .error err) ∨
      ∃ q q', p.planLayer src ⟨true⟩ lastParamIdx e = .ok q ∧ p'.planLayer src ⟨false⟩ lastParamIdx e = .ok q' ∧ Looser q q' := by
  obtain ⟨layer, idx⟩ := e
  unfold planLayer
  dsimp only
  cases layerType layer with
  | error e => exact .inr (.inl ⟨e, rfl, rfl⟩)
  | ok t =>
    simp only [bind, Except.bind]
    by_cases hempty : t = ""
    · rw [if_pos hempty, if_pos hempty]
      exact .inr (.inl ⟨_, rfl, rfl⟩)
    rw [if_neg hempty, if_neg hempty]
    by_cases hparam : isParam t
    · rw [if_pos hparam, if_pos hparam]
      exact .inr (planParam_looser h _ idx t layer)
    rw [if_neg hparam, if_neg hparam]
    by_cases hnorm : isNorm t
    · rw [if_pos hnorm, if_pos hnorm]
      exact .inr (planNorm_looser h idx t)
    rw [if_neg hnorm, if_neg hnorm]
    by_cases hpool : t = "maxpool2d"
    · rw [if_pos hpool, if_pos hpool, h.spatial]
      cases poolSpatial p.spatial layer with
      | error e => exact .inr (.inl ⟨e, rfl, rfl⟩)
      | ok spatial => exact .inr (.inr ⟨_, _, rfl, rfl, h.axes, h.pinned, h.layer, rfl⟩)
    rw [if_neg hpool, if_neg hpool]
    by_cases hflat : t = "flatten"
    · rw [if_pos hflat, if_pos hflat, h.spatial]
      cases flatSpatial p.spatial with
      | error e => exact .inr (.inl ⟨e, rfl, rfl⟩)
      | ok spatial => exact .inr (.inr ⟨_, _, rfl, rfl, h.axes, h.pinned, h.layer, rfl⟩)
    rw [if_neg hflat, if_neg hflat]
    by_cases hplain : isPlain t
    · rw [if_pos hplain, if_pos hplain]
      exact .inr (.inr ⟨p, p', rfl, rfl, h⟩)
    rw [if_neg hplain, if_pos (by simp)]
    exact .inl ⟨_, rfl⟩

theorem planLayers_looser (lastParamIdx : Nat) (layers : List (Json × Nat)) : ∀ {p p' : Plan}, Looser p p' →
    Unsupported (layers.foldlM (planLayer src ⟨true⟩ lastParamIdx) p) ∨
      (∃ err, layers.foldlM (planLayer src ⟨true⟩ lastParamIdx) p = .error err ∧
        layers.foldlM (planLayer src ⟨false⟩ lastParamIdx) p' = .error err) ∨
      ∃ q q', layers.foldlM (planLayer src ⟨true⟩ lastParamIdx) p = .ok q ∧
        layers.foldlM (planLayer src ⟨false⟩ lastParamIdx) p' = .ok q' ∧ Looser q q' := by
  induction layers with
  | nil => exact fun h => .inr (.inr ⟨_, _, rfl, rfl, h⟩)
  | cons e layers ih =>
    intro p p' h
    rw [List.foldlM_cons, List.foldlM_cons]
    rcases planLayer_looser h lastParamIdx e with
      ⟨context, hstrict⟩ | ⟨err, hstrict, hlenient⟩ | ⟨q, q', hstrict, hlenient, h'⟩
    · exact .inl ⟨context, by rw [hstrict]; rfl⟩
    · exact .inr (.inl ⟨err, by rw [hstrict]; rfl, by rw [hlenient]; rfl⟩)
    · rw [hstrict, hlenient]
      exact ih h'

theorem cover_looser (h : Looser p p') (entry : Core.BufferEntry) : Looser (cover src p entry) (cover src p' entry) := by
  unfold cover
  rw [h.axes]
  split
  · exact h
  split
  · exact h
  split
  · exact h
  · refine ⟨rfl, ?_, h.layer, h.spatial⟩
    dsimp only
    rw [List.filter_append, h.pinned]
    rfl

theorem covers_looser (layout : List Core.BufferEntry) : ∀ {p p' : Plan}, Looser p p' →
    Looser (layout.foldl (cover src) p) (layout.foldl (cover src) p') := by
  induction layout with
  | nil => exact fun h => h
  | cons entry layout ih => exact fun h => ih (cover_looser h entry)

/-- A strict plan is a plan with the input pinned, or there is a layer of a type that it does not know. -/
theorem planTopology_looser (lib : JsonLib) (src : TensorSource) (config : Bytes) :
    Unsupported (planTopology lib src config ⟨true⟩) ∨
      (∃ e, planTopology lib src config ⟨true⟩ = .error e ∧ planTopology lib src config ⟨false⟩ = .error e) ∨
      ∃ p p', planTopology lib src config ⟨true⟩ = .ok p ∧ planTopology lib src config ⟨false⟩ = .ok p' ∧ Looser p p' := by
  have hsame : Looser ⟨[], [], none, []⟩ ⟨[], [], none, []⟩ := ⟨rfl, rfl, rfl, rfl⟩
  unfold planTopology planAxes
  by_cases hempty : config = []
  · rw [if_pos hempty, if_pos hempty]
    exact .inr (.inr ⟨_, _, rfl, rfl, covers_looser _ hsame⟩)
  rw [if_neg hempty, if_neg hempty]
  cases parseConfig lib config with
  | error e => exact .inr (.inl ⟨e, rfl, rfl⟩)
  | ok cfg =>
    simp only [bind, Except.bind]
    by_cases hlayers : cfg.contains "layers"
    · rw [if_pos hlayers, if_pos hlayers]
      cases inputShapeOf cfg with
      | error e => exact .inr (.inl ⟨e, rfl, rfl⟩)
      | ok inputShape =>
        cases cfg.atKey "layers" with
        | error e => exact .inr (.inl ⟨e, rfl, rfl⟩)
        | ok layers =>
          dsimp only
          unfold planLayers
          cases layerList layers with
          | error e => exact .inr (.inl ⟨e, rfl, rfl⟩)
          | ok layers =>
            simp only [bind, Except.bind]
            cases paramIndices layers with
            | error e => exact .inr (.inl ⟨e, rfl, rfl⟩)
            | ok params =>
              dsimp only
              cases params.getLast? with
              | none => exact .inr (.inl ⟨_, rfl, rfl⟩)
              | some lastParamIdx =>
                dsimp only
                have hstart : Looser ⟨[], [], none, inputShape.getD []⟩ ⟨[], [], none, inputShape.getD []⟩ :=
                  ⟨rfl, rfl, rfl, rfl⟩
                rcases planLayers_looser lastParamIdx layers.zipIdx hstart with
                  ⟨context, hstrict⟩ | ⟨err, hstrict, hlenient⟩ | ⟨q, q', hstrict, hlenient, h⟩
                · exact .inl ⟨context, by rw [hstrict]; rfl⟩
                · exact .inr (.inl ⟨err, by rw [hstrict], by rw [hlenient]⟩)
                · rw [hstrict, hlenient]
                  exact .inr (.inr ⟨_, _, rfl, rfl, covers_looser _ h⟩)
    · rw [if_neg hlayers, if_neg hlayers]
      exact .inr (.inl ⟨_, rfl, rfl⟩)

end

end Plan

end SynapseFs.Align
