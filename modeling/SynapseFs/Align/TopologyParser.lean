import SynapseFs.Align.Components
import SynapseFs.Core.Interfaces
import SynapseFs.Format.Json

/-! The topology of a checkpoint, from its own config.

The layers of the config are a chain; tensors are named by the index of their layer. The
walk registers the axes of the tensors that a layer names, and unites those that share a
permutation: the input of a layer with the output of the one before it, and biases and
norms with the output that they follow. What the config does not name gets a pinned group
of its own, so that every tensor of the file has one. -/
namespace SynapseFs.Align
open Lib Core
open Format (Json JsonLib)

/-! ### Axes as the walk registers them -/

/-- The options that are read. -/
structure ParseOptions where
  /-- Fail on anything that cannot be modelled rather than guessing. -/
  strict : Bool

structure BuildState where
  uf : AxisUnionFind
  /-- The handles of a tensor by dimension, `unset` where there is none. -/
  axisHandle : FinMap String (List Nat)
  touched : List String

namespace BuildState

def empty : BuildState := ⟨.empty, .empty, []⟩

/-- `std::numeric_limits<std::uint32_t>::max()`. -/
def unset : Nat := 2 ^ 32 - 1

def unite (st : BuildState) (a b : Nat) : Outcome BuildState := do return { st with uf := ← st.uf.unite a b }

def pin (st : BuildState) (h : Nat) : Outcome BuildState := do return { st with uf := ← st.uf.pin h }

end BuildState

def registerAxis (st : BuildState) (tensor : String) (dim len : Nat) : Nat × BuildState :=
  let handles := (st.axisHandle.get? tensor).getD []
  let handles := handles ++ List.replicate (dim + 1 - handles.length) BuildState.unset
  let touched := if tensor ∈ st.touched then st.touched else st.touched ++ [tensor]
  if handles.getD dim BuildState.unset = BuildState.unset then
    let (handle, uf) := st.uf.add ⟨tensor, dim⟩ len
    (handle, ⟨uf, st.axisHandle.insert tensor (handles.set dim handle), touched⟩)
  else (handles.getD dim BuildState.unset, ⟨st.uf, st.axisHandle.insert tensor handles, touched⟩)

/-! ### Spatial sizes -/

/-- Signed 64-bit arithmetic has no meaning past its range. -/
def checked (z : Int) : Outcome Int :=
  if -(2 ^ 63) ≤ z ∧ z < 2 ^ 63 then .ok z else .error (.undefined "signed overflow")

def divide (a b : Int) : Outcome Int :=
  if b = 0 then .error (.undefined "division by zero") else checked (a.tdiv b)

/-- A 64-bit word read as signed. -/
def asSigned (n : Nat) : Int := if n % 2 ^ 64 < 2 ^ 63 then (n % 2 ^ 64 : Nat) else (n % 2 ^ 64 : Nat) - 2 ^ 64

/-- `get<std::int64_t>()`. -/
def getI64 : Json → Outcome Int
  | .uint n => .ok (asSigned n)
  | .int z => .ok z
  | .float bits =>
    match Json.f64Trunc bits with
    | some z => if -(2 ^ 63) ≤ z ∧ z < 2 ^ 63 then .ok z else .error (.undefined "double to integer")
    | none => .error (.undefined "double to integer")
  | j => .error (.exception ("[json.exception.type_error.302] type must be number, but is " ++ j.typeName))

/-- `j.at(index)` of an array. -/
def atIndex (items : List Json) (index : Nat) : Outcome Json :=
  match items[index]? with
  | some v => .ok v
  | none => .error (.exception ("[json.exception.out_of_range.401] array index " ++ toString index ++ " is out of range"))

def asHw : Json → Outcome (Int × Int)
  | .arr items => do return (← getI64 (← atIndex items 0), ← getI64 (← atIndex items 1))
  | v => do return (← getI64 v, ← getI64 v)

/-- `layer.contains(key) ? as_hw(layer.at(key)) : dflt`. -/
def hwOr (layer : Json) (key : String) (dflt : Int × Int) : Outcome (Int × Int) :=
  if layer.contains key then do asHw (← layer.atKey key) else .ok dflt

/-- `(h + 2 * p - k) / s + 1`. -/
def outputSize (h p k s : Int) : Outcome Int := do
  let padded ← checked (h + (← checked (2 * p)))
  let room ← checked (padded - k)
  checked ((← divide room s) + 1)

def conv2dOutputHw (h w : Int) (layer : Json) : Outcome (Int × Int) := do
  let (kh, kw) ← asHw (← layer.atKey "kernel_size")
  let (sh, sw) ← hwOr layer "stride" (1, 1)
  let (ph, pw) ← hwOr layer "padding" (0, 0)
  return (← outputSize h ph kh sh, ← outputSize w pw kw sw)

def maxpool2dOutputHw (h w : Int) (layer : Json) : Outcome (Int × Int) := do
  let (kh, kw) ← asHw (← layer.atKey "kernel_size")
  let (sh, sw) ← hwOr layer "stride" (kh, kw)
  return (← outputSize h 0 kh sh, ← outputSize w 0 kw sw)

/-- The sizes behind a convolution or a linear layer. -/
def paramSpatial (t : String) (units : Nat) (spatial : List Int) (layer : Json) : Outcome (List Int) :=
  if t = "linear" then .ok [asSigned units]
  else
    match spatial with
    | [_, h, w] => do
      let (h2, w2) ← conv2dOutputHw h w layer
      return [asSigned units, h2, w2]
    | _ => .ok []

def poolSpatial (spatial : List Int) (layer : Json) : Outcome (List Int) :=
  match spatial with
  | [c, h, w] => do
    let (h2, w2) ← maxpool2dOutputHw h w layer
    return [c, h2, w2]
  | _ => .ok spatial

def flatSpatial (spatial : List Int) : Outcome (List Int) :=
  match spatial with
  | [c, h, w] => do return [← checked ((← checked (c * h)) * w)]
  | _ => .ok spatial

/-! ### The walk over the layers -/

/-- The variables of the walk. -/
structure Walk where
  st : BuildState
  /-- The output of the previous layer. -/
  currentAxis : Option Nat
  spatial : List Int

def requireMeta (src : TensorSource) (name : String) : Outcome TensorMeta :=
  match src.tensorMeta name with
  | some m => .ok m
  | none => sfsErr .topologyIncomplete "config.json references a tensor not in the checkpoint" name

/-- The input of a layer is the output of the one before; that of the first layer has a fixed order. -/
def tieInput (opts : ParseOptions) (st : BuildState) (inHandle : Nat) : Option Nat → Outcome BuildState
  | some current => st.unite inHandle current
  | none => if opts.strict then st.pin inHandle else .ok st

/-- A vector over the units of the handle `current`. -/
def tieVector (src : TensorSource) (st : BuildState) (name : String) (current : Nat) : Outcome BuildState :=
  match src.tensorMeta name with
  | none => .ok st
  | some m => do
    let len ← atOrThrow "vector::at" m.shape[0]?
    (registerAxis st name 0 len).2.unite (registerAxis st name 0 len).1 current

def paramLayer (src : TensorSource) (opts : ParseOptions) (last : Bool) (w : Walk) (idx : Nat) (t : String) (layer : Json) :
    Outcome Walk := do
  let weight := toString idx ++ ".weight"
  let wmeta ← requireMeta src weight
  if wmeta.shape.length < 2 then sfsErr .topologyParse "linear/conv2d weight must have rank >= 2" weight
  else do
    let (outHandle, st) := registerAxis w.st weight 0 (wmeta.shape.getD 0 0)
    let (inHandle, st) := registerAxis st weight 1 (wmeta.shape.getD 1 0)
    let st ← tieInput opts st inHandle w.currentAxis
    let st ← tieVector src st (toString idx ++ ".bias") outHandle
    let st ← if last then st.pin outHandle else .ok st
    let spatial ← paramSpatial t (wmeta.shape.getD 0 0) w.spatial layer
    return ⟨st, some outHandle, spatial⟩

def normSuffixes : List String := [".weight", ".bias", ".running_mean", ".running_var"]

/-- A norm moves with the output that it follows; exporters may leave its statistics out. -/
def normLayer (src : TensorSource) (w : Walk) (idx : Nat) (t : String) : Outcome Walk :=
  match w.currentAxis with
  | none => sfsErr .topologyParse (t ++ " with no preceding conv2d/linear") (toString idx)
  | some current => do
    let st ← normSuffixes.foldlM (fun st suffix => tieVector src st (toString idx ++ suffix) current) w.st
    return { w with st := st }

def isParam (t : String) : Bool := t = "linear" || t = "conv2d"

def isNorm (t : String) : Bool := t = "batchnorm2d" || t = "layernorm"

/-- Layers without parameters and without an effect on sizes. -/
def isPlain (t : String) : Bool := t = "relu" || t = "dropout" || t = "avgpool2d" || t = "adaptiveavgpool2d"

def layerType (layer : Json) : Outcome String := layer.valueOr "type" Json.getStr ""

def walkLayer (src : TensorSource) (opts : ParseOptions) (lastParamIdx : Nat) (w : Walk) (e : Json × Nat) : Outcome Walk := do
  let (layer, idx) := e
  let t ← layerType layer
  if t = "" then sfsErr .topologyParse "layer missing 'type'" (toString idx)
  else if isParam t then paramLayer src opts (idx = lastParamIdx) w idx t layer
  else if isNorm t then normLayer src w idx t
  else if t = "maxpool2d" then do return { w with spatial := ← poolSpatial w.spatial layer }
  else if t = "flatten" then do return { w with spatial := ← flatSpatial w.spatial }
  else if isPlain t then return w
  else if opts.strict then sfsErr .topologyParse "unsupported layer type" (toString idx ++ ": " ++ t)
  else return w

/-- `layers[i]` for every `i` below `layers.size()`. -/
def layerList : Json → Outcome (List Json)
  | .arr items => .ok items
  | .null | .obj [] => .ok []
  | j => .error (.exception ("[json.exception.type_error.305] cannot use operator[] with a numeric argument with " ++ j.typeName))

def paramIndices (layers : List Json) : Outcome (List Nat) := do
  let types ← layers.mapM layerType
  return types.zipIdx.filterMap fun (t, i) => if isParam t then some i else none

def walkLayers (src : TensorSource) (layers : Json) (inputShape : Option (List Int)) (opts : ParseOptions) (st : BuildState) :
    Outcome BuildState := do
  let layers ← layerList layers
  let params ← paramIndices layers
  match params.getLast? with
  | none => sfsErr .topologyParse "config has no parameterized (linear/conv2d) layers" ""
  | some lastParamIdx => do
    let w ← layers.zipIdx.foldlM (walkLayer src opts lastParamIdx) ⟨st, none, inputShape.getD []⟩
    return w.st

/-! ### The parser -/

/-- `get<std::vector<std::int64_t>>()`. -/
def getShape : Json → Outcome (List Int)
  | .arr items => items.mapM getI64
  | j => .error (.exception ("[json.exception.type_error.302] type must be array, but is " ++ j.typeName))

def inputShapeOf (cfg : Json) : Outcome (Option (List Int)) :=
  if cfg.contains "input_shape" then do return some (← getShape (← cfg.atKey "input_shape")) else .ok none

/-- `catch (const json::parse_error&)`. -/
def parseConfig (lib : JsonLib) (config : Bytes) : Outcome Json :=
  match lib.parse config with
  | .ok cfg => .ok cfg
  | .error what =>
    if "[json.exception.parse_error".isPrefixOf what then sfsErr .topologyParse ("config.json parse error: " ++ what) ""
    else .error (.exception what)

/-- A tensor that the config did not name gets a pinned group of its own. -/
def coverTensor (src : TensorSource) (st : BuildState) (entry : Core.BufferEntry) : Outcome BuildState :=
  if entry.tensor ∈ st.touched then .ok st
  else
    match src.tensorMeta entry.tensor with
    | none => .ok st
    | some m =>
      match m.shape with
      | [] => .ok st
      | len :: _ => (registerAxis st entry.tensor 0 len).2.pin (registerAxis st entry.tensor 0 len).1

def addShape (src : TensorSource) (shapes : FinMap String (List Nat)) (entry : Core.BufferEntry) : FinMap String (List Nat) :=
  match src.tensorMeta entry.tensor with
  | some m => shapes.insert entry.tensor m.shape
  | none => shapes

def shapesOf (src : TensorSource) : FinMap String (List Nat) := src.bufferLayout.foldl (addShape src) .empty

def buildAxes (lib : JsonLib) (src : TensorSource) (config : Bytes) (opts : ParseOptions) : Outcome BuildState :=
  if config = [] then .ok .empty
  else do
    let cfg ← parseConfig lib config
    if cfg.contains "layers" then do
      let inputShape ← inputShapeOf cfg
      walkLayers src (← cfg.atKey "layers") inputShape opts .empty
    else sfsErr .topologyParse "config.json has no 'layers' array" ""

/-- `hashOrder` is the order in which `finalize` goes through its trees. -/
def parseTopology (lib : JsonLib) (hashOrder : List (Nat × List Nat) → List (Nat × List Nat)) (src : TensorSource)
    (config : Bytes) (opts : ParseOptions) : Outcome Topology := do
  let st ← buildAxes lib src config opts
  let st ← src.bufferLayout.foldlM (coverTensor src) st
  let (topo, _) ← st.uf.finalize hashOrder
  topo.validate (shapesOf src)
  return topo

end SynapseFs.Align
