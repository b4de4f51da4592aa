import Mathlib.Data.List.Induction
import Mathlib.Order.Bounds.Basic
import SynapseFs.Core.Topology
import SynapseFs.Lib.Forest

/-! Union-find over tensor axes: which axes share one permutation.

A skip connection makes the axes on both sides of it share a permutation with all
that they are tied to already. That is a set of axes and not a chain of pairs, so
the axes are the nodes of a union-find. `find` halves the paths that it climbs;
`finalize` makes a group of every tree. -/
namespace SynapseFs.Align
open Lib Core

/-- One axis of one tensor. -/
structure AxisKey where
  tensor : String
  dim : Nat
  deriving DecidableEq, Repr

structure AxisUnionFind.Node where
  key : AxisKey
  len : Nat
  /-- Itself when a root. -/
  parent : Nat
  rank : Nat
  pinned : Bool
  deriving DecidableEq, Repr

structure AxisUnionFind where
  nodes : List AxisUnionFind.Node
  index : FinMap AxisKey Nat

namespace AxisUnionFind

def empty : AxisUnionFind := ⟨[], .empty⟩

/-- Handles are 32-bit. -/
def add (uf : AxisUnionFind) (key : AxisKey) (len : Nat) : Nat × AxisUnionFind :=
  match uf.index.get? key with
  | some handle => (handle, uf)
  | none =>
    let handle := u32 uf.nodes.length
    (handle, ⟨uf.nodes ++ [⟨key, len, handle, 0, false⟩], uf.index.emplace key handle⟩)

/-- `nodes_[h]`. -/
def node (uf : AxisUnionFind) (h : Nat) : Outcome Node :=
  match uf.nodes[h]? with
  | some node => .ok node
  | none => .error (.undefined "read outside the vector")

def setNode (uf : AxisUnionFind) (h : Nat) (node : Node) : AxisUnionFind := { uf with nodes := uf.nodes.set h node }

/-- Path halving: each turn points `h` at its grandparent and goes there. -/
def findFrom : Nat → AxisUnionFind → Nat → Outcome (Nat × AxisUnionFind)
  | 0, _, _ => .error .outOfFuel
  | fuel + 1, uf, h => do
    let node ← uf.node h
    if node.parent = h then return (h, uf)
    let up ← uf.node node.parent
    findFrom fuel (uf.setNode h { node with parent := up.parent }) up.parent

/-- No path is as long as there are nodes. -/
def find (uf : AxisUnionFind) (h : Nat) : Outcome (Nat × AxisUnionFind) := findFrom uf.nodes.length uf h

/-- The root `rb` goes under the root `ra`. -/
def attach (uf : AxisUnionFind) (ra rb : Nat) : Outcome AxisUnionFind := do
  let a ← uf.node ra
  let b ← uf.node rb
  let rank := if a.rank = b.rank then u32 (a.rank + 1) else a.rank
  return (uf.setNode rb { b with parent := ra }).setNode ra { a with rank := rank, pinned := a.pinned || b.pinned }

def unite (uf : AxisUnionFind) (a b : Nat) : Outcome AxisUnionFind := do
  let (ra, uf) ← uf.find a
  let (rb, uf) ← uf.find b
  if ra = rb then return uf
  let na ← uf.node ra
  let nb ← uf.node rb
  if na.rank < nb.rank then uf.attach rb ra else uf.attach ra rb

def pin (uf : AxisUnionFind) (handle : Nat) : Outcome AxisUnionFind := do
  let (r, uf) ← uf.find handle
  let node ← uf.node r
  return uf.setNode r { node with pinned := true }

/-! ### Groups -/

/-- `members_by_root`; the loop's index is 32-bit. -/
def membersByRoot (uf : AxisUnionFind) : Outcome (AxisUnionFind × FinMap Nat (List Nat)) :=
  if 2 ^ 32 ≤ uf.nodes.length then .error (.undefined "loop without end")
  else (List.range uf.nodes.length).foldlM (fun (uf, members) i => do
    let (root, uf) ← uf.find i
    return (uf, members.push root i)) (uf, .empty)

/-- The smallest length is the number of units. -/
def groupOf (uf : AxisUnionFind) (members : List Nat) : Outcome PermGroup := do
  let nodes ← members.mapM uf.node
  return ⟨u32 (nodes.foldl (fun len n => min len n.len) (2 ^ 64 - 1)), nodes.any fun n => n.pinned⟩

def groupName (id : Nat) : String := "g" ++ toString (u32 id)

/-- One turn of the loop over the roots; `id` is `next_id`. -/
def nameGroup (uf : AxisUnionFind) (s : FinMap Nat String × FinMap String PermGroup) :
    (Nat × List Nat) × Nat → Outcome (FinMap Nat String × FinMap String PermGroup)
  | ((root, members), id) => do
    let group ← uf.groupOf members
    return (s.1.emplace root (groupName id), s.2.emplace (groupName id) group)

def mismatch : String := "axis length is not an integer multiple of its group's unit count"

def mismatchContext (node : Node) (size : Nat) : String :=
  node.key.tensor ++ " dim=" ++ toString node.key.dim ++ " len=" ++ toString node.len ++ " group_size=" ++ toString size

/-- One turn of the loop over the axes. -/
def bindAxis (rootToGroup : FinMap Nat String) (groups : FinMap String PermGroup)
    (s : AxisUnionFind × FinMap String (List AxisBinding)) (i : Nat) :
    Outcome (AxisUnionFind × FinMap String (List AxisBinding)) := do
  let (root, uf) ← s.1.find i
  let gname ← atOrThrow "unordered_map::at" (rootToGroup.get? root)
  let group ← atOrThrow "unordered_map::at" (groups.get? gname)
  let node ← uf.node i
  if group.size = 0 ∨ node.len % group.size ≠ 0 then
    sfsErr .blockFactorMismatch mismatch (mismatchContext node group.size)
  else return (uf, s.2.push node.key.tensor ⟨node.key.dim, gname, u32 (node.len / group.size)⟩)

/-- `hashOrder` is the order in which the entries of `members_by_root` are gone through. -/
def finalize (hashOrder : List (Nat × List Nat) → List (Nat × List Nat)) (uf : AxisUnionFind) :
    Outcome (Topology × AxisUnionFind) := do
  let (uf, members) ← uf.membersByRoot
  let (rootToGroup, groups) ← (hashOrder members.entries).zipIdx.foldlM uf.nameGroup (.empty, .empty)
  let (uf, tensors) ← (List.range uf.nodes.length).foldlM (bindAxis rootToGroup groups) (uf, .empty)
  return (⟨groups, tensors⟩, uf)

end AxisUnionFind

/-! ### Calls -/

inductive AxisOp where
  | add (key : AxisKey) (len : Nat)
  | unite (a b : Nat)
  | pin (handle : Nat)
  deriving DecidableEq, Repr

namespace AxisOp

/-- The handles that the call is given. -/
def handles : AxisOp → List Nat
  | .add _ _ => []
  | .unite a b => [a, b]
  | .pin h => [h]

def apply (uf : AxisUnionFind) : AxisOp → Outcome AxisUnionFind
  | .add key len => .ok (uf.add key len).2
  | .unite a b => uf.unite a b
  | .pin h => uf.pin h

/-- The calls in their order, from a union-find without axes. -/
def run (ops : List AxisOp) : Outcome AxisUnionFind := ops.foldlM apply AxisUnionFind.empty

def addAxis (axes : List (AxisKey × Nat)) : AxisOp → List (AxisKey × Nat)
  | .add key len => if key ∈ axes.map Prod.fst then axes else axes ++ [(key, len)]
  | _ => axes

/-- The axes by their handles, each with the first length that was given for it. -/
def added (ops : List AxisOp) : List (AxisKey × Nat) := ops.foldl addAxis []

/-- Every call is given handles of axes that were there. -/
def Valid (ops : List AxisOp) : Prop :=
  ∀ front op back, ops = front ++ op :: back → ∀ h ∈ op.handles, h < (added front).length

def United (ops : List AxisOp) (a b : Nat) : Prop := .unite a b ∈ ops

/-- Connected by calls of `unite`. -/
abbrev Connected (ops : List AxisOp) : Nat → Nat → Prop := Relation.EqvGen (United ops)

def Pinned (ops : List AxisOp) (h : Nat) : Prop := .pin h ∈ ops

/-- The lengths of the axes that are connected with `h`. -/
def lengths (ops : List AxisOp) (h : Nat) : Set Nat :=
  {len | ∃ j key, (added ops)[j]? = some (key, len) ∧ Connected ops h j}

/-- The smallest length is 0 or does not divide every length. -/
def Uneven (ops : List AxisOp) (h : Nat) : Prop :=
  ∃ m, IsLeast (lengths ops h) m ∧ (m = 0 ∨ ∃ len ∈ lengths ops h, ¬ m ∣ len)

end AxisOp

/-! ### The pointers -/

namespace AxisUnionFind

/-- A node that is not there is its own parent. -/
def parent (uf : AxisUnionFind) (h : Nat) : Nat :=
  match uf.nodes[h]? with
  | some node => node.parent
  | none => h

/-- What no call of `find` touches. -/
def Node.data (n : Node) : AxisKey × Nat × Nat × Bool := (n.key, n.len, n.rank, n.pinned)

/-- The axes by their handles, with their lengths. -/
def axes (uf : AxisUnionFind) : List (AxisKey × Nat) := uf.nodes.map fun n => (n.key, n.len)

def Marked (uf : AxisUnionFind) (i : Nat) : Prop := ∃ n, uf.nodes[i]? = some n ∧ n.pinned = true

structure SameData (uf uf' : AxisUnionFind) : Prop where
  index : uf'.index = uf.index
  nodes : uf'.nodes.map Node.data = uf.nodes.map Node.data

/-- The pointers stay among the nodes and lead to `root`. -/
structure Shape (uf : AxisUnionFind) (root : Nat → Nat) : Prop where
  roots : Forest.Roots uf.parent root
  parent_lt : ∀ h < uf.nodes.length, uf.parent h < uf.nodes.length

section
variable {uf uf' : AxisUnionFind} {root : Nat → Nat} {h : Nat} {n : Node}

theorem SameData.refl (uf : AxisUnionFind) : SameData uf uf := ⟨rfl, rfl⟩

theorem SameData.symm (h : SameData uf uf') : SameData uf' uf := ⟨h.index.symm, h.nodes.symm⟩

theorem SameData.trans {uf'' : AxisUnionFind} (h : SameData uf uf') (h' : SameData uf' uf'') : SameData uf uf'' :=
  ⟨h'.index.trans h.index, h'.nodes.trans h.nodes⟩

theorem SameData.length (h : SameData uf uf') : uf'.nodes.length = uf.nodes.length := by
  simpa using congrArg List.length h.nodes

theorem exists_node (hlt : h < uf.nodes.length) : ∃ n, uf.nodes[h]? = some n := ⟨_, List.getElem?_eq_getElem hlt⟩

theorem node_eq_ok : uf.node h = .ok n ↔ uf.nodes[h]? = some n := by
  unfold node
  cases uf.nodes[h]? with
  | none => simp
  | some n' => simp

theorem parent_of_node (hn : uf.nodes[h]? = some n) : uf.parent h = n.parent := by
  rw [parent, hn]

theorem setNode_length : (uf.setNode h n).nodes.length = uf.nodes.length := List.length_set

theorem setNode_node (hlt : h < uf.nodes.length) (i : Nat) :
    (uf.setNode h n).nodes[i]? = if i = h then some n else uf.nodes[i]? := by
  simp only [setNode, List.getElem?_set]
  by_cases hi : i = h
  · simp [hi, hlt]
  · simp [hi, Ne.symm hi]

theorem setNode_parent (hlt : h < uf.nodes.length) :
    (uf.setNode h n).parent = Function.update uf.parent h n.parent := by
  funext i
  rw [parent, setNode_node hlt, Function.update_apply]
  by_cases hi : i = h
  · simp [hi]
  · simp [hi, parent]

/-- What a write leaves as it was in its node, it leaves in all of them. -/
theorem setNode_map {β : Type} {f : Node → β} {n' : Node} (hn : uf.nodes[h]? = some n) (hf : f n' = f n) :
    (uf.setNode h n').nodes.map f = uf.nodes.map f := by
  refine List.ext_getElem? fun i => ?_
  obtain ⟨hlt, -⟩ := List.getElem?_eq_some_iff.mp hn
  rw [List.getElem?_map, List.getElem?_map, setNode_node hlt]
  by_cases hi : i = h
  · rw [if_pos hi, hi, hn, Option.map_some, Option.map_some, hf]
  · rw [if_neg hi]

theorem Shape.root_lt (h : Shape uf root) {x : Nat} (hx : x < uf.nodes.length) : root x < uf.nodes.length := by
  obtain ⟨k, hk⟩ := h.roots x
  revert hx
  generalize root x = r at hk
  induction hk with
  | root _ => exact fun hx => hx
  | up _ _ ih => exact fun hx => ih (h.parent_lt _ hx)

/-- The way to the grandparent is one of two steps, or it was one of none. -/
theorem height_grandparent {p : Nat → Nat} {k x r : Nat} (h : Forest.Height p k x r) (hne : p x ≠ x) :
    ∃ j < k, Forest.Height p j (p (p x)) r := by
  cases h with
  | root hroot => exact absurd hroot hne
  | @up k _ _ _ hup =>
    cases hup with
    | root hroot =>
      rw [hroot]
      exact ⟨0, by omega, .root hroot⟩
    | @up j _ _ _ hup => exact ⟨j, by omega, hup⟩

/-- `find` comes to the root, and all that it changes is pointers. -/
theorem findFrom_spec : ∀ (fuel : Nat) (uf : AxisUnionFind) (h k : Nat), Shape uf root → h < uf.nodes.length →
    Forest.Height uf.parent k h (root h) → k < fuel →
    ∃ uf', findFrom fuel uf h = .ok (root h, uf') ∧ Shape uf' root ∧ SameData uf uf' := by
  intro fuel
  induction fuel with
  | zero =>
    intro _ _ k _ _ _ hk
    exact absurd hk (Nat.not_lt_zero k)
  | succ fuel ih =>
    intro uf h k hshape hlt hheight hk
    obtain ⟨n, hn⟩ := exists_node hlt
    have hp := parent_of_node hn
    by_cases hroot : n.parent = h
    · refine ⟨uf, bind_eq_ok.mpr ⟨n, node_eq_ok.mpr hn, ?_⟩, hshape, .refl uf⟩
      rw [if_pos hroot, hshape.roots.root_of_isRoot (hp.trans hroot)]
      rfl
    · have hplt : n.parent < uf.nodes.length := hp ▸ hshape.parent_lt h hlt
      obtain ⟨up, hup⟩ := exists_node hplt
      have hgrand : up.parent = uf.parent (uf.parent h) := by rw [hp, parent_of_node hup]
      have hglt : up.parent < uf.nodes.length := parent_of_node hup ▸ hshape.parent_lt _ hplt
      have hset : (uf.setNode h { n with parent := up.parent }).parent = Function.update uf.parent h up.parent :=
        setNode_parent hlt
      rw [hgrand] at hset
      have hshape' : Shape (uf.setNode h { n with parent := up.parent }) root := by
        constructor
        · rw [hgrand, hset]
          exact hshape.roots.halve h
        · intro i hi
          rw [setNode_length] at hi ⊢
          rw [hgrand, hset, Function.update_apply]
          split
          · exact hgrand ▸ hglt
          · exact hshape.parent_lt i hi
      obtain ⟨j, hj, hheight'⟩ := height_grandparent hheight fun he => hroot (hp ▸ he)
      obtain ⟨i, hi, hheight'⟩ := hheight'.halve h
      have hsame : root up.parent = root h := by
        rw [hgrand, hshape.roots.root_parent, hshape.roots.root_parent]
      obtain ⟨uf', hfind, hshape'', hdata⟩ := ih _ up.parent i hshape' (by rwa [setNode_length])
        (by rw [hsame, hgrand, hset]; exact hheight') (by omega)
      have hkeep : SameData uf (uf.setNode h { n with parent := up.parent }) :=
        ⟨rfl, setNode_map hn rfl⟩
      refine ⟨uf', bind_eq_ok.mpr ⟨n, node_eq_ok.mpr hn, ?_⟩, hshape'', hkeep.trans hdata⟩
      rw [if_neg hroot]
      exact bind_eq_ok.mpr ⟨up, node_eq_ok.mpr hup, hfind.trans (by rw [hsame])⟩

/-- `find` ends, at the root. -/
theorem find_spec (hshape : Shape uf root) (hlt : h < uf.nodes.length) :
    ∃ uf', uf.find h = .ok (root h, uf') ∧ Shape uf' root ∧ SameData uf uf' := by
  obtain ⟨k, hk⟩ := hshape.roots h
  have hclosed : ∀ a ∈ Finset.range uf.nodes.length, uf.parent a ∈ Finset.range uf.nodes.length := fun a ha =>
    Finset.mem_range.mpr (hshape.parent_lt a (Finset.mem_range.mp ha))
  have hcard := hk.lt_card hclosed (Finset.mem_range.mpr hlt)
  rw [Finset.card_range] at hcard
  exact findFrom_spec _ uf h k hshape hlt hk hcard

theorem SameData.node (h : SameData uf uf') (i : Nat) :
    (uf'.nodes[i]?).map Node.data = (uf.nodes[i]?).map Node.data := by
  rw [← List.getElem?_map, ← List.getElem?_map, h.nodes]

/-- One root goes under the other; the marks of both are on the one that stays. -/
theorem attach_spec {ra rb : Nat} (hshape : Shape uf root) (ha : ra < uf.nodes.length) (hb : rb < uf.nodes.length)
    (hra : uf.parent ra = ra) (hrb : uf.parent rb = rb) (hne : ra ≠ rb) :
    ∃ uf', uf.attach ra rb = .ok uf' ∧ Shape uf' (fun x => if root x = rb then ra else root x) ∧
      uf'.index = uf.index ∧ uf'.axes = uf.axes ∧
      ∀ i, uf'.Marked i ↔ uf.Marked i ∨ i = ra ∧ uf.Marked rb := by
  obtain ⟨a, hna⟩ := exists_node ha
  obtain ⟨b, hnb⟩ := exists_node hb
  have hlen : ∀ n, (uf.setNode rb n).nodes.length = uf.nodes.length := fun n => setNode_length
  have hna' : ∀ n, (uf.setNode rb n).nodes[ra]? = some a := fun n => by rw [setNode_node hb, if_neg hne, hna]
  refine ⟨_, bind_eq_ok.mpr ⟨a, node_eq_ok.mpr hna, bind_eq_ok.mpr ⟨b, node_eq_ok.mpr hnb, rfl⟩⟩, ?_, rfl, ?_, ?_⟩
  · have hset : ∀ r m, ((uf.setNode rb { b with parent := ra }).setNode ra
        { a with rank := r, pinned := m }).parent = Function.update uf.parent rb ra := by
      intro r m
      rw [setNode_parent (by rwa [hlen]), setNode_parent hb, Function.update_eq_self_iff]
      dsimp only
      rw [Function.update_of_ne hne, ← parent_of_node hna]
    constructor
    · rw [hset]
      exact hshape.roots.link hra hrb hne
    · intro i hi
      rw [setNode_length, hlen] at hi ⊢
      rw [hset, Function.update_apply]
      split
      · exact ha
      · exact hshape.parent_lt i hi
  · exact (setNode_map (hna' _) (by rfl)).trans (setNode_map hnb (by rfl))
  · intro i
    rw [Marked, setNode_node (by rwa [hlen]), setNode_node hb, Marked, Marked]
    by_cases hi : i = ra
    · simp [hi, hna, hnb]
    · by_cases hi' : i = rb
      · simp [hi', hnb, hne.symm]
      · simp [hi, hi']

theorem SameData.axes (h : SameData uf uf') : uf'.axes = uf.axes := by
  have hmap : ∀ l : List Node, l.map (fun n => (n.key, n.len)) = (l.map Node.data).map fun d => (d.1, d.2.1) :=
    fun l => by simp [Node.data]
  rw [AxisUnionFind.axes, AxisUnionFind.axes, hmap, hmap, h.nodes]

theorem SameData.pinned (h : SameData uf uf') {i : Nat} {n : Node} (hn : uf'.nodes[i]? = some n) :
    ∃ m, uf.nodes[i]? = some m ∧ m.key = n.key ∧ m.len = n.len ∧ m.pinned = n.pinned := by
  have hdata := h.node i
  rw [hn, Option.map_some] at hdata
  obtain ⟨m, hm, hdata⟩ := Option.map_eq_some_iff.mp hdata.symm
  simp only [Node.data, Prod.mk.injEq] at hdata
  exact ⟨m, hm, hdata.1, hdata.2.1, hdata.2.2.2⟩

end
end AxisUnionFind

/-! ### Runs of calls -/

namespace AxisOp
open AxisUnionFind

/-- What the union-find holds after the calls. -/
structure Built (ops : List AxisOp) (uf : AxisUnionFind) (root : Nat → Nat) : Prop where
  shape : Shape uf root
  axes : uf.axes = added ops
  index : ∀ key handle, uf.index.get? key = some handle ↔ ((added ops).map Prod.fst)[handle]? = some key
  classes : Forest.Classes root (United ops)
  marks : Forest.SameMarks (United ops) uf.Marked (Pinned ops)

theorem added_snoc (ops : List AxisOp) (op : AxisOp) : added (ops ++ [op]) = addAxis (added ops) op := List.foldl_concat ..

theorem length_addAxis (l : List (AxisKey × Nat)) (op : AxisOp) : l.length ≤ (addAxis l op).length := by
  unfold addAxis
  split
  · split
    · exact le_rfl
    · simp
  · exact le_rfl

theorem Valid.front {ops : List AxisOp} {op : AxisOp} (h : Valid (ops ++ [op])) :
    Valid ops ∧ ∀ h ∈ op.handles, h < (added ops).length := by
  constructor
  · intro front op' back he
    exact h front op' (back ++ [op]) (by rw [he]; simp)
  · exact h ops op [] rfl

section
variable {ops : List AxisOp} {uf : AxisUnionFind} {root : Nat → Nat}

theorem Built.length (h : Built ops uf root) : uf.nodes.length = (added ops).length := by
  rw [← h.axes, AxisUnionFind.axes, List.length_map]

theorem united_snoc_of_ne {op : AxisOp} (hop : ∀ a b, op ≠ .unite a b) : United (ops ++ [op]) = United ops := by
  funext a b
  simp [United, (hop a b).symm]

theorem built_add (h : Built ops uf root) (key : AxisKey) (len : Nat)
    (hsmall : (added (ops ++ [.add key len])).length < 2 ^ 32) :
    Built (ops ++ [.add key len]) (uf.add key len).2 root := by
  have hunited : United (ops ++ [.add key len]) = United ops := united_snoc_of_ne fun a b => by simp
  have hpinned : Pinned (ops ++ [.add key len]) = Pinned ops := by
    funext i
    simp [Pinned]
  have hclasses := h.classes
  have hmarks := h.marks
  rw [← hunited] at hclasses hmarks
  rw [← hpinned] at hmarks
  rw [added_snoc] at hsmall
  cases hk : uf.index.get? key with
  | some handle =>
    have hmem : key ∈ (added ops).map Prod.fst := List.mem_of_getElem? ((h.index key handle).mp hk)
    have hadded : added (ops ++ [.add key len]) = added ops := by
      rw [added_snoc, addAxis, if_pos hmem]
    rw [AxisUnionFind.add, hk]
    exact ⟨h.shape, hadded ▸ h.axes, hadded ▸ h.index, hclasses, hmarks⟩
  | none =>
    have hnew : key ∉ (added ops).map Prod.fst := by
      intro hmem
      obtain ⟨handle, hhandle⟩ := List.mem_iff_getElem?.mp hmem
      exact absurd ((h.index key handle).mpr hhandle) (by simp [hk])
    have hadded : added (ops ++ [.add key len]) = added ops ++ [(key, len)] := by
      rw [added_snoc, addAxis, if_neg hnew]
    have hhandle : u32 uf.nodes.length = uf.nodes.length := by
      rw [addAxis, if_neg hnew, List.length_append, ← h.length] at hsmall
      exact u32_of_lt (by omega)
    have hparent : AxisUnionFind.parent ⟨uf.nodes ++ [⟨key, len, uf.nodes.length, 0, false⟩],
        uf.index.emplace key uf.nodes.length⟩ = uf.parent := by
      funext i
      rw [AxisUnionFind.parent, AxisUnionFind.parent]
      rcases lt_trichotomy i uf.nodes.length with hi | rfl | hi
      · rw [List.getElem?_append_left hi]
      · simp
      · rw [List.getElem?_eq_none (by simp; omega), List.getElem?_eq_none (by omega)]
    rw [AxisUnionFind.add, hk]
    dsimp only
    rw [hhandle]
    refine ⟨⟨hparent ▸ h.shape.roots, fun i hi => ?_⟩, ?_, fun k handle => ?_, hclasses, ?_⟩
    · rw [hparent]
      rw [List.length_append, List.length_singleton] at hi ⊢
      rcases Nat.lt_succ_iff_lt_or_eq.mp hi with hi | rfl
      · exact Nat.lt_succ_of_lt (h.shape.parent_lt i hi)
      · rw [AxisUnionFind.parent, List.getElem?_eq_none le_rfl]
        exact Nat.lt_succ_self _
    · rw [hadded, ← h.axes]
      simp [AxisUnionFind.axes]
    · have hkeys : key ∉ uf.index.keys := FinMap.get?_eq_none.mp hk
      have hlen : ((added ops).map Prod.fst).length = uf.nodes.length := by rw [List.length_map, h.length]
      rw [FinMap.get?_emplace_new _ hkeys, hadded, List.map_append]
      rcases lt_or_ge handle uf.nodes.length with hlt | hge
      · rw [List.getElem?_append_left (hlen.symm ▸ hlt), ← h.index]
        split
        · next he =>
          rw [he, hk]
          exact ⟨fun heq => absurd (Option.some.inj heq) hlt.ne', fun heq => absurd heq (by simp)⟩
        · exact Iff.rfl
      · rw [List.getElem?_append_right (hlen.symm ▸ hge), hlen]
        split
        · next he =>
          rw [he]
          constructor
          · intro heq
            rw [← Option.some.inj heq, Nat.sub_self]
            rfl
          · intro heq
            have := (List.getElem?_eq_some_iff.mp heq).1
            rw [List.map_singleton, List.length_singleton] at this
            congr 1
            omega
        · next he =>
          constructor
          · intro heq
            have := (List.getElem?_eq_some_iff.mp ((h.index k handle).mp heq)).1
            omega
          · intro heq
            exact absurd (List.mem_singleton.mp (List.mem_of_getElem? heq)) he
    · have hsame : Marked ⟨uf.nodes ++ [⟨key, len, uf.nodes.length, 0, false⟩],
          uf.index.emplace key uf.nodes.length⟩ = uf.Marked := by
        funext i
        rw [Marked, Marked]
        rcases lt_trichotomy i uf.nodes.length with hi | rfl | hi
        · rw [List.getElem?_append_left hi]
        · simp
        · rw [List.getElem?_eq_none (by simp; omega), List.getElem?_eq_none (by omega)]
      exact hsame ▸ hmarks

/-- `find` between the calls leaves what the calls built. -/
theorem Built.sameData {uf' : AxisUnionFind} (h : Built ops uf root) (hshape : Shape uf' root)
    (hdata : SameData uf uf') : Built ops uf' root := by
  have hmarked : uf'.Marked = uf.Marked := by
    funext i
    rw [eq_iff_iff]
    constructor
    · rintro ⟨n, hn, hp⟩
      obtain ⟨m, hm, -, -, hmp⟩ := hdata.pinned hn
      exact ⟨m, hm, hmp.trans hp⟩
    · rintro ⟨n, hn, hp⟩
      obtain ⟨m, hm, -, -, hmp⟩ := hdata.symm.pinned hn
      exact ⟨m, hm, hmp.trans hp⟩
  exact ⟨hshape, hdata.axes.trans h.axes, hdata.index ▸ h.index, h.classes, hmarked ▸ h.marks⟩

theorem Built.find (h : Built ops uf root) {i : Nat} (hi : i < (added ops).length) :
    ∃ uf', uf.find i = .ok (root i, uf') ∧ Built ops uf' root ∧ SameData uf uf' := by
  obtain ⟨uf', hfind, hshape, hdata⟩ := find_spec h.shape (h.length.symm ▸ hi)
  exact ⟨uf', hfind, h.sameData hshape hdata, hdata⟩

theorem Built.root_lt (h : Built ops uf root) {i : Nat} (hi : i < (added ops).length) : root i < (added ops).length :=
  h.length ▸ h.shape.root_lt (h.length.symm ▸ hi)

theorem built_pin (h : Built ops uf root) {i : Nat} (hi : i < (added ops).length) :
    ∃ uf', uf.pin i = .ok uf' ∧ Built (ops ++ [.pin i]) uf' root := by
  obtain ⟨uf₁, hfind, h₁, -⟩ := h.find hi
  obtain ⟨n, hn⟩ := exists_node (h₁.length.symm ▸ h₁.root_lt hi)
  have hlt := (List.getElem?_eq_some_iff.mp hn).1
  have hunited : United (ops ++ [.pin i]) = United ops := united_snoc_of_ne fun a b => by simp
  have hadded : added (ops ++ [.pin i]) = added ops := added_snoc ops _
  refine ⟨_, bind_eq_ok.mpr ⟨_, hfind, bind_eq_ok.mpr ⟨n, node_eq_ok.mpr hn, rfl⟩⟩, ?_⟩
  have hparent : (uf₁.setNode (root i) { n with pinned := true }).parent = uf₁.parent := by
    rw [setNode_parent hlt, Function.update_eq_self_iff]
    exact (parent_of_node hn).symm
  have hmarked : ∀ j, (uf₁.setNode (root i) { n with pinned := true }).Marked j ↔ uf₁.Marked j ∨ j = root i := by
    intro j
    rw [Marked, setNode_node hlt, Marked]
    by_cases hj : j = root i
    · simp [hj]
    · simp [hj]
  have hconn : Connected ops i (root i) := (h.classes i (root i)).mp (h.shape.roots.root_root i).symm
  constructor
  · constructor
    · exact hparent ▸ h₁.shape.roots
    · intro j hj
      rw [setNode_length] at hj ⊢
      exact hparent ▸ h₁.shape.parent_lt j hj
  · rw [hadded, ← h₁.axes]
    exact setNode_map hn rfl
  · exact hadded ▸ h₁.index
  · rw [hunited]
    exact h.classes
  · rw [hunited]
    constructor
    · intro x hx
      rcases (hmarked x).mp hx with hx | rfl
      · obtain ⟨y, hxy, hy⟩ := h₁.marks.sound x hx
        exact ⟨y, hxy, List.mem_append_left _ hy⟩
      · exact ⟨i, .symm _ _ hconn, List.mem_append_right _ (List.mem_singleton_self _)⟩
    · intro x hx
      rcases List.mem_append.mp hx with hx | hx
      · obtain ⟨y, hxy, hy⟩ := h₁.marks.complete x hx
        exact ⟨y, hxy, (hmarked y).mpr (.inl hy)⟩
      · cases List.mem_singleton.mp hx
        exact ⟨root i, hconn, (hmarked _).mpr (.inr rfl)⟩

theorem united_snoc (a b x y : Nat) :
    United (ops ++ [.unite a b]) x y ↔ United ops x y ∨ x = a ∧ y = b := by
  simp [United]

/-- The marks, once one root is under the other. -/
theorem marks_attach {uf' : AxisUnionFind} {ra rb a b : Nat} (h : Built ops uf root)
    (hmarked : ∀ i, uf'.Marked i ↔ uf.Marked i ∨ i = ra ∧ uf.Marked rb)
    (hconn : Connected (ops ++ [.unite a b]) ra rb) :
    Forest.SameMarks (United (ops ++ [.unite a b])) uf'.Marked (Pinned (ops ++ [.unite a b])) := by
  have hpinned : Pinned (ops ++ [.unite a b]) = Pinned ops := by
    funext i
    simp [Pinned]
  have hmarks := h.marks.mono fun x y hxy => (united_snoc a b x y).mpr (.inl hxy)
  rw [hpinned]
  constructor
  · intro x hx
    rcases (hmarked x).mp hx with hx | ⟨rfl, hx⟩
    · exact hmarks.sound x hx
    · obtain ⟨y, hxy, hy⟩ := hmarks.sound rb hx
      exact ⟨y, .trans _ _ _ hconn hxy, hy⟩
  · intro x hx
    obtain ⟨y, hxy, hy⟩ := hmarks.complete x hx
    exact ⟨y, hxy, (hmarked y).mpr (.inl hy)⟩

/-- One of two roots under the other, for the call that unites their trees. -/
theorem built_attach (h : Built ops uf root) {ra rb a b : Nat} (ha : a < (added ops).length)
    (hb : b < (added ops).length) (hroots : root a = ra ∧ root b = rb ∨ root a = rb ∧ root b = ra) (hne : ra ≠ rb) :
    ∃ uf', uf.attach ra rb = .ok uf' ∧
      Built (ops ++ [.unite a b]) uf' (fun x => if root x = rb then ra else root x) := by
  have hra : uf.parent ra = ra ∧ ra < uf.nodes.length := by
    rcases hroots with ⟨rfl, -⟩ | ⟨-, rfl⟩
    · exact ⟨h.shape.roots.isRoot a, h.length.symm ▸ h.root_lt ha⟩
    · exact ⟨h.shape.roots.isRoot b, h.length.symm ▸ h.root_lt hb⟩
  have hrb : uf.parent rb = rb ∧ rb < uf.nodes.length := by
    rcases hroots with ⟨-, rfl⟩ | ⟨rfl, -⟩
    · exact ⟨h.shape.roots.isRoot b, h.length.symm ▸ h.root_lt hb⟩
    · exact ⟨h.shape.roots.isRoot a, h.length.symm ▸ h.root_lt ha⟩
  obtain ⟨uf', hattach, hshape, hindex, haxes, hmarked⟩ := attach_spec h.shape hra.2 hrb.2 hra.1 hrb.1 hne
  have hclasses := h.classes.link (united_snoc a b) hroots
  have hadded : added (ops ++ [.unite a b]) = added ops := added_snoc ops _
  refine ⟨uf', hattach, hshape, hadded ▸ haxes.trans h.axes, hadded ▸ hindex ▸ h.index, hclasses, ?_⟩
  refine marks_attach h hmarked ((hclasses ra rb).mp ?_)
  dsimp only
  rw [h.shape.roots.root_of_isRoot hra.1, h.shape.roots.root_of_isRoot hrb.1, if_neg hne, if_pos rfl]

theorem built_unite (h : Built ops uf root) {a b : Nat} (ha : a < (added ops).length) (hb : b < (added ops).length) :
    ∃ uf' root', uf.unite a b = .ok uf' ∧ Built (ops ++ [.unite a b]) uf' root' := by
  obtain ⟨uf₁, hfind₁, h₁, -⟩ := h.find ha
  obtain ⟨uf₂, hfind₂, h₂, -⟩ := h₁.find hb
  by_cases heq : root a = root b
  · refine ⟨uf₂, root, bind_eq_ok.mpr ⟨_, hfind₁, bind_eq_ok.mpr ⟨_, hfind₂, if_pos heq⟩⟩, ?_⟩
    have hadded : added (ops ++ [.unite a b]) = added ops := added_snoc ops _
    have hpinned : Pinned (ops ++ [.unite a b]) = Pinned ops := by
      funext i
      simp [Pinned]
    exact ⟨h₂.shape, hadded ▸ h₂.axes, hadded ▸ h₂.index, h.classes.keep (united_snoc a b) heq,
      hpinned ▸ h₂.marks.mono fun x y hxy => (united_snoc a b x y).mpr (.inl hxy)⟩
  · obtain ⟨na, hna⟩ := exists_node (h₂.length.symm ▸ h.root_lt ha)
    obtain ⟨nb, hnb⟩ := exists_node (h₂.length.symm ▸ h.root_lt hb)
    have hunite : uf.unite a b = if na.rank < nb.rank then uf₂.attach (root b) (root a) else
        uf₂.attach (root a) (root b) := by
      rw [AxisUnionFind.unite, hfind₁]
      simp only [bind, Except.bind, hfind₂, if_neg heq, node_eq_ok.mpr hna, node_eq_ok.mpr hnb]
    rw [hunite]
    split
    · obtain ⟨uf', hattach, hbuilt⟩ := built_attach h₂ ha hb (.inr ⟨rfl, rfl⟩) (Ne.symm heq)
      exact ⟨uf', _, hattach, hbuilt⟩
    · obtain ⟨uf', hattach, hbuilt⟩ := built_attach h₂ ha hb (.inl ⟨rfl, rfl⟩) heq
      exact ⟨uf', _, hattach, hbuilt⟩

theorem built_nil : Built [] .empty id := by
  have hnone : ∀ i, (AxisUnionFind.empty.nodes)[i]? = none := fun i => List.getElem?_nil
  constructor
  · constructor
    · exact fun x => ⟨0, .root (by rw [parent, hnone])⟩
    · exact fun h hlt => absurd hlt (Nat.not_lt_zero h)
  · rfl
  · intro key handle
    simp [AxisUnionFind.empty, added]
  · exact Forest.Classes.id fun x y h => absurd h List.not_mem_nil
  · constructor
    · rintro x ⟨n, hn, -⟩
      exact absurd hn (by rw [hnone]; simp)
    · exact fun x hx => absurd hx List.not_mem_nil

/-- Every run of calls on valid handles comes to its end. -/
theorem run_spec (ops : List AxisOp) (hvalid : Valid ops) (hsmall : (added ops).length < 2 ^ 32) :
    ∃ uf root, run ops = .ok uf ∧ Built ops uf root := by
  induction ops using List.reverseRecOn with
  | nil =>
    exact ⟨.empty, id, rfl, built_nil⟩
  | append_singleton ops op ih =>
    obtain ⟨hfront, hhandles⟩ := hvalid.front
    have hle := length_addAxis (added ops) op
    rw [← added_snoc] at hle
    obtain ⟨uf, root, hrun, hbuilt⟩ := ih hfront (by omega)
    have happly : ∃ uf' root', op.apply uf = .ok uf' ∧ Built (ops ++ [op]) uf' root' := by
      cases op with
      | add key len => exact ⟨_, root, rfl, built_add hbuilt key len hsmall⟩
      | unite a b => exact built_unite hbuilt (hhandles a (by simp [handles])) (hhandles b (by simp [handles]))
      | pin i =>
        obtain ⟨uf', hpin, hbuilt'⟩ := built_pin hbuilt (hhandles i (by simp [handles]))
        exact ⟨uf', root, hpin, hbuilt'⟩
    obtain ⟨uf', root', happly, hbuilt'⟩ := happly
    refine ⟨uf', root', ?_, hbuilt'⟩
    rw [run, List.foldlM_append, ← run, hrun]
    exact bind_eq_ok.mpr ⟨uf, rfl, bind_eq_ok.mpr ⟨uf', happly, rfl⟩⟩

end
end AxisOp
end SynapseFs.Align
