import Mathlib.Data.List.FinRange
import Mathlib.Data.List.Sort
import Mathlib.Logic.Function.Basic
import Mathlib.Order.WithBot
import SynapseFs.Core.Error

/-! The exact assignment solver: a shortest augmenting path for one row after another.

A search from the current row scans rows, labels the open columns with the cost of the
cheapest path to them (`Scan`), closes the cheapest (`Search.step`) and goes on from the
row that has it, until it closes a column that no row has. The prices then move by what
the labels fall short of the last one, and the pairs along the path change partners
(`augment`). An infinite cost is `⊤`; the arithmetic is any that has an order. -/
namespace SynapseFs.Align.RectangularLsap
open Core

variable {nr nc : Nat} {α : Type}

/-! ### Costs -/

/-- A `double`. -/
inductive Entry (α : Type) where
  | nan | negInfinity | finite (a : α) | infinity
  deriving DecidableEq, Repr

namespace Entry

def neg [Neg α] : Entry α → Entry α
  | nan => nan
  | negInfinity => infinity
  | finite a => finite (-a)
  | infinity => negInfinity

/-- `cost[i] != cost[i] || cost[i] == -INFINITY`. -/
def rejected : Entry α → Bool
  | nan | negInfinity => true
  | finite _ | infinity => false

/-- An entry that is not rejected. -/
def cost : Entry α → WithTop α
  | finite a => a
  | nan | negInfinity | infinity => ⊤

end Entry

/-! ### The search -/

/-- What `solve` carries from row to row; -1 is `none`. -/
structure Solution (nr nc : Nat) (α : Type) where
  u : Fin nr → α
  v : Fin nc → α
  path : Fin nc → Option (Fin nr)
  col4row : Fin nr → Option (Fin nc)
  row4col : Fin nc → Option (Fin nr)

/-- The variables of the scan of one row. -/
structure Scan (nr nc : Nat) (α : Type) where
  path : Fin nc → Option (Fin nr)
  shortestPathCosts : Fin nc → WithTop α
  lowest : WithTop α
  index : Option Nat

/-- A read at an index that may be outside. -/
def readAt {β : Type} : Option β → Outcome β
  | some b => .ok b
  | none => .error (.undefined "read outside the array")

/-- `remaining[index] = remaining[--num_remaining]`. -/
def removeAt {κ : Type} (remaining : List κ) (index : Nat) : List κ :=
  match remaining.getLast? with
  | none => []
  | some last => (remaining.set index last).dropLast

section
variable [Add α] [Sub α] [LinearOrder α] (cost : Fin nr → Fin nc → WithTop α)

/-- `minVal + cost[i * nc + j] - u[i] - v[j]`. -/
def pathCost (s : Solution nr nc α) (minVal : α) (i : Fin nr) (j : Fin nc) : WithTop α :=
  (cost i j).map fun c => minVal + c - s.u i - s.v j

/-- A cheaper path to a column is kept. -/
def Scan.relax (t : Scan nr nc α) (i : Fin nr) (j : Fin nc) (r : WithTop α) : Scan nr nc α :=
  if r < t.shortestPathCosts j then
    { t with path := Function.update t.path j (some i), shortestPathCosts := Function.update t.shortestPathCosts j r }
  else t

/-- Among columns of the lowest cost one that is free comes first. -/
def Scan.pick (t : Scan nr nc α) (row4col : Fin nc → Option (Fin nr)) (it : Nat) (j : Fin nc) : Scan nr nc α :=
  if t.shortestPathCosts j < t.lowest ∨ t.shortestPathCosts j = t.lowest ∧ row4col j = none then
    { t with lowest := t.shortestPathCosts j, index := some it }
  else t

/-- The loop over `remaining`. -/
def scan (s : Solution nr nc α) (minVal : α) (i : Fin nr) (it : Nat) : List (Fin nc) → Scan nr nc α → Scan nr nc α
  | [], t => t
  | j :: rest, t => scan s minVal i (it + 1) rest ((t.relax i j (pathCost cost s minVal i j)).pick s.row4col it j)

/-- The variables of `augmenting_path`. -/
structure Search (nr nc : Nat) (α : Type) where
  minVal : α
  i : Fin nr
  path : Fin nc → Option (Fin nr)
  shortestPathCosts : Fin nc → WithTop α
  SR : Fin nr → Bool
  SC : Fin nc → Bool
  remaining : List (Fin nc)

/-- What comes out of one iteration. -/
inductive Iteration (nr nc : Nat) (α : Type) where
  | infeasible
  | sink (j : Fin nc) (t : Search nr nc α)
  | again (t : Search nr nc α)

def Search.step (s : Solution nr nc α) (t : Search nr nc α) : Outcome (Iteration nr nc α) :=
  let r := scan cost s t.minVal t.i 0 t.remaining ⟨t.path, t.shortestPathCosts, ⊤, none⟩
  match r.lowest with
  | none => .ok .infeasible
  | some minVal => do
    let index ← readAt r.index
    let j ← readAt t.remaining[index]?
    let next : Search nr nc α :=
      ⟨minVal, (s.row4col j).getD t.i, r.path, r.shortestPathCosts, Function.update t.SR t.i true,
        Function.update t.SC j true, removeAt t.remaining index⟩
    return if s.row4col j = none then .sink j next else .again next

/-- `while (sink == -1)`; `none` is an infeasible matrix. -/
def Search.run (s : Solution nr nc α) : Nat → Search nr nc α → Outcome (Option (Fin nc × Search nr nc α))
  | 0, _ => .error .outOfFuel
  | fuel + 1, t => do
    match ← t.step cost s with
    | .infeasible => return none
    | .sink j t => return some (j, t)
    | .again t => run s fuel t

def Search.start [Zero α] (s : Solution nr nc α) (i : Fin nr) : Search nr nc α :=
  ⟨0, i, s.path, fun _ => ⊤, fun _ => false, fun _ => false, (List.finRange nc).reverse⟩

def augmentingPath [Zero α] (s : Solution nr nc α) (i : Fin nr) : Outcome (Option (Fin nc × Search nr nc α)) :=
  (Search.start s i).run cost s (nc + 1)

/-! ### The solver -/

/-- `minVal - shortestPathCosts[j]`, where the cost is a number. -/
def fallsShort (t : Search nr nc α) (j : Fin nc) : Option α :=
  match t.shortestPathCosts j with
  | none => none
  | some c => some (t.minVal - c)

/-- `u[i] += minVal - shortestPathCosts[col4row[i]]` for the rows of the search, and all of `minVal` for the current one. -/
def raiseRows (s : Solution nr nc α) (t : Search nr nc α) (curRow : Fin nr) : Outcome (Fin nr → α) :=
  if h : ∀ i, t.SR i = true → i ≠ curRow → ((s.col4row i).bind (fallsShort t)).isSome then
    .ok fun i => if hi : i = curRow then s.u i + t.minVal
      else if hr : t.SR i = true then s.u i + ((s.col4row i).bind (fallsShort t)).get (h i hr hi)
      else s.u i
  else .error (.undefined "no cost of a path to the column")

/-- `v[j] -= minVal - shortestPathCosts[j]`. -/
def lowerColumns (s : Solution nr nc α) (t : Search nr nc α) : Outcome (Fin nc → α) :=
  if h : ∀ j, t.SC j = true → (fallsShort t j).isSome then
    .ok fun j => if hc : t.SC j = true then s.v j - (fallsShort t j).get (h j hc) else s.v j
  else .error (.undefined "no cost of a path to the column")

/-- What the augmenting loop writes. -/
structure Partners (nr nc : Nat) where
  row4col : Fin nc → Option (Fin nr)
  col4row : Fin nr → Option (Fin nc)

/-- `row4col[j] = i; std::swap(col4row[i], j)`, back to the current row. -/
def augment (path : Fin nc → Option (Fin nr)) (curRow : Fin nr) : Nat → Partners nr nc → Fin nc → Outcome (Partners nr nc)
  | 0, _, _ => .error .outOfFuel
  | fuel + 1, p, j => do
    let i ← readAt (path j)
    let next : Partners nr nc := ⟨Function.update p.row4col j (some i), Function.update p.col4row i (some j)⟩
    if i = curRow then return next
    else do
      let j ← readAt (p.col4row i)
      augment path curRow fuel next j

/-- One iteration of the loop over the rows. -/
def addRow [Zero α] (s : Solution nr nc α) (curRow : Fin nr) : Outcome (Option (Solution nr nc α)) := do
  match ← augmentingPath cost s curRow with
  | none => return none
  | some (sink, t) =>
    let u ← raiseRows s t curRow
    let v ← lowerColumns s t
    let p ← augment t.path curRow nc ⟨s.row4col, s.col4row⟩ sink
    return some ⟨u, v, t.path, p.col4row, p.row4col⟩

def addRows [Zero α] : List (Fin nr) → Solution nr nc α → Outcome (Option (Solution nr nc α))
  | [], s => .ok (some s)
  | curRow :: rest, s => do
    match ← addRow cost s curRow with
    | none => return none
    | some s => addRows rest s

end

def Solution.start [Zero α] (nr nc : Nat) : Solution nr nc α :=
  ⟨fun _ => 0, fun _ => 0, fun _ => none, fun _ => none, fun _ => none⟩

/-- What `solve` returns, with what it writes to `a` and `b`. -/
inductive Return (β : Type) where
  | done (b : β)
  | infeasible
  | invalid
  deriving DecidableEq, Repr

def Return.map {β γ : Type} (f : β → γ) : Return β → Return γ
  | done b => done (f b)
  | infeasible => infeasible
  | invalid => invalid

/-- A row without a column would be written as -1. -/
def columns (col4row : Fin nr → Option (Fin nc)) : Outcome (Fin nr → Fin nc) :=
  if h : ∀ i, (col4row i).isSome then .ok fun i => (col4row i).get (h i)
  else .error (.undefined "a row without a column")

def argsortIter (col4row : Fin nr → Fin nc) : List (Fin nr) :=
  (List.finRange nr).insertionSort fun i j => col4row i ≤ col4row j

section
variable [Zero α] [Add α] [Sub α] [LinearOrder α]

/-- A matrix that is not tall. -/
def solveWide (cost : Fin nr → Fin nc → Entry α) : Outcome (Return (Fin nr → Fin nc)) :=
  if ∃ i j, (cost i j).rejected = true then .ok .invalid
  else do
    match ← addRows (fun i j => (cost i j).cost) (List.finRange nr) (Solution.start nr nc) with
    | none => return .infeasible
    | some s => return .done (← columns s.col4row)

/-- The copy that is negated. -/
def signed [Neg α] (maximize : Bool) (cost : Fin nr → Fin nc → Entry α) : Fin nr → Fin nc → Entry α :=
  if maximize then fun i j => (cost i j).neg else cost

/-- The pairs that are written to `a` and `b`. -/
def solve [Neg α] (cost : Fin nr → Fin nc → Entry α) (maximize : Bool) : Outcome (Return (List (Fin nr × Fin nc))) :=
  if nr = 0 ∨ nc = 0 then .ok (.done [])
  else if nc < nr then do
    return (← solveWide fun j i => signed maximize cost i j).map fun rows => (argsortIter rows).map fun v => (rows v, v)
  else do
    return (← solveWide (signed maximize cost)).map fun cols => (List.finRange nr).map fun i => (i, cols i)

end

end SynapseFs.Align.RectangularLsap
