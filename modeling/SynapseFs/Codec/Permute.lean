import SynapseFs.Core.Tensor
import SynapseFs.Core.Topology

/-! Moving units: gathers by runs, and rows whose columns move.

Writer and reader gather base units the same way: sort the indices a frame needs,
read each run of neighbours once into a scratch buffer, then copy unit by unit in
target order. They differ in how a run is read, so that is a parameter (`gather`). -/
namespace SynapseFs.Codec
open Lib Core

/-- `dst[i] = src[perm[i]]`, unit-wise; `dst` is as long as `src`. -/
def permuteUnits (src : Bytes) (perm : List Nat) (unitBytes : Nat) : Outcome Bytes :=
  if perm.length * unitBytes ≤ src.length ∧ ∀ p ∈ perm, (p + 1) * unitBytes ≤ src.length then
    .ok (units src unitBytes perm)
  else .error (.undefined "memcpy outside the row")

/-- The base units behind a range of target units, as ascending runs. -/
def dependencyRuns (perm : List Nat) (first count : Nat) : Outcome (List UnitRun) :=
  if perm.length < first + count then .error (.undefined "subspan outside the permutation")
  else .ok (toRuns ((slice perm first count).mergeSort))

def expand (perm : List Nat) (block : Nat) : List Nat := expandPermutation perm block

/-- `expand` on indices that come from an object: its `reserve` is asked for any length. -/
def expandReserved (perm : List Nat) (block : Nat) : Outcome (List Nat) :=
  if 2 ^ 61 ≤ perm.length * block then .error (.exception "vector::reserve") else .ok (expand perm block)

theorem expandReserved_eq {perm : List Nat} {block : Nat} (h : perm.length * block < 2 ^ 61) :
    expandReserved perm block = .ok (expand perm block) :=
  if_neg (not_le.mpr h)

/-! ### Gathers -/

structure Scratch where
  bytes : Bytes
  /-- `unit_to_scratch_off`, the latest binding first. -/
  offs : List (Nat × Nat)

def Scratch.add (s : Scratch) (run : UnitRun) (unitBytes : Nat) (bytes : Bytes) : Scratch where
  bytes := s.bytes ++ bytes
  offs := (List.range run.count).reverse.map (fun k => (u32 (run.first + k), s.bytes.length + k * unitBytes)) ++ s.offs

def readRuns (read : UnitRun → Outcome Bytes) (unitBytes : Nat) : Scratch → List UnitRun → Outcome Scratch
  | s, [] => .ok s
  | s, run :: rest => do
    let bytes ← read run
    readRuns read unitBytes (s.add run unitBytes bytes) rest

def copyUnit (fn name : String) (s : Scratch) (unitBytes p : Nat) : Outcome Bytes :=
  match s.offs.lookup p with
  | some off => .ok (slice s.bytes off unitBytes)
  | none => sfsErr .internal (fn ++ ": dependency run missing a unit") name

/-- `read` returns the `run.count * unitBytes` bytes of a run. -/
def gather (fn name : String) (read : UnitRun → Outcome Bytes) (perm : List Nat) (first count unitBytes : Nat) :
    Outcome Bytes := do
  let runs ← dependencyRuns perm first count
  let s ← readRuns read unitBytes ⟨[], []⟩ runs
  let copied ← (slice perm first count).mapM (copyUnit fn name s unitBytes)
  return copied.flatten

/-- What is in the scratch buffer are units of `b`, where the offsets say. -/
def Scratch.Holds (s : Scratch) (b : Bytes) (unitBytes : Nat) : Prop :=
  ∀ p off, s.offs.lookup p = some off → slice s.bytes off unitBytes = unit b unitBytes p ∧
    off + unitBytes ≤ s.bytes.length

theorem lookup_map_reverse_range (f g : Nat → Nat) (n p : Nat) (rest : List (Nat × Nat)) :
    (∃ k < n, f k = p ∧ ((List.range n).reverse.map (fun k => (f k, g k)) ++ rest).lookup p = some (g k)) ∨
      ((∀ k < n, f k ≠ p) ∧ ((List.range n).reverse.map (fun k => (f k, g k)) ++ rest).lookup p = rest.lookup p) := by
  induction n with
  | zero => exact .inr ⟨nofun, rfl⟩
  | succ n ih =>
    rw [List.range_succ, List.reverse_append, List.reverse_singleton, List.singleton_append, List.map_cons,
      List.cons_append, List.lookup_cons]
    by_cases h : f n = p
    · refine .inl ⟨n, Nat.lt_succ_self n, h, ?_⟩
      rw [h, beq_self_eq_true]
    · rw [beq_false_of_ne (Ne.symm h)]
      rcases ih with ⟨k, hk, he, hl⟩ | ⟨hall, hl⟩
      · exact .inl ⟨k, by omega, he, hl⟩
      · refine .inr ⟨fun k hk => ?_, hl⟩
        rcases Nat.lt_succ_iff_lt_or_eq.mp hk with hk | rfl
        · exact hall k hk
        · exact h

section
variable {b : Bytes} {unitBytes n : Nat} {read : UnitRun → Outcome Bytes}

/-- Adding a run that was read in full keeps what is held. -/
theorem Scratch.add_holds {s : Scratch} (hs : s.Holds b unitBytes) {run : UnitRun} (hrun : run.first + run.count ≤ n)
    (hn : n ≤ 2 ^ 32) (hb : n * unitBytes ≤ b.length) :
    (s.add run unitBytes (slice b (run.first * unitBytes) (run.count * unitBytes))).Holds b unitBytes := by
  have hlen : (slice b (run.first * unitBytes) (run.count * unitBytes)).length = run.count * unitBytes := by
    have : (run.first + run.count) * unitBytes ≤ n * unitBytes := Nat.mul_le_mul_right _ hrun
    rw [Nat.add_mul] at this
    rw [length_slice]
    omega
  intro p off hl
  simp only [Scratch.add] at hl ⊢
  rcases lookup_map_reverse_range (fun k => u32 (run.first + k)) (fun k => s.bytes.length + k * unitBytes) run.count p
    s.offs with ⟨k, hk, hp, hlk⟩ | ⟨-, hlk⟩
  · cases hlk.symm.trans hl
    have hend : (k + 1) * unitBytes ≤ run.count * unitBytes := Nat.mul_le_mul_right _ hk
    rw [Nat.succ_mul] at hend
    rw [u32_of_lt (by omega)] at hp
    subst hp
    refine ⟨?_, by rw [List.length_append, hlen]; omega⟩
    rw [slice_append_right, ← unit, unit_slice _ _ _ _ _ hk]
  · rw [hlk] at hl
    obtain ⟨hu, ho⟩ := hs p off hl
    exact ⟨by rw [slice_append_left _ _ _ _ ho, hu], by rw [List.length_append]; omega⟩

/-- Whatever was read, the units of a run are found once it is added, and those before it still are. -/
theorem Scratch.add_found (s : Scratch) {run : UnitRun} (hrun : run.first + run.count ≤ 2 ^ 32) (bytes : Bytes) {p : Nat}
    (hp : run.Covers p ∨ (s.offs.lookup p).isSome) : ((s.add run unitBytes bytes).offs.lookup p).isSome := by
  simp only [Scratch.add]
  rcases lookup_map_reverse_range (fun k => u32 (run.first + k)) (fun k => s.bytes.length + k * unitBytes) run.count p
    s.offs with ⟨k, -, -, hlk⟩ | ⟨hall, hlk⟩
  · rw [hlk]
    rfl
  · rw [hlk]
    refine hp.resolve_left fun hc => ?_
    obtain ⟨hlow, hhigh⟩ := hc
    refine hall (p - run.first) (by omega) ?_
    rw [u32_of_lt (by omega)]
    omega

/-- Every unit that a run covers is found once all runs are read. -/
theorem readRuns_found : ∀ (runs : List UnitRun) (s s' : Scratch), (∀ run ∈ runs, run.first + run.count ≤ 2 ^ 32) →
    readRuns read unitBytes s runs = .ok s' →
    ∀ p, (∃ run ∈ runs, run.Covers p) ∨ (s.offs.lookup p).isSome → (s'.offs.lookup p).isSome := by
  intro runs
  induction runs with
  | nil =>
    intro s s' _ h p hp
    cases h
    exact hp.resolve_left (by simp)
  | cons run rest ih =>
    intro s s' hruns h p hp
    obtain ⟨bytes, -, h⟩ := bind_eq_ok.mp h
    have hfound := @Scratch.add_found unitBytes s run (hruns run List.mem_cons_self) bytes
    refine ih _ s' (fun r hr => hruns r (List.mem_cons_of_mem _ hr)) h p ?_
    rcases hp with ⟨r, hmem, hc⟩ | hp
    · rcases List.mem_cons.mp hmem with rfl | hmem
      · exact .inr (hfound (.inl hc))
      · exact .inl ⟨r, hmem, hc⟩
    · exact .inr (hfound (.inr hp))

theorem readRuns_spec (hn : n ≤ 2 ^ 32) (hb : n * unitBytes ≤ b.length) : ∀ (runs : List UnitRun) (s : Scratch),
    s.Holds b unitBytes → (∀ run ∈ runs, run.first + run.count ≤ n ∧
      read run = .ok (slice b (run.first * unitBytes) (run.count * unitBytes))) →
    ∃ s', readRuns read unitBytes s runs = .ok s' ∧ s'.Holds b unitBytes := by
  intro runs
  induction runs with
  | nil =>
    intro s hs _
    exact ⟨s, rfl, hs⟩
  | cons run rest ih =>
    intro s hs hread
    obtain ⟨hrun, hr⟩ := hread run List.mem_cons_self
    obtain ⟨s', hs', hholds'⟩ := ih _ (Scratch.add_holds hs hrun hn hb) fun r hr' => hread r (List.mem_cons_of_mem _ hr')
    exact ⟨s', by rw [readRuns, hr]; exact hs', hholds'⟩

theorem copyUnits_spec (fn name : String) {s : Scratch} (hs : s.Holds b unitBytes) (idx : List Nat)
    (hfound : ∀ p ∈ idx, (s.offs.lookup p).isSome) :
    ∃ copied, idx.mapM (copyUnit fn name s unitBytes) = .ok copied ∧ copied.flatten = units b unitBytes idx := by
  induction idx with
  | nil => exact ⟨[], rfl, rfl⟩
  | cons p rest ih =>
    obtain ⟨off, hoff⟩ := Option.isSome_iff_exists.mp (hfound p List.mem_cons_self)
    obtain ⟨copied, hc, hflat⟩ := ih fun q hq => hfound q (List.mem_cons_of_mem _ hq)
    refine ⟨slice s.bytes off unitBytes :: copied, ?_, ?_⟩
    · rw [List.mapM_cons, copyUnit, hoff, hc]
      rfl
    · rw [List.flatten_cons, hflat, (hs p off hoff).1, units_cons]

/-- The rule for gathers: where the runs of a range read as units of `b`, the
gather is those units in target order. -/
theorem gather_eq (fn name : String) {perm : List Nat} {first count : Nat} (hle : first + count ≤ perm.length)
    (hperm : ∀ p ∈ perm, p < n) (hn : n ≤ 2 ^ 32) (hb : n * unitBytes ≤ b.length)
    (hread : ∀ run, 0 < run.count → run.count ≤ count → run.first + run.count ≤ n →
      read run = .ok (slice b (run.first * unitBytes) (run.count * unitBytes))) :
    gather fn name read perm first count unitBytes = .ok (units b unitBytes (slice perm first count)) := by
  have hmem : ∀ p ∈ (slice perm first count).mergeSort, p < n := fun p hp =>
    hperm p (List.mem_of_mem_drop (List.mem_of_mem_take (List.mem_mergeSort.mp hp)))
  have hcount : ∀ run ∈ toRuns (slice perm first count).mergeSort, run.count ≤ count := fun run hrun => by
    have := toRuns_count_le hrun
    rw [List.length_mergeSort, length_slice] at this
    omega
  have hruns : ∀ run ∈ toRuns (slice perm first count).mergeSort, run.first + run.count ≤ n ∧
      read run = .ok (slice b (run.first * unitBytes) (run.count * unitBytes)) := fun run hrun =>
    ⟨toRuns_le hrun hmem, hread run (toRuns_pos hrun) (hcount run hrun) (toRuns_le hrun hmem)⟩
  obtain ⟨s, hs, hholds⟩ := readRuns_spec hn hb _ ⟨[], []⟩ nofun hruns
  have hfound := readRuns_found _ _ s (fun run hrun => (hruns run hrun).1.trans hn) hs
  obtain ⟨copied, hc, hflat⟩ := copyUnits_spec fn name hholds (slice perm first count) fun p hp =>
    hfound p (.inl ((toRuns_covers _ p).mpr (List.mem_mergeSort.mpr hp)))
  refine bind_eq_ok.mpr ⟨_, if_neg (by omega), bind_eq_ok.mpr ⟨s, hs, bind_eq_ok.mpr ⟨copied, hc, ?_⟩⟩⟩
  rw [← hflat]
  rfl

end

/-! ### Columns -/

/-- Each of `count` rows permuted by its columns. -/
def permuteRows (rows : Bytes) (count rowBytes : Nat) (perm : List Nat) (unitBytes : Nat) : Outcome Bytes := do
  let permuted ← (List.range count).mapM fun r => permuteUnits (unit rows rowBytes r) perm unitBytes
  return permuted.flatten

/-- The rows with their columns moved. -/
def moveColumns (b : Bytes) (rowBytes count : Nat) (perm : List Nat) (unitBytes : Nat) : Bytes :=
  (List.range count).flatMap fun r => units (unit b rowBytes r) unitBytes perm

section
variable {b : Bytes} {rowBytes count unitBytes : Nat} {perm : List Nat}

/-- The columns of a permutation of a row lie in the row. -/
theorem column_le (hperm : ∀ p ∈ perm, p < perm.length) (hrow : perm.length * unitBytes = rowBytes) :
    ∀ p ∈ perm, (p + 1) * unitBytes ≤ rowBytes := fun p hp =>
  hrow ▸ Nat.mul_le_mul_right _ (hperm p hp)

theorem length_row (hperm : ∀ p ∈ perm, p < perm.length) (hrow : perm.length * unitBytes = rowBytes) {row : Bytes}
    (hlen : row.length = rowBytes) : (units row unitBytes perm).length = rowBytes := by
  rw [length_units row unitBytes perm (hlen ▸ column_le hperm hrow), hrow]

variable (hperm : ∀ p ∈ perm, p < perm.length) (hrow : perm.length * unitBytes = rowBytes)
  (hb : count * rowBytes ≤ b.length)
include hb

omit hb in
theorem row_le (hb : count * rowBytes ≤ b.length) {r : Nat} (hr : r < count) : (r + 1) * rowBytes ≤ b.length :=
  (Nat.mul_le_mul_right _ hr).trans hb

include hperm hrow in
theorem length_moveColumns : (moveColumns b rowBytes count perm unitBytes).length = count * rowBytes := by
  rw [moveColumns, length_flatMap_const _ _ fun r hr =>
    length_row hperm hrow (length_unit b (row_le hb (List.mem_range.mp hr))), List.length_range]

include hperm hrow in
theorem unit_moveColumns {r : Nat} (hr : r < count) :
    unit (moveColumns b rowBytes count perm unitBytes) rowBytes r = units (unit b rowBytes r) unitBytes perm := by
  rw [moveColumns, unit_flatMap _ _ (fun r hr =>
    length_row hperm hrow (length_unit b (row_le hb (List.mem_range.mp hr)))) r (by simpa using hr), List.getElem_range]

include hperm hrow in
theorem permuteRows_eq : permuteRows b count rowBytes perm unitBytes =
    .ok (moveColumns b rowBytes count perm unitBytes) := by
  have hmap : ∀ l : List Nat, (∀ r ∈ l, r < count) → l.mapM (fun r => permuteUnits (unit b rowBytes r) perm unitBytes) =
      (.ok (l.map fun r => units (unit b rowBytes r) unitBytes perm) : Outcome _) := by
    intro l
    induction l with
    | nil => exact fun _ => rfl
    | cons r rest ih =>
      intro hl
      have hlen := length_unit b (row_le hb (hl r List.mem_cons_self))
      rw [List.mapM_cons, ih fun x hx => hl x (List.mem_cons_of_mem _ hx), permuteUnits,
        if_pos (hlen.symm ▸ ⟨hrow.le, column_le hperm hrow⟩)]
      rfl
  rw [permuteRows, hmap _ fun r hr => List.mem_range.mp hr]
  show Except.ok _ = _
  rw [moveColumns, List.flatMap_def]

include hperm hrow in
/-- Rows and columns commute: gathering rows whose columns have moved is moving
the columns of the gathered rows. -/
theorem units_moveColumns (idx : List Nat) (hidx : ∀ i ∈ idx, i < count) :
    units (moveColumns b rowBytes count perm unitBytes) rowBytes idx =
      moveColumns (units b rowBytes idx) rowBytes idx.length perm unitBytes := by
  have hle : ∀ i ∈ idx, (i + 1) * rowBytes ≤ b.length := fun i hi => row_le hb (hidx i hi)
  have hleft : units (moveColumns b rowBytes count perm unitBytes) rowBytes idx =
      idx.flatMap fun i => units (unit b rowBytes i) unitBytes perm :=
    List.flatMap_congr fun i hi => unit_moveColumns hperm hrow hb (hidx i hi)
  have hright : moveColumns (units b rowBytes idx) rowBytes idx.length perm unitBytes =
      (List.range idx.length).flatMap fun k => units (unit b rowBytes (idx.getD k 0)) unitBytes perm := by
    refine List.flatMap_congr fun k hk => ?_
    have hk := List.mem_range.mp hk
    rw [unit_units b rowBytes idx hle k hk, List.getD_eq_getElem?_getD, List.getElem?_eq_getElem hk, Option.getD_some]
  have hidx' : (List.range idx.length).map (fun k => idx.getD k 0) = idx := by
    refine List.ext_getElem (by simp) fun k hk hk' => ?_
    simp [List.getElem?_eq_getElem hk']
  rw [hleft, hright]
  conv_lhs => rw [← hidx', List.flatMap_map]

end

end SynapseFs.Codec
