import Mathlib.Data.List.Nodup
import Mathlib.Algebra.Order.BigOperators.Group.List
import Mathlib.Algebra.Order.Ring.Nat

/-! Finite maps as lists of bindings.

The containers of the program (`std::map`, `std::unordered_map`, a directory of
files) are all one thing here: finitely many keys, each bound once, listed in
some order. Nothing is assumed about the order, so what is proved about a loop
over `entries` holds for every iteration order. -/
namespace SynapseFs.Lib

structure FinMap (κ ν : Type) where
  entries : List (κ × ν)
  nodup : (entries.map Prod.fst).Nodup

namespace FinMap

variable {κ ν : Type} [DecidableEq κ]

def empty : FinMap κ ν := ⟨[], List.nodup_nil⟩

omit [DecidableEq κ] in
theorem eq_of_entries {a b : FinMap κ ν} (h : a.entries = b.entries) : a = b := by
  cases a
  cases b
  cases h
  rfl

def get? (m : FinMap κ ν) (k : κ) : Option ν := (m.entries.find? fun e => e.1 = k).map Prod.snd

def keys (m : FinMap κ ν) : List κ := m.entries.map Prod.fst

/-- Every binding whose key passes `p`. -/
def filterKeys (m : FinMap κ ν) (p : κ → Bool) : FinMap κ ν :=
  ⟨m.entries.filter fun e => p e.1, (m.nodup.sublist (List.filter_sublist.map Prod.fst))⟩

def erase (m : FinMap κ ν) (k : κ) : FinMap κ ν := m.filterKeys fun k' => k' ≠ k

omit [DecidableEq κ] in
theorem mem_keys_of_mem {m : FinMap κ ν} {k : κ} {v : ν} (h : (k, v) ∈ m.entries) : k ∈ m.keys :=
  List.mem_map_of_mem h

omit [DecidableEq κ] in
/-- A key has one binding. -/
theorem entry_unique {m : FinMap κ ν} {k : κ} {v v' : ν} (h : (k, v) ∈ m.entries) (h' : (k, v') ∈ m.entries) :
    v = v' := by
  have := List.inj_on_of_nodup_map m.nodup h h' rfl
  cases this
  rfl

theorem get?_eq_some {m : FinMap κ ν} {k : κ} {v : ν} : m.get? k = some v ↔ (k, v) ∈ m.entries := by
  unfold get?
  cases hf : m.entries.find? fun e => e.1 = k with
  | none =>
    have hnone := List.find?_eq_none.mp hf
    exact ⟨nofun, fun h => absurd (decide_eq_true rfl) (hnone _ h)⟩
  | some e =>
    obtain ⟨k', v'⟩ := e
    have hk : k' = k := by simpa using List.find?_some hf
    have hmem := List.mem_of_find?_eq_some hf
    subst hk
    constructor
    · intro h
      cases h
      exact hmem
    · intro h
      rw [Option.map_some, entry_unique hmem h]

theorem get?_eq_none {m : FinMap κ ν} {k : κ} : m.get? k = none ↔ k ∉ m.keys := by
  constructor
  · intro h hk
    obtain ⟨⟨k', v⟩, hmem, rfl⟩ := List.mem_map.mp hk
    rw [get?_eq_some.mpr hmem] at h
    cases h
  · intro h
    cases hg : m.get? k with
    | none => rfl
    | some v => exact absurd (mem_keys_of_mem (get?_eq_some.mp hg)) h

theorem mem_keys {m : FinMap κ ν} {k : κ} : k ∈ m.keys ↔ ∃ v, m.get? k = some v := by
  constructor
  · intro h
    obtain ⟨⟨k', v⟩, hmem, rfl⟩ := List.mem_map.mp h
    exact ⟨v, get?_eq_some.mpr hmem⟩
  · rintro ⟨v, h⟩
    exact mem_keys_of_mem (get?_eq_some.mp h)

/-- Bind `k` to `v`, whatever it was bound to. -/
def insert (m : FinMap κ ν) (k : κ) (v : ν) : FinMap κ ν where
  entries := (m.erase k).entries ++ [(k, v)]
  nodup := by
    rw [List.map_append, List.nodup_append]
    refine ⟨(m.erase k).nodup, by simp, ?_⟩
    rintro a ha b hb rfl
    obtain ⟨e, he, rfl⟩ := List.mem_map.mp ha
    simp [erase, filterKeys] at he hb
    exact he.2 hb

/-- A key that is new goes behind the others. -/
theorem entries_insert_new {m : FinMap κ ν} {k : κ} (v : ν) (h : k ∉ m.keys) :
    (m.insert k v).entries = m.entries ++ [(k, v)] := by
  have hsame : (m.erase k).entries = m.entries := by
    refine List.filter_eq_self.mpr fun e he => decide_eq_true fun hk => h ?_
    exact hk ▸ mem_keys_of_mem he
  exact congrArg (· ++ [(k, v)]) hsame

@[simp] theorem get?_empty (k : κ) : (empty : FinMap κ ν).get? k = none := rfl

theorem get?_filterKeys (m : FinMap κ ν) (p : κ → Bool) (k : κ) :
    (m.filterKeys p).get? k = if p k then m.get? k else none := by
  have hiff : ∀ v, (m.filterKeys p).get? k = some v ↔ (p k = true ∧ m.get? k = some v) := by
    intro v
    simp [get?_eq_some, filterKeys, and_comm]
  split
  · next hp =>
    refine Option.ext fun v => ?_
    rw [hiff v]
    exact ⟨fun h => h.2, fun h => ⟨hp, h⟩⟩
  · next hp =>
    refine Option.eq_none_iff_forall_ne_some.mpr fun v hv => ?_
    exact hp ((hiff v).mp hv).1

theorem get?_erase (m : FinMap κ ν) (k k' : κ) :
    (m.erase k).get? k' = if k' = k then none else m.get? k' := by
  rw [erase, get?_filterKeys]
  by_cases h : k' = k <;> simp [h]

theorem get?_insert (m : FinMap κ ν) (k k' : κ) (v : ν) :
    (m.insert k v).get? k' = if k' = k then some v else m.get? k' := by
  by_cases h : k' = k
  · subst h
    rw [if_pos rfl, get?_eq_some]
    exact List.mem_append_right _ (List.mem_singleton_self _)
  · rw [if_neg h]
    refine Option.ext fun w => ?_
    have herase : (m.erase k).get? k' = m.get? k' := by rw [get?_erase, if_neg h]
    rw [← herase, get?_eq_some, get?_eq_some]
    simp [insert, h]

@[simp] theorem get?_insert_self (m : FinMap κ ν) (k : κ) (v : ν) : (m.insert k v).get? k = some v := by
  rw [get?_insert, if_pos rfl]

theorem get?_insert_ne (m : FinMap κ ν) {k k' : κ} (v : ν) (h : k' ≠ k) : (m.insert k v).get? k' = m.get? k' := by
  rw [get?_insert, if_neg h]

/-- The same keys, each value replaced. -/
def mapKV {μ : Type} (m : FinMap κ ν) (f : κ → ν → μ) : FinMap κ μ where
  entries := m.entries.map fun e => (e.1, f e.1 e.2)
  nodup := by
    rw [List.map_map]
    exact m.nodup

theorem get?_mapKV {μ : Type} (m : FinMap κ ν) (f : κ → ν → μ) (k : κ) :
    (m.mapKV f).get? k = (m.get? k).map (f k) := by
  refine Option.ext fun w => ?_
  rw [get?_eq_some, Option.map_eq_some_iff]
  constructor
  · intro h
    obtain ⟨⟨k', v⟩, hmem, he⟩ := List.mem_map.mp h
    cases he
    exact ⟨v, get?_eq_some.mpr hmem, rfl⟩
  · rintro ⟨v, hv, rfl⟩
    exact List.mem_map.mpr ⟨(k, v), get?_eq_some.mp hv, rfl⟩

omit [DecidableEq κ] in
theorem keys_mapKV {μ : Type} (m : FinMap κ ν) (f : κ → ν → μ) : (m.mapKV f).keys = m.keys := by
  simp [keys, mapKV]

/-- `m.emplace(k, v)`: a key that is bound stays as it is. -/
def emplace (m : FinMap κ ν) (k : κ) (v : ν) : FinMap κ ν := if k ∈ m.keys then m else m.insert k v

theorem get?_emplace_new {m : FinMap κ ν} {k : κ} (v : ν) (h : k ∉ m.keys) (k' : κ) :
    (m.emplace k v).get? k' = if k' = k then some v else m.get? k' := by
  rw [emplace, if_neg h, get?_insert]

/-- `m[k].push_back(v)`. -/
def push (m : FinMap κ (List ν)) (k : κ) (v : ν) : FinMap κ (List ν) := m.insert k ((m.get? k).getD [] ++ [v])

/-- What was pushed under one key, in its order. -/
theorem getD_foldl_push (l : List (κ × ν)) (k : κ) : ∀ m : FinMap κ (List ν),
    ((l.foldl (fun m e => m.push e.1 e.2) m).get? k).getD [] =
      (m.get? k).getD [] ++ (l.filter fun e => e.1 = k).map Prod.snd := by
  induction l with
  | nil => simp
  | cons e rest ih =>
    intro m
    rw [List.foldl_cons, ih, push, get?_insert]
    by_cases hk : k = e.1
    · simp [hk]
    · simp [hk, Ne.symm hk]

theorem mem_keys_foldl_push (l : List (κ × ν)) (k : κ) : ∀ m : FinMap κ (List ν),
    k ∈ (l.foldl (fun m e => m.push e.1 e.2) m).keys ↔ k ∈ m.keys ∨ k ∈ l.map Prod.fst := by
  induction l with
  | nil => simp
  | cons e rest ih =>
    intro m
    have hpush : k ∈ (m.push e.1 e.2).keys ↔ k = e.1 ∨ k ∈ m.keys := by
      rw [mem_keys, mem_keys, push, get?_insert]
      by_cases hk : k = e.1
      · simp [hk]
      · simp [hk]
    rw [List.foldl_cons, ih, hpush, List.map_cons, List.mem_cons, or_comm (a := k = e.1), or_assoc]

/-- Where everything was pushed, a key has all that was pushed under it. -/
theorem get?_foldl_push {l : List (κ × ν)} {k : κ} {vs : List ν}
    (h : (l.foldl (fun m e => m.push e.1 e.2) empty).get? k = some vs) :
    vs = (l.filter fun e => e.1 = k).map Prod.snd := by
  have hall := getD_foldl_push l k empty
  rw [h] at hall
  simpa using hall

/-! ### Sums over the bindings -/

/-- The sum of a weight over the bindings. -/
def total (m : FinMap κ ν) (f : ν → Nat) : Nat := (m.entries.map fun e => f e.2).sum

theorem total_erase (m : FinMap κ ν) (k : κ) (f : ν → Nat) :
    m.total f = (m.erase k).total f + (m.get? k).elim 0 f := by
  obtain ⟨l, hl⟩ := m
  simp only [total, erase, filterKeys, get?]
  induction l with
  | nil => rfl
  | cons e l ih =>
    obtain ⟨hnot, hl⟩ := List.nodup_cons.mp hl
    have hrest := ih hl
    by_cases hk : e.1 = k
    · have hnone : l.find? (fun e' => e'.1 = k) = none := by
        refine List.find?_eq_none.mpr fun e' he' h => hnot ?_
        rw [hk, ← of_decide_eq_true h]
        exact List.mem_map_of_mem he'
      rw [hnone] at hrest
      simp [hk, hrest, Nat.add_comm]
    · simp [hk, hrest, Nat.add_assoc]

theorem total_insert (m : FinMap κ ν) (k : κ) (v : ν) (f : ν → Nat) :
    (m.insert k v).total f = (m.erase k).total f + f v := by
  simp [total, insert]

omit [DecidableEq κ] in
theorem total_mono (m : FinMap κ ν) {f g : ν → Nat} (h : ∀ v, f v ≤ g v) : m.total f ≤ m.total g :=
  List.sum_le_sum fun _ _ => h _

end FinMap

end SynapseFs.Lib
