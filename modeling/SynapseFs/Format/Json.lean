import SynapseFs.Lib.Bytes
import SynapseFs.Core.Error

/-! JSON values as the program reads and builds them.

Text is the business of a library outside the tree (`JsonLib`); what the program
does with a parsed value is here, with the library's own conversions: a number
fits any integer type by wrapping, a range loop over a scalar sees the scalar,
and every misuse is an exception with the library's text. Objects are kept
sorted by key, as the map behind them is. Strings are valid UTF-8. -/
namespace SynapseFs.Format
open Lib Core

inductive Json where
  | null
  | bool (b : Bool)
  | uint (n : Nat)
  | int (z : Int)
  /-- The bits of a double. -/
  | float (bits : UInt64)
  | str (s : String)
  | arr (items : List Json)
  | obj (fields : List (String × Json))

/-- `json::parse` and `json::dump`; parsing fails with an exception text. -/
structure JsonLib where
  parse : Bytes → Except String Json
  dump : Json → Bytes

namespace Json

def typeName : Json → String
  | null => "null"
  | bool _ => "boolean"
  | uint _ | int _ | float _ => "number"
  | str _ => "string"
  | arr _ => "array"
  | obj _ => "object"

private def throw {α : Type} (what : String) : Outcome α := .error (.exception ("[json.exception." ++ what))

/-! ### Reading -/

/-- `j.at(key)`. -/
def atKey (j : Json) (key : String) : Outcome Json :=
  match j with
  | obj fields =>
    match fields.lookup key with
    | some v => .ok v
    | none => throw ("out_of_range.403] key '" ++ key ++ "' not found")
  | _ => throw ("type_error.304] cannot use at() with " ++ j.typeName)

def contains (j : Json) (key : String) : Bool :=
  match j with
  | obj fields => (fields.lookup key).isSome
  | _ => false

def getStr : Json → Outcome String
  | str s => .ok s
  | j => throw ("type_error.302] type must be string, but is " ++ j.typeName)

/-- The integer part of a finite double. -/
def f64Trunc (bits : UInt64) : Option Int :=
  let n := bits.toNat
  let exp := n / 2 ^ 52 % 2048
  let frac := n % 2 ^ 52
  if exp = 2047 then none
  else
    let m := if exp = 0 then frac else 2 ^ 52 + frac
    let e := max exp 1
    let mag : Nat := if 1075 ≤ e then m * 2 ^ (e - 1075) else m / 2 ^ (1075 - e)
    some (if n < 2 ^ 63 then (mag : Int) else -(mag : Int))

/-- `get<uintW_t>()` of a number: integers wrap, a double must be in range. -/
def getArithmetic (width : Nat) : Json → Outcome Nat
  | uint n => .ok (n % 2 ^ width)
  | int z => .ok (z % (2 ^ width : Nat)).toNat
  | float bits =>
    match f64Trunc bits with
    | some z => if 0 ≤ z ∧ z < (2 ^ width : Nat) then .ok z.toNat else .error (.undefined "double to integer")
    | none => .error (.undefined "double to integer")
  | j => throw ("type_error.302] type must be number, but is " ++ j.typeName)

/-- The library takes a boolean for any integer type but its own `uint64_t`. -/
def getU32 : Json → Outcome Nat
  | bool b => .ok b.toNat
  | j => getArithmetic 32 j

def getU64 (j : Json) : Outcome Nat := getArithmetic 64 j

def getBool : Json → Outcome Bool
  | bool b => .ok b
  | j => throw ("type_error.302] type must be boolean, but is " ++ j.typeName)

/-- The bits of the double nearest to a natural below `2 ^ 64`, ties to even. -/
def f64OfNat (n : Nat) : UInt64 :=
  let e := n.log2
  let m :=
    if e ≤ 52 then n * 2 ^ (52 - e)
    else
      let s := 2 ^ (e - 52)
      let q := n / s
      if s < 2 * (n % s) ∨ (s = 2 * (n % s) ∧ q % 2 = 1) then q + 1 else q
  if n = 0 then 0 else UInt64.ofNat ((e + 1022) * 2 ^ 52 + m)

/-- `get<double>()`. -/
def getF64 : Json → Outcome UInt64
  | uint n => .ok (f64OfNat n)
  | int z => .ok (if z < 0 then f64OfNat z.natAbs ||| UInt64.ofNat (2 ^ 63) else f64OfNat z.natAbs)
  | float bits => .ok bits
  | j => throw ("type_error.302] type must be number, but is " ++ j.typeName)

/-- `j.value(key, dflt)`. -/
def valueOr {α : Type} (j : Json) (key : String) (get : Json → Outcome α) (dflt : α) : Outcome α :=
  match j with
  | obj fields =>
    match fields.lookup key with
    | some v => get v
    | none => .ok dflt
  | _ => throw ("type_error.306] cannot use value() with " ++ j.typeName)

/-- What a range loop over the value sees. -/
def items : Json → List Json
  | null => []
  | arr xs => xs
  | obj fields => fields.map Prod.snd
  | j => [j]

/-- The same with `it.key()`, which only an object's iterator has. -/
def keyedItems (j : Json) : List (Outcome String × Json) :=
  match j with
  | obj fields => fields.map fun (k, v) => (.ok k, v)
  | _ => j.items.map fun v => (throw "invalid_iterator.207] cannot use key() for non-object iterators", v)

theorem atKey_fuel (j : Json) (key : String) : j.atKey key ≠ .error .outOfFuel := by
  unfold atKey
  split
  · split <;> exact nofun
  · exact nofun

theorem getStr_fuel (j : Json) : j.getStr ≠ .error .outOfFuel := by
  cases j <;> exact nofun

theorem getArithmetic_fuel (width : Nat) (j : Json) : j.getArithmetic width ≠ .error .outOfFuel := by
  unfold getArithmetic
  split
  · exact nofun
  · exact nofun
  · split
    · split <;> exact nofun
    · exact nofun
  · exact nofun

theorem getU32_fuel (j : Json) : j.getU32 ≠ .error .outOfFuel := by
  unfold getU32
  split
  · exact nofun
  · exact getArithmetic_fuel 32 j

theorem valueOr_fuel {α : Type} (j : Json) (key : String) {get : Json → Outcome α} (dflt : α)
    (hg : ∀ v, get v ≠ .error .outOfFuel) : j.valueOr key get dflt ≠ .error .outOfFuel := by
  unfold valueOr
  split
  · split
    · exact hg _
    · exact nofun
  · exact nofun

theorem keyedItems_fuel {j : Json} {item : Outcome String × Json} (h : item ∈ j.keyedItems) :
    item.1 ≠ .error .outOfFuel := by
  unfold keyedItems at h
  split at h
  · obtain ⟨⟨k, v⟩, -, rfl⟩ := List.mem_map.mp h
    exact nofun
  · obtain ⟨v, -, rfl⟩ := List.mem_map.mp h
    exact nofun

/-! ### Building -/

/-- `j[key] = v` on the fields of an object, kept sorted. -/
def setField (key : String) (v : Json) : List (String × Json) → List (String × Json)
  | [] => [(key, v)]
  | (k, w) :: rest =>
    if key < k then (key, v) :: (k, w) :: rest
    else if key = k then (key, v) :: rest
    else (k, w) :: setField key v rest

def mkObj (fields : List (String × Json)) : Json := obj (fields.foldl (fun acc (k, v) => setField k v acc) [])

theorem lookup_cons_ite (key k : String) (w : Json) (rest : List (String × Json)) :
    ((k, w) :: rest).lookup key = if key = k then some w else rest.lookup key := by
  by_cases h : key = k
  · subst h
    simp
  · rw [if_neg h, List.lookup_cons, beq_false_of_ne h]

theorem lookup_setField (key key' : String) (v : Json) (fields : List (String × Json)) :
    (setField key v fields).lookup key' = if key' = key then some v else fields.lookup key' := by
  induction fields with
  | nil => exact lookup_cons_ite key' key v []
  | cons e rest ih =>
    obtain ⟨k, w⟩ := e
    unfold setField
    by_cases hlt : key < k
    · rw [if_pos hlt, lookup_cons_ite]
    · rw [if_neg hlt]
      by_cases he : key = k
      · subst he
        rw [if_pos rfl, lookup_cons_ite, lookup_cons_ite]
        by_cases h : key' = key <;> simp [h]
      · rw [if_neg he, lookup_cons_ite, lookup_cons_ite, ih]
        by_cases hk : key' = k
        · subst hk
          have : key' ≠ key := fun h => he h.symm
          simp [this]
        · simp [hk]

theorem lookup_foldl_setField (key : String) (fields acc : List (String × Json)) :
    (fields.foldl (fun acc (k, v) => setField k v acc) acc).lookup key = (fields.reverse ++ acc).lookup key := by
  induction fields generalizing acc with
  | nil => rfl
  | cons e rest ih =>
    have hmid : ∀ front : List (String × Json),
        (front ++ setField e.1 e.2 acc).lookup key = (front ++ e :: acc).lookup key := by
      intro front
      induction front with
      | nil => exact (lookup_setField e.1 key e.2 acc).trans (lookup_cons_ite key e.1 e.2 acc).symm
      | cons x front ihf =>
        obtain ⟨k, v⟩ := x
        rw [List.cons_append, List.cons_append, lookup_cons_ite, lookup_cons_ite, ihf]
    rw [List.foldl_cons, ih, List.reverse_cons, List.append_assoc, List.singleton_append]
    exact hmid _

/-- In a literal object the last value of a key is found. -/
theorem atKey_mkObj {fields : List (String × Json)} {key : String} {v : Json} (h : fields.reverse.lookup key = some v) :
    (mkObj fields).atKey key = .ok v := by
  unfold atKey mkObj
  dsimp only
  rw [lookup_foldl_setField, List.append_nil, h]

theorem valueOr_mkObj {α : Type} {fields : List (String × Json)} {key : String} {v : Json} {get : Json → Outcome α}
    {dflt a : α} (h : fields.reverse.lookup key = some v) (hg : get v = .ok a) :
    (mkObj fields).valueOr key get dflt = .ok a := by
  unfold valueOr mkObj
  dsimp only
  rw [lookup_foldl_setField, List.append_nil, h]
  exact hg

theorem contains_mkObj {fields : List (String × Json)} {key : String} {v : Json}
    (h : fields.reverse.lookup key = some v) : (mkObj fields).contains key = true := by
  unfold contains mkObj
  dsimp only
  rw [lookup_foldl_setField, List.append_nil, h]
  rfl

theorem not_contains_mkObj {fields : List (String × Json)} {key : String} (h : fields.reverse.lookup key = none) :
    (mkObj fields).contains key = false := by
  unfold contains mkObj
  dsimp only
  rw [lookup_foldl_setField, List.append_nil, h]
  rfl

theorem setField_last {key : String} (v : Json) {fields : List (String × Json)} (h : ∀ e ∈ fields, e.1 < key) :
    setField key v fields = fields ++ [(key, v)] := by
  induction fields with
  | nil => rfl
  | cons x rest ih =>
    obtain ⟨k, w⟩ := x
    have hlt : k < key := h _ List.mem_cons_self
    have hne : key ≠ k := fun he => String.lt_irrefl k (he ▸ hlt)
    unfold setField
    rw [if_neg (String.lt_asymm hlt), if_neg hne, ih fun e he => h e (List.mem_cons_of_mem _ he)]
    rfl

/-- Fields that come in order are kept as they come. -/
theorem mkObj_sorted {fields : List (String × Json)} (h : fields.Pairwise fun a b => a.1 < b.1) :
    mkObj fields = obj fields := by
  have hall : ∀ (l acc : List (String × Json)), (acc ++ l).Pairwise (fun a b => a.1 < b.1) →
      l.foldl (fun acc (k, v) => setField k v acc) acc = acc ++ l := by
    intro l
    induction l with
    | nil => exact fun acc _ => (List.append_nil acc).symm
    | cons x rest ih =>
      intro acc hs
      obtain ⟨k, v⟩ := x
      have hlast : setField k v acc = acc ++ [(k, v)] :=
        setField_last v fun e he => (List.pairwise_append.mp hs).2.2 e he (k, v) List.mem_cons_self
      rw [List.foldl_cons]
      dsimp only
      rw [hlast, ih _ (by simpa using hs), List.append_assoc]
      rfl
  exact congrArg obj (hall fields [] h)

theorem getU64_uint {n : Nat} (h : n < 2 ^ 64) : (Json.uint n).getU64 = .ok n :=
  congrArg Except.ok (Nat.mod_eq_of_lt h)

theorem getU32_uint {n : Nat} (h : n < 2 ^ 32) : (Json.uint n).getU32 = .ok n :=
  congrArg Except.ok (Nat.mod_eq_of_lt h)

/-! ### Values that survive their text -/

/-- Numbers in range, finite doubles, and objects as the map keeps them. -/
inductive Canonical : Json → Prop where
  | null : Canonical .null
  | bool (b : Bool) : Canonical (.bool b)
  | uint {n : Nat} (h : n < 2 ^ 64) : Canonical (.uint n)
  | int {z : Int} (h : -2 ^ 63 ≤ z ∧ z < 0) : Canonical (.int z)
  | float {bits : UInt64} (h : (f64Trunc bits).isSome) : Canonical (.float bits)
  | str (s : String) : Canonical (.str s)
  | arr {items : List Json} (h : ∀ x ∈ items, Canonical x) : Canonical (.arr items)
  | obj {fields : List (String × Json)} (hs : fields.Pairwise fun a b => a.1 < b.1)
      (h : ∀ e ∈ fields, Canonical e.2) : Canonical (.obj fields)

theorem mem_setField {key : String} {v : Json} {fields : List (String × Json)} {e : String × Json}
    (h : e ∈ setField key v fields) : e = (key, v) ∨ e ∈ fields := by
  induction fields with
  | nil => exact .inl (List.mem_singleton.mp h)
  | cons x rest ih =>
    obtain ⟨k, w⟩ := x
    unfold setField at h
    split at h
    · exact List.mem_cons.mp h
    · split at h
      · rcases List.mem_cons.mp h with h | h
        · exact .inl h
        · exact .inr (List.mem_cons_of_mem _ h)
      · rcases List.mem_cons.mp h with h | h
        · exact .inr (h ▸ List.mem_cons_self)
        · exact (ih h).imp id (List.mem_cons_of_mem _)

theorem setField_sorted (key : String) (v : Json) {fields : List (String × Json)}
    (h : fields.Pairwise fun a b => a.1 < b.1) : (setField key v fields).Pairwise fun a b => a.1 < b.1 := by
  induction fields with
  | nil => exact List.pairwise_singleton _ _
  | cons x rest ih =>
    obtain ⟨k, w⟩ := x
    obtain ⟨hx, hrest⟩ := List.pairwise_cons.mp h
    unfold setField
    split
    · next hlt =>
      refine List.pairwise_cons.mpr ⟨fun e he => ?_, h⟩
      rcases List.mem_cons.mp he with rfl | he
      · exact hlt
      · exact String.lt_trans hlt (hx e he)
    · next hlt =>
      split
      · next he =>
        subst he
        exact List.pairwise_cons.mpr ⟨hx, hrest⟩
      · next hne =>
        refine List.pairwise_cons.mpr ⟨fun e he => ?_, ih hrest⟩
        rcases mem_setField he with rfl | he
        · exact Decidable.byContradiction fun hk => hne (String.le_antisymm (String.not_lt.mp hk) (String.not_lt.mp hlt))
        · exact hx e he

theorem Canonical.mkObj {fields : List (String × Json)} (h : ∀ e ∈ fields, e.2.Canonical) :
    (Json.mkObj fields).Canonical := by
  have hall : ∀ (l acc : List (String × Json)), (∀ e ∈ l, e.2.Canonical) →
      (acc.Pairwise fun a b => a.1 < b.1) → (∀ e ∈ acc, e.2.Canonical) →
      (Json.obj (l.foldl (fun acc (k, v) => setField k v acc) acc)).Canonical := by
    intro l
    induction l with
    | nil => exact fun acc _ hs hc => .obj hs hc
    | cons x rest ih =>
      intro acc hl hs hc
      refine ih _ (fun e he => hl e (List.mem_cons_of_mem _ he)) (setField_sorted x.1 x.2 hs) fun e he => ?_
      rcases mem_setField he with rfl | he
      · exact hl x List.mem_cons_self
      · exact hc e he
  exact hall fields [] h .nil nofun

/-- What the text of a value reads back as: a double that is not finite is written as null. -/
def textual : Json → Json
  | null => null
  | bool b => bool b
  | uint n => uint n
  | int z => int z
  | str s => str s
  | float bits => if (f64Trunc bits).isSome then float bits else null
  | arr items => arr (items.map textual)
  | obj fields => obj (fields.map fun e => (e.1, e.2.textual))
  decreasing_by
  · have := List.sizeOf_lt_of_mem ‹_ ∈ _›
    simp only [arr.sizeOf_spec]
    omega
  · have := List.sizeOf_lt_of_mem ‹_ ∈ _›
    simp only [obj.sizeOf_spec]
    rw [Prod.mk.sizeOf_spec] at this
    omega

theorem Canonical.textual_eq {j : Json} (h : j.Canonical) : j.textual = j := by
  induction h with
  | null | bool | uint | int | str => rw [textual]
  | float h => rw [textual, if_pos h]
  | arr _ ih => rw [textual, List.map_congr_left (g := id) ih, List.map_id]
  | @obj fields _ _ ih =>
    have hfields : fields.map (fun e => (e.1, e.2.textual)) = fields.map id :=
      List.map_congr_left fun e he => Prod.ext rfl (ih e he)
    rw [textual, hfields, List.map_id]

theorem lookup_textual (key : String) (fields : List (String × Json)) :
    (fields.map fun e => (e.1, e.2.textual)).lookup key = (fields.lookup key).map textual := by
  induction fields with
  | nil => rfl
  | cons e rest ih =>
    obtain ⟨k, v⟩ := e
    rw [List.map_cons, lookup_cons_ite, lookup_cons_ite, ih]
    split <;> rfl

theorem lookup_mkObj_textual {fields : List (String × Json)} {key : String} {v : Json}
    (h : fields.reverse.lookup key = some v) : ∃ stored, (mkObj fields).textual = obj stored ∧
      stored.lookup key = some v.textual := by
  unfold mkObj
  rw [textual]
  refine ⟨_, rfl, ?_⟩
  rw [lookup_textual, lookup_foldl_setField, List.append_nil, h]
  rfl
end Json

/-- What is written parses back. -/
def JsonLib.RoundTrips (lib : JsonLib) : Prop := ∀ j : Json, j.Canonical → lib.parse (lib.dump j) = .ok j

/-- The library on one value and its text. -/
def JsonLib.sole (j : Json) (text : Bytes) : JsonLib where
  parse bytes := if bytes = text then .ok j else .error "parse error"
  dump _ := text

theorem JsonLib.sole_parse (j : Json) (text : Bytes) : (JsonLib.sole j text).parse text = .ok j := if_pos rfl

end SynapseFs.Format
