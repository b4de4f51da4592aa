import Mathlib.Algebra.BigOperators.Fin
import Mathlib.Algebra.Order.BigOperators.Group.Finset
import Mathlib.Algebra.Order.Floor.Semiring
import Mathlib.Data.Fin.VecNotation
import Mathlib.Data.List.FinRange
import Mathlib.Data.Rat.Floor
import Mathlib.Order.Lattice.Nat
import SynapseFs.Core.Error

/-! The auction over candidate lists.

Every row without an object bids for the best of its candidates at the present
prices, all rows at once; each object goes to its highest bidder, at the price that
was bid, and the owner before loses it. A row for which every candidate has become
dearer than leaving it unmatched leaves the round for good. The rounds go on with a
smaller increment until the increment is 1; the prices are kept, the objects are not.

Costs are integers in units of `2^-20` of the cost of an unmatched row, and integers
are unbounded. -/
namespace SynapseFs.Align
open Core

/-- `K` candidates for each of `n` rows, out of `n` objects. -/
structure Candidates (n K : Nat) where
  cost : Fin n → Fin K → Nat
  cand : Fin n → Fin K → Fin n
  distinct : ∀ i, Function.Injective (cand i)

/-- Where `topk` finds the largest value of a row in a round. Which of several equal ones
it is, is the library's choice. -/
def Topk (n K : Nat) : Type := Nat → Fin n → (Fin K → ℤ) → Fin K

def Topk.Lawful {n K : Nat} (topk : Topk n K) : Prop :=
  ∀ (round : Nat) (i : Fin n) (v : Fin K → ℤ) (k : Fin K), v k ≤ v (topk round i v)

/-- `c_null_i`, the cost of a row without an object. -/
def cNull : ℤ := 2 ^ 20

def bias : ℤ := 4 * cNull + 10

/-- `none` is the -1 of the tensors. -/
structure AuctionState (n : Nat) where
  prices : Fin n → ℤ
  assign : Fin n → Option (Fin n)
  owner : Fin n → Option (Fin n)
  unassigned : Fin n → Bool
  rounds : Nat

namespace AuctionState

variable {n K : Nat} (g : Candidates n K) (topk : Topk n K) (eps : Nat) (s : AuctionState n)

def vals (i : Fin n) (k : Fin K) : ℤ := -(g.cost i k : ℤ) - s.prices (g.cand i k)

def bestK (i : Fin n) : Fin K := topk s.rounds i (s.vals g i)

/-- The second value of `topk`, or the private null where there is one candidate. -/
def second (v : Fin K → ℤ) (best : Fin K) : ℤ :=
  match (List.finRange K).filter fun k => k ≠ best with
  | [] => -cNull
  | k :: rest => rest.foldl (fun m k => max m (v k)) (v k)

def v1 (i : Fin n) : ℤ := s.vals g i (s.bestK g topk i)

def v2 (i : Fin n) : ℤ := max (second (s.vals g i) (s.bestK g topk i)) (-cNull)

/-- Every candidate is dearer than none. -/
def defect (i : Fin n) : Bool := s.unassigned i && s.v1 g topk i < -cNull

def bidder (i : Fin n) : Bool := s.unassigned i && !(s.v1 g topk i < -cNull : Bool)

/-- What the row bids for, `j`. -/
def object (i : Fin n) : Fin n := g.cand i (s.bestK g topk i)

def bid (i : Fin n) : ℤ := s.prices (s.object g topk i) + (s.v1 g topk i - s.v2 g topk i) + eps

/-- `combined`: the bid, and among equal bids the lowest row. -/
def key (i : Fin n) : ℤ := (s.bid g topk eps i + bias) * (n + 1) + (n - i)

/-- `obj_best`, -1 where nobody bids. -/
def objBest (j : Fin n) : ℤ :=
  ((List.finRange n).filter fun i => s.bidder g topk i ∧ s.object g topk i = j).foldl
    (fun m i => max m (s.key g topk eps i)) (-1)

def wins (i : Fin n) : Bool := s.bidder g topk i && s.key g topk eps i = s.objBest g topk eps (s.object g topk i)

/-- The winner to which `owner.index_put_` gives the object. -/
def winnerOf (j : Fin n) : Option (Fin n) :=
  (List.finRange n).find? fun i => s.wins g topk eps i && s.object g topk i = j

/-- The price is read back from the key. -/
def winPrice (j : Fin n) : ℤ := s.objBest g topk eps j / (n + 1) - bias

/-- The row owns an object that is sold in this round. -/
def evicted (i : Fin n) : Bool :=
  (List.finRange n).any fun j => (s.winnerOf g topk eps j).isSome && s.owner j = some i

/-- One turn of the inner loop. The tensors are written in the order: rows that leave,
rows that lose their object, rows that win. -/
def round : AuctionState n where
  prices j := if (s.winnerOf g topk eps j).isSome then s.winPrice g topk eps j else s.prices j
  assign i :=
    if s.wins g topk eps i then some (s.object g topk i)
    else if s.evicted g topk eps i then none
    else if s.defect g topk i then none
    else s.assign i
  owner j := (s.winnerOf g topk eps j).or (s.owner j)
  unassigned i :=
    if s.wins g topk eps i then false
    else if s.evicted g topk eps i then true
    else if s.defect g topk i then false
    else s.unassigned i
  rounds := s.rounds + 1

/-- A new phase: the objects are given back, the prices stay. -/
def reset : AuctionState n := ⟨s.prices, fun _ => none, fun _ => none, fun _ => true, s.rounds⟩

/-- One phase, from `roundsThisPhase` on. -/
def phase (bidGuard : ℤ) : Nat → ℤ → AuctionState n → Outcome (AuctionState n)
  | 0, _, _ => .error .outOfFuel
  | fuel + 1, roundsThisPhase, s =>
    if (List.finRange n).any s.unassigned then
      if roundsThisPhase + 1 > bidGuard then .ok (s.round g topk eps)
      else phase bidGuard fuel (roundsThisPhase + 1) (s.round g topk eps)
    else .ok s

end AuctionState

section
variable {n K : Nat} (g : Candidates n K) (topk : Topk n K)

/-- `Ci.max() / 4`, at least 1. -/
def initialEps : Nat := max ((Finset.univ.sup fun i => Finset.univ.sup (g.cost i)) / 4) 1

def nextEps (epsShrink : ℚ) (eps : Nat) : Nat := max ⌊(eps : ℚ) / epsShrink⌋₊ 1

def AuctionState.start (n : Nat) : AuctionState n := ⟨fun _ => 0, fun _ => none, fun _ => none, fun _ => true, 0⟩

/-- More rounds than a phase can have. -/
def phaseFuel : Nat := n * (2 ^ 20 + initialEps g) + 2

/-- The phases from `eps` on. -/
def auctionFrom (epsShrink : ℚ) (bidGuard : ℤ) : Nat → Nat → AuctionState n → Outcome (AuctionState n)
  | 0, _, _ => .error .outOfFuel
  | fuel + 1, eps, s => do
    let s ← s.reset.phase g topk eps bidGuard (phaseFuel g) 0
    if eps ≤ 1 then return s
    auctionFrom epsShrink bidGuard fuel (nextEps epsShrink eps) s

/-- The state in which the loops end; `assign` and `rounds` are what `auction` returns. -/
def auction (epsShrink : ℚ) (bidGuard : ℤ) : Outcome (AuctionState n) :=
  auctionFrom g topk epsShrink bidGuard (initialEps g) (initialEps g) (.start n)

end

/-! ### What a row bids -/

namespace AuctionState

theorem foldl_max_spec {β : Type} (f : β → ℤ) (l : List β) (m : ℤ) :
    l.foldl (fun m b => max m (f b)) m ∈ m :: l.map f ∧ ∀ v ∈ m :: l.map f, v ≤ l.foldl (fun m b => max m (f b)) m := by
  refine List.max?_eq_some_iff.mp ?_
  rw [List.max?_cons', List.foldl_map]

variable {n K : Nat} {g : Candidates n K} {topk : Topk n K} {eps : Nat} {s : AuctionState n}

theorem second_ge (v : Fin K → ℤ) {best k : Fin K} (hk : k ≠ best) : v k ≤ second v best := by
  have hmem : k ∈ (List.finRange K).filter fun k => k ≠ best := by simp [hk]
  unfold second
  split
  · next hnil =>
    rw [hnil] at hmem
    exact absurd hmem List.not_mem_nil
  · next first rest hcons =>
    rw [hcons] at hmem
    exact (foldl_max_spec v rest (v first)).2 _ (List.mem_map_of_mem (f := v) hmem)

theorem second_le (v : Fin K → ℤ) {best : Fin K} {m : ℤ} (hm : ∀ k, v k ≤ m) (hnull : -cNull ≤ m) : second v best ≤ m := by
  unfold second
  split
  · exact hnull
  · next first rest hcons =>
    obtain ⟨k, -, hk⟩ : ∃ k ∈ first :: rest, v k = _ := List.mem_map.mp (foldl_max_spec v rest (v first)).1
    exact hk ▸ hm k

theorem v1_ge (ht : topk.Lawful) (i : Fin n) (k : Fin K) : s.vals g i k ≤ s.v1 g topk i := ht s.rounds i _ k

theorem v2_ge_null (i : Fin n) : -cNull ≤ s.v2 g topk i := le_max_right _ _

theorem v2_ge (i : Fin n) {k : Fin K} (hk : k ≠ s.bestK g topk i) : s.vals g i k ≤ s.v2 g topk i :=
  (second_ge _ hk).trans (le_max_left _ _)

theorem bidder_iff (i : Fin n) : s.bidder g topk i = true ↔ s.unassigned i = true ∧ -cNull ≤ s.v1 g topk i := by
  simp [bidder]

theorem defect_iff (i : Fin n) : s.defect g topk i = true ↔ s.unassigned i = true ∧ s.v1 g topk i < -cNull := by
  simp [defect]

theorem v2_le_v1 (ht : topk.Lawful) {i : Fin n} (hi : s.bidder g topk i = true) : s.v2 g topk i ≤ s.v1 g topk i := by
  obtain ⟨-, hnull⟩ := (bidder_iff i).mp hi
  exact max_le (second_le _ (v1_ge ht i) hnull) hnull

theorem v1_eq (i : Fin n) : s.v1 g topk i = -(g.cost i (s.bestK g topk i) : ℤ) - s.prices (s.object g topk i) := rfl

/-- A bid is the value that is given up for the next best, and the increment. -/
theorem bid_eq (i : Fin n) :
    s.bid g topk eps i = eps - g.cost i (s.bestK g topk i) - s.v2 g topk i := by
  rw [bid, v1_eq]
  ring

theorem bid_ge (ht : topk.Lawful) {i : Fin n} (hi : s.bidder g topk i = true) :
    s.prices (s.object g topk i) + eps ≤ s.bid g topk eps i := by
  have := v2_le_v1 ht hi
  rw [bid]
  omega

theorem bid_le (i : Fin n) : s.bid g topk eps i ≤ cNull + eps := by
  have hnull : -cNull ≤ s.v2 g topk i := v2_ge_null i
  rw [bid_eq]
  omega

/-! ### Who wins -/

/-- The owners and the assigned rows are one matching, and prices are within bounds. -/
structure Sound (bound : ℤ) (s : AuctionState n) : Prop where
  inverse : ∀ i j, s.assign i = some j ↔ s.owner j = some i
  idle : ∀ i, s.unassigned i = true → s.assign i = none
  nonneg : ∀ j, 0 ≤ s.prices j
  le : ∀ j, s.prices j ≤ bound

/-- A key is read back into the bid and the row. -/
theorem key_div (i : Fin n) : s.key g topk eps i / (n + 1) - bias = s.bid g topk eps i := by
  have hrow : (0 : ℤ) ≤ n - i ∧ (n - i : ℤ) < n + 1 := by
    have := i.isLt
    omega
  rw [key, add_comm, Int.add_mul_ediv_right _ _ (by omega), Int.ediv_eq_zero_of_lt hrow.1 hrow.2]
  ring

theorem key_inj {i i' : Fin n} (h : s.key g topk eps i = s.key g topk eps i') : i = i' := by
  have hbid : s.bid g topk eps i = s.bid g topk eps i' := by rw [← key_div, h, key_div]
  rw [key, key, hbid] at h
  exact Fin.ext (by omega)

theorem key_nonneg (ht : topk.Lawful) (hs : ∀ j, 0 ≤ s.prices j) {i : Fin n} (hi : s.bidder g topk i = true) :
    0 ≤ s.key g topk eps i := by
  have hbid : s.prices (s.object g topk i) + eps ≤ s.bid g topk eps i := bid_ge ht hi
  have hprice := hs (s.object g topk i)
  have hrow := i.isLt
  have hbias : (0 : ℤ) ≤ bias := by decide
  have hpos : 0 ≤ (s.bid g topk eps i + bias) * (n + 1) := mul_nonneg (by omega) (by omega)
  rw [key]
  omega

theorem mem_bidders (i j : Fin n) : (i ∈ (List.finRange n).filter fun i => s.bidder g topk i ∧ s.object g topk i = j) ↔
    s.bidder g topk i = true ∧ s.object g topk i = j := by
  simp

theorem key_le_objBest {i : Fin n} (hi : s.bidder g topk i = true) :
    s.key g topk eps i ≤ s.objBest g topk eps (s.object g topk i) :=
  (foldl_max_spec _ _ _).2 _ (List.mem_cons_of_mem _ (List.mem_map_of_mem ((mem_bidders i _).mpr ⟨hi, rfl⟩)))

theorem wins_iff (i : Fin n) : s.wins g topk eps i = true ↔
    s.bidder g topk i = true ∧ s.key g topk eps i = s.objBest g topk eps (s.object g topk i) := by
  simp [wins]

/-- Every object for which a row bids has a winner. -/
theorem exists_winner (ht : topk.Lawful) (hs : ∀ j, 0 ≤ s.prices j) {i : Fin n} (hi : s.bidder g topk i = true) :
    ∃ w, s.wins g topk eps w = true ∧ s.object g topk w = s.object g topk i := by
  have hmem := (foldl_max_spec (s.key g topk eps)
    ((List.finRange n).filter fun w => s.bidder g topk w ∧ s.object g topk w = s.object g topk i) (-1)).1
  rcases List.mem_cons.mp hmem with h | hmem
  · have hle : s.key g topk eps i ≤ s.objBest g topk eps (s.object g topk i) := key_le_objBest hi
    have hnonneg : 0 ≤ s.key g topk eps i := key_nonneg ht hs hi
    rw [objBest, h] at hle
    omega
  · obtain ⟨w, hw, h⟩ := List.mem_map.mp hmem
    obtain ⟨hbid, hobj⟩ := (mem_bidders w _).mp hw
    refine ⟨w, (wins_iff w).mpr ⟨hbid, ?_⟩, hobj⟩
    rw [hobj, objBest, ← h]

/-- And only one. -/
theorem winner_unique {i i' : Fin n} (hi : s.wins g topk eps i = true) (hi' : s.wins g topk eps i' = true)
    (hobj : s.object g topk i = s.object g topk i') : i = i' := by
  apply key_inj
  rw [((wins_iff i).mp hi).2, ((wins_iff i').mp hi').2, hobj]

theorem winnerOf_eq_some (i j : Fin n) :
    s.winnerOf g topk eps j = some i ↔ s.wins g topk eps i = true ∧ s.object g topk i = j := by
  constructor
  · intro h
    simpa using List.find?_some h
  · rintro ⟨hwins, hobj⟩
    have hsome : (s.winnerOf g topk eps j).isSome := by
      rw [winnerOf, List.find?_isSome]
      exact ⟨i, List.mem_finRange i, by simp [hwins, hobj]⟩
    obtain ⟨w, hw⟩ := Option.isSome_iff_exists.mp hsome
    have hw' : s.wins g topk eps w = true ∧ s.object g topk w = j := by simpa using List.find?_some hw
    rw [hw, winner_unique hw'.1 hwins (hw'.2.trans hobj.symm)]

/-- The price that the winner pays is its bid. -/
theorem winPrice_eq {i : Fin n} (hi : s.wins g topk eps i = true) :
    s.winPrice g topk eps (s.object g topk i) = s.bid g topk eps i := by
  rw [winPrice, ← ((wins_iff i).mp hi).2, key_div]

theorem evicted_iff (i : Fin n) : s.evicted g topk eps i = true ↔
    ∃ j w, s.winnerOf g topk eps j = some w ∧ s.owner j = some i := by
  simp [evicted, Option.isSome_iff_exists]

/-! ### One round -/

theorem round_owner (j : Fin n) : (s.round g topk eps).owner j = (s.winnerOf g topk eps j).or (s.owner j) := rfl

theorem round_prices_of_winner {i j : Fin n} (h : s.winnerOf g topk eps j = some i) :
    (s.round g topk eps).prices j = s.bid g topk eps i := by
  obtain ⟨hwins, rfl⟩ := (winnerOf_eq_some i j).mp h
  rw [← winPrice_eq hwins]
  exact if_pos (by rw [h]; rfl)

theorem round_prices_of_none {j : Fin n} (h : s.winnerOf g topk eps j = none) :
    (s.round g topk eps).prices j = s.prices j :=
  if_neg (by rw [h]; simp)

theorem round_prices_ge (ht : topk.Lawful) (j : Fin n) : s.prices j ≤ (s.round g topk eps).prices j := by
  cases h : s.winnerOf g topk eps j with
  | none => exact (round_prices_of_none h).ge
  | some i =>
    obtain ⟨hwins, rfl⟩ := (winnerOf_eq_some i j).mp h
    have hrise : s.prices (s.object g topk i) + eps ≤ s.bid g topk eps i := bid_ge ht ((wins_iff i).mp hwins).1
    rw [round_prices_of_winner h]
    omega

/-- A row has an object after the round iff it has won it, or had it and nobody else has won it. -/
theorem round_assign_iff {bound : ℤ} (h : Sound bound s) (i j : Fin n) :
    (s.round g topk eps).assign i = some j ↔
      (s.wins g topk eps i = true ∧ s.object g topk i = j) ∨
        (s.winnerOf g topk eps j = none ∧ s.assign i = some j) := by
  have hbusy : ∀ {j}, s.assign i = some j → s.unassigned i ≠ true := fun ha hu => by
    rw [h.idle i hu] at ha
    cases ha
  have hno : ∀ {j}, s.assign i = some j → s.wins g topk eps i ≠ true ∧ s.defect g topk i ≠ true := fun ha =>
    ⟨fun hw => hbusy ha ((bidder_iff i).mp ((wins_iff i).mp hw).1).1, fun hd => hbusy ha ((defect_iff i).mp hd).1⟩
  simp only [round]
  split
  · next hw =>
    constructor
    · intro heq
      exact .inl ⟨hw, Option.some.inj heq⟩
    · rintro (⟨-, rfl⟩ | ⟨-, ha⟩)
      · rfl
      · exact absurd hw (hno ha).1
  · next hw =>
    split
    · next he =>
      obtain ⟨j', w, hw', ho⟩ := (evicted_iff i).mp he
      constructor
      · intro heq
        cases heq
      · rintro (⟨hwin, -⟩ | ⟨hnone, ha⟩)
        · exact absurd hwin hw
        · have ha' := (h.inverse i j').mpr ho
          rw [ha] at ha'
          cases ha'
          rw [hnone] at hw'
          cases hw'
    · next he =>
      split
      · next hd =>
        constructor
        · intro heq
          cases heq
        · rintro (⟨hwin, -⟩ | ⟨-, ha⟩)
          · exact absurd hwin hw
          · exact absurd hd (hno ha).2
      · constructor
        · intro ha
          refine .inr ⟨?_, ha⟩
          by_contra hsome
          obtain ⟨w, hw'⟩ := Option.ne_none_iff_exists'.mp hsome
          exact he ((evicted_iff i).mpr ⟨j, w, hw', (h.inverse i j).mp ha⟩)
        · rintro (⟨hwin, -⟩ | ⟨-, ha⟩)
          · exact absurd hwin hw
          · exact ha

/-- A round keeps the matching, and prices rise within the bound. -/
theorem Sound.round {bound : ℤ} (ht : topk.Lawful) (h : Sound bound s) (hbound : cNull + eps ≤ bound) :
    Sound bound (s.round g topk eps) := by
  constructor
  · intro i j
    rw [round_assign_iff h, round_owner, Option.or_eq_some_iff, ← winnerOf_eq_some, h.inverse]
  · intro i hi
    simp only [AuctionState.round] at hi ⊢
    split at hi
    · cases hi
    · next hw =>
      rw [if_neg hw]
      split
      · rfl
      · next he =>
        rw [if_neg he] at hi
        split
        · rfl
        · next hd =>
          rw [if_neg hd] at hi
          exact h.idle i hi
  · intro j
    exact (h.nonneg j).trans (round_prices_ge ht j)
  · intro j
    cases hw : s.winnerOf g topk eps j with
    | none => exact (round_prices_of_none hw).le.trans (h.le j)
    | some i => exact (round_prices_of_winner hw).le.trans ((bid_le i).trans hbound)

theorem Sound.reset {bound : ℤ} (h : Sound bound s) : Sound bound s.reset := by
  refine ⟨fun i j => ?_, fun i _ => rfl, h.nonneg, h.le⟩
  simp [AuctionState.reset]

/-! ### A phase ends -/

/-- How far the prices can still rise. -/
def room (bound : ℤ) (s : AuctionState n) : Nat := ∑ j, (bound - s.prices j).toNat

theorem room_le {bound : ℤ} (h : Sound bound s) : s.room bound ≤ n * bound.toNat := by
  have hle : ∀ j ∈ Finset.univ, (bound - s.prices j).toNat ≤ bound.toNat := fun j _ => by
    have := h.nonneg j
    omega
  simpa [room] using Finset.sum_le_card_nsmul Finset.univ _ _ hle

/-- A round with a bid raises a price; one without is the last. -/
theorem round_progress {bound : ℤ} (ht : topk.Lawful) (h : Sound bound s) (heps : 1 ≤ eps)
    (hbound : cNull + eps ≤ bound) :
    (s.round g topk eps).room bound < s.room bound ∨ ∀ i, (s.round g topk eps).unassigned i = false := by
  by_cases hbid : ∃ i, s.bidder g topk i = true
  · obtain ⟨i, hi⟩ := hbid
    obtain ⟨w, hw, -⟩ : ∃ w, s.wins g topk eps w = true ∧ s.object g topk w = s.object g topk i :=
      exists_winner ht h.nonneg hi
    have hprice := round_prices_of_winner ((winnerOf_eq_some w _).mpr ⟨hw, rfl⟩)
    have hrise : s.prices (s.object g topk w) + eps ≤ s.bid g topk eps w := bid_ge ht ((wins_iff w).mp hw).1
    have hle := (h.round (g := g) ht hbound).le (s.object g topk w)
    refine .inl (Finset.sum_lt_sum (fun j _ => ?_) ⟨s.object g topk w, Finset.mem_univ _, ?_⟩)
    · have hle : s.prices j ≤ (s.round g topk eps).prices j := round_prices_ge ht j
      omega
    · omega
  · refine .inr fun i => ?_
    have hwins : ∀ i, s.wins g topk eps i ≠ true := fun i hw => hbid ⟨i, ((wins_iff i).mp hw).1⟩
    have hevicted : s.evicted g topk eps i ≠ true := fun he => by
      obtain ⟨j, w, hw, -⟩ := (evicted_iff i).mp he
      exact hwins w ((winnerOf_eq_some w j).mp hw).1
    simp only [AuctionState.round]
    rw [if_neg (hwins i), if_neg hevicted]
    split
    · rfl
    · next hd =>
      by_contra hu
      rw [Bool.not_eq_false] at hu
      refine hbid ⟨i, (bidder_iff i).mpr ⟨hu, ?_⟩⟩
      by_contra hlt
      exact hd ((defect_iff i).mpr ⟨hu, not_le.mp hlt⟩)

/-- One turn of the loop of a phase. -/
def Turn (g : Candidates n K) (topk : Topk n K) (eps : Nat) (s s' : AuctionState n) : Prop :=
  (∃ i, s.unassigned i = true) ∧ s' = s.round g topk eps

/-- A phase ends, whatever the guard. -/
theorem phase_ends {bound : ℤ} (ht : topk.Lawful) (heps : 1 ≤ eps) (hbound : cNull + eps ≤ bound) (bidGuard : ℤ) :
    ∀ (fuel : Nat) (r : ℤ) (s : AuctionState n), Sound bound s → s.room bound + 2 ≤ fuel →
    ∃ s', s.phase g topk eps bidGuard fuel r = .ok s' ∧ Relation.ReflTransGen (Turn g topk eps) s s' := by
  intro fuel
  induction fuel with
  | zero =>
    intro r s _ hfuel
    omega
  | succ fuel ih =>
    intro r s h hfuel
    rw [phase]
    split
    · next hany =>
      obtain ⟨i, -, hi⟩ := List.any_eq_true.mp hany
      have hturn : Turn g topk eps s (s.round g topk eps) := ⟨⟨i, hi⟩, rfl⟩
      split
      · exact ⟨_, rfl, .single hturn⟩
      · rcases round_progress (g := g) ht h heps hbound with hroom | hdone
        · obtain ⟨s', hs', hturns⟩ := ih (r + 1) _ (h.round (g := g) ht hbound) (by omega)
          exact ⟨s', hs', .head hturn hturns⟩
        · obtain ⟨fuel, rfl⟩ := Nat.exists_eq_add_of_le (by omega : 1 ≤ fuel)
          refine ⟨s.round g topk eps, ?_, .single hturn⟩
          rw [Nat.add_comm, phase, if_neg]
          simp [hdone]
    · exact ⟨s, rfl, .refl⟩

end AuctionState

/-! ### The whole run -/

/-- The states that the auction comes through, with the increment of their phase. The
guard may end a phase after any round. -/
inductive Reached {n K : Nat} (g : Candidates n K) (topk : Topk n K) (epsShrink : ℚ) : Nat → AuctionState n → Prop where
  | start : Reached g topk epsShrink (initialEps g) (AuctionState.start n)
  | turn {eps : Nat} {s s' : AuctionState n} (h : Reached g topk epsShrink eps s) (hs : s.Turn g topk eps s') :
      Reached g topk epsShrink eps s'
  | phase {eps : Nat} {s : AuctionState n} (h : Reached g topk epsShrink eps s) (heps : 1 < eps) :
      Reached g topk epsShrink (nextEps epsShrink eps) s.reset

section
variable {n K : Nat} {g : Candidates n K} {topk : Topk n K} {epsShrink : ℚ} {eps : Nat} {s : AuctionState n}

theorem one_le_initialEps : 1 ≤ initialEps g := le_max_right _ _

theorem one_le_nextEps (eps : Nat) : 1 ≤ nextEps epsShrink eps := le_max_right _ _

theorem nextEps_lt (hshrink : 1 < epsShrink) (heps : 1 < eps) : nextEps epsShrink eps < eps := by
  have hpos : (0 : ℚ) < eps := by exact_mod_cast (by omega : 0 < eps)
  have hlt : (eps : ℚ) / epsShrink < eps := div_lt_self hpos hshrink
  have hfloor : ⌊(eps : ℚ) / epsShrink⌋₊ < eps := (Nat.floor_lt (by positivity)).mpr hlt
  exact max_lt hfloor heps

/-- The prices' bound. -/
def priceBound (g : Candidates n K) : ℤ := cNull + initialEps g

theorem Reached.eps_bounds (h : Reached g topk epsShrink eps s) (hshrink : 1 < epsShrink) : 1 ≤ eps ∧ eps ≤ initialEps g := by
  induction h with
  | start => exact ⟨one_le_initialEps, le_rfl⟩
  | turn _ _ ih => exact ih
  | phase _ heps ih => exact ⟨one_le_nextEps _, (nextEps_lt hshrink heps).le.trans ih.2⟩

theorem sound_start : (AuctionState.start n).Sound (priceBound g) := by
  refine ⟨fun i j => ?_, fun i _ => rfl, fun j => le_rfl, fun j => ?_⟩
  · simp [AuctionState.start]
  · have : (0 : ℤ) ≤ cNull := by decide
    simp only [AuctionState.start, priceBound]
    omega

/-- In every state the owners and the assigned rows are one matching, and the prices are within bounds. -/
theorem Reached.sound (h : Reached g topk epsShrink eps s) (ht : topk.Lawful) (hshrink : 1 < epsShrink) :
    s.Sound (priceBound g) := by
  induction h with
  | start => exact sound_start
  | turn h hs ih =>
    rw [hs.2]
    have := (h.eps_bounds hshrink).2
    exact ih.round (g := g) ht (by rw [priceBound]; omega)
  | phase _ _ ih => exact ih.reset

theorem Reached.turns {s' : AuctionState n} (h : Reached g topk epsShrink eps s)
    (hs : Relation.ReflTransGen (AuctionState.Turn g topk eps) s s') : Reached g topk epsShrink eps s' := by
  induction hs with
  | refl => exact h
  | tail _ hturn ih => exact .turn ih hturn

/-- From every state the phase comes to its end within the rounds that the prices allow. -/
theorem Reached.phase_ends (h : Reached g topk epsShrink eps s) (ht : topk.Lawful) (hshrink : 1 < epsShrink)
    (bidGuard r : ℤ) : ∃ s', s.phase g topk eps bidGuard (phaseFuel g) r = .ok s' ∧ Reached g topk epsShrink eps s' := by
  have hsound := h.sound ht hshrink
  obtain ⟨hone, hle⟩ := h.eps_bounds hshrink
  have hroom := AuctionState.room_le hsound
  have hbound : (priceBound g).toNat = 2 ^ 20 + initialEps g := by
    rw [priceBound, cNull]
    omega
  rw [hbound] at hroom
  obtain ⟨s', hs', hturns⟩ := AuctionState.phase_ends (g := g) ht hone (by rw [priceBound]; omega) bidGuard
    (phaseFuel g) r s hsound (by rw [phaseFuel]; omega)
  exact ⟨s', hs', h.turns hturns⟩

theorem auctionFrom_ends (ht : topk.Lawful) (hshrink : 1 < epsShrink) (bidGuard : ℤ) :
    ∀ (fuel eps : Nat) (s : AuctionState n), Reached g topk epsShrink eps s.reset → eps ≤ fuel →
    ∃ s', auctionFrom g topk epsShrink bidGuard fuel eps s = .ok s' ∧ Reached g topk epsShrink 1 s' := by
  intro fuel
  induction fuel with
  | zero =>
    intro eps s h hfuel
    have := (h.eps_bounds hshrink).1
    omega
  | succ fuel ih =>
    intro eps s h hfuel
    obtain ⟨s', hphase, h'⟩ := h.phase_ends ht hshrink bidGuard 0
    have hone := (h.eps_bounds hshrink).1
    by_cases heps : eps ≤ 1
    · have heq : eps = 1 := le_antisymm heps hone
      refine ⟨s', bind_eq_ok.mpr ⟨s', hphase, ?_⟩, heq ▸ h'⟩
      rw [if_pos heps]
      rfl
    · rw [not_le] at heps
      have hlt := nextEps_lt hshrink heps
      obtain ⟨s'', hrest, h''⟩ := ih (nextEps epsShrink eps) s' (h'.phase heps) (by omega)
      refine ⟨s'', bind_eq_ok.mpr ⟨s', hphase, ?_⟩, h''⟩
      rw [if_neg (not_le.mpr heps)]
      exact hrest

/-- The auction ends, in a state of its last phase. -/
theorem auction_ends (ht : topk.Lawful) (hshrink : 1 < epsShrink) (bidGuard : ℤ) :
    ∃ s, auction g topk epsShrink bidGuard = .ok s ∧ Reached g topk epsShrink 1 s :=
  auctionFrom_ends ht hshrink bidGuard (initialEps g) (initialEps g) (.start n) .start le_rfl

end

/-- One row and its one candidate, at the cost that the largest cost has with `eta` 10. -/
def single : Candidates 1 1 := ⟨fun _ _ => 104858, fun _ _ => 0, fun _ a b _ => Subsingleton.elim a b⟩

def onlyCandidate : Topk 1 1 := fun _ _ _ => 0

theorem onlyCandidate_lawful : onlyCandidate.Lawful := fun _ _ v k => (congrArg v (Subsingleton.elim k 0)).le

end SynapseFs.Align
