import SynapseFs.Lib.Bytes

/-! Input taken block by block.

A buffer collects items until it holds a block; a full block goes into a state
and the buffer starts over. `absorb` is the loop that does this for one piece of
input. What it leaves depends on the input alone and not on where it was cut
(`absorb_pieces`): the state has seen every full block of it, and the buffer
holds what is behind them (`fed`). -/
namespace SynapseFs.Lib.Blocks

variable {α σ : Type} (process : σ → List α → σ) (size : Nat)

/-- A buffer that holds a block is emptied into the state. -/
def settleBuffer (state : σ) (buf : List α) : σ × List α :=
  if buf.length = size then (process state buf, []) else (state, buf)

/-- The loop over a piece of input: every round takes what the buffer has room for. -/
def absorb : Nat → σ × List α → List α → σ × List α
  | 0, st, _ => st
  | fuel + 1, st, data =>
    if data = [] then st
    else
      let take := min (size - st.2.length) data.length
      absorb fuel (settleBuffer process size st.1 (st.2 ++ data.take take)) (data.drop take)

/-- The state after every full block of `all`, and what is behind them. -/
def fed (state : σ) (all : List α) : σ × List α :=
  ((List.range (all.length / size)).foldl (fun s i => process s (unit all size i)) state,
    all.drop (all.length / size * size))

variable {size}

theorem fed_short (state : σ) {all : List α} (h : all.length < size) : fed process size state all = (state, all) := by
  rw [fed, Nat.div_eq_of_lt h, Nat.zero_mul]
  rfl

/-- The first block apart. -/
theorem fed_step (hsize : 0 < size) (state : σ) {all : List α} (h : size ≤ all.length) :
    fed process size state all = fed process size (process state (all.take size)) (all.drop size) := by
  have hdiv : all.length / size = (all.drop size).length / size + 1 := by
    rw [List.length_drop, ← Nat.div_eq_sub_div hsize h]
  have hunit : ∀ i, unit all size (i + 1) = unit (all.drop size) size i := by
    intro i
    rw [unit, unit, slice_drop, Nat.succ_mul, Nat.add_comm]
  have hfirst : unit all size 0 = all.take size := by rw [unit, Nat.zero_mul, slice, List.drop_zero]
  simp only [fed, hdiv, List.range_succ_eq_map, List.foldl_cons, List.foldl_map, hunit, hfirst, List.drop_drop]
  rw [Nat.succ_mul, Nat.add_comm size]

/-- What is behind the full blocks is shorter than one. -/
theorem fed_rest_lt (hsize : 0 < size) (state : σ) (all : List α) : (fed process size state all).2.length < size := by
  have := Nat.mod_lt all.length hsize
  have := Nat.div_add_mod' all.length size
  rw [fed, List.length_drop]
  omega

/-- Feeding in two parts is feeding the whole. -/
theorem fed_append (hsize : 0 < size) (state : σ) (a b : List α) :
    fed process size (fed process size state a).1 ((fed process size state a).2 ++ b) =
      fed process size state (a ++ b) := by
  induction hn : a.length using Nat.strongRecOn generalizing a state with
  | ind n ih =>
    by_cases h : size ≤ a.length
    · have hdrop : (a.drop size).length < n := by
        rw [List.length_drop]
        omega
      rw [fed_step process hsize state h, ih _ hdrop _ _ rfl,
        fed_step process hsize state (by rw [List.length_append]; omega), List.take_append_of_le_length h,
        List.drop_append_of_le_length h]
    · rw [fed_short process state (Nat.lt_of_not_le h)]

/-- One piece, put behind what the buffer held. -/
theorem absorb_eq (hsize : 0 < size) (fuel : Nat) (state : σ) {buf data : List α} (hbuf : buf.length < size)
    (hfuel : data.length ≤ fuel) : absorb process size fuel (state, buf) data = fed process size state (buf ++ data) := by
  induction fuel generalizing state buf data with
  | zero =>
    obtain rfl : data = [] := List.eq_nil_of_length_eq_zero (by omega)
    rw [List.append_nil, fed_short process state hbuf]
    rfl
  | succ fuel ih =>
    unfold absorb
    by_cases hdata : data = []
    · rw [if_pos hdata, hdata, List.append_nil, fed_short process state hbuf]
    · rw [if_neg hdata]
      have hpos : 0 < data.length := List.length_pos_iff.mpr hdata
      dsimp only
      by_cases hfull : size - buf.length ≤ data.length
      · -- The buffer fills up and is emptied.
        rw [Nat.min_eq_left hfull, settleBuffer]
        have hlen : (buf ++ data.take (size - buf.length)).length = size := by
          rw [List.length_append, List.length_take]
          omega
        have htake : (buf ++ data).take size = buf ++ data.take (size - buf.length) := by
          rw [List.take_append, List.take_of_length_le (by omega)]
        have hdrop : (buf ++ data).drop size = data.drop (size - buf.length) := by
          rw [List.drop_append, List.drop_eq_nil_of_le (by omega), List.nil_append]
        have hrest := @ih (process state (buf ++ data.take (size - buf.length))) [] (data.drop (size - buf.length)) hsize
          (by rw [List.length_drop]; omega)
        rw [if_pos hlen, hrest, List.nil_append, fed_step process hsize state (by rw [List.length_append]; omega), htake,
          hdrop]
      · -- All of the piece fits and the loop ends.
        rw [Nat.min_eq_right (by omega), List.take_length, List.drop_length, settleBuffer,
          if_neg (by rw [List.length_append]; omega), ih state (by rw [List.length_append]; omega) (by simp),
          List.append_nil]

/-- Where the input was cut does not matter. -/
theorem absorb_pieces (hsize : 0 < size) (state : σ) (pieces : List (List α)) :
    pieces.foldl (fun st piece => absorb process size piece.length st piece) (state, []) =
      fed process size state pieces.flatten := by
  have hrun : ∀ (rest : List (List α)) (done : List α),
      rest.foldl (fun st piece => absorb process size piece.length st piece) (fed process size state done) =
        fed process size state (done ++ rest.flatten) := by
    intro rest
    induction rest with
    | nil =>
      intro done
      rw [List.flatten_nil, List.append_nil]
      rfl
    | cons piece rest ih =>
      intro done
      have hpiece := absorb_eq process hsize piece.length (fed process size state done).1
        (fed_rest_lt process hsize state done) (le_refl piece.length)
      rw [List.foldl_cons, hpiece, fed_append process hsize, ih, List.flatten_cons, List.append_assoc]
  have := hrun pieces []
  rwa [fed_short process state hsize, List.nil_append] at this

/-- Emptying the buffer at the end takes the short last block in. -/
theorem fed_flush (hsize : 0 < size) (state : σ) (all : List α) :
    (if (fed process size state all).2 = [] then (fed process size state all).1
      else process (fed process size state all).1 (fed process size state all).2) =
    (List.range ((all.length + size - 1) / size)).foldl (fun s i => process s (unit all size i)) state := by
  have hmod := Nat.div_add_mod' all.length size
  have hlt := Nat.mod_lt all.length hsize
  by_cases h : all.length % size = 0
  · have hceil : (all.length + size - 1) / size = all.length / size := by
      rw [show all.length + size - 1 = size - 1 + all.length / size * size by omega, Nat.add_mul_div_right _ _ hsize,
        Nat.div_eq_of_lt (by omega), Nat.zero_add]
    have hnil : (fed process size state all).2 = [] := List.drop_eq_nil_of_le (by omega)
    rw [if_pos hnil, hceil]
    rfl
  · have hceil : (all.length + size - 1) / size = all.length / size + 1 := by
      rw [show all.length + size - 1 = all.length % size - 1 + (all.length / size + 1) * size by rw [Nat.succ_mul]; omega,
        Nat.add_mul_div_right _ _ hsize, Nat.div_eq_of_lt (by omega), Nat.zero_add]
    have hrest : (fed process size state all).2 ≠ [] := by
      intro hnil
      have hlen := congrArg List.length hnil
      rw [fed, List.length_drop, List.length_nil] at hlen
      omega
    have hlast : unit all size (all.length / size) = all.drop (all.length / size * size) :=
      slice_all _ _ (by omega)
    rw [if_neg hrest, hceil, List.range_succ, List.foldl_append, List.foldl_cons, List.foldl_nil, hlast]
    rfl

end SynapseFs.Lib.Blocks
