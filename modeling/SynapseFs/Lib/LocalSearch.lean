import Mathlib.Data.List.Basic
import Mathlib.Order.Basic

/-! Local search.

A scan tries moves one after another on the state that the moves before it left, and
makes those that are accepted; passes are scans until one makes no move or they are used
up. A scan that made no move has tried all of its moves on one state (`scan_quiet`), so
where the passes stop early no move is accepted (`passes_settled`). What moves keep, a run
keeps (`passes_keeps`), and a value that every accepted move lowers is not raised
(`passes_value_le`). -/
namespace SynapseFs.Lib.LocalSearch

variable {σ μ : Type} (make : μ → σ → σ) (accepts : μ → σ → Bool)

/-- One move, and whether any has been made. -/
def attempt (s : σ × Bool) (m : μ) : σ × Bool := if accepts m s.1 then (make m s.1, true) else s

def scan (moves : List μ) (s : σ) : σ × Bool := moves.foldl (attempt make accepts) (s, false)

/-- The state at the end, and how many scans it took. -/
def passes (moves : List μ) : Nat → σ → Nat → σ × Nat
  | 0, s, done => (s, done)
  | left + 1, s, done =>
    let (s, improved) := scan make accepts moves s
    if improved then passes moves left s (done + 1) else (s, done + 1)

variable {make accepts}

/-! ### One scan -/

theorem attempt_keeps {p : σ → Prop} (hmove : ∀ m s, p s → accepts m s = true → p (make m s)) {s : σ × Bool} (m : μ) (h : p s.1) :
    p (attempt make accepts s m).1 := by
  unfold attempt
  split
  · next haccepts => exact hmove m s.1 h haccepts
  · exact h

theorem foldl_keeps {p : σ → Prop} (hmove : ∀ m s, p s → accepts m s = true → p (make m s)) (moves : List μ) :
    ∀ s : σ × Bool, p s.1 → p (moves.foldl (attempt make accepts) s).1 := by
  induction moves with
  | nil => exact fun _ h => h
  | cons m rest ih => exact fun s h => ih _ (attempt_keeps hmove m h)

/-- A move once made is not forgotten. -/
theorem foldl_made (moves : List μ) : ∀ s : σ × Bool, s.2 = true → (moves.foldl (attempt make accepts) s).2 = true := by
  induction moves with
  | nil => exact fun _ h => h
  | cons m rest ih =>
    intro s h
    refine ih _ ?_
    unfold attempt
    split
    · rfl
    · exact h

/-- A scan that made no move has changed nothing, and none of its moves is accepted. -/
theorem scan_quiet (moves : List μ) (s : σ) (h : (scan make accepts moves s).2 = false) :
    (scan make accepts moves s).1 = s ∧ ∀ m ∈ moves, accepts m s = false := by
  unfold scan at h ⊢
  induction moves with
  | nil => exact ⟨rfl, fun m hm => absurd hm List.not_mem_nil⟩
  | cons m rest ih =>
    rw [List.foldl_cons] at h ⊢
    by_cases haccepts : accepts m s = true
    · rw [foldl_made rest _ (by rw [attempt, if_pos haccepts])] at h
      exact absurd h (by simp)
    · rw [attempt, if_neg haccepts] at h ⊢
      obtain ⟨hstate, hall⟩ := ih h
      refine ⟨hstate, fun m' hm' => ?_⟩
      rcases List.mem_cons.mp hm' with rfl | hm'
      · exact Bool.eq_false_iff.mpr haccepts
      · exact hall m' hm'

/-! ### All passes -/

theorem passes_keeps {p : σ → Prop} (hmove : ∀ m s, p s → accepts m s = true → p (make m s)) (moves : List μ) :
    ∀ (left : Nat) (s : σ) (done : Nat), p s → p (passes make accepts moves left s done).1 := by
  intro left
  induction left with
  | zero => exact fun _ _ h => h
  | succ left ih =>
    intro s done h
    have hscan : p (scan make accepts moves s).1 := foldl_keeps hmove moves (s, false) h
    unfold passes
    dsimp only
    split
    · exact ih _ _ hscan
    · exact hscan

/-- Where every accepted move lowers a value, the passes do not raise it. -/
theorem passes_value_le {α : Type} [Preorder α] {p : σ → Prop} (value : σ → α)
    (hmove : ∀ m s, p s → accepts m s = true → p (make m s))
    (hlowers : ∀ m s, p s → accepts m s = true → value (make m s) < value s)
    (moves : List μ) (left : Nat) {s : σ} (done : Nat) (h : p s) :
    value (passes make accepts moves left s done).1 ≤ value s := by
  have hkept : p (passes make accepts moves left s done).1 ∧ value (passes make accepts moves left s done).1 ≤ value s := by
    refine @passes_keeps σ μ make accepts (fun t => p t ∧ value t ≤ value s) (fun m t ht haccepts => ?_) moves left s
      done ⟨h, le_rfl⟩
    exact ⟨hmove m t ht.1 haccepts, (hlowers m t ht.1 haccepts).le.trans ht.2⟩
  exact hkept.2

theorem passes_count_le (moves : List μ) : ∀ (left : Nat) (s : σ) (done : Nat),
    (passes make accepts moves left s done).2 ≤ done + left := by
  intro left
  induction left with
  | zero => exact fun _ done => Nat.le_refl done
  | succ left ih =>
    intro s done
    unfold passes
    dsimp only
    split
    · have := ih (scan make accepts moves s).1 (done + 1)
      omega
    · show done + 1 ≤ done + (left + 1)
      omega

/-- Where passes are left over, no move is accepted. -/
theorem passes_settled (moves : List μ) : ∀ (left : Nat) (s : σ) (done : Nat),
    (passes make accepts moves left s done).2 < done + left →
      ∀ m ∈ moves, accepts m (passes make accepts moves left s done).1 = false := by
  intro left
  induction left with
  | zero =>
    intro s done h
    exact absurd h (Nat.lt_irrefl _)
  | succ left ih =>
    intro s done h
    unfold passes at h ⊢
    dsimp only at h ⊢
    by_cases himproved : (scan make accepts moves s).2 = true
    · rw [if_pos himproved] at h ⊢
      exact ih _ _ (by omega)
    · rw [if_neg himproved]
      obtain ⟨hstate, hall⟩ := scan_quiet moves s (Bool.eq_false_iff.mpr himproved)
      rwa [hstate]

end SynapseFs.Lib.LocalSearch
