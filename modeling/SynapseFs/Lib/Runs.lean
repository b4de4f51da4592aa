import Mathlib.Data.List.Basic

/-! Runs of a step function.

A system of several parties is a partial step function: an action says who moves
and what the environment answers, `none` says that the action is not possible.
Every list of actions is an interleaving. A run may be asked to meet a condition
at each of its steps, on the state before the step. -/
namespace SynapseFs.Lib

variable {σ α : Type}

/-- The states reached from `init` by steps that all meet `ok`. -/
inductive Reach (step : σ → α → Option σ) (ok : σ → α → Bool) (init : σ) : σ → Prop where
  | init : Reach step ok init init
  | step {s s' : σ} {a : α} : Reach step ok init s → ok s a = true → step s a = some s' → Reach step ok init s'

/-- What holds at the start and is kept by every step that meets the condition holds all along. -/
theorem Reach.invariant {step : σ → α → Option σ} {ok : σ → α → Bool} {init s : σ} {I : σ → Prop}
    (hinit : I init) (hstep : ∀ s a s', I s → ok s a = true → step s a = some s' → I s')
    (h : Reach step ok init s) : I s := by
  induction h with
  | init => exact hinit
  | step _ hok hs ih => exact hstep _ _ _ ih hok hs

/-- A list of actions taken in turn, as long as each meets the condition. -/
def runActs (step : σ → α → Option σ) (ok : σ → α → Bool) (s : σ) : List α → Option σ
  | [] => some s
  | a :: rest => if ok s a then (step s a).bind fun s' => runActs step ok s' rest else none

theorem Reach.runActs {step : σ → α → Option σ} {ok : σ → α → Bool} {init : σ} {acts : List α} :
    ∀ {s s' : σ}, Reach step ok init s → runActs step ok s acts = some s' → Reach step ok init s' := by
  induction acts with
  | nil =>
    intro s s' hs h
    cases h
    exact hs
  | cons a rest ih =>
    intro s s' hs h
    unfold Lib.runActs at h
    split at h
    · next hok =>
      obtain ⟨t, ht, hrest⟩ := Option.bind_eq_some_iff.mp h
      exact ih (hs.step hok ht) hrest
    · cases h

/-! ### Parties

The parties of a system are a list; a step replaces one of them. -/

theorem getElem?_set_cases {l : List α} {i j : Nat} {b d : α} (h : (l.set i b)[j]? = some d) :
    j = i ∧ d = b ∨ j ≠ i ∧ l[j]? = some d := by
  rw [List.getElem?_set] at h
  by_cases hj : i = j
  · rw [if_pos hj] at h
    split at h
    · cases h
      exact Or.inl ⟨hj.symm, rfl⟩
    · cases h
  · rw [if_neg hj] at h
    exact Or.inr ⟨fun h => hj h.symm, h⟩

theorem getElem?_append_cases {l : List α} {j : Nat} {b d : α} (h : (l ++ [b])[j]? = some d) :
    d = b ∨ l[j]? = some d := by
  rw [List.getElem?_append] at h
  split at h
  · exact Or.inr h
  · rw [List.getElem?_singleton] at h
    split at h
    · cases h
      exact Or.inl rfl
    · cases h

/-- A count over the parties, when one of them moves. -/
theorem countP_set_add (q : α → Bool) {l : List α} {i : Nat} {a : α} (b : α) (h : l[i]? = some a) :
    (l.set i b).countP q + (if q a = true then 1 else 0) = l.countP q + if q b = true then 1 else 0 := by
  obtain ⟨hlt, hat⟩ := List.getElem?_eq_some_iff.mp h
  have hpos : q a = true → 0 < l.countP q := fun hq => List.countP_pos_iff.mpr ⟨a, List.mem_of_getElem? h, hq⟩
  rw [List.countP_set hlt, hat]
  by_cases hq : q a = true
  · have := hpos hq
    simp only [if_pos hq]
    omega
  · simp only [if_neg hq]
    omega

end SynapseFs.Lib
