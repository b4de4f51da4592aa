import SynapseFs.Align.Auction
import SynapseFs.Lib.Assignment

/-! How near to the best the auction comes.

At every time a row with an object is within the increment of its best candidate at the
present prices, and a row that left finds every candidate dearer than none
(`Contented`). That bounds the cost at the end of a phase, up to the prices of the
objects that nobody has: the prices of the phase before are kept, and an object that
it sold and this phase does not stands at a price that nobody pays. -/
namespace SynapseFs.Align
open Lib Core

variable {n K : Nat}

/-- What row `i` costs with object `j`. -/
def pairCost (g : Candidates n K) (i j : Fin n) : ℤ :=
  match (List.finRange K).find? fun k => g.cand i k = j with
  | some k => g.cost i k
  | none => 0

/-- The cost of a partial assignment, rows without an object at the null cost. -/
def totalCost (g : Candidates n K) (assign : Fin n → Option (Fin n)) : ℤ :=
  Assignment.total (pairCost g) cNull assign

/-- A partial matching that uses only candidate pairs. -/
def UsesCandidates (g : Candidates n K) (assign : Fin n → Option (Fin n)) : Prop :=
  Assignment.Feasible (fun i j => ∃ k, g.cand i k = j) assign

/-- No object is left without an owner at a price that an earlier phase has raised. -/
def Resold (s : AuctionState n) : Prop := ∀ j, s.owner j = none → s.prices j = 0

theorem pairCost_cand (g : Candidates n K) (i : Fin n) (k : Fin K) : pairCost g i (g.cand i k) = g.cost i k := by
  unfold pairCost
  split
  · next k' hk =>
    have hsame : g.cand i k' = g.cand i k := by simpa using List.find?_some hk
    rw [g.distinct i hsame]
  · next hnone =>
    exact absurd (decide_eq_true rfl) (List.find?_eq_none.mp hnone k (List.mem_finRange k))

section
variable {g : Candidates n K} {topk : Topk n K} {epsShrink : ℚ} {eps : Nat} {s : AuctionState n}

/-- No row would gain more than the increment by another choice. -/
structure Contented (g : Candidates n K) (eps : Nat) (s : AuctionState n) : Prop where
  sold : ∀ i j, s.assign i = some j → ∃ k, g.cand i k = j ∧
    (∀ k', s.vals g i k' ≤ s.vals g i k + eps) ∧ -cNull ≤ s.vals g i k + eps
  left : ∀ i, s.unassigned i = false → s.assign i = none → ∀ k, s.vals g i k ≤ -cNull

theorem Contented.reset : Contented g eps s.reset := by
  constructor
  · intro i j h
    cases h
  · intro i h
    cases h

/-- Prices only rise, so nothing gets better for a row. -/
theorem round_vals_le (ht : topk.Lawful) (i : Fin n) (k : Fin K) :
    (s.round g topk eps).vals g i k ≤ s.vals g i k := by
  have hle : s.prices (g.cand i k) ≤ (s.round g topk eps).prices (g.cand i k) := AuctionState.round_prices_ge ht _
  rw [AuctionState.vals, AuctionState.vals]
  omega

/-- After its bid a row is the increment below its second best. -/
theorem round_vals_of_wins {i : Fin n} (hi : s.wins g topk eps i = true) :
    (s.round g topk eps).vals g i (s.bestK g topk i) = s.v2 g topk i - eps := by
  have hwinner := (AuctionState.winnerOf_eq_some (s := s) i _).mpr ⟨hi, rfl⟩
  have hprice := AuctionState.round_prices_of_winner hwinner
  rw [AuctionState.object] at hprice
  rw [AuctionState.vals, hprice, AuctionState.bid_eq]
  ring

/-- A round keeps every row content. -/
theorem Contented.round {bound : ℤ} (ht : topk.Lawful) (hs : s.Sound bound) (h : Contented g eps s) :
    Contented g eps (s.round g topk eps) := by
  constructor
  · intro i j hassign
    rcases (AuctionState.round_assign_iff hs i j).mp hassign with ⟨hwins, rfl⟩ | ⟨hnone, hassign⟩
    · refine ⟨s.bestK g topk i, rfl, fun k' => ?_, ?_⟩
      · rw [round_vals_of_wins hwins]
        by_cases hk : k' = s.bestK g topk i
        · rw [hk, round_vals_of_wins hwins]
          omega
        · have hfall : (s.round g topk eps).vals g i k' ≤ s.vals g i k' := round_vals_le ht i k'
          have hsecond : s.vals g i k' ≤ s.v2 g topk i := AuctionState.v2_ge i hk
          omega
      · rw [round_vals_of_wins hwins]
        have hnull : -cNull ≤ s.v2 g topk i := AuctionState.v2_ge_null i
        omega
    · obtain ⟨k, rfl, hbest, hnull⟩ := h.sold i j hassign
      have hsame : (s.round g topk eps).vals g i k = s.vals g i k := by
        rw [AuctionState.vals, AuctionState.vals, AuctionState.round_prices_of_none hnone]
      refine ⟨k, rfl, fun k' => ?_, hsame ▸ hnull⟩
      rw [hsame]
      exact (round_vals_le ht i k').trans (hbest k')
  · intro i hsettled hassign k
    refine (round_vals_le ht i k).trans ?_
    simp only [AuctionState.round] at hsettled hassign
    by_cases hwins : s.wins g topk eps i = true
    · rw [if_pos hwins] at hassign
      cases hassign
    · rw [if_neg hwins] at hsettled hassign
      by_cases hevicted : s.evicted g topk eps i = true
      · rw [if_pos hevicted] at hsettled
        cases hsettled
      · rw [if_neg hevicted] at hsettled hassign
        by_cases hdefect : s.defect g topk i = true
        · obtain ⟨-, hlt⟩ := (AuctionState.defect_iff i).mp hdefect
          exact (AuctionState.v1_ge ht i k).trans hlt.le
        · rw [if_neg hdefect] at hsettled hassign
          exact h.left i hsettled hassign k

theorem Reached.contented (h : Reached g topk epsShrink eps s) (ht : topk.Lawful) (hshrink : 1 < epsShrink) :
    Contented g eps s := by
  induction h with
  | start => exact Contented.reset (s := AuctionState.start n)
  | turn h hs ih =>
    rw [hs.2]
    exact ih.round ht (h.sound ht hshrink)
  | phase _ _ _ => exact Contented.reset

/-- Where every row has settled, that is slackness of the assignment at the prices. -/
theorem Contented.slack (h : Contented g eps s) (hsettled : ∀ i, s.unassigned i = false) :
    Assignment.Slack (fun i j => ∃ k, g.cand i k = j) (pairCost g) cNull s.prices eps s.assign := by
  constructor
  · intro i j hassign
    obtain ⟨k, rfl, hbest, hnull⟩ := h.sold i j hassign
    rw [pairCost_cand]
    simp only [AuctionState.vals] at hbest hnull
    constructor
    · rintro _ ⟨k', rfl⟩
      rw [pairCost_cand]
      have := hbest k'
      omega
    · omega
  · rintro i hassign _ ⟨k, rfl⟩
    have hleft := h.left i (hsettled i) hassign k
    rw [AuctionState.vals] at hleft
    rw [pairCost_cand]
    omega

theorem Reached.usesCandidates (h : Reached g topk epsShrink eps s) (ht : topk.Lawful) (hshrink : 1 < epsShrink) :
    UsesCandidates g s.assign := by
  constructor
  · intro i j hassign
    obtain ⟨k, hk, -⟩ := (h.contented ht hshrink).sold i j hassign
    exact ⟨k, hk⟩
  · intro i i' j hi hi'
    have hsound := h.sound ht hshrink
    rw [hsound.inverse] at hi hi'
    exact Option.some.inj (hi.symm.trans hi')

/-- What the auction misses the best by is at most `n`, and the prices that nobody pays. -/
theorem Reached.total_le (h : Reached g topk epsShrink 1 s) (ht : topk.Lawful) (hshrink : 1 < epsShrink)
    (hsettled : ∀ i, s.unassigned i = false) {M : Fin n → Option (Fin n)} (hM : UsesCandidates g M) :
    totalCost g s.assign ≤ totalCost g M + n + ∑ j, if (s.owner j).isSome then 0 else s.prices j := by
  have hsound := h.sound ht hshrink
  have hle := ((h.contented ht hshrink).slack hsettled).total_le (h.usesCandidates ht hshrink) hM (by simp) hsound.nonneg
  simp only [Fintype.card_fin, Nat.cast_one, nsmul_eq_mul, mul_one] at hle
  refine hle.trans_eq (congrArg _ (Finset.sum_congr rfl fun j _ => ?_))
  have hiff : (∃ i, s.assign i = some j) ↔ (s.owner j).isSome = true := by
    simp only [hsound.inverse, Option.isSome_iff_exists]
  by_cases hj : ∃ i, s.assign i = some j
  · rw [if_pos hj, if_pos (hiff.mp hj)]
  · rw [if_neg hj, if_neg fun hsome => hj (hiff.mpr hsome)]

end

theorem exists_run {β : Type} {g : Candidates n K} {topk : Topk n K} {epsShrink : ℚ} {bidGuard : ℤ}
    {f : AuctionState n → β} {b : β} (h : (auction g topk epsShrink bidGuard).toOption.map f = some b) :
    ∃ s, auction g topk epsShrink bidGuard = .ok s ∧ f s = b := by
  cases hrun : auction g topk epsShrink bidGuard with
  | error e =>
    rw [hrun] at h
    cases h
  | ok s =>
    rw [hrun] at h
    exact ⟨s, rfl, Option.some.inj h⟩

/-- Two rows that both prefer the first object. -/
def rivals : Candidates 2 2 := ⟨fun i k => if k = 0 then 8 else if i = 0 then 20 else 30, fun _ k => k, fun _ _ _ h => h⟩

def larger : Topk 2 2 := fun _ _ v => if v 0 < v 1 then 1 else 0

theorem larger_lawful : larger.Lawful := by
  intro _ _ v
  unfold larger
  split
  · next h => exact Fin.forall_fin_two.mpr ⟨h.le, le_rfl⟩
  · next h => exact Fin.forall_fin_two.mpr ⟨le_rfl, not_lt.mp h⟩

end SynapseFs.Align
