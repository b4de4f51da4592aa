import Mathlib.Data.List.Induction
import SynapseFs.Lib.Bytes

/-! Sequential access, per open file handle.

A handle is read in sequence once enough of its reads have each started where the one
before ended. The state keeps the end of the last read and how many were in order, up to
that number (`sequential_iff`). -/
namespace SynapseFs.Mount
open Lib

structure PrefetchOptions where
  maxAheadFrames : Nat
  /-- Consecutive in-order reads before sequential mode engages. -/
  triggerStreak : Nat
  enabled : Bool

def PrefetchOptions.default : PrefetchOptions := ⟨4, 3, true⟩

structure PrefetchState where
  opts : PrefetchOptions
  nextExpected : Nat
  streak : Nat

namespace PrefetchState

def new (opts : PrefetchOptions) : PrefetchState := ⟨opts, 0, 0⟩

def sequential (p : PrefetchState) : Bool := p.opts.triggerStreak ≤ p.streak

/-- Record a read, and how many frames ahead to fill. -/
def observe (p : PrefetchState) (offset length : Nat) : PrefetchState × Nat :=
  if p.opts.enabled = false then (p, 0)
  else
    let streak := if offset = p.nextExpected then (if p.streak < p.opts.triggerStreak then p.streak + 1 else p.streak) else 0
    let p : PrefetchState := ⟨p.opts, u64 (offset + length), streak⟩
    (p, if p.sequential then p.opts.maxAheadFrames else 0)

/-- The reads of a handle, as offset and length. -/
def observed (opts : PrefetchOptions) (reads : List (Nat × Nat)) : PrefetchState :=
  reads.foldl (fun p r => (p.observe r.1 r.2).1) (new opts)

/-! ### What it detects -/

/-- Where a read that goes on from these starts. -/
def endOf (reads : List (Nat × Nat)) : Nat :=
  match reads.getLast? with
  | none => 0
  | some r => u64 (r.1 + r.2)

/-- Read `i` starts where the one before it ended, the first at the start of the file. -/
def InOrder (reads : List (Nat × Nat)) (i : Nat) : Prop := ∃ r, reads[i]? = some r ∧ r.1 = endOf (reads.take i)

theorem observed_snoc (opts : PrefetchOptions) (reads : List (Nat × Nat)) (r : Nat × Nat) :
    observed opts (reads ++ [r]) = ((observed opts reads).observe r.1 r.2).1 := by
  rw [observed, List.foldl_append]
  rfl

theorem inOrder_snoc_lt {reads : List (Nat × Nat)} {r : Nat × Nat} {i : Nat} (hi : i < reads.length) :
    InOrder (reads ++ [r]) i ↔ InOrder reads i := by
  rw [InOrder, InOrder, List.getElem?_append_left hi, List.take_append_of_le_length (Nat.le_of_lt hi)]

theorem inOrder_snoc_last {reads : List (Nat × Nat)} {r : Nat × Nat} :
    InOrder (reads ++ [r]) reads.length ↔ r.1 = endOf reads := by
  rw [InOrder, List.take_left]
  simp

/-- The state behind some reads: the end of the last one, and a streak of reads in order. -/
theorem observed_spec (opts : PrefetchOptions) (henabled : opts.enabled = true) (reads : List (Nat × Nat)) :
    (observed opts reads).opts = opts ∧ (observed opts reads).nextExpected = endOf reads ∧
      ∀ k ≤ opts.triggerStreak, k ≤ (observed opts reads).streak ↔
        k ≤ reads.length ∧ ∀ i, reads.length - k ≤ i → i < reads.length → InOrder reads i := by
  induction reads using List.reverseRecOn with
  | nil =>
    refine ⟨rfl, rfl, fun k _ => ⟨fun hk => ⟨hk, fun i _ hi => absurd hi (Nat.not_lt_zero i)⟩, fun h => h.1⟩⟩
  | append_singleton reads r ih =>
    obtain ⟨hopts, hnext, hstreak⟩ := ih
    rw [observed_snoc, observe, hopts, henabled, if_neg (by simp), hnext]
    refine ⟨rfl, by simp [endOf], fun k hk => ?_⟩
    dsimp only
    by_cases hin : r.1 = endOf reads
    · rw [if_pos hin]
      have hlast : InOrder (reads ++ [r]) reads.length := inOrder_snoc_last.mpr hin
      have hcount : k ≤ (if (observed opts reads).streak < opts.triggerStreak then (observed opts reads).streak + 1
          else (observed opts reads).streak) ↔ k - 1 ≤ (observed opts reads).streak := by
        split <;> omega
      rw [hcount, hstreak (k - 1) (by omega), List.length_append, List.length_singleton]
      refine and_congr (by omega) ⟨fun h i hle hlt => ?_, fun h i hle hlt => ?_⟩
      · rcases Nat.lt_or_ge i reads.length with hi | hi
        · exact (inOrder_snoc_lt hi).mpr (h i (by omega) hi)
        · rw [show i = reads.length by omega]
          exact hlast
      · exact (inOrder_snoc_lt hlt).mp (h i (by omega) (by omega))
    · rw [if_neg hin, List.length_append, List.length_singleton]
      refine ⟨fun hk => ?_, fun ⟨hle, h⟩ => ?_⟩
      · rw [Nat.le_zero.mp hk]
        exact ⟨Nat.zero_le _, fun i hle hlt => absurd hle (by omega)⟩
      · by_contra hpos
        exact hin (inOrder_snoc_last.mp (h reads.length (by omega) (by omega)))

/-- A handle counts as read in sequence iff its last reads, as many as the trigger asks for, were each in order. -/
theorem sequential_iff (opts : PrefetchOptions) (henabled : opts.enabled = true) (reads : List (Nat × Nat)) :
    (observed opts reads).sequential = true ↔ opts.triggerStreak ≤ reads.length ∧
      ∀ i, reads.length - opts.triggerStreak ≤ i → i < reads.length → InOrder reads i := by
  obtain ⟨hopts, -, hstreak⟩ := observed_spec opts henabled reads
  rw [sequential, hopts, decide_eq_true_iff]
  exact hstreak _ (Nat.le_refl _)

/-- A read elsewhere, then three in a row: the first of them broke the streak. -/
theorem sequential_iff_three :
    (observed .default [(4096, 8), (0, 8), (8, 8), (16, 8)]).sequential = true ↔
      3 ≤ [(4096, 8), (0, 8), (8, 8), (16, 8)].length ∧ ∀ i, [(4096, 8), (0, 8), (8, 8), (16, 8)].length - 3 ≤ i →
        i < [(4096, 8), (0, 8), (8, 8), (16, 8)].length → InOrder [(4096, 8), (0, 8), (8, 8), (16, 8)] i :=
  sequential_iff .default rfl [(4096, 8), (0, 8), (8, 8), (16, 8)]

end PrefetchState

end SynapseFs.Mount
