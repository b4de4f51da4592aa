import Mathlib.Data.List.Perm.Subperm
import SynapseFs.Lib.Bytes

/-! Ranges laid end to end.

A loop that walks a buffer in steps of a fixed size visits ranges that tile it
(`steps_tiles`); a loop that copies from each range what overlaps a window ends
with the window filled (`copied_step`, the step lemma of that loop). -/
namespace SynapseFs.Lib

variable {α : Type}

/-- Non-empty ranges from `a` to `c`, each starting where the one before ends. -/
inductive Tiles : Nat → List (Nat × Nat) → Nat → Prop where
  | nil (a : Nat) : Tiles a [] a
  | cons {a b c : Nat} {rest : List (Nat × Nat)} (h : a < b) (hr : Tiles b rest c) : Tiles a ((a, b) :: rest) c

namespace Tiles

theorem le {a c : Nat} {l : List (Nat × Nat)} (h : Tiles a l c) : a ≤ c := by
  induction h with
  | nil a => exact le_rfl
  | cons h _ ih => omega

theorem cons_iff {a c : Nat} {r : Nat × Nat} {rest : List (Nat × Nat)} :
    Tiles a (r :: rest) c ↔ r.1 = a ∧ a < r.2 ∧ Tiles r.2 rest c := by
  obtain ⟨x, y⟩ := r
  constructor
  · intro h
    cases h with
    | cons h hr => exact ⟨rfl, h, hr⟩
  · rintro ⟨rfl, h, hr⟩
    exact .cons h hr

theorem snoc {a b c : Nat} {l : List (Nat × Nat)} (h : Tiles a l b) (hlt : b < c) : Tiles a (l ++ [(b, c)]) c := by
  induction h with
  | nil a => exact .cons hlt (.nil c)
  | cons h _ ih => exact .cons h (ih hlt)

theorem mem {a c : Nat} {l : List (Nat × Nat)} (h : Tiles a l c) {r : Nat × Nat} (hr : r ∈ l) :
    a ≤ r.1 ∧ r.1 < r.2 ∧ r.2 ≤ c := by
  induction h with
  | nil a => cases hr
  | cons h hrest ih =>
    rcases List.mem_cons.mp hr with rfl | hr
    · exact ⟨le_rfl, h, hrest.le⟩
    · obtain ⟨h₁, h₂, h₃⟩ := ih hr
      exact ⟨by omega, h₂, h₃⟩

theorem ne_nil {a c : Nat} {l : List (Nat × Nat)} (h : Tiles a l c) (hlt : a < c) : l ≠ [] := by
  rintro rfl
  cases h
  exact lt_irrefl _ hlt

theorem getLast? {a c : Nat} {l : List (Nat × Nat)} (h : Tiles a l c) (hlt : a < c) :
    ∃ b, l.getLast? = some (b, c) := by
  induction h with
  | nil a => exact absurd hlt (lt_irrefl a)
  | cons h hrest ih =>
    cases hrest with
    | nil => exact ⟨_, rfl⟩
    | cons h' hr' =>
      obtain ⟨b, hb⟩ := ih (h'.trans_le hr'.le)
      exact ⟨b, by rw [List.getLast?_cons_cons, hb]⟩

/-- The ranges are in order of where they start. -/
theorem pairwise {a c : Nat} {l : List (Nat × Nat)} (h : Tiles a l c) : l.Pairwise fun r s => r.1 < s.1 := by
  induction h with
  | nil a => exact .nil
  | cons h hr ih => exact .cons (fun s hs => h.trans_le (hr.mem hs).1) ih

/-- The range a point is in is the last of those that start at or before it. -/
theorem locate {ι : Type} (f : ι → Nat × Nat) {l : List ι} {a c x : Nat} (h : Tiles a (l.map f) c) (hx : a ≤ x)
    (hlt : x < c) :
    ∃ i ∈ l, (l.takeWhile fun i => (f i).1 ≤ x).getLast? = some i ∧ (f i).1 ≤ x ∧ x < (f i).2 := by
  induction l generalizing a with
  | nil =>
    cases h
    omega
  | cons i rest ih =>
    obtain ⟨hi, hlt', hrest⟩ := cons_iff.mp h
    have hle : (f i).1 ≤ x := hi.trans_le hx
    rw [List.takeWhile_cons_of_pos (by simpa using hle)]
    by_cases hin : x < (f i).2
    · refine ⟨i, List.mem_cons_self, ?_, hle, hin⟩
      cases rest with
      | nil => rfl
      | cons j rest =>
        obtain ⟨hj, -, -⟩ := cons_iff.mp hrest
        rw [List.takeWhile_cons_of_neg (by simpa [hj] using hin)]
        rfl
    · obtain ⟨j, hj, hlast, hle', hlt''⟩ := ih hrest (Nat.le_of_not_lt hin)
      refine ⟨j, List.mem_cons_of_mem _ hj, ?_, hle', hlt''⟩
      rw [List.getLast?_cons, hlast]
      rfl

/-- A point is in one range only. -/
theorem unique {ι : Type} (f : ι → Nat × Nat) {l : List ι} {a c x : Nat} (h : Tiles a (l.map f) c) {i j : ι}
    (hi : i ∈ l) (hj : j ∈ l) (hix : (f i).1 ≤ x ∧ x < (f i).2) (hjx : (f j).1 ≤ x ∧ x < (f j).2) : i = j := by
  induction l generalizing a with
  | nil => cases hi
  | cons k rest ih =>
    obtain ⟨-, -, hrest⟩ := cons_iff.mp h
    have hlater : ∀ r ∈ rest, (f k).2 ≤ (f r).1 := fun r hr => (hrest.mem (List.mem_map_of_mem hr)).1
    rcases List.mem_cons.mp hi with rfl | hi' <;> rcases List.mem_cons.mp hj with rfl | hj'
    · rfl
    · have := hlater j hj'
      omega
    · have := hlater i hi'
      omega
    · exact ih hrest hi' hj'

section Content
variable {ι : Type} {f : ι → Nat × Nat} {content : ι → List α}

/-- What is laid over the ranges, one after the other, is as long as they are. -/
theorem length_flatMap {l : List ι} {a c : Nat} (h : Tiles a (l.map f) c)
    (hlen : ∀ i ∈ l, (content i).length = (f i).2 - (f i).1) : (l.flatMap content).length = c - a := by
  induction l generalizing a with
  | nil =>
    cases h
    simp
  | cons i rest ih =>
    obtain ⟨hi, hlt, hrest⟩ := cons_iff.mp h
    rw [List.flatMap_cons, List.length_append, hlen i List.mem_cons_self,
      ih hrest fun j hj => hlen j (List.mem_cons_of_mem _ hj)]
    have := hrest.le
    omega

/-- The parts of `b` behind the ranges, one after the other, are the part behind all of them. -/
theorem flatMap_slice {l : List ι} {a c : Nat} (h : Tiles a (l.map f) c) (b : List α) :
    (l.flatMap fun i => slice b (f i).1 ((f i).2 - (f i).1)) = slice b a (c - a) := by
  induction l generalizing a with
  | nil =>
    cases h
    rw [List.flatMap_nil, Nat.sub_self, slice_zero_len]
  | cons i rest ih =>
    obtain ⟨hi, hlt, hrest⟩ := cons_iff.mp h
    have hle := hrest.le
    have hjoin := slice_append_slice b a ((f i).2 - a) (c - (f i).2)
    rw [show a + ((f i).2 - a) = (f i).2 by omega, show (f i).2 - a + (c - (f i).2) = c - a by omega] at hjoin
    rw [List.flatMap_cons, ih hrest, hi, hjoin]

/-- A part of one range holds that part of what is laid there. -/
theorem slice_flatMap {l : List ι} {a c w n : Nat} {i : ι} (h : Tiles a (l.map f) c)
    (hlen : ∀ i ∈ l, (content i).length = (f i).2 - (f i).1) (hi : i ∈ l) (hw : w + n ≤ (f i).2 - (f i).1) :
    slice (l.flatMap content) ((f i).1 - a + w) n = slice (content i) w n := by
  induction l generalizing a with
  | nil => cases hi
  | cons j rest ih =>
    obtain ⟨hj, hlt, hrest⟩ := cons_iff.mp h
    rw [List.flatMap_cons]
    by_cases hij : i = j
    · subst hij
      rw [hj, Nat.sub_self, Nat.zero_add, slice_append_left]
      rw [hlen i List.mem_cons_self]
      exact hw
    · have hmem : i ∈ rest := (List.mem_cons.mp hi).resolve_left hij
      have hle := (hrest.mem (List.mem_map_of_mem hmem)).1
      have hoff : (f i).1 - a + w = (content j).length + ((f i).1 - (f j).2 + w) := by
        rw [hlen j List.mem_cons_self]
        omega
      rw [hoff, slice_append_right]
      exact ih hrest (fun k hk => hlen k (List.mem_cons_of_mem _ hk)) hmem

end Content

end Tiles

/-! ### Fixed steps -/

/-- The ranges of `for (a = 0; a < total; a += step)`, the last one clipped. -/
def steps (total step : Nat) : List (Nat × Nat) :=
  (List.range ((total + step - 1) / step)).map fun i => (i * step, min total (i * step + step))

theorem steps_tiles (total step : Nat) (hs : 0 < step) : Tiles 0 (steps total step) total := by
  have hpre : ∀ k ≤ (total + step - 1) / step,
      Tiles 0 ((List.range k).map fun i => (i * step, min total (i * step + step))) (min total (k * step)) := by
    intro k
    induction k with
    | zero =>
      intro _
      rw [Nat.zero_mul, Nat.min_zero]
      exact .nil 0
    | succ k ih =>
      intro hk
      have hlt : k * step < total := by
        have := (Nat.le_div_iff_mul_le hs).mp hk
        rw [Nat.succ_mul] at this
        omega
      have hmin : min total (k * step) = k * step := by omega
      rw [List.range_succ, List.map_append, List.map_singleton, Nat.succ_mul]
      have hprev := ih (by omega)
      rw [hmin] at hprev
      exact hprev.snoc (by omega)
  have hall := hpre _ le_rfl
  have hcover : total ≤ (total + step - 1) / step * step := by
    have := Nat.div_add_mod' (total + step - 1) step
    have := Nat.mod_lt (total + step - 1) hs
    omega
  rwa [Nat.min_eq_left hcover] at hall

theorem steps_width {total step : Nat} {r : Nat × Nat} (hr : r ∈ steps total step) : r.2 - r.1 ≤ step := by
  obtain ⟨i, -, rfl⟩ := List.mem_map.mp hr
  show min total (i * step + step) - i * step ≤ step
  omega

/-! ### Clipped copies -/

/-- The window `[off, stop)` of `data` as far as `[0, c)` reaches. -/
def copied (data : List α) (off stop c : Nat) : List α := slice data off (min c stop - off)

theorem length_copied {data : List α} {off stop c : Nat} (hc : c ≤ data.length) :
    (copied data off stop c).length = min c stop - off := by
  rw [copied, length_slice]
  omega

theorem copied_zero (data : List α) (off stop : Nat) : copied data off stop 0 = [] := by
  rw [copied, Nat.zero_min, Nat.zero_sub, slice_zero_len]

/-- A tiling of the whole fills the window, up to the end of the data. -/
theorem copied_all (data : List α) (off n : Nat) : copied data off (off + n) data.length = slice data off n := by
  rw [copied, ← slice_min data off n]
  congr 1
  omega

/-- A range that misses the window adds nothing. -/
theorem copied_skip (data : List α) {off stop c d : Nat} (hcd : c ≤ d) (h : d ≤ off ∨ stop ≤ c) :
    copied data off stop d = copied data off stop c := by
  unfold copied
  congr 1
  omega

/-- One that meets it adds its clipped part, right behind what is there. -/
theorem copied_step {data : List α} {off stop c d : Nat} (buf : List α) (hcd : c < d) (hd : d ≤ data.length)
    (hoff : off < d) (hstop : c < stop) (hw : off ≤ stop) :
    overwrite (filled (copied data off stop c) buf) (max c off - off)
        (slice data (max c off) (min d stop - max c off)) = filled (copied data off stop d) buf := by
  have hlen : max c off - off = (copied data off stop c).length := by
    rw [length_copied (by omega)]
    omega
  rw [hlen, overwrite_filled]
  congr 1
  unfold copied
  rw [show max c off = off + (min c stop - off) by omega, slice_append_slice]
  congr 1
  omega

/-! ### Counting -/

/-- The points of `[a, b)` in `[off, stop)`. -/
def clip (a b off stop : Nat) : List Nat := List.range' (max a off) (min b stop - max a off)

theorem mem_clip {a b off stop x : Nat} : x ∈ clip a b off stop ↔ a ≤ x ∧ x < b ∧ off ≤ x ∧ x < stop := by
  rw [clip, List.mem_range'_1]
  omega

theorem length_clip (a b off stop : Nat) : (clip a b off stop).length = min b stop - max a off := List.length_range'

/-- As many points as a window has, all of them in it: none comes twice exactly when none is missing. -/
theorem nodup_iff_covers {l : List Nat} {a n : Nat} (hlen : l.length = n) (hmem : ∀ x ∈ l, a ≤ x ∧ x < a + n) :
    l.Nodup ↔ ∀ x, a ≤ x → x < a + n → x ∈ l := by
  have hwindow : ∀ x, x ∈ List.range' a n ↔ a ≤ x ∧ x < a + n := fun x => List.mem_range'_1
  constructor
  · intro h x hle hlt
    have hsub : l.Subperm (List.range' a n) := List.subperm_of_subset h fun x hx => (hwindow x).mpr (hmem x hx)
    exact (hsub.perm_of_length_le (by rw [List.length_range', hlen])).mem_iff.mpr ((hwindow x).mpr ⟨hle, hlt⟩)
  · intro h
    have hnodup : (List.range' a n).Nodup := List.nodup_range'
    have hsub : (List.range' a n).Subperm l := 
      List.subperm_of_subset hnodup fun x hx => h x ((hwindow x).mp hx).1 ((hwindow x).mp hx).2
    exact (hsub.perm_of_length_le (by rw [List.length_range', hlen])).nodup_iff.mp hnodup

end SynapseFs.Lib
