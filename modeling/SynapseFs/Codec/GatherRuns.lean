import SynapseFs.Codec.Reconstruct

/-! Gathering by runs is gathering one by one.

The runs of a range hold each index that the range needs once, and no two of them
touch: the indices are distinct, so sorted they ascend strictly. Every index is
then found in the scratch buffer, and writer and reader copy the unit it names. -/
namespace SynapseFs.Codec
open Lib Core

/-! ### Runs -/

/-- One run ends before the next begins, with a gap in between. -/
def Before (r s : UnitRun) : Prop := r.first + r.count < s.first

/-- The runs of the indices `needed`: each index in one run, no run longer than
its neighbours in `needed` make it, none shorter. -/
structure RunsOf (needed : List Nat) (runs : List UnitRun) : Prop where
  once : ∀ q ∈ needed, ∃! r, r ∈ runs ∧ r.Covers q
  only : ∀ r ∈ runs, ∀ q, r.Covers q → q ∈ needed
  pos : ∀ r ∈ runs, 0 < r.count
  apart : runs.Pairwise Before
  maximal : ∀ r ∈ runs, r.first + r.count ∉ needed ∧ ∀ q, q + 1 = r.first → q ∉ needed

/-- On strictly ascending indices the loop opens a run only behind a gap. -/
theorem toRunsFrom_apart (l : List Nat) : ∀ start count, l.Pairwise (· < ·) → (∀ i ∈ l, start + count ≤ i) →
    (∀ r ∈ toRunsFrom start count l, start ≤ r.first) ∧ (toRunsFrom start count l).Pairwise Before := by
  induction l with
  | nil =>
    intro start count _ _
    refine ⟨fun r hr => ?_, List.pairwise_singleton _ _⟩
    rw [List.mem_singleton.mp hr]
  | cons i rest ih =>
    intro start count hasc hlow
    obtain ⟨habove, hasc⟩ := List.pairwise_cons.mp hasc
    have hi := hlow i List.mem_cons_self
    unfold toRunsFrom
    split
    · next he =>
      exact ih start (count + 1) hasc fun j hj => by
        have := habove j hj
        omega
    · next hne =>
      obtain ⟨hfirst, hapart⟩ := ih i 1 hasc fun j hj => habove j hj
      refine ⟨fun r hr => ?_, List.pairwise_cons.mpr ⟨fun r hr => ?_, hapart⟩⟩
      · rcases List.mem_cons.mp hr with rfl | hr
        · exact le_rfl
        · have := hfirst r hr
          omega
      · have := hfirst r hr
        show start + count < r.first
        omega

theorem toRuns_apart {l : List Nat} (hasc : l.Pairwise (· < ·)) : (toRuns l).Pairwise Before := by
  cases l with
  | nil => exact List.Pairwise.nil
  | cons i rest =>
    obtain ⟨habove, hasc⟩ := List.pairwise_cons.mp hasc
    exact (toRunsFrom_apart rest i 1 hasc fun j hj => habove j hj).2

/-- Runs that lie apart share no index, and do not touch. -/
theorem eq_of_touches {runs : List UnitRun} (hapart : runs.Pairwise Before) {r s : UnitRun} (hr : r ∈ runs)
    (hs : s ∈ runs) (h : r.first ≤ s.first + s.count ∧ s.first ≤ r.first + r.count) : r = s := by
  by_contra hne
  obtain ⟨i, hi, rfl⟩ := List.mem_iff_getElem.mp hr
  obtain ⟨j, hj, rfl⟩ := List.mem_iff_getElem.mp hs
  rcases Nat.lt_trichotomy i j with hlt | rfl | hlt
  · exact absurd h.2 (not_le.mpr (List.pairwise_iff_getElem.mp hapart i j hi hj hlt))
  · exact hne rfl
  · exact absurd h.1 (not_le.mpr (List.pairwise_iff_getElem.mp hapart j i hj hi hlt))

theorem mergeSort_ascending {l : List Nat} (h : l.Nodup) : l.mergeSort.Pairwise (· < ·) := by
  have hle : l.mergeSort.Pairwise (· ≤ ·) := by
    refine (List.pairwise_mergeSort (fun a b c hab hbc => ?_) (fun a b => ?_) l).imp of_decide_eq_true
    · exact decide_eq_true ((of_decide_eq_true hab).trans (of_decide_eq_true hbc))
    · simp [Nat.le_total]
  have hne : l.mergeSort.Pairwise (· ≠ ·) := (List.mergeSort_perm l _).nodup_iff.mpr h
  exact (hle.and hne).imp fun h => lt_of_le_of_ne h.1 h.2

theorem runsOf_toRuns {needed : List Nat} (h : needed.Nodup) : RunsOf needed (toRuns needed.mergeSort) := by
  have hapart := toRuns_apart (mergeSort_ascending h)
  have hcovers : ∀ q, (∃ r ∈ toRuns needed.mergeSort, r.Covers q) ↔ q ∈ needed := fun q =>
    (toRuns_covers _ q).trans List.mem_mergeSort
  have honly : ∀ r ∈ toRuns needed.mergeSort, ∀ q, r.Covers q → q ∈ needed := fun r hr q hq =>
    (hcovers q).mp ⟨r, hr, hq⟩
  refine ⟨fun q hq => ?_, honly, fun r hr => toRuns_pos hr, hapart, fun r hr => ⟨fun hq => ?_, fun q he hq => ?_⟩⟩
  · obtain ⟨r, hr, hc⟩ := (hcovers q).mpr hq
    refine ⟨r, ⟨hr, hc⟩, fun s ⟨hs, hd⟩ => eq_of_touches hapart hs hr ?_⟩
    obtain ⟨hclow, hchigh⟩ := hc
    obtain ⟨hdlow, hdhigh⟩ := hd
    omega
  · -- The run that holds the index behind `r` touches it, so it is `r`, which does not.
    obtain ⟨s, hs, hc⟩ := (hcovers _).mpr hq
    obtain ⟨hlow, hhigh⟩ := hc
    cases eq_of_touches hapart hr hs (by omega)
    omega
  · obtain ⟨s, hs, hc⟩ := (hcovers _).mpr hq
    obtain ⟨hlow, hhigh⟩ := hc
    cases eq_of_touches hapart hr hs (by omega)
    omega

theorem dependencyRuns_spec {perm : List Nat} (h : perm.Nodup) {first count : Nat} (hle : first + count ≤ perm.length) :
    ∃ runs, dependencyRuns perm first count = .ok runs ∧ RunsOf (slice perm first count) runs :=
  ⟨_, if_neg (not_lt.mpr hle), runsOf_toRuns ((h.sublist (List.drop_sublist _ _)).sublist (List.take_sublist _ _))⟩

/-! ### The scratch buffer -/

theorem readRuns_error {read : UnitRun → Outcome Bytes} {w : Nat} {e : Failure} (runs : List UnitRun) : ∀ s : Scratch,
    readRuns read w s runs = .error e → ∃ run ∈ runs, read run = .error e := by
  induction runs with
  | nil =>
    intro s h
    cases h
  | cons run rest ih =>
    intro s h
    unfold readRuns at h
    cases hread : read run with
    | error e' =>
      rw [hread] at h
      cases h
      exact ⟨run, List.mem_cons_self, hread⟩
    | ok bytes =>
      rw [hread] at h
      obtain ⟨r, hr, he⟩ := ih _ h
      exact ⟨r, List.mem_cons_of_mem _ hr, he⟩

/-- A gather fails only where one of its runs does: no unit is missing from the scratch buffer. -/
theorem gather_error {fn name : String} {read : UnitRun → Outcome Bytes} {perm : List Nat} {first count w : Nat}
    {e : Failure} (hle : first + count ≤ perm.length) (hperm : ∀ p ∈ perm, p < 2 ^ 32)
    (h : gather fn name read perm first count w = .error e) :
    ∃ runs, dependencyRuns perm first count = .ok runs ∧ ∃ run ∈ runs, read run = .error e := by
  have hruns : dependencyRuns perm first count = .ok (toRuns (slice perm first count).mergeSort) := if_neg (not_lt.mpr hle)
  refine ⟨_, hruns, ?_⟩
  cases hs : readRuns read w ⟨[], []⟩ (toRuns (slice perm first count).mergeSort) with
  | error e' =>
    have herr : gather fn name read perm first count w = .error e' := by
      unfold gather
      rw [hruns]
      show (readRuns read w ⟨[], []⟩ _ >>= _) = _
      rw [hs]
      rfl
    cases h.symm.trans herr
    exact readRuns_error _ _ hs
  | ok s =>
    have hmem : ∀ p ∈ (slice perm first count).mergeSort, p < 2 ^ 32 := fun p hp =>
      hperm p (List.mem_of_mem_drop (List.mem_of_mem_take (List.mem_mergeSort.mp hp)))
    have hfound := readRuns_found _ _ s (fun run hrun => toRuns_le hrun hmem) hs
    obtain ⟨copied, hc⟩ := exists_mapM_ok (f := copyUnit fn name s w) (l := slice perm first count) fun p hp => by
      obtain ⟨off, hoff⟩ := Option.isSome_iff_exists.mp
        (hfound p (.inl ((toRuns_covers _ p).mpr (List.mem_mergeSort.mpr hp))))
      exact ⟨slice s.bytes off w, by rw [copyUnit, hoff]⟩
    have hok : gather fn name read perm first count w = .ok copied.flatten :=
      bind_eq_ok.mpr ⟨_, hruns, bind_eq_ok.mpr ⟨s, hs, bind_eq_ok.mpr ⟨copied, hc, rfl⟩⟩⟩
    cases h.symm.trans hok

/-! ### Both sides -/

/-- The units that `idx` names, one behind the other. -/
structure Gathered (data : Bytes) (w : Nat) (idx : List Nat) (out : Bytes) : Prop where
  length : out.length = idx.length * w
  unit_eq : ∀ i q, idx[i]? = some q → unit out w i = unit data w q

theorem gathered_units {data : Bytes} {w n : Nat} (hdata : data.length = n * w) {idx : List Nat} (hidx : ∀ q ∈ idx, q < n) :
    Gathered data w idx (units data w idx) := by
  have hle : ∀ q ∈ idx, (q + 1) * w ≤ data.length := fun q hq => hdata ▸ Nat.mul_le_mul_right w (hidx q hq)
  refine ⟨length_units _ _ _ hle, fun i q hi => ?_⟩
  obtain ⟨hlt, rfl⟩ := List.getElem?_eq_some_iff.mp hi
  exact unit_units _ _ _ hle i hlt

section
variable {perm : List Nat} {n w : Nat} {data : Bytes}

/-- The writer's gather, out of a source that reads the rows. -/
theorem gatherBaseUnits_eq {base : TensorSource} {name : String} (hr : base.ReadsRows name data w) {first count : Nat}
    (hle : first + count ≤ perm.length) (hperm : ∀ p ∈ perm, p < n) (hn : n ≤ 2 ^ 32) (hdata : n * w ≤ data.length) :
    gatherBaseUnits base name perm first count w = .ok (units data w (slice perm first count)) := by
  refine gather_eq _ _ hle hperm hn hdata fun run _ _ hrun => ?_
  unfold readRun
  rw [hr run.first run.count _ ((Nat.mul_le_mul_right w hrun).trans hdata) List.length_replicate]
  rfl

/-- The reader's gather, out of a base that reads any range. No permutation is an
axis of no units. -/
theorem gatherBaseBytes_units {readBase : BaseRead} (hr : Reads readBase data) (name : String) {first count : Nat}
    (hle : first + count ≤ perm.length) (hperm : ∀ p ∈ perm, p < perm.length) (hn : perm.length ≤ 2 ^ 32)
    (hdata : data.length = perm.length * w) (h64 : data.length < 2 ^ 64) (hmax : count * w < kMaxVector) :
    gatherBaseBytes readBase name perm first (first + count) w = .ok (units data w (slice perm first count)) := by
  have hcount : first + count - first = count := Nat.add_sub_cancel_left _ _
  have hread := gatherBaseBytes_eq hr name (fun p hp => ⟨hperm p hp, (hperm p hp).trans_le hn⟩) (.inr rfl) hdata h64
    (Nat.le_add_right first count) hle (by omega) (by rwa [hcount])
  rw [hcount] at hread
  rw [hread]
  cases perm with
  | nil =>
    cases (by simpa using hle : first = 0 ∧ count = 0).2
    rw [Nat.zero_mul, slice_zero_len, slice_zero_len, units_nil]
  | cons p rest =>
    show Except.ok (slice (units data w (p :: rest)) _ _) = _
    rw [slice_units _ (index_le hperm hdata) hle]

/-- The naive gather: one copy for each unit. -/
theorem permuteUnits_eq {idx : List Nat} (hidx : ∀ p ∈ idx, p < n) (hlen : idx.length ≤ n) (hdata : data.length = n * w) :
    permuteUnits data idx w = .ok (units data w idx) :=
  if_pos ⟨hdata ▸ Nat.mul_le_mul_right w hlen, fun p hp => hdata ▸ Nat.mul_le_mul_right w (hidx p hp)⟩

end

/-! ### Expanded permutations -/

theorem expand_perm {p : List Nat} {n b : Nat} (hp : p.Perm (List.range n)) (hb : n * b ≤ 2 ^ 32) :
    (expand p b).Perm (List.range (n * b)) := by
  have hflat : (expandPermutation p b).Perm (expandPermutation (List.range n) b) := hp.flatMap_right _
  rwa [expandPermutation_range n b hb] at hflat

/-- What is known of a range of an expanded permutation, before anything is read. -/
structure RangeRuns (perm : List Nat) (first count : Nat) (runs : List UnitRun) : Prop where
  runs_eq : dependencyRuns perm first count = .ok runs
  runsOf : RunsOf (slice perm first count) runs
  -- A gather that fails passes on the failure of a run, so no unit was missing.
  missing : ∀ fn name (read : UnitRun → Outcome Bytes) w e, gather fn name read perm first count w = .error e →
    ∃ run ∈ runs, read run = .error e

theorem rangeRuns {perm : List Nat} {n first count : Nat} (hp : perm.Perm (List.range n)) (hn : n ≤ 2 ^ 32)
    (hle : first + count ≤ n) : ∃ runs, RangeRuns perm first count runs := by
  have hlen : perm.length = n := hp.length_eq.trans List.length_range
  obtain ⟨runs, hruns, hof⟩ := dependencyRuns_spec (hp.nodup_iff.mpr List.nodup_range) (hlen ▸ hle)
  refine ⟨runs, hruns, hof, fun fn name read w e h => ?_⟩
  obtain ⟨runs', hruns', run, hmem, herr⟩ := gather_error (hlen ▸ hle)
    (fun p hmem => (List.mem_range.mp (hp.mem_iff.mp hmem)).trans_le hn) h
  cases hruns.symm.trans hruns'
  exact ⟨run, hmem, herr⟩

/-- Writer and reader gather what the naive loop copies: the base unit that the
expanded permutation names, for every unit of the range. -/
theorem gathers_agree {p : List Nat} {n b : Nat} (hp : p.Perm (List.range n)) (hb : n * b < 2 ^ 32) :
    (expand p b).Perm (List.range (n * b)) ∧
    ∀ first count, first + count ≤ n * b →
      (∃ runs, RangeRuns (expand p b) first count runs) ∧
      ∀ (w : Nat) (data : Bytes) (name : String), data.length = n * b * w → data.length < 2 ^ 64 →
        count * w < kMaxVector →
        ∃ out, permuteUnits data (slice (expand p b) first count) w = .ok out ∧
          Gathered data w (slice (expand p b) first count) out ∧
          (∀ base : TensorSource, base.ReadsRows name data w →
            gatherBaseUnits base name (expand p b) first count w = .ok out) ∧
          ∀ readBase : BaseRead, Reads readBase data →
            gatherBaseBytes readBase name (expand p b) first (first + count) w = .ok out := by
  have hexp := expand_perm hp hb.le
  have hlen : (expand p b).length = n * b := hexp.length_eq.trans List.length_range
  have hlt : ∀ q ∈ expand p b, q < n * b := fun q hq => List.mem_range.mp (hexp.mem_iff.mp hq)
  refine ⟨hexp, fun first count hle => ⟨rangeRuns hexp hb.le hle, fun w data name hdata h64 hmax => ?_⟩⟩
  have hslice : ∀ q ∈ slice (expand p b) first count, q < n * b := fun q hq =>
    hlt q (List.mem_of_mem_drop (List.mem_of_mem_take hq))
  refine ⟨_, permuteUnits_eq hslice (by rw [length_slice]; omega) hdata, gathered_units hdata hslice,
    fun base hr => gatherBaseUnits_eq hr (hlen ▸ hle) hlt hb.le hdata.ge, fun readBase hr => ?_⟩
  exact gatherBaseBytes_units hr name (hlen ▸ hle) (hlen.symm ▸ hlt) (hlen.symm ▸ hb.le) (hlen.symm ▸ hdata) h64 hmax

/-- A source that reads the rows of a buffer. -/
def rowSource (data : Bytes) (w : Nat) : TensorSource where
  bufferLayout := []
  tensorMeta _ := none
  readUnits _ first count out := .ok (count * w, filled (slice data (first * w) (count * w)) out)

theorem rowSource_reads (data : Bytes) (w : Nat) (name : String) : (rowSource data w).ReadsRows name data w := by
  intro first count out hle hout
  have hlen : (slice data (first * w) (count * w)).length = out.length := by
    rw [Nat.add_mul] at hle
    rw [length_slice, hout]
    omega
  show Except.ok (_, filled _ out) = _
  rw [filled_of_length_eq hlen]

/-- A base that reads any range of a buffer. -/
def byteRead (data : Bytes) : BaseRead := fun off out =>
  .ok ((slice data off out.length).length, filled (slice data off out.length) out)

theorem byteRead_reads (data : Bytes) : Reads (byteRead data) data := fun _ _ _ _ => rfl

theorem gathers_agree_rotated :
    (expand [2, 0, 1] 2).Perm (List.range 6) ∧ (∃ runs, RangeRuns (expand [2, 0, 1] 2) 1 4 runs) ∧
      gatherBaseUnits (rowSource [10, 11, 12, 13, 14, 15] 1) "w" (expand [2, 0, 1] 2) 1 4 1 = .ok [15, 10, 11, 12] ∧
      gatherBaseBytes (byteRead [10, 11, 12, 13, 14, 15]) "w" (expand [2, 0, 1] 2) 1 5 1 = .ok [15, 10, 11, 12] := by
  have hp : [2, 0, 1].Perm (List.range 3) := by decide
  obtain ⟨hexp, hall⟩ := gathers_agree (b := 2) hp (by decide)
  obtain ⟨hruns, hgather⟩ := hall 1 4 (by decide)
  obtain ⟨out, hnaive, -, hunits, hbytes⟩ := hgather 1 [10, 11, 12, 13, 14, 15] "w" rfl (by decide) (by decide)
  have hout : permuteUnits [10, 11, 12, 13, 14, 15] (slice (expand [2, 0, 1] 2) 1 4) 1 = .ok [15, 10, 11, 12] := rfl
  cases hnaive.symm.trans hout
  exact ⟨hexp, hruns, hunits _ (rowSource_reads _ _ _), hbytes _ (byteRead_reads _)⟩

end SynapseFs.Codec
