import SynapseFs.Store.Refs

/-! The write-ahead journal of merges.

One file `j.<seq>` per pending record. Records are written whole (temporary file
and rename) and a torn one is refused by its digest, so a record is a value here.
`recover` replays what is pending: the same compare-and-swap again. -/
namespace SynapseFs.Store
open Lib Core

inductive JournalOp where
  | merge | pack
  deriving DecidableEq, Repr

structure JournalRecord where
  formatVersion : Nat := 1
  op : JournalOp
  seq : Nat := 0
  timestamp : String
  /-- The ref, its expected old value and its new value. -/
  refName : String
  refOld : Option Oid
  refNew : Option Oid
  packName : String := ""
  subsumed : List Oid := []
  deriving DecidableEq, Repr

/-- The record files by sequence number. -/
structure Journal where
  records : FinMap Nat JournalRecord

namespace Journal

def empty : Journal := ⟨.empty⟩

/-- Written before the first mutation, over a record of the same number. -/
def begin (j : Journal) (rec : JournalRecord) : Journal := ⟨j.records.insert rec.seq rec⟩

/-- Removed after the last mutation. -/
def commit (j : Journal) (seq : Nat) : Journal := ⟨j.records.erase seq⟩

def pending (j : Journal) : List JournalRecord := j.records.entries.map Prod.snd

/-- A ref that has its new value already is left; one that was moved by another
update is left too. -/
def replay (objects : List Oid) (refs : RefStore) (rec : JournalRecord) : RefStore × Outcome Unit :=
  match rec.op with
  | .pack =>
    (refs, sfsErr .notImplemented "journal contains a Pack record; packfiles are not supported by this build"
      rec.packName)
  | .merge =>
    match settle (refs.resolve objects rec.refName), rec.refNew with
    | .error failure, _ => (refs, .error failure)
    | .ok _, none => (refs, .ok ())
    | .ok current, some new =>
      if current = .ok new then (refs, .ok ())
      else
        match refs.update rec.refName rec.refOld new with
        | (refs, .error (.error e)) => (refs, if e.kind = .refRaceLost then .ok () else .error (.error e))
        | (refs, other) => (refs, other)

def recoverLoop (objects : List Oid) : Journal → RefStore → List JournalRecord → (Journal × RefStore) × Outcome Unit
  | j, refs, [] => ((j, refs), .ok ())
  | j, refs, rec :: rest =>
    match replay objects refs rec with
    | (refs, .error failure) => ((j, refs), .error failure)
    | (refs, .ok ()) => recoverLoop objects (j.commit rec.seq) refs rest

def recover (j : Journal) (objects : List Oid) (refs : RefStore) : (Journal × RefStore) × Outcome Unit :=
  recoverLoop objects j refs j.pending

theorem mem_pending {j : Journal} {rec : JournalRecord} : rec ∈ j.pending ↔ ∃ seq, j.records.get? seq = some rec := by
  rw [pending, List.mem_map]
  constructor
  · rintro ⟨⟨seq, rec'⟩, hmem, rfl⟩
    exact ⟨seq, FinMap.get?_eq_some.mpr hmem⟩
  · rintro ⟨seq, h⟩
    exact ⟨(seq, rec), FinMap.get?_eq_some.mp h, rfl⟩

theorem pending_begin {j : Journal} {rec rec' : JournalRecord} (h : rec' ∈ (j.begin rec).pending) :
    rec' = rec ∨ rec' ∈ j.pending := by
  obtain ⟨seq, h⟩ := mem_pending.mp h
  rw [begin, FinMap.get?_insert] at h
  split at h
  · cases h
    exact .inl rfl
  · exact .inr (mem_pending.mpr ⟨seq, h⟩)

theorem pending_commit {j : Journal} {seq : Nat} {rec : JournalRecord} (h : rec ∈ (j.commit seq).pending) :
    rec ∈ j.pending := by
  obtain ⟨s, h⟩ := mem_pending.mp h
  rw [commit, FinMap.get?_erase] at h
  split at h
  · cases h
  · exact mem_pending.mpr ⟨s, h⟩

/-- What a replay can do to the refs: nothing, or the update its record describes. -/
theorem replay_refs (objects : List Oid) (refs : RefStore) (rec : JournalRecord) :
    (replay objects refs rec).1 = refs ∨ ∃ new, rec.op = .merge ∧ rec.refNew = some new ∧
      (replay objects refs rec).1 = (refs.update rec.refName rec.refOld new).1 := by
  unfold replay
  split
  · exact .inl rfl
  · next hop =>
    split
    · exact .inl rfl
    · exact .inl rfl
    · next new hres hnew =>
      split
      · exact .inl rfl
      · refine .inr ⟨new, hop, hnew, ?_⟩
        split
        · next h => rw [h]
        · next h => rw [h]

/-- The rule for recovery: what every update of a pending record preserves holds
of the refs afterwards, and no record appears. -/
theorem recover_run {I : RefStore → Prop} {j : Journal} (objects : List Oid)
    (hstep : ∀ refs rec new, I refs → rec ∈ j.pending → rec.op = .merge → rec.refNew = some new →
      I (refs.update rec.refName rec.refOld new).1) {refs : RefStore} (h : I refs) :
    I (j.recover objects refs).1.2 ∧ ∀ rec ∈ (j.recover objects refs).1.1.pending, rec ∈ j.pending := by
  have hloop : ∀ (recs : List JournalRecord) (j' : Journal) (refs : RefStore), (∀ rec ∈ recs, rec ∈ j.pending) →
      (∀ rec ∈ j'.pending, rec ∈ j.pending) → I refs → I (recoverLoop objects j' refs recs).1.2 ∧
        ∀ rec ∈ (recoverLoop objects j' refs recs).1.1.pending, rec ∈ j.pending := by
    intro recs
    induction recs with
    | nil => exact fun j' refs _ hj hi => ⟨hi, hj⟩
    | cons rec rest ih =>
      intro j' refs hrecs hj hi
      have hreplay : I (replay objects refs rec).1 := by
        rcases replay_refs objects refs rec with he | ⟨new, hop, hnew, he⟩
        · rw [he]
          exact hi
        · rw [he]
          exact hstep refs rec new hi (hrecs rec List.mem_cons_self) hop hnew
      unfold recoverLoop
      split
      · next h =>
        rw [h] at hreplay
        exact ⟨hreplay, hj⟩
      · next h =>
        rw [h] at hreplay
        exact ih _ _ (fun r hr => hrecs r (List.mem_cons_of_mem _ hr)) (fun r hr => hj r (pending_commit hr)) hreplay
  exact hloop j.pending j refs (fun _ h => h) (fun _ h => h) h

end Journal

end SynapseFs.Store
