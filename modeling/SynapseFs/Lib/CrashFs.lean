import Mathlib.Logic.Function.Basic
import Mathlib.Data.List.GetD

/-! Files on a disk that may lose power.

A name stands for a file or for nothing; files are numbered, and a file keeps its number
when it is renamed. What is written is in memory first. `fsync` of a file makes its
content certain, and a sync of a directory makes its names certain; until then a crash
may leave any bytes in the file, and each name by itself as any of the things it has
been since the last sync.

`Certain` is a property of what a name leads to that no crash can take away. -/
namespace SynapseFs.Lib

variable {ν γ : Type}

structure Inode (γ : Type) where
  content : γ
  /-- What a crash leaves; without it, anything. -/
  durable : Option γ

structure CrashFs (ν γ : Type) where
  inodes : List (Inode γ)
  names : ν → Option Nat
  /-- What else a crash may leave a name as. -/
  past : ν → List (Option Nat)

namespace CrashFs

/-! ### Calls -/

/-- The content behind a name. -/
def contentAt (fs : CrashFs ν γ) : Option Nat → Option γ
  | none => none
  | some i => fs.inodes[i]?.map Inode.content

def read (fs : CrashFs ν γ) (n : ν) : Option γ := fs.contentAt (fs.names n)

/-- A name stands for something else from now on. -/
def bind [DecidableEq ν] (fs : CrashFs ν γ) (n : ν) (target : Option Nat) : CrashFs ν γ where
  inodes := fs.inodes
  names := Function.update fs.names n target
  past := Function.update fs.past n (fs.names n :: fs.past n)

@[simp] theorem bind_inodes [DecidableEq ν] (fs : CrashFs ν γ) (n : ν) (target : Option Nat) :
    (fs.bind n target).inodes = fs.inodes := rfl

theorem bind_names [DecidableEq ν] (fs : CrashFs ν γ) (n m : ν) (target : Option Nat) :
    (fs.bind n target).names m = if m = n then target else fs.names m := Function.update_apply _ _ _ _

theorem bind_past [DecidableEq ν] (fs : CrashFs ν γ) (n m : ν) (target : Option Nat) :
    (fs.bind n target).past m = if m = n then fs.names n :: fs.past n else fs.past m := Function.update_apply _ _ _ _

/-- A new file, under its number. -/
def alloc (fs : CrashFs ν γ) (content : γ) : CrashFs ν γ := { fs with inodes := fs.inodes ++ [⟨content, none⟩] }

def create [DecidableEq ν] (fs : CrashFs ν γ) (n : ν) (empty : γ) : CrashFs ν γ := (fs.alloc empty).bind n (some fs.inodes.length)

def write (fs : CrashFs ν γ) (i : Nat) (content : γ) : CrashFs ν γ :=
  { fs with inodes := fs.inodes.set i ⟨content, none⟩ }

def fsync (fs : CrashFs ν γ) (i : Nat) : CrashFs ν γ :=
  { fs with inodes := fs.inodes.modify i fun x => ⟨x.content, some x.content⟩ }

def unlink [DecidableEq ν] (fs : CrashFs ν γ) (n : ν) : CrashFs ν γ := fs.bind n none

def rename [DecidableEq ν] (fs : CrashFs ν γ) (src dst : ν) : CrashFs ν γ := (fs.bind dst (fs.names src)).bind src none

/-- The names of a directory, synced. -/
def syncDir (fs : CrashFs ν γ) (inDir : ν → Bool) : CrashFs ν γ :=
  { fs with past := fun n => if inDir n then [] else fs.past n }

/-- The power fails: `pick` says what is left of each name, `garbage` what is in a file that is not certain. -/
def crash (fs : CrashFs ν γ) (pick : ν → Nat) (garbage : Nat → γ) : CrashFs ν γ where
  inodes := fs.inodes.mapIdx fun i x => ⟨x.durable.getD (garbage i), some (x.durable.getD (garbage i))⟩
  names n := (fs.names n :: fs.past n).getD (pick n) (fs.names n)
  past _ := []

/-- Only these names are left. -/
def keep (fs : CrashFs ν γ) (left : ν → Bool) : CrashFs ν γ where
  inodes := fs.inodes
  names n := if left n then fs.names n else none
  past n := if left n then fs.past n else []

/-! ### What is certain -/

/-- A file that a crash leaves as it is. -/
def Kept (fs : CrashFs ν γ) (i : Nat) : Prop := ∃ x, fs.inodes[i]? = some x ∧ x.durable = some x.content

/-- Whatever a crash makes of the name, it leads to nothing or to a file that is kept, and `P` holds of that. -/
def Certain (fs : CrashFs ν γ) (n : ν) (P : Option γ → Prop) : Prop :=
  ∀ t ∈ fs.names n :: fs.past n, (∀ i, t = some i → fs.Kept i) ∧ P (fs.contentAt t)

variable {fs fs' : CrashFs ν γ} {n m : ν} {P Q : Option γ → Prop}

theorem Certain.read (h : fs.Certain n P) : P (fs.read n) := (h _ List.mem_cons_self).2

theorem Certain.mono (h : fs.Certain n P) (hPQ : ∀ r, P r → Q r) : fs.Certain n Q := fun t ht =>
  ⟨(h t ht).1, hPQ _ (h t ht).2⟩

/-- Files that are kept are as they were, and the name is what it was or could become. -/
theorem Certain.of_sub (h : fs.Certain n P) (hnames : ∀ t ∈ fs'.names n :: fs'.past n, t ∈ fs.names n :: fs.past n)
    (hkept : ∀ i, fs.Kept i → fs'.Kept i ∧ fs'.contentAt (some i) = fs.contentAt (some i)) : fs'.Certain n P := by
  intro t ht
  obtain ⟨hk, hp⟩ := h t (hnames t ht)
  refine ⟨fun i hi => (hkept i (hk i hi)).1, ?_⟩
  cases t with
  | none => exact hp
  | some i =>
    rw [(hkept i (hk i rfl)).2]
    exact hp

theorem Kept.lt {i : Nat} (h : fs.Kept i) : i < fs.inodes.length := by
  obtain ⟨x, hx, -⟩ := h
  exact (List.getElem?_eq_some_iff.mp hx).1

theorem Certain.bind_ne [DecidableEq ν] (h : fs.Certain n P) {target : Option Nat} (hne : n ≠ m) :
    (fs.bind m target).Certain n P := by
  refine h.of_sub (fun t ht => ?_) fun i hi => ⟨hi, rfl⟩
  rwa [bind_names, bind_past, if_neg hne, if_neg hne] at ht

/-- A name that is bound anew may also be found as it was. -/
theorem Certain.bind_self [DecidableEq ν] (h : fs.Certain n P) {target : Option Nat} (hkept : ∀ i, target = some i → fs.Kept i)
    (hp : P (fs.contentAt target)) : (fs.bind n target).Certain n P := by
  intro t ht
  rw [bind_names, bind_past, if_pos rfl, if_pos rfl] at ht
  rcases List.mem_cons.mp ht with rfl | ht
  · exact ⟨hkept, hp⟩
  · exact h t ht

theorem Certain.alloc (h : fs.Certain n P) (content : γ) : (fs.alloc content).Certain n P := by
  refine h.of_sub (fun t ht => ht) fun i hi => ?_
  have hlt := hi.lt
  obtain ⟨x, hx, hd⟩ := hi
  have hget : (fs.alloc content).inodes[i]? = some x := by rw [CrashFs.alloc, List.getElem?_append_left hlt, hx]
  exact ⟨⟨x, hget, hd⟩, by rw [contentAt, contentAt, hget, hx]⟩

/-- A file that is not kept is not behind the name. -/
theorem Certain.write (h : fs.Certain n P) {i : Nat} (hloose : ¬fs.Kept i) (content : γ) : (fs.write i content).Certain n P := by
  refine h.of_sub (fun t ht => ht) fun j hj => ?_
  have hne : i ≠ j := fun heq => hloose (heq ▸ hj)
  obtain ⟨x, hx, hd⟩ := hj
  have hget : (fs.write i content).inodes[j]? = some x := by rw [CrashFs.write, List.getElem?_set_ne hne, hx]
  exact ⟨⟨x, hget, hd⟩, by rw [contentAt, contentAt, hget, hx]⟩

theorem fsync_kept {i j : Nat} (h : fs.Kept j) :
    (fs.fsync i).Kept j ∧ (fs.fsync i).contentAt (some j) = fs.contentAt (some j) := by
  obtain ⟨x, hx, hd⟩ := h
  by_cases hij : i = j
  · have hget : (fs.fsync i).inodes[j]? = some ⟨x.content, some x.content⟩ := by
      rw [fsync, List.getElem?_modify, hx]
      exact congrArg some (if_pos hij)
    exact ⟨⟨_, hget, rfl⟩, by rw [contentAt, contentAt, hget, hx]; rfl⟩
  · have hget : (fs.fsync i).inodes[j]? = some x := by
      rw [fsync, List.getElem?_modify, hx]
      exact congrArg some (if_neg hij)
    exact ⟨⟨x, hget, hd⟩, by rw [contentAt, contentAt, hget, hx]⟩

theorem Certain.fsync (h : fs.Certain n P) (i : Nat) : (fs.fsync i).Certain n P :=
  h.of_sub (fun _ ht => ht) fun _ => fsync_kept

theorem Certain.syncDir (h : fs.Certain n P) (inDir : ν → Bool) : (fs.syncDir inDir).Certain n P := by
  refine h.of_sub (fun t ht => ?_) fun i hi => ⟨hi, rfl⟩
  rw [CrashFs.syncDir] at ht
  dsimp only at ht
  split at ht
  · rw [List.mem_singleton.mp ht]
    exact List.mem_cons_self
  · exact ht

/-- What a name of the directory is now is all that a crash can leave. -/
theorem certain_syncDir {inDir : ν → Bool} (hin : inDir n = true) (hkept : ∀ i, fs.names n = some i → fs.Kept i)
    (hp : P (fs.read n)) : (fs.syncDir inDir).Certain n P := by
  intro t ht
  rw [CrashFs.syncDir] at ht
  dsimp only at ht
  rw [if_pos hin] at ht
  rw [List.mem_singleton.mp ht]
  exact ⟨hkept, hp⟩

theorem Certain.crash (h : fs.Certain n P) (pick : ν → Nat) (garbage : Nat → γ) : (fs.crash pick garbage).Certain n P := by
  refine h.of_sub (fun t ht => ?_) fun i hi => ?_
  · rw [List.mem_singleton.mp ht]
    show (fs.names n :: fs.past n).getD (pick n) (fs.names n) ∈ _
    rcases Nat.lt_or_ge (pick n) (fs.names n :: fs.past n).length with hlt | hge
    · rw [List.getD_eq_getElem _ _ hlt]
      exact List.getElem_mem hlt
    · rw [List.getD_eq_default _ _ hge]
      exact List.mem_cons_self
  · obtain ⟨x, hx, hd⟩ := hi
    have hget : (fs.crash pick garbage).inodes[i]? = some ⟨x.content, some x.content⟩ := by
      rw [CrashFs.crash, List.getElem?_mapIdx, hx, Option.map_some, hd]
      rfl
    exact ⟨⟨_, hget, rfl⟩, by rw [contentAt, contentAt, hget, hx]; rfl⟩

theorem Certain.keep (h : fs.Certain n P) {left : ν → Bool} (hleft : left n = true ∨ P none) : (fs.keep left).Certain n P := by
  intro t ht
  by_cases hn : left n = true
  · refine h t ?_
    simpa only [CrashFs.keep, hn, if_true] using ht
  · have hnone : t = none := by simpa only [CrashFs.keep, hn, if_false, List.mem_singleton, Bool.false_eq_true] using ht
    subst hnone
    exact ⟨nofun, hleft.resolve_left hn⟩

end CrashFs

end SynapseFs.Lib
