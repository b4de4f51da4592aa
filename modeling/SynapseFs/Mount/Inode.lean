import Mathlib.Data.List.Sort
import SynapseFs.Format.Manifest

/-! The interval table: which part of the file comes from where.

`IntervalTable::build` walks the manifest's buffer once. The group of an entry is
known by its position among the group names, a 32-bit number, and a cursor for each
group says how far into the group's bytes the next entry starts. A file whose
entries own their groups has a table with one interval an entry, each at the start
of its group (`build_eq`), as long as the positions fit 32 bits; one entry more and
the vector of cursors is resized to nothing before it is read (`build_overflow`). -/
namespace SynapseFs.Mount
open Lib Core Format

structure Interval where
  fileOffset : Nat
  length : Nat
  groupOffset : Nat
  groupIndex : Nat
  isHeader : Bool
  deriving DecidableEq, Repr

structure IntervalTable where
  intervals : List Interval
  groups : List String
  totalBytes : Nat

/-! ### Building -/

/-- What the loop of `build` keeps. -/
structure Builder where
  groups : List String
  groupCursor : List Nat
  intervals : List Interval

namespace Builder

/-- `group_index_for`: the position of the name, and the names with it. -/
def groupIndexFor (groups : List String) (name : String) : Nat × List String :=
  match groups.findIdx? fun g => g = name with
  | some i => (u32 i, groups)
  | none => (u32 groups.length, groups ++ [name])

/-- `v.resize(n, 0)`. -/
def resize (v : List Nat) (n : Nat) : List Nat := v.take n ++ List.replicate (n - v.length) 0

/-- One buffer entry. `gi + 1` is a 32-bit sum. -/
def addEntry (s : Builder) (e : Format.BufferEntry) : Outcome Builder :=
  let (gi, groups) := groupIndexFor s.groups e.group
  let cursors := if s.groupCursor.length ≤ gi then resize s.groupCursor (u32 (gi + 1)) else s.groupCursor
  match cursors[gi]? with
  | none => .error (.undefined "group_cursor read outside the vector")
  | some cursor => .ok
    { groups := groups
      groupCursor := cursors.set gi (u64 (cursor + e.nbytes))
      intervals := s.intervals ++ [⟨e.off, e.nbytes, cursor, gi, false⟩] }

end Builder

namespace IntervalTable

def headerLen (m : Manifest) : Nat :=
  match m.buffer with
  | [] => m.file.totalBytes
  | first :: _ => first.off

def headerInterval (len : Nat) : List Interval := if 0 < len then [⟨0, len, 0, 0, true⟩] else []

/-- `IntervalTable::build`. No two offsets of a valid manifest are equal, so the order `std::sort` gives to
equal ones does not matter. -/
def build (m : Manifest) : Outcome IntervalTable := do
  m.validate
  let b ← m.buffer.foldlM Builder.addEntry ⟨[], [], headerInterval (headerLen m)⟩
  return ⟨b.intervals.insertionSort fun a b => a.fileOffset ≤ b.fileOffset, b.groups, m.file.totalBytes⟩

/-- `IntervalTable::find`. `upper_bound` is the end of the run of intervals that start at or before `offset`. -/
def find (t : IntervalTable) (offset : Nat) : Option Interval :=
  if t.totalBytes ≤ offset ∨ t.intervals = [] then none
  else
    match (t.intervals.takeWhile fun iv => iv.fileOffset ≤ offset).getLast? with
    | none => none
    | some iv => if offset < iv.fileOffset ∨ u64 (iv.fileOffset + iv.length) ≤ offset then none else some iv

def groupName (t : IntervalTable) (index : Nat) : String := t.groups.getD index ""

end IntervalTable

/-! ### The loop over the entries -/

namespace Builder

variable {s : Builder} {e : Format.BufferEntry}

theorem groupIndexFor_new {groups : List String} {name : String} (h : name ∉ groups) :
    groupIndexFor groups name = (u32 groups.length, groups ++ [name]) := by
  have hnone : groups.findIdx? (fun g => decide (g = name)) = none := by
    rw [List.findIdx?_eq_none_iff]
    intro g hg
    exact decide_eq_false fun heq => h (heq ▸ hg)
  rw [groupIndexFor, hnone]

/-- Names and cursors are as many as entries so far, and the next entry's group is a new one. -/
structure Fresh (s : Builder) (e : Format.BufferEntry) : Prop where
  cursors : s.groupCursor.length = s.groups.length
  new : e.group ∉ s.groups

/-- What an entry with a group of its own adds. -/
def push (s : Builder) (e : Format.BufferEntry) : Builder where
  groups := s.groups ++ [e.group]
  groupCursor := s.groupCursor ++ [e.nbytes]
  intervals := s.intervals ++ [⟨e.off, e.nbytes, 0, s.groups.length, false⟩]

theorem addEntry_new (h : s.Fresh e) (hfit : s.groups.length + 1 < 2 ^ 32) (hbytes : e.nbytes < 2 ^ 64) :
    s.addEntry e = .ok (s.push e) := by
  have hgi : u32 s.groups.length = s.groups.length := u32_of_lt (by omega)
  have hresize : resize s.groupCursor (s.groups.length + 1) = s.groupCursor ++ [0] := by
    rw [resize, List.take_of_length_le (by rw [h.cursors]; omega), h.cursors, Nat.add_sub_cancel_left]
    rfl
  unfold addEntry
  rw [groupIndexFor_new h.new]
  dsimp only
  rw [hgi, u32_of_lt hfit, if_pos (by rw [h.cursors]), hresize, ← h.cursors, List.getElem?_concat_length]
  dsimp only
  rw [Nat.zero_add, u64_of_lt hbytes, push, h.cursors]
  congr 1
  rw [← h.cursors]
  simp

/-- The entry whose position is the last 32-bit number: `resize(0)`, and then the vector is read. -/
theorem addEntry_overflow (h : s.Fresh e) (hfull : s.groups.length + 1 = 2 ^ 32) :
    s.addEntry e = .error (.undefined "group_cursor read outside the vector") := by
  have hgi : u32 s.groups.length = s.groups.length := u32_of_lt (by omega)
  have hwrap : u32 (s.groups.length + 1) = 0 := by rw [u32, hfull, Nat.mod_self]
  have hresize : resize s.groupCursor 0 = [] := by
    rw [resize, List.take_zero, Nat.zero_sub]
    rfl
  unfold addEntry
  rw [groupIndexFor_new h.new]
  dsimp only
  rw [hgi, hwrap, if_pos (by rw [h.cursors]), hresize, List.getElem?_nil]

/-- The entries still to come have groups of their own. -/
structure Owned (s : Builder) (l : List Format.BufferEntry) : Prop where
  cursors : s.groupCursor.length = s.groups.length
  new : ∀ e ∈ l, e.group ∉ s.groups
  distinct : (l.map Format.BufferEntry.group).Nodup

theorem Owned.step {rest : List Format.BufferEntry} (h : s.Owned (e :: rest)) : s.Fresh e ∧ (s.push e).Owned rest := by
  obtain ⟨hnot, hdistinct⟩ := List.nodup_cons.mp (List.map_cons ▸ h.distinct)
  refine ⟨⟨h.cursors, h.new e List.mem_cons_self⟩, ⟨?_, ?_, hdistinct⟩⟩
  · simp [push, h.cursors]
  · intro e' he' hmem
    rcases List.mem_append.mp hmem with hold | heq
    · exact h.new e' (List.mem_cons_of_mem _ he') hold
    · rw [List.mem_singleton] at heq
      exact hnot (heq ▸ List.mem_map_of_mem he')

/-- The intervals of entries with groups of their own, the first of them group number `k`. -/
def layout (l : List Format.BufferEntry) (k : Nat) : List Interval :=
  (l.zipIdx k).map fun e => ⟨e.1.off, e.1.nbytes, 0, e.2, false⟩

theorem addEntries_eq {l : List Format.BufferEntry} (hbytes : ∀ e ∈ l, e.nbytes < 2 ^ 64) : ∀ {s : Builder}, s.Owned l →
    s.groups.length + l.length < 2 ^ 32 → ∃ cursors, l.foldlM addEntry s =
      .ok ⟨s.groups ++ l.map Format.BufferEntry.group, cursors, s.intervals ++ layout l s.groups.length⟩ := by
  induction l with
  | nil =>
    intro s _ _
    refine ⟨s.groupCursor, ?_⟩
    simp [layout, pure, Except.pure]
  | cons e rest ih =>
    intro s h hfit
    obtain ⟨hfresh, hrest⟩ := h.step
    rw [List.length_cons] at hfit
    have hlen : (s.push e).groups.length = s.groups.length + 1 := by simp [push]
    obtain ⟨cursors, hloop⟩ := ih (fun e' he' => hbytes e' (List.mem_cons_of_mem _ he')) hrest (by omega)
    refine ⟨cursors, ?_⟩
    rw [List.foldlM_cons]
    refine bind_eq_ok.mpr ⟨_, addEntry_new hfresh (by omega) (hbytes e List.mem_cons_self), hloop.trans ?_⟩
    rw [hlen]
    simp [push, layout, List.zipIdx_cons]

theorem addEntries_overflow {l : List Format.BufferEntry} (hbytes : ∀ e ∈ l, e.nbytes < 2 ^ 64) : ∀ {s : Builder},
    s.Owned l → s.groups.length < 2 ^ 32 → 2 ^ 32 ≤ s.groups.length + l.length →
      l.foldlM addEntry s = .error (.undefined "group_cursor read outside the vector") := by
  induction l with
  | nil =>
    intro s _ hlt hge
    rw [List.length_nil, Nat.add_zero] at hge
    exact absurd hlt (not_lt.mpr hge)
  | cons e rest ih =>
    intro s h hlt hge
    obtain ⟨hfresh, hrest⟩ := h.step
    rw [List.length_cons] at hge
    have hlen : (s.push e).groups.length = s.groups.length + 1 := by simp [push]
    rw [List.foldlM_cons]
    by_cases hfull : s.groups.length + 1 = 2 ^ 32
    · rw [addEntry_overflow hfresh hfull]
      rfl
    · rw [addEntry_new hfresh (by omega) (hbytes e List.mem_cons_self)]
      exact ih (fun e' he' => hbytes e' (List.mem_cons_of_mem _ he')) hrest (by omega) (by omega)

theorem owned_nil {l : List Format.BufferEntry} (intervals : List Interval) (h : (l.map Format.BufferEntry.group).Nodup) :
    Owned ⟨[], [], intervals⟩ l :=
  ⟨rfl, fun _ _ => List.not_mem_nil, h⟩

end Builder

/-! ### The table -/

namespace IntervalTable

/-- What an interval covers of the file. -/
def extent (iv : Interval) : Nat × Nat := (iv.fileOffset, iv.fileOffset + iv.length)

/-- The intervals of a file with a header of `len` bytes. -/
def layout (len : Nat) (l : List Format.BufferEntry) : List Interval := headerInterval len ++ Builder.layout l 0

theorem extent_layout (l : List Format.BufferEntry) (k : Nat) :
    (Builder.layout l k).map extent = l.map Manifest.extent := by
  rw [Builder.layout, List.map_map]
  have hcomp : (fun iv => extent iv) ∘ (fun e : Format.BufferEntry × Nat => ⟨e.1.off, e.1.nbytes, 0, e.2, false⟩) =
      Manifest.extent ∘ Prod.fst := rfl
  rw [hcomp, ← List.map_map, List.zipIdx_map_fst]

theorem headerInterval_tiles {len total : Nat} {l : List (Nat × Nat)} (h : Tiles len l total) :
    Tiles 0 ((headerInterval len).map extent ++ l) total := by
  rw [headerInterval]
  split
  · next hlen =>
    show Tiles 0 ((0, 0 + len) :: l) total
    rw [Nat.zero_add]
    exact .cons hlen h
  · next hlen =>
    rw [Nat.eq_zero_of_not_pos hlen] at h
    exact h

theorem layout_tiles {len total : Nat} {l : List Format.BufferEntry} (h : Tiles len (l.map Manifest.extent) total) :
    Tiles 0 ((layout len l).map extent) total := by
  rw [layout, List.map_append, extent_layout]
  exact headerInterval_tiles h

theorem layout_sorted {len total : Nat} {l : List Format.BufferEntry} (h : Tiles len (l.map Manifest.extent) total) :
    (layout len l).Pairwise fun a b => a.fileOffset ≤ b.fileOffset :=
  (List.pairwise_map.mp (layout_tiles h).pairwise).imp Nat.le_of_lt

/-- What an interval of the table is: the header, or the entry its group number names. -/
theorem mem_layout {len : Nat} {l : List Format.BufferEntry} {iv : Interval} (h : iv ∈ layout len l) :
    iv = ⟨0, len, 0, 0, true⟩ ∨ ∃ e i, l[i]? = some e ∧ iv = ⟨e.off, e.nbytes, 0, i, false⟩ := by
  rcases List.mem_append.mp h with hheader | hentry
  · rw [headerInterval] at hheader
    split at hheader
    · exact Or.inl (List.mem_singleton.mp hheader)
    · cases hheader
  · obtain ⟨⟨e, i⟩, hmem, rfl⟩ := List.mem_map.mp hentry
    exact Or.inr ⟨e, i, List.mk_mem_zipIdx_iff_getElem?.mp hmem, rfl⟩

section
variable {m : Manifest} {first : Format.BufferEntry} {rest : List Format.BufferEntry}

theorem build_eq (hvalid : m.validate = .ok ()) (hbuffer : m.buffer = first :: rest)
    (htiles : Tiles first.off (m.buffer.map Manifest.extent) m.file.totalBytes)
    (howned : (m.buffer.map Format.BufferEntry.group).Nodup) (hbytes : ∀ e ∈ m.buffer, e.nbytes < 2 ^ 64)
    (hfew : m.buffer.length < 2 ^ 32) :
    build m = .ok ⟨layout first.off m.buffer, m.buffer.map Format.BufferEntry.group, m.file.totalBytes⟩ := by
  have hlen : headerLen m = first.off := by rw [headerLen, hbuffer]
  obtain ⟨cursors, hloop⟩ := Builder.addEntries_eq hbytes
    (Builder.owned_nil (headerInterval (headerLen m)) howned) (by simpa using hfew)
  refine bind_eq_ok.mpr ⟨(), hvalid, bind_eq_ok.mpr ⟨_, hloop, ?_⟩⟩
  have hsort := (layout_sorted htiles).insertionSort_eq
  rw [hlen]
  show Except.ok _ = Except.ok _
  congr 1
  simp only [List.nil_append, List.length_nil]
  rw [← layout, hsort]

/-- With 2^32 entries or more the loop reads outside the vector of cursors. -/
theorem build_overflow (hvalid : m.validate = .ok ()) (howned : (m.buffer.map Format.BufferEntry.group).Nodup)
    (hbytes : ∀ e ∈ m.buffer, e.nbytes < 2 ^ 64) (hmany : 2 ^ 32 ≤ m.buffer.length) :
    build m = .error (.undefined "group_cursor read outside the vector") := by
  have hloop := Builder.addEntries_overflow hbytes
    (Builder.owned_nil (headerInterval (headerLen m)) howned) (Nat.two_pow_pos 32) (by simpa using hmany)
  unfold build
  rw [hvalid]
  show (m.buffer.foldlM Builder.addEntry _ >>= _) = _
  rw [hloop]
  rfl

end

/-- A table that tiles the file finds every offset in it. -/
theorem find_eq {t : IntervalTable} {off : Nat} (htiles : Tiles 0 (t.intervals.map extent) t.totalBytes)
    (htotal : t.totalBytes < 2 ^ 64) (hlt : off < t.totalBytes) :
    ∃ iv ∈ t.intervals, t.find off = some iv ∧ iv.fileOffset ≤ off ∧ off < iv.fileOffset + iv.length := by
  obtain ⟨iv, hmem, hlast, hle, hin⟩ := htiles.locate extent (Nat.zero_le off) hlt
  have hend : iv.fileOffset + iv.length ≤ t.totalBytes := (htiles.mem (List.mem_map_of_mem hmem)).2.2
  refine ⟨iv, hmem, ?_, hle, hin⟩
  have hne : t.intervals ≠ [] := List.ne_nil_of_mem hmem
  change (t.intervals.takeWhile fun iv => iv.fileOffset ≤ off).getLast? = some iv at hlast
  unfold find
  rw [if_neg (by simp [hne, hlt]), hlast]
  dsimp only
  rw [u64_of_lt (by omega), if_neg]
  rintro (h | h)
  · exact absurd hle (not_le.mpr h)
  · exact absurd hin (not_lt.mpr h)

end IntervalTable

end SynapseFs.Mount
