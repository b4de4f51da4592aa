import Mathlib.Data.List.Dedup
import SynapseFs.Mount.SharedGroups

/-! What the validation of a layout is worth to its readers.

`Manifest::validate` moves a 64-bit cursor over the buffer and compares where it
ends. `IntervalTable::find` takes for granted that the entries lie end to end, in
front of one another. `covered_iff` says when an accepted manifest keeps that
promise: its sizes must not add up past the cursor, and its groups must not be more
than their 32-bit numbers. -/
namespace SynapseFs.Mount
open Lib Core Format

namespace Builder

variable {s s' : Builder} {l : List Format.BufferEntry}

/-- The names are those of the entries so far. -/
def Names (l : List Format.BufferEntry) (s : Builder) : Prop := ∀ g, g ∈ s.groups ↔ g ∈ l.map Format.BufferEntry.group

theorem names_step {e : Format.BufferEntry} (hlaid : Laid l s) (hnames : Names l s)
    (hfit : used l e.group + e.nbytes < 2 ^ 64) (h : s.addEntry e = .ok s') : Names (l ++ [e]) s' := by
  intro g
  rw [List.map_append, List.mem_append, List.map_singleton, List.mem_singleton, ← hnames]
  obtain ⟨gi, -, ⟨hname, hgroups, -⟩ | ⟨-, -, -, hgroups, -⟩⟩ := addEntry_cases hlaid hfit h
  · rw [hgroups]
    refine ⟨Or.inl, fun hg => hg.elim id fun heq => ?_⟩
    rw [heq]
    exact List.mem_of_getElem? hname
  · rw [hgroups, List.mem_append, List.mem_singleton]

theorem length_groups (hlaid : Laid l s) (hnames : Names l s) :
    s.groups.length = (l.map Format.BufferEntry.group).dedup.length := by
  have hperm : s.groups.Perm (l.map Format.BufferEntry.group).dedup := by
    rw [List.perm_ext_iff_of_nodup hlaid.distinct (List.nodup_dedup _)]
    intro g
    rw [hnames, List.mem_dedup]
  exact hperm.length_eq

/-- The loop runs to its end exactly if there are fewer than `2 ^ 32` groups. -/
theorem addEntries_ok_iff {whole : List Format.BufferEntry}
    (hfit : (whole.map Format.BufferEntry.nbytes).sum < 2 ^ 64) : ∀ {l pre : List Format.BufferEntry} {s : Builder},
    whole = pre ++ l → Laid pre s → Names pre s →
      ((∃ s', l.foldlM addEntry s = .ok s') ↔ (whole.map Format.BufferEntry.group).dedup.length < 2 ^ 32) := by
  intro l
  induction l with
  | nil =>
    intro pre s hwhole hlaid hnames
    rw [List.append_nil] at hwhole
    rw [hwhole, ← length_groups hlaid hnames]
    exact ⟨fun _ => hlaid.few, fun _ => ⟨s, rfl⟩⟩
  | cons e rest ih =>
    intro pre s hwhole hlaid hnames
    have hsum : used pre e.group + e.nbytes < 2 ^ 64 := by
      have := used_le pre e.group
      rw [hwhole, List.map_append, List.sum_append, List.map_cons, List.sum_cons] at hfit
      omega
    have hwhole' : whole = (pre ++ [e]) ++ rest := by rw [hwhole, List.append_assoc]; rfl
    have hstep : ∀ {s₁}, s.addEntry e = .ok s₁ →
        ((∃ s', (e :: rest).foldlM addEntry s = .ok s') ↔ (whole.map Format.BufferEntry.group).dedup.length < 2 ^ 32) := by
      intro s₁ hadd
      rw [← ih hwhole' (laid_step hlaid hsum hadd) (names_step hlaid hnames hsum hadd), List.foldlM_cons, hadd]
      exact Iff.rfl
    by_cases hmem : e.group ∈ s.groups
    · obtain ⟨i, -, hadd⟩ := addEntry_known hlaid hmem
      exact hstep hadd
    · have hfresh : s.Fresh e := ⟨hlaid.cursors, hmem⟩
      by_cases hfull : s.groups.length + 1 = 2 ^ 32
      · -- the new group's number is the last one, and the vector of cursors is resized to nothing
        refine ⟨fun ⟨s', h⟩ => ?_, fun h => ?_⟩
        · rw [List.foldlM_cons, addEntry_overflow hfresh hfull] at h
          cases h
        · have hsub : (s.groups ++ [e.group]).Subperm (whole.map Format.BufferEntry.group).dedup := by
            refine (List.subperm_of_subset (List.concat_eq_append ▸ hlaid.distinct.concat hmem) fun g hg => ?_)
            rw [List.mem_dedup, hwhole, List.map_append, List.mem_append]
            rcases List.mem_append.mp hg with hg | hg
            · exact Or.inl ((hnames g).mp hg)
            · rw [List.mem_singleton.mp hg]
              exact Or.inr (List.mem_map_of_mem List.mem_cons_self)
          have hle := hsub.length_le
          rw [List.length_append, List.length_singleton] at hle
          omega
      · have hfew := hlaid.few
        exact hstep (addEntry_new hfresh (by omega) (by omega))

end Builder

/-- The header and the entries tile the file, and whatever order equal offsets are left in, every position of the file
is found in the one interval that holds it. -/
structure Covered (m : Manifest) : Prop where
  tiles : Tiles 0 ((IntervalTable.headerInterval (IntervalTable.headerLen m)).map IntervalTable.extent ++
    m.buffer.map Manifest.extent) m.file.totalBytes
  located : ∃ t, IntervalTable.build m = .ok t ∧ ∀ l : List Interval, l.Perm t.intervals →
    l.Pairwise (fun a b => a.fileOffset ≤ b.fileOffset) → ∀ off < m.file.totalBytes, ∃ iv ∈ l,
      IntervalTable.find { t with intervals := l } off = some iv ∧
      (iv.fileOffset ≤ off ∧ off < iv.fileOffset + iv.length) ∧
      ∀ iv' ∈ l, iv'.fileOffset ≤ off ∧ off < iv'.fileOffset + iv'.length → iv' = iv

theorem tiles_total {l : List Format.BufferEntry} {a c : Nat} (h : Tiles a (l.map Manifest.extent) c) :
    c = a + (l.map Format.BufferEntry.nbytes).sum := by
  induction l generalizing a with
  | nil =>
    cases h
    rfl
  | cons e rest ih =>
    obtain ⟨hoff, -, hrest⟩ := Tiles.cons_iff.mp h
    have hoff : e.off = a := hoff
    have hend : (Manifest.extent e).2 = a + e.nbytes := by rw [Manifest.extent, hoff]
    rw [hend] at hrest
    rw [ih hrest, List.map_cons, List.sum_cons, Nat.add_assoc]

theorem tiles_behind_header {len total : Nat} {l : List (Nat × Nat)}
    (h : Tiles 0 ((IntervalTable.headerInterval len).map IntervalTable.extent ++ l) total) : Tiles len l total := by
  unfold IntervalTable.headerInterval at h
  split at h
  · obtain ⟨-, -, hrest⟩ := Tiles.cons_iff.mp h
    rwa [show (IntervalTable.extent ⟨0, len, 0, 0, true⟩).2 = len from Nat.zero_add len] at hrest
  · next hlen =>
    rw [Nat.eq_zero_of_not_pos hlen]
    exact h

/-- A table that tiles the file has one order, and finds every position. -/
theorem located_of_tiles {t : IntervalTable} (hall : Tiles 0 (t.intervals.map IntervalTable.extent) t.totalBytes)
    (htotal : t.totalBytes < 2 ^ 64) {l : List Interval} (hperm : l.Perm t.intervals)
    (hsorted : l.Pairwise fun a b => a.fileOffset ≤ b.fileOffset) {off : Nat} (hlt : off < t.totalBytes) : ∃ iv ∈ l,
      IntervalTable.find { t with intervals := l } off = some iv ∧
      (iv.fileOffset ≤ off ∧ off < iv.fileOffset + iv.length) ∧
      ∀ iv' ∈ l, iv'.fileOffset ≤ off ∧ off < iv'.fileOffset + iv'.length → iv' = iv := by
  have hown : ∀ iv ∈ t.intervals, iv.fileOffset < iv.fileOffset + iv.length := fun iv hiv =>
    (hall.mem (List.mem_map_of_mem hiv)).2.1
  have horder : l = t.intervals := by
    refine List.Perm.eq_of_pairwise (fun a b ha hb hab hba => ?_) hsorted
      ((List.pairwise_map.mp hall.pairwise).imp Nat.le_of_lt) hperm
    have ha := hperm.subset ha
    -- two intervals that start at one offset both hold it
    have hstart : a.fileOffset = b.fileOffset := Nat.le_antisymm hab hba
    have hin : a.fileOffset < b.fileOffset + b.length := hstart ▸ hown b hb
    exact hall.unique IntervalTable.extent ha hb ⟨le_rfl, hown a ha⟩ ⟨hba, hin⟩
  subst horder
  obtain ⟨iv, hmem, hfind, hle, hin⟩ := IntervalTable.find_eq hall htotal hlt
  exact ⟨iv, hmem, hfind, ⟨hle, hin⟩, fun iv' hiv' hin' => hall.unique IntervalTable.extent hiv' hmem hin' ⟨hle, hin⟩⟩

theorem validateBuffer_lt {m : Manifest} {l : List Format.BufferEntry} : ∀ {i cursor last : Nat},
    m.validateBuffer i cursor l = .ok last → l ≠ [] → last < 2 ^ 64 := by
  induction l with
  | nil => exact fun _ hne => absurd rfl hne
  | cons e rest ih =>
    intro i cursor last h _
    unfold Manifest.validateBuffer at h
    repeat' split at h
    all_goals try exact absurd h sfsErr_ne_ok
    cases rest with
    | nil =>
      cases h
      exact u64_lt _
    | cons e' rest => exact ih h (List.cons_ne_nil _ _)

/-- An accepted manifest is covered exactly if its sizes do not wrap and its groups have numbers. -/
theorem covered_iff {m : Manifest} (hvalid : m.validate = .ok ()) : Covered m ↔
    IntervalTable.headerLen m + (m.buffer.map Format.BufferEntry.nbytes).sum < 2 ^ 64 ∧
      (m.buffer.map Format.BufferEntry.group).dedup.length < 2 ^ 32 := by
  obtain ⟨first, rest, hbuffer, htiles⟩ := Manifest.validate_tiles hvalid
  have hlen : IntervalTable.headerLen m = first.off := by rw [IntervalTable.headerLen, hbuffer]
  have htotal : m.file.totalBytes < 2 ^ 64 := by
    unfold Manifest.validate at hvalid
    rw [hbuffer] at hvalid
    obtain ⟨cursor, hcursor, hvalid⟩ := bind_eq_ok.mp hvalid
    split at hvalid
    · exact absurd hvalid sfsErr_ne_ok
    · next heq => exact not_not.mp heq ▸ validateBuffer_lt hcursor (List.cons_ne_nil _ _)
  have hloop : ∀ hsum : (m.buffer.map Format.BufferEntry.nbytes).sum < 2 ^ 64,
      (∃ b, m.buffer.foldlM Builder.addEntry ⟨[], [], IntervalTable.headerInterval (IntervalTable.headerLen m)⟩ = .ok b) ↔
        (m.buffer.map Format.BufferEntry.group).dedup.length < 2 ^ 32 := fun hsum =>
    Builder.addEntries_ok_iff hsum rfl (Builder.laid_nil _) fun g => by simp
  constructor
  · intro h
    have hall := tiles_total (tiles_behind_header h.tiles)
    obtain ⟨t, hbuild, -⟩ := h.located
    obtain ⟨-, -, hbuild⟩ := bind_eq_ok.mp hbuild
    obtain ⟨b, hb, -⟩ := bind_eq_ok.mp hbuild
    exact ⟨hall ▸ htotal, (hloop (by omega)).mp ⟨b, hb⟩⟩
  · rintro ⟨hsum, hfew⟩
    obtain ⟨hends, -⟩ := htiles (hlen ▸ hsum)
    rw [← hlen] at hends
    obtain ⟨b, hb⟩ := (hloop (by omega)).mpr hfew
    refine ⟨IntervalTable.headerInterval_tiles hends, _, bind_eq_ok.mpr ⟨(), hvalid, bind_eq_ok.mpr ⟨b, hb, rfl⟩⟩, ?_⟩
    have hbuild : IntervalTable.build m = .ok _ := bind_eq_ok.mpr ⟨(), hvalid, bind_eq_ok.mpr ⟨b, hb, rfl⟩⟩
    obtain ⟨b', -, heq, hall⟩ := IntervalTable.build_cases hbuild hends
    intro l hperm hsorted off hlt
    rw [heq] at hperm ⊢
    exact located_of_tiles (t := ⟨b'.intervals, b'.groups, m.file.totalBytes⟩) hall htotal hperm hsorted hlt

/-! ### Eight bytes behind a header, and sizes that wrap -/

def fullEntry : GroupEntry := ⟨.full, some zeroOid, none, none, 0⟩

def soleManifest : Manifest where
  formatVersion := 1
  hashAlgo := "blake3-256"
  file := ⟨"model.safetensors", zeroOid, 72, ""⟩
  buffer := [⟨"w", 64, 8, "w"⟩]
  groups := ⟨[("w", fullEntry)], List.nodup_singleton _⟩

theorem covered_sole : Covered soleManifest := (covered_iff (by decide)).mpr ⟨by decide, by decide⟩

/-- Two tensors of `2 ^ 63` bytes bring the cursor back to 0, where a third one starts. -/
def wrappedManifest : Manifest where
  formatVersion := 1
  hashAlgo := "blake3-256"
  file := ⟨"model.safetensors", zeroOid, 4, ""⟩
  buffer := [⟨"a", 0, 2 ^ 63, "a"⟩, ⟨"b", 2 ^ 63, 2 ^ 63, "b"⟩, ⟨"c", 0, 4, "c"⟩]
  groups := ⟨[("a", fullEntry), ("b", fullEntry), ("c", fullEntry)], by decide⟩

/-- It is accepted, and it depends on how equal offsets are sorted which tensor the first byte is found in. -/
theorem wrapped_uncovered : wrappedManifest.validate = .ok () ∧ ¬Covered wrappedManifest ∧
    ∃ t, IntervalTable.build wrappedManifest = .ok t ∧ (t.find 0).map Interval.groupIndex = some 2 ∧
      ∃ l : List Interval, l.Perm t.intervals ∧ (l.Pairwise fun a b => a.fileOffset ≤ b.fileOffset) ∧
        (IntervalTable.find { t with intervals := l } 0).map Interval.groupIndex = some 0 := by
  refine ⟨by decide, fun h => ?_, ?_⟩
  · have hall := tiles_total (tiles_behind_header h.tiles)
    exact absurd hall (by decide)
  · refine ⟨_, rfl, by decide, [⟨0, 4, 0, 2, false⟩, ⟨0, 2 ^ 63, 0, 0, false⟩, ⟨2 ^ 63, 2 ^ 63, 0, 1, false⟩], ?_, ?_, ?_⟩
    · decide
    · decide
    · decide

end SynapseFs.Mount
