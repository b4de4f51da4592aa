import SynapseFs.Mount.Fs

/-! Buffer entries that share a group, in the mount and in a checkout.

Both walk the same buffer layout. The mount serves an entry from where the entries
of the same group before it ended (`source_entry`); a checkout reads every entry from
the start of its group (`readFrom_iff`). The two are the same exactly when no group
has two entries, up to the widths of the integers involved (`agree_iff`). -/
namespace SynapseFs.Mount
open Lib Core Format SynapseFs.Codec

/-- The bytes of group `g` that the entries of `l` take. -/
def used (l : List Format.BufferEntry) (g : String) : Nat :=
  ((l.filter fun e => e.group = g).map Format.BufferEntry.nbytes).sum

theorem used_append (l₁ l₂ : List Format.BufferEntry) (g : String) : used (l₁ ++ l₂) g = used l₁ g + used l₂ g := by
  rw [used, List.filter_append, List.map_append, List.sum_append]
  rfl

theorem used_singleton (e : Format.BufferEntry) (g : String) : used [e] g = if e.group = g then e.nbytes else 0 := by
  rw [used, List.filter_singleton]
  by_cases h : e.group = g <;> simp [h]

theorem used_le (l : List Format.BufferEntry) (g : String) : used l g ≤ (l.map Format.BufferEntry.nbytes).sum :=
  (List.filter_sublist.map _).sum_le_sum fun _ _ => Nat.zero_le _

theorem used_eq_zero {l : List Format.BufferEntry} {g : String} (hpos : ∀ e ∈ l, 0 < e.nbytes) :
    used l g = 0 ↔ ∀ e ∈ l, e.group ≠ g := by
  rw [used, List.sum_eq_zero_iff]
  constructor
  · intro h e he hg
    have hmem : e.nbytes ∈ (l.filter fun e => e.group = g).map Format.BufferEntry.nbytes :=
      List.mem_map_of_mem (List.mem_filter.mpr ⟨he, decide_eq_true hg⟩)
    exact absurd (h _ hmem) (Nat.ne_of_gt (hpos e he))
  · intro h n hn
    obtain ⟨e, he, -⟩ := List.mem_map.mp hn
    obtain ⟨he, hg⟩ := List.mem_filter.mp he
    exact absurd (of_decide_eq_true hg) (h e he)

/-! ### The table of any layout -/

namespace Builder

/-- What the loop of `build` has after the entries `l`: every group's cursor is what its entries took, and every
entry's interval is at the cursor of its group as the entry found it. -/
structure Laid (l : List Format.BufferEntry) (s : Builder) : Prop where
  few : s.groups.length < 2 ^ 32
  cursors : s.groupCursor.length = s.groups.length
  distinct : s.groups.Nodup
  taken : ∀ (i : Nat) (g : String), s.groups[i]? = some g → s.groupCursor[i]? = some (used l g)
  new : ∀ g ∉ s.groups, used l g = 0
  placed : ∀ l₁ e l₂, l = l₁ ++ e :: l₂ →
    ∃ gi, ⟨e.off, e.nbytes, used l₁ e.group, gi, false⟩ ∈ s.intervals ∧ s.groups[gi]? = some e.group

theorem laid_nil (intervals : List Interval) : Laid [] ⟨[], [], intervals⟩ where
  few := Nat.two_pow_pos 32
  cursors := rfl
  distinct := List.nodup_nil
  taken := by
    intro i g h
    cases h
  new := fun _ _ => rfl
  placed := by
    intro l₁ e l₂ h
    cases List.append_eq_nil_iff.mp h.symm |>.2

variable {s s' : Builder} {e : Format.BufferEntry} {l : List Format.BufferEntry}

/-- An entry of a group that is known takes its bytes from where the group's cursor is. -/
theorem addEntry_known (hlaid : Laid l s) (hmem : e.group ∈ s.groups) : ∃ i, s.groups[i]? = some e.group ∧
    s.addEntry e = .ok ⟨s.groups, s.groupCursor.set i (u64 (used l e.group + e.nbytes)),
      s.intervals ++ [⟨e.off, e.nbytes, used l e.group, i, false⟩]⟩ := by
  obtain ⟨i, hidx⟩ : ∃ i, s.groups.findIdx? (fun g => decide (g = e.group)) = some i := by
    rw [← Option.isSome_iff_exists, List.findIdx?_isSome, List.any_eq_true]
    exact ⟨e.group, hmem, decide_eq_true rfl⟩
  obtain ⟨hlt, hname, -⟩ := List.findIdx?_eq_some_iff_getElem.mp hidx
  have hname : s.groups[i]? = some e.group := by
    rw [List.getElem?_eq_getElem hlt, of_decide_eq_true hname]
  have hcursor := hlaid.taken i e.group hname
  have hi : u32 i = i := u32_of_lt (hlt.trans hlaid.few)
  refine ⟨i, hname, ?_⟩
  unfold addEntry
  rw [groupIndexFor, hidx]
  dsimp only
  rw [hi, if_neg (not_le.mpr (hlaid.cursors ▸ hlt)), hcursor]

/-- What one entry does: its group has a number `gi`, a new one at the end, and the entry takes its bytes from where
the group's cursor is. -/
theorem addEntry_cases (hlaid : Laid l s) (hfit : used l e.group + e.nbytes < 2 ^ 64) (h : s.addEntry e = .ok s') :
    ∃ gi, s'.intervals = s.intervals ++ [⟨e.off, e.nbytes, used l e.group, gi, false⟩] ∧
      ((s.groups[gi]? = some e.group ∧ s'.groups = s.groups ∧
          s'.groupCursor = s.groupCursor.set gi (used l e.group + e.nbytes)) ∨
        (e.group ∉ s.groups ∧ gi = s.groups.length ∧ s.groups.length + 1 < 2 ^ 32 ∧
          s'.groups = s.groups ++ [e.group] ∧ s'.groupCursor = s.groupCursor ++ [used l e.group + e.nbytes])) := by
  by_cases hmem : e.group ∈ s.groups
  · obtain ⟨i, hname, hadd⟩ := addEntry_known hlaid hmem
    rw [u64_of_lt hfit] at hadd
    cases hadd.symm.trans h
    exact ⟨i, rfl, Or.inl ⟨hname, rfl, rfl⟩⟩
  · have hused := hlaid.new e.group hmem
    have hfresh : s.Fresh e := ⟨hlaid.cursors, hmem⟩
    have hfew := hlaid.few
    by_cases hfull : s.groups.length + 1 = 2 ^ 32
    · rw [addEntry_overflow hfresh hfull] at h
      cases h
    · have hlt : s.groups.length + 1 < 2 ^ 32 := by omega
      rw [hused, Nat.zero_add] at hfit
      rw [addEntry_new hfresh hlt hfit] at h
      cases h
      rw [hused, Nat.zero_add]
      exact ⟨_, rfl, Or.inr ⟨hmem, rfl, hlt, rfl, rfl⟩⟩

theorem split_concat {l₁ l₂ : List Format.BufferEntry} {e' : Format.BufferEntry} (h : l ++ [e] = l₁ ++ e' :: l₂) :
    (l₁ = l ∧ e' = e) ∨ ∃ l₃, l = l₁ ++ e' :: l₃ := by
  rcases List.eq_nil_or_concat l₂ with rfl | ⟨l₃, last, rfl⟩
  · obtain ⟨rfl, heq⟩ := List.append_inj' h rfl
    cases heq
    exact Or.inl ⟨rfl, rfl⟩
  · rw [List.concat_eq_append, ← List.cons_append, ← List.append_assoc] at h
    obtain ⟨rfl, -⟩ := List.append_inj' h rfl
    exact Or.inr ⟨l₃, rfl⟩

/-- The intervals of the entries before stay, and the new entry has its own. -/
theorem placed_step (hlaid : Laid l s) {gi : Nat} {groups : List String} (hold : s.groups <+: groups)
    (hname : groups[gi]? = some e.group) {l₁ l₂ : List Format.BufferEntry} {e' : Format.BufferEntry}
    (hsplit : l ++ [e] = l₁ ++ e' :: l₂) :
    ∃ i, ⟨e'.off, e'.nbytes, used l₁ e'.group, i, false⟩ ∈
      s.intervals ++ [⟨e.off, e.nbytes, used l e.group, gi, false⟩] ∧ groups[i]? = some e'.group := by
  rcases split_concat hsplit with ⟨rfl, rfl⟩ | ⟨l₃, hl⟩
  · exact ⟨gi, List.mem_append_right _ List.mem_cons_self, hname⟩
  · obtain ⟨i, hmem, hi⟩ := hlaid.placed l₁ e' l₃ hl
    obtain ⟨more, rfl⟩ := hold
    refine ⟨i, List.mem_append_left _ hmem, ?_⟩
    rw [List.getElem?_append_left (List.getElem?_eq_some_iff.mp hi).1, hi]

theorem laid_step (hlaid : Laid l s) (hfit : used l e.group + e.nbytes < 2 ^ 64) (h : s.addEntry e = .ok s') :
    Laid (l ++ [e]) s' := by
  have hused : ∀ g, used (l ++ [e]) g = used l g + if e.group = g then e.nbytes else 0 := by
    intro g
    rw [used_append, used_singleton]
  obtain ⟨gi, hintervals, ⟨hname, hgroups, hcursors⟩ | ⟨hnew, rfl, hlt, hgroups, hcursors⟩⟩ := addEntry_cases hlaid hfit h
  · have hgi : gi < s.groups.length := (List.getElem?_eq_some_iff.mp hname).1
    refine ⟨hgroups ▸ hlaid.few, ?_, hgroups ▸ hlaid.distinct, ?_, ?_, ?_⟩
    · rw [hcursors, hgroups, List.length_set, hlaid.cursors]
    · intro i g hi
      rw [hgroups] at hi
      rw [hcursors, hused]
      by_cases heq : gi = i
      · subst heq
        cases hname.symm.trans hi
        rw [List.getElem?_set_self (hlaid.cursors ▸ hgi), if_pos rfl]
      · have hother : e.group ≠ g := fun hg =>
          heq ((List.getElem?_inj hgi hlaid.distinct).mp (hname.trans (hg ▸ hi.symm)))
        rw [List.getElem?_set_ne heq, hlaid.taken i g hi, if_neg hother, Nat.add_zero]
    · intro g hg
      rw [hgroups] at hg
      have hother : e.group ≠ g := fun heq => hg (heq ▸ List.mem_of_getElem? hname)
      rw [hused, hlaid.new g hg, if_neg hother]
    · intro l₁ e' l₂ hsplit
      rw [hintervals, hgroups]
      exact placed_step hlaid List.prefix_rfl hname hsplit
  · refine ⟨?_, ?_, ?_, ?_, ?_, ?_⟩
    · rw [hgroups, List.length_append]
      exact hlt
    · rw [hcursors, hgroups, List.length_append, List.length_append, hlaid.cursors]
      rfl
    · rw [hgroups]
      exact List.concat_eq_append ▸ hlaid.distinct.concat hnew
    · intro i g hi
      rw [hgroups, List.getElem?_append] at hi
      rw [hcursors, List.getElem?_append, hlaid.cursors, hused]
      split at hi
      · next hlt' =>
        have hother : e.group ≠ g := fun hg => hnew (hg ▸ List.mem_of_getElem? hi)
        rw [if_pos hlt', hlaid.taken i g hi, if_neg hother, Nat.add_zero]
      · next hge =>
        rw [List.getElem?_singleton, Option.ite_none_right_eq_some] at hi
        obtain ⟨hzero, hg⟩ := hi
        cases hg
        rw [if_neg hge, hzero, if_pos rfl]
        rfl
    · intro g hg
      rw [hgroups, List.mem_append, not_or, List.mem_singleton] at hg
      rw [hused, hlaid.new g hg.1, if_neg fun heq => hg.2 heq.symm]
    · intro l₁ e' l₂ hsplit
      rw [hintervals, hgroups]
      refine placed_step hlaid (List.prefix_append _ _) ?_ hsplit
      rw [List.getElem?_concat_length]

theorem laid_run {whole : List Format.BufferEntry} (hfit : (whole.map Format.BufferEntry.nbytes).sum < 2 ^ 64) :
    ∀ {l pre : List Format.BufferEntry} {s s' : Builder}, whole = pre ++ l → Laid pre s → l.foldlM addEntry s = .ok s' →
      Laid whole s' := by
  intro l
  induction l with
  | nil =>
    intro pre s s' hwhole hlaid h
    cases h
    rw [hwhole, List.append_nil]
    exact hlaid
  | cons e rest ih =>
    intro pre s s' hwhole hlaid h
    rw [List.foldlM_cons] at h
    obtain ⟨s₁, hstep, hrest⟩ := bind_eq_ok.mp h
    have hle : used pre e.group + e.nbytes < 2 ^ 64 := by
      have := used_le pre e.group
      rw [hwhole, List.map_append, List.sum_append, List.map_cons, List.sum_cons] at hfit
      omega
    refine ih ?_ (laid_step hlaid hle hstep) hrest
    rw [hwhole, List.append_assoc]
    rfl

/-- Whatever the groups are, the intervals lie where the entries do. -/
theorem addEntry_extent (h : s.addEntry e = .ok s') :
    s'.intervals.map IntervalTable.extent = s.intervals.map IntervalTable.extent ++ [Manifest.extent e] := by
  unfold addEntry at h
  dsimp only at h
  split at h
  · cases h
  · cases h
    rw [List.map_append]
    rfl

theorem addEntries_extent : ∀ {l : List Format.BufferEntry} {s s' : Builder}, l.foldlM addEntry s = .ok s' →
    s'.intervals.map IntervalTable.extent = s.intervals.map IntervalTable.extent ++ l.map Manifest.extent := by
  intro l
  induction l with
  | nil =>
    intro s s' h
    cases h
    rw [List.map_nil, List.append_nil]
  | cons e rest ih =>
    intro s s' h
    rw [List.foldlM_cons] at h
    obtain ⟨s₁, hstep, hrest⟩ := bind_eq_ok.mp h
    rw [ih hrest, addEntry_extent hstep, List.append_assoc]
    rfl

end Builder

namespace IntervalTable

/-- Where a mount reads the byte at `pos` of the file from; the header is no group's. -/
def source (t : IntervalTable) (pos : Nat) : Option (String × Nat) :=
  match t.find pos with
  | none => none
  | some iv =>
    if iv.isHeader then none
    else some (t.groupName iv.groupIndex, u64 (iv.groupOffset + u64Sub pos iv.fileOffset))

/-- A table lists its intervals in file order, and they tile the file. -/
theorem build_cases {m : Manifest} {t : IntervalTable} (hbuild : build m = .ok t)
    (htiles : Tiles (headerLen m) (m.buffer.map Manifest.extent) m.file.totalBytes) :
    ∃ b, m.buffer.foldlM Builder.addEntry ⟨[], [], headerInterval (headerLen m)⟩ = .ok b ∧
      t = ⟨b.intervals, b.groups, m.file.totalBytes⟩ ∧ Tiles 0 (b.intervals.map extent) m.file.totalBytes := by
  obtain ⟨-, -, hbuild⟩ := bind_eq_ok.mp hbuild
  obtain ⟨b, hloop, hdone⟩ := bind_eq_ok.mp hbuild
  have hall : Tiles 0 (b.intervals.map extent) m.file.totalBytes := by
    rw [Builder.addEntries_extent hloop]
    exact headerInterval_tiles htiles
  have hsorted : b.intervals.Pairwise fun a b => a.fileOffset ≤ b.fileOffset :=
    (List.pairwise_map.mp hall.pairwise).imp Nat.le_of_lt
  cases hdone
  exact ⟨b, hloop, by rw [hsorted.insertionSort_eq], hall⟩

/-- **What a table serves**: byte `k` of an entry is byte `k` behind what the entries of its group before it took. -/
theorem source_entry {m : Manifest} {t : IntervalTable} (hbuild : build m = .ok t)
    (htiles : Tiles (headerLen m) (m.buffer.map Manifest.extent) m.file.totalBytes)
    (htotal : m.file.totalBytes < 2 ^ 64) (hsum : (m.buffer.map Format.BufferEntry.nbytes).sum < 2 ^ 64)
    {l₁ l₂ : List Format.BufferEntry} {e : Format.BufferEntry} {k : Nat} (hsplit : m.buffer = l₁ ++ e :: l₂)
    (hk : k < e.nbytes) : t.source (e.off + k) = some (e.group, used l₁ e.group + k) := by
  obtain ⟨b, hloop, rfl, hall⟩ := build_cases hbuild htiles
  have hlaid := Builder.laid_run hsum rfl (Builder.laid_nil _) hloop
  obtain ⟨gi, hmem, hname⟩ := hlaid.placed l₁ e l₂ hsplit
  have hin : e ∈ m.buffer := hsplit ▸ List.mem_append_right l₁ List.mem_cons_self
  obtain ⟨-, -, hend⟩ := htiles.mem (List.mem_map_of_mem hin)
  change e.off + e.nbytes ≤ m.file.totalBytes at hend
  obtain ⟨iv, hiv, hfind, hle, hlt⟩ := @find_eq ⟨b.intervals, b.groups, m.file.totalBytes⟩ (e.off + k) hall htotal
    (show e.off + k < m.file.totalBytes by omega)
  -- Only the entry's own interval holds the position.
  have heq : iv = ⟨e.off, e.nbytes, used l₁ e.group, gi, false⟩ :=
    hall.unique extent hiv hmem ⟨hle, hlt⟩ ⟨Nat.le_add_right _ _, Nat.add_lt_add_left hk _⟩
  have hbefore : used l₁ e.group + e.nbytes < 2 ^ 64 := by
    have := used_le l₁ e.group
    rw [hsplit, List.map_append, List.sum_append, List.map_cons, List.sum_cons] at hsum
    omega
  rw [source, hfind, heq]
  dsimp only
  rw [if_neg Bool.false_ne_true, groupName, List.getD_eq_getElem?_getD, hname, Option.getD_some,
    u64Sub_of_le (Nat.le_add_right _ _) (by omega), Nat.add_sub_cancel_left, u64_of_lt (by omega)]

end IntervalTable

/-- A read of the mount is served from the frame of the group that holds the byte the table names. -/
theorem Fs.serve_source (libs : Libs) (hops : Nat) (alloc : Cache FrameKey → Ptr) (fs : Fs) (ctx : ReadCtx)
    (cache : Cache FrameKey) {iv : Interval} {cur : Nat} {g : String} {o : Nat} (hfind : fs.table.find cur = some iv)
    (hsource : fs.table.source cur = some (g, o)) (remaining : Bytes) :
    ∃ key want, fs.serve libs hops alloc ctx cache iv cur remaining =
      fs.copyFrame libs hops alloc ctx cache g key (o / kFrameBytes * kFrameBytes) (o % kFrameBytes) want := by
  rw [IntervalTable.source, hfind] at hsource
  dsimp only at hsource
  split at hsource
  · cases hsource
  · next hgroup =>
    cases hsource
    rw [serve, if_neg hgroup, serveFrame, ← Nat.mod_eq_sub_div_mul]
    exact ⟨_, _, rfl⟩

/-! ### What a checkout reads -/

/-- The reads of `reconstruct_file` in order: ranges of the bytes of the entries' groups. -/
def checkoutReads (m : Manifest) : List (Format.BufferEntry × (Nat × Nat)) :=
  m.buffer.flatMap fun e => (steps e.nbytes kStreamChunk).map (Prod.mk e)

/-- A checkout is the header and these reads, each handed on as it is. -/
theorem reconstructFile_reads {σ : Type} (sink : σ → Bytes → Outcome σ) (libs : Libs) (fuel : Nat) {ctx : ReadCtx}
    {m : Manifest} {blocks : BlockReads} (hmanifest : ctx.manifest = some m) (hblocks : ctx.blocks = some blocks)
    (hgroups : ∀ e ∈ m.buffer, (m.findGroup e.group).isSome) (s : σ) :
    reconstructFile sink libs fuel ctx s = (do
      let header ← blocks.get m.file.headerBlock .header
      let s ← sink s header
      let s ← (checkoutReads m).foldlM
        (fun s r => streamChunk sink (readRange libs fuel ctx r.1.group) r.1.group s r.2) (s, List.replicate kStreamChunk 0)
      return s.1) := by
  have hloop : ∀ l : List Format.BufferEntry, (∀ e ∈ l, (m.findGroup e.group).isSome) → ∀ s,
      l.foldlM (streamEntry sink libs fuel ctx m) s =
        (l.flatMap fun e => (steps e.nbytes kStreamChunk).map (Prod.mk e)).foldlM
          (fun s r => streamChunk sink (readRange libs fuel ctx r.1.group) r.1.group s r.2) s := by
    intro l
    induction l with
    | nil => exact fun _ _ => rfl
    | cons e rest ih =>
      intro hgroup s
      have hknown : ¬(m.findGroup e.group).isNone = true := by
        rw [Option.isNone_iff_eq_none]
        exact Option.isSome_iff_ne_none.mp (hgroup e List.mem_cons_self)
      rw [List.foldlM_cons, List.flatMap_cons, List.foldlM_append, List.foldlM_map, streamEntry, if_neg hknown]
      congr 1
      funext s'
      exact ih (fun e' he' => hgroup e' (List.mem_cons_of_mem _ he')) s'
  unfold reconstructFile
  rw [hmanifest, hblocks]
  dsimp only
  simp only [hloop m.buffer hgroups, checkoutReads]

/-- Byte `k` of entry `e` comes from `source`: it is in the range of one of the entry's reads, that far into it. -/
def ReadFrom (m : Manifest) (e : Format.BufferEntry) (k : Nat) (source : String × Nat) : Prop :=
  ∃ r, (e, r) ∈ checkoutReads m ∧ r.1 ≤ k ∧ k < r.2 ∧ source = (e.group, r.1 + (k - r.1))

/-- **What a checkout reads**: byte `k` of an entry is byte `k` of its group. -/
theorem readFrom_iff {m : Manifest} {e : Format.BufferEntry} (he : e ∈ m.buffer) {k : Nat} (hk : k < e.nbytes)
    (source : String × Nat) : ReadFrom m e k source ↔ source = (e.group, k) := by
  constructor
  · rintro ⟨r, -, hle, -, hsource⟩
    rw [hsource, Nat.add_sub_cancel' hle]
  · intro hsource
    have htiles := steps_tiles e.nbytes kStreamChunk (by decide)
    rw [← List.map_id (steps e.nbytes kStreamChunk)] at htiles
    obtain ⟨r, hr, -, hle, hlt⟩ := htiles.locate id (Nat.zero_le k) hk
    change r.1 ≤ k at hle
    refine ⟨r, List.mem_flatMap.mpr ⟨e, he, List.mem_map_of_mem hr⟩, hle, hlt, ?_⟩
    rw [hsource, Nat.add_sub_cancel' hle]

/-! ### The two together -/

/-- There is a table, and it serves every byte of every buffer entry from where a checkout reads it. -/
def Agree (m : Manifest) : Prop :=
  ∃ t, IntervalTable.build m = .ok t ∧ ∀ e ∈ m.buffer, ∀ k < e.nbytes,
    ∃ source, ReadFrom m e k source ∧ t.source (u64 (e.off + k)) = some source

/-- Every buffer entry has its group to itself, and there are fewer entries and bytes than the integers that count
them can hold. -/
structure OwnGroups (m : Manifest) : Prop where
  distinct : (m.buffer.map Format.BufferEntry.group).Nodup
  few : m.buffer.length < 2 ^ 32
  fits : ∀ e ∈ m.buffer, e.off + e.nbytes < 2 ^ 64

/-- The numbers of a manifest are 64-bit ones. -/
structure Sized (m : Manifest) : Prop where
  total : m.file.totalBytes < 2 ^ 64
  entries : ∀ e ∈ m.buffer, e.off < 2 ^ 64 ∧ e.nbytes < 2 ^ 64

theorem nodup_groups_iff {l : List Format.BufferEntry} : (l.map Format.BufferEntry.group).Nodup ↔
    ∀ l₁ e l₂, l = l₁ ++ e :: l₂ → ∀ e' ∈ l₁, e'.group ≠ e.group := by
  rw [List.Nodup, List.pairwise_map]
  constructor
  · intro h l₁ e l₂ hsplit e' he'
    rw [hsplit] at h
    exact (List.pairwise_append.mp h).2.2 e' he' e List.mem_cons_self
  · intro h
    rw [List.pairwise_iff_getElem]
    intro i j hi hj hij
    refine h (l.take j) l[j] (l.drop (j + 1)) ?_ l[i] (List.mem_take_iff_getElem.mpr ⟨i, by omega, rfl⟩)
    rw [List.getElem_cons_drop, List.take_append_drop]

/-- Entries that end below 2^64 keep the cursor of `validate` from wrapping. -/
theorem validateBuffer_fits {m : Manifest} {l : List Format.BufferEntry} : ∀ {i cursor last : Nat},
    m.validateBuffer i cursor l = .ok last → cursor < 2 ^ 64 → (∀ e ∈ l, e.off + e.nbytes < 2 ^ 64) →
      cursor + (l.map Format.BufferEntry.nbytes).sum < 2 ^ 64 := by
  induction l with
  | nil =>
    intro i cursor last _ hcursor _
    exact hcursor
  | cons e rest ih =>
    intro i cursor last h hcursor hfits
    obtain ⟨hfit, hfits⟩ := List.forall_mem_cons.mp hfits
    unfold Manifest.validateBuffer at h
    split at h
    · exact absurd h sfsErr_ne_ok
    · next hoff =>
      split at h
      · exact absurd h sfsErr_ne_ok
      · split at h
        · exact absurd h sfsErr_ne_ok
        · rw [not_not.mp hoff] at hfit
          rw [u64_of_lt hfit] at h
          have := ih h hfit hfits
          rw [List.map_cons, List.sum_cons]
          omega

section
variable {m : Manifest}

theorem Sized.tiles (hsized : Sized m) (hvalid : m.validate = .ok ())
    (hfits : ∀ e ∈ m.buffer, e.off + e.nbytes < 2 ^ 64) :
    ∃ first rest, m.buffer = first :: rest ∧ IntervalTable.headerLen m = first.off ∧
      Tiles first.off (m.buffer.map Manifest.extent) m.file.totalBytes ∧
      (m.buffer.map Format.BufferEntry.nbytes).sum < 2 ^ 64 := by
  obtain ⟨first, rest, hbuffer, htiles⟩ := Manifest.validate_tiles hvalid
  have hfirst : first ∈ m.buffer := hbuffer ▸ List.mem_cons_self
  have hsum : first.off + (m.buffer.map Format.BufferEntry.nbytes).sum < 2 ^ 64 := by
    unfold Manifest.validate at hvalid
    rw [hbuffer] at hvalid
    obtain ⟨cursor, hwalk, -⟩ := bind_eq_ok.mp hvalid
    rw [hbuffer]
    exact validateBuffer_fits hwalk (hsized.entries first hfirst).1 (hbuffer ▸ hfits)
  exact ⟨first, rest, hbuffer, by rw [IntervalTable.headerLen, hbuffer], (htiles hsum).1, by omega⟩

/-- No byte at or behind the end of the file is served. -/
theorem lt_of_source {t : IntervalTable} {pos : Nat} {source : String × Nat} (h : t.source pos = some source) :
    pos < t.totalBytes := by
  by_contra hpast
  have hnone : t.find pos = none := if_pos (Or.inl (not_lt.mp hpast))
  rw [IntervalTable.source, hnone] at h
  cases h

theorem build_totalBytes {t : IntervalTable} (h : IntervalTable.build m = .ok t) : t.totalBytes = m.file.totalBytes := by
  obtain ⟨-, -, h⟩ := bind_eq_ok.mp h
  obtain ⟨b, -, h⟩ := bind_eq_ok.mp h
  cases h
  rfl

/-- An entry that reaches the end of the 64-bit numbers has a byte that no table serves. -/
theorem fits_of_agree (hsized : Sized m) (h : Agree m) : ∀ e ∈ m.buffer, e.off + e.nbytes < 2 ^ 64 := by
  obtain ⟨t, hbuild, hagree⟩ := h
  intro e he
  by_contra hlong
  obtain ⟨hoff, -⟩ := hsized.entries e he
  obtain ⟨source, -, hsource⟩ := hagree e he (2 ^ 64 - 1 - e.off) (by omega)
  have hlt := lt_of_source hsource
  have htotal := hsized.total
  rw [build_totalBytes hbuild, u64_of_lt (by omega)] at hlt
  omega

/-- **Mount and checkout agree** exactly when no two buffer entries name one group, within the widths of the integers. -/
theorem agree_iff (hvalid : m.validate = .ok ()) (hsized : Sized m) : Agree m ↔ OwnGroups m := by
  constructor
  · intro h
    have hfits := fits_of_agree hsized h
    obtain ⟨first, rest, hbuffer, hlen, htiles, hsum⟩ := hsized.tiles hvalid hfits
    obtain ⟨t, hbuild, hagree⟩ := h
    have hdistinct : (m.buffer.map Format.BufferEntry.group).Nodup := by
      rw [nodup_groups_iff]
      intro l₁ e l₂ hsplit
      have hmem : ∀ e' ∈ l₁ ++ e :: l₂, e' ∈ m.buffer := fun e' he' => hsplit ▸ he'
      have hpos : ∀ e' ∈ m.buffer, 0 < e'.nbytes := by
        intro e' he'
        obtain ⟨-, hlt, -⟩ := htiles.mem (List.mem_map_of_mem he')
        change e'.off < e'.off + e'.nbytes at hlt
        omega
      have he : e ∈ m.buffer := hmem e (List.mem_append_right l₁ List.mem_cons_self)
      obtain ⟨source, hread, hsource⟩ := hagree e he 0 (hpos e he)
      rw [readFrom_iff he (hpos e he)] at hread
      rw [Nat.add_zero, u64_of_lt (hsized.entries e he).1, ← Nat.add_zero e.off,
        IntervalTable.source_entry hbuild (hlen ▸ htiles) hsized.total hsum hsplit (hpos e he), hread] at hsource
      have hused : used l₁ e.group = 0 := congrArg Prod.snd (Option.some.inj hsource)
      exact (used_eq_zero fun e' he' => hpos e' (hmem e' (List.mem_append_left _ he'))).mp hused
    refine ⟨hdistinct, ?_, hfits⟩
    by_contra hmany
    rw [IntervalTable.build_overflow hvalid hdistinct (fun e he => (hsized.entries e he).2) (not_lt.mp hmany)] at hbuild
    cases hbuild
  · intro h
    obtain ⟨first, rest, hbuffer, hlen, htiles, hsum⟩ := hsized.tiles hvalid h.fits
    have hbuild := IntervalTable.build_eq hvalid hbuffer htiles h.distinct (fun e he => (hsized.entries e he).2) h.few
    refine ⟨_, hbuild, fun e he k hk => ⟨_, (readFrom_iff he hk _).mpr rfl, ?_⟩⟩
    obtain ⟨l₁, l₂, hsplit⟩ := List.append_of_mem he
    have hfit := h.fits e he
    have hused : used l₁ e.group = 0 := by
      have hnone := nodup_groups_iff.mp h.distinct l₁ e l₂ hsplit
      rw [used, List.filter_eq_nil_iff.mpr fun e' he' => by simpa using hnone e' he']
      rfl
    rw [u64_of_lt (by omega), IntervalTable.source_entry hbuild (hlen ▸ htiles) hsized.total hsum hsplit hk, hused,
      Nat.zero_add]

end

/-- Two tensors with a block each: what the mount serves is what a checkout reads. -/
theorem agree_two : OwnGroups (Fs.plainManifest 2) ∧ Agree (Fs.plainManifest 2) := by
  have hvalid : (Fs.plainManifest 2).validate = .ok () := Fs.validate_plain (by omega) (by omega)
  have hsized : Sized (Fs.plainManifest 2) := ⟨by decide, by decide⟩
  have hown : OwnGroups (Fs.plainManifest 2) := ⟨by decide, by decide, by decide⟩
  exact ⟨hown, (agree_iff hvalid hsized).mpr hown⟩

/-- Two tensors in one block, of 20 and 30 bytes. -/
def sharedManifest : Manifest where
  formatVersion := 1
  hashAlgo := "blake3"
  file := ⟨"model.safetensors", Fs.plainHeaderOid, 50, ""⟩
  buffer := [⟨"t0", 0, 20, "shared"⟩, ⟨"t1", 20, 30, "shared"⟩]
  groups := ⟨[("shared", ⟨.full, some Fs.plainOid, none, none, 0⟩)], by decide⟩

/-- The first byte of the second tensor: the mount serves byte 20 of the block, a checkout reads byte 0. -/
theorem shared_differ : sharedManifest.validate = .ok () ∧ Sized sharedManifest ∧ ¬Agree sharedManifest := by
  refine ⟨by rfl, ⟨by decide, by decide⟩, ?_⟩
  rintro ⟨t, hbuild, hagree⟩
  obtain ⟨source, hread, hsource⟩ := hagree ⟨"t1", 20, 30, "shared"⟩ (by decide) 0 (by decide)
  rw [readFrom_iff (by decide) (by decide)] at hread
  have hserved : t.source (u64 (20 + 0)) = some ("shared", 20) := by
    cases hbuild
    rfl
  rw [hserved, hread] at hsource
  exact absurd (congrArg Prod.snd (Option.some.inj hsource)) (by decide)

end SynapseFs.Mount
