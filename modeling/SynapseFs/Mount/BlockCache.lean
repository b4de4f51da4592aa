import SynapseFs.Core.Oid
import SynapseFs.Lib.FinMap

/-! The bounded LRU of decompressed frames.

A cache is a map from keys to entries, a list of the same keys ordered by last
use, and the bytes that its ready entries take. The functions here are the
sections that the source runs under the cache mutex, each one step; `Wf` is what
every one of them keeps. `unordered_map` and the position `lru_it` that an entry
keeps of itself in the LRU list are seen through the key, which stands in the list
once. -/
namespace SynapseFs.Mount
open Lib Core

structure FrameKey where
  artifact : Oid
  tensorIndex : Nat
  frameIndex : Nat
  deriving DecidableEq

/-- An entry's address, and which allocation of that address it is. The program
sees the address alone. -/
structure Ptr where
  addr : Nat
  serial : Nat
  deriving DecidableEq, Repr

/-- `FrameLease::Entry`. -/
structure Entry (κ : Type) where
  self : Ptr
  key : κ
  data : Bytes
  ready : Bool
  failed : Bool
  fillError : Error
  refcount : Nat
  deriving DecidableEq

/-- `FrameCache::Impl`, its counters left out. The head of `lru` is the most recently used key. -/
structure Cache (κ : Type) where
  budgetBytes : Nat
  map : FinMap κ (Entry κ)
  lru : List κ
  bytesResident : Nat

namespace Entry

variable {κ : Type}

/-- `refcount.fetch_add(1)`. -/
def pin (e : Entry κ) : Entry κ := { e with refcount := u32 (e.refcount + 1) }

/-- `refcount.fetch_sub(1)`. -/
def unpin (e : Entry κ) : Entry κ := { e with refcount := if e.refcount = 0 then u32 (2 ^ 32 - 1) else e.refcount - 1 }

/-- What an entry counts for in `bytes_resident`. -/
def resident (e : Entry κ) : Nat := if e.ready then e.data.length else 0

/-- What `evict_if_needed` may take. -/
def evictable (e : Entry κ) : Bool := e.refcount = 0 && e.ready

theorem resident_le (e : Entry κ) : e.resident ≤ e.data.length := by
  unfold resident
  split
  · exact Nat.le_refl _
  · exact Nat.zero_le _

end Entry

namespace Cache

variable {κ : Type} [DecidableEq κ]

def new (budgetBytes : Nat) : Cache κ := ⟨budgetBytes, .empty, [], 0⟩

/-- A write to the fields of the entry under `k`. -/
def set (c : Cache κ) (k : κ) (e : Entry κ) : Cache κ := { c with map := c.map.insert k e }

/-- `touch`. -/
def touch (c : Cache κ) (k : κ) : Cache κ := { c with lru := k :: c.lru.erase k }

/-- `lru.erase(e->lru_it); map.erase(it);`. -/
def erase (c : Cache κ) (k : κ) : Cache κ := { c with map := c.map.erase k, lru := c.lru.erase k }

/-! ### Sections -/

/-- `core::Error` as an entry is built with it. -/
def noError : Error := ⟨.internal, "", ""⟩

/-- The placeholder a miss inserts. -/
def placeholder (k : κ) (sizeHint : Nat) (self : Ptr) : Entry κ where
  self := self
  key := k
  data := List.replicate sizeHint 0
  ready := false
  failed := false
  fillError := noError
  refcount := 0

def insertPlaceholder (c : Cache κ) (k : κ) (sizeHint : Nat) (self : Ptr) : Cache κ :=
  { c with map := c.map.insert k (placeholder k sizeHint self), lru := k :: c.lru }

/-- One turn of `evict_if_needed`: the least recently used entry that is ready and not pinned goes. -/
def evictOne (c : Cache κ) : Option (Cache κ) :=
  match c.lru.reverse.find? fun k => (c.map.get? k).any Entry.evictable with
  | none => none
  | some k =>
    (c.map.get? k).map fun e => { c.erase k with bytesResident := u64Sub c.bytesResident e.data.length }

/-- `evict_if_needed`, cut off after `fuel` evictions. -/
def evictLoop : Nat → Cache κ → Cache κ
  | 0, c => c
  | fuel + 1, c =>
    if c.bytesResident ≤ c.budgetBytes then c
    else
      match c.evictOne with
      | none => c
      | some c' => evictLoop fuel c'

/-- `evict_if_needed`. Every eviction shortens the LRU list. -/
def evictIfNeeded (c : Cache κ) : Cache κ := c.evictLoop c.lru.length

/-- The filler's last section up to the call of `evict_if_needed`. -/
def published (c : Cache κ) (k : κ) (e : Entry κ) : Cache κ :=
  { c.set k { e.pin with ready := true } with bytesResident := u64 (c.bytesResident + e.data.length) }

def publish (c : Cache κ) (k : κ) (e : Entry κ) : Cache κ := (c.published k e).evictIfNeeded

/-- `FrameCache::release`. -/
def release (c : Cache κ) (k : κ) (e : Entry κ) : Cache κ :=
  if e.refcount = 1 ∧ e.failed = true then
    match (c.set k e.unpin).map.get? e.key with
    | some found => if found.self.addr = e.self.addr then (c.set k e.unpin).erase e.key else c.set k e.unpin
    | none => c.set k e.unpin
  else c.set k e.unpin

/-- The section in which a filler whose fill failed drops its placeholder. It knows the entry by its address. -/
def cleanup (c : Cache κ) (k : κ) (p : Ptr) : Cache κ :=
  match c.map.get? k with
  | some found => if found.self.addr = p.addr ∧ found.refcount = 0 then c.erase k else c
  | none => c

/-- The entry a pointer leads to, while it is in the map. -/
def deref (c : Cache κ) (k : κ) (p : Ptr) : Option (Entry κ) := (c.map.get? k).filter fun e => e.self = p

theorem deref_eq_some {c : Cache κ} {k : κ} {p : Ptr} {e : Entry κ} :
    c.deref k p = some e ↔ c.map.get? k = some e ∧ e.self = p := by
  simp [deref, Option.filter_eq_some_iff]

/-! ### The representation -/

/-- Map and LRU list hold the same keys, each once; `bytes_resident` counts the ready entries. -/
structure Wf (c : Cache κ) : Prop where
  lru_nodup : c.lru.Nodup
  lru_keys : ∀ k, k ∈ c.lru ↔ k ∈ c.map.keys
  key_eq : ∀ k e, c.map.get? k = some e → e.key = k
  bytes : c.bytesResident = c.map.total Entry.resident
  /-- The entries are in memory at once. -/
  fits : c.map.total (fun e => e.data.length) < 2 ^ 64

namespace Wf

theorem new (budgetBytes : Nat) : Wf (Cache.new budgetBytes : Cache κ) where
  lru_nodup := List.nodup_nil
  lru_keys := fun _ => Iff.rfl
  key_eq := by
    intro k e he
    simp only [Cache.new, FinMap.get?_empty, reduceCtorEq] at he
  bytes := rfl
  fits := Nat.two_pow_pos 64

theorem mem_lru {c : Cache κ} (h : Wf c) {k : κ} {e : Entry κ} (he : c.map.get? k = some e) : k ∈ c.lru :=
  (h.lru_keys k).mpr (FinMap.mem_keys.mpr ⟨e, he⟩)

/-- A write through an entry's pointer that keeps its key and its size. -/
theorem set {c : Cache κ} (h : Wf c) {k : κ} {e e' : Entry κ} {bytes : Nat} (he : c.map.get? k = some e)
    (hkey : e'.key = e.key) (hdata : e'.data.length = e.data.length)
    (hbytes : bytes + e.resident = c.bytesResident + e'.resident) :
    Wf { c.set k e' with bytesResident := bytes } where
  lru_nodup := h.lru_nodup
  lru_keys := by
    intro k'
    have hiff : k' ∈ (c.map.insert k e').keys ↔ k' ∈ c.map.keys := by
      simp only [FinMap.mem_keys, FinMap.get?_insert]
      by_cases hk : k' = k
      · simp [hk, he]
      · simp [hk]
    exact (h.lru_keys k').trans hiff.symm
  key_eq := by
    intro k' f hf
    by_cases hk : k' = k
    · subst hk
      rw [Cache.set, FinMap.get?_insert_self] at hf
      cases hf
      exact hkey.trans (h.key_eq k' e he)
    · rw [Cache.set, FinMap.get?_insert_ne _ _ hk] at hf
      exact h.key_eq k' f hf
  bytes := by
    have hold := h.bytes
    rw [c.map.total_erase k, he] at hold
    show bytes = (c.map.insert k e').total _
    rw [FinMap.total_insert]
    simp only [Option.elim_some] at hold
    omega
  fits := by
    have hold := h.fits
    rw [c.map.total_erase k, he] at hold
    show (c.map.insert k e').total _ < _
    rw [FinMap.total_insert, hdata]
    exact hold

theorem touch {c : Cache κ} (h : Wf c) {k : κ} (hk : k ∈ c.lru) : Wf (c.touch k) where
  lru_nodup := List.nodup_cons.mpr ⟨h.lru_nodup.not_mem_erase, h.lru_nodup.erase k⟩
  lru_keys := by
    intro k'
    show k' ∈ k :: c.lru.erase k ↔ k' ∈ c.map.keys
    rw [← h.lru_keys k', List.mem_cons, h.lru_nodup.mem_erase_iff]
    by_cases hk' : k' = k
    · simp [hk', hk]
    · simp [hk']
  key_eq := h.key_eq
  bytes := h.bytes
  fits := h.fits

theorem erase {c : Cache κ} (h : Wf c) {k : κ} {e : Entry κ} {bytes : Nat} (he : c.map.get? k = some e)
    (hbytes : bytes + e.resident = c.bytesResident) : Wf { c.erase k with bytesResident := bytes } where
  lru_nodup := h.lru_nodup.erase k
  lru_keys := by
    intro k'
    have hiff : k' ∈ (c.map.erase k).keys ↔ k' ≠ k ∧ k' ∈ c.map.keys := by
      simp only [FinMap.mem_keys, FinMap.get?_erase]
      by_cases hk : k' = k
      · simp [hk]
      · simp [hk]
    show k' ∈ c.lru.erase k ↔ k' ∈ (c.map.erase k).keys
    rw [h.lru_nodup.mem_erase_iff, hiff, h.lru_keys k']
  key_eq := by
    intro k' f hf
    by_cases hk : k' = k
    · simp [Cache.erase, FinMap.get?_erase, hk] at hf
    · rw [Cache.erase, FinMap.get?_erase, if_neg hk] at hf
      exact h.key_eq k' f hf
  bytes := by
    have hold := h.bytes
    rw [c.map.total_erase k, he] at hold
    show bytes = (c.map.erase k).total _
    simp only [Option.elim_some] at hold
    omega
  fits := by
    have hold := h.fits
    rw [c.map.total_erase k] at hold
    exact Nat.lt_of_le_of_lt (Nat.le_add_right _ _) hold

theorem insertPlaceholder {c : Cache κ} (h : Wf c) {k : κ} {sizeHint : Nat} {self : Ptr} (hk : c.map.get? k = none)
    (hfit : c.map.total (fun e => e.data.length) + sizeHint < 2 ^ 64) : Wf (c.insertPlaceholder k sizeHint self) where
  lru_nodup := List.nodup_cons.mpr ⟨fun hmem => FinMap.get?_eq_none.mp hk ((h.lru_keys k).mp hmem), h.lru_nodup⟩
  lru_keys := by
    intro k'
    show k' ∈ k :: c.lru ↔ k' ∈ (c.map.insert k _).keys
    simp only [FinMap.mem_keys, FinMap.get?_insert, List.mem_cons, h.lru_keys]
    by_cases hk' : k' = k
    · simp [hk']
    · simp [hk']
  key_eq := by
    intro k' f hf
    by_cases hk' : k' = k
    · subst hk'
      rw [Cache.insertPlaceholder, FinMap.get?_insert_self] at hf
      cases hf
      rfl
    · rw [Cache.insertPlaceholder, FinMap.get?_insert_ne _ _ hk'] at hf
      exact h.key_eq k' f hf
  bytes := by
    have hold := h.bytes
    rw [c.map.total_erase k, hk] at hold
    show c.bytesResident = (c.map.insert k _).total _
    rw [FinMap.total_insert]
    exact hold
  fits := by
    rw [c.map.total_erase k, hk] at hfit
    show (c.map.insert k _).total _ < _
    rw [FinMap.total_insert]
    simpa [placeholder] using hfit

/-- `bytes_resident` never wraps. -/
theorem bytes_add {c : Cache κ} (h : Wf c) {k : κ} {e : Entry κ} (he : c.map.get? k = some e)
    (hready : e.ready = false) : u64 (c.bytesResident + e.data.length) = c.bytesResident + e.data.length := by
  have hres : e.resident = 0 := by simp [Entry.resident, hready]
  have hle : (c.map.erase k).total Entry.resident ≤ (c.map.erase k).total fun e => e.data.length :=
    FinMap.total_mono _ Entry.resident_le
  have hbytes := h.bytes
  have hfits := h.fits
  rw [c.map.total_erase k, he, Option.elim_some] at hbytes hfits
  refine u64_of_lt ?_
  omega

theorem published {c : Cache κ} (h : Wf c) {k : κ} {e : Entry κ} (he : c.map.get? k = some e)
    (hready : e.ready = false) : Wf (c.published k e) := by
  refine h.set he rfl rfl ?_
  rw [h.bytes_add he hready]
  simp [Entry.resident, hready, Entry.pin]

theorem resident_le {c : Cache κ} (h : Wf c) {k : κ} {e : Entry κ} (he : c.map.get? k = some e) :
    e.resident ≤ c.bytesResident ∧ c.bytesResident < 2 ^ 64 := by
  have hle : c.map.total Entry.resident ≤ c.map.total fun e => e.data.length :=
    FinMap.total_mono _ Entry.resident_le
  have hbytes := h.bytes
  refine ⟨?_, by rw [hbytes]; exact Nat.lt_of_le_of_lt hle h.fits⟩
  rw [c.map.total_erase k, he, Option.elim_some] at hbytes
  omega

end Wf

/-! ### Eviction -/

/-- The cache after one entry was evicted. -/
def evicted (c : Cache κ) (k : κ) (e : Entry κ) : Cache κ :=
  { c.erase k with bytesResident := c.bytesResident - e.data.length }

theorem evictOne_eq_some {c c' : Cache κ} (hwf : Wf c) (h : c.evictOne = some c') :
    ∃ k e, c.map.get? k = some e ∧ e.refcount = 0 ∧ e.ready = true ∧ c' = c.evicted k e := by
  unfold evictOne at h
  split at h
  · cases h
  · next k hfind =>
    obtain ⟨e, he, rfl⟩ := Option.map_eq_some_iff.mp h
    have hev : e.evictable = true := by simpa [he] using List.find?_some hfind
    obtain ⟨href, hready⟩ : e.refcount = 0 ∧ e.ready = true := by simpa [Entry.evictable] using hev
    obtain ⟨hle, hlt⟩ := hwf.resident_le he
    rw [Entry.resident, if_pos hready] at hle
    refine ⟨k, e, he, href, hready, ?_⟩
    rw [u64Sub_of_le hle hlt]
    rfl

theorem evictOne_eq_none {c : Cache κ} (hwf : Wf c) (h : c.evictOne = none) {k : κ} {e : Entry κ}
    (he : c.map.get? k = some e) (hready : e.ready = true) : 0 < e.refcount := by
  unfold evictOne at h
  split at h
  · next hfind =>
    have hno := List.find?_eq_none.mp hfind k (List.mem_reverse.mpr (hwf.mem_lru he))
    have : e.refcount ≠ 0 := by simpa [he, Entry.evictable, hready] using hno
    omega
  · next k' hfind =>
    have hany := List.find?_some hfind
    rw [Option.map_eq_none_iff] at h
    simp [h] at hany

theorem Wf.evicted {c : Cache κ} (h : Wf c) {k : κ} {e : Entry κ} (he : c.map.get? k = some e)
    (hready : e.ready = true) : Wf (c.evicted k e) := by
  refine h.erase he ?_
  have hle := (h.resident_le he).1
  rw [Entry.resident, if_pos hready] at hle ⊢
  omega

/-- What every eviction of an unpinned ready entry keeps, `evict_if_needed` keeps. -/
theorem evictLoop_keeps {P : Cache κ → Prop} (hwf : ∀ c, P c → Wf c)
    (hstep : ∀ c k e, P c → c.map.get? k = some e → e.refcount = 0 → e.ready = true → P (c.evicted k e))
    (fuel : Nat) : ∀ {c : Cache κ}, P c → P (c.evictLoop fuel) := by
  induction fuel with
  | zero => exact fun h => h
  | succ fuel ih =>
    intro c h
    unfold evictLoop
    split
    · exact h
    · split
      · exact h
      · next c' hone =>
        obtain ⟨k, e, he, href, hready, rfl⟩ := evictOne_eq_some (hwf c h) hone
        exact ih (hstep c k e h he href hready)

/-- `evict_if_needed` stops within the budget, or when everything that is ready is pinned. -/
theorem evictLoop_stops (fuel : Nat) : ∀ {c : Cache κ}, Wf c → c.lru.length ≤ fuel →
    (c.evictLoop fuel).bytesResident ≤ (c.evictLoop fuel).budgetBytes ∨
      ∀ k e, (c.evictLoop fuel).map.get? k = some e → e.ready = true → 0 < e.refcount := by
  induction fuel with
  | zero =>
    intro c h hlen
    refine Or.inr fun k e he _ => ?_
    have hmem := h.mem_lru he
    rw [List.length_eq_zero_iff.mp (Nat.le_zero.mp hlen)] at hmem
    cases hmem
  | succ fuel ih =>
    intro c h hlen
    unfold evictLoop
    split
    · next hle => exact Or.inl hle
    · split
      · next hone => exact Or.inr fun k e he hready => evictOne_eq_none h hone he hready
      · next c' hone =>
        obtain ⟨k, e, he, _, hready, rfl⟩ := evictOne_eq_some h hone
        refine ih (h.evicted he hready) ?_
        have hlru : (c.evicted k e).lru.length = c.lru.length - 1 :=
          List.length_erase_of_mem (h.mem_lru he)
        omega

/-- What `evict_if_needed` does: only unpinned ready entries go, the others stay as they are. -/
structure Evicts (before after : Cache κ) : Prop where
  keeps : ∀ k e, before.map.get? k = some e → 0 < e.refcount ∨ e.ready = false → after.map.get? k = some e
  only : ∀ k e, after.map.get? k = some e → before.map.get? k = some e
  stops : after.bytesResident ≤ after.budgetBytes ∨
    ∀ k e, after.map.get? k = some e → e.ready = true → 0 < e.refcount

theorem evictIfNeeded_wf {c : Cache κ} (h : Wf c) : Wf c.evictIfNeeded :=
  evictLoop_keeps (fun _ h => h) (fun _ _ _ h he _ hready => h.evicted he hready) _ h

theorem evictIfNeeded_evicts {c : Cache κ} (h : Wf c) : Evicts c c.evictIfNeeded := by
  have hkept : Wf c.evictIfNeeded ∧
      (∀ k e, c.map.get? k = some e → 0 < e.refcount ∨ e.ready = false → c.evictIfNeeded.map.get? k = some e) ∧
      ∀ k e, c.evictIfNeeded.map.get? k = some e → c.map.get? k = some e := by
    refine evictLoop_keeps (P := fun c' => Wf c' ∧
      (∀ k e, c.map.get? k = some e → 0 < e.refcount ∨ e.ready = false → c'.map.get? k = some e) ∧
      ∀ k e, c'.map.get? k = some e → c.map.get? k = some e) (fun _ h => h.1) ?_ _ ⟨h, fun _ _ he _ => he, fun _ _ he => he⟩
    rintro c' k e ⟨hwf, hkeep, honly⟩ he href hready
    have hget : ∀ k', (c'.evicted k e).map.get? k' = if k' = k then none else c'.map.get? k' :=
      fun k' => FinMap.get?_erase c'.map k k'
    refine ⟨hwf.evicted he hready, ?_, ?_⟩
    · intro k' f hf hbusy
      have hstill := hkeep k' f hf hbusy
      rw [hget k']
      by_cases hk : k' = k
      · subst hk
        cases he.symm.trans hstill
        rcases hbusy with hpos | hfill
        · omega
        · rw [hready] at hfill
          cases hfill
      · rw [if_neg hk]
        exact hstill
    · intro k' f hf
      rw [hget k'] at hf
      split at hf
      · cases hf
      · exact honly k' f hf
  exact ⟨hkept.2.1, hkept.2.2, evictLoop_stops _ h (Nat.le_refl _)⟩

/-! ### A call that meets no other -/

/-- The entry of a miss once `fill` has written `data`. -/
def filledEntry (k : κ) (sizeHint : Nat) (self : Ptr) (data : Bytes) : Entry κ :=
  { placeholder k sizeHint self with data := data }

/-- The entry of a miss once `fill` has failed. -/
def failedEntry (k : κ) (sizeHint : Nat) (self : Ptr) (err : Error) : Entry κ :=
  { placeholder k sizeHint self with fillError := err, failed := true }

/-- `get_or_fill` where no other call is under way: its sections one after the other, and the entry that is leased.
A placeholder that nobody fills any more is waited for forever. -/
def getOrFill (c : Cache κ) (k : κ) (sizeHint : Nat) (self : Ptr) (fill : Bytes → Outcome Bytes) :
    Cache κ × Outcome (Entry κ) :=
  match c.map.get? k with
  | some e =>
    if e.ready then ((c.set k e.pin).touch k, .ok e.pin)
    else if e.failed then (c, .error (.error e.fillError))
    else (c.set k e.pin, .error .outOfFuel)
  | none =>
    let inserted := c.insertPlaceholder k sizeHint self
    match fill (placeholder k sizeHint self).data with
    | .ok data =>
      let e := filledEntry k sizeHint self data
      ((inserted.set k e).publish k e, .ok { e.pin with ready := true })
    | .error (.error err) =>
      ((inserted.set k (failedEntry k sizeHint self err)).cleanup k self, .error (.error err))
    | .error other => (inserted, .error other)

/-- Between calls: what is in the cache is filled, as `frame` says, and nobody holds it. -/
def Settled (frame : κ → Bytes) (c : Cache κ) : Prop :=
  ∀ k e, c.map.get? k = some e → e.ready = true ∧ e.failed = false ∧ e.refcount = 0 ∧ e.data = frame k

section
variable {frame : κ → Bytes} {c : Cache κ} {k : κ}

theorem settled_new (budgetBytes : Nat) : Settled frame (Cache.new budgetBytes : Cache κ) := by
  intro k e he
  simp only [Cache.new, FinMap.get?_empty, reduceCtorEq] at he

/-- What every loss of an unpinned entry keeps, `evict_if_needed` keeps. -/
theorem evictLoop_map {P : FinMap κ (Entry κ) → Prop}
    (hstep : ∀ m k e, P m → m.get? k = some e → e.refcount = 0 → P (m.erase k)) (fuel : Nat) :
    ∀ {c : Cache κ}, P c.map → P (c.evictLoop fuel).map := by
  induction fuel with
  | zero => exact fun h => h
  | succ fuel ih =>
    intro c h
    unfold evictLoop
    split
    · exact h
    · split
      · exact h
      · next c' hone =>
        unfold evictOne at hone
        split at hone
        · cases hone
        · next k hfind =>
          obtain ⟨e, he, rfl⟩ := Option.map_eq_some_iff.mp hone
          have hev : e.evictable = true := by simpa [he] using List.find?_some hfind
          have href : e.refcount = 0 := by
            rw [Entry.evictable, Bool.and_eq_true, decide_eq_true_eq] at hev
            exact hev.1
          exact ih (hstep c.map k e h he href)

/-- The lease ends: `k` was pinned once, everything else is as between calls. -/
theorem settled_release {e : Entry κ} (hothers : ∀ k' f, k' ≠ k → c.map.get? k' = some f →
      f.ready = true ∧ f.failed = false ∧ f.refcount = 0 ∧ f.data = frame k')
    (hready : e.ready = true) (hfailed : e.failed = false) (href : e.refcount = 1) (hdata : e.data = frame k) :
    Settled frame (c.release k e) := by
  intro k' f hf
  rw [release, if_neg (by simp [hfailed]), set, FinMap.get?_insert] at hf
  split at hf
  · next hk =>
    cases hf
    rw [hk]
    exact ⟨hready, hfailed, by simp [Entry.unpin, href], hdata⟩
  · next hk => exact hothers k' f hk hf

/-- A hit leases what is there. -/
theorem getOrFill_hit {e : Entry κ} (hc : Settled frame c) (he : c.map.get? k = some e) (sizeHint : Nat) (self : Ptr)
    (fill : Bytes → Outcome Bytes) : ∃ c' e', c.getOrFill k sizeHint self fill = (c', .ok e') ∧ e'.ready = true ∧
      e'.data = frame k ∧ Settled frame (c'.release k e') := by
  obtain ⟨hready, hfailed, href, hdata⟩ := hc k e he
  have hget : c.getOrFill k sizeHint self fill = ((c.set k e.pin).touch k, .ok e.pin) := by
    unfold getOrFill
    rw [he]
    dsimp only
    rw [if_pos hready]
  refine ⟨_, _, hget, hready, hdata, ?_⟩
  refine settled_release (fun k' f hk hf => hc k' f ?_) hready hfailed ?_ hdata
  · rwa [touch, set, FinMap.get?_insert_ne _ _ hk] at hf
  · rw [Entry.pin, href]
    exact u32_of_lt (by norm_num)

/-- A miss whose fill succeeds leases what the fill wrote. -/
theorem getOrFill_filled (hc : Settled frame c) (hk : c.map.get? k = none) {sizeHint : Nat} (self : Ptr)
    {fill : Bytes → Outcome Bytes} (hfill : fill (List.replicate sizeHint 0) = .ok (frame k)) :
    ∃ c' e', c.getOrFill k sizeHint self fill = (c', .ok e') ∧ e'.ready = true ∧ e'.data = frame k ∧
      Settled frame (c'.release k e') := by
  have hget : c.getOrFill k sizeHint self fill =
      (((c.insertPlaceholder k sizeHint self).set k (filledEntry k sizeHint self (frame k))).publish k
        (filledEntry k sizeHint self (frame k)), .ok { (filledEntry k sizeHint self (frame k)).pin with ready := true }) := by
    have hfill' : fill (placeholder k sizeHint self).data = .ok (frame k) := hfill
    unfold getOrFill
    rw [hk]
    dsimp only
    rw [hfill']
  refine ⟨_, _, hget, rfl, rfl, ?_⟩
  have hone : u32 (0 + 1) = 1 := u32_of_lt (by norm_num)
  refine settled_release ?_ rfl rfl hone rfl
  refine evictLoop_map (P := fun m => ∀ k' f, k' ≠ k → m.get? k' = some f →
    f.ready = true ∧ f.failed = false ∧ f.refcount = 0 ∧ f.data = frame k') ?_ _ ?_
  · intro m k' e hm _ _ k'' f hne hf
    rw [FinMap.get?_erase] at hf
    split at hf
    · cases hf
    · exact hm k'' f hne hf
  · intro k' f hne hf
    refine hc k' f ?_
    simpa only [published, set, insertPlaceholder, FinMap.get?_insert_ne _ _ hne] using hf

/-- A miss whose fill fails leaves nothing behind. -/
theorem getOrFill_failed (hc : Settled frame c) (hk : c.map.get? k = none) {sizeHint : Nat} (self : Ptr)
    {fill : Bytes → Outcome Bytes} {err : Error} (hfill : fill (List.replicate sizeHint 0) = .error (.error err)) :
    ∃ c', c.getOrFill k sizeHint self fill = (c', .error (.error err)) ∧ Settled frame c' := by
  have hget : c.getOrFill k sizeHint self fill = (((c.insertPlaceholder k sizeHint self).set k
      (failedEntry k sizeHint self err)).cleanup k self, .error (.error err)) := by
    have hfill' : fill (placeholder k sizeHint self).data = .error (.error err) := hfill
    unfold getOrFill
    rw [hk]
    dsimp only
    rw [hfill']
  refine ⟨_, hget, ?_⟩
  intro k' f hf
  rw [cleanup, set, FinMap.get?_insert_self] at hf
  dsimp only at hf
  rw [if_pos ⟨rfl, rfl⟩, erase, FinMap.get?_erase] at hf
  split at hf
  · cases hf
  · next hne =>
    refine hc k' f ?_
    simpa only [insertPlaceholder, FinMap.get?_insert_ne _ _ hne] using hf

end

end Cache

end SynapseFs.Mount
