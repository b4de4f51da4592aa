import SynapseFs.Lib.Runs
import SynapseFs.Mount.BlockCache

/-! Threads on one frame cache.

A call of `get_or_fill` is a process of its own: it goes through the sections of
the source one by one, with the other calls in between, until it holds a lease,
and it ends when the lease is released. A section under a mutex is one step, and
so is every access to an entry outside the mutexes: the writes of `fill`, the test
after the wait, the copy of `fill_error`, `notify_all`, a read through a lease. A
step through a pointer whose entry is no longer in the map is undefined in C++;
the call that takes it goes `wild` and takes no further step.

The environment chooses who moves, what `fill` writes and returns, and the address
of a new entry, which is the address of no entry alive. -/
namespace SynapseFs.Mount
open Lib Core

/-- Where a call of `get_or_fill` stands, with the entry it points to. -/
inductive Pc where
  /-- Before the first section. -/
  | start
  /-- Pinned, in `fill_cv.wait`. -/
  | waiting (p : Ptr)
  /-- The wait is over. -/
  | woken (p : Ptr)
  /-- The fill it waited for failed; `release` is next. -/
  | waitFailed (p : Ptr)
  /-- Released; the copy of `fill_error` is next. -/
  | readError (p : Ptr)
  /-- The fill it waited for succeeded; the LRU order is next. -/
  | refresh (p : Ptr)
  /-- In `fill`. -/
  | filling (p : Ptr)
  /-- `fill` failed; the store of `failed` is next. -/
  | fillFailed (p : Ptr) (err : Error)
  /-- `notify_all` after the store of `failed` is next. -/
  | notifyFailed (p : Ptr) (err : Error)
  /-- Dropping the failed placeholder is next. -/
  | cleanup (p : Ptr) (err : Error)
  /-- `fill` succeeded; the publishing section is next. -/
  | publish (p : Ptr)
  /-- `notify_all` after the publication is next. -/
  | notifyReady (p : Ptr)
  /-- A lease is out. -/
  | leased (p : Ptr)
  | released
  | failed (err : Error)
  /-- `std::bad_alloc` left the call. -/
  | thrown
  /-- The call has used an entry that was gone. -/
  | wild
  deriving DecidableEq

namespace Pc

/-- The entry a call still has steps on. -/
def ptr : Pc → Option Ptr
  | waiting p | woken p | waitFailed p | readError p | refresh p | filling p | fillFailed p _ | notifyFailed p _
  | cleanup p _ | publish p | notifyReady p | leased p => some p
  | start | released | failed _ | thrown | wild => none

/-- The entry a call has pinned. -/
def pinned : Pc → Option Ptr
  | waiting p | woken p | waitFailed p | refresh p | notifyReady p | leased p => some p
  | _ => none

/-- The entry whose fill a call has in its hands, until the outcome is known to the others. -/
def fills : Pc → Option Ptr
  | filling p | fillFailed p _ | publish p => some p
  | _ => none

/-- The entry a call has inserted and not yet published or dropped. -/
def owns : Pc → Option Ptr
  | filling p | fillFailed p _ | notifyFailed p _ | cleanup p _ | publish p => some p
  | _ => none

end Pc

/-- A call of `get_or_fill`. -/
structure Call (κ : Type) where
  key : κ
  sizeHint : Nat
  pc : Pc

/-- A fill that succeeded: for which allocation and key, and the bytes it left. -/
structure Fill (κ : Type) where
  serial : Nat
  key : κ
  bytes : Bytes

/-- The cache, the calls on it, the number of entries ever allocated, and the fills that succeeded. The last two
are there to speak about the runs; no section reads them. -/
structure Sys (κ : Type) where
  cache : Cache κ
  calls : List (Call κ)
  allocated : Nat
  fills : List (Fill κ)

/-- What a call does next, with what the environment answers. -/
inductive Move where
  /-- The first section. On a miss the new entry gets this address, or the allocation throws. -/
  | lookup (alloc : Option Nat)
  /-- The predicate of the wait is evaluated. -/
  | wait
  /-- `fill` has written into the buffer. -/
  | write (data : Bytes)
  /-- `fill` returns. -/
  | fillReturn (st : Except Error Unit)
  /-- The next section or access, where there is only one. -/
  | next
  /-- `lease.bytes()`. -/
  | read
  /-- The lease is dropped. -/
  | release

inductive Act (κ : Type) where
  /-- A thread calls `get_or_fill`. -/
  | enter (key : κ) (sizeHint : Nat)
  /-- Call number `i` moves. -/
  | run (i : Nat) (m : Move)

namespace Sys

variable {κ : Type} [DecidableEq κ]

def new (budgetBytes : Nat) : Sys κ := ⟨.new budgetBytes, [], 0, []⟩

/-- Call `i`, which was `c`, is at `pc` now, and the cache is `cache`. -/
def put (s : Sys κ) (i : Nat) (c : Call κ) (pc : Pc) (cache : Cache κ) : Sys κ :=
  { s with cache := cache, calls := s.calls.set i { c with pc := pc } }

/-- A step through an entry pointer. -/
def through (s : Sys κ) (i : Nat) (c : Call κ) (p : Ptr) (f : Entry κ → Option (Sys κ)) : Option (Sys κ) :=
  match s.cache.deref c.key p with
  | some e => f e
  | none => some (s.put i c .wild s.cache)

/-- An address that no entry alive has, and room for `size` bytes more. -/
def allocates (s : Sys κ) (addr size : Nat) : Bool :=
  (s.cache.map.entries.all fun e => e.2.self.addr ≠ addr) &&
    s.cache.map.total (fun e => e.data.length) + size < 2 ^ 64

/-- The first section of `get_or_fill`. -/
def lookup (s : Sys κ) (i : Nat) (c : Call κ) (alloc : Option Nat) : Option (Sys κ) :=
  match s.cache.map.get? c.key with
  | some e =>
    if e.ready then some (s.put i c (.leased e.self) ((s.cache.set c.key e.pin).touch c.key))
    else if e.failed then some (s.put i c (.failed e.fillError) s.cache)
    else some (s.put i c (.waiting e.self) (s.cache.set c.key e.pin))
  | none =>
    match alloc with
    | none => some (s.put i c .thrown s.cache)
    | some addr =>
      if s.allocates addr c.sizeHint then
        let self : Ptr := ⟨addr, s.allocated⟩
        some { s.put i c (.filling self) (s.cache.insertPlaceholder c.key c.sizeHint self) with
          allocated := s.allocated + 1 }
      else none

/-- The fills that succeeded, once the one of `c` has. -/
def recorded (s : Sys κ) (c : Call κ) (p : Ptr) : List (Fill κ) :=
  match s.cache.deref c.key p with
  | some e => s.fills ++ [⟨p.serial, c.key, e.data⟩]
  | none => s.fills

/-- A step of call `i`, which is `c`. -/
def move (s : Sys κ) (i : Nat) (c : Call κ) (m : Move) : Option (Sys κ) :=
  match c.pc, m with
  | .start, .lookup alloc => s.lookup i c alloc
  | .waiting p, .wait => s.through i c p fun e =>
      if e.ready || e.failed then some (s.put i c (.woken p) s.cache) else some s
  | .woken p, .next => s.through i c p fun e =>
      some (s.put i c (if e.failed then .waitFailed p else .refresh p) s.cache)
  | .waitFailed p, .next => s.through i c p fun e => some (s.put i c (.readError p) (s.cache.release c.key e))
  | .readError p, .next => s.through i c p fun e => some (s.put i c (.failed e.fillError) s.cache)
  | .refresh p, .next => s.through i c p fun _ => some (s.put i c (.leased p) (s.cache.touch c.key))
  | .filling p, .write data => s.through i c p fun e =>
      if data.length = e.data.length then some (s.put i c (.filling p) (s.cache.set c.key { e with data := data }))
      else none
  | .filling p, .fillReturn (.ok _) => some { s.put i c (.publish p) s.cache with fills := s.recorded c p }
  | .filling p, .fillReturn (.error err) => some (s.put i c (.fillFailed p err) s.cache)
  | .fillFailed p err, .next => s.through i c p fun e =>
      some (s.put i c (.notifyFailed p err) (s.cache.set c.key { e with fillError := err, failed := true }))
  | .notifyFailed p err, .next => s.through i c p fun _ => some (s.put i c (.cleanup p err) s.cache)
  | .cleanup p err, .next => some (s.put i c (.failed err) (s.cache.cleanup c.key p))
  | .publish p, .next => s.through i c p fun e => some (s.put i c (.notifyReady p) (s.cache.publish c.key e))
  | .notifyReady p, .next => s.through i c p fun _ => some (s.put i c (.leased p) s.cache)
  | .leased p, .read => s.through i c p fun _ => some s
  | .leased p, .release => s.through i c p fun e => some (s.put i c .released (s.cache.release c.key e))
  | _, _ => none

def step (s : Sys κ) : Act κ → Option (Sys κ)
  | .enter key sizeHint => some { s with calls := s.calls ++ [⟨key, sizeHint, .start⟩] }
  | .run i m => (s.calls[i]?).bind fun c => s.move i c m

/-- The entry whose fields a step of `c` reads or writes through the pointer it has kept. A section that finds the
entry in the map, as `lookup` and `cleanup` do, uses what it has just found there. -/
def uses (c : Call κ) : Option Ptr :=
  match c.pc with
  | .cleanup _ _ => none
  | pc => pc.ptr

/-- `lease.bytes()`. -/
def leaseBytes (s : Sys κ) (c : Call κ) (p : Ptr) : Option Bytes :=
  (s.cache.deref c.key p).map fun e => if e.ready then e.data else []

/-- What the condition asks of the entry under a call's key before the call moves. -/
def quiet (c : Call κ) (e : Entry κ) : Bool :=
  match c.pc with
  | .fillFailed p _ => e.self ≠ p || e.refcount = 0
  | .start | .publish _ => e.refcount + 1 < 2 ^ 32
  | _ => true

/-- No fill fails while another call waits on its entry, and no entry is pinned `2 ^ 32` times. -/
def undisturbed (s : Sys κ) : Act κ → Bool
  | .enter _ _ => true
  | .run i _ => (s.calls[i]?).all fun c => (s.cache.map.get? c.key).all fun e => quiet c e

end Sys

/-! ### What a call may rely on -/

/-- What holds of the entry a call points to, where the call stands. Without failed fills under waiting calls, a
call never finds the fill it waited for failed. -/
def Phase {κ : Type} (fills : List (Fill κ)) (k : κ) (pc : Pc) (e : Entry κ) : Prop :=
  match pc with
  | .waiting _ => e.failed = false
  | .woken _ | .refresh _ | .notifyReady _ | .leased _ => e.ready = true
  | .filling _ => e.ready = false ∧ e.failed = false ∧ ∀ f ∈ fills, f.serial ≠ e.self.serial
  | .fillFailed _ _ => e.ready = false ∧ e.failed = false
  | .publish _ => e.ready = false ∧ e.failed = false ∧ ⟨e.self.serial, k, e.data⟩ ∈ fills
  | .notifyFailed _ _ | .cleanup _ _ => e.ready = false ∧ e.failed = true
  | .waitFailed _ | .readError _ => False
  | .start | .released | .failed _ | .thrown | .wild => True

theorem Pc.ptr_of_pinned {pc : Pc} {p : Ptr} (h : pc.pinned = some p) : pc.ptr = some p := by
  cases pc <;> first | exact h | cases h

theorem Pc.ptr_of_owns {pc : Pc} {p : Ptr} (h : pc.owns = some p) : pc.ptr = some p := by
  cases pc <;> first | exact h | cases h

theorem Pc.owns_of_fills {pc : Pc} {p : Ptr} (h : pc.fills = some p) : pc.owns = some p := by
  cases pc <;> first | exact h | cases h

theorem Pc.pinned_of_owns {pc : Pc} {p : Ptr} (h : pc.owns = some p) : pc.pinned = none := by
  cases pc <;> first | rfl | cases h

/-- A call with steps left on an entry has pinned it or has inserted it. -/
theorem Pc.pinned_or_owns {κ : Type} {fills : List (Fill κ)} {k : κ} {pc : Pc} {p : Ptr} {e : Entry κ}
    (h : pc.ptr = some p) (hphase : Phase fills k pc e) : pc.pinned = some p ∨ pc.owns = some p := by
  cases pc <;> first | exact Or.inl h | exact Or.inr h | exact False.elim hphase

theorem Phase.not_ready_of_owns {κ : Type} {fills : List (Fill κ)} {k : κ} {pc : Pc} {p : Ptr} {e : Entry κ}
    (h : Phase fills k pc e) (howns : pc.owns = some p) : e.ready = false := by
  cases pc <;> first | exact h.1 | cases howns

/-- What a call that has pinned an entry relies on survives every write that keeps the entry ready or not failed. -/
theorem Phase.of_pinned {κ : Type} {fills fills' : List (Fill κ)} {k : κ} {pc : Pc} {p : Ptr} {e e' : Entry κ}
    (h : Phase fills k pc e) (hpin : pc.pinned = some p) (hready : e.ready = true → e'.ready = true)
    (hfailed : e.failed = false → e'.failed = false) : Phase fills' k pc e' := by
  cases pc <;> first | exact hready h | exact hfailed h | exact False.elim h | cases hpin

/-- More fills, of other entries. -/
theorem Phase.more_fills {κ : Type} {fills fills' : List (Fill κ)} {k : κ} {pc : Pc} {e : Entry κ}
    (h : Phase fills k pc e) (hsub : ∀ f ∈ fills, f ∈ fills')
    (hnew : ∀ f ∈ fills', f ∈ fills ∨ f.serial ≠ e.self.serial) : Phase fills' k pc e := by
  cases pc with
  | filling _ =>
    obtain ⟨hready, hfailed, hfresh⟩ := h
    refine ⟨hready, hfailed, fun f hf => ?_⟩
    rcases hnew f hf with hold | hne
    · exact hfresh f hold
    · exact hne
  | publish _ => exact ⟨h.1, h.2.1, hsub _ h.2.2⟩
  | _ => exact h

namespace Sys

variable {κ : Type} [DecidableEq κ]

/-- A call is not wild, and its entry is in the map, in the state the call relies on. -/
structure Held (s : Sys κ) (c : Call κ) : Prop where
  sane : c.pc ≠ .wild
  entry : ∀ p, c.pc.ptr = some p → ∃ e, s.cache.deref c.key p = some e ∧ Phase s.fills c.key c.pc e

structure Inv (s : Sys κ) : Prop where
  wf : s.cache.Wf
  serial_lt : ∀ k e, s.cache.map.get? k = some e → e.self.serial < s.allocated
  serial_inj : ∀ k k' e e', s.cache.map.get? k = some e → s.cache.map.get? k' = some e' →
    e.self.serial = e'.self.serial → k = k'
  refs : ∀ k e, s.cache.map.get? k = some e →
    e.refcount = s.calls.countP fun c => c.pc.pinned = some e.self
  refs_lt : ∀ k e, s.cache.map.get? k = some e → e.refcount < 2 ^ 32
  ready : ∀ k e, s.cache.map.get? k = some e → e.ready = true →
    e.failed = false ∧ ⟨e.self.serial, k, e.data⟩ ∈ s.fills
  held : ∀ (i : Nat) c, s.calls[i]? = some c → s.Held c
  sole : ∀ (i j : Nat) c d p, s.calls[i]? = some c → s.calls[j]? = some d → c.pc.owns = some p → d.pc.owns = some p → i = j
  fills_lt : ∀ f ∈ s.fills, f.serial < s.allocated
  fills_nodup : (s.fills.map Fill.serial).Nodup

theorem inv_new (budgetBytes : Nat) : Inv (Sys.new budgetBytes : Sys κ) := by
  have hget : ∀ k e, (Sys.new budgetBytes : Sys κ).cache.map.get? k = some e → False := fun _ _ he => by cases he
  have hcall : ∀ (i : Nat) c, (Sys.new budgetBytes : Sys κ).calls[i]? = some c → False :=
    fun _ _ hc => by simp [Sys.new] at hc
  exact ⟨.new budgetBytes, fun k e he => (hget k e he).elim, fun k _ e _ he => (hget k e he).elim,
    fun k e he => (hget k e he).elim, fun k e he => (hget k e he).elim, fun k e he => (hget k e he).elim,
    fun i c hc => (hcall i c hc).elim,
    fun i _ c _ _ hc => (hcall i c hc).elim, fun _ hf => (by cases hf), List.nodup_nil⟩

namespace Inv

variable {s : Sys κ}

/-- A pointer leads to one key. -/
theorem same_key (h : Inv s) {k k' : κ} {p : Ptr} {e e' : Entry κ} (he : s.cache.deref k p = some e)
    (he' : s.cache.deref k' p = some e') : k = k' := by
  obtain ⟨hget, hself⟩ := Cache.deref_eq_some.mp he
  obtain ⟨hget', hself'⟩ := Cache.deref_eq_some.mp he'
  exact h.serial_inj k k' e e' hget hget' (by rw [hself, hself'])

/-- The entries of two keys are different allocations. -/
theorem self_ne (h : Inv s) {k k' : κ} {e e' : Entry κ} (he : s.cache.map.get? k = some e)
    (he' : s.cache.map.get? k' = some e') (hk : k ≠ k') : e.self ≠ e'.self :=
  fun hself => hk (h.serial_inj k k' e e' he he' (by rw [hself]))

/-- An entry that is unpinned and that nobody has in his hands is pointed to by no call. -/
theorem free (h : Inv s) {k : κ} {e : Entry κ} (he : s.cache.map.get? k = some e) (href : e.refcount = 0)
    (howns : ∀ (i : Nat) c, s.calls[i]? = some c → c.pc.owns ≠ some e.self) (i : Nat) (c : Call κ)
    (hc : s.calls[i]? = some c) : c.pc.ptr ≠ some e.self := by
  intro hptr
  obtain ⟨_, _, hphase⟩ := (h.held i c hc).entry e.self hptr
  rcases Pc.pinned_or_owns hptr hphase with hpin | hown
  · have hpos := List.countP_pos_iff (p := fun c : Call κ => decide (c.pc.pinned = some e.self)).mpr
      ⟨c, List.mem_of_getElem? hc, decide_eq_true hpin⟩
    rw [← h.refs k e he, href] at hpos
    exact Nat.lt_irrefl 0 hpos
  · exact howns i c hc hown

/-- An entry that no call points to may go. -/
theorem drop (h : Inv s) {k : κ} {e : Entry κ} {cache : Cache κ} (he : s.cache.map.get? k = some e)
    (hwf : cache.Wf) (hmap : ∀ k', cache.map.get? k' = if k' = k then none else s.cache.map.get? k')
    (hfree : ∀ (i : Nat) c, s.calls[i]? = some c → c.pc.ptr ≠ some e.self) : Inv { s with cache := cache } := by
  have hold : ∀ k' e', cache.map.get? k' = some e' → s.cache.map.get? k' = some e' := by
    intro k' e' he'
    rw [hmap k'] at he'
    split at he'
    · cases he'
    · exact he'
  refine ⟨hwf, fun k' e' he' => h.serial_lt k' e' (hold k' e' he'),
    fun k₁ k₂ e₁ e₂ h₁ h₂ => h.serial_inj k₁ k₂ e₁ e₂ (hold k₁ e₁ h₁) (hold k₂ e₂ h₂),
    fun k' e' he' => h.refs k' e' (hold k' e' he'), fun k' e' he' => h.refs_lt k' e' (hold k' e' he'),
    fun k' e' he' => h.ready k' e' (hold k' e' he'), ?_, h.sole, h.fills_lt, h.fills_nodup⟩
  intro i c hc
  refine ⟨(h.held i c hc).sane, fun p hp => ?_⟩
  obtain ⟨e', he', hphase⟩ := (h.held i c hc).entry p hp
  obtain ⟨hget, hself⟩ := Cache.deref_eq_some.mp he'
  refine ⟨e', Cache.deref_eq_some.mpr ⟨?_, hself⟩, hphase⟩
  show cache.map.get? c.key = some e'
  rw [hmap c.key, if_neg]
  · exact hget
  · rintro rfl
    cases he.symm.trans hget
    exact hfree i c hc (hp.trans (congrArg some hself.symm))

/-- `evict_if_needed` takes only entries that no call points to. -/
theorem evictIfNeeded (h : Inv s) : Inv { s with cache := s.cache.evictIfNeeded } := by
  refine Cache.evictLoop_keeps (P := fun c => Inv { s with cache := c }) (fun _ h => h.wf) ?_ _ h
  intro c k e hc he href hready
  refine drop hc he (hc.wf.evicted he hready) (fun k' => FinMap.get?_erase c.map k k') (hc.free he href ?_)
  intro i d hd howns
  obtain ⟨e', he', hphase⟩ := (hc.held i d hd).entry e.self (Pc.ptr_of_owns howns)
  have hkey := hc.same_key he' (Cache.deref_eq_some.mpr ⟨he, rfl⟩)
  rw [hkey] at he'
  cases (Cache.deref_eq_some.mp he').1.symm.trans he
  have hnot := hphase.not_ready_of_owns howns
  rw [hready] at hnot
  cases hnot

/-- Call `i` moves on and writes the entry under its key. What the other calls rely on must survive the write. -/
theorem update (h : Inv s) {i : Nat} {c : Call κ} {e : Entry κ} {cache : Cache κ} {pc : Pc} {fills : List (Fill κ)}
    (e' : Entry κ) (hc : s.calls[i]? = some c) (he : s.cache.map.get? c.key = some e) (hwf : cache.Wf)
    (hmap : ∀ k, cache.map.get? k = if k = c.key then some e' else s.cache.map.get? k) (hself : e'.self = e.self)
    (hwas : ∀ p, c.pc.pinned = some p → p = e.self) (hptr : ∀ p, pc.ptr = some p → p = e.self)
    (href : e'.refcount + (if c.pc.pinned = some e.self then 1 else 0) =
      e.refcount + if pc.pinned = some e.self then 1 else 0)
    (hlt : e'.refcount < 2 ^ 32)
    (hready : e'.ready = true → e'.failed = false ∧ ⟨e.self.serial, c.key, e'.data⟩ ∈ fills)
    (howns : ∀ p, pc.owns = some p → c.pc.owns = some p) (hsane : pc ≠ .wild) (hphase : Phase fills c.key pc e')
    (hothers : ∀ (j : Nat) d, j ≠ i → s.calls[j]? = some d → d.pc.ptr = some e.self → Phase s.fills c.key d.pc e →
      Phase fills c.key d.pc e')
    (hfills : fills = s.fills ∨
      (∃ b, fills = s.fills ++ [⟨e.self.serial, c.key, b⟩]) ∧ ∀ f ∈ s.fills, f.serial ≠ e.self.serial) :
    Inv { s.put i c pc cache with fills := fills } := by
  have hsub : ∀ f ∈ s.fills, f ∈ fills := by
    rcases hfills with rfl | ⟨⟨b, rfl⟩, _⟩
    · exact fun _ hf => hf
    · exact fun _ hf => List.mem_append_left _ hf
  have hnew : ∀ f ∈ fills, f ∈ s.fills ∨ f.serial = e.self.serial := by
    rcases hfills with rfl | ⟨⟨b, rfl⟩, _⟩
    · exact fun _ hf => Or.inl hf
    · intro f hf
      rcases List.mem_append.mp hf with hf | hf
      · exact Or.inl hf
      · cases List.mem_singleton.mp hf
        exact Or.inr rfl
  -- The entry of a key is the old one, or the one just written, which is the same allocation.
  have hold : ∀ k f, cache.map.get? k = some f → ∃ f₀, s.cache.map.get? k = some f₀ ∧ f.self = f₀.self ∧
      (k = c.key ∧ f = e' ∧ f₀ = e ∨ k ≠ c.key ∧ f = f₀) := by
    intro k f hf
    rw [hmap k] at hf
    by_cases hk : k = c.key
    · rw [if_pos hk] at hf
      cases hf
      exact ⟨e, hk ▸ he, hself, Or.inl ⟨hk, rfl, rfl⟩⟩
    · rw [if_neg hk] at hf
      exact ⟨f, hf, rfl, Or.inr ⟨hk, rfl⟩⟩
  refine ⟨hwf, ?_, ?_, ?_, ?_, ?_, ?_, ?_, ?_, ?_⟩
  · intro k f hf
    obtain ⟨f₀, hf₀, hs, _⟩ := hold k f hf
    rw [hs]
    exact h.serial_lt k f₀ hf₀
  · intro k k' f f' hf hf' hserial
    obtain ⟨f₀, hf₀, hs, _⟩ := hold k f hf
    obtain ⟨f₁, hf₁, hs', _⟩ := hold k' f' hf'
    rw [hs, hs'] at hserial
    exact h.serial_inj k k' f₀ f₁ hf₀ hf₁ hserial
  · intro k f hf
    obtain ⟨f₀, hf₀, hs, hcase⟩ := hold k f hf
    have hcount := h.refs k f₀ hf₀
    show f.refcount = (s.calls.set i { c with pc := pc }).countP _
    have hset := countP_set_add (fun d : Call κ => decide (d.pc.pinned = some f.self)) { c with pc := pc } hc
    simp only [decide_eq_true_eq] at hset
    rcases hcase with ⟨rfl, rfl, rfl⟩ | ⟨hk, rfl⟩
    · rw [hs] at hset ⊢
      rw [hcount] at href
      exact Nat.add_right_cancel (href.trans hset.symm)
    · have hne : f.self ≠ e.self := h.self_ne hf₀ he hk
      rw [if_neg fun hpin => hne (hwas _ hpin), if_neg fun hpin => hne (hptr _ (Pc.ptr_of_pinned hpin))] at hset
      exact hcount.trans hset.symm
  · intro k f hf
    obtain ⟨f₀, hf₀, _, ⟨_, rfl, _⟩ | ⟨_, rfl⟩⟩ := hold k f hf
    · exact hlt
    · exact h.refs_lt k f hf₀
  · intro k f hf hr
    obtain ⟨f₀, hf₀, hs, hcase⟩ := hold k f hf
    rcases hcase with ⟨rfl, rfl, rfl⟩ | ⟨_, rfl⟩
    · rw [hs]
      exact hready hr
    · exact ⟨(h.ready k f hf₀ hr).1, hsub _ (h.ready k f hf₀ hr).2⟩
  · intro j d hd
    rcases getElem?_set_cases hd with ⟨_, rfl⟩ | ⟨hj, hd⟩
    · refine ⟨hsane, fun p hp => ⟨e', Cache.deref_eq_some.mpr ⟨?_, ?_⟩, hphase⟩⟩
      · exact (hmap c.key).trans (if_pos rfl)
      · rw [hself, hptr p hp]
    · refine ⟨(h.held j d hd).sane, fun p hp => ?_⟩
      obtain ⟨f, hf, hph⟩ := (h.held j d hd).entry p hp
      obtain ⟨hget, hfp⟩ := Cache.deref_eq_some.mp hf
      by_cases hk : d.key = c.key
      · rw [hk] at hget hph ⊢
        cases he.symm.trans hget
        refine ⟨e', Cache.deref_eq_some.mpr ⟨(hmap c.key).trans (if_pos rfl), hself.trans hfp⟩, ?_⟩
        exact hothers j d hj hd (hp.trans (congrArg some hfp.symm)) hph
      · refine ⟨f, Cache.deref_eq_some.mpr ⟨((hmap d.key).trans (if_neg hk)).trans hget, hfp⟩, ?_⟩
        refine hph.more_fills hsub fun g hg => ?_
        rcases hnew g hg with hg | hg
        · exact Or.inl hg
        · refine Or.inr fun hsame => hk ?_
          exact h.serial_inj _ _ _ _ hget he (hsame.symm.trans hg)
  · intro j j' d d' p hd hd' hown hown'
    rcases getElem?_set_cases hd with ⟨hj, rfl⟩ | ⟨_, hd₀⟩ <;>
      rcases getElem?_set_cases hd' with ⟨hj', rfl⟩ | ⟨_, hd₀'⟩
    · rw [hj, hj']
    · rw [hj]
      exact h.sole _ _ _ _ p hc hd₀' (howns p hown) hown'
    · rw [hj']
      exact h.sole _ _ _ _ p hd₀ hc hown (howns p hown')
    · exact h.sole _ _ _ _ p hd₀ hd₀' hown hown'
  · intro f hf
    rcases hnew f hf with hf | hf
    · exact h.fills_lt f hf
    · rw [hf]
      exact h.serial_lt _ _ he
  · rcases hfills with rfl | ⟨⟨b, rfl⟩, hfresh⟩
    · exact h.fills_nodup
    · show ((s.fills ++ [_]).map Fill.serial).Nodup
      rw [List.map_append, List.nodup_append]
      refine ⟨h.fills_nodup, List.nodup_singleton _, ?_⟩
      intro a ha b' hb
      obtain ⟨f, hf, rfl⟩ := List.mem_map.mp ha
      cases List.mem_singleton.mp hb
      exact hfresh f hf

/-- A call that points to nothing goes on to a place where it points to nothing. -/
theorem leave (h : Inv s) {i : Nat} {c : Call κ} {pc : Pc} (hc : s.calls[i]? = some c) (hwas : c.pc.ptr = none)
    (hptr : pc.ptr = none) (hsane : pc ≠ .wild) : Inv (s.put i c pc s.cache) := by
  have hpin : c.pc.pinned = none := Option.eq_none_iff_forall_ne_some.mpr fun p hp => by
    rw [Pc.ptr_of_pinned hp] at hwas
    cases hwas
  have hpin' : pc.pinned = none := Option.eq_none_iff_forall_ne_some.mpr fun p hp => by
    rw [Pc.ptr_of_pinned hp] at hptr
    cases hptr
  refine ⟨h.wf, h.serial_lt, h.serial_inj, ?_, h.refs_lt, h.ready, ?_, ?_, h.fills_lt, h.fills_nodup⟩
  · intro k e he
    have hset := countP_set_add (fun d : Call κ => decide (d.pc.pinned = some e.self)) { c with pc := pc } hc
    simp only [decide_eq_true_eq, hpin, hpin', reduceCtorEq, if_false, Nat.add_zero] at hset
    exact (h.refs k e he).trans hset.symm
  · intro j d hd
    rcases getElem?_set_cases hd with ⟨_, rfl⟩ | ⟨_, hd⟩
    · exact ⟨hsane, fun p hp => by rw [hptr] at hp; cases hp⟩
    · exact ⟨(h.held j d hd).sane, (h.held j d hd).entry⟩
  · intro j j' d d' p hd hd' hown hown'
    rcases getElem?_set_cases hd with ⟨_, rfl⟩ | ⟨_, hold⟩
    · rw [Pc.ptr_of_owns hown] at hptr
      cases hptr
    · rcases getElem?_set_cases hd' with ⟨_, rfl⟩ | ⟨_, hold'⟩
      · rw [Pc.ptr_of_owns hown'] at hptr
        cases hptr
      · exact h.sole j j' d d' p hold hold' hown hown'

/-- A thread comes in. -/
theorem enter (h : Inv s) (key : κ) (sizeHint : Nat) :
    Inv { s with calls := s.calls ++ [⟨key, sizeHint, .start⟩] } := by
  refine ⟨h.wf, h.serial_lt, h.serial_inj, ?_, h.refs_lt, h.ready, ?_, ?_, h.fills_lt, h.fills_nodup⟩
  · intro k e he
    show e.refcount = (s.calls ++ [_]).countP _
    rw [List.countP_append, ← h.refs k e he]
    rfl
  · intro j d hd
    rcases getElem?_append_cases hd with rfl | hd
    · exact ⟨nofun, nofun⟩
    · exact ⟨(h.held j d hd).sane, (h.held j d hd).entry⟩
  · intro j j' d d' p hd hd' hown hown'
    rcases getElem?_append_cases hd with rfl | hold
    · cases hown
    · rcases getElem?_append_cases hd' with rfl | hold'
      · cases hown'
      · exact h.sole j j' d d' p hold hold' hown hown'

/-- A miss inserts its placeholder and starts to fill. -/
theorem insert (h : Inv s) {i : Nat} {c : Call κ} {addr : Nat} (hc : s.calls[i]? = some c) (hwas : c.pc = .start)
    (hmiss : s.cache.map.get? c.key = none)
    (hfit : s.cache.map.total (fun e => e.data.length) + c.sizeHint < 2 ^ 64) :
    Inv { s.put i c (.filling ⟨addr, s.allocated⟩) (s.cache.insertPlaceholder c.key c.sizeHint ⟨addr, s.allocated⟩) with
      allocated := s.allocated + 1 } := by
  have hmap : ∀ k, (s.cache.insertPlaceholder c.key c.sizeHint ⟨addr, s.allocated⟩).map.get? k =
      if k = c.key then some (Cache.placeholder c.key c.sizeHint ⟨addr, s.allocated⟩) else s.cache.map.get? k :=
    fun k => FinMap.get?_insert s.cache.map c.key k _
  have hold : ∀ k e, (s.cache.insertPlaceholder c.key c.sizeHint ⟨addr, s.allocated⟩).map.get? k = some e →
      k = c.key ∧ e = Cache.placeholder c.key c.sizeHint ⟨addr, s.allocated⟩ ∨
        s.cache.map.get? k = some e ∧ e.self.serial < s.allocated := by
    intro k e he
    rw [hmap k] at he
    split at he
    · next hk =>
      cases he
      exact Or.inl ⟨hk, rfl⟩
    · exact Or.inr ⟨he, h.serial_lt k e he⟩
  -- The new serial is larger than every serial that a call still points to.
  have hptr : ∀ (j : Nat) d p, s.calls[j]? = some d → d.pc.ptr = some p → p.serial < s.allocated := by
    intro j d p hd hp
    obtain ⟨e, he, _⟩ := (h.held j d hd).entry p hp
    obtain ⟨hget, rfl⟩ := Cache.deref_eq_some.mp he
    exact h.serial_lt _ _ hget
  refine ⟨h.wf.insertPlaceholder hmiss hfit, ?_, ?_, ?_, ?_, ?_, ?_, ?_, ?_, h.fills_nodup⟩
  · intro k e he
    show e.self.serial < s.allocated + 1
    rcases hold k e he with ⟨_, rfl⟩ | ⟨_, hlt⟩
    · exact Nat.lt_succ_self _
    · exact Nat.lt_succ_of_lt hlt
  · intro k k' e e' he he' hserial
    rcases hold k e he with ⟨rfl, rfl⟩ | ⟨hget, hlt⟩ <;> rcases hold k' e' he' with ⟨rfl, rfl⟩ | ⟨hget', hlt'⟩
    · rfl
    · rw [← hserial] at hlt'
      exact absurd hlt' (Nat.lt_irrefl _)
    · rw [hserial] at hlt
      exact absurd hlt (Nat.lt_irrefl _)
    · exact h.serial_inj k k' e e' hget hget' hserial
  · intro k e he
    have hset := countP_set_add (fun d : Call κ => decide (d.pc.pinned = some e.self))
      { c with pc := .filling ⟨addr, s.allocated⟩ } hc
    simp only [decide_eq_true_eq] at hset
    rw [if_neg (by rw [hwas]; nofun), if_neg nofun] at hset
    refine Eq.trans ?_ (Nat.add_right_cancel hset).symm
    rcases hold k e he with ⟨_, rfl⟩ | ⟨hget, _⟩
    · refine (List.countP_eq_zero.mpr fun d hd hpin => ?_).symm
      obtain ⟨j, hj⟩ := List.getElem?_of_mem hd
      exact Nat.lt_irrefl _ (hptr j d _ hj (Pc.ptr_of_pinned (of_decide_eq_true hpin)))
    · exact h.refs k e hget
  · intro k e he
    rcases hold k e he with ⟨_, rfl⟩ | ⟨hget, _⟩
    · exact Nat.two_pow_pos 32
    · exact h.refs_lt k e hget
  · intro k e he hready
    rcases hold k e he with ⟨_, rfl⟩ | ⟨hget, _⟩
    · cases hready
    · exact h.ready k e hget hready
  · intro j d hd
    rcases getElem?_set_cases hd with ⟨_, rfl⟩ | ⟨_, hd⟩
    · refine ⟨nofun, fun p hp => ⟨_, Cache.deref_eq_some.mpr ⟨(hmap c.key).trans (if_pos rfl), ?_⟩, rfl, rfl, ?_⟩⟩
      · exact Option.some.inj hp
      · intro f hf
        exact Nat.ne_of_lt (h.fills_lt f hf)
    · refine ⟨(h.held j d hd).sane, fun p hp => ?_⟩
      obtain ⟨e, he, hphase⟩ := (h.held j d hd).entry p hp
      obtain ⟨hget, hself⟩ := Cache.deref_eq_some.mp he
      refine ⟨e, Cache.deref_eq_some.mpr ⟨(hmap d.key).trans ((if_neg ?_).trans hget), hself⟩, hphase⟩
      intro hk
      rw [hk, hmiss] at hget
      cases hget
  · intro j j' d d' p hd hd' hown hown'
    rcases getElem?_set_cases hd with ⟨hj, rfl⟩ | ⟨_, hd₀⟩ <;>
      rcases getElem?_set_cases hd' with ⟨hj', rfl⟩ | ⟨_, hd₀'⟩
    · rw [hj, hj']
    · cases hown
      exact absurd (hptr j' d' _ hd₀' (Pc.ptr_of_owns hown')) (Nat.lt_irrefl _)
    · cases hown'
      exact absurd (hptr j d _ hd₀ (Pc.ptr_of_owns hown)) (Nat.lt_irrefl _)
    · exact h.sole j j' d d' p hd₀ hd₀' hown hown'
  · exact fun f hf => Nat.lt_succ_of_lt (h.fills_lt f hf)

/-! ### One step -/

/-- A call moves on with its entry as it is. -/
theorem advance (h : Inv s) {i : Nat} {c : Call κ} {e : Entry κ} {cache : Cache κ} {pc : Pc}
    (hc : s.calls[i]? = some c) (he : s.cache.map.get? c.key = some e) (hwf : cache.Wf)
    (hmap : cache.map = s.cache.map) (hwas : c.pc.ptr = some e.self) (hpin : pc.pinned = c.pc.pinned)
    (hptr : ∀ p, pc.ptr = some p → p = e.self) (howns : ∀ p, pc.owns = some p → c.pc.owns = some p)
    (hsane : pc ≠ .wild) (hphase : Phase s.fills c.key pc e) : Inv (s.put i c pc cache) := by
  refine h.update e hc he hwf ?_ rfl ?_ hptr ?_ (h.refs_lt _ _ he) ?_ howns hsane hphase (fun _ _ _ _ _ h => h) (Or.inl rfl)
  · intro k
    rw [hmap]
    split
    · next hk => rw [hk, he]
    · rfl
  · intro p hp
    exact Option.some.inj ((Pc.ptr_of_pinned hp).symm.trans hwas)
  · rw [hpin]
  · exact h.ready c.key e he

/-- Beside the call that inserted it, the calls on an entry have pinned it. -/
theorem others_pinned (h : Inv s) {i j : Nat} {c d : Call κ} {e : Entry κ} {k : κ} (hc : s.calls[i]? = some c)
    (howns : c.pc.owns = some e.self) (hj : j ≠ i) (hd : s.calls[j]? = some d) (hptr : d.pc.ptr = some e.self)
    (hphase : Phase s.fills k d.pc e) : d.pc.pinned = some e.self := by
  rcases Pc.pinned_or_owns hptr hphase with hpin | hown
  · exact hpin
  · exact absurd (h.sole j i d c e.self hd hc hown howns) hj

/-- The entry a call points to is there, so a step through the pointer finds it. -/
theorem entry (h : Inv s) {i : Nat} {c : Call κ} {p : Ptr} (hc : s.calls[i]? = some c) (hp : c.pc.ptr = some p) :
    ∃ e, s.cache.map.get? c.key = some e ∧ e.self = p ∧ Phase s.fills c.key c.pc e ∧
      ∀ f, s.through i c p f = f e := by
  obtain ⟨e, he, hphase⟩ := (h.held i c hc).entry p hp
  obtain ⟨hget, hself⟩ := Cache.deref_eq_some.mp he
  exact ⟨e, hget, hself, hphase, fun f => by rw [through, he]⟩

theorem lookup (h : Inv s) {s' : Sys κ} {i : Nat} {c : Call κ} {alloc : Option Nat} (hc : s.calls[i]? = some c)
    (hpc : c.pc = .start) (hok : ∀ e, s.cache.map.get? c.key = some e → e.refcount + 1 < 2 ^ 32)
    (hstep : s.lookup i c alloc = some s') : Inv s' := by
  have hpin : c.pc.pinned = none := by rw [hpc]; rfl
  unfold Sys.lookup at hstep
  cases hget : s.cache.map.get? c.key with
  | some e =>
    have href : e.pin.refcount = e.refcount + 1 := u32_of_lt (hok e hget)
    have hmap : ∀ k, (s.cache.set c.key e.pin).map.get? k = if k = c.key then some e.pin else s.cache.map.get? k :=
      fun k => FinMap.get?_insert s.cache.map c.key k _
    have hwf : (s.cache.set c.key e.pin).Wf := h.wf.set hget rfl rfl rfl
    -- A pin leaves everything that the other calls rely on.
    have hpinned : ∀ (pc : Pc) (cache : Cache κ), cache.Wf → cache.map = (s.cache.set c.key e.pin).map →
        pc.pinned = some e.self → pc.ptr = some e.self → pc.owns = none → pc ≠ .wild → Phase s.fills c.key pc e →
        Inv (s.put i c pc cache) := by
      intro pc cache hwf' hmap' hpc' hptr' howns' hsane hphase
      refine h.update e.pin hc hget hwf' (fun k => by rw [hmap']; exact hmap k) rfl ?_ ?_ ?_ ?_
        (h.ready c.key e hget) ?_ hsane hphase (fun _ _ _ _ _ h => h) (Or.inl rfl)
      · intro p hp
        rw [hpin] at hp
        cases hp
      · exact fun p hp => Option.some.inj (hp.symm.trans hptr')
      · rw [href, hpin, hpc', if_neg nofun, if_pos rfl]
      · rw [href]
        exact hok e hget
      · intro p hp
        rw [howns'] at hp
        cases hp
    simp only [hget] at hstep
    split at hstep
    · next hready =>
      cases hstep
      refine hpinned (.leased e.self) _ (hwf.touch ?_) rfl rfl rfl rfl nofun hready
      exact h.wf.mem_lru hget
    · split at hstep
      · cases hstep
        exact h.leave hc (by rw [hpc]; rfl) rfl nofun
      · next hfailed =>
        cases hstep
        exact hpinned (.waiting e.self) _ hwf rfl rfl rfl rfl nofun (Bool.eq_false_iff.mpr hfailed)
  | none =>
    simp only [hget] at hstep
    cases alloc with
    | none =>
      cases hstep
      exact h.leave hc (by rw [hpc]; rfl) rfl nofun
    | some addr =>
      dsimp only at hstep
      split at hstep
      · next halloc =>
        cases hstep
        have hfit : s.cache.map.total (fun e => e.data.length) + c.sizeHint < 2 ^ 64 := by
          simp only [allocates, Bool.and_eq_true, decide_eq_true_eq] at halloc
          exact halloc.2
        exact h.insert hc hpc hget hfit
      · cases hstep

/-- The call that inserted an entry moves on and keeps it, not ready and with the pins it has. -/
theorem ownerWrites (h : Inv s) {i : Nat} {c : Call κ} {e : Entry κ} {cache : Cache κ} {pc : Pc}
    {fills : List (Fill κ)} (e' : Entry κ) (hc : s.calls[i]? = some c) (he : s.cache.map.get? c.key = some e) (hwf : cache.Wf)
    (hmap : ∀ k, cache.map.get? k = if k = c.key then some e' else s.cache.map.get? k)
    (howned : c.pc.owns = some e.self) (howns : pc.owns = some e.self) (hself : e'.self = e.self)
    (href : e'.refcount = e.refcount) (hready : e'.ready = false) (hphase : Phase fills c.key pc e')
    (hpinned : ∀ (j : Nat) d, s.calls[j]? = some d → d.pc.pinned = some e.self → Phase s.fills c.key d.pc e →
      Phase fills c.key d.pc e')
    (hfills : fills = s.fills ∨
      (∃ b, fills = s.fills ++ [⟨e.self.serial, c.key, b⟩]) ∧ ∀ f ∈ s.fills, f.serial ≠ e.self.serial) :
    Inv { s.put i c pc cache with fills := fills } := by
  refine h.update e' hc he hwf hmap hself ?_ ?_ ?_ ?_ ?_ ?_ ?_ hphase ?_ hfills
  · intro p hp
    rw [Pc.pinned_of_owns howned] at hp
    cases hp
  · exact fun p hp => Option.some.inj (hp.symm.trans (Pc.ptr_of_owns howns))
  · rw [href, Pc.pinned_of_owns howned, Pc.pinned_of_owns howns]
  · rw [href]
    exact h.refs_lt _ _ he
  · intro hr
    rw [hready] at hr
    cases hr
  · exact fun p hp => howned.trans (howns.symm.trans hp)
  · rintro rfl
    cases howns
  · exact fun j d hj hd hptr hph => hpinned j d hd (h.others_pinned hc howned hj hd hptr hph) hph

theorem failStore (h : Inv s) {i : Nat} {c : Call κ} {p : Ptr} {err : Error} {e : Entry κ}
    (hc : s.calls[i]? = some c) (hpc : c.pc = .fillFailed p err) (he : s.cache.map.get? c.key = some e)
    (hself : e.self = p) (href : e.refcount = 0) (hphase : Phase s.fills c.key c.pc e) :
    Inv (s.put i c (.notifyFailed p err) (s.cache.set c.key { e with fillError := err, failed := true })) := by
  rw [hpc] at hphase
  subst hself
  refine h.ownerWrites { e with fillError := err, failed := true } hc he (h.wf.set he rfl rfl rfl)
    (fun k => FinMap.get?_insert s.cache.map c.key k _) (by rw [hpc]; rfl) rfl rfl rfl hphase.1 ⟨hphase.1, rfl⟩ ?_
    (Or.inl rfl)
  intro j d hd hpin _
  have hpos := List.countP_pos_iff (p := fun c : Call κ => decide (c.pc.pinned = some e.self)).mpr
    ⟨d, List.mem_of_getElem? hd, decide_eq_true hpin⟩
  rw [← h.refs _ _ he, href] at hpos
  exact absurd hpos (Nat.lt_irrefl 0)

theorem write (h : Inv s) {i : Nat} {c : Call κ} {p : Ptr} {e : Entry κ} {data : Bytes} (hc : s.calls[i]? = some c)
    (hpc : c.pc = .filling p) (he : s.cache.map.get? c.key = some e) (hself : e.self = p)
    (hphase : Phase s.fills c.key c.pc e) (hlen : data.length = e.data.length) :
    Inv (s.put i c (.filling p) (s.cache.set c.key { e with data := data })) := by
  rw [hpc] at hphase
  subst hself
  have hres : ({ e with data := data } : Entry κ).resident = e.resident := by simp [Entry.resident, hphase.1]
  exact h.ownerWrites { e with data := data } hc he (h.wf.set he rfl hlen (by rw [hres]))
    (fun k => FinMap.get?_insert s.cache.map c.key k _) (by rw [hpc]; rfl) rfl rfl rfl hphase.1 hphase
    (fun _ _ _ hpin hph => hph.of_pinned hpin (fun hr => hr) (fun hf => hf)) (Or.inl rfl)

theorem fillDone (h : Inv s) {i : Nat} {c : Call κ} {p : Ptr} {e : Entry κ} (hc : s.calls[i]? = some c)
    (hpc : c.pc = .filling p) (he : s.cache.map.get? c.key = some e) (hself : e.self = p)
    (hphase : Phase s.fills c.key c.pc e) :
    Inv { s.put i c (.publish p) s.cache with fills := s.recorded c p } := by
  rw [hpc] at hphase
  obtain ⟨hready, hfailed, hfresh⟩ := hphase
  have hrec : s.recorded c p = s.fills ++ [⟨e.self.serial, c.key, e.data⟩] := by
    rw [recorded, Cache.deref_eq_some.mpr ⟨he, hself⟩, hself]
  subst hself
  rw [hrec]
  refine h.ownerWrites e hc he h.wf ?_ (by rw [hpc]; rfl) rfl rfl rfl hready
    ⟨hready, hfailed, List.mem_append_right _ (List.mem_singleton_self _)⟩
    (fun _ _ _ hpin hph => hph.of_pinned hpin (fun hr => hr) (fun hf => hf)) (Or.inr ⟨⟨e.data, rfl⟩, hfresh⟩)
  intro k
  split
  · next hk => rw [hk, he]
  · rfl

theorem cleanup (h : Inv s) {i : Nat} {c : Call κ} {p : Ptr} {err : Error} {e : Entry κ}
    (hc : s.calls[i]? = some c) (hpc : c.pc = .cleanup p err) (he : s.cache.map.get? c.key = some e)
    (hself : e.self = p) : Inv (s.put i c (.failed err) (s.cache.cleanup c.key p)) := by
  have hptr : c.pc.ptr = some e.self := by rw [hpc, hself]; rfl
  have howns : c.pc.owns = some e.self := by rw [hpc, hself]; rfl
  have hstay : Inv (s.put i c (.failed err) s.cache) :=
    h.advance hc he h.wf rfl hptr (by rw [hpc]; rfl) nofun nofun nofun trivial
  have hcleanup : s.cache.cleanup c.key p = if e.refcount = 0 then s.cache.erase c.key else s.cache := by
    simp [Cache.cleanup, he, hself]
  rw [hcleanup]
  split
  · next href =>
    refine hstay.drop he (h.wf.erase he ?_) (fun k => FinMap.get?_erase s.cache.map c.key k)
      (hstay.free he href fun j d hd hown => ?_)
    · obtain ⟨_, he', hphase⟩ := (h.held i c hc).entry p (by rw [hpc]; rfl)
      cases he.symm.trans (Cache.deref_eq_some.mp he').1
      rw [hpc] at hphase
      simp [Entry.resident, hphase.1]
    · rcases getElem?_set_cases hd with ⟨_, rfl⟩ | ⟨hj, hd⟩
      · cases hown
      · exact hj (h.sole j i d c e.self hd hc hown howns)
  · exact hstay

theorem publish (h : Inv s) {i : Nat} {c : Call κ} {p : Ptr} {e : Entry κ} (hc : s.calls[i]? = some c)
    (hpc : c.pc = .publish p) (he : s.cache.map.get? c.key = some e) (hself : e.self = p)
    (href : e.refcount + 1 < 2 ^ 32) (hphase : Phase s.fills c.key c.pc e) :
    Inv (s.put i c (.notifyReady p) (s.cache.publish c.key e)) := by
  rw [hpc] at hphase
  obtain ⟨hready, hfailed, hfill⟩ := hphase
  have howns : c.pc.owns = some e.self := by rw [hpc, hself]; rfl
  have hwf := h.wf.published he hready
  have hpublished : Inv (s.put i c (.notifyReady p) (s.cache.published c.key e)) := by
    refine h.update { e.pin with ready := true } hc he hwf (fun k => FinMap.get?_insert s.cache.map c.key k _)
      rfl ?_ ?_ ?_ ?_ (fun _ => ⟨hfailed, hfill⟩) nofun nofun rfl ?_ (Or.inl rfl)
    · intro q hq
      rw [hpc] at hq
      cases hq
    · exact fun q hq => (Option.some.inj hq).symm.trans hself.symm
    · rw [hpc, hself, if_neg nofun, if_pos (show (Pc.notifyReady p).pinned = some p from rfl)]
      exact u32_of_lt href
    · exact u32_lt _
    · intro j d hj hd hptr hph
      exact hph.of_pinned (h.others_pinned hc howns hj hd hptr hph) (fun _ => rfl) (fun hf => hf)
  exact hpublished.evictIfNeeded

theorem release (h : Inv s) {i : Nat} {c : Call κ} {p : Ptr} {e : Entry κ} (hc : s.calls[i]? = some c)
    (hpc : c.pc = .leased p) (he : s.cache.map.get? c.key = some e) (hself : e.self = p) (hready : e.ready = true) :
    Inv (s.put i c .released (s.cache.release c.key e)) := by
  have hfailed := (h.ready c.key e he hready).1
  have hpin : c.pc.pinned = some e.self := by rw [hpc, hself]; rfl
  have hpos := List.countP_pos_iff (p := fun c : Call κ => decide (c.pc.pinned = some e.self)).mpr
    ⟨c, List.mem_of_getElem? hc, decide_eq_true hpin⟩
  rw [← h.refs _ _ he] at hpos
  have href : e.unpin.refcount = e.refcount - 1 := if_neg (Nat.ne_of_gt hpos)
  have hrelease : s.cache.release c.key e = s.cache.set c.key e.unpin := by
    rw [Cache.release, if_neg]
    rintro ⟨_, hf⟩
    rw [hfailed] at hf
    cases hf
  have hwf : (s.cache.set c.key e.unpin).Wf := h.wf.set he rfl rfl rfl
  rw [hrelease]
  refine h.update e.unpin hc he hwf (fun k => FinMap.get?_insert s.cache.map c.key k _)
    rfl ?_ (fun q hq => by cases hq) ?_ ?_ (fun _ => h.ready c.key e he hready) (fun q hq => by cases hq)
    (fun hq => by cases hq) trivial (fun _ _ _ _ _ h => h) (Or.inl rfl)
  · exact fun q hq => Option.some.inj (hq.symm.trans hpin)
  · rw [href, if_pos hpin, if_neg (by rintro ⟨⟩)]
    omega
  · rw [href]
    exact Nat.lt_of_le_of_lt (Nat.sub_le _ _) (h.refs_lt _ _ he)

/-- Every step of a call that meets the condition keeps the invariant. -/
theorem move (h : Inv s) {s' : Sys κ} {i : Nat} {c : Call κ} {m : Move} (hc : s.calls[i]? = some c)
    (hok : s.undisturbed (.run i m) = true) (hstep : s.move i c m = some s') : Inv s' := by
  have hquiet : ∀ e, s.cache.map.get? c.key = some e → quiet c e = true := fun e he => by
    simpa only [undisturbed, hc, he, Option.all_some] using hok
  unfold Sys.move at hstep
  split at hstep
  · next hpc =>
    refine h.lookup hc hpc (fun e he => ?_) hstep
    have hlt := hquiet e he
    rw [quiet, hpc] at hlt
    exact of_decide_eq_true hlt
  · next p hpc =>
    obtain ⟨e, he, hself, hphase, hthrough⟩ := h.entry hc (by rw [hpc]; rfl)
    rw [hthrough] at hstep
    rw [hpc] at hphase
    split at hstep
    · next hdone =>
      cases hstep
      have hready : e.ready = true := by
        rw [show e.failed = false from hphase, Bool.or_false] at hdone
        exact hdone
      exact h.advance hc he h.wf rfl (by rw [hpc, hself]; rfl) (by rw [hpc]; rfl)
        (fun q hq => (Option.some.inj hq).symm.trans hself.symm) nofun nofun hready
    · cases hstep
      exact h
  · next p hpc =>
    obtain ⟨e, he, hself, hphase, hthrough⟩ := h.entry hc (by rw [hpc]; rfl)
    rw [hthrough] at hstep
    rw [hpc] at hphase
    have hfailed := (h.ready c.key e he hphase).1
    simp only [hfailed, Bool.false_eq_true, if_false] at hstep
    cases hstep
    exact h.advance hc he h.wf rfl (by rw [hpc, hself]; rfl) (by rw [hpc]; rfl)
      (fun q hq => (Option.some.inj hq).symm.trans hself.symm) nofun nofun hphase
  · next p hpc =>
    obtain ⟨e, he, hself, hphase, hthrough⟩ := h.entry hc (by rw [hpc]; rfl)
    rw [hpc] at hphase
    exact False.elim hphase
  · next p hpc =>
    obtain ⟨e, he, hself, hphase, hthrough⟩ := h.entry hc (by rw [hpc]; rfl)
    rw [hpc] at hphase
    exact False.elim hphase
  · next p hpc =>
    obtain ⟨e, he, hself, hphase, hthrough⟩ := h.entry hc (by rw [hpc]; rfl)
    rw [hthrough] at hstep
    rw [hpc] at hphase
    cases hstep
    exact h.advance hc he (h.wf.touch (h.wf.mem_lru he)) rfl (by rw [hpc, hself]; rfl) (by rw [hpc]; rfl)
      (fun q hq => (Option.some.inj hq).symm.trans hself.symm) nofun nofun hphase
  · next p data hpc =>
    obtain ⟨e, he, hself, hphase, hthrough⟩ := h.entry hc (by rw [hpc]; rfl)
    rw [hthrough] at hstep
    split at hstep
    · next hlen =>
      cases hstep
      exact h.write hc hpc he hself hphase hlen
    · cases hstep
  · next p _ hpc =>
    obtain ⟨e, he, hself, hphase, _⟩ := h.entry hc (by rw [hpc]; rfl)
    cases hstep
    exact h.fillDone hc hpc he hself hphase
  · next p err hpc =>
    obtain ⟨e, he, hself, hphase, _⟩ := h.entry hc (by rw [hpc]; rfl)
    cases hstep
    rw [hpc] at hphase
    exact h.advance hc he h.wf rfl (by rw [hpc, hself]; rfl) (by rw [hpc]; rfl)
      (fun q hq => (Option.some.inj hq).symm.trans hself.symm) (fun q hq => by rw [hpc]; exact hq) nofun
      ⟨hphase.1, hphase.2.1⟩
  · next p err hpc =>
    obtain ⟨e, he, hself, hphase, hthrough⟩ := h.entry hc (by rw [hpc]; rfl)
    rw [hthrough] at hstep
    cases hstep
    have href : e.refcount = 0 := by
      simpa [quiet, hpc, hself] using hquiet e he
    exact h.failStore hc hpc he hself href hphase
  · next p err hpc =>
    obtain ⟨e, he, hself, hphase, hthrough⟩ := h.entry hc (by rw [hpc]; rfl)
    rw [hthrough] at hstep
    rw [hpc] at hphase
    cases hstep
    exact h.advance hc he h.wf rfl (by rw [hpc, hself]; rfl) (by rw [hpc]; rfl)
      (fun q hq => (Option.some.inj hq).symm.trans hself.symm) (fun q hq => by rw [hpc]; exact hq) nofun hphase
  · next p err hpc =>
    obtain ⟨e, he, hself, _, _⟩ := h.entry hc (by rw [hpc]; rfl)
    cases hstep
    exact h.cleanup hc hpc he hself
  · next p hpc =>
    obtain ⟨e, he, hself, hphase, hthrough⟩ := h.entry hc (by rw [hpc]; rfl)
    rw [hthrough] at hstep
    cases hstep
    have href := hquiet e he
    rw [quiet, hpc] at href
    exact h.publish hc hpc he hself (of_decide_eq_true href) hphase
  · next p hpc =>
    obtain ⟨e, he, hself, hphase, hthrough⟩ := h.entry hc (by rw [hpc]; rfl)
    rw [hthrough] at hstep
    rw [hpc] at hphase
    cases hstep
    exact h.advance hc he h.wf rfl (by rw [hpc, hself]; rfl) (by rw [hpc]; rfl)
      (fun q hq => (Option.some.inj hq).symm.trans hself.symm) nofun nofun hphase
  · next p hpc =>
    obtain ⟨e, _, _, _, hthrough⟩ := h.entry hc (by rw [hpc]; rfl)
    rw [hthrough] at hstep
    cases hstep
    exact h
  · next p hpc =>
    obtain ⟨e, he, hself, hphase, hthrough⟩ := h.entry hc (by rw [hpc]; rfl)
    rw [hthrough] at hstep
    rw [hpc] at hphase
    cases hstep
    exact h.release hc hpc he hself hphase
  · cases hstep

theorem step (h : Inv s) {s' : Sys κ} {a : Act κ} (hok : s.undisturbed a = true) (hstep : s.step a = some s') : Inv s' := by
  cases a with
  | enter key sizeHint =>
    cases hstep
    exact h.enter key sizeHint
  | run i m =>
    obtain ⟨c, hc, hmove⟩ := Option.bind_eq_some_iff.mp hstep
    exact h.move hc hok hmove

end Inv

/-! ### Whole runs -/

theorem inv_of_reach {budgetBytes : Nat} {s : Sys κ} (h : Reach step undisturbed (Sys.new budgetBytes) s) : Inv s :=
  h.invariant (inv_new budgetBytes) fun _ _ _ hinv hok hstep => hinv.step hok hstep

/-- What the cache promises of a state. -/
structure Sound (s : Sys κ) : Prop where
  map_nodup : s.cache.map.keys.Nodup
  lru_nodup : s.cache.lru.Nodup
  same_keys : ∀ k, k ∈ s.cache.lru ↔ k ∈ s.cache.map.keys
  bytes_resident : s.cache.bytesResident = s.cache.map.total Entry.resident
  /-- At most one fill of a key is in flight. -/
  single_flight : ∀ (i j : Nat) c d p q, s.calls[i]? = some c → s.calls[j]? = some d → c.key = d.key →
    c.pc.fills = some p → d.pc.fills = some q → i = j
  /-- What the publishing section evicts. -/
  evicts : ∀ (i : Nat) c p e, s.calls[i]? = some c → c.pc = .publish p → s.cache.deref c.key p = some e →
    Cache.Evicts (s.cache.published c.key e) (s.cache.publish c.key e)
  /-- A lease shows the bytes that the one fill of its entry left. -/
  leases : ∀ (i : Nat) c p, s.calls[i]? = some c → c.pc = .leased p → ∃ b, s.leaseBytes c p = some b ∧
    ⟨p.serial, c.key, b⟩ ∈ s.fills ∧ ∀ f ∈ s.fills, f.serial = p.serial → f = ⟨p.serial, c.key, b⟩

namespace Inv

variable {s : Sys κ}

theorem single_flight (h : Inv s) {i j : Nat} {c d : Call κ} {p q : Ptr} (hc : s.calls[i]? = some c)
    (hd : s.calls[j]? = some d) (hkey : c.key = d.key) (hp : c.pc.owns = some p) (hq : d.pc.owns = some q) :
    i = j := by
  obtain ⟨e, he, hself, _⟩ := h.entry hc (Pc.ptr_of_owns hp)
  obtain ⟨f, hf, hself', _⟩ := h.entry hd (Pc.ptr_of_owns hq)
  rw [hkey] at he
  cases he.symm.trans hf
  refine h.sole i j c d p hc hd hp ?_
  rw [hq, ← hself', hself]

theorem leases (h : Inv s) {i : Nat} {c : Call κ} {p : Ptr} (hc : s.calls[i]? = some c) (hpc : c.pc = .leased p) :
    ∃ b, s.leaseBytes c p = some b ∧ ⟨p.serial, c.key, b⟩ ∈ s.fills ∧
      ∀ f ∈ s.fills, f.serial = p.serial → f = ⟨p.serial, c.key, b⟩ := by
  obtain ⟨e, he, hself, hphase, _⟩ := h.entry hc (by rw [hpc]; rfl)
  rw [hpc] at hphase
  have hready : e.ready = true := hphase
  have hfill : ⟨p.serial, c.key, e.data⟩ ∈ s.fills := by
    rw [← hself]
    exact (h.ready c.key e he hready).2
  refine ⟨e.data, ?_, hfill, fun f hf hserial => ?_⟩
  · rw [leaseBytes, Cache.deref_eq_some.mpr ⟨he, hself⟩, Option.map_some, if_pos hready]
  · exact List.inj_on_of_nodup_map h.fills_nodup hf hfill hserial

end Inv

/-- In every interleaving in which no fill fails under a waiting call, every state keeps the cache's promises. -/
theorem sound_of_undisturbed (budgetBytes : Nat) (s : Sys κ)
    (h : Reach step undisturbed (Sys.new budgetBytes) s) : s.Sound := by
  have hinv := inv_of_reach h
  refine ⟨s.cache.map.nodup, hinv.wf.lru_nodup, hinv.wf.lru_keys, hinv.wf.bytes, ?_, ?_, fun i c p => hinv.leases⟩
  · intro i j c d p q hc hd hkey hp hq
    exact hinv.single_flight hc hd hkey (Pc.owns_of_fills hp) (Pc.owns_of_fills hq)
  · intro i c p e hc hpc he
    obtain ⟨hget, hself⟩ := Cache.deref_eq_some.mp he
    obtain ⟨e', he', _, hphase, _⟩ := hinv.entry hc (by rw [hpc]; rfl)
    cases hget.symm.trans he'
    rw [hpc] at hphase
    exact Cache.evictIfNeeded_evicts (hinv.wf.published hget hphase.1)

/-! A run with two threads on one frame: the second one waits, and both end with a lease. -/

def frame : FrameKey := ⟨zeroOid, 0, 0⟩

def sharedRun : List (Act FrameKey) :=
  [.enter frame 2, .run 0 (.lookup (some 7)), .enter frame 2, .run 1 (.lookup none), .run 0 (.write [1, 2]),
    .run 0 (.fillReturn (.ok ())), .run 0 .next, .run 1 .wait, .run 0 .next, .run 1 .next, .run 1 .next]

theorem sound_of_undisturbed_shared :
    ((runActs step undisturbed (Sys.new 1) sharedRun).map fun s => s.calls.map fun c => c.pc) =
        some [.leased ⟨7, 0⟩, .leased ⟨7, 0⟩] ∧
      ∀ s, runActs step undisturbed (Sys.new 1) sharedRun = some s → s.Sound :=
  ⟨by decide, fun s hs => sound_of_undisturbed 1 s (Reach.init.runActs hs)⟩

/-! A run in which a fill fails while a second thread waits on it. The waiting thread drops the last pin and with
it the entry; it still has to copy `fill_error`, and the filler still has to drop the placeholder. -/

def failingRun : List (Act FrameKey) :=
  [.enter frame 1, .run 0 (.lookup (some 7)), .enter frame 1, .run 1 (.lookup none),
    .run 0 (.fillReturn (.error ⟨.io, "read failed", ""⟩)), .run 0 .next, .run 0 .next, .run 1 .wait, .run 1 .next,
    .run 1 .next]

/-- A third thread misses and gets the old entry's address, so that the filler takes the new entry for its own and
drops it. The next thread misses as well. -/
def reusedRun : List (Act FrameKey) :=
  failingRun ++ [.enter frame 1, .run 2 (.lookup (some 7)), .run 0 .next, .enter frame 1, .run 3 (.lookup (some 9))]

theorem not_sound_reused :
    ¬ ∀ s : Sys FrameKey, Reach step (fun _ _ => true) (Sys.new 4096) s → s.Sound := by
  intro h
  have hend : ((runActs step (fun _ _ => true) (Sys.new 4096) reusedRun).map fun s =>
      (s.calls.drop 2).map fun c => (c.key, c.pc)) =
      some [(frame, .filling ⟨7, 1⟩), (frame, .filling ⟨9, 2⟩)] := by decide
  obtain ⟨s, hs, hcalls⟩ := Option.map_eq_some_iff.mp hend
  have hat : ∀ j x, [(frame, Pc.filling ⟨7, 1⟩), (frame, Pc.filling ⟨9, 2⟩)][j]? = some x →
      ∃ c, s.calls[2 + j]? = some c ∧ (c.key, c.pc) = x := by
    intro j x hx
    rw [← hcalls, List.getElem?_map, List.getElem?_drop] at hx
    exact Option.map_eq_some_iff.mp hx
  obtain ⟨c, hc, hcx⟩ := hat 0 _ rfl
  obtain ⟨d, hd, hdx⟩ := hat 1 _ rfl
  have hck := congrArg Prod.fst hcx
  have hdk := congrArg Prod.fst hdx
  have hcp : c.pc = .filling ⟨7, 1⟩ := congrArg Prod.snd hcx
  have hdp : d.pc = .filling ⟨9, 2⟩ := congrArg Prod.snd hdx
  have hsame := (h s (Reach.init.runActs hs)).single_flight 2 3 c d ⟨7, 1⟩ ⟨9, 2⟩ hc hd (hck.trans hdk.symm)
    (by rw [hcp]; rfl) (by rw [hdp]; rfl)
  exact absurd hsame (by decide)

/-- In every interleaving in which no fill fails under a waiting call, the entry a step uses is in the map. -/
theorem used_entry_in_map (budgetBytes : Nat) (s s' : Sys κ) (h : Reach step undisturbed (Sys.new budgetBytes) s)
    (i : Nat) (m : Move) (c : Call κ) (p : Ptr) (hc : s.calls[i]? = some c) (_hstep : s.step (.run i m) = some s')
    (hp : uses c = some p) : ∃ e, s.cache.map.get? c.key = some e ∧ e.self = p := by
  have hptr : c.pc.ptr = some p := by
    unfold uses at hp
    split at hp
    · cases hp
    · exact hp
  obtain ⟨e, he, hself, _⟩ := (inv_of_reach h).entry hc hptr
  exact ⟨e, he, hself⟩

theorem used_entry_in_map_shared :
    ((runActs step undisturbed (Sys.new 1) sharedRun).bind fun s => s.calls[1]?.bind uses) = some ⟨7, 0⟩ ∧
      ∀ s s' c, runActs step undisturbed (Sys.new 1) sharedRun = some s → s.calls[1]? = some c →
        s.step (.run 1 .read) = some s' → uses c = some ⟨7, 0⟩ → ∃ e, s.cache.map.get? c.key = some e ∧ e.self = ⟨7, 0⟩ :=
  ⟨by decide, fun s s' c hs hc hstep hp =>
    used_entry_in_map 1 s s' (Reach.init.runActs hs) 1 .read c ⟨7, 0⟩ hc hstep hp⟩

theorem used_entry_gone :
    ¬ ∀ s s' : Sys FrameKey, Reach step (fun _ _ => true) (Sys.new 4096) s → ∀ (i : Nat) m c p,
      s.calls[i]? = some c → s.step (.run i m) = some s' → uses c = some p →
        ∃ e, s.cache.map.get? c.key = some e ∧ e.self = p := by
  intro h
  have hend : ((runActs step (fun _ _ => true) (Sys.new 4096) failingRun).bind fun s =>
      s.calls[1]?.map fun c => (c.key, c.pc, (s.cache.map.get? frame).isSome)) =
      some (frame, .readError ⟨7, 0⟩, false) := by decide
  obtain ⟨s, hs, hcall⟩ := Option.bind_eq_some_iff.mp hend
  obtain ⟨c, hc, hcx⟩ := Option.map_eq_some_iff.mp hcall
  obtain ⟨hkey, hpc, hgone⟩ : c.key = frame ∧ c.pc = .readError ⟨7, 0⟩ ∧ (s.cache.map.get? frame).isSome = false := by
    simpa using hcx
  have hnone : s.cache.map.get? frame = none := Option.isSome_eq_false_iff.mp hgone |> Option.isNone_iff_eq_none.mp
  have hstep : s.step (.run 1 .next) = some (s.put 1 c .wild s.cache) := by
    show (s.calls[1]?).bind _ = _
    rw [hc, Option.bind_some]
    simp [move, hpc, through, Cache.deref, hkey, hnone]
  obtain ⟨e, he, _⟩ := h s _ (Reach.init.runActs hs) 1 .next c ⟨7, 0⟩ hc hstep (by rw [uses, hpc]; rfl)
  rw [hkey, hnone] at he
  cases he

end Sys

end SynapseFs.Mount
