/-! One error type for the whole system.

A modelled function ends in one of three ways besides success: it returns a
`core::Error`, an exception of the standard library leaves it, or it does
something C++ gives no meaning to (a shift past the word, a read outside a
buffer). The three are kept apart (`Failure`), so that a claim that a function
only ever returns an error is not satisfied by a crash. -/
namespace SynapseFs.Core

inductive ErrKind where
  | io | noSuchFile | permissionDenied | noSpace | interrupted
  | notARepository | repositoryLocked | unsupportedFormatVersion
  | refNotFound | refRaceLost | notFastForward
  | objectNotFound | objectKindMismatch | malformedObject | canonicalizationMismatch
  | hashMismatch | chunkDigestMismatch | frameDigestMismatch
  | ancestorInvariantViolated | journalTorn
  | notSafetensors | unsupportedDType | shapeMismatch | tensorNotInBufferLayout
  | topologyParse | topologyIncomplete | blockFactorMismatch | notAlignable | invalidPermutation
  | chainTooDeep | mergeConflict
  | mountFailed | readOnlyFilesystem
  | protocolVersion | malformedFrame | connectionLost | peerError
  | notImplemented | cancelled | internal
  deriving DecidableEq, Repr

structure Error where
  kind : ErrKind
  what : String
  context : String
  deriving DecidableEq, Repr

inductive Failure where
  /-- `std::unexpected` of a `core::Error`. -/
  | error (e : Error)
  /-- An exception leaves the function. -/
  | exception (what : String)
  /-- Undefined behaviour. -/
  | undefined (what : String)
  /-- A loop or a recursion that the step budget of the model cuts off. -/
  | outOfFuel
  deriving DecidableEq, Repr

abbrev Outcome (α : Type) := Except Failure α

/-- `SFS_ERR(kind, what, context)`. -/
def sfsErr {α : Type} (kind : ErrKind) (what : String) (context : String) : Outcome α :=
  .error (.error ⟨kind, what, context⟩)

/-- `container.at(key)`: `std::out_of_range` when the key is absent. -/
def atOrThrow {α : Type} (what : String) : Option α → Outcome α
  | some a => .ok a
  | none => .error (.exception what)

variable {α β : Type}

/-- `try { x } catch (const std::exception& e) { handler(e.what()) }`. -/
def catching (x : Outcome α) (handler : String → Outcome α) : Outcome α :=
  match x with
  | .error (.exception what) => handler what
  | other => other

/-- `auto r = x;` before `if (!r)`: an error becomes a value, nothing else does. -/
def settle (x : Outcome α) : Outcome (Except Error α) :=
  match x with
  | .ok a => .ok (.ok a)
  | .error (.error e) => .ok (.error e)
  | .error other => .error other

theorem bind_eq_ok {x : Outcome α} {f : α → Outcome β} {b : β} :
    x >>= f = .ok b ↔ ∃ a, x = .ok a ∧ f a = .ok b := by
  cases x with
  | error e =>
    constructor
    · intro h
      cases h
    · rintro ⟨a, h, _⟩
      cases h
  | ok a =>
    constructor
    · intro h
      exact ⟨a, rfl, h⟩
    · rintro ⟨_, h, hf⟩
      cases h
      exact hf

theorem forM_eq_ok {l : List α} {f : α → Outcome Unit} : forM l f = .ok () ↔ ∀ a ∈ l, f a = .ok () := by
  induction l with
  | nil => simp [pure, Except.pure]
  | cons a rest ih =>
    rw [List.forM_cons, bind_eq_ok, List.forall_mem_cons, ← ih]
    exact ⟨fun ⟨_, ha, hr⟩ => ⟨ha, hr⟩, fun ⟨ha, hr⟩ => ⟨(), ha, hr⟩⟩

theorem settle_eq_ok {x : Outcome α} {a : α} : settle x = .ok (.ok a) ↔ x = .ok a := by
  unfold settle
  split <;> simp

theorem catching_eq_ok {x : Outcome α} {handler : String → Outcome α} {a : α}
    (hh : ∀ what, handler what ≠ .ok a) : catching x handler = .ok a ↔ x = .ok a := by
  unfold catching
  split
  · exact ⟨fun h => absurd h (hh _), nofun⟩
  · rfl

theorem atOrThrow_eq_ok {what : String} {o : Option α} {a : α} : atOrThrow what o = .ok a ↔ o = some a := by
  cases o <;> simp [atOrThrow]

theorem sfsErr_ne_ok {kind : ErrKind} {what context : String} {a : α} : sfsErr kind what context ≠ .ok a :=
  nofun

/-! ### Loops -/

theorem mapM_map_eq_ok (f : α → β) {g : β → Outcome α} {l : List α} (h : ∀ a ∈ l, g (f a) = .ok a) :
    (l.map f).mapM g = .ok l := by
  induction l with
  | nil => rfl
  | cons a rest ih =>
    rw [List.map_cons, List.mapM_cons, h a List.mem_cons_self, ih fun x hx => h x (List.mem_cons_of_mem _ hx)]
    rfl

theorem mapM_range_eq_ok {f : Nat → Outcome α} {l : List α} (h : ∀ i (hi : i < l.length), f i = .ok l[i]) :
    (List.range l.length).mapM f = .ok l := by
  have hmap : ∀ k (l' : List α), l'.length = k → (∀ i (hi : i < l'.length), f i = .ok l'[i]) →
      (List.range k).mapM f = .ok l' := by
    intro k
    induction k with
    | zero =>
      intro l' hl' _
      rw [List.length_eq_zero_iff.mp hl']
      rfl
    | succ k ih =>
      intro l' hl' hall
      rcases List.eq_nil_or_concat l' with rfl | ⟨front, x, rfl⟩
      · cases hl'
      · rw [List.concat_eq_append] at *
        have hk : front.length = k := by simpa using hl'
        rw [List.range_succ, List.mapM_append, ih front hk fun i hi => ?_]
        · have hx := hall k (by simp [hk])
          rw [List.getElem_append_right (by omega)] at hx
          simp only [List.mapM_cons, List.mapM_nil, hx]
          simp [bind, Except.bind, pure, Except.pure, hk]
        · have := hall i (by simp; omega)
          rwa [List.getElem_append_left hi] at this
  exact hmap _ l rfl h

theorem mapM_eq_ok {f : α → Outcome β} {l : List α} {out : List β} (h : l.mapM f = .ok out) :
    out.length = l.length ∧ ∀ i (hi : i < l.length) (ho : i < out.length), f l[i] = .ok out[i] := by
  induction l generalizing out with
  | nil =>
    cases h
    exact ⟨rfl, nofun⟩
  | cons a rest ih =>
    rw [List.mapM_cons] at h
    obtain ⟨b, hb, h⟩ := bind_eq_ok.mp h
    obtain ⟨bs, hbs, h⟩ := bind_eq_ok.mp h
    cases h
    obtain ⟨hlen, hall⟩ := ih hbs
    refine ⟨by simp [hlen], fun i hi ho => ?_⟩
    cases i with
    | zero => exact hb
    | succ i => exact hall i (by simpa using hi) (by simpa using ho)

theorem exists_of_mapM {f : α → Outcome β} {l : List α} {out : List β} (h : l.mapM f = .ok out) {b : β}
    (hb : b ∈ out) : ∃ a ∈ l, f a = .ok b := by
  obtain ⟨hlen, hall⟩ := mapM_eq_ok h
  obtain ⟨i, hi, rfl⟩ := List.mem_iff_getElem.mp hb
  exact ⟨l[i], List.getElem_mem _, hall i (hlen ▸ hi) hi⟩

theorem exists_mapM_ok {f : α → Outcome β} {l : List α} (h : ∀ a ∈ l, ∃ b, f a = .ok b) : ∃ out, l.mapM f = .ok out := by
  induction l with
  | nil => exact ⟨[], rfl⟩
  | cons a rest ih =>
    obtain ⟨b, hb⟩ := h a List.mem_cons_self
    obtain ⟨out, hout⟩ := ih fun x hx => h x (List.mem_cons_of_mem _ hx)
    refine ⟨b :: out, ?_⟩
    rw [List.mapM_cons, hb, hout]
    rfl

theorem exists_foldlM_ok {f : β → α → Outcome β} {l : List α} (h : ∀ b, ∀ a ∈ l, ∃ c, f b a = .ok c) (b : β) :
    ∃ c, l.foldlM f b = .ok c := by
  induction l generalizing b with
  | nil => exact ⟨b, rfl⟩
  | cons a rest ih =>
    obtain ⟨c, hc⟩ := h b a List.mem_cons_self
    obtain ⟨d, hd⟩ := ih (fun b' x hx => h b' x (List.mem_cons_of_mem _ hx)) c
    refine ⟨d, ?_⟩
    rw [List.foldlM_cons, hc]
    exact hd

/-- A loop that returns has made every step. -/
theorem exists_step_of_foldlM {f : β → α → Outcome β} {l : List α} {b c : β} (h : l.foldlM f b = .ok c) {a : α}
    (ha : a ∈ l) : ∃ d e, f d a = .ok e := by
  induction l generalizing b with
  | nil => cases ha
  | cons x rest ih =>
    rw [List.foldlM_cons] at h
    obtain ⟨d, hd, h⟩ := bind_eq_ok.mp h
    rcases List.mem_cons.mp ha with rfl | ha
    · exact ⟨b, d, hd⟩
    · exact ih h ha

/-- What every step keeps, the loop keeps. -/
theorem foldlM_invariant {f : β → α → Outcome β} {I : β → Prop} {l : List α} {b c : β}
    (hf : ∀ b, ∀ a ∈ l, ∀ c, I b → f b a = .ok c → I c) (hb : I b) (h : l.foldlM f b = .ok c) : I c := by
  induction l generalizing b with
  | nil =>
    cases h
    exact hb
  | cons a rest ih =>
    rw [List.foldlM_cons] at h
    obtain ⟨d, hd, h⟩ := bind_eq_ok.mp h
    exact ih (fun b' a' ha' => hf b' a' (List.mem_cons_of_mem _ ha')) (hf b a List.mem_cons_self d hb hd) h

/-! ### Nothing but a budget runs out of it -/

theorem bind_fuel {x : Outcome α} {f : α → Outcome β} (hx : x ≠ .error .outOfFuel)
    (hf : ∀ a, x = .ok a → f a ≠ .error .outOfFuel) : x >>= f ≠ .error .outOfFuel := by
  cases x with
  | error e =>
    intro h
    cases h
    exact hx rfl
  | ok a => exact hf a rfl

theorem settle_fuel {x : Outcome α} (hx : x ≠ .error .outOfFuel) : settle x ≠ .error .outOfFuel := by
  unfold settle
  split
  · exact nofun
  · exact nofun
  · intro h
    cases h
    exact hx rfl

theorem catching_fuel {x : Outcome α} {handler : String → Outcome α} (hx : x ≠ .error .outOfFuel)
    (hh : ∀ what, handler what ≠ .error .outOfFuel) : catching x handler ≠ .error .outOfFuel := by
  unfold catching
  split
  · exact hh _
  · exact hx

theorem mapM_fuel {f : α → Outcome β} (hf : ∀ a, f a ≠ .error .outOfFuel) (l : List α) :
    l.mapM f ≠ .error .outOfFuel := by
  induction l with
  | nil => exact nofun
  | cons a rest ih =>
    rw [List.mapM_cons]
    exact bind_fuel (hf a) fun _ _ => bind_fuel ih fun _ _ => nofun

theorem foldlM_fuel {f : β → α → Outcome β} (b : β) (l : List α) (hf : ∀ b, ∀ a ∈ l, f b a ≠ .error .outOfFuel) :
    l.foldlM f b ≠ .error .outOfFuel := by
  induction l generalizing b with
  | nil => exact nofun
  | cons a rest ih =>
    rw [List.foldlM_cons]
    refine bind_fuel (hf b a (by simp)) fun c _ => ih c fun b' a' ha' => ?_
    exact hf b' a' (List.mem_cons_of_mem _ ha')

theorem forM_fuel {f : α → Outcome Unit} (hf : ∀ a, f a ≠ .error .outOfFuel) (l : List α) :
    forM l f ≠ .error .outOfFuel := by
  induction l with
  | nil => exact nofun
  | cons a rest ih =>
    rw [List.forM_cons]
    exact bind_fuel (hf a) fun _ _ => ih

/-! ### Failures of a given sort do not come out -/

/-- Whatever `x` fails with is not among `bad`. -/
def Never (bad : Failure → Prop) (x : Outcome α) : Prop := ∀ f, x = .error f → ¬bad f

section
variable {bad : Failure → Prop}

theorem never_ok (a : α) : Never bad (.ok a : Outcome α) := nofun

theorem never_error {f : Failure} (h : ¬bad f) : Never bad (.error f : Outcome α) := fun _ hf => by
  cases hf
  exact h

theorem never_bind {x : Outcome α} {f : α → Outcome β} (hx : Never bad x) (hf : ∀ a, x = .ok a → Never bad (f a)) :
    Never bad (x >>= f) := by
  cases x with
  | error e =>
    intro g hg
    cases hg
    exact hx e rfl
  | ok a => exact hf a rfl

theorem never_mapM {f : α → Outcome β} (l : List α) (hf : ∀ a ∈ l, Never bad (f a)) : Never bad (l.mapM f) := by
  induction l with
  | nil => exact never_ok _
  | cons a rest ih =>
    rw [List.mapM_cons]
    refine never_bind (hf a List.mem_cons_self) fun _ _ => never_bind (ih fun b hb => hf b ?_) fun _ _ => never_ok _
    exact List.mem_cons_of_mem _ hb

theorem never_foldlM {f : β → α → Outcome β} (b : β) (l : List α) (hf : ∀ b, ∀ a ∈ l, Never bad (f b a)) :
    Never bad (l.foldlM f b) := by
  induction l generalizing b with
  | nil => exact never_ok _
  | cons a rest ih =>
    rw [List.foldlM_cons]
    exact never_bind (hf b a List.mem_cons_self) fun c _ => ih c fun b' a' ha' => hf b' a' (List.mem_cons_of_mem _ ha')

end

/-! ### Outcomes that are a value or an error -/

/-- `x` returns an error, or a value with `Q`: no exception leaves it and nothing undefined happens. -/
def Returns (x : Outcome α) (Q : α → Prop) : Prop :=
  match x with
  | .ok a => Q a
  | .error (.error _) => True
  | .error _ => False

section
variable {x : Outcome α} {Q R : α → Prop}

theorem returns_ok (a : α) : Returns (.ok a) Q ↔ Q a := Iff.rfl

theorem returns_sfsErr (kind : ErrKind) (what context : String) : Returns (sfsErr kind what context) Q := trivial

theorem returns_bind {f : α → Outcome β} {Q : β → Prop} :
    Returns (x >>= f) Q ↔ Returns x fun a => Returns (f a) Q := by
  cases x with
  | ok a => exact Iff.rfl
  | error e => cases e <;> exact Iff.rfl

theorem Returns.mono (h : Returns x Q) (hQ : ∀ a, x = .ok a → Q a → R a) : Returns x R := by
  cases x with
  | ok a => exact hQ a rfl h
  | error e => cases e <;> exact h

theorem returns_congr (h : ∀ a, Q a ↔ R a) : Returns x Q ↔ Returns x R :=
  ⟨fun hx => hx.mono fun a _ => (h a).mp, fun hx => hx.mono fun a _ => (h a).mpr⟩

theorem Returns.bind {f : α → Outcome β} {R : β → Prop} (h : Returns x Q) (hf : ∀ a, x = .ok a → Q a → Returns (f a) R) :
    Returns (x >>= f) R :=
  returns_bind.mpr (h.mono hf)

theorem Returns.of_ok {a : α} (h : Returns x Q) (hx : x = .ok a) : Q a := by
  subst hx
  exact h

/-- Something that fails only by exceptions and undefined behaviour has to succeed. -/
theorem returns_iff_ok (hx : ∀ e, x ≠ .error (.error e)) : Returns x Q ↔ ∃ a, x = .ok a ∧ Q a := by
  cases x with
  | ok a => exact ⟨fun h => ⟨a, rfl, h⟩, fun ⟨b, hb, hQ⟩ => by cases hb; exact hQ⟩
  | error f =>
    refine ⟨fun h => ?_, fun ⟨a, ha, _⟩ => by cases ha⟩
    cases f with
    | error e => exact absurd rfl (hx e)
    | exception what => exact h.elim
    | undefined what => exact h.elim
    | outOfFuel => exact h.elim

/-- Something that fails only with errors may. -/
theorem returns_of_errors (hx : ∀ f, x = .error f → ∃ e, f = .error e) : Returns x Q ↔ ∀ a, x = .ok a → Q a := by
  cases x with
  | ok a => exact ⟨fun h b hb => by cases hb; exact h, fun h => h a rfl⟩
  | error f =>
    obtain ⟨e, rfl⟩ := hx f rfl
    exact ⟨fun _ _ ha => (by cases ha), fun _ => trivial⟩

theorem Returns.foldlM {f : β → α → Outcome β} {I : β → Prop} {l : List α} {b : β} (hb : I b)
    (hf : ∀ b, ∀ a ∈ l, I b → Returns (f b a) I) : Returns (l.foldlM f b) I := by
  induction l generalizing b with
  | nil => exact hb
  | cons a rest ih =>
    rw [List.foldlM_cons]
    refine (hf b a List.mem_cons_self hb).bind fun c _ hc => ih hc fun b' a' ha' => ?_
    exact hf b' a' (List.mem_cons_of_mem _ ha')

theorem Returns.mapM {f : α → Outcome β} {Q : β → Prop} {l : List α} (hf : ∀ a ∈ l, Returns (f a) Q) :
    Returns (l.mapM f) fun bs => bs.length = l.length ∧ ∀ b ∈ bs, Q b := by
  induction l with
  | nil => exact ⟨rfl, nofun⟩
  | cons a rest ih =>
    rw [List.mapM_cons]
    refine (hf a List.mem_cons_self).bind fun b _ hb => ?_
    refine (ih fun a' ha' => hf a' (List.mem_cons_of_mem _ ha')).bind fun bs _ hbs => ?_
    exact ⟨congrArg (· + 1) hbs.1, List.forall_mem_cons.mpr ⟨hb, hbs.2⟩⟩

/-- A list read item by item: what each item needs comes before what the rest needs. -/
theorem returns_mapM_foldr {f : α → Outcome β} {needs : α → Prop → Prop}
    (h : ∀ a rest, Returns (f a) (fun _ => rest) ↔ needs a rest) (l : List α) (rest : Prop) :
    Returns (l.mapM f) (fun _ => rest) ↔ l.foldr needs rest := by
  induction l with
  | nil => exact Iff.rfl
  | cons a l ih =>
    rw [List.mapM_cons, returns_bind, List.foldr_cons, ← ih, ← h]
    exact returns_congr fun b => returns_bind

/-- A loop read step by step, if what a step needs does not depend on the state. -/
theorem returns_foldlM_foldr {f : β → α → Outcome β} {needs : α → Prop → Prop}
    (h : ∀ b a rest, Returns (f b a) (fun _ => rest) ↔ needs a rest) (l : List α) (b : β) (rest : Prop) :
    Returns (l.foldlM f b) (fun _ => rest) ↔ l.foldr needs rest := by
  induction l generalizing b with
  | nil => exact Iff.rfl
  | cons a l ih =>
    rw [List.foldlM_cons, returns_bind, List.foldr_cons, ← h b a]
    exact returns_congr fun c => ih c

/-- The same where nothing but a value will do. -/
theorem returns_mapM_iff_ok {f : α → Outcome β} (hf : ∀ a e, f a ≠ .error (.error e)) (l : List α) (rest : Prop) :
    Returns (l.mapM f) (fun _ => rest) ↔ (∀ a ∈ l, ∃ b, f a = .ok b) ∧ rest := by
  rw [returns_mapM_foldr (fun a rest => (returns_iff_ok (hf a)).trans exists_and_right)]
  induction l with
  | nil => simp
  | cons a l ih =>
    rw [List.foldr_cons, ih, List.forall_mem_cons, and_assoc]

end

end SynapseFs.Core
