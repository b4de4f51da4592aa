import SynapseFs.Lib.FinMap

/-! Read-through caches.

A cache in front of a source that only ever grows. What the cache holds is what the source
answers (`Agrees`), so a reader cannot tell that it is there. -/
namespace SynapseFs.Lib.ReadThrough

variable {κ α ε : Type} [DecidableEq κ]

/-- Look it up, or fetch and remember it. A failure is not remembered. -/
def read (cache : FinMap κ α) (fetch : κ → Except ε α) (k : κ) : Except ε α × FinMap κ α :=
  match cache.get? k with
  | some a => (.ok a, cache)
  | none =>
    match fetch k with
    | .ok a => (.ok a, cache.emplace k a)
    | .error e => (.error e, cache)

def Agrees (cache : FinMap κ α) (fetch : κ → Except ε α) : Prop := ∀ k a, cache.get? k = some a → fetch k = .ok a

variable {cache : FinMap κ α} {fetch fetch' : κ → Except ε α} {k : κ} {a : α}

theorem agrees_empty : Agrees (FinMap.empty : FinMap κ α) fetch := nofun

/-- The source may answer more than before. -/
theorem Agrees.mono (h : Agrees cache fetch) (hgrows : ∀ k a, fetch k = .ok a → fetch' k = .ok a) : Agrees cache fetch' :=
  fun k a hk => hgrows k a (h k a hk)

theorem Agrees.emplace (h : Agrees cache fetch) (hk : fetch k = .ok a) : Agrees (cache.emplace k a) fetch := by
  intro k' a' hget
  by_cases hmem : k ∈ cache.keys
  · rw [FinMap.emplace, if_pos hmem] at hget
    exact h k' a' hget
  · rw [FinMap.get?_emplace_new a hmem] at hget
    split at hget
    · next heq =>
      cases hget
      rw [heq]
      exact hk
    · exact h k' a' hget

/-- The entry that an emplacement ends at. -/
theorem Agrees.get?_emplace (h : Agrees cache fetch) (hk : fetch k = .ok a) : (cache.emplace k a).get? k = some a := by
  by_cases hmem : k ∈ cache.keys
  · rw [FinMap.emplace, if_pos hmem]
    obtain ⟨a', ha'⟩ := FinMap.mem_keys.mp hmem
    rw [ha']
    have hsame := (h k a' ha').symm.trans hk
    cases hsame
    rfl
  · rw [FinMap.get?_emplace_new a hmem, if_pos rfl]

theorem Agrees.read_eq (h : Agrees cache fetch) (k : κ) : (read cache fetch k).1 = fetch k := by
  unfold read
  cases hget : cache.get? k with
  | some a => exact (h k a hget).symm
  | none => cases fetch k <;> rfl

theorem Agrees.read_agrees (h : Agrees cache fetch) (k : κ) : Agrees (read cache fetch k).2 fetch := by
  unfold read
  cases hget : cache.get? k with
  | some a => exact h
  | none =>
    cases hfetch : fetch k with
    | ok a => exact h.emplace hfetch
    | error e => exact h

end SynapseFs.Lib.ReadThrough
