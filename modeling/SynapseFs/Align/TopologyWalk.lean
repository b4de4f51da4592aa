import SynapseFs.Align.TopologyPlan

/-! The walk and the plan.

Every call of the union-find is matched with what it does to the classes: a new axis of a
class of its own, a new axis that joins a class, a pin. A layer never names a tensor that
an earlier layer has named, so its axes are all new. -/
namespace SynapseFs.Align
open Lib Core
open Format (Json JsonLib)

/-! ### Names -/

theorem named_inj {i j : Nat} {s s' : String} (hs : s.toList.head? = some '.') (hs' : s'.toList.head? = some '.')
    (h : toString i ++ s = toString j ++ s') : i = j ∧ s = s' := by
  have hdigits : ∀ n : Nat, (toString n).toList = Nat.toDigits 10 n := fun n => by
    show (Nat.repr n).toList = _
    rw [Nat.repr, String.toList_ofList]
  have htake : ∀ (n : Nat) (l : List Char), l.head? = some '.' →
      (Nat.toDigits 10 n ++ l).takeWhile Char.isDigit = Nat.toDigits 10 n := by
    intro n l hl
    cases l with
    | nil => cases hl
    | cons c rest =>
      obtain rfl : c = '.' := Option.some.inj hl
      rw [List.takeWhile_append_of_pos fun c hc => Nat.isDigit_of_mem_toDigits (by decide) (by decide) hc]
      have hdot : Char.isDigit '.' = false := by decide
      simp [hdot]
  have hlist := congrArg String.toList h
  rw [String.toList_append, String.toList_append, hdigits, hdigits] at hlist
  have hsame : Nat.toDigits 10 i = Nat.toDigits 10 j := by rw [← htake i _ hs, hlist, htake j _ hs']
  have hij : i = j := by rw [← Nat.ofDigitChars_ten_toDigits (n := i), hsame, Nat.ofDigitChars_ten_toDigits]
  subst hij
  exact ⟨rfl, String.toList_inj.mp (List.append_cancel_left hlist)⟩

/-! ### Calls of the union-find, by classes -/

/-- The union-find has the axes of a plan, and connects those of one class. -/
structure Tracked (axes : List Axis) (pinned : List AxisClass) (st : BuildState) (ops : List AxisOp) : Prop where
  built : ∃ root, AxisOp.Built ops st.uf root
  added : AxisOp.added ops = axes.map fun a => (a.key, a.len)
  sound : ∀ x y, AxisOp.United ops x y → ∃ a b, axes[x]? = some a ∧ axes[y]? = some b ∧ a.cls = b.cls
  linked : ∀ x y a b, axes[x]? = some a → axes[y]? = some b → a.cls = b.cls → AxisOp.Connected ops x y
  pinSound : ∀ h, AxisOp.Pinned ops h → ∃ a, axes[h]? = some a ∧ a.cls ∈ pinned
  pinComplete : ∀ c ∈ pinned, ∃ h a, axes[h]? = some a ∧ a.cls = c ∧ AxisOp.Pinned ops h
  recorded : ∀ tensor dim, ((st.axisHandle.get? tensor).getD []).getD dim BuildState.unset ≠ BuildState.unset →
    ⟨tensor, dim⟩ ∈ axes.map Axis.key
  touched : ∀ t, t ∈ st.touched ↔ t ∈ axes.map fun a => a.key.tensor

section
variable {axes : List Axis} {pinned : List AxisClass} {st : BuildState} {ops : List AxisOp}

theorem Tracked.length (t : Tracked axes pinned st ops) : (AxisOp.added ops).length = axes.length := by
  rw [t.added, List.length_map]

theorem Tracked.keys (t : Tracked axes pinned st ops) : (AxisOp.added ops).map Prod.fst = axes.map Axis.key := by
  rw [t.added, List.map_map]
  rfl

theorem Tracked.nodup (t : Tracked axes pinned st ops) : (axes.map Axis.key).Nodup := t.keys ▸ AxisOp.added_nodup ops

/-- Axes are connected iff they are of one class. -/
theorem Tracked.connected_iff (t : Tracked axes pinned st ops) {x y : Nat} {a b : Axis} (ha : axes[x]? = some a)
    (hb : axes[y]? = some b) : AxisOp.Connected ops x y ↔ a.cls = b.cls := by
  refine ⟨fun h => ?_, t.linked x y a b ha hb⟩
  have hclass : ∀ x y, AxisOp.Connected ops x y →
      x = y ∨ ∃ a b, axes[x]? = some a ∧ axes[y]? = some b ∧ a.cls = b.cls := by
    intro x y h
    induction h with
    | rel x y hxy => exact .inr (t.sound x y hxy)
    | refl x => exact .inl rfl
    | symm x y _ ih =>
      rcases ih with rfl | ⟨a, b, ha, hb, he⟩
      · exact .inl rfl
      · exact .inr ⟨b, a, hb, ha, he.symm⟩
    | trans x y z _ _ ih ih' =>
      rcases ih with rfl | ⟨a, b, ha, hb, he⟩
      · exact ih'
      · rcases ih' with rfl | ⟨b', c, hb', hc, he'⟩
        · exact .inr ⟨a, b, ha, hb, he⟩
        · rw [hb] at hb'
          exact .inr ⟨a, c, ha, hc, he.trans (Option.some.inj hb' ▸ he')⟩
  rcases hclass x y h with rfl | ⟨a', b', ha', hb', he⟩
  · rw [ha] at hb
    rw [Option.some.inj hb]
  · rw [ha] at ha'
    rw [hb] at hb'
    rw [Option.some.inj ha', Option.some.inj hb', he]

/-- An axis that is new gets the next handle. -/
theorem Tracked.register (t : Tracked axes pinned st ops) (a : Axis) (hnew : a.key ∉ axes.map Axis.key)
    (hsmall : axes.length + 1 < 2 ^ 32) :
    (registerAxis st a.key.tensor a.key.dim a.len).1 = axes.length ∧
      (∃ root, AxisOp.Built (ops ++ [.add a.key a.len]) (registerAxis st a.key.tensor a.key.dim a.len).2.uf root) ∧
      AxisOp.added (ops ++ [.add a.key a.len]) = (axes ++ [a]).map (fun a => (a.key, a.len)) ∧
      (∀ tensor dim, (((registerAxis st a.key.tensor a.key.dim a.len).2.axisHandle.get? tensor).getD []).getD dim
        BuildState.unset ≠ BuildState.unset → ⟨tensor, dim⟩ ∈ (axes ++ [a]).map Axis.key) ∧
      ∀ t, t ∈ (registerAxis st a.key.tensor a.key.dim a.len).2.touched ↔ t ∈ (axes ++ [a]).map fun a => a.key.tensor := by
  obtain ⟨root, hbuilt⟩ := t.built
  obtain ⟨⟨tensor, dim⟩, len, c⟩ := a
  have hnew' : (⟨tensor, dim⟩ : AxisKey) ∉ (AxisOp.added ops).map Prod.fst := t.keys ▸ hnew
  have hadded : AxisOp.added (ops ++ [.add ⟨tensor, dim⟩ len]) =
      (axes ++ [⟨⟨tensor, dim⟩, len, c⟩] : List Axis).map fun a => (a.key, a.len) := by
    rw [AxisOp.added_snoc, AxisOp.addAxis, if_neg hnew', t.added, List.map_append]
    rfl
  have hnone : st.uf.index.get? ⟨tensor, dim⟩ = none := by
    cases hget : st.uf.index.get? ⟨tensor, dim⟩ with
    | none => rfl
    | some handle => exact absurd (List.mem_of_getElem? ((hbuilt.index _ handle).mp hget)) hnew'
  have hlen : st.uf.nodes.length = axes.length := hbuilt.length.trans t.length
  generalize hhandles : (st.axisHandle.get? tensor).getD [] = handles
  have hpad : ∀ dim', (handles ++ List.replicate (dim + 1 - handles.length) BuildState.unset).getD dim' BuildState.unset =
      handles.getD dim' BuildState.unset := by
    intro dim'
    rw [List.getD_eq_getElem?_getD, List.getD_eq_getElem?_getD, List.getElem?_append]
    split
    · rfl
    · next hge =>
      rw [List.getElem?_eq_none (Nat.le_of_not_lt hge), List.getElem?_replicate]
      split
      · rfl
      · rfl
  have hunset : (handles ++ List.replicate (dim + 1 - handles.length) BuildState.unset).getD dim BuildState.unset =
      BuildState.unset := by
    rw [hpad]
    by_contra hset
    exact hnew (t.recorded tensor dim (by rwa [hhandles]))
  have hregister : registerAxis st tensor dim len = ((st.uf.add ⟨tensor, dim⟩ len).1,
      ⟨(st.uf.add ⟨tensor, dim⟩ len).2, st.axisHandle.insert tensor
        ((handles ++ List.replicate (dim + 1 - handles.length) BuildState.unset).set dim (st.uf.add ⟨tensor, dim⟩ len).1),
        if tensor ∈ st.touched then st.touched else st.touched ++ [tensor]⟩) := by
    unfold registerAxis
    rw [hhandles]
    exact if_pos hunset
  rw [hregister]
  refine ⟨?_, ⟨root, AxisOp.built_add hbuilt _ len ?_⟩, hadded, ?_, ?_⟩
  · rw [AxisUnionFind.add, hnone]
    exact (u32_of_lt (by omega)).trans hlen
  · rw [hadded]
    simpa using hsmall
  · intro tensor' dim' hset
    rw [List.map_append, List.mem_append]
    by_cases ht : tensor' = tensor
    · subst ht
      by_cases hd : dim' = dim
      · exact .inr (by simp [hd])
      · dsimp only at hset
        rw [FinMap.get?_insert_self, Option.getD_some, List.getD_eq_getElem?_getD, List.getElem?_set_ne (Ne.symm hd),
          ← List.getD_eq_getElem?_getD, hpad, ← hhandles] at hset
        exact .inl (t.recorded tensor' dim' hset)
    · dsimp only at hset
      rw [FinMap.get?_insert_ne _ _ ht] at hset
      exact .inl (t.recorded tensor' dim' hset)
  · intro t'
    rw [List.map_append, List.mem_append, ← t.touched]
    dsimp only
    split
    · next hmem =>
      refine ⟨.inl, fun h => h.elim (fun h => h) fun he => ?_⟩
      rw [List.mem_singleton.mp he]
      exact hmem
    · rw [List.mem_append]
      rfl

theorem getElem?_snoc {l : List Axis} {a b : Axis} {x : Nat} :
    (l ++ [a])[x]? = some b ↔ l[x]? = some b ∨ x = l.length ∧ a = b := by
  rcases lt_trichotomy x l.length with hlt | rfl | hgt
  · rw [List.getElem?_append_left hlt]
    simp [Nat.ne_of_lt hlt]
  · simp
  · rw [List.getElem?_eq_none (by simp; omega), List.getElem?_eq_none (by omega)]
    simp [Nat.ne_of_gt hgt]

/-- A new axis of a class of its own. -/
theorem Tracked.fresh (t : Tracked axes pinned st ops) (a : Axis) (hnew : a.key ∉ axes.map Axis.key)
    (hsmall : axes.length + 1 < 2 ^ 32) (hclass : a.cls ∉ axes.map Axis.cls) :
    (registerAxis st a.key.tensor a.key.dim a.len).1 = axes.length ∧
      Tracked (axes ++ [a]) pinned (registerAxis st a.key.tensor a.key.dim a.len).2 (ops ++ [.add a.key a.len]) := by
  obtain ⟨hhandle, hbuilt, hadded, hrecorded, htouched⟩ := t.register a hnew hsmall
  have hunited : AxisOp.United (ops ++ [.add a.key a.len]) = AxisOp.United ops :=
    AxisOp.united_snoc_of_ne fun a b => by simp
  have hpinned : AxisOp.Pinned (ops ++ [.add a.key a.len]) = AxisOp.Pinned ops := by
    funext i
    simp [AxisOp.Pinned]
  have hother : ∀ {x : Nat} {b : Axis}, axes[x]? = some b → b.cls ≠ a.cls := fun hb he =>
    hclass (List.mem_map.mpr ⟨_, List.mem_of_getElem? hb, he⟩)
  refine ⟨hhandle, hbuilt, hadded, fun x y hxy => ?_, fun x y b c hb hc he => ?_, fun h hpin => ?_, fun c hc => ?_,
    hrecorded, htouched⟩
  · obtain ⟨b, c, hb, hc, he⟩ := t.sound x y (hunited ▸ hxy)
    exact ⟨b, c, getElem?_snoc.mpr (.inl hb), getElem?_snoc.mpr (.inl hc), he⟩
  · rw [AxisOp.Connected, hunited]
    rcases getElem?_snoc.mp hb with hb | ⟨rfl, rfl⟩
    · rcases getElem?_snoc.mp hc with hc | ⟨rfl, rfl⟩
      · exact t.linked x y b c hb hc he
      · exact absurd he (hother hb)
    · rcases getElem?_snoc.mp hc with hc | ⟨rfl, rfl⟩
      · exact absurd he.symm (hother hc)
      · exact .refl _
  · obtain ⟨b, hb, hmem⟩ := t.pinSound h (hpinned ▸ hpin)
    exact ⟨b, getElem?_snoc.mpr (.inl hb), hmem⟩
  · obtain ⟨h, b, hb, he, hpin⟩ := t.pinComplete c hc
    exact ⟨h, b, getElem?_snoc.mpr (.inl hb), he, hpinned ▸ hpin⟩

/-- A new axis that is united with one that is there. -/
theorem Tracked.join (t : Tracked axes pinned st ops) (a : Axis) (hnew : a.key ∉ axes.map Axis.key)
    (hsmall : axes.length + 1 < 2 ^ 32) {h : Nat} {b : Axis} (hb : axes[h]? = some b) (hclass : a.cls = b.cls) :
    ∃ st', (registerAxis st a.key.tensor a.key.dim a.len).2.unite (registerAxis st a.key.tensor a.key.dim a.len).1 h = .ok st' ∧
      Tracked (axes ++ [a]) pinned st' ((ops ++ [.add a.key a.len]) ++ [.unite axes.length h]) := by
  obtain ⟨hhandle, ⟨root, hbuilt⟩, hadded, hrecorded, htouched⟩ := t.register a hnew hsmall
  have hlt : h < axes.length := (List.getElem?_eq_some_iff.mp hb).1
  have hlength : (AxisOp.added (ops ++ [.add a.key a.len])).length = axes.length + 1 := by
    rw [hadded]
    simp
  obtain ⟨uf', root', hunite, hbuilt'⟩ := AxisOp.built_unite hbuilt (a := axes.length) (b := h) (by omega) (by omega)
  have hpinned : AxisOp.Pinned ((ops ++ [.add a.key a.len]) ++ [.unite axes.length h]) = AxisOp.Pinned ops := by
    funext i
    simp [AxisOp.Pinned]
  have hunited : ∀ x y, AxisOp.United ((ops ++ [.add a.key a.len]) ++ [.unite axes.length h]) x y ↔
      AxisOp.United ops x y ∨ x = axes.length ∧ y = h := by
    intro x y
    simp [AxisOp.United]
  have hold : ∀ {x y : Nat}, AxisOp.Connected ops x y →
      AxisOp.Connected ((ops ++ [.add a.key a.len]) ++ [.unite axes.length h]) x y := fun hxy =>
    hxy.mono fun x y hxy => (hunited x y).mpr (.inl hxy)
  have hjoined : ∀ {x : Nat} {c : Axis}, axes[x]? = some c → c.cls = a.cls →
      AxisOp.Connected ((ops ++ [.add a.key a.len]) ++ [.unite axes.length h]) axes.length x := fun hc he =>
    .trans _ h _ (.rel _ _ ((hunited _ _).mpr (.inr ⟨rfl, rfl⟩))) (hold (t.linked _ _ _ _ hb hc (hclass ▸ he.symm)))
  refine ⟨{ (registerAxis st a.key.tensor a.key.dim a.len).2 with uf := uf' }, ?_, ⟨root', hbuilt'⟩, ?_,
    fun x y hxy => ?_, fun x y c d hc hd he => ?_, fun i hpin => ?_, fun c hc => ?_, hrecorded, htouched⟩
  · rw [BuildState.unite, hhandle, hunite]
    rfl
  · rw [AxisOp.added_snoc]
    exact hadded
  · rcases (hunited x y).mp hxy with hxy | ⟨rfl, rfl⟩
    · obtain ⟨c, d, hc, hd, he⟩ := t.sound x y hxy
      exact ⟨c, d, getElem?_snoc.mpr (.inl hc), getElem?_snoc.mpr (.inl hd), he⟩
    · exact ⟨a, b, getElem?_snoc.mpr (.inr ⟨rfl, rfl⟩), getElem?_snoc.mpr (.inl hb), hclass⟩
  · rcases getElem?_snoc.mp hc with hc | ⟨rfl, rfl⟩
    · rcases getElem?_snoc.mp hd with hd | ⟨rfl, rfl⟩
      · exact hold (t.linked x y c d hc hd he)
      · exact (hjoined hc he).symm
    · rcases getElem?_snoc.mp hd with hd | ⟨rfl, rfl⟩
      · exact hjoined hd he.symm
      · exact .refl _
  · obtain ⟨c, hc, hmem⟩ := t.pinSound i (hpinned ▸ hpin)
    exact ⟨c, getElem?_snoc.mpr (.inl hc), hmem⟩
  · obtain ⟨i, d, hd, he, hpin⟩ := t.pinComplete c hc
    exact ⟨i, d, getElem?_snoc.mpr (.inl hd), he, hpinned ▸ hpin⟩

theorem Tracked.pin (t : Tracked axes pinned st ops) {h : Nat} {a : Axis} (ha : axes[h]? = some a) :
    ∃ st', st.pin h = .ok st' ∧ Tracked axes (pinned ++ [a.cls]) st' (ops ++ [.pin h]) := by
  obtain ⟨root, hbuilt⟩ := t.built
  have hlt : h < axes.length := (List.getElem?_eq_some_iff.mp ha).1
  obtain ⟨uf', hpin, hbuilt'⟩ := AxisOp.built_pin hbuilt (i := h) (by rw [t.length]; exact hlt)
  have hunited : AxisOp.United (ops ++ [.pin h]) = AxisOp.United ops := AxisOp.united_snoc_of_ne fun a b => by simp
  have hpinned : ∀ i, AxisOp.Pinned (ops ++ [.pin h]) i ↔ AxisOp.Pinned ops i ∨ i = h := by
    intro i
    simp [AxisOp.Pinned]
  refine ⟨{ st with uf := uf' }, ?_, ⟨root, hbuilt'⟩, ?_, fun x y hxy => t.sound x y (hunited ▸ hxy), ?_,
    fun i hi => ?_, fun c hc => ?_, t.recorded, t.touched⟩
  · rw [BuildState.pin, hpin]
    rfl
  · rw [AxisOp.added_snoc]
    exact t.added
  · rw [AxisOp.Connected, hunited]
    exact t.linked
  · rcases (hpinned i).mp hi with hi | rfl
    · obtain ⟨b, hb, hmem⟩ := t.pinSound i hi
      exact ⟨b, hb, List.mem_append_left _ hmem⟩
    · exact ⟨a, ha, by simp⟩
  · rcases List.mem_append.mp hc with hc | hc
    · obtain ⟨i, b, hb, he, hpin⟩ := t.pinComplete c hc
      exact ⟨i, b, hb, he, (hpinned i).mpr (.inl hpin)⟩
    · exact ⟨h, a, ha, (List.mem_singleton.mp hc).symm, (hpinned h).mpr (.inr rfl)⟩

/-! ### The walk -/

/-- A vector over the units of an axis that is there. -/
theorem tieVector_follows {src : TensorSource} (t : Tracked axes pinned st ops) {name : String}
    (hnew : ∀ d, (⟨name, d⟩ : AxisKey) ∉ axes.map Axis.key) (hsmall : axes.length + 1 < 2 ^ 32) {h : Nat} {b : Axis}
    (hb : axes[h]? = some b) :
    (∃ e, Plan.planVector src name b.cls = .error e ∧ tieVector src st name h = .error e) ∨
      ∃ l st' ops', Plan.planVector src name b.cls = .ok l ∧ tieVector src st name h = .ok st' ∧
        Tracked (axes ++ l) pinned st' ops' ∧ l.length ≤ 1 ∧ ∀ a ∈ l, a.key = ⟨name, 0⟩ ∧ a.cls = b.cls := by
  unfold Plan.planVector tieVector
  cases src.tensorMeta name with
  | none => exact .inr ⟨[], st, ops, rfl, rfl, by rwa [List.append_nil], by simp, by simp⟩
  | some m =>
    dsimp only
    cases hlen : m.shape[0]? with
    | none => exact .inl ⟨_, rfl, rfl⟩
    | some len =>
      obtain ⟨st', hunite, ht⟩ := t.join ⟨⟨name, 0⟩, len, b.cls⟩ (hnew 0) hsmall hb rfl
      exact .inr ⟨[⟨⟨name, 0⟩, len, b.cls⟩], st', _, rfl, hunite, ht, by simp, by simp⟩

end

/-- The walk is where the plan is, with all layers before `idx` behind it. -/
structure Follows (idx : Nat) (p : Plan) (w : Walk) : Prop where
  tracked : ∃ ops, Tracked p.axes p.pinned w.st ops
  spatial : w.spatial = p.spatial
  current : p.layer = none ∧ w.currentAxis = none ∧ p.axes = [] ∨
    ∃ l h a, p.layer = some l ∧ w.currentAxis = some h ∧ p.axes[h]? = some a ∧ a.cls = .output l
  named : ∀ a ∈ p.axes, ∃ (i : Nat) (s : String), i < idx ∧ s.toList.head? = some '.' ∧ a.key.tensor = toString i ++ s
  classes : ∀ a ∈ p.axes, a.cls = .input ∨ ∃ i < idx, a.cls = .output i

section
variable {src : TensorSource} {opts : ParseOptions} {idx : Nat} {p : Plan} {w : Walk}

/-- No tensor of this layer has been named before. -/
theorem Follows.fresh (f : Follows idx p w) {s : String} (hs : s.toList.head? = some '.') (d : Nat) :
    (⟨toString idx ++ s, d⟩ : AxisKey) ∉ p.axes.map Axis.key := by
  intro hmem
  obtain ⟨a, ha, hkey⟩ := List.mem_map.mp hmem
  obtain ⟨i, s', hi, hs', hname⟩ := f.named a ha
  rw [hkey] at hname
  have := (named_inj hs hs' hname).1
  omega

theorem Follows.fresh_class (f : Follows idx p w) : AxisClass.output idx ∉ p.axes.map Axis.cls := by
  intro hmem
  obtain ⟨a, ha, hcls⟩ := List.mem_map.mp hmem
  rcases f.classes a ha with he | ⟨i, hi, he⟩
  · rw [he] at hcls
    cases hcls
  · rw [he] at hcls
    cases hcls
    omega

/-- The input of a layer, once its output is registered. -/
theorem tieInput_follows (f : Follows idx p w) {st : BuildState} {ops : List AxisOp} {out a : Axis}
    (t : Tracked (p.axes ++ [out]) p.pinned st ops) (hout : out.cls = .output idx)
    (hnew : a.key ∉ (p.axes ++ [out]).map Axis.key) (hcls : a.cls = p.layer.elim .input .output)
    (hsmall : p.axes.length + 2 < 2 ^ 32) :
    ∃ st' ops', tieInput opts (registerAxis st a.key.tensor a.key.dim a.len).2 (registerAxis st a.key.tensor a.key.dim a.len).1
        w.currentAxis = .ok st' ∧
      Tracked ((p.axes ++ [out]) ++ [a]) (p.pinned ++ if p.layer = none ∧ opts.strict then [.input] else []) st' ops' := by
  have hsmall' : (p.axes ++ [out]).length + 1 < 2 ^ 32 := by
    simp
    omega
  rcases f.current with ⟨hlayer, hcurrent, hnil⟩ | ⟨l, h, b, hlayer, hcurrent, hb, hbcls⟩
  · rw [hlayer, Option.elim_none] at hcls
    have hclass : a.cls ∉ (p.axes ++ [out]).map Axis.cls := by simp [hnil, hcls, hout]
    obtain ⟨hhandle, t'⟩ := t.fresh a hnew hsmall' hclass
    rw [hcurrent, tieInput]
    cases hstrict : opts.strict with
    | true =>
      obtain ⟨st', hpin, t''⟩ := t'.pin (h := (p.axes ++ [out]).length) (a := a) (by simp)
      rw [hhandle, if_pos rfl, if_pos ⟨hlayer, rfl⟩]
      exact ⟨st', _, hpin, hcls ▸ t''⟩
    | false =>
      rw [if_neg (by simp), if_neg (by simp), List.append_nil]
      exact ⟨_, _, rfl, t'⟩
  · rw [hlayer, Option.elim_some] at hcls
    obtain ⟨st', hunite, t'⟩ := t.join a hnew hsmall' (h := h) (b := b) (getElem?_snoc.mpr (.inl hb)) (hcls.trans hbcls.symm)
    rw [hcurrent, tieInput, if_neg (by simp [hlayer]), List.append_nil]
    exact ⟨st', _, hunite, t'⟩

/-- Pinning the last output. -/
theorem pinLast_follows {axes : List Axis} {pinned : List AxisClass} {st : BuildState} {ops : List AxisOp}
    (t : Tracked axes pinned st ops) (last : Bool) {h : Nat} {a : Axis} (ha : axes[h]? = some a) :
    ∃ st' ops', (if last then st.pin h else .ok st) = Except.ok st' ∧
      Tracked axes (pinned ++ if last then [a.cls] else []) st' ops' := by
  cases last with
  | true =>
    obtain ⟨st', hpin, t'⟩ := t.pin ha
    exact ⟨st', _, hpin, t'⟩
  | false =>
    rw [if_neg (by simp), if_neg (by simp), List.append_nil]
    exact ⟨st, _, rfl, t⟩

/-- The axes of a weight. -/
theorem weightAxes_follow (f : Follows idx p w) (rows cols : Nat) (hsmall : p.axes.length + 4 < 2 ^ 32) :
    (registerAxis w.st (toString idx ++ ".weight") 0 rows).1 = p.axes.length ∧
    ∃ st' ops',
      tieInput opts (registerAxis (registerAxis w.st (toString idx ++ ".weight") 0 rows).2 (toString idx ++ ".weight") 1 cols).2
        (registerAxis (registerAxis w.st (toString idx ++ ".weight") 0 rows).2 (toString idx ++ ".weight") 1 cols).1
        w.currentAxis = .ok st' ∧
      Tracked (p.axes ++ [⟨⟨toString idx ++ ".weight", 0⟩, rows, .output idx⟩,
          ⟨⟨toString idx ++ ".weight", 1⟩, cols, p.layer.elim .input .output⟩])
        (p.pinned ++ if p.layer = none ∧ opts.strict then [.input] else []) st' ops' := by
  obtain ⟨ops, t⟩ := f.tracked
  have hdot : (".weight" : String).toList.head? = some '.' := by decide
  obtain ⟨hout, t'⟩ := t.fresh ⟨⟨toString idx ++ ".weight", 0⟩, rows, .output idx⟩ (f.fresh hdot 0) (by omega) f.fresh_class
  have hnew : (⟨toString idx ++ ".weight", 1⟩ : AxisKey) ∉
      (p.axes ++ [(⟨⟨toString idx ++ ".weight", 0⟩, rows, .output idx⟩ : Axis)]).map Axis.key := by
    rw [List.map_append, List.mem_append, not_or]
    exact ⟨f.fresh hdot 1, by simp⟩
  obtain ⟨st', ops', htie, t''⟩ := tieInput_follows f t'
    (a := ⟨⟨toString idx ++ ".weight", 1⟩, cols, p.layer.elim .input .output⟩) rfl hnew rfl (by omega)
  rw [List.append_assoc] at t''
  exact ⟨hout, st', ops', htie, t''⟩

theorem Follows.layer_class (f : Follows idx p w) :
    p.layer.elim .input .output = AxisClass.input ∨ ∃ i < idx, p.layer.elim .input .output = AxisClass.output i := by
  rcases f.current with ⟨hlayer, -, -⟩ | ⟨l, h, a, hlayer, -, ha, hcls⟩
  · exact .inl (by rw [hlayer, Option.elim_none])
  · rcases f.classes a (List.mem_of_getElem? ha) with he | ⟨i, hi, he⟩
    · rw [hcls] at he
      cases he
    · rw [hcls] at he
      cases he
      exact .inr ⟨l, hi, by rw [hlayer, Option.elim_some]⟩

/-- A layer that adds axes of its own tensors. -/
theorem Follows.extend (f : Follows idx p w) {l : List Axis} {pinned : List AxisClass} {st : BuildState} {ops : List AxisOp}
    (t : Tracked (p.axes ++ l) pinned st ops)
    (hnamed : ∀ a ∈ l, ∃ s : String, s.toList.head? = some '.' ∧ a.key.tensor = toString idx ++ s)
    (hclasses : ∀ a ∈ l, a.cls = .input ∨ ∃ i < idx + 1, a.cls = .output i) {layer h : Nat} {a : Axis}
    (ha : (p.axes ++ l)[h]? = some a) (hcls : a.cls = .output layer) (spatial : List Int) :
    Follows (idx + 1) ⟨p.axes ++ l, pinned, some layer, spatial⟩ ⟨st, some h, spatial⟩ := by
  refine ⟨⟨ops, t⟩, rfl, .inr ⟨layer, h, a, rfl, rfl, ha, hcls⟩, fun b hb => ?_, fun b hb => ?_⟩
  · rcases List.mem_append.mp hb with hb | hb
    · obtain ⟨i, s, hi, hs, hname⟩ := f.named b hb
      exact ⟨i, s, by omega, hs, hname⟩
    · obtain ⟨s, hs, hname⟩ := hnamed b hb
      exact ⟨idx, s, by omega, hs, hname⟩
  · rcases List.mem_append.mp hb with hb | hb
    · exact (f.classes b hb).imp_right fun ⟨i, hi, he⟩ => ⟨i, by omega, he⟩
    · exact hclasses b hb

/-- A layer that leaves the axes as they are. -/
theorem Follows.next (f : Follows idx p w) : Follows (idx + 1) p w := by
  refine ⟨f.tracked, f.spatial, f.current, fun a ha => ?_, fun a ha => ?_⟩
  · obtain ⟨i, s, hi, hs, hname⟩ := f.named a ha
    exact ⟨i, s, by omega, hs, hname⟩
  · exact (f.classes a ha).imp_right fun ⟨i, hi, he⟩ => ⟨i, by omega, he⟩

theorem Follows.resize (f : Follows idx p w) (spatial : List Int) :
    Follows idx { p with spatial := spatial } { w with spatial := spatial } :=
  ⟨f.tracked, rfl, f.current, f.named, f.classes⟩

theorem paramLayer_follows (f : Follows idx p w) (last : Bool) (t : String) (layer : Json)
    (hsmall : p.axes.length + 4 < 2 ^ 32) :
    (∃ e, p.planParam src opts last idx t layer = .error e ∧ paramLayer src opts last w idx t layer = .error e) ∨
      ∃ p' w', p.planParam src opts last idx t layer = .ok p' ∧ paramLayer src opts last w idx t layer = .ok w' ∧
        Follows (idx + 1) p' w' := by
  unfold Plan.planParam paramLayer
  dsimp only
  cases hmeta : requireMeta src (toString idx ++ ".weight") with
  | error e => exact .inl ⟨e, rfl, rfl⟩
  | ok wmeta =>
    simp only [bind, Except.bind]
    by_cases hrank : wmeta.shape.length < 2
    · rw [if_pos hrank, if_pos hrank]
      exact .inl ⟨_, rfl, rfl⟩
    · rw [if_neg hrank, if_neg hrank]
      obtain ⟨hout, st₁, ops₁, htie, t₁⟩ := weightAxes_follow f (wmeta.shape.getD 0 0) (wmeta.shape.getD 1 0) hsmall
      generalize wmeta.shape.getD 0 0 = rows at *
      generalize wmeta.shape.getD 1 0 = cols at *
      have hnew : ∀ d, (⟨toString idx ++ ".bias", d⟩ : AxisKey) ∉
          (p.axes ++ [⟨⟨toString idx ++ ".weight", 0⟩, rows, .output idx⟩,
            (⟨⟨toString idx ++ ".weight", 1⟩, cols, p.layer.elim .input .output⟩ : Axis)]).map Axis.key := by
        intro d hmem
        have hne : toString idx ++ ".bias" ≠ toString idx ++ ".weight" := fun h =>
          absurd (named_inj (by decide) (by decide) h).2 (by decide)
        rw [List.map_append, List.mem_append] at hmem
        rcases hmem with hmem | hmem
        · exact f.fresh (by decide) d hmem
        · rw [List.map_cons, List.map_cons, List.map_nil, List.mem_pair] at hmem
          exact hmem.elim (fun h => hne (congrArg AxisKey.tensor h)) fun h => hne (congrArg AxisKey.tensor h)
      have hhead : (p.axes ++ [⟨⟨toString idx ++ ".weight", 0⟩, rows, .output idx⟩,
            (⟨⟨toString idx ++ ".weight", 1⟩, cols, p.layer.elim .input .output⟩ : Axis)])[p.axes.length]? =
          some ⟨⟨toString idx ++ ".weight", 0⟩, rows, .output idx⟩ := by simp
      rw [htie, hout]
      dsimp only
      rcases tieVector_follows t₁ hnew (by simp; omega) hhead with
        ⟨e, hplan, hwalk⟩ | ⟨l, st₂, ops₂, hplan, hwalk, t₂, hshort, hbias⟩
      · exact .inl ⟨e, by rw [hplan], by rw [hwalk]⟩
      · rw [hplan, hwalk, f.spatial]
        dsimp only
        have hhead' := (@List.getElem?_append_left _ _ l _ (by simp)).trans hhead
        obtain ⟨st₃, ops₃, hpin, t₃⟩ := pinLast_follows t₂ last hhead'
        cases hspatial : paramSpatial t rows p.spatial layer with
        | error e =>
          refine .inl ⟨e, rfl, ?_⟩
          cases last with
          | true =>
            rw [if_pos rfl] at hpin ⊢
            rw [hpin]
          | false => rw [if_neg (by simp)]
        | ok spatial =>
          refine .inr ⟨_, ⟨st₃, some p.axes.length, spatial⟩, rfl, ?_, ?_⟩
          · cases last with
            | true =>
              rw [if_pos rfl] at hpin ⊢
              rw [hpin]
              rfl
            | false =>
              rw [if_neg (by simp)] at hpin ⊢
              cases hpin
              rfl
          · rw [List.append_assoc] at t₃ hhead' ⊢
            refine f.extend t₃ (fun a ha => ?_) (fun a ha => ?_) hhead' rfl spatial
            · rcases List.mem_append.mp ha with ha | ha
              · refine ⟨".weight", by decide, ?_⟩
                rcases List.mem_pair.mp ha with rfl | rfl <;> rfl
              · exact ⟨".bias", by decide, by rw [(hbias a ha).1]⟩
            · rcases List.mem_append.mp ha with ha | ha
              · rcases List.mem_pair.mp ha with rfl | rfl
                · exact .inr ⟨idx, by omega, rfl⟩
                · exact f.layer_class.imp_right fun ⟨i, hi, he⟩ => ⟨i, by omega, he⟩
              · exact .inr ⟨idx, by omega, (hbias a ha).2⟩

variable (src idx) in
theorem vectors_follow {h : Nat} {b : Axis} (suffixes : List String) (hdot : ∀ s ∈ suffixes, s.toList.head? = some '.')
    (hnodup : suffixes.Nodup) :
    ∀ {axes : List Axis} {pinned : List AxisClass} {st : BuildState} {ops : List AxisOp}, Tracked axes pinned st ops →
      axes[h]? = some b → (∀ s ∈ suffixes, ∀ d, (⟨toString idx ++ s, d⟩ : AxisKey) ∉ axes.map Axis.key) →
      axes.length + suffixes.length < 2 ^ 32 →
      (∃ e, suffixes.mapM (fun suffix => Plan.planVector src (toString idx ++ suffix) b.cls) = .error e ∧
        suffixes.foldlM (fun st suffix => tieVector src st (toString idx ++ suffix) h) st = .error e) ∨
      ∃ ls st' ops', suffixes.mapM (fun suffix => Plan.planVector src (toString idx ++ suffix) b.cls) = .ok ls ∧
        suffixes.foldlM (fun st suffix => tieVector src st (toString idx ++ suffix) h) st = .ok st' ∧
        Tracked (axes ++ ls.flatten) pinned st' ops' ∧
        ∀ a ∈ ls.flatten, (∃ s ∈ suffixes, a.key = ⟨toString idx ++ s, 0⟩) ∧ a.cls = b.cls := by
  induction suffixes with
  | nil =>
    intro axes pinned st ops t hb hnew hsmall
    exact .inr ⟨[], st, ops, rfl, rfl, by rwa [List.flatten_nil, List.append_nil], by simp⟩
  | cons s suffixes ih =>
    intro axes pinned st ops t hb hnew hsmall
    rw [List.length_cons] at hsmall
    rw [List.mapM_cons, List.foldlM_cons]
    rcases tieVector_follows t (hnew s List.mem_cons_self) (by omega) hb with
      ⟨e, hplan, hwalk⟩ | ⟨l, st', ops', hplan, hwalk, t', hshort, hbias⟩
    · exact .inl ⟨e, by rw [hplan]; rfl, by rw [hwalk]; rfl⟩
    · rw [hplan, hwalk]
      have hb' : (axes ++ l)[h]? = some b := by
        rw [List.getElem?_append_left (List.getElem?_eq_some_iff.mp hb).1, hb]
      have hnew' : ∀ s' ∈ suffixes, ∀ d, (⟨toString idx ++ s', d⟩ : AxisKey) ∉ (axes ++ l).map Axis.key := by
        intro s' hs' d hmem
        rw [List.map_append, List.mem_append] at hmem
        rcases hmem with hmem | hmem
        · exact hnew s' (List.mem_cons_of_mem _ hs') d hmem
        · obtain ⟨a, ha, hkey⟩ := List.mem_map.mp hmem
          rw [(hbias a ha).1] at hkey
          have hsame := (named_inj (hdot s List.mem_cons_self) (hdot s' (List.mem_cons_of_mem _ hs'))
            (congrArg AxisKey.tensor hkey)).2
          exact (List.nodup_cons.mp hnodup).1 (hsame ▸ hs')
      rcases ih (fun s' hs' => hdot s' (List.mem_cons_of_mem _ hs')) (List.nodup_cons.mp hnodup).2 t' hb' hnew'
        (by rw [List.length_append]; omega) with ⟨e, hplans, hwalks⟩ | ⟨ls, st'', ops'', hplans, hwalks, t'', hrest⟩
      · exact .inl ⟨e, by simp only [bind, Except.bind, hplans], hwalks⟩
      · refine .inr ⟨l :: ls, st'', ops'', by simp only [bind, Except.bind, hplans]; rfl, hwalks, ?_, fun a ha => ?_⟩
        · rwa [List.flatten_cons, ← List.append_assoc]
        · rw [List.flatten_cons] at ha
          rcases List.mem_append.mp ha with ha | ha
          · exact ⟨⟨s, List.mem_cons_self, (hbias a ha).1⟩, (hbias a ha).2⟩
          · obtain ⟨⟨s', hs', hkey⟩, hcls⟩ := hrest a ha
            exact ⟨⟨s', List.mem_cons_of_mem _ hs', hkey⟩, hcls⟩

theorem normLayer_follows (f : Follows idx p w) (t : String) (hsmall : p.axes.length + 4 < 2 ^ 32) :
    (∃ e, p.planNorm src idx t = .error e ∧ normLayer src w idx t = .error e) ∨
      ∃ p' w', p.planNorm src idx t = .ok p' ∧ normLayer src w idx t = .ok w' ∧
        Follows (idx + 1) p' w' := by
  unfold Plan.planNorm normLayer
  rcases f.current with ⟨hlayer, hcurrent, -⟩ | ⟨l, h, b, hlayer, hcurrent, hb, hcls⟩
  · rw [hlayer, hcurrent]
    exact .inl ⟨_, rfl, rfl⟩
  · rw [hlayer, hcurrent]
    obtain ⟨ops, tr⟩ := f.tracked
    have hdot : ∀ s ∈ normSuffixes, s.toList.head? = some '.' := by decide
    rcases vectors_follow src idx normSuffixes hdot (by decide) tr hb (fun s hs d => f.fresh (hdot s hs) d)
      hsmall with ⟨e, hplan, hwalk⟩ | ⟨ls, st', ops', hplan, hwalk, t', hrest⟩
    · rw [hcls] at hplan
      exact .inl ⟨e, by simp only [bind, Except.bind, hplan], by simp only [bind, Except.bind, hwalk]⟩
    · rw [hcls] at hplan hrest
      refine .inr ⟨⟨p.axes ++ ls.flatten, p.pinned, some l, p.spatial⟩, ⟨st', some h, p.spatial⟩, ?_, ?_, ?_⟩
      · simp only [bind, Except.bind, hplan]
        rfl
      · simp only [bind, Except.bind, hwalk, f.spatial]
        rfl
      · have hb' : (p.axes ++ ls.flatten)[h]? = some b := by
          rw [List.getElem?_append_left (List.getElem?_eq_some_iff.mp hb).1, hb]
        refine f.extend t' (fun a ha => ?_) (fun a ha => ?_) hb' hcls p.spatial
        · obtain ⟨⟨s, hs, hkey⟩, -⟩ := hrest a ha
          exact ⟨s, hdot s hs, by rw [hkey]⟩
        · rw [(hrest a ha).2, ← hcls]
          exact (f.classes b (List.mem_of_getElem? hb)).imp_right fun ⟨i, hi, he⟩ => ⟨i, by omega, he⟩

/-- One layer: the walk fails where the plan fails, or both go on. -/
theorem walkLayer_follows (f : Follows idx p w) (lastParamIdx : Nat) (layer : Json) (hsmall : p.axes.length + 4 < 2 ^ 32) :
    (∃ e, p.planLayer src opts lastParamIdx (layer, idx) = .error e ∧ walkLayer src opts lastParamIdx w (layer, idx) = .error e) ∨
      ∃ p' w', p.planLayer src opts lastParamIdx (layer, idx) = .ok p' ∧
        walkLayer src opts lastParamIdx w (layer, idx) = .ok w' ∧ Follows (idx + 1) p' w' := by
  unfold Plan.planLayer walkLayer
  dsimp only
  cases htype : layerType layer with
  | error e => exact .inl ⟨e, rfl, rfl⟩
  | ok t =>
    simp only [bind, Except.bind]
    by_cases hempty : t = ""
    · rw [if_pos hempty, if_pos hempty]
      exact .inl ⟨_, rfl, rfl⟩
    rw [if_neg hempty, if_neg hempty]
    by_cases hparam : isParam t
    · rw [if_pos hparam, if_pos hparam]
      exact paramLayer_follows f _ t layer hsmall
    rw [if_neg hparam, if_neg hparam]
    by_cases hnorm : isNorm t
    · rw [if_pos hnorm, if_pos hnorm]
      exact normLayer_follows f t hsmall
    rw [if_neg hnorm, if_neg hnorm]
    by_cases hpool : t = "maxpool2d"
    · rw [if_pos hpool, if_pos hpool, f.spatial]
      cases poolSpatial p.spatial layer with
      | error e => exact .inl ⟨e, rfl, rfl⟩
      | ok spatial => exact .inr ⟨_, _, rfl, rfl, (f.resize spatial).next⟩
    rw [if_neg hpool, if_neg hpool]
    by_cases hflat : t = "flatten"
    · rw [if_pos hflat, if_pos hflat, f.spatial]
      cases flatSpatial p.spatial with
      | error e => exact .inl ⟨e, rfl, rfl⟩
      | ok spatial => exact .inr ⟨_, _, rfl, rfl, (f.resize spatial).next⟩
    rw [if_neg hflat, if_neg hflat]
    by_cases hplain : isPlain t
    · rw [if_pos hplain, if_pos hplain]
      exact .inr ⟨p, w, rfl, rfl, f.next⟩
    rw [if_neg hplain, if_neg hplain]
    by_cases hstrict : opts.strict
    · rw [if_pos hstrict, if_pos hstrict]
      exact .inl ⟨_, rfl, rfl⟩
    · rw [if_neg hstrict, if_neg hstrict]
      exact .inr ⟨p, w, rfl, rfl, f.next⟩

/-- The run over the layers from `idx` on. -/
theorem layers_follow (hlisted : Plan.Listed src) (hfew : 2 * src.bufferLayout.length + 4 < 2 ^ 32) (lastParamIdx : Nat)
    (layers : List Json) :
    ∀ {idx : Nat} {p : Plan} {w : Walk}, Follows idx p w → Plan.Sized src p.axes →
      (∃ e, (layers.zipIdx idx).foldlM (Plan.planLayer src opts lastParamIdx) p = .error e ∧
        (layers.zipIdx idx).foldlM (walkLayer src opts lastParamIdx) w = .error e) ∨
      ∃ p' w', (layers.zipIdx idx).foldlM (Plan.planLayer src opts lastParamIdx) p = .ok p' ∧
        (layers.zipIdx idx).foldlM (walkLayer src opts lastParamIdx) w = .ok w' ∧ Follows (idx + layers.length) p' w' ∧
        Plan.Sized src p'.axes := by
  induction layers with
  | nil =>
    intro idx p w f hsized
    exact .inr ⟨p, w, rfl, rfl, f, hsized⟩
  | cons layer layers ih =>
    intro idx p w f hsized
    have hsmall : p.axes.length + 4 < 2 ^ 32 := by
      obtain ⟨ops, t⟩ := f.tracked
      have := Plan.length_le_of_sized hsized hlisted t.nodup
      omega
    rw [List.zipIdx_cons, List.foldlM_cons, List.foldlM_cons]
    rcases walkLayer_follows f lastParamIdx layer hsmall with
      ⟨e, hplan, hwalk⟩ | ⟨p', w', hplan, hwalk, f'⟩
    · exact .inl ⟨e, by rw [hplan]; rfl, by rw [hwalk]; rfl⟩
    · rw [hplan, hwalk]
      rcases ih f' (Plan.planLayer_sized hsized hplan) with ⟨e, hplans, hwalks⟩ | ⟨p'', w'', hplans, hwalks, f'', hsized''⟩
      · exact .inl ⟨e, hplans, hwalks⟩
      · refine .inr ⟨p'', w'', hplans, hwalks, ?_, hsized''⟩
        rw [List.length_cons, Nat.add_comm layers.length, ← Nat.add_assoc]
        exact f''

end

end SynapseFs.Align
