import SynapseFs.Lib.Bytes
import SynapseFs.Lib.FileTree

/-! System calls on the files of one directory.

A program opens a file by its name, writes into it by offset, renames it and
removes it. `openFile` creates and never truncates; `rename` replaces what has
the new name unless that is a directory. Each says what every path of the tree
holds afterwards, and none makes or removes a directory (`SameDirs`), so a walk
that led somewhere before leads there still. -/
namespace SynapseFs.Lib.FileTree

/-! ### Directories -/

/-- The same paths are directories. -/
def SameDirs (t t' : FileTree) : Prop := ∀ q, t'.nodes.get? q = some .dir ↔ t.nodes.get? q = some .dir

theorem SameDirs.rfl {t : FileTree} : SameDirs t t := fun _ => Iff.rfl

theorem SameDirs.trans {a b c : FileTree} (h : SameDirs a b) (h' : SameDirs b c) : SameDirs a c :=
  fun q => (h' q).trans (h q)

theorem SameDirs.locate {t t' : FileTree} (h : SameDirs t t') (cur : Path) (comps : List String) :
    t'.locate cur comps = t.locate cur comps := locate_congr h comps cur

theorem put_file_sameDirs (t : FileTree) (dir : Path) (name text : String) (hd : t.nodes.get? dir = some .dir)
    (hn : t.nodes.get? (dir ++ [name]) ≠ some .dir) : SameDirs t (t.put dir name (.file text) hd hn) := by
  intro q
  rw [get?_put]
  split
  · next hq =>
    rw [hq]
    exact ⟨by simp, fun h => absurd h hn⟩
  · exact Iff.rfl

/-- Making directories keeps what is there. -/
theorem makeDirs_keeps {p : Path} {n : Node} (comps : List String) : ∀ {t : FileTree} {cur : Path},
    t.nodes.get? p = some n → (t.makeDirs cur comps).1.nodes.get? p = some n := by
  induction comps with
  | nil => exact fun h => h
  | cons c rest ih =>
    intro t cur h
    rw [makeDirs]
    split
    · split
      · exact ih h
      · split
        · exact ih h
        · split
          · next hn =>
            apply ih
            rw [get?_put, if_neg ?_, h]
            rintro rfl
            rw [hn] at h
            cases h
          · exact ih h
    · exact h

/-- The directory reached is one, and what was made leads there. -/
theorem makeDirs_locate (comps : List String) : ∀ {t t' : FileTree} {cur d : Path},
    t.makeDirs cur comps = (t', some d) → t'.nodes.get? d = some .dir ∧ t'.locate cur comps = some d := by
  induction comps with
  | nil =>
    intro t t' cur d h
    rw [makeDirs] at h
    split at h
    · next hcur =>
      cases h
      exact ⟨hcur, rfl⟩
    · cases h
  | cons c rest ih =>
    intro t t' cur d h
    rw [makeDirs] at h
    split at h
    · next hcur =>
      -- Whatever was made below, `cur` is still a directory, so the walk takes the same step.
      have hkept : ∀ {t₁ : FileTree} {next : Path}, t₁.nodes.get? cur = some .dir → t₁.makeDirs next rest = (t', some d) →
          t'.nodes.get? cur = some .dir := by
        intro t₁ next hdir hmake
        have hkeeps : (t₁.makeDirs next rest).1.nodes.get? cur = some .dir := makeDirs_keeps rest hdir
        rwa [hmake] at hkeeps
      have hwalk : ∀ {t₁ : FileTree} {next : Path}, t₁.makeDirs next rest = (t', some d) → t'.step cur c = some next →
          t'.nodes.get? d = some .dir ∧ t'.locate cur (c :: rest) = some d := by
        intro t₁ next hmake hstep
        obtain ⟨hd, hloc⟩ := ih hmake
        refine ⟨hd, ?_⟩
        rw [locate, hstep]
        exact hloc
      split at h
      · next hc => exact hwalk h (by rw [step, if_neg (not_not.mpr (hkept hcur h)), if_pos hc])
      · next hc =>
        split at h
        · next hup => exact hwalk h (by rw [step, if_neg (not_not.mpr (hkept hcur h)), if_neg hc, if_pos hup])
        · next hup =>
          have hplain : ∀ {t₁ : FileTree}, t₁.nodes.get? cur = some .dir →
              t₁.makeDirs (cur ++ [c]) rest = (t', some d) → t'.step cur c = some (cur ++ [c]) := by
            intro t₁ hdir hmake
            rw [step, if_neg (not_not.mpr (hkept hdir hmake)), if_neg hc, if_neg hup]
          split at h
          · next hn =>
            exact hwalk h (hplain (by rw [get?_put, if_neg (by simp), hcur]) h)
          · exact hwalk h (hplain hcur h)
    · cases h

/-! ### Files -/

/-- The text of what is at a path, when that is a file. -/
def text? (t : FileTree) (p : Path) : Option String :=
  match t.nodes.get? p with
  | some (.file text) => some text
  | _ => none

theorem text?_eq_some {t : FileTree} {p : Path} {text : String} :
    t.text? p = some text ↔ t.nodes.get? p = some (.file text) := by
  unfold text?
  split
  · next h =>
    rw [h]
    simp
  · next h => exact ⟨nofun, fun hp => absurd hp (h text)⟩

theorem text?_congr {t t' : FileTree} {p : Path} (h : t'.nodes.get? p = t.nodes.get? p) : t'.text? p = t.text? p := by
  rw [text?, text?, h]

/-- Making directories makes no file and takes none away. -/
theorem text?_makeDirs (t : FileTree) (cur : Path) (comps : List String) (p : Path) :
    (t.makeDirs cur comps).1.text? p = t.text? p := by
  refine Option.ext fun text => ?_
  rw [text?_eq_some, text?_eq_some]
  exact ⟨makeDirs_files, makeDirs_keeps comps⟩

/-- What is written atomically to a path of plain names is there, or nothing is,
and no other file is touched. -/
theorem text?_atomicWrite {t : FileTree} {dir : Path} {name : String} (text : String)
    (hplain : ∀ c ∈ dir ++ [name], PlainName c) :
    ((t.atomicWrite (dir ++ [name]) text).2 = true →
      (t.atomicWrite (dir ++ [name]) text).1.text? (dir ++ [name]) = some text) ∧
    ∀ p, p ≠ dir ++ [name] ∨ (t.atomicWrite (dir ++ [name]) text).2 = false →
      (t.atomicWrite (dir ++ [name]) text).1.text? p = t.text? p := by
  have hmade := text?_makeDirs t [] dir
  unfold atomicWrite
  simp only [List.getLast?_append, List.getLast?_singleton, Option.some_or, List.dropLast_concat]
  rcases hmake : t.makeDirs [] dir with ⟨t₁, _ | d⟩
  · rw [hmake] at hmade
    exact ⟨fun h => absurd h Bool.false_ne_true, fun p _ => hmade p⟩
  · rw [hmake] at hmade
    obtain ⟨-, hloc⟩ := makeDirs_locate dir hmake
    have hd : d = dir := by
      simpa using locate_plain_eq (fun c hc => hplain c (List.mem_append_left _ hc)) hloc
    subst hd
    dsimp only
    split
    · next hput =>
      constructor
      · exact fun _ => text?_eq_some.mpr (by rw [get?_put, if_pos rfl])
      · intro p hp
        have hne : p ≠ d ++ [name] := hp.resolve_right fun h => absurd h.symm Bool.false_ne_true
        rw [← hmade p]
        exact text?_congr (by rw [get?_put, if_neg hne])
    · exact ⟨fun h => absurd h Bool.false_ne_true, fun p _ => hmade p⟩

/-- A file has nothing below it. -/
theorem children_of_file {t : FileTree} {p : Path} {text : String} (h : t.nodes.get? p = some (.file text)) :
    t.children p = [] := by
  rw [List.eq_nil_iff_forall_not_mem]
  rintro ⟨name, n⟩ hmem
  have hdir := t.parent p name (by rw [mem_children.mp hmem]; exact nofun)
  rw [h] at hdir
  cases hdir

theorem ne_root_of_file {t : FileTree} {p : Path} {text : String} (h : t.nodes.get? p = some (.file text)) : p ≠ [] := by
  rintro rfl
  rw [t.root] at h
  cases h

/-- Remove a file; anything else stays. -/
def removeFile (t : FileTree) (p : Path) : FileTree :=
  match h : t.nodes.get? p with
  | some (.file _) => t.remove p (ne_root_of_file h) (children_of_file h)
  | _ => t

theorem get?_removeFile {t : FileTree} {p : Path} {text : String} (h : t.nodes.get? p = some (.file text)) (q : Path) :
    (t.removeFile p).nodes.get? q = if q = p then none else t.nodes.get? q := by
  unfold removeFile
  split
  · exact FinMap.get?_erase _ _ _
  · next hno => exact absurd h (hno text)

/-- Nothing else is touched, and no directory goes. -/
theorem removeFile_frame (t : FileTree) (p : Path) :
    SameDirs t (t.removeFile p) ∧ ∀ q, q ≠ p → (t.removeFile p).nodes.get? q = t.nodes.get? q := by
  cases htext : t.text? p with
  | some text =>
    have hget := get?_removeFile (text?_eq_some.mp htext)
    refine ⟨fun q => ?_, fun q hq => by rw [hget, if_neg hq]⟩
    rw [hget]
    split
    · next hq =>
      rw [hq, text?_eq_some.mp htext]
      simp
    · exact Iff.rfl
  | none =>
    have hsame : t.removeFile p = t := by
      unfold removeFile
      split
      · next text hfile =>
        rw [text?_eq_some.mpr hfile] at htext
        cases htext
      · rfl
    rw [hsame]
    exact ⟨.rfl, fun _ _ => Eq.refl _⟩

/-- Open for writing: a new file is empty, an old one is as it was. -/
def openFile (t : FileTree) (dir : Path) (name : String) : Option FileTree :=
  if h : t.nodes.get? dir = some .dir ∧ t.nodes.get? (dir ++ [name]) ≠ some .dir ∧ PlainName name then
    some (t.put dir name (.file ((t.text? (dir ++ [name])).getD "")) h.1 h.2.1)
  else none

theorem openFile_eq_some {t t' : FileTree} {dir : Path} {name : String} (h : t.openFile dir name = some t') :
    t.nodes.get? dir = some .dir ∧ SameDirs t t' ∧ ∀ q, t'.nodes.get? q =
      if q = dir ++ [name] then some (.file ((t.text? (dir ++ [name])).getD "")) else t.nodes.get? q := by
  unfold openFile at h
  split at h
  · next hopen =>
    cases h
    exact ⟨hopen.1, put_file_sameDirs _ _ _ _ _ _, get?_put _ _ _ _ _ _⟩
  · cases h

/-- Write into an open file, from `off` on. -/
def writeFile (t : FileTree) (dir : Path) (name : String) (data : List Char) (off : Nat) : FileTree :=
  if h : t.nodes.get? dir = some .dir ∧ t.nodes.get? (dir ++ [name]) ≠ some .dir then
    match t.text? (dir ++ [name]) with
    | some text => t.put dir name (.file (String.ofList (pwriteAll '\x00' text.toList data off))) h.1 h.2
    | none => t
  else t

theorem writeFile_spec {t : FileTree} {dir : Path} {name text : String} (hd : t.nodes.get? dir = some .dir)
    (hf : t.nodes.get? (dir ++ [name]) = some (.file text)) (data : List Char) (off : Nat) :
    SameDirs t (t.writeFile dir name data off) ∧ ∀ q, (t.writeFile dir name data off).nodes.get? q =
      if q = dir ++ [name] then some (.file (String.ofList (pwriteAll '\x00' text.toList data off)))
      else t.nodes.get? q := by
  have hn : t.nodes.get? (dir ++ [name]) ≠ some .dir := by rw [hf]; exact nofun
  unfold writeFile
  rw [dif_pos ⟨hd, hn⟩, text?_eq_some.mpr hf]
  exact ⟨put_file_sameDirs _ _ _ _ _ _, get?_put _ _ _ _ _ _⟩

/-- Give the file `src` the name `dst`, in the same directory. -/
def rename (t : FileTree) (dir : Path) (src dst : String) : FileTree × Bool :=
  match t.text? (dir ++ [src]) with
  | some text =>
    if src = dst then (t, true)
    else if h : t.nodes.get? dir = some .dir ∧ t.nodes.get? (dir ++ [dst]) ≠ some .dir ∧ PlainName dst then
      ((t.put dir dst (.file text) h.1 h.2.1).removeFile (dir ++ [src]), true)
    else (t, false)
  | none => (t, false)

/-- A rename that can be done. -/
theorem rename_spec {t : FileTree} {dir : Path} {src dst text : String} (hne : src ≠ dst)
    (hd : t.nodes.get? dir = some .dir) (hf : t.nodes.get? (dir ++ [src]) = some (.file text)) (hp : PlainName dst)
    (hn : t.nodes.get? (dir ++ [dst]) ≠ some .dir) :
    (t.rename dir src dst).2 = true ∧ SameDirs t (t.rename dir src dst).1 ∧
      ∀ q, (t.rename dir src dst).1.nodes.get? q =
        if q = dir ++ [src] then none else if q = dir ++ [dst] then some (.file text) else t.nodes.get? q := by
  have hpath : dir ++ [src] ≠ dir ++ [dst] := fun h => hne (List.singleton_inj.mp (List.append_cancel_left h))
  have hsrc : (t.put dir dst (.file text) hd hn).nodes.get? (dir ++ [src]) = some (.file text) := by
    rw [get?_put, if_neg hpath, hf]
  have hget : ∀ q, ((t.put dir dst (.file text) hd hn).removeFile (dir ++ [src])).nodes.get? q =
      if q = dir ++ [src] then none else if q = dir ++ [dst] then some (.file text) else t.nodes.get? q := by
    intro q
    rw [get?_removeFile hsrc, get?_put]
  unfold rename
  rw [text?_eq_some.mpr hf]
  dsimp only
  rw [if_neg hne, dif_pos ⟨hd, hn, hp⟩]
  refine ⟨Eq.refl true, fun q => ?_, hget⟩
  rw [hget]
  split
  · next hq =>
    rw [hq, hf]
    simp
  · split
    · next hq =>
      rw [hq]
      exact ⟨by simp, fun h => absurd h hn⟩
    · exact Iff.rfl

/-- One that cannot changes nothing. -/
theorem rename_fails {t : FileTree} {dir : Path} {src dst : String} (hne : src ≠ dst)
    (h : ¬ (PlainName dst ∧ t.nodes.get? (dir ++ [dst]) ≠ some .dir)) : t.rename dir src dst = (t, false) := by
  unfold rename
  split
  · rw [if_neg hne, dif_neg fun hall => h ⟨hall.2.2, hall.2.1⟩]
  · rfl

end SynapseFs.Lib.FileTree
