import Mathlib.Data.List.Dedup
import Mathlib.Data.List.Induction
import Mathlib.Data.List.Infix
import SynapseFs.Lib.FinMap

/-! A tree of directories and text files, without links.

A name in a program is a string; the system walks it component by component, so
`..`, `.` and empty components mean what they mean to the system and a file in
the middle of a name ends the walk. Every tree has its root, and every node has
its parent directory: both are fields, so no operation can break them. -/
namespace SynapseFs.Lib

/-- The components from the root. -/
abbrev Path := List String

inductive Node where
  | dir
  | file (text : String)
  deriving DecidableEq, Repr

structure FileTree where
  nodes : FinMap Path Node
  root : nodes.get? [] = some .dir
  parent : ∀ p c, nodes.get? (p ++ [c]) ≠ none → nodes.get? p = some .dir

/-! ### Names -/

/-- The text between slashes; there is always one more of them than slashes. -/
def splitSlash : List Char → List (List Char)
  | [] => [[]]
  | c :: rest =>
    if c = '/' then [] :: splitSlash rest
    else
      match splitSlash rest with
      | [] => [[c]]
      | first :: others => (c :: first) :: others

/-- The components a name appends to the directory `dir`: an absolute name
replaces it. -/
def resolveName (dir : Path) (name : String) : List String :=
  let comps := (splitSlash name.toList).map String.ofList
  if name.toList.head? = some '/' then comps else dir ++ comps

/-- A component that names an entry of its directory. -/
def PlainName (c : String) : Prop := c ≠ "" ∧ c ≠ "." ∧ c ≠ ".." ∧ '/' ∉ c.toList

instance (c : String) : Decidable (PlainName c) := inferInstanceAs (Decidable (_ ∧ _ ∧ _ ∧ _))

theorem splitSlash_append (a : List Char) (ha : '/' ∉ a) (rest : List Char) :
    splitSlash (a ++ '/' :: rest) = a :: splitSlash rest := by
  induction a with
  | nil => simp [splitSlash]
  | cons c cs ih =>
    have hc : c ≠ '/' := fun h => ha (h ▸ List.mem_cons_self)
    have hcs : '/' ∉ cs := fun h => ha (List.mem_cons_of_mem _ h)
    rw [List.cons_append, splitSlash, if_neg hc, ih hcs]

theorem splitSlash_plain (a : List Char) (ha : '/' ∉ a) : splitSlash a = [a] := by
  induction a with
  | nil => rfl
  | cons c cs ih =>
    have hc : c ≠ '/' := fun h => ha (h ▸ List.mem_cons_self)
    have hcs : '/' ∉ cs := fun h => ha (List.mem_cons_of_mem _ h)
    rw [splitSlash, if_neg hc, ih hcs]

/-- The absolute name of a path. -/
def absoluteName (p : Path) : String := String.ofList (p.flatMap fun c => '/' :: c.toList)

theorem splitSlash_absolute (p : Path) (hp : ∀ c ∈ p, PlainName c) :
    splitSlash (p.flatMap fun c => '/' :: c.toList) = [] :: p.map String.toList := by
  induction p with
  | nil => rfl
  | cons c rest ih =>
    have hc := (hp c (by simp)).2.2.2
    have hrest := ih fun x hx => hp x (by simp [hx])
    rw [List.flatMap_cons, List.cons_append, splitSlash, if_pos rfl]
    congr 1
    cases rest with
    | nil => simpa using splitSlash_plain _ hc
    | cons d ds =>
      rw [List.flatMap_cons, List.cons_append, splitSlash, if_pos rfl] at hrest
      rw [List.flatMap_cons, List.cons_append, splitSlash_append _ hc, (List.cons.inj hrest).2]
      rfl

theorem resolveName_absolute (dir : Path) {p : Path} (hne : p ≠ []) (hp : ∀ c ∈ p, PlainName c) :
    resolveName dir (absoluteName p) = "" :: p := by
  have hhead : (absoluteName p).toList.head? = some '/' := by
    cases p with
    | nil => exact absurd rfl hne
    | cons c rest => simp [absoluteName]
  rw [resolveName, if_pos hhead, absoluteName, String.toList_ofList, splitSlash_absolute p hp]
  simp

/-- A plain name is one entry of the directory. -/
theorem resolveName_plain (dir : Path) {name : String} (h : PlainName name) : resolveName dir name = dir ++ [name] := by
  obtain ⟨hne, -, -, hs⟩ := h
  have hhead : name.toList.head? ≠ some '/' := by
    cases hl : name.toList with
    | nil => simp
    | cons c cs =>
      rw [List.head?_cons]
      intro he
      cases he
      exact hs (hl ▸ List.mem_cons_self)
  rw [resolveName, if_neg hhead, splitSlash_plain _ hs]
  simp

/-- No component of a name has a slash. -/
theorem splitSlash_noslash (l : List Char) : ∀ c ∈ splitSlash l, '/' ∉ c := by
  induction l with
  | nil => simp [splitSlash]
  | cons x rest ih =>
    unfold splitSlash
    split
    · exact List.forall_mem_cons.mpr ⟨List.not_mem_nil, ih⟩
    · next hx =>
      split
      · next he => exact List.forall_mem_singleton.mpr fun h => hx (List.mem_singleton.mp h).symm
      · next first others he =>
        rw [he] at ih
        obtain ⟨hfirst, hothers⟩ := List.forall_mem_cons.mp ih
        refine List.forall_mem_cons.mpr ⟨fun h => ?_, hothers⟩
        rcases List.mem_cons.mp h with h | h
        · exact hx h.symm
        · exact hfirst h

theorem resolveName_noslash {dir : Path} (hdir : ∀ c ∈ dir, '/' ∉ c.toList) (name : String) :
    ∀ c ∈ resolveName dir name, '/' ∉ c.toList := by
  have hcomps : ∀ c ∈ (splitSlash name.toList).map String.ofList, '/' ∉ c.toList := by
    intro c hc
    obtain ⟨l, hl, rfl⟩ := List.mem_map.mp hc
    rw [String.toList_ofList]
    exact splitSlash_noslash _ l hl
  unfold resolveName
  dsimp only
  split
  · exact hcomps
  · intro c hc
    rcases List.mem_append.mp hc with hc | hc
    · exact hdir c hc
    · exact hcomps c hc

namespace FileTree

/-! ### Walking -/

/-- One component from the directory `cur`. -/
def step (t : FileTree) (cur : Path) (c : String) : Option Path :=
  if t.nodes.get? cur ≠ some .dir then none
  else if c = "" ∨ c = "." then some cur
  else if c = ".." then some cur.dropLast
  else some (cur ++ [c])

def locate (t : FileTree) : Path → List String → Option Path
  | cur, [] => some cur
  | cur, c :: rest =>
    match t.step cur c with
    | some next => t.locate next rest
    | none => none

/-- `fs::exists` with what is there. -/
def find (t : FileTree) (comps : List String) : Option (Path × Node) :=
  match t.locate [] comps with
  | some p => (t.nodes.get? p).map fun n => (p, n)
  | none => none

/-- The entries of a directory. -/
def children (t : FileTree) (dir : Path) : List (String × Node) :=
  t.nodes.entries.filterMap fun (p, n) =>
    match p.getLast? with
    | some name => if p.dropLast = dir then some (name, n) else none
    | none => none

/-- An entry is a child of the path before its last component, under that component. -/
theorem child_eq {dir p : Path} {n m : Node} {name : String} (h : (match p.getLast? with
    | some last => if p.dropLast = dir then some (last, n) else none
    | none => none) = some (name, m)) : p = dir ++ [name] ∧ n = m := by
  split at h
  · next last hlast =>
    split at h
    · next hdir =>
      cases h
      rw [← hdir, List.dropLast_append_getLast? _ hlast]
      exact ⟨rfl, rfl⟩
    · cases h
  · cases h

theorem mem_children {t : FileTree} {dir : Path} {name : String} {n : Node} :
    (name, n) ∈ t.children dir ↔ t.nodes.get? (dir ++ [name]) = some n := by
  rw [FinMap.get?_eq_some, children, List.mem_filterMap]
  constructor
  · rintro ⟨⟨p, n'⟩, hmem, h⟩
    obtain ⟨rfl, rfl⟩ := child_eq h
    exact hmem
  · intro h
    exact ⟨_, h, by simp⟩

theorem children_nodup (t : FileTree) (dir : Path) : ((t.children dir).map Prod.fst).Nodup := by
  have hpairs : (t.children dir).Nodup := by
    refine (t.nodes.nodup.of_map _).filterMap ?_
    rintro ⟨p, n⟩ ⟨p', n'⟩ ⟨name, m⟩ h h'
    obtain ⟨rfl, rfl⟩ := child_eq h
    obtain ⟨rfl, rfl⟩ := child_eq h'
    rfl
  refine List.Nodup.map_on ?_ hpairs
  rintro ⟨a, n⟩ ha ⟨b, m⟩ hb hab
  cases hab
  rw [mem_children] at ha hb
  cases ha.symm.trans hb
  rfl

/-- Every proper prefix of a node's path is a directory. -/
theorem dir_of_prefix (t : FileTree) (p q : Path) (hq : q ≠ []) (h : t.nodes.get? (p ++ q) ≠ none) :
    t.nodes.get? p = some .dir := by
  induction q using List.reverseRecOn with
  | nil => exact absurd rfl hq
  | append_singleton q c ih =>
    rw [← List.append_assoc] at h
    have hdir := t.parent (p ++ q) c h
    by_cases hq' : q = []
    · subst hq'
      simpa using hdir
    · exact ih hq' (by rw [hdir]; exact Option.some_ne_none _)

theorem step_plain {t : FileTree} {cur : Path} {c : String} (hd : t.nodes.get? cur = some .dir) (hc : PlainName c) :
    t.step cur c = some (cur ++ [c]) := by
  obtain ⟨h1, h2, h3, -⟩ := hc
  simp [step, hd, h1, h2, h3]

theorem step_empty {t : FileTree} {cur : Path} (hd : t.nodes.get? cur = some .dir) : t.step cur "" = some cur := by
  simp [step, hd]

/-- Plain components walk down the tree as long as the directories are there. -/
theorem locate_plain (t : FileTree) (cur : Path) (comps : List String) (hplain : ∀ c ∈ comps, PlainName c) :
    t.nodes.get? (cur ++ comps) ≠ none → t.locate cur comps = some (cur ++ comps) := by
  induction comps generalizing cur with
  | nil =>
    intro _
    simp [locate]
  | cons c rest ih =>
    intro hnode
    have hassoc : cur ++ c :: rest = cur ++ [c] ++ rest := by simp
    have hdir : t.nodes.get? cur = some .dir := t.dir_of_prefix cur (c :: rest) nofun hnode
    rw [locate, step_plain hdir (hplain c (by simp))]
    rw [hassoc] at hnode ⊢
    exact ih (cur ++ [c]) (fun x hx => hplain x (by simp [hx])) hnode

/-- Plain components lead nowhere else. -/
theorem locate_plain_eq {t : FileTree} {p : Path} : ∀ {cur : Path} {comps : List String}, (∀ c ∈ comps, PlainName c) →
    t.locate cur comps = some p → p = cur ++ comps := by
  intro cur comps
  induction comps generalizing cur with
  | nil =>
    intro _ h
    cases h
    exact (List.append_nil _).symm
  | cons c rest ih =>
    intro hplain h
    have hdir : t.nodes.get? cur = some .dir := by
      by_contra hd
      rw [locate, step, if_pos hd] at h
      cases h
    rw [locate, step_plain hdir (hplain c (by simp))] at h
    rw [ih (fun x hx => hplain x (by simp [hx])) h, List.append_assoc, List.singleton_append]

theorem locate_append (t : FileTree) (a b : List String) (cur : Path) :
    t.locate cur (a ++ b) = (t.locate cur a).bind fun p => t.locate p b := by
  induction a generalizing cur with
  | nil => rfl
  | cons c rest ih =>
    rw [List.cons_append, locate, locate]
    split
    · exact ih _
    · rfl

/-- A walk looks at directories only. -/
theorem locate_congr {t t' : FileTree} (h : ∀ q, t'.nodes.get? q = some .dir ↔ t.nodes.get? q = some .dir)
    (comps : List String) : ∀ cur, t'.locate cur comps = t.locate cur comps := by
  induction comps with
  | nil => exact fun _ => rfl
  | cons c rest ih =>
    intro cur
    have hstep : t'.step cur c = t.step cur c := by
      unfold step
      simp only [ne_eq, h cur]
    rw [locate, locate, hstep]
    split
    · exact ih _
    · rfl

theorem step_from_dir {t : FileTree} {cur next : Path} {c : String} (h : t.step cur c = some next) :
    t.nodes.get? cur = some .dir := by
  by_contra hd
  rw [step, if_pos hd] at h
  cases h

/-- A walk that ends at a directory goes through directories. -/
theorem locate_from_dir {t : FileTree} {cur d : Path} {comps : List String} (h : t.locate cur comps = some d)
    (hd : t.nodes.get? d = some .dir) : t.nodes.get? cur = some .dir := by
  cases comps with
  | nil =>
    cases h
    exact hd
  | cons c rest =>
    rw [locate] at h
    split at h
    · next hstep => exact step_from_dir hstep
    · cases h

/-! ### Writing -/

/-- Put a node into an existing directory, over anything but a directory. -/
def put (t : FileTree) (dir : Path) (name : String) (n : Node) (hd : t.nodes.get? dir = some .dir)
    (hn : t.nodes.get? (dir ++ [name]) ≠ some .dir) : FileTree where
  nodes := t.nodes.insert (dir ++ [name]) n
  root := by rw [FinMap.get?_insert_ne _ _ (by simp), t.root]
  parent := by
    intro p c h
    rw [FinMap.get?_insert] at h
    have hold : t.nodes.get? p = some .dir := by
      split at h
      · next he =>
        obtain ⟨rfl, -⟩ := List.append_inj' he rfl
        exact hd
      · exact t.parent p c h
    have hne : p ≠ dir ++ [name] := by
      rintro rfl
      exact hn hold
    rw [FinMap.get?_insert_ne _ _ hne, hold]

/-- `create_directories`, then the directory reached. It stops at a file. -/
def makeDirs (t : FileTree) : Path → List String → FileTree × Option Path
  | cur, [] => (t, if t.nodes.get? cur = some .dir then some cur else none)
  | cur, c :: rest =>
    if hd : t.nodes.get? cur = some .dir then
      if c = "" ∨ c = "." then t.makeDirs cur rest
      else if c = ".." then t.makeDirs cur.dropLast rest
      else if hn : t.nodes.get? (cur ++ [c]) = none then
        (t.put cur c .dir hd (by rw [hn]; exact nofun)).makeDirs (cur ++ [c]) rest
      else t.makeDirs (cur ++ [c]) rest
    else (t, none)

/-- Write to a temporary file and rename it to the last component, making the
directories on the way; false when the rename cannot be done. -/
def atomicWrite (t : FileTree) (comps : List String) (text : String) : FileTree × Bool :=
  match comps.getLast? with
  | none => (t, false)
  | some name =>
    match t.makeDirs [] comps.dropLast with
    | (t, none) => (t, false)
    | (t, some dir) =>
      if hd : t.nodes.get? dir = some .dir ∧ t.nodes.get? (dir ++ [name]) ≠ some .dir ∧ PlainName name then
        (t.put dir name (.file text) hd.1 hd.2.1, true)
      else (t, false)

theorem get?_put (t : FileTree) (dir : Path) (name : String) (n : Node) (hd : t.nodes.get? dir = some .dir)
    (hn : t.nodes.get? (dir ++ [name]) ≠ some .dir) (p : Path) :
    (t.put dir name n hd hn).nodes.get? p = if p = dir ++ [name] then some n else t.nodes.get? p :=
  FinMap.get?_insert _ _ _ _

/-- Nothing is made on the way to a directory that is there. -/
theorem makeDirs_of_dir (t : FileTree) (cur : Path) (comps : List String) (hplain : ∀ c ∈ comps, PlainName c) :
    t.nodes.get? (cur ++ comps) = some .dir → t.makeDirs cur comps = (t, some (cur ++ comps)) := by
  induction comps generalizing cur with
  | nil =>
    intro hdir
    rw [List.append_nil] at hdir ⊢
    rw [makeDirs, if_pos hdir]
  | cons c rest ih =>
    intro hdir
    obtain ⟨h1, h2, h3, -⟩ := hplain c (by simp)
    have hassoc : cur ++ c :: rest = cur ++ [c] ++ rest := by simp
    have hcur : t.nodes.get? cur = some .dir := t.dir_of_prefix cur (c :: rest) nofun (by rw [hdir]; exact nofun)
    have hnext : t.nodes.get? (cur ++ [c]) ≠ none := by
      by_cases hr : rest = []
      · subst hr
        rw [hdir]
        exact nofun
      · rw [t.dir_of_prefix (cur ++ [c]) rest hr (by rw [← hassoc, hdir]; exact nofun)]
        exact nofun
    rw [makeDirs, dif_pos hcur, if_neg (by simp [h1, h2]), if_neg h3, dif_neg hnext]
    rw [hassoc] at hdir ⊢
    exact ih (cur ++ [c]) (fun x hx => hplain x (by simp [hx])) hdir

/-- Writing a file into a directory that is there. -/
theorem atomicWrite_in_dir {t : FileTree} {dir : Path} {name : String} (text : String)
    (hplain : ∀ c ∈ dir, PlainName c) (hname : PlainName name) (hd : t.nodes.get? dir = some .dir)
    (hn : t.nodes.get? (dir ++ [name]) ≠ some .dir) :
    t.atomicWrite (dir ++ [name]) text = (t.put dir name (.file text) hd hn, true) := by
  have hmake := makeDirs_of_dir t [] dir hplain (by simpa using hd)
  rw [List.nil_append] at hmake
  simp only [atomicWrite, List.getLast?_append, List.getLast?_singleton, Option.some_or, List.dropLast_concat]
  rw [hmake]
  simp only [hd, ne_eq, hn, not_false_eq_true, hname, and_self, dite_true]

/-- Over a directory nothing is written. -/
theorem atomicWrite_over_dir {t : FileTree} {dir : Path} {name : String} (text : String)
    (hplain : ∀ c ∈ dir, PlainName c) (hd : t.nodes.get? dir = some .dir)
    (hn : t.nodes.get? (dir ++ [name]) = some .dir) : t.atomicWrite (dir ++ [name]) text = (t, false) := by
  have hmake := makeDirs_of_dir t [] dir hplain (by simpa using hd)
  rw [List.nil_append] at hmake
  simp only [atomicWrite, List.getLast?_append, List.getLast?_singleton, Option.some_or, List.dropLast_concat]
  rw [hmake]
  simp only [hn, ne_eq, not_true_eq_false, false_and, and_false, dite_false]

/-- A write into a directory that is there touches the file it names, if anything. -/
theorem atomicWrite_get? {t : FileTree} {dir : Path} {name : String} (text : String)
    (hplain : ∀ c ∈ dir, PlainName c) (hname : PlainName name) (hd : t.nodes.get? dir = some .dir) :
    (t.atomicWrite (dir ++ [name]) text).1 = t ∨ ∀ p, (t.atomicWrite (dir ++ [name]) text).1.nodes.get? p =
      if p = dir ++ [name] then some (.file text) else t.nodes.get? p := by
  by_cases hn : t.nodes.get? (dir ++ [name]) = some .dir
  · rw [atomicWrite_over_dir text hplain hd hn]
    exact .inl rfl
  · rw [atomicWrite_in_dir text hplain hname hd hn]
    exact .inr (get?_put t dir name _ hd hn)

/-- What can be walked need not be made. -/
theorem makeDirs_of_locate {t : FileTree} {d : Path} (hd : t.nodes.get? d = some .dir) : ∀ {comps : List String} {cur : Path},
    t.locate cur comps = some d → t.makeDirs cur comps = (t, some d) := by
  intro comps
  induction comps with
  | nil =>
    intro cur h
    cases h
    rw [makeDirs, if_pos hd]
  | cons c rest ih =>
    intro cur h
    rw [locate] at h
    split at h
    · next next hstep =>
      have hcur := step_from_dir hstep
      have hnext := locate_from_dir h hd
      rw [step, if_neg (not_not.mpr hcur)] at hstep
      rw [makeDirs, dif_pos hcur]
      split at hstep
      · next hc =>
        cases hstep
        rw [if_pos hc]
        exact ih h
      · next hc =>
        rw [if_neg hc]
        split at hstep
        · next hc =>
          cases hstep
          rw [if_pos hc]
          exact ih h
        · next hc =>
          cases hstep
          rw [if_neg hc, dif_neg (by rw [hnext]; exact nofun)]
          exact ih h
    · cases h

/-- A file is the last component in its directory. -/
theorem locate_file {t : FileTree} {comps : List String} {p : Path} {text : String} (h : t.locate [] comps = some p)
    (hp : t.nodes.get? p = some (.file text)) (hslash : ∀ c ∈ comps, '/' ∉ c.toList) :
    ∃ front name d, comps = front ++ [name] ∧ p = d ++ [name] ∧ PlainName name ∧ t.nodes.get? d = some .dir ∧
      t.locate [] front = some d := by
  rcases List.eq_nil_or_concat comps with rfl | ⟨front, name, rfl⟩
  · cases h
    rw [t.root] at hp
    cases hp
  · rw [List.concat_eq_append] at *
    rw [locate_append] at h
    obtain ⟨d, hfront, hlast⟩ := Option.bind_eq_some_iff.mp h
    rw [locate] at hlast
    split at hlast
    · next next hstep =>
      cases hlast
      have hd := step_from_dir hstep
      have hnotdir : t.nodes.get? p ≠ some .dir := by rw [hp]; exact nofun
      rw [step, if_neg (not_not.mpr hd)] at hstep
      split at hstep
      · cases hstep
        exact absurd hd hnotdir
      · next hempty =>
        split at hstep
        · cases hstep
          -- above a directory is a directory
          have hup : t.nodes.get? d.dropLast = some .dir := by
            rcases List.eq_nil_or_concat d with rfl | ⟨e, c, rfl⟩
            · exact hd
            · rw [List.concat_eq_append] at *
              rw [List.dropLast_concat]
              exact t.parent e c (by rw [hd]; exact nofun)
          exact absurd hup hnotdir
        · next hup =>
          cases hstep
          have hplain : PlainName name := ⟨fun he => hempty (.inl he), fun he => hempty (.inr he), hup,
            hslash name (List.mem_append_right _ (List.mem_singleton_self _))⟩
          exact ⟨front, name, d, rfl, rfl, hplain, hd, hfront⟩
    · cases hlast

/-- A file that a name leads to can be written over, and nothing else changes. -/
theorem atomicWrite_over_file {t : FileTree} {comps : List String} {p : Path} {old : String} (text : String)
    (h : t.find comps = some (p, .file old)) (hslash : ∀ c ∈ comps, '/' ∉ c.toList) :
    (t.atomicWrite comps text).2 = true ∧ ∀ q, (t.atomicWrite comps text).1.nodes.get? q =
      if q = p then some (.file text) else t.nodes.get? q := by
  unfold find at h
  split at h
  · next p' hloc =>
    obtain ⟨n, hnode, he⟩ := Option.map_eq_some_iff.mp h
    cases he
    obtain ⟨front, name, d, rfl, rfl, hname, hd, hfront⟩ := locate_file hloc hnode hslash
    have hmake := makeDirs_of_locate hd hfront
    have hn : t.nodes.get? (d ++ [name]) ≠ some .dir := by rw [hnode]; exact nofun
    have hwrite : t.atomicWrite (front ++ [name]) text = (t.put d name (.file text) hd hn, true) := by
      simp only [atomicWrite, List.getLast?_append, List.getLast?_singleton, Option.some_or, List.dropLast_concat]
      rw [hmake]
      simp only [hd, ne_eq, hn, not_false_eq_true, hname, and_self, dite_true]
    rw [hwrite]
    exact ⟨rfl, get?_put t d name _ hd hn⟩
  · cases h

theorem makeDirs_files {s : String} {p : Path} : ∀ {comps : List String} {t : FileTree} {cur : Path},
    (t.makeDirs cur comps).1.nodes.get? p = some (.file s) → t.nodes.get? p = some (.file s) := by
  intro comps
  induction comps with
  | nil =>
    intro t cur h
    exact h
  | cons c rest ih =>
    intro t cur h
    rw [makeDirs] at h
    split at h
    · split at h
      · exact ih h
      · split at h
        · exact ih h
        · split at h
          · have hput := ih h
            rw [get?_put] at hput
            split at hput
            · cases hput
            · exact hput
          · exact ih h
    · exact h

/-- Every file after a write is the one written or was there before. -/
theorem atomicWrite_files {t : FileTree} {comps : List String} {text s : String} {p : Path}
    (h : (t.atomicWrite comps text).1.nodes.get? p = some (.file s)) : s = text ∨ t.nodes.get? p = some (.file s) := by
  unfold atomicWrite at h
  split at h
  · exact .inr h
  · split at h
    · next hmake =>
      have := @makeDirs_files s p comps.dropLast t []
      rw [hmake] at this
      exact .inr (this h)
    · next hmake =>
      have hfiles := @makeDirs_files s p comps.dropLast t []
      rw [hmake] at hfiles
      split at h
      · rw [get?_put] at h
        split at h
        · cases h
          exact .inl rfl
        · exact .inr (hfiles h)
      · exact .inr (hfiles h)

/-! ### One file written -/

/-- `t'` is `t` with the text at `p`, which was no directory. -/
structure Written (t t' : FileTree) (p : Path) (text : String) : Prop where
  notDir : t.nodes.get? p ≠ some .dir
  get : ∀ q, t'.nodes.get? q = if q = p then some (.file text) else t.nodes.get? q

section
variable {t t' : FileTree} {p : Path} {text : String}

theorem Written.dir_iff (h : Written t t' p text) (q : Path) :
    t'.nodes.get? q = some .dir ↔ t.nodes.get? q = some .dir := by
  rw [h.get q]
  split
  · next he =>
    rw [he]
    exact ⟨(fun hd => by cases hd), fun hd => absurd hd h.notDir⟩
  · exact Iff.rfl

theorem Written.locate (h : Written t t' p text) (cur : Path) (comps : List String) :
    t'.locate cur comps = t.locate cur comps :=
  locate_congr h.dir_iff comps cur

theorem Written.find_ne (h : Written t t' p text) {comps : List String} (hne : t.locate [] comps ≠ some p) :
    t'.find comps = t.find comps := by
  unfold find
  rw [h.locate]
  cases hl : t.locate [] comps with
  | none => rfl
  | some q =>
    have hq : q ≠ p := fun he => hne (by rw [hl, he])
    show (t'.nodes.get? q).map _ = _
    rw [h.get q, if_neg hq]

theorem Written.find_eq (h : Written t t' p text) {comps : List String} (he : t.locate [] comps = some p) :
    t'.find comps = some (p, .file text) := by
  unfold find
  rw [h.locate, he]
  show (t'.nodes.get? p).map _ = _
  rw [h.get p, if_pos rfl]
  rfl

end

/-- What a walk appends is plain. -/
theorem step_plain_of {t : FileTree} {cur next : Path} {c : String} (hcur : ∀ x ∈ cur, PlainName x)
    (hc : '/' ∉ c.toList) (h : t.step cur c = some next) : ∀ x ∈ next, PlainName x := by
  unfold step at h
  split at h
  · cases h
  · split at h
    · cases h
      exact hcur
    · next hempty =>
      split at h
      · cases h
        exact fun x hx => hcur x (List.dropLast_subset _ hx)
      · next hup =>
        cases h
        intro x hx
        rcases List.mem_append.mp hx with hx | hx
        · exact hcur x hx
        · cases List.mem_singleton.mp hx
          exact ⟨fun he => hempty (.inl he), fun he => hempty (.inr he), hup, hc⟩

/-- Making directories either follows the walk or makes one that was not there.
The walk leads there in the end. -/
theorem makeDirs_some {dir : Path} : ∀ {comps : List String} {t t' : FileTree} {cur : Path}, (∀ x ∈ cur, PlainName x) →
    (∀ c ∈ comps, '/' ∉ c.toList) → t.makeDirs cur comps = (t', some dir) →
    t'.nodes.get? dir = some .dir ∧ t'.locate cur comps = some dir ∧
      (∀ q, t.nodes.get? q = some .dir → t'.nodes.get? q = some .dir) ∧
      (t' = t ∨ ∃ q, (∀ x ∈ q, PlainName x) ∧ t.nodes.get? q = none ∧ t'.nodes.get? q = some .dir) := by
  intro comps
  induction comps with
  | nil =>
    intro t t' cur _ _ h
    rw [makeDirs] at h
    obtain ⟨rfl, hdir⟩ := Prod.mk.inj h
    split at hdir
    · next hcur =>
      cases hdir
      exact ⟨hcur, rfl, fun _ => id, .inl rfl⟩
    · cases hdir
  | cons c rest ih =>
    intro t t' cur hcur hslash h
    have hrest : ∀ x ∈ rest, '/' ∉ x.toList := fun x hx => hslash x (List.mem_cons_of_mem _ hx)
    -- A step of the old tree is one of the new tree, whose directories are more.
    have hwalk : ∀ next, t.step cur c = some next → (∀ q, t.nodes.get? q = some .dir → t'.nodes.get? q = some .dir) →
        t'.locate cur (c :: rest) = t'.locate next rest := by
      intro next hstep hgrow
      have hsame : t'.step cur c = t.step cur c := by
        have hd := step_from_dir hstep
        unfold step
        rw [hd, hgrow cur hd]
      rw [locate, hsame, hstep]
    have hfollow : ∀ next, t.step cur c = some next → t.makeDirs next rest = (t', some dir) →
        t'.nodes.get? dir = some .dir ∧ t'.locate cur (c :: rest) = some dir ∧
          (∀ q, t.nodes.get? q = some .dir → t'.nodes.get? q = some .dir) ∧
          (t' = t ∨ ∃ q, (∀ x ∈ q, PlainName x) ∧ t.nodes.get? q = none ∧ t'.nodes.get? q = some .dir) := by
      intro next hstep hmake
      obtain ⟨hdir, hloc, hgrow, hcase⟩ := ih (step_plain_of hcur (hslash c List.mem_cons_self) hstep) hrest hmake
      exact ⟨hdir, (hwalk next hstep hgrow).trans hloc, hgrow, hcase⟩
    rw [makeDirs] at h
    split at h
    · next hd =>
      split at h
      · next hempty => exact hfollow cur (by rw [step, if_neg (not_not.mpr hd), if_pos hempty]) h
      · next hempty =>
        split at h
        · next hup => exact hfollow cur.dropLast (by rw [step, if_neg (not_not.mpr hd), if_neg hempty, if_pos hup]) h
        · next hup =>
          have hstep : t.step cur c = some (cur ++ [c]) := by
            rw [step, if_neg (not_not.mpr hd), if_neg hempty, if_neg hup]
          split at h
          · next hn =>
            have hplain := step_plain_of hcur (hslash c List.mem_cons_self) hstep
            obtain ⟨hdir, hloc, hgrow, -⟩ := ih hplain hrest h
            have hput := get?_put t cur c .dir hd (by rw [hn]; exact (Option.some_ne_none _).symm)
            have hgrow' : ∀ q, t.nodes.get? q = some .dir → t'.nodes.get? q = some .dir := fun q hq => hgrow q (by
              rw [hput q]
              split
              · rfl
              · exact hq)
            refine ⟨hdir, (hwalk _ hstep hgrow').trans hloc, hgrow', .inr ⟨cur ++ [c], hplain, hn, hgrow _ ?_⟩⟩
            rw [hput, if_pos rfl]
          · exact hfollow _ hstep h
    · cases h

/-- A write that succeeds leaves the file where the name then leads. Either its
directory was there and the file is all that is written, or a directory was made. -/
theorem atomicWrite_some {t t' : FileTree} {comps : List String} {text : String} (hslash : ∀ c ∈ comps, '/' ∉ c.toList)
    (h : t.atomicWrite comps text = (t', true)) :
    ∃ dir name, comps.getLast? = some name ∧ t'.find comps = some (dir ++ [name], .file text) ∧
      (Written t t' (dir ++ [name]) text ∧ t.locate [] comps.dropLast = some dir ∧ t.nodes.get? dir = some .dir ∨
        ∃ q, (∀ x ∈ q, PlainName x) ∧ t.nodes.get? q = none ∧ t'.nodes.get? q = some .dir) := by
  unfold atomicWrite at h
  split at h
  · cases h
  · next name hlast =>
    split at h
    · cases h
    · next t₁ dir hmake =>
      obtain ⟨hdir, hloc, -, hcase⟩ := makeDirs_some (fun x hx => by cases hx)
        (fun c hc => hslash c (List.dropLast_subset _ hc)) hmake
      split at h
      · next hw =>
        obtain ⟨rfl, -⟩ := Prod.mk.inj h
        have hput := get?_put t₁ dir name (.file text) hw.1 hw.2.1
        have hwritten : Written t₁ (t₁.put dir name (.file text) hw.1 hw.2.1) (dir ++ [name]) text := ⟨hw.2.1, hput⟩
        refine ⟨dir, name, hlast, hwritten.find_eq ?_, ?_⟩
        · rw [← List.dropLast_append_getLast? _ hlast, locate_append, hloc, Option.bind_some, locate,
            step_plain hdir hw.2.2]
          rfl
        · rcases hcase with rfl | ⟨q, hplain, hnone, hmade⟩
          · exact .inl ⟨hwritten, hloc, hdir⟩
          · refine .inr ⟨q, hplain, hnone, ?_⟩
            rw [hput q, if_neg, hmade]
            rintro rfl
            exact hw.2.1 hmade
      · cases h

/-- In a directory that is there, the file is all that is written. -/
theorem atomicWrite_written {t t' : FileTree} {comps : List String} {text name : String} {dir : Path}
    (hd : t.nodes.get? dir = some .dir) (hloc : t.locate [] comps.dropLast = some dir) (hlast : comps.getLast? = some name)
    (h : t.atomicWrite comps text = (t', true)) :
    Written t t' (dir ++ [name]) text ∧ t.locate [] comps = some (dir ++ [name]) := by
  unfold atomicWrite at h
  rw [hlast, makeDirs_of_locate hd hloc] at h
  dsimp only at h
  split at h
  · next hw =>
    obtain ⟨rfl, -⟩ := Prod.mk.inj h
    refine ⟨⟨hw.2.1, get?_put t dir name (.file text) hw.1 hw.2.1⟩, ?_⟩
    rw [← List.dropLast_append_getLast? _ hlast, locate_append, hloc, Option.bind_some, locate, step_plain hd hw.2.2]
    rfl
  · cases h

/-! ### Removing -/

/-- Take a node without entries out of its directory. -/
def remove (t : FileTree) (p : Path) (hne : p ≠ []) (hleaf : t.children p = []) : FileTree where
  nodes := t.nodes.erase p
  root := by rw [FinMap.get?_erase, if_neg hne.symm, t.root]
  parent := by
    intro q c h
    rw [FinMap.get?_erase] at h
    have hold : t.nodes.get? (q ++ [c]) ≠ none := by
      split at h
      · exact absurd rfl h
      · exact h
    have hq : q ≠ p := by
      rintro rfl
      obtain ⟨n, hn⟩ := Option.ne_none_iff_exists'.mp hold
      have hmem := mem_children.mpr hn
      rw [hleaf] at hmem
      exact absurd hmem List.not_mem_nil
    rw [FinMap.get?_erase, if_neg hq]
    exact t.parent q c hold

/-! ### Trees from lists -/

/-- The directories down to each of `tops`, and files in them. -/
def ofLists (tops : List Path) (files : List (Path × String)) (hn : (files.map Prod.fst).Nodup)
    (hfresh : ∀ f ∈ files, ∀ t ∈ [] :: tops, ¬ f.1 <+: t)
    (hparent : ∀ f ∈ files, ∃ t ∈ [] :: tops, f.1.dropLast <+: t) : FileTree where
  nodes :=
    { entries := (([] :: tops).flatMap List.inits).dedup.map (fun d => (d, Node.dir)) ++
        files.map (fun f => (f.1, Node.file f.2))
      nodup := by
        simp only [List.map_append, List.map_map, List.nodup_append]
        refine ⟨by simpa [Function.comp_def] using List.nodup_dedup _, by simpa [Function.comp_def] using hn, ?_⟩
        rintro d hd f hf rfl
        obtain ⟨t, ht, hpre⟩ : ∃ t ∈ [] :: tops, d <+: t := by simpa [Function.comp_def] using hd
        obtain ⟨g, hg, rfl⟩ := List.mem_map.mp hf
        exact hfresh g hg t ht hpre }
  root := by
    rw [FinMap.get?_eq_some]
    exact List.mem_append_left _ (List.mem_map.mpr ⟨[], by simp, rfl⟩)
  parent := by
    intro p c h
    obtain ⟨n, hn⟩ := Option.ne_none_iff_exists'.mp h
    rw [FinMap.get?_eq_some] at hn ⊢
    refine List.mem_append_left _ (List.mem_map.mpr ⟨p, ?_, rfl⟩)
    rw [List.mem_dedup, List.mem_flatMap]
    rcases List.mem_append.mp hn with hn | hn
    · obtain ⟨d, hd, he⟩ := List.mem_map.mp hn
      cases he
      rw [List.mem_dedup, List.mem_flatMap] at hd
      obtain ⟨t, ht, hpre⟩ := hd
      exact ⟨t, ht, (List.mem_inits _ _).mpr ((List.prefix_append p [c]).trans ((List.mem_inits _ _).mp hpre))⟩
    · obtain ⟨f, hf, he⟩ := List.mem_map.mp hn
      obtain ⟨q, text⟩ := f
      cases he
      obtain ⟨t, ht, hpre⟩ := hparent _ hf
      replace hpre : (p ++ [c]).dropLast <+: t := hpre
      rw [List.dropLast_concat] at hpre
      exact ⟨t, ht, (List.mem_inits _ _).mpr hpre⟩

/-- The files are those given. -/
theorem ofLists_file (tops : List Path) (files : List (Path × String)) (hn : (files.map Prod.fst).Nodup)
    (hfresh : ∀ f ∈ files, ∀ t ∈ [] :: tops, ¬ f.1 <+: t)
    (hparent : ∀ f ∈ files, ∃ t ∈ [] :: tops, f.1.dropLast <+: t) (p : Path) (text : String) :
    (ofLists tops files hn hfresh hparent).nodes.get? p = some (.file text) ↔ (p, text) ∈ files := by
  rw [FinMap.get?_eq_some]
  constructor
  · intro h
    rcases List.mem_append.mp h with h | h
    · obtain ⟨d, -, he⟩ := List.mem_map.mp h
      cases he
    · obtain ⟨f, hf, he⟩ := List.mem_map.mp h
      cases he
      exact hf
  · exact fun h => List.mem_append_right _ (List.mem_map.mpr ⟨_, h, rfl⟩)

/-- The directories down to each of the tops are there. -/
theorem ofLists_dir (tops : List Path) (files : List (Path × String)) (hn : (files.map Prod.fst).Nodup)
    (hfresh : ∀ f ∈ files, ∀ t ∈ [] :: tops, ¬ f.1 <+: t)
    (hparent : ∀ f ∈ files, ∃ t ∈ [] :: tops, f.1.dropLast <+: t) {p t : Path} (ht : t ∈ [] :: tops) (hp : p <+: t) :
    (ofLists tops files hn hfresh hparent).nodes.get? p = some .dir := by
  rw [FinMap.get?_eq_some]
  refine List.mem_append_left _ (List.mem_map.mpr ⟨p, ?_, rfl⟩)
  exact List.mem_dedup.mpr (List.mem_flatMap.mpr ⟨t, ht, (List.mem_inits _ _).mpr hp⟩)

end FileTree

end SynapseFs.Lib
