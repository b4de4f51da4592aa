import SynapseFs.Store.Refs

/-! What a name resolves to once a ref has been written.

A name goes three ways: `HEAD`, a file below `refs/heads` (or wherever the name
leads), an oid or an abbreviation that the fan-out directories complete. A ref is
written where its name leads, so a write can reach any of the three. `Lands` is
when it reaches one ref file and nothing else; `reads_back_iff` says that a ref
then reads back, every other name resolves as before, and that nothing less will do. -/
namespace SynapseFs.Store
open Lib Core

/-! ### Abbreviations -/

/-- The oid that the scan takes `<top>/<leaf>` for, if the abbreviation fits. -/
def scanned (hexPrefix : List Char) (name : String × String) : Option Oid :=
  if 2 ≤ hexPrefix.length ∧ name.1.toList ≠ hexPrefix.take 2 then none
  else if (name.1 ++ name.2).toList.take hexPrefix.length = hexPrefix then
    match Oid.parse ("b3:" ++ (name.1 ++ name.2)) with
    | .ok o => some o
    | .error _ => none
  else none

def abbreviated (spec : String) : List Oid → Outcome Oid
  | [o] => .ok o
  | [] => sfsErr .refNotFound "no object matches abbreviation" spec
  | _ => sfsErr .malformedObject "ambiguous abbreviation" spec

theorem abbreviated_perm (spec : String) {l l' : List Oid} (h : l.Perm l') : abbreviated spec l = abbreviated spec l' := by
  match l, l', h with
  | [], l', h => rw [h.nil_eq]
  | [o], l', h => rw [h.singleton_eq]
  | a :: b :: rest, l', h =>
    match l', h with
    | [], h => exact absurd h.length_eq (by simp)
    | [o], h => exact absurd h.length_eq (by simp)
    | c :: d :: rest', _ => rfl

/-- One match more: another result, unless the abbreviation was ambiguous. -/
theorem abbreviated_cons (spec : String) (o : Oid) (l : List Oid) :
    abbreviated spec (o :: l) = abbreviated spec l ↔ 2 ≤ l.length := by
  match l with
  | [] => exact ⟨(fun h => by cases h), fun h => absurd h (by decide)⟩
  | [a] => exact ⟨(fun h => by cases h), fun h => absurd h (by rw [List.length_singleton]; decide)⟩
  | a :: b :: rest => exact ⟨fun _ => by simp, fun _ => rfl⟩

namespace RefStore

def objectsDir (r : RefStore) : Path := r.dot ++ ["objects"]

/-- The entries of the directories in `objects`. -/
def fanout (r : RefStore) : List (String × String) :=
  (r.tree.children r.objectsDir).flatMap fun (top, node) =>
    match node with
    | .file _ => []
    | .dir => (r.tree.children (r.objectsDir ++ [top])).map fun leaf => (top, leaf.1)

def matchesOf (r : RefStore) (hexPrefix : List Char) : List Oid := r.fanout.filterMap (scanned hexPrefix)

/-- `parseOidSpec` on the objects that the tree holds. -/
def parseOidScan (r : RefStore) (spec : String) : Outcome Oid :=
  if spec.toList.take 3 = "b3:".toList then
    if spec.toList.length = 3 + kOidHexChars then Oid.parse spec
    else abbreviated spec (r.matchesOf (spec.toList.drop 3))
  else sfsErr .refNotFound "cannot resolve ref, branch, or oid" spec

def parseNameScan (r : RefStore) (spec : String) : Outcome Oid :=
  match r.tree.find (r.branchRefPath spec) with
  | some _ => do
    let content ← r.readTrimmed (r.branchRefPath spec)
    Oid.parse content
  | none => r.parseOidScan spec

/-- `rev_parse`, and so `resolve`. -/
def revParseScan (r : RefStore) (spec : String) : Outcome Oid :=
  if spec = "HEAD" then do
    match ← r.readHead with
    | .detached oid => return oid
    | .symbolic name =>
      if name = "HEAD" then .error (.undefined "unbounded recursion") else r.parseNameScan name
  else r.parseNameScan spec

/-- Where the objects given are those that the scan finds, it is the same function. -/
theorem revParse_eq_scan {r : RefStore} {objects : List Oid}
    (h : ∀ hexPrefix : List Char, (objects.filter fun o => (hexEncode o.bytes).take hexPrefix.length = hexPrefix).Perm
      (r.matchesOf hexPrefix)) (spec : String) : r.revParse objects spec = r.revParseScan spec := by
  have hspec : ∀ s, parseOidSpec objects s = r.parseOidScan s := by
    intro s
    unfold parseOidSpec parseOidScan
    dsimp only
    rw [← abbreviated_perm s (h (s.toList.drop 3))]
    generalize objects.filter _ = found
    rcases found with _ | ⟨a, _ | ⟨b, rest⟩⟩ <;> rfl
  have hname : ∀ s, r.parseName objects s = r.parseNameScan s := by
    intro s
    unfold parseName parseNameScan
    cases r.tree.find (r.branchRefPath s) with
    | none => exact hspec s
    | some _ => rfl
  unfold revParse revParseScan
  by_cases hspecial : spec = "HEAD"
  · rw [if_pos hspecial, if_pos hspecial]
    cases r.readHead with
    | error e => rfl
    | ok head =>
      cases head with
      | detached o => rfl
      | symbolic name => exact if_congr Iff.rfl rfl (hname name)
  · rw [if_neg hspecial, if_neg hspecial]
    exact hname spec

theorem mem_fanout {r : RefStore} {top leaf : String} :
    (top, leaf) ∈ r.fanout ↔ r.tree.nodes.get? (r.objectsDir ++ [top, leaf]) ≠ none := by
  have hsplit : r.objectsDir ++ [top, leaf] = (r.objectsDir ++ [top]) ++ [leaf] := by simp
  unfold fanout
  rw [List.mem_flatMap, hsplit]
  constructor
  · rintro ⟨⟨top', node⟩, htop, hleaf⟩
    cases node with
    | file text => cases hleaf
    | dir =>
      obtain ⟨⟨leaf', n⟩, hmem, he⟩ := List.mem_map.mp hleaf
      cases he
      rw [FileTree.mem_children.mp hmem]
      exact Option.some_ne_none n
  · intro h
    obtain ⟨n, hn⟩ := Option.ne_none_iff_exists'.mp h
    refine ⟨(top, .dir), FileTree.mem_children.mpr (r.tree.parent _ leaf h), ?_⟩
    exact List.mem_map.mpr ⟨(leaf, n), FileTree.mem_children.mpr hn, rfl⟩

theorem fanout_nodup (r : RefStore) : r.fanout.Nodup := by
  have htops := FileTree.children_nodup r.tree r.objectsDir
  refine List.nodup_flatMap.mpr ⟨?_, ?_⟩
  · rintro ⟨top, node⟩ _
    cases node with
    | file text => exact List.nodup_nil
    | dir =>
      have hleaves := FileTree.children_nodup r.tree (r.objectsDir ++ [top])
      refine List.Nodup.of_map Prod.snd ?_
      rw [List.map_map]
      exact hleaves
  · refine (List.pairwise_map.mp htops).imp ?_
    rintro ⟨top, node⟩ ⟨top', node'⟩ hne x hx hx'
    cases node with
    | file text => cases hx
    | dir =>
      cases node' with
      | file text => cases hx'
      | dir =>
        obtain ⟨_, -, rfl⟩ := List.mem_map.mp hx
        obtain ⟨_, -, he⟩ := List.mem_map.mp hx'
        exact hne (Prod.mk.inj he).1.symm

/-! ### Writes -/

/-- Only the ref file `p` differs. -/
structure Wrote (r r' : RefStore) (p : Path) (d : Oid) : Prop where
  dot : r'.dot = r.dot
  tree : FileTree.Written r.tree r'.tree p (d.toString ++ "\n")

theorem writeLine_ok {r r' : RefStore} {comps : List String} {line : String}
    (h : r.writeLine comps line = (r', .ok ())) :
    r'.dot = r.dot ∧ r.tree.atomicWrite comps (line ++ "\n") = (r'.tree, true) := by
  unfold writeLine at h
  split at h
  · next tree hw =>
    cases h
    exact ⟨rfl, hw⟩
  · exact absurd (Prod.mk.inj h).2 sfsErr_ne_ok

/-- Whatever was expected, what a successful update did is write the line. -/
theorem update_ok {r r' : RefStore} {name : String} {expected : Option Oid} {d : Oid}
    (h : r.update name expected d = (r', .ok ())) : r.writeLine (r.branchRefPath name) d.toString = (r', .ok ()) := by
  unfold update at h
  dsimp only at h
  split at h
  · exact absurd (Prod.mk.inj h).2 sfsErr_ne_ok
  · split at h
    · exact absurd (Prod.mk.inj h).2 (by simp)
    · split at h
      · exact absurd (Prod.mk.inj h).2 sfsErr_ne_ok
      · exact h
  · exact absurd (Prod.mk.inj h).2 sfsErr_ne_ok
  · exact h

theorem branchRefPath_congr {r r' : RefStore} (h : r'.dot = r.dot) (name : String) :
    r'.branchRefPath name = r.branchRefPath name := by
  unfold branchRefPath refsHeads
  rw [h]

theorem headPath_congr {r r' : RefStore} (h : r'.dot = r.dot) : r'.headPath = r.headPath :=
  congrArg (· ++ ["HEAD"]) h

theorem readTrimmed_congr {r r' : RefStore} {comps : List String} (h : r'.tree.find comps = r.tree.find comps) :
    r'.readTrimmed comps = r.readTrimmed comps := by
  unfold readTrimmed
  rw [h]

/-- HEAD is read from its own file. -/
theorem readHead_congr {r r' : RefStore} (hdot : r'.dot = r.dot)
    (hloc : r'.tree.locate [] r.headPath = r.tree.locate [] r.headPath)
    (hget : r'.tree.nodes.get? r.headPath = r.tree.nodes.get? r.headPath) : r'.readHead = r.readHead := by
  have hfind : r'.tree.find r.headPath = r.tree.find r.headPath := by
    unfold FileTree.find
    rw [hloc]
    cases h : r.tree.locate [] r.headPath with
    | none => rfl
    | some q =>
      have hq : q = r.headPath := by simpa using FileTree.locate_plain_eq r.headPath_plain h
      show (r'.tree.nodes.get? q).map _ = _
      rw [hq, hget]
  unfold readHead
  rw [headPath_congr hdot, readTrimmed_congr hfind]

/-- The file at `p` completes no abbreviation, but one that leads to a ref, is `p`
itself or was ambiguous before. -/
def Unscanned (r : RefStore) (p : Path) : Prop :=
  r.tree.nodes.get? p = none → ∀ top leaf, p = r.objectsDir ++ [top, leaf] → ∀ spec : String,
    spec.toList.take 3 = "b3:".toList → spec.toList.length ≠ 3 + kOidHexChars →
    (scanned (spec.toList.drop 3) (top, leaf)).isSome → r.tree.find (r.branchRefPath spec) = none →
    r.tree.locate [] (r.branchRefPath spec) ≠ some p → 2 ≤ (r.matchesOf (spec.toList.drop 3)).length

section
variable {r r' : RefStore} {p : Path} {d : Oid}

theorem Wrote.objectsDir_eq (hw : Wrote r r' p d) : r'.objectsDir = r.objectsDir :=
  congrArg (· ++ ["objects"]) hw.dot

theorem Wrote.fanout_new (hw : Wrote r r' p d) {top leaf : String} (hp : p = r.objectsDir ++ [top, leaf])
    (hnew : r.tree.nodes.get? p = none) : r'.fanout.Perm ((top, leaf) :: r.fanout) := by
  have hout : (top, leaf) ∉ r.fanout := fun h => mem_fanout.mp h (hp ▸ hnew)
  refine (List.perm_ext_iff_of_nodup r'.fanout_nodup (List.nodup_cons.mpr ⟨hout, r.fanout_nodup⟩)).mpr ?_
  rintro ⟨top', leaf'⟩
  rw [mem_fanout, List.mem_cons, mem_fanout, hw.objectsDir_eq, hw.tree.get]
  split
  · next he =>
    have hpair : (top', leaf') = (top, leaf) := by simpa using he.trans hp
    exact ⟨fun _ => .inl hpair, fun _ => Option.some_ne_none _⟩
  · next he =>
    have hne : (top', leaf') ≠ (top, leaf) := fun h => he (by cases h; exact hp.symm)
    exact ⟨.inr, fun h => h.resolve_left hne⟩

theorem Wrote.fanout_same (hw : Wrote r r' p d)
    (hold : ∀ top leaf, p = r.objectsDir ++ [top, leaf] → r.tree.nodes.get? p ≠ none) : r'.fanout.Perm r.fanout := by
  refine (List.perm_ext_iff_of_nodup r'.fanout_nodup r.fanout_nodup).mpr ?_
  rintro ⟨top, leaf⟩
  rw [mem_fanout, mem_fanout, hw.objectsDir_eq, hw.tree.get]
  split
  · next he => exact ⟨fun _ => he ▸ hold top leaf he.symm, fun _ => Option.some_ne_none _⟩
  · exact Iff.rfl

theorem matchesOf_new {top leaf : String} (h : r'.fanout.Perm ((top, leaf) :: r.fanout)) (hexPrefix : List Char) :
    (r'.matchesOf hexPrefix).Perm ((scanned hexPrefix (top, leaf)).toList ++ r.matchesOf hexPrefix) := by
  have := h.filterMap (scanned hexPrefix)
  rw [List.filterMap_cons] at this
  cases hs : scanned hexPrefix (top, leaf) with
  | none =>
    rw [hs] at this
    exact this
  | some o =>
    rw [hs] at this
    exact this

/-- A name that leads to the file reads what was written. -/
theorem Wrote.parse_own (hw : Wrote r r' p d) {spec : String} (hloc : r.tree.locate [] (r.branchRefPath spec) = some p) :
    r'.parseNameScan spec = .ok d := by
  have hfind := hw.tree.find_eq hloc
  unfold parseNameScan
  rw [branchRefPath_congr hw.dot]
  simp only [hfind]
  refine bind_eq_ok.mpr ⟨_, readTrimmed_file hfind, ?_⟩
  rw [trimmed_line]
  exact Oid.parse_toString d

/-- Any other name resolves as before. -/
theorem Wrote.parse_other (hw : Wrote r r' p d) (hun : r.Unscanned p) {spec : String}
    (hloc : r.tree.locate [] (r.branchRefPath spec) ≠ some p) : r'.parseNameScan spec = r.parseNameScan spec := by
  have hfind := hw.tree.find_ne hloc
  unfold parseNameScan
  rw [branchRefPath_congr hw.dot, readTrimmed_congr hfind, hfind]
  cases hf : r.tree.find (r.branchRefPath spec) with
  | some pn => rfl
  | none =>
    show r'.parseOidScan spec = r.parseOidScan spec
    unfold parseOidScan
    split
    · next hb3 =>
      split
      · rfl
      · next hlen =>
        by_cases hnew : ∃ top leaf, p = r.objectsDir ++ [top, leaf] ∧ r.tree.nodes.get? p = none
        · obtain ⟨top, leaf, hp, hnone⟩ := hnew
          have hmatch := matchesOf_new (hw.fanout_new hp hnone) (spec.toList.drop 3)
          rw [abbreviated_perm spec hmatch]
          cases hs : scanned (spec.toList.drop 3) (top, leaf) with
          | none => rfl
          | some o =>
            exact (abbreviated_cons spec o _).mpr (hun hnone top leaf hp spec hb3 hlen (by rw [hs]; rfl) hf hloc)
        · have hold : ∀ top leaf, p = r.objectsDir ++ [top, leaf] → r.tree.nodes.get? p ≠ none :=
            fun top leaf hp hnone => hnew ⟨top, leaf, hp, hnone⟩
          exact abbreviated_perm spec ((hw.fanout_same hold).filterMap _)
    · rfl

theorem Wrote.readHead_eq (hw : Wrote r r' p d)
    (hhead : r'.tree.nodes.get? r.headPath = r.tree.nodes.get? r.headPath) : r'.readHead = r.readHead :=
  readHead_congr hw.dot (hw.tree.locate _ _) hhead

end

/-! ### The law -/

/-- The two names lead to the same ref file. -/
def SameFile (r : RefStore) (a b : String) : Prop :=
  ∃ p n, r.tree.find (r.branchRefPath a) = some (p, n) ∧ r.tree.find (r.branchRefPath b) = some (p, n)

/-- `other` is the branch `name` under any spelling, or HEAD pointing at it. -/
def Denotes (r : RefStore) (other name : String) : Prop :=
  if other = "HEAD" then ∃ s, r.readHead = .ok (.symbolic s) ∧ s ≠ "HEAD" ∧ r.SameFile s name
  else r.SameFile other name

/-- After the ref `name` was set to `d`, from `r` to `r'`. -/
structure ReadsBack (r r' : RefStore) (name : String) (d : Oid) : Prop where
  own : r'.revParseScan name = .ok d
  head : r'.tree.nodes.get? r'.headPath = r.tree.nodes.get? r.headPath
  others : ∀ other, other ≠ name → ¬ r'.Denotes other name → r'.revParseScan other = r.revParseScan other

/-- HEAD is symbolic and leads to the file. -/
def HeadNames (r : RefStore) (p : Path) : Prop :=
  ∃ s, r.readHead = .ok (.symbolic s) ∧ s ≠ "HEAD" ∧ r.tree.locate [] (r.branchRefPath s) = some p

/-- The name leads to the file `p` in a directory that is there, and no other way
of resolving a name passes through `p`. -/
structure LandsOn (r : RefStore) (name : String) (d : Oid) (dir : Path) (leaf : String) : Prop where
  last : (r.branchRefPath name).getLast? = some leaf
  walk : r.tree.locate [] (r.branchRefPath name).dropLast = some dir
  there : r.tree.nodes.get? dir = some .dir
  head : dir ++ [leaf] = r.headPath → r.tree.nodes.get? r.headPath = some (.file (d.toString ++ "\n"))
  unscanned : r.Unscanned (dir ++ [leaf])
  special : name = "HEAD" → r.HeadNames (dir ++ [leaf]) ∨ r.revParseScan "HEAD" = .ok d

def Lands (r : RefStore) (name : String) (d : Oid) : Prop := ∃ dir leaf, r.LandsOn name d dir leaf

section
variable {r r' : RefStore} {p : Path} {d : Oid} {name : String}

theorem not_located {r' : RefStore} (hw : Wrote r r' p d) (hname : r.tree.locate [] (r.branchRefPath name) = some p)
    {other : String} (h : ¬ r'.SameFile other name) : r.tree.locate [] (r.branchRefPath other) ≠ some p := by
  intro hloc
  refine h ⟨p, .file (d.toString ++ "\n"), ?_, ?_⟩
  · rw [branchRefPath_congr hw.dot]
    exact hw.tree.find_eq hloc
  · rw [branchRefPath_congr hw.dot]
    exact hw.tree.find_eq hname

/-- HEAD resolves as before unless it names the file. -/
theorem Wrote.head_other (hw : Wrote r r' p d) (hun : r.Unscanned p)
    (hhead : r'.tree.nodes.get? r.headPath = r.tree.nodes.get? r.headPath) (hnot : ¬ r.HeadNames p) :
    r'.revParseScan "HEAD" = r.revParseScan "HEAD" := by
  have hread := hw.readHead_eq hhead
  unfold revParseScan
  rw [if_pos rfl, if_pos rfl, hread]
  cases hh : r.readHead with
  | error e => rfl
  | ok head =>
    cases head with
    | detached o => rfl
    | symbolic s =>
      show (if s = "HEAD" then _ else r'.parseNameScan s) = if s = "HEAD" then _ else r.parseNameScan s
      by_cases hs : s = "HEAD"
      · rw [if_pos hs, if_pos hs]
      · rw [if_neg hs, if_neg hs, hw.parse_other hun fun hloc => hnot ⟨s, hh, hs, hloc⟩]

theorem Wrote.head_own (hw : Wrote r r' p d) (hhead : r'.tree.nodes.get? r.headPath = r.tree.nodes.get? r.headPath)
    (h : r.HeadNames p) : r'.revParseScan "HEAD" = .ok d := by
  obtain ⟨s, hread, hs, hloc⟩ := h
  unfold revParseScan
  rw [if_pos rfl, hw.readHead_eq hhead, hread]
  show (if s = "HEAD" then _ else r'.parseNameScan s) = _
  rw [if_neg hs, hw.parse_own hloc]

theorem readsBack_of_lands {expected : Option Oid} (h : r.update name expected d = (r', .ok ())) (hl : r.Lands name d) :
    ReadsBack r r' name d := by
  obtain ⟨dir, leaf, hl⟩ := hl
  obtain ⟨hdot, hwrite⟩ := writeLine_ok (update_ok h)
  obtain ⟨htree, hloc⟩ := FileTree.atomicWrite_written hl.there hl.walk hl.last hwrite
  have hw : Wrote r r' (dir ++ [leaf]) d := ⟨hdot, htree⟩
  have hhead : r'.tree.nodes.get? r.headPath = r.tree.nodes.get? r.headPath := by
    rw [htree.get]
    split
    · next he => exact (hl.head he.symm).symm
    · rfl
  refine ⟨?_, by rw [headPath_congr hdot, hhead], fun other hne hden => ?_⟩
  · by_cases hname : name = "HEAD"
    · rw [hname]
      by_cases hnames : r.HeadNames (dir ++ [leaf])
      · exact hw.head_own hhead hnames
      · rw [hw.head_other hl.unscanned hhead hnames]
        exact (hl.special hname).resolve_left hnames
    · rw [revParseScan, if_neg hname]
      exact hw.parse_own hloc
  · by_cases hother : other = "HEAD"
    · rw [hother] at hden ⊢
      rw [Denotes, if_pos rfl] at hden
      refine hw.head_other hl.unscanned hhead fun ⟨s, hread, hs, hsloc⟩ => ?_
      exact not_located hw hloc (fun hsame => hden ⟨s, (hw.readHead_eq hhead).trans hread, hs, hsame⟩) hsloc
    · rw [Denotes, if_neg hother] at hden
      rw [revParseScan, revParseScan, if_neg hother, if_neg hother]
      exact hw.parse_other hl.unscanned (not_located hw hloc hden)

/-- The absolute spelling of a path is read where it leads, and is no oid. -/
theorem parse_absolute {q : Path} (hne : q ≠ []) (hplain : ∀ x ∈ q, PlainName x) (r : RefStore) :
    absoluteName q ≠ "HEAD" ∧ r.branchRefPath (absoluteName q) = "" :: q ∧ (absoluteName q).toList.take 3 ≠ "b3:".toList := by
  have hhead : (absoluteName q).toList.head? = some '/' := by
    cases q with
    | nil => exact absurd rfl hne
    | cons c rest => simp [absoluteName]
  have htake : ∀ k (l : List Char), 0 < k → l.head? ≠ some '/' → (absoluteName q).toList.take k ≠ l := by
    intro k l hk hl h
    have := congrArg List.head? h
    rw [List.head?_take, if_neg hk.ne', hhead] at this
    exact hl this.symm
  refine ⟨fun h => ?_, ?_, htake 3 _ (by decide) (by decide)⟩
  · rw [h] at hhead
    exact absurd hhead (by decide)
  · rw [branchRefPath, if_neg (htake 11 _ (by decide) (by decide)), resolveName_absolute _ hne hplain]

/-- A directory that was not there turns an unknown name into a malformed one. -/
theorem resolves_otherwise {q : Path} (hplain : ∀ x ∈ q, PlainName x) (hnone : r.tree.nodes.get? q = none)
    (hdir : r'.tree.nodes.get? q = some .dir) :
    r'.tree.find (r'.branchRefPath (absoluteName q)) = some (q, .dir) ∧ absoluteName q ≠ "HEAD" ∧
      r'.revParseScan (absoluteName q) ≠ r.revParseScan (absoluteName q) := by
  have hne : q ≠ [] := fun h => by
    rw [h, r.tree.root] at hnone
    cases hnone
  obtain ⟨hhead, hpath, hb3⟩ := parse_absolute hne hplain r
  obtain ⟨-, hpath', -⟩ := parse_absolute hne hplain r'
  have hroot : ∀ t : FileTree, t.find ("" :: q) = t.find q := fun t => by
    unfold FileTree.find
    rw [FileTree.locate, FileTree.step_empty t.root]
  have hafter : r'.tree.find (r'.branchRefPath (absoluteName q)) = some (q, .dir) := by
    rw [hpath', hroot]
    exact find_plain hplain hdir
  have hbefore : r.tree.find (r.branchRefPath (absoluteName q)) = none := by
    rw [hpath, hroot]
    cases hf : r.tree.find q with
    | none => rfl
    | some pn =>
      have hnode := find_eq_some hf
      rw [find_plain_path hplain hf, hnone] at hnode
      cases hnode
  refine ⟨hafter, hhead, ?_⟩
  unfold revParseScan parseNameScan parseOidScan readTrimmed
  rw [if_neg hhead, if_neg hhead]
  simp only [hafter, hbefore]
  rw [if_neg hb3]
  show Oid.parse "" ≠ _
  rw [Oid.parse, if_neg (by decide)]
  simp [sfsErr]

theorem lands_of_readsBack {expected : Option Oid} (h : r.update name expected d = (r', .ok ()))
    (hb : ReadsBack r r' name d) : r.Lands name d := by
  obtain ⟨hdot, hwrite⟩ := writeLine_ok (update_ok h)
  obtain ⟨dir, leaf, hlast, hfind, ⟨htree, hwalk, hdir⟩ | ⟨q, hplain, hnone, hmade⟩⟩ :=
    FileTree.atomicWrite_some (branchRefPath_noslash r name) hwrite
  · have hw : Wrote r r' (dir ++ [leaf]) d := ⟨hdot, htree⟩
    have hloc := (FileTree.atomicWrite_written hdir hwalk hlast hwrite).2
    have hhead : r'.tree.nodes.get? r.headPath = r.tree.nodes.get? r.headPath := headPath_congr hdot ▸ hb.head
    -- An abbreviation that the file completes is a name of its own.
    have hun : r.Unscanned (dir ++ [leaf]) := by
      intro hnew top leaf' hp spec hb3 hlen hscan hnofile hother
      have hne : spec ≠ name := fun he => hother (he ▸ hloc)
      have hspec : spec ≠ "HEAD" := fun he => by
        rw [he] at hb3
        exact absurd hb3 (by decide)
      have hnot : ¬ r'.Denotes spec name := by
        rw [Denotes, if_neg hspec]
        rintro ⟨q, n, hq, hq'⟩
        rw [branchRefPath_congr hdot] at hq
        rw [hw.tree.find_ne hother, hnofile] at hq
        cases hq
      have hsame := hb.others spec hne hnot
      have hfind' := hw.tree.find_ne hother
      rw [revParseScan, revParseScan, if_neg hspec, if_neg hspec, parseNameScan, parseNameScan,
        branchRefPath_congr hdot, hfind', hnofile] at hsame
      have hsame : r'.parseOidScan spec = r.parseOidScan spec := hsame
      rw [parseOidScan, parseOidScan, if_pos hb3, if_neg hlen, if_pos hb3, if_neg hlen] at hsame
      obtain ⟨o, ho⟩ := Option.isSome_iff_exists.mp hscan
      have hmatch := matchesOf_new (hw.fanout_new hp hnew) (spec.toList.drop 3)
      rw [abbreviated_perm spec hmatch, ho] at hsame
      exact (abbreviated_cons spec o _).mp hsame
    refine ⟨dir, leaf, hlast, hwalk, hdir, fun hp => ?_, hun, fun hname => ?_⟩
    · rw [← hhead, ← hp, hw.tree.get, if_pos rfl]
    · by_cases hnames : r.HeadNames (dir ++ [leaf])
      · exact .inl hnames
      · refine .inr ?_
        rw [← hw.head_other hun hhead hnames, ← hname]
        exact hb.own
  · obtain ⟨hafter, hhead, hdiff⟩ := resolves_otherwise hplain hnone hmade
    have hfile : r'.tree.find (r'.branchRefPath name) = some (dir ++ [leaf], .file (d.toString ++ "\n")) := by
      rw [branchRefPath_congr hdot]
      exact hfind
    refine absurd (hb.others (absoluteName q) (fun he => ?_) ?_) hdiff
    · rw [he, hfile] at hafter
      cases hafter
    · rw [Denotes, if_neg hhead]
      rintro ⟨p, n, hp, hp'⟩
      rw [hafter] at hp
      rw [hfile] at hp'
      cases hp
      cases hp'

/-- A ref reads back, and nothing else changes, exactly where the name leads to a
ref file of its own in a directory that is there. -/
theorem reads_back_iff {expected : Option Oid} (h : r.update name expected d = (r', .ok ())) :
    ReadsBack r r' name d ↔ r.Lands name d :=
  ⟨lands_of_readsBack h, readsBack_of_lands h⟩

end

end RefStore

/-- A repository with one branch, checked out. -/
def oneBranch : RefStore where
  tree := FileTree.ofLists [["repo", ".synapsefs", "refs", "heads"]]
    [(["repo", ".synapsefs", "HEAD"], "ref: refs/heads/main\n"),
      (["repo", ".synapsefs", "refs", "heads", "main"], (Oid.fill 0).toString ++ "\n")]
    (by decide) (by decide) (by decide)
  dot := ["repo", ".synapsefs"]
  dot_plain := repo_plain

theorem reads_back_iff_main :
    (oneBranch.update "main" (some (Oid.fill 0)) (Oid.fill 1)).2 = .ok () ∧
      (RefStore.ReadsBack oneBranch (oneBranch.update "main" (some (Oid.fill 0)) (Oid.fill 1)).1 "main" (Oid.fill 1) ↔
        oneBranch.Lands "main" (Oid.fill 1)) ∧ oneBranch.Lands "main" (Oid.fill 1) := by
  have hok : (oneBranch.update "main" (some (Oid.fill 0)) (Oid.fill 1)).2 = .ok () := by decide +kernel
  have hlands : oneBranch.Lands "main" (Oid.fill 1) := by
    refine ⟨["repo", ".synapsefs", "refs", "heads"], "main", by decide, by decide, by decide, fun h => ?_, fun h => ?_,
      fun h => ?_⟩
    · exact absurd h (by decide)
    · exact absurd h (by decide)
    · exact absurd h (by decide)
  exact ⟨hok, RefStore.reads_back_iff (Prod.ext rfl hok), hlands⟩

/-- The branch `HEAD` is created, and `HEAD` still resolves to the branch checked out. -/
theorem branch_HEAD_unread :
    (oneBranch.createBranch "HEAD" (Oid.fill 1)).2 = .ok () ∧
      ¬ RefStore.ReadsBack oneBranch (oneBranch.createBranch "HEAD" (Oid.fill 1)).1 "HEAD" (Oid.fill 1) := by
  have hok : (oneBranch.createBranch "HEAD" (Oid.fill 1)).2 = .ok () := by decide +kernel
  have hread : (oneBranch.createBranch "HEAD" (Oid.fill 1)).1.revParseScan "HEAD" = .ok (Oid.fill 0) := by decide +kernel
  refine ⟨hok, fun h => ?_⟩
  have := hread.symm.trans h.own
  exact absurd this (by decide)

end SynapseFs.Store
