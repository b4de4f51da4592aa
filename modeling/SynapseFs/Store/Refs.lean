import SynapseFs.Core.Oid
import SynapseFs.Lib.FileTree

/-! Branch refs and HEAD.

A ref is one line of text in a file. Names go through the file system: `rev_parse`
follows whatever path a name spells, `list_heads` lists the regular files of
`refs/heads` and does not descend. -/
namespace SynapseFs.Store
open Lib Core

structure Ref where
  name : String
  target : Oid
  deriving DecidableEq, Repr

inductive Head where
  | symbolic (name : String)
  | detached (oid : Oid)
  deriving DecidableEq, Repr

/-- The file tree and where `.synapsefs` is in it. -/
structure RefStore where
  tree : FileTree
  dot : Path
  dot_plain : ∀ c ∈ dot, PlainName c

/-- The path of a repository is plain. -/
theorem repo_plain : ∀ c ∈ ["repo", ".synapsefs"], PlainName c := by decide

def pathString (comps : List String) : String := "/" ++ String.intercalate "/" comps

/-- The text without its trailing line ends. -/
def trimmed (text : String) : String :=
  String.ofList (text.toList.reverse.dropWhile fun c => c == '\n' || c == '\r').reverse

/-- The line end written to a file is what reading trims. -/
theorem trimmed_newline {s : String} (hs : ∀ c ∈ s.toList, c ≠ '\n' ∧ c ≠ '\r') : trimmed (s ++ "\n") = s := by
  have hdrop : s.toList.reverse.dropWhile (fun c => c == '\n' || c == '\r') = s.toList.reverse := by
    cases hl : s.toList.reverse with
    | nil => rfl
    | cons c cs =>
      have := hs c (List.mem_reverse.mp (hl ▸ List.mem_cons_self))
      rw [List.dropWhile_cons, if_neg (by simp [this])]
  rw [trimmed, String.toList_append, List.reverse_append]
  show String.ofList (List.dropWhile _ ('\n' :: s.toList.reverse)).reverse = s
  rw [List.dropWhile_cons_of_pos (by decide), hdrop, List.reverse_reverse, String.ofList_toList]

/-- A ref file reads back as the oid written to it. -/
theorem trimmed_line (o : Oid) : trimmed (o.toString ++ "\n") = o.toString := by
  refine trimmed_newline fun c hc => ?_
  rw [Oid.toString, String.toList_ofList] at hc
  simp only [List.mem_cons] at hc
  rcases hc with rfl | rfl | rfl | hc
  · decide
  · decide
  · decide
  · exact hexEncode_ne _ c hc

namespace RefStore

def headPath (r : RefStore) : Path := r.dot ++ ["HEAD"]
def refsHeads (r : RefStore) : Path := r.dot ++ ["refs", "heads"]

/-- A directory opens, and reads as no text. -/
def readTrimmed (r : RefStore) (comps : List String) : Outcome String :=
  match r.tree.find comps with
  | some (_, .file text) => .ok (trimmed text)
  | some (_, .dir) => .ok ""
  | none => sfsErr .refNotFound "ref file does not exist" (pathString comps)

def writeLine (r : RefStore) (comps : List String) (line : String) : RefStore × Outcome Unit :=
  match r.tree.atomicWrite comps (line ++ "\n") with
  | (tree, true) => ({ r with tree }, .ok ())
  | (tree, false) => ({ r with tree }, sfsErr .io "cannot write ref" (pathString comps))

def kPrefix : List Char := "refs/heads/".toList

/-- `refs/heads/<name>` or bare `<name>`. -/
def branchRefPath (r : RefStore) (nameOrRef : String) : List String :=
  if nameOrRef.toList.take 11 = kPrefix then resolveName r.refsHeads (String.ofList (nameOrRef.toList.drop 11))
  else resolveName r.refsHeads nameOrRef

def readHead (r : RefStore) : Outcome Head :=
  match r.readTrimmed r.headPath with
  | .ok content =>
    if content.toList.take 5 = "ref: ".toList then .ok (.symbolic (String.ofList (content.toList.drop 5)))
    else do
      let oid ← Oid.parse content
      return .detached oid
  | .error _ => sfsErr .refNotFound "HEAD does not exist" (pathString r.headPath)

def setHeadSymbolic (r : RefStore) (refName : String) : RefStore × Outcome Unit :=
  r.writeLine r.headPath ("ref: " ++ refName)

def setHeadDetached (r : RefStore) (oid : Oid) : RefStore × Outcome Unit := r.writeLine r.headPath oid.toString

/-- A full oid is taken as it stands; an abbreviation is looked up among the objects. -/
def parseOidSpec (objects : List Oid) (spec : String) : Outcome Oid :=
  if spec.toList.take 3 = "b3:".toList then
    if spec.toList.length = 3 + kOidHexChars then Oid.parse spec
    else
      let hexPrefix := spec.toList.drop 3
      match objects.filter fun o => (hexEncode o.bytes).take hexPrefix.length = hexPrefix with
      | [o] => .ok o
      | [] => sfsErr .refNotFound "no object matches abbreviation" spec
      | _ => sfsErr .malformedObject "ambiguous abbreviation" spec
  else sfsErr .refNotFound "cannot resolve ref, branch, or oid" spec

/-- A spec other than `HEAD`. -/
def parseName (r : RefStore) (objects : List Oid) (spec : String) : Outcome Oid :=
  match r.tree.find (r.branchRefPath spec) with
  | some _ => do
    let content ← r.readTrimmed (r.branchRefPath spec)
    Oid.parse content
  | none => parseOidSpec objects spec

/-- `HEAD` that names `HEAD` recurses without end. -/
def revParse (r : RefStore) (objects : List Oid) (spec : String) : Outcome Oid :=
  if spec = "HEAD" then do
    match ← r.readHead with
    | .detached oid => return oid
    | .symbolic name =>
      if name = "HEAD" then .error (.undefined "unbounded recursion") else r.parseName objects name
  else r.parseName objects spec

def resolve (r : RefStore) (objects : List Oid) (nameOrOid : String) : Outcome Oid := r.revParse objects nameOrOid

/-- Entries that are not regular files, and files that do not hold an oid, are skipped. -/
def listHeads (r : RefStore) : List Ref :=
  (r.tree.children r.refsHeads).filterMap fun (name, node) =>
    match node with
    | .dir => none
    | .file text =>
      match Oid.parse (trimmed text) with
      | .ok target => some { name, target }
      | .error _ => none

/-- Compare-and-swap; no expectation means the ref must not exist. -/
def update (r : RefStore) (refName : String) (expected : Option Oid) (desired : Oid) : RefStore × Outcome Unit :=
  let p := r.branchRefPath refName
  match expected, r.tree.find p with
  | some _, none => (r, sfsErr .refRaceLost "ref no longer exists" refName)
  | some e, some _ =>
    match r.readTrimmed p with
    | .error err => (r, .error err)
    | .ok current =>
      if current ≠ e.toString then (r, sfsErr .refRaceLost "ref changed concurrently" refName)
      else r.writeLine p desired.toString
  | none, some _ => (r, sfsErr .refRaceLost "ref already exists" refName)
  | none, none => r.writeLine p desired.toString

def createBranch (r : RefStore) (name : String) (start : Oid) : RefStore × Outcome Unit := r.update name none start

/-- A directory goes only when it is empty. -/
def deleteBranch (r : RefStore) (name : String) : RefStore × Outcome Unit :=
  match r.tree.find (r.branchRefPath name) with
  | none => (r, sfsErr .refNotFound "branch does not exist" name)
  | some (p, _) =>
    let last := (r.branchRefPath name).getLast?
    if h : p ≠ [] ∧ r.tree.children p = [] ∧ last ≠ some "." ∧ last ≠ some ".." then
      ({ r with tree := r.tree.remove p h.1 h.2.1 }, .ok ())
    else (r, sfsErr .io "cannot remove branch ref" name)

/-! ### What a name resolves through -/

/-- `spec` spells the path of the file `p`, which holds `o`. -/
def NameFile (r : RefStore) (spec : String) (p : Path) (o : Oid) : Prop :=
  ∃ text, r.tree.find (r.branchRefPath spec) = some (p, .file text) ∧ Oid.parse (trimmed text) = .ok o

end RefStore

/-- Where the oid of a resolved name was read. -/
inductive RefSource where
  | detachedHead
  | file (p : Path)
  deriving DecidableEq, Repr

namespace RefStore

inductive Through (r : RefStore) : String → RefSource → Oid → Prop where
  | detached {o : Oid} (h : r.readHead = .ok (.detached o)) : Through r "HEAD" .detachedHead o
  | symbolic {name : String} {p : Path} {o : Oid} (h : r.readHead = .ok (.symbolic name)) (hne : name ≠ "HEAD")
    (hf : r.NameFile name p o) : Through r "HEAD" (.file p) o
  | name {spec : String} {p : Path} {o : Oid} (hne : spec ≠ "HEAD") (hf : r.NameFile spec p o) :
    Through r spec (.file p) o

theorem readTrimmed_file {r : RefStore} {comps : List String} {p : Path} {text : String}
    (h : r.tree.find comps = some (p, .file text)) : r.readTrimmed comps = .ok (trimmed text) := by
  rw [readTrimmed, h]

theorem parseName_of_nameFile {r : RefStore} {objects : List Oid} {spec : String} {p : Path} {o : Oid}
    (h : r.NameFile spec p o) : r.parseName objects spec = .ok o := by
  obtain ⟨text, hfind, ho⟩ := h
  unfold parseName
  simp only [hfind]
  exact bind_eq_ok.mpr ⟨trimmed text, readTrimmed_file hfind, ho⟩

/-- A name that resolves through a ref resolves to what the ref holds. -/
theorem Through.resolve {r : RefStore} {objects : List Oid} {spec : String} {src : RefSource} {o : Oid}
    (h : r.Through spec src o) : r.resolve objects spec = .ok o := by
  cases h with
  | detached h =>
    rw [RefStore.resolve, revParse, if_pos rfl, h]
    rfl
  | symbolic h hne hf =>
    rw [RefStore.resolve, revParse, if_pos rfl, h]
    show (if _ then _ else _) = _
    rw [if_neg hne]
    exact parseName_of_nameFile hf
  | name hne hf =>
    rw [RefStore.resolve, revParse, if_neg hne]
    exact parseName_of_nameFile hf

theorem parse_empty {o : Oid} : Oid.parse "" ≠ .ok o := by
  have : ¬ ("".toList.length = 3 + kOidHexChars ∧ "".toList.take 3 = ['b', '3', ':']) := by decide
  rw [Oid.parse, if_neg this]
  exact sfsErr_ne_ok

/-- The only other way to resolve is an oid in the text of the name. -/
theorem parseName_cases {r : RefStore} {objects : List Oid} {spec : String} {o : Oid}
    (h : r.parseName objects spec = .ok o) : (∃ p, r.NameFile spec p o) ∨ parseOidSpec objects spec = .ok o := by
  unfold parseName at h
  split at h
  · next pn hfind =>
    obtain ⟨p, n⟩ := pn
    obtain ⟨content, hread, ho⟩ := bind_eq_ok.mp h
    rw [readTrimmed, hfind] at hread
    cases n with
    | dir =>
      cases hread
      exact absurd ho parse_empty
    | file text =>
      cases hread
      exact .inl ⟨p, text, hfind, ho⟩
  · exact .inr h

theorem find_eq_some {t : FileTree} {comps : List String} {p : Path} {n : Node} (h : t.find comps = some (p, n)) :
    t.nodes.get? p = some n := by
  unfold FileTree.find at h
  split at h
  · next q hq =>
    cases hg : t.nodes.get? q with
    | none =>
      rw [hg] at h
      cases h
    | some m =>
      rw [hg] at h
      cases h
      exact hg
  · cases h

/-- A path of plain names finds what is at it. -/
theorem find_plain {t : FileTree} {p : Path} {n : Node} (hp : ∀ c ∈ p, PlainName c) (h : t.nodes.get? p = some n) :
    t.find p = some (p, n) := by
  have hl := FileTree.locate_plain t [] p hp (by rw [List.nil_append, h]; exact nofun)
  unfold FileTree.find
  rw [hl]
  simp only [List.nil_append, h, Option.map_some]

/-- A path of plain names finds nothing else. -/
theorem find_plain_path {t : FileTree} {comps : List String} {p : Path} {n : Node} (hplain : ∀ c ∈ comps, PlainName c)
    (h : t.find comps = some (p, n)) : p = comps := by
  unfold FileTree.find at h
  split at h
  · next q hq =>
    obtain ⟨m, -, he⟩ := Option.map_eq_some_iff.mp h
    cases he
    simpa using FileTree.locate_plain_eq hplain hq
  · cases h

/-- The absolute name of a path of plain names finds what is at it. -/
theorem nameFile_absolute {r : RefStore} {p : Path} {text : String} {o : Oid} (hne : p ≠ [])
    (hp : ∀ c ∈ p, PlainName c) (hf : r.tree.nodes.get? p = some (.file text)) (ho : Oid.parse (trimmed text) = .ok o) :
    absoluteName p ≠ "HEAD" ∧ r.NameFile (absoluteName p) p o := by
  have hhead : (absoluteName p).toList.head? = some '/' := by
    cases p with
    | nil => exact absurd rfl hne
    | cons c rest => simp [absoluteName]
  have hpre : (absoluteName p).toList.take 11 ≠ kPrefix := by
    intro h
    have := congrArg List.head? h
    rw [List.head?_take, if_neg (by decide), hhead] at this
    exact absurd this (by decide)
  refine ⟨?_, text, ?_, ho⟩
  · intro h
    rw [h] at hhead
    exact absurd hhead (by decide)
  · have hplain := find_plain hp hf
    rw [branchRefPath, if_neg hpre, resolveName_absolute _ hne hp]
    unfold FileTree.find at hplain ⊢
    rwa [FileTree.locate, FileTree.step_empty r.tree.root]

theorem headPath_plain (r : RefStore) : ∀ c ∈ r.headPath, PlainName c := by
  intro c hc
  rcases List.mem_append.mp hc with hc | hc
  · exact r.dot_plain c hc
  · rw [List.mem_singleton.mp hc]
    decide

/-- The file of a listed branch. -/
theorem mem_listHeads {r : RefStore} {name : String} {text : String} {o : Oid}
    (hf : r.tree.nodes.get? (r.refsHeads ++ [name]) = some (.file text)) (ho : Oid.parse (trimmed text) = .ok o) :
    { name, target := o } ∈ r.listHeads := by
  refine List.mem_filterMap.mpr ⟨(name, .file text), FileTree.mem_children.mpr hf, ?_⟩
  simp only [ho]

/-- A HEAD file that holds an oid is detached. -/
theorem readHead_of_file {r : RefStore} {text : String} {o : Oid}
    (hf : r.tree.nodes.get? r.headPath = some (.file text)) (ho : Oid.parse (trimmed text) = .ok o) :
    r.readHead = .ok (.detached o) := by
  have hfind := find_plain r.headPath_plain hf
  have hpre : (trimmed text).toList.take 5 ≠ "ref: ".toList := by
    intro hpre
    unfold Oid.parse at ho
    split at ho
    · next h =>
      have : (trimmed text).toList.take 3 = ("ref: ".toList).take 3 := by
        rw [← hpre, List.take_take]
        rfl
      rw [h.2] at this
      exact absurd this (by decide)
    · exact absurd ho sfsErr_ne_ok
  unfold readHead
  simp only [readTrimmed_file hfind]
  rw [if_neg hpre, ho]
  rfl

/-! ### Flat branch names -/

/-- One component, on one line. -/
def FlatName (n : String) : Prop := PlainName n ∧ ∀ c ∈ n.toList, c ≠ '\n' ∧ c ≠ '\r'

theorem refsHeads_plain (r : RefStore) : ∀ c ∈ r.refsHeads, PlainName c := by
  intro c hc
  rcases List.mem_append.mp hc with hc | hc
  · exact r.dot_plain c hc
  · rcases List.mem_cons.mp hc with rfl | hc
    · decide
    · rw [List.mem_singleton.mp hc]
      decide

theorem branchRefPath_noslash (r : RefStore) (name : String) : ∀ c ∈ r.branchRefPath name, '/' ∉ c.toList := by
  have hheads : ∀ c ∈ r.refsHeads, '/' ∉ c.toList := fun c hc => (r.refsHeads_plain c hc).2.2.2
  unfold branchRefPath
  split
  · exact resolveName_noslash hheads _
  · exact resolveName_noslash hheads _

/-- The full name of a branch and its short name are the same file. -/
theorem branchRefPath_full (r : RefStore) {n : String} (hn : FlatName n) :
    r.branchRefPath ("refs/heads/" ++ n) = r.refsHeads ++ [n] := by
  have htake : ("refs/heads/" ++ n).toList.take 11 = kPrefix := by
    rw [String.toList_append]
    exact List.take_left' (by decide)
  have hdrop : ("refs/heads/" ++ n).toList.drop 11 = n.toList := by
    rw [String.toList_append]
    exact List.drop_left' (by decide)
  rw [branchRefPath, if_pos htake, hdrop, String.ofList_toList, resolveName_plain _ hn.1]

theorem branchRefPath_short (r : RefStore) {n : String} (hn : FlatName n) :
    r.branchRefPath n = r.refsHeads ++ [n] := by
  have hpre : n.toList.take 11 ≠ kPrefix := by
    intro h
    have : '/' ∈ n.toList := List.mem_of_mem_take (h ▸ (by decide : '/' ∈ kPrefix))
    exact hn.1.2.2.2 this
  rw [branchRefPath, if_neg hpre, resolveName_plain _ hn.1]

/-- A full branch name that resolves resolves through its file. -/
theorem resolve_full {r : RefStore} {objects : List Oid} {n : String} {o : Oid} (hn : FlatName n)
    (h : r.resolve objects ("refs/heads/" ++ n) = .ok o) :
    ∃ text, r.tree.nodes.get? (r.refsHeads ++ [n]) = some (.file text) ∧ Oid.parse (trimmed text) = .ok o := by
  have hhead : ("refs/heads/" ++ n).toList.take 3 = ['r', 'e', 'f'] := by
    rw [String.toList_append]
    rfl
  have hne : "refs/heads/" ++ n ≠ "HEAD" := by
    intro he
    rw [he] at hhead
    exact absurd hhead (by decide)
  rw [resolve, revParse, if_neg hne] at h
  rcases parseName_cases h with ⟨p, text, hfind, ho⟩ | hspec
  · have hplain : ∀ c ∈ r.refsHeads ++ [n], PlainName c := by
      intro c hc
      rcases List.mem_append.mp hc with hc | hc
      · exact r.refsHeads_plain c hc
      · rw [List.mem_singleton.mp hc]
        exact hn.1
    rw [branchRefPath_full r hn] at hfind
    have hp := find_plain_path hplain hfind
    exact ⟨text, hp ▸ find_eq_some hfind, ho⟩
  · rw [parseOidSpec, if_neg (by rw [hhead]; decide)] at hspec
    exact absurd hspec sfsErr_ne_ok

/-- What HEAD holds: a flat branch, or an oid. -/
def HeadText (text : String) : Prop :=
  (∃ n, FlatName n ∧ text = "ref: refs/heads/" ++ n ++ "\n") ∨ ∃ o : Oid, text = o.toString ++ "\n"

theorem readHead_symbolic {r : RefStore} {name : String} (h : r.readHead = .ok (.symbolic name)) :
    ∃ text, r.tree.nodes.get? r.headPath = some (.file text) ∧ trimmed text = "ref: " ++ name := by
  unfold readHead at h
  split at h
  · next content hread =>
    split at h
    · next hpre =>
      cases h
      unfold readTrimmed at hread
      split at hread
      · next p text hfind =>
        cases hread
        refine ⟨text, find_plain_path r.headPath_plain hfind ▸ find_eq_some hfind, ?_⟩
        rw [← String.toList_inj, String.toList_append, ← hpre, String.toList_ofList, List.take_append_drop]
      · cases hread
        exact absurd hpre (by decide)
      · cases hread
    · obtain ⟨o, -, h⟩ := bind_eq_ok.mp h
      cases h
  · exact absurd h sfsErr_ne_ok

/-- A symbolic HEAD names its branch in full. -/
theorem HeadText.symbolic {text name : String} (ht : HeadText text) (h : trimmed text = "ref: " ++ name) :
    ∃ n, FlatName n ∧ name = "refs/heads/" ++ n := by
  rcases ht with ⟨n, hn, rfl⟩ | ⟨o, rfl⟩
  · have hline : ∀ c ∈ ("ref: refs/heads/" ++ n).toList, c ≠ '\n' ∧ c ≠ '\r' := by
      intro c hc
      rw [String.toList_append] at hc
      rcases List.mem_append.mp hc with hc | hc
      · exact (by simp : ∀ c ∈ "ref: refs/heads/".toList, c ≠ '\n' ∧ c ≠ '\r') c hc
      · exact hn.2 c hc
    rw [trimmed_newline hline] at h
    refine ⟨n, hn, ?_⟩
    have := congrArg String.toList h
    simp only [String.toList_append] at this
    rw [← String.toList_inj, String.toList_append]
    exact (List.append_cancel_left (show "ref: ".toList ++ ("refs/heads/".toList ++ n.toList) = _ from this)).symm
  · rw [trimmed_line] at h
    have := congrArg (fun s => s.toList.head?) h
    simp [Oid.toString] at this

/-- A line written into a directory that is there. -/
theorem writeLine_in_dir (r : RefStore) {dir : Path} {name : String} (line : String) (hplain : ∀ c ∈ dir, PlainName c)
    (hname : PlainName name) (hd : r.tree.nodes.get? dir = some .dir) :
    (r.writeLine (dir ++ [name]) line).1.dot = r.dot ∧
      ((r.writeLine (dir ++ [name]) line).1 = r ∨ ∀ p, (r.writeLine (dir ++ [name]) line).1.tree.nodes.get? p =
        if p = dir ++ [name] then some (.file (line ++ "\n")) else r.tree.nodes.get? p) := by
  have hw := FileTree.atomicWrite_get? (line ++ "\n") hplain hname hd
  unfold writeLine
  rcases hres : r.tree.atomicWrite (dir ++ [name]) (line ++ "\n") with ⟨tree, ok⟩
  rw [hres] at hw
  cases ok with
  | true => exact ⟨rfl, hw.imp (fun h => by cases h; rfl) id⟩
  | false => exact ⟨rfl, hw.imp (fun h => by cases h; rfl) id⟩

/-- A compare-and-swap of a flat branch writes its file or nothing. -/
theorem update_flat (r : RefStore) {refName n : String} (hpath : r.branchRefPath refName = r.refsHeads ++ [n])
    (hn : FlatName n) (hd : r.tree.nodes.get? r.refsHeads = some .dir) (expected : Option Oid) (desired : Oid) :
    (r.update refName expected desired).1.dot = r.dot ∧
      ((r.update refName expected desired).1 = r ∨ ∀ p, (r.update refName expected desired).1.tree.nodes.get? p =
        if p = r.refsHeads ++ [n] then some (.file (desired.toString ++ "\n")) else r.tree.nodes.get? p) := by
  have hw := writeLine_in_dir r desired.toString r.refsHeads_plain hn.1 hd
  unfold update
  rw [hpath]
  dsimp only
  split
  · exact ⟨rfl, .inl rfl⟩
  · split
    · exact ⟨rfl, .inl rfl⟩
    · split
      · exact ⟨rfl, .inl rfl⟩
      · exact hw
  · exact ⟨rfl, .inl rfl⟩
  · exact hw

end RefStore

end SynapseFs.Store
