import CatalogFS.Tree

namespace CatalogFS

open CLib

def components : Bytes → List Bytes
  | [] => []
  | b :: s =>
    if b = slash then components s
    else
      match s with
      | [] => [[b]]
      | b' :: _ =>
        if b' = slash then [b] :: components s
        else
          match components s with
          | [] => [[b]]
          | c :: cs => (b :: c) :: cs

/-- Path resolution without following links: the names met and the file reached. -/
def Node.find : Node → List Bytes → Option (List FileName × Node)
  | n, [] => some ([], n)
  | .dir _ ch, c :: cs =>
    (ch.find? fun e => e.1.val = c).bind fun e => (e.2.find cs).map fun p => (e.1 :: p.1, p.2)
  | _, _ :: _ => none

/-- The files of the tree under `inputDir`; `scandir` fails where `fails` says so. -/
def treeHost (inputDir : Bytes) (T : Tree) (fails : List FileName → Bool) : Host :=
  let resolve (path : Bytes) : Option (List FileName × Node) :=
    if inputDir.isPrefixOf path then T.root.find (components (path.drop inputDir.length)) else none
  { lstat := fun path => (resolve path).map fun p => p.2.stat
    readlink := fun path =>
      match resolve path with
      | some (_, .link _ t) => some t.val
      | _ => none
    readdir := fun path =>
      match resolve path with
      | some (cs, .dir _ ch) => if fails cs then none else some (dotEntries ++ ch.map direntOf)
      | _ => none
    staleStat := fun _ => Stat.zero
    staleLink := fun _ => [] }

theorem components_slash_cons (s : Bytes) : components (slash :: s) = components s := by
  simp [components]

/-- A name that a slash or the end of the string follows is one component. -/
theorem components_append {c rest : Bytes} (hne : c ≠ []) (hc : slash ∉ c)
    (hrest : ∀ b ∈ rest.head?, b = slash) : components (c ++ rest) = c :: components rest := by
  induction c with
  | nil => exact absurd rfl hne
  | cons b c ih =>
    have hb : b ≠ slash := fun h => hc (h ▸ List.mem_cons_self)
    cases c with
    | nil =>
      cases rest with
      | nil => simp [components, hb]
      | cons r rest =>
        obtain rfl : r = slash := hrest r rfl
        simp [components, hb]
    | cons b' c =>
      have hb' : b' ≠ slash := fun h => hc (h ▸ List.mem_cons_of_mem b List.mem_cons_self)
      have ih := ih (by simp) fun h => hc (List.mem_cons_of_mem b h)
      rw [List.cons_append] at ih
      rw [List.cons_append, List.cons_append, components, if_neg hb]
      simp [hb', ih]

theorem head?_pathString_append (cs : List FileName) {rest : Bytes}
    (h : ∀ b ∈ rest.head?, b = slash) : ∀ b ∈ (pathString cs ++ rest).head?, b = slash := by
  cases cs with
  | nil => exact h
  | cons c cs => simp

theorem components_pathString_append (cs : List FileName) {rest : Bytes}
    (h : ∀ b ∈ rest.head?, b = slash) :
    components (pathString cs ++ rest) = cs.map FileName.val ++ components rest := by
  induction cs with
  | nil => rfl
  | cons c cs ih =>
    rw [pathString_cons, List.cons_append, components_slash_cons, List.append_assoc,
      components_append c.ne_nil c.slash_notMem (head?_pathString_append cs h), ih]
    rfl

theorem Node.find_map_val (n : Node) (cs : List FileName) :
    n.find (cs.map FileName.val) = (n.get cs).map fun m => (cs, m) := by
  induction cs generalizing n with
  | nil => cases n <;> rfl
  | cons c cs ih =>
    cases n with
    | leaf t a => rfl
    | link a t => rfl
    | dir a ch =>
      have hfind : (ch.find? fun e => e.1.val = c.val) = (ch.lookup c).map fun m => (c, m) := by
        induction ch with
        | nil => rfl
        | cons e ch ihch =>
          obtain ⟨d, m⟩ := e
          by_cases h : c = d
          · subst h
            simp
          · have hv : d.val ≠ c.val := fun hv => h (FileName.ext hv.symm)
            have hb : (c == d) = false := by simpa using h
            simp [List.lookup, hb, hv, ihch]
      rw [List.map_cons, Node.find, hfind, get_dir_cons]
      cases ch.lookup c with
      | none => rfl
      | some m => simp [ih, Option.map_map, Function.comp_def]

theorem treeHost_shows (inputDir : Bytes) (T : Tree) (fails : List FileName → Bool) :
    (treeHost inputDir T fails).Shows inputDir T fails := by
  have hpath : ∀ cs, T.root.find (components (pathString cs)) = (T.get cs).map fun m => (cs, m) := by
    intro cs
    have hcs : components (pathString cs ++ []) = cs.map FileName.val ++ components [] :=
      components_pathString_append cs (by simp)
    rw [List.append_nil] at hcs
    rw [hcs, components, List.append_nil, Node.find_map_val]
    rfl
  have hdir : ∀ cs, T.root.find (components (dirPath cs)) = (T.get cs).map fun m => (cs, m) := by
    intro cs
    rw [dirPath, components_pathString_append cs (by simp), components_slash_cons, components,
      List.append_nil, Node.find_map_val]
    rfl
  constructor
  · intro cs a ch h
    simp [treeHost, hdir, h]
  · intro cs node _ h
    simp [treeHost, hpath, h]
  · intro cs a t h
    simp [treeHost, hpath, h]
  · intro cs a ch h hf
    exact ⟨_, by simp [treeHost, hpath, h, hf], List.Perm.refl _⟩
  · intro cs a ch h hf
    simp [treeHost, hpath, h, hf]

def FileName.ofBytes (s : Bytes)
    (h : s ≠ [] ∧ slash ∉ s ∧ 0 ∉ s ∧ s ≠ [ch '.'] ∧ s ≠ [ch '.', ch '.']) : FileName :=
  ⟨s, h.1, h.2.1, h.2.2.1, h.2.2.2.1, h.2.2.2.2⟩

def nameA : FileName := .ofBytes [ch 'a'] (by decide)

def nameB : FileName := .ofBytes [ch 'b'] (by decide)

def nameL : FileName := .ofBytes [ch 'l'] (by decide)

def targetA : Target := ⟨[ch 'a'], by decide⟩

def smallAttr : Attr := ⟨0o755#12, 1, 0, 0, 7, 0, 0, -1⟩

/-- A directory `a` with a regular file `b` in it, and a link `l` to the directory. -/
def smallTree : Tree where
  attr := smallAttr
  children := [(nameL, .link smallAttr targetA),
    (nameA, .dir smallAttr [(nameB, .leaf .reg smallAttr)])]
  distinct := by
    apply Node.distinct_dir (by decide)
    simp only [List.forall_mem_cons, List.not_mem_nil, false_implies, implies_true, and_true]
    refine ⟨Node.distinct_of_not_isDir rfl, Node.distinct_dir (by decide) ?_⟩
    simp only [List.forall_mem_cons, List.not_mem_nil, false_implies, implies_true, and_true]
    exact Node.distinct_of_not_isDir rfl

theorem smallTree_forall {P : List FileName → Node → Prop} (hroot : P [] smallTree.root)
    (hl : P [nameL] (.link smallAttr targetA))
    (ha : P [nameA] (.dir smallAttr [(nameB, .leaf .reg smallAttr)]))
    (hb : P [nameA, nameB] (.leaf .reg smallAttr)) :
    ∀ cs m, smallTree.get cs = some m → P cs m := by
  apply Node.forall_get_dir hroot
  intro e he
  rcases List.mem_pair.mp he with rfl | rfl
  · exact Node.forall_get_of_not_isDir rfl hl
  · refine Node.forall_get_dir ha fun e he => ?_
    obtain rfl := List.mem_singleton.mp he
    exact Node.forall_get_of_not_isDir rfl hb

end CatalogFS
