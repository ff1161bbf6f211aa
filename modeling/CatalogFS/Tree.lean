import CatalogFS.Generate

namespace CatalogFS

open CLib

structure FileName where
  val : Bytes
  ne_nil : val ≠ []
  slash_notMem : slash ∉ val
  nul_notMem : 0 ∉ val
  ne_dot : val ≠ [ch '.']
  ne_dotdot : val ≠ [ch '.', ch '.']
  deriving DecidableEq

theorem FileName.ext {a b : FileName} (h : a.val = b.val) : a = b := by
  cases a
  cases b
  simpa using h

structure Target where
  val : Bytes
  nul_notMem : 0 ∉ val
  deriving DecidableEq

structure Attr where
  perm : BitVec 12
  nlink : UInt64
  uid : UInt32
  gid : UInt32
  size : Int64
  atime : Int64
  mtime : Int64
  ctime : Int64
  deriving DecidableEq

def Attr.stat (a : Attr) (t : FileType) : Stat :=
  ⟨t.mode a.perm, a.nlink, a.uid, a.gid, a.size, a.atime, a.mtime, a.ctime⟩

inductive LeafType
  | fifo | chr | blk | reg | sock
  deriving DecidableEq

def LeafType.type : LeafType → FileType
  | .fifo => .fifo
  | .chr => .chr
  | .blk => .blk
  | .reg => .reg
  | .sock => .sock

/-- A file with, for a directory, everything below it. The entries of a directory stand in the
order in which the system happens to enumerate them. -/
inductive Node
  | leaf (type : LeafType) (attr : Attr)
  | link (attr : Attr) (target : Target)
  | dir (attr : Attr) (children : List (FileName × Node))

namespace Node

def type : Node → FileType
  | .leaf t _ => t.type
  | .link _ _ => .lnk
  | .dir _ _ => .dir

def attr : Node → Attr
  | .leaf _ a => a
  | .link a _ => a
  | .dir a _ => a

def stat (n : Node) : Stat := n.attr.stat n.type

def target : Node → Bytes
  | .link _ t => t.val
  | _ => []

def isDir : Node → Bool
  | .dir _ _ => true
  | _ => false

def get : Node → List FileName → Option Node
  | n, [] => some n
  | .dir _ ch, c :: cs => (ch.lookup c).bind fun m => m.get cs
  | _, _ :: _ => none

@[simp] theorem get_nil (n : Node) : n.get [] = some n := by
  cases n <;> rfl

@[simp] theorem get_dir_cons (a : Attr) (ch : List (FileName × Node)) (c : FileName)
    (cs : List FileName) : (Node.dir a ch).get (c :: cs) = (ch.lookup c).bind fun m => m.get cs := rfl

theorem get_append (n : Node) (cs ds : List FileName) :
    n.get (cs ++ ds) = (n.get cs).bind fun m => m.get ds := by
  induction cs generalizing n with
  | nil => simp
  | cons c cs ih =>
    cases n with
    | leaf t a => rfl
    | link a t => rfl
    | dir a ch =>
      simp only [List.cons_append, get_dir_cons]
      cases ch.lookup c with
      | none => rfl
      | some m => exact ih m

/-- Files lie no deeper than the size of the tree. -/
theorem length_lt_sizeOf {n m : Node} {cs : List FileName} (h : n.get cs = some m) :
    cs.length < sizeOf n := by
  induction cs generalizing n with
  | nil => cases n <;> simp
  | cons c cs ih =>
    cases n with
    | leaf t a => simp [get] at h
    | link a t => simp [get] at h
    | dir a ch =>
      rw [get_dir_cons, Option.bind_eq_some_iff] at h
      obtain ⟨m', hm', h⟩ := h
      have hmem : (c, m') ∈ ch := by
        obtain ⟨l₁, l₂, rfl, -⟩ := List.lookup_eq_some_iff.mp hm'
        simp
      have h1 := ih h
      have h2 := List.sizeOf_lt_of_mem hmem
      simp only [List.length_cons, Node.dir.sizeOf_spec, Prod.mk.sizeOf_spec] at h2 ⊢
      omega

/-- What holds of a directory, and of everything below each of its entries, holds of everything
that a sequence of components leads to from it. -/
theorem forall_get_dir {P : List FileName → Node → Prop} {a : Attr} {ch : List (FileName × Node)}
    (hnil : P [] (.dir a ch))
    (hch : ∀ e ∈ ch, ∀ cs m, e.2.get cs = some m → P (e.1 :: cs) m) :
    ∀ cs m, (Node.dir a ch).get cs = some m → P cs m := by
  intro cs m h
  cases cs with
  | nil =>
    obtain rfl : Node.dir a ch = m := Option.some.inj h
    exact hnil
  | cons c cs =>
    rw [get_dir_cons, Option.bind_eq_some_iff] at h
    obtain ⟨m', hm', h⟩ := h
    obtain ⟨l₁, l₂, rfl, -⟩ := List.lookup_eq_some_iff.mp hm'
    exact hch (c, m') (by simp) cs m h

theorem forall_get_of_not_isDir {P : List FileName → Node → Prop} {n : Node}
    (hn : n.isDir = false) (hnil : P [] n) : ∀ cs m, n.get cs = some m → P cs m := by
  intro cs m h
  cases cs with
  | nil =>
    rw [get_nil] at h
    obtain rfl := Option.some.inj h
    exact hnil
  | cons c cs =>
    cases n with
    | leaf t a => cases h
    | link a t => cases h
    | dir a ch => cases hn

end Node

def Node.Distinct (n : Node) : Prop :=
  ∀ cs a ch, n.get cs = some (.dir a ch) → (ch.map Prod.fst).Nodup

theorem Node.distinct_dir {a : Attr} {ch : List (FileName × Node)} (h : (ch.map Prod.fst).Nodup)
    (hch : ∀ e ∈ ch, e.2.Distinct) : (Node.dir a ch).Distinct := by
  intro cs a' ch' hget
  refine forall_get_dir (P := fun _ n => ∀ a' ch', n = .dir a' ch' → (ch'.map Prod.fst).Nodup)
    ?_ ?_ cs _ hget a' ch' rfl
  · rintro _ _ ⟨⟩
    exact h
  · rintro e he cs' m hm a'' ch'' rfl
    exact hch e he cs' a'' ch'' hm

theorem Node.distinct_of_not_isDir {n : Node} (hn : n.isDir = false) : n.Distinct := by
  intro cs a ch hget
  refine forall_get_of_not_isDir (P := fun _ n => ∀ a ch, n = .dir a ch → (ch.map Prod.fst).Nodup)
    hn ?_ cs _ hget a ch rfl
  rintro _ _ rfl
  cases hn

structure Tree where
  attr : Attr
  children : List (FileName × Node)
  distinct : (Node.dir attr children).Distinct

def Tree.root (T : Tree) : Node := .dir T.attr T.children

def Tree.get (T : Tree) (cs : List FileName) : Option Node := T.root.get cs

def pathString (cs : List FileName) : Bytes := cs.flatMap fun c => slash :: c.val

/-- The path under which the mounted file system shows a file of the tree. -/
def nodePath (cs : List FileName) : Bytes := if cs = [] then [slash] else pathString cs

/-- The path of the record that heads the entries of a directory. -/
def dirPath (cs : List FileName) : Bytes := pathString cs ++ [slash]

def direntOf (e : FileName × Node) : Dirent := ⟨e.1.val, e.2.type.dt⟩

def dotEntries : List Dirent :=
  [⟨[ch '.'], FileType.dir.dt⟩, ⟨[ch '.', ch '.'], FileType.dir.dt⟩]

/-- The system calls on `inputDir` and the paths below it show the tree. `fails` tells on which
directories `scandir` fails. What the system answers behind symbolic links is left open. -/
structure Host.Shows (host : Host) (inputDir : Bytes) (T : Tree)
    (fails : List FileName → Bool) : Prop where
  lstat_dir : ∀ cs a ch, T.get cs = some (.dir a ch) →
    host.lstat (inputDir ++ dirPath cs) = some (Node.dir a ch).stat
  lstat_node : ∀ cs node, cs ≠ [] → T.get cs = some node →
    host.lstat (inputDir ++ pathString cs) = some node.stat
  readlink_link : ∀ cs a t, T.get cs = some (.link a t) →
    host.readlink (inputDir ++ pathString cs) = some t.val
  readdir_dir : ∀ cs a ch, T.get cs = some (.dir a ch) → fails cs = false →
    ∃ ents, host.readdir (inputDir ++ pathString cs) = some ents ∧
      ents.Perm (dotEntries ++ ch.map direntOf)
  readdir_fails : ∀ cs a ch, T.get cs = some (.dir a ch) → fails cs = true →
    host.readdir (inputDir ++ pathString cs) = none

def noFailure : List FileName → Bool := fun _ => false

def dtUnknown : ℕ := 0

/-- The `struct dirent` of an entry in the directory `cs`, where `unknown` tells for which files the
system does not report the type. -/
def direntBy (unknown : List FileName → Bool) (cs : List FileName) (e : FileName × Node) : Dirent :=
  ⟨e.1.val, if unknown (cs ++ [e.1]) then dtUnknown else e.2.type.dt⟩

structure Host.ShowsFiles (host : Host) (inputDir : Bytes) (T : Tree) : Prop where
  lstat_dir : ∀ cs a ch, T.get cs = some (.dir a ch) →
    host.lstat (inputDir ++ dirPath cs) = some (Node.dir a ch).stat
  lstat_node : ∀ cs node, cs ≠ [] → T.get cs = some node →
    host.lstat (inputDir ++ pathString cs) = some node.stat
  readlink_link : ∀ cs a t, T.get cs = some (.link a t) →
    host.readlink (inputDir ++ pathString cs) = some t.val

/-- `scandir` answers as for the directories of the tree, whatever types are reported for the dot
entries. -/
structure Host.Lists (host : Host) (inputDir : Bytes) (T : Tree)
    (fails unknown : List FileName → Bool) : Prop where
  readdir_dir : ∀ cs a ch, T.get cs = some (.dir a ch) → fails cs = false →
    ∃ ents dots, host.readdir (inputDir ++ pathString cs) = some ents ∧
      dots.map Dirent.dName = dotEntries.map Dirent.dName ∧
      ents.Perm (dots ++ ch.map (direntBy unknown cs))
  readdir_fails : ∀ cs a ch, T.get cs = some (.dir a ch) → fails cs = true →
    host.readdir (inputDir ++ pathString cs) = none

section Hosts

variable {host : Host} {inputDir : Bytes} {T : Tree} {fails : List FileName → Bool}

theorem Host.Shows.files (h : host.Shows inputDir T fails) : host.ShowsFiles inputDir T :=
  ⟨h.lstat_dir, h.lstat_node, h.readlink_link⟩

theorem Host.Shows.lists (h : host.Shows inputDir T fails) :
    host.Lists inputDir T fails noFailure := by
  refine ⟨fun cs a ch hget hf => ?_, h.readdir_fails⟩
  obtain ⟨ents, hents, hperm⟩ := h.readdir_dir cs a ch hget hf
  exact ⟨ents, dotEntries, hents, rfl, hperm⟩

end Hosts

@[simp] theorem pathString_nil : pathString [] = [] := rfl

@[simp] theorem pathString_cons (c : FileName) (cs : List FileName) :
    pathString (c :: cs) = slash :: (c.val ++ pathString cs) := rfl

theorem pathString_append (cs ds : List FileName) :
    pathString (cs ++ ds) = pathString cs ++ pathString ds := List.flatMap_append

theorem pathString_concat (cs : List FileName) (c : FileName) :
    pathString (cs ++ [c]) = dirPath cs ++ c.val := by
  simp [pathString_append, dirPath]

theorem getLast?_dirPath (cs : List FileName) : (dirPath cs).getLast? = some slash := by
  simp [dirPath]

theorem getLast?_entry (cs : List FileName) (c : FileName) :
    (dirPath cs ++ c.val).getLast? ≠ some slash := by
  rw [List.getLast?_append_of_ne_nil _ c.ne_nil]
  intro h
  exact c.slash_notMem (List.mem_of_getLast? h)

theorem head?_dirPath (cs : List FileName) : (dirPath cs).head? = some slash := by
  cases cs <;> rfl

theorem count_slash_pathString (cs : List FileName) : (pathString cs).count slash = cs.length := by
  induction cs with
  | nil => rfl
  | cons c cs ih =>
    rw [pathString_cons, List.count_cons_self, List.count_append, ih,
      List.count_eq_zero_of_not_mem c.slash_notMem, List.length_cons, Nat.zero_add]

theorem findDepth_dirPath_append (cs : List FileName) {n : Bytes} (hn : slash ∉ n) :
    findDepth (dirPath cs ++ n) = cs.length + 1 := by
  have hd : (dirPath cs ++ n).head? = some slash := by
    rw [List.head?_append, head?_dirPath]; rfl
  rw [findDepth_of_head? hd, dirPath, List.count_append, List.count_append,
    count_slash_pathString, List.count_eq_zero_of_not_mem hn]
  simp

theorem findDepth_dirPath (cs : List FileName) : findDepth (dirPath cs) = cs.length + 1 := by
  simpa using findDepth_dirPath_append cs (n := []) (by simp)

/-- A string splits in only one way into a part without slashes, a slash and a rest. -/
theorem append_slash_inj {a b x y : Bytes} (ha : slash ∉ a) (hb : slash ∉ b)
    (h : a ++ slash :: x = b ++ slash :: y) : a = b ∧ x = y := by
  induction a generalizing b with
  | nil =>
    cases b with
    | nil => simpa using h
    | cons c b =>
      have : slash = c := (List.cons.inj h).1
      exact absurd (this ▸ List.mem_cons_self) hb
  | cons d a ih =>
    cases b with
    | nil =>
      have : d = slash := (List.cons.inj h).1
      exact absurd (this ▸ List.mem_cons_self) ha
    | cons c b =>
      obtain ⟨rfl, hab⟩ : d = c ∧ a ++ slash :: x = b ++ slash :: y := by simpa using h
      obtain ⟨rfl, rfl⟩ := ih (fun e => ha (List.mem_cons_of_mem _ e))
        (fun e => hb (List.mem_cons_of_mem _ e)) hab
      exact ⟨rfl, rfl⟩

theorem dirPath_prefix_iff {cs ds : List FileName} {n : Bytes} (hn : slash ∉ n) :
    dirPath cs <+: dirPath ds ++ n ↔ cs <+: ds := by
  constructor
  · intro h
    induction cs generalizing ds with
    | nil => exact List.nil_prefix
    | cons c cs ih =>
      obtain ⟨x, hx⟩ := h
      cases ds with
      | nil =>
        have hn' : c.val ++ (dirPath cs ++ x) = n := by simpa [dirPath] using hx
        have : slash ∈ n := by rw [← hn']; simp [dirPath]
        exact absurd this hn
      | cons d ds =>
        have hxs : c.val ++ (dirPath cs ++ x) = d.val ++ (dirPath ds ++ n) := by
          simpa [dirPath] using hx
        obtain ⟨u, hu⟩ := List.head?_eq_some_iff.mp (head?_dirPath cs)
        obtain ⟨v, hv⟩ := List.head?_eq_some_iff.mp (head?_dirPath ds)
        rw [hu, hv] at hxs
        obtain ⟨hcd, huv⟩ : c.val = d.val ∧ u ++ x = v ++ n :=
          append_slash_inj c.slash_notMem d.slash_notMem hxs
        obtain rfl := FileName.ext hcd
        refine List.cons_prefix_cons.mpr ⟨rfl, ih ⟨x, ?_⟩⟩
        rw [hu, hv, List.cons_append, List.cons_append, huv]
  · rintro ⟨es, rfl⟩
    cases es with
    | nil => simp
    | cons e es =>
      rw [dirPath, dirPath, pathString_append, pathString_cons]
      exact ⟨e.val ++ pathString es ++ [slash] ++ n, by simp⟩

theorem dirPath_append_inj {cs ds : List FileName} {m n : Bytes} (hm : slash ∉ m) (hn : slash ∉ n)
    (h : dirPath cs ++ m = dirPath ds ++ n) : cs = ds ∧ m = n := by
  have h1 : cs <+: ds := (dirPath_prefix_iff hn).mp (h ▸ List.prefix_append _ _)
  have h2 : ds <+: cs := (dirPath_prefix_iff hm).mp (h ▸ List.prefix_append _ _)
  have hcd : cs = ds := h1.eq_of_length (le_antisymm h1.length_le h2.length_le)
  subst hcd
  exact ⟨rfl, List.append_cancel_left h⟩

end CatalogFS
