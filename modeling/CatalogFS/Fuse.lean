import CatalogFS.MountedView
import CatalogFS.Readlink

/-!
# System calls on a mounted catalog

Between the system calls and the operations of `catalogfs` stands the FUSE library. It puts the path
of a file together from the names of its nodes, from the last one to the first, in a buffer of
`FUSE_MAX_PATH` bytes; it makes a `dirent` of each name and attributes that `readdir` fills; and it
ends the buffer of `readlink` with a NUL. The kernel looks up the components of a path one after
another. This is what the system calls below a mount point answer.
-/

namespace CatalogFS

open CLib

def fuseMaxPath : ℕ := 4096

def pathMax : ℕ := 4096

/-- `add_name`, where `s` is the position in the buffer and what stands from there on. -/
def addName (s : ℕ × Bytes) (name : Bytes) : Option (ℕ × Bytes) :=
  if s.1 ≤ name.length then none else some (s.1 - name.length - 1, slash :: (name ++ s.2))

def getPathName (names : List Bytes) : Option Bytes := do
  let s ← names.reverse.foldlM addName (fuseMaxPath - 1, [])
  return if s.2 = [] then [slash] else s.2

/-- `convert_stat`: the attributes as they are sent, the number of links in 32 bits. -/
def Stat.convert (st : Stat) : Stat := { st with stNlink := st.stNlink.toUInt32.toUInt64 }

def fuseLibGetattr (g : Globals) (names : List Bytes) : M (Option Stat) := do
  match getPathName names with
  | none => return none
  | some path =>
    let (err, st) ← catalogGetattr g path
    if err ≠ 0 then return none else return some st.convert

def fuseLibLookup (g : Globals) (parent : List Bytes) (name : Bytes) : M (Option Stat) :=
  fuseLibGetattr g (parent ++ [name])

def Stat.dt (st : Stat) : ℕ := ((st.stMode &&& 0o170000) >>> 12).toNat

/-- `fill_dir` with `fuse_add_dirent`: without attributes the type is zero. -/
def fillDir (e : Filled) : Dirent := ⟨e.name, (e.st.getD Stat.zero).dt⟩

/-- `fuse_lib_readdir`, when `realloc` succeeds: all entries, or `none` for an error. `room` is what
`strdup` leaves behind the path. -/
def fuseLibReaddir (room : Bytes → ℕ) (g : Globals) (names : List Bytes) :
    M (Option (List Dirent)) := do
  match getPathName names with
  | none => return none
  | some path =>
    let (err, filled) ← catalogReaddirIn room g roomy path
    if err ≠ 0 then return none else return some (filled.map fillDir)

/-- `fuse_lib_readlink`, where `linkname` is what the array of `PATH_MAX + 1` bytes held. -/
def fuseLibReadlink (g : Globals) (linkname : Bytes) (names : List Bytes) : M (Option Bytes) := do
  match getPathName names with
  | none => return none
  | some path =>
    let (err, linkname) ← catalogReadlink g path linkname (pathMax + 1)
    if err ≠ 0 then return none else return some (cstr (linkname.set pathMax 0))

/-- How a system call on a path ends; a symbolic link on the way may lead it out of the mounted file
system. -/
inductive Answer (α : Type)
  | found (a : α)
  | absent
  | elsewhere

def Answer.Gives {α : Type} : Answer α → Option α → Prop
  | .found a, r => r = some a
  | .absent, r => r = none
  | .elsewhere, _ => True

def Answer.ofOption {α : Type} : Option α → Answer α
  | some a => .found a
  | none => .absent

def Stat.isDir (st : Stat) : Bool := st.dt = FileType.dir.dt

def Stat.isLink (st : Stat) : Bool := st.dt = FileType.lnk.dt

/-- The kernel looks up one name after another, starting from a file with the attributes `st`. -/
def walk (g : Globals) (parent : List Bytes) (st : Stat) : List Bytes → M (Answer Stat)
  | [] => return .found st
  | name :: names => do
    if st.isLink then return .elsewhere
    else if !st.isDir then return .absent
    else
      match ← fuseLibLookup g parent name with
      | none => return .absent
      | some st => walk g (parent ++ [name]) st names

/-- The root of a mounted file system is a directory, whatever its attributes. -/
def rootStat : Stat := { Stat.zero with stMode := 0o040000 }

def mountLstat (g : Globals) (names : List Bytes) (withSlash : Bool) : M (Answer Stat) := do
  match ← walk g [] rootStat names with
  | .found st =>
    if withSlash && st.isLink then return .elsewhere
    else if withSlash && !st.isDir then return .absent
    else return .ofOption (← fuseLibGetattr g names)
  | .absent => return .absent
  | .elsewhere => return .elsewhere

def mountReaddir (room : Bytes → ℕ) (g : Globals) (names : List Bytes) :
    M (Answer (List Dirent)) := do
  match ← walk g [] rootStat names with
  | .found st =>
    if st.isLink then return .elsewhere
    else if !st.isDir then return .absent
    else return .ofOption (← fuseLibReaddir room g names)
  | .absent => return .absent
  | .elsewhere => return .elsewhere

def mountReadlink (g : Globals) (linkname : Bytes) (names : List Bytes) : M (Answer Bytes) := do
  match ← walk g [] rootStat names with
  | .found st =>
    if st.isLink then return .ofOption (← fuseLibReadlink g linkname names) else return .absent
  | .absent => return .absent
  | .elsewhere => return .elsewhere

/-- A path that the kernel takes: with a NUL behind it, it has at most `PATH_MAX` bytes, and no
component has more than 255. -/
def Takes (path : Bytes) (cs : List FileName) : Prop :=
  path.length < pathMax ∧ ∀ c ∈ cs, c.val.length ≤ 255

/-- The catalog is mounted: the system calls on the mount point and the paths below it give what the
calls of the file system return. -/
structure Host.MountedAt (host : Host) (mountPoint : Bytes) (stack : ℕ) (room : Bytes → ℕ)
    (g : Globals) (probes : ℕ → Probe) : Prop where
  lstat : ∀ cs a, Takes (mountPoint ++ pathString cs) cs →
    Returns probes (withEntry stack g (mountLstat g (cs.map FileName.val) false)) a →
      a.Gives (host.lstat (mountPoint ++ pathString cs))
  lstat_slash : ∀ cs a, Takes (mountPoint ++ dirPath cs) cs →
    Returns probes (withEntry stack g (mountLstat g (cs.map FileName.val) true)) a →
      a.Gives (host.lstat (mountPoint ++ dirPath cs))
  readdir : ∀ cs a, Takes (mountPoint ++ pathString cs) cs →
    Returns probes (withEntry stack g (mountReaddir room g (cs.map FileName.val))) a →
      a.Gives (host.readdir (mountPoint ++ pathString cs))
  readlink : ∀ cs a, Takes (mountPoint ++ pathString cs) cs →
    (∀ linkname : Bytes, linkname.length = pathMax + 1 →
      Returns probes (withEntry stack g (mountReadlink g linkname (cs.map FileName.val))) a) →
        a.Gives (host.readlink (mountPoint ++ pathString cs))

theorem Node.dt_stat (node : Node) : node.stat.dt = node.type.dt := FileType.mode_type _ _

theorem Stat.isDir_of_dt {st : Stat} {node : Node} (h : st.dt = node.type.dt) :
    st.isDir = node.isDir := by
  rw [Stat.isDir, h]
  cases node with
  | leaf t a => cases t <;> rfl
  | link a t => rfl
  | dir a ch => rfl

theorem Stat.isLink_of_dt {st : Stat} {node : Node} (h : st.dt = node.type.dt) :
    st.isLink = decide (node.type = .lnk) := by
  rw [Stat.isLink, h]
  cases node with
  | leaf t a => cases t <;> rfl
  | link a t => rfl
  | dir a ch => rfl

theorem foldlM_addName (names : List Bytes) (room : ℕ) (s : Bytes) :
    names.foldlM addName (room, s) =
      if (names.flatMap (slash :: ·)).length ≤ room then
        some (room - (names.flatMap (slash :: ·)).length, names.reverse.flatMap (slash :: ·) ++ s)
      else none := by
  induction names generalizing room s with
  | nil => simp
  | cons name names ih =>
    rw [List.foldlM_cons, addName]
    dsimp only
    by_cases hroom : room ≤ name.length
    · rw [if_pos hroom, if_neg]
      · rfl
      · simp only [List.flatMap_cons, List.length_append, List.length_cons]
        omega
    · rw [if_neg hroom]
      change names.foldlM addName _ = _
      rw [ih]
      simp only [List.flatMap_cons, List.length_append, List.length_cons, List.reverse_cons,
        List.flatMap_append, List.flatMap_nil, List.append_nil, List.append_assoc, List.cons_append]
      by_cases hfits : (names.flatMap (slash :: ·)).length ≤ room - name.length - 1
      · rw [if_pos hfits, if_pos (by omega)]
        congr 2
        omega
      · rw [if_neg hfits, if_neg (by omega)]

theorem flatMap_slash (cs : List FileName) :
    (cs.map FileName.val).flatMap (slash :: ·) = pathString cs := by
  rw [List.flatMap_map]
  rfl

/-- The library passes every path that fits its buffer, in the form `/` or without a slash at the end. -/
theorem getPathName_map_val (cs : List FileName) :
    getPathName (cs.map FileName.val) =
      if (pathString cs).length < fuseMaxPath then some (nodePath cs) else none := by
  have hlen : ((cs.map FileName.val).reverse.flatMap (slash :: ·)).length = (pathString cs).length := by
    rw [← flatMap_slash, List.length_flatMap, List.length_flatMap, List.map_reverse, List.sum_reverse]
  rw [getPathName, foldlM_addName, hlen, List.reverse_reverse, flatMap_slash, List.append_nil]
  by_cases hfits : (pathString cs).length ≤ fuseMaxPath - 1
  · rw [if_pos hfits, if_pos (by unfold fuseMaxPath at hfits ⊢; omega)]
    cases cs with
    | nil => rfl
    | cons c cs => rfl
  · rw [if_neg hfits, if_neg (by unfold fuseMaxPath at hfits ⊢; omega)]
    rfl

end CatalogFS
