import CatalogFS.CLib.Numeral

namespace CatalogFS

open CLib

def maxPathLen : ℕ := 4096

def slash : Byte := 47

/-- The separator `\1` of the record format, also its padding. -/
def sep : Byte := 1

/-- The separator `\2` between the path of a link and its target. -/
def linkSep : Byte := 2

structure Stat where
  stMode : UInt32
  stNlink : UInt64
  stUid : UInt32
  stGid : UInt32
  stSize : Int64
  stAtime : Int64
  stMtime : Int64
  stCtime : Int64
  deriving DecidableEq

def Stat.zero : Stat := ⟨0, 0, 0, 0, 0, 0, 0, 0⟩

inductive FileType
  | fifo | chr | dir | blk | reg | lnk | sock
  deriving DecidableEq

/-- The `DT_*` code of a file type, which is also the top of its `st_mode`. -/
def FileType.dt : FileType → ℕ
  | .fifo => 1
  | .chr => 2
  | .dir => 4
  | .blk => 6
  | .reg => 8
  | .lnk => 10
  | .sock => 12

def FileType.letter : FileType → Byte
  | .fifo => ch 'p'
  | .chr => ch 'c'
  | .dir => ch 'd'
  | .blk => ch 'b'
  | .reg => ch 'f'
  | .lnk => ch 'l'
  | .sock => ch 's'

theorem FileType.letter_injective : Function.Injective FileType.letter := by
  intro t u
  cases t <;> cases u <;> decide

def FileType.mode (t : FileType) (perm : BitVec 12) : UInt32 :=
  UInt32.ofNat (t.dt * 4096 + perm.toNat)

/-- `stat_wdf`: attributes with the depth, the path and, for links, the target. -/
structure StatWdf where
  depth : ℤ
  filePath : Bytes
  stData : Stat
  linkDest : Bytes
  deriving DecidableEq

/-- `findDepth`: the number of slashes of an absolute path, `-1` for any other string. -/
def findDepth (path : Bytes) : ℤ :=
  if path.head? = some slash then path.count slash else -1

theorem findDepth_slash_cons (s : Bytes) : findDepth (slash :: s) = s.count slash + 1 := by
  simp [findDepth]

theorem findDepth_of_head? {p : Bytes} (h : p.head? = some slash) : findDepth p = p.count slash := by
  simp [findDepth, h]

theorem findDepth_of_head?_ne {p : Bytes} (h : p.head? ≠ some slash) : findDepth p = -1 := by
  simp [findDepth, h]

theorem findDepth_pos {p : Bytes} (h : p.head? = some slash) : 0 < findDepth p := by
  cases p with
  | nil => simp at h
  | cons b s =>
    obtain rfl : b = slash := by simpa using h
    rw [findDepth_slash_cons]
    positivity

theorem head?_of_findDepth_pos {p : Bytes} (h : 0 < findDepth p) : p.head? = some slash := by
  by_contra hp
  rw [findDepth_of_head?_ne hp] at h
  omega

theorem findDepth_append {p : Bytes} (h : p.head? = some slash) (q : Bytes) :
    findDepth (p ++ q) = findDepth p + q.count slash := by
  have hpq : (p ++ q).head? = some slash := by rw [List.head?_append, h]; rfl
  rw [findDepth_of_head? hpq, findDepth_of_head? h, List.count_append]
  push_cast
  rfl

theorem findDepth_le_length (p : Bytes) : findDepth p ≤ p.length := by
  unfold findDepth
  split_ifs
  · exact_mod_cast List.count_le_length
  · omega

theorem FileType.mode_toNat (t : FileType) (perm : BitVec 12) :
    (t.mode perm).toNat = t.dt * 4096 + perm.toNat := by
  have := perm.isLt
  rw [FileType.mode, UInt32.toNat_ofNat', Nat.mod_eq_of_lt]
  cases t <;> simp only [FileType.dt] <;> omega

/-- `st_mode & 07777`. -/
theorem FileType.mode_and_perm (t : FileType) (perm : BitVec 12) :
    (t.mode perm &&& 0o7777).toNat = perm.toNat := by
  have := perm.isLt
  rw [UInt32.toNat_and, FileType.mode_toNat]
  change (t.dt * 4096 + perm.toNat) &&& (2 ^ 12 - 1) = _
  rw [Nat.and_two_pow_sub_one_eq_mod]
  omega

/-- `(st_mode & 0170000) >> 12`. -/
theorem FileType.mode_type (t : FileType) (perm : BitVec 12) :
    ((t.mode perm &&& 0o170000) >>> 12).toNat = t.dt := by
  have := perm.isLt
  rw [UInt32.toNat_shiftRight, UInt32.toNat_and, FileType.mode_toNat]
  change ((t.dt * 4096 + perm.toNat) &&& 0o170000) >>> 12 = _
  rw [Nat.shiftRight_and_distrib, Nat.shiftRight_eq_div_pow]
  change _ &&& (2 ^ 4 - 1) = _
  rw [Nat.and_two_pow_sub_one_eq_mod]
  cases t <;> simp only [FileType.dt] <;> omega

end CatalogFS
