import CatalogFS.Stat
import CatalogFS.CLib.Scanf

/-!
# `catalogfs`

The file-system side as the source computes it. A record is read by opening the catalog, seeking
to an `int` offset, reading `entry_size` bytes and scanning them; every lookup is a series of such
reads. What one read meets is a `Probe`: the content of the catalog at that moment, whether the
system calls fail, and what the uninitialised variables of the function hold. A computation takes
the sequence of probes it will meet and counts them off, so the catalog may change between any two
reads.
-/

namespace CatalogFS

open CLib

/-- The variables of `getEntry_from_catalog` that `sscanf` and the link branch assign. `%lo`
stores an `unsigned long` in `mode`. -/
structure Locals where
  c : Byte
  mode : UInt64
  nlink : Int64
  uid : Int64
  gid : Int64
  size : Int64
  atime : Int64
  mtime : Int64
  ctime : Int64
  depth : ℤ
  filePath : Bytes
  linkDest : Bytes
  deriving DecidableEq

/-- What one call of `getEntry_from_catalog` meets. -/
structure Probe where
  /-- The bytes of the catalog file; `none` when it cannot be opened. -/
  content : Option Bytes
  seekFails : Bool
  readFails : Bool
  /-- What the variables held before the call. -/
  stale : Locals
  /-- What the buffer `entry` held before the call. -/
  staleEntry : ℕ → Byte

/-- The state of the process that lookups change: how many records were asked for, how many file
descriptors are open, and which locations were asked for. -/
structure World where
  probes : ℕ
  openFds : ℕ
  locations : List ℤ
  deriving DecidableEq

/-- A computation of the file system; `none` when the process exits or does not return. -/
abbrev M := ReaderT (ℕ → Probe) (StateT World Option)

structure Globals where
  entrySize : ℕ
  catalogLen : ℕ
  deriving DecidableEq

def ENOENT : ℤ := 2

def entryFormat : List Directive :=
  [.char, .space, .num 8, .space, .num 10, .space, .num 10, .space, .num 10, .space, .num 10,
    .space, .num 10, .space, .num 10, .space, .num 10, .space, .num 10, .space, .lit sep,
    .until sep, .lit (ch 's'), .lit sep, .space]

def setChar (f : Byte → Locals → Locals) : Item → Locals → Locals
  | .char b => f b
  | _ => id

def setNum (f : ℤ → Locals → Locals) : Item → Locals → Locals
  | .num z => f z
  | _ => id

def setStr (f : Bytes → Locals → Locals) : Item → Locals → Locals
  | .str s => f s
  | _ => id

def entryArgs : List (Item → Locals → Locals) :=
  [setChar fun b l => { l with c := b },
    setNum fun z l => { l with mode := toULong z },
    setNum fun z l => { l with nlink := toLong z },
    setNum fun z l => { l with uid := toLong z },
    setNum fun z l => { l with gid := toLong z },
    setNum fun z l => { l with size := toLong z },
    setNum fun z l => { l with atime := toLong z },
    setNum fun z l => { l with mtime := toLong z },
    setNum fun z l => { l with ctime := toLong z },
    setNum fun z l => { l with depth := toInt (toLong z).toInt },
    setStr fun s l => { l with filePath := s }]

def assignItems (l : Locals) (items : List Item) : Locals :=
  (entryArgs.zip items).foldl (fun l p => p.1 p.2 l) l

def addTypeBits (c : Byte) (mode : UInt64) : UInt64 :=
  if c = ch 'd' then 0o040000 ||| mode
  else if c = ch 'l' then 0o120000 ||| mode
  else if c = ch 'f' then 0o100000 ||| mode
  else if c = ch 'b' then 0o060000 ||| mode
  else if c = ch 'c' then 0o020000 ||| mode
  else if c = ch 'p' then 0o010000 ||| mode
  else if c = ch 's' then 0o140000 ||| mode
  else mode

/-- What `getEntry_from_catalog` makes of its variables after the `sscanf`. A link is split at the
first `\2`; without one its target is what `link_dest` held. -/
def entryOfLocals (l : Locals) : StatWdf :=
  let stData : Stat :=
    { stMode := (addTypeBits l.c l.mode).toUInt32
      stNlink := l.nlink.toUInt64
      stUid := l.uid.toUInt64.toUInt32
      stGid := l.gid.toUInt64.toUInt32
      stSize := l.size
      stAtime := l.atime
      stMtime := l.mtime
      stCtime := l.ctime }
  if l.c = ch 'l' then
    let temp := l.filePath.takeWhile (· ≠ linkSep)
    let linkDest :=
      if l.filePath.length ≠ temp.length then l.filePath.drop (temp.length + 1) else l.linkDest
    ⟨l.depth, temp, stData, linkDest⟩
  else ⟨l.depth, l.filePath, stData, []⟩

/-- The buffer `entry` after `read`: the bytes that were there to read, then what it held. -/
def readEntry (content : Bytes) (offset size : ℕ) (stale : ℕ → Byte) : Bytes :=
  let bytes := (content.drop offset).take size
  bytes ++ (List.range (size - bytes.length)).map fun i => stale (bytes.length + i)

/-- `getEntry_from_catalog`; the result `none` stands for `-1`. The two early returns leave the
descriptor open. The array `entry[entry_size + 1]` has room, see `EntryFits`, and so have the buffers
for strings, see `getEntryFromCatalogBounded`. -/
def getEntryFromCatalog (g : Globals) (location : ℤ) : M (Option StatWdf) := fun probes w =>
  let p := probes w.probes
  let w := { w with probes := w.probes + 1, locations := w.locations ++ [location] }
  match p.content with
  -- without a catalog the process exits
  | none => none
  | some content =>
    let opened := { w with openFds := w.openFds + 1 }
    -- an `int`, so it may have wrapped
    let offset := toInt (g.entrySize * location)
    if p.seekFails || offset < 0 then some (none, opened)
    else if p.readFails then some (none, opened)
    else
      let entry := readEntry content offset.toNat g.entrySize p.staleEntry
      -- variables that the scan does not reach keep what they held
      let l := assignItems p.stale (sscanf entryFormat (cstr entry))
      some (some (entryOfLocals l), w)

def getEntryDepthFilepath (g : Globals) (location : ℤ) : M (Option (ℤ × Bytes)) := do
  match ← getEntryFromCatalog g location with
  | none => return none
  | some st => return some (st.depth, st.filePath)

def getEntryFilepath (g : Globals) (location : ℤ) : M (Option Bytes) := do
  match ← getEntryDepthFilepath g location with
  | none => return none
  | some (_, filePath) => return some filePath

def calculateMid (low high : ℤ) : ℤ := low + (high - low).tdiv 2

structure Window where
  low : ℤ
  high : ℤ
  mid : ℤ
  depth : ℤ
  deriving DecidableEq

/-- The loop of `find_index`. Like the other loops it gets as many steps as it is expected to take;
one that would go on without steps left counts as a call that does not return. -/
def findIndexLoop (g : Globals) (searchPathDepth : ℤ) : ℕ → Window → M (Option Window)
  | 0, w => if w.low ≤ w.high then failure else return some w
  | fuel + 1, w => do
    if w.low ≤ w.high then
      let mid := calculateMid w.low w.high
      match ← getEntryDepthFilepath g mid with
      | none => return none
      | some (depth, _) =>
        let w := { w with mid, depth }
        if depth = searchPathDepth then return some w
        else if depth < searchPathDepth then
          findIndexLoop g searchPathDepth fuel { w with low := mid + 1 }
        else findIndexLoop g searchPathDepth fuel { w with high := mid - 1 }
    else return some w

def findIndex (g : Globals) (searchPathDepth : ℤ) (w : Window) : M (Option Window) :=
  findIndexLoop g searchPathDepth (w.high - w.low + 1).toNat w

/-- The loop of `find_lowest_index`: the index after the loop and the last depth read. -/
def findLowestLoop (g : Globals) (searchPathDepth low : ℤ) : ℕ → ℤ → ℤ → M (Option (ℤ × ℤ))
  | 0, i, depth => if depth = searchPathDepth then failure else return some (i, depth)
  | fuel + 1, i, depth => do
    if depth = searchPathDepth then
      if i - 1 < low then return some (i - 1, depth)
      else
        match ← getEntryDepthFilepath g (i - 1) with
        | none => return none
        | some (depth, _) => findLowestLoop g searchPathDepth low fuel (i - 1) depth
    else return some (i, depth)

def findLowestIndex (g : Globals) (searchPathDepth : ℤ) (w : Window) : M (Option Window) := do
  match ← findLowestLoop g searchPathDepth w.low (w.mid - w.low + 2).toNat w.mid w.depth with
  | none => return none
  | some (i, depth) => return some { w with low := i + 1, depth }

def findHighestLoop (g : Globals) (searchPathDepth high : ℤ) : ℕ → ℤ → ℤ → M (Option (ℤ × ℤ))
  | 0, i, depth => if depth = searchPathDepth then failure else return some (i, depth)
  | fuel + 1, i, depth => do
    if depth = searchPathDepth then
      if i + 1 > high then return some (i + 1, depth)
      else
        match ← getEntryDepthFilepath g (i + 1) with
        | none => return none
        | some (depth, _) => findHighestLoop g searchPathDepth high fuel (i + 1) depth
    else return some (i, depth)

def findHighestIndex (g : Globals) (searchPathDepth : ℤ) (w : Window) : M (Option Window) := do
  match ← findHighestLoop g searchPathDepth w.high (w.high - w.mid + 2).toNat w.mid w.depth with
  | none => return none
  | some (i, depth) => return some { w with high := i - 1, depth }

def searchPathLoop (g : Globals) (searchPath : Bytes) : ℕ → ℤ → ℤ → M ℤ
  | 0, low, high => if low ≤ high then failure else return -1
  | fuel + 1, low, high => do
    if low ≤ high then
      let mid := calculateMid low high
      match ← getEntryFilepath g mid with
      | none => return -1
      | some filePath =>
        match strcmp filePath searchPath with
        | .eq => return mid
        | .lt => searchPathLoop g searchPath fuel (mid + 1) high
        | .gt => searchPathLoop g searchPath fuel low (mid - 1)
    else return -1

/-- `binSearch`: the location of a path, or a negative number. The result is a `long` returned as
an `int`. -/
def binSearch (g : Globals) (searchPath : Bytes) : M ℤ := do
  let searchPathDepth := findDepth searchPath
  if searchPathDepth ≤ 0 then return -1
  else
    match ← findIndex g searchPathDepth ⟨0, g.catalogLen - 1, 0, 1⟩ with
    | none => return -1
    | some w =>
      if w.low > w.high then return -1
      else
        match ← findLowestIndex g searchPathDepth w with
        | none => return -1
        | some w =>
          match ← findHighestIndex g searchPathDepth { w with depth := searchPathDepth } with
          | none => return -1
          | some w =>
            let result ← searchPathLoop g searchPath (w.high - w.low + 1).toNat w.low w.high
            return toInt result

/-- The loop of `get_directory_contents`: the first location after `i` that is not an entry of
the directory, or `none` if a record cannot be read. -/
def contentsLoop (g : Globals) (filePath : Bytes) (depth : ℤ) : ℕ → ℤ → M (Option ℤ)
  | 0, _ => failure
  | fuel + 1, i => do
    let i := i + 1
    if i ≥ g.catalogLen then return some i
    else
      match ← getEntryDepthFilepath g i with
      | none => return none
      | some (entryDepth, entryFilePath) =>
        if entryDepth ≠ depth ∨ strncmp filePath entryFilePath filePath.length ≠ .eq then
          return some i
        else contentsLoop g filePath depth fuel i

/-- `get_directory_contents`: the locations of a directory and of its last entry; `none` is a
negative result. -/
def getDirectoryContents (g : Globals) (filePath : Bytes) : M (Option (ℤ × ℤ)) := do
  if filePath.getLast? ≠ some slash then return none
  else
    let low ← binSearch g filePath
    if low < 0 then return none
    else
      let depth := findDepth filePath
      if depth ≤ 0 then return none
      else
        match ← contentsLoop g filePath depth (g.catalogLen - low + 1).toNat low with
        | none => return none
        | some i => return some (low, i - 1)

def getattrByLocation (g : Globals) (location : ℤ) : M (Option Stat) := do
  match ← getEntryFromCatalog g location with
  | none => return none
  | some st => return some st.stData

def getattrByPath (g : Globals) (path : Bytes) : M (Option Stat) := do
  let location ← binSearch g path
  if location < 0 then return none else getattrByLocation g location

def catalogGetattr (g : Globals) (path : Bytes) : M (ℤ × Stat) := do
  match ← getattrByPath g path with
  | none => return (-ENOENT, Stat.zero)
  | some st => return (0, st)

structure Filled where
  name : Bytes
  st : Option Stat
  deriving DecidableEq

/-- `fuse_fill_dir_t`: the result for an entry, given the entries it was handed before. -/
abbrev Filler := List Filled → Filled → ℤ

def dots : List Filled := [⟨[ch '.'], none⟩, ⟨[ch '.', ch '.'], none⟩]

def basename (path : Bytes) : Bytes := (path.reverse.takeWhile (· ≠ slash)).reverse

def readdirLoop (g : Globals) (filler : Filler) (high : ℤ) : ℕ → ℤ → List Filled → M (List Filled)
  | 0, location, buf => if location ≤ high then failure else return buf
  | fuel + 1, location, buf => do
    if location ≤ high then
      -- the record is read twice, and skipped if either read fails
      let st ← getattrByLocation g location
      let pathname ← getEntryFilepath g location
      match st, pathname with
      | some st, some pathname =>
        let entry : Filled := ⟨basename pathname, some st⟩
        if filler buf entry ≠ 0 then return buf ++ [entry]
        else readdirLoop g filler high fuel (toInt (location + 1)) (buf ++ [entry])
      | _, _ => readdirLoop g filler high fuel (toInt (location + 1)) buf
    else return buf

/-- `catalog_readdir`: the result and the entries handed to the filler. The slash is appended in the
caller's block, which has to have room for it: `catalogReaddirIn`. -/
def catalogReaddir (g : Globals) (filler : Filler) (path : Bytes) : M (ℤ × List Filled) := do
  let path := if strcmp path [slash] ≠ .eq then path ++ [slash] else path
  match ← getDirectoryContents g path with
  | none => return (-ENOENT, dots)
  | some (low, high) =>
    if low < 0 ∨ high < 0 then return (-ENOENT, dots)
    else
      let first := toInt (low + 1)
      let buf ← readdirLoop g filler high (high - first + 1).toNat first dots
      return (0, buf)

def strncpy (dest src : Bytes) (n : ℕ) : Bytes :=
  src.take n ++ List.replicate (n - src.length) 0 ++ dest.drop n

/-- `catalog_readlink`: the result and the content of `buf`. For a `size` of zero the count is
`SIZE_MAX` in the source, where nothing is copied here. -/
def catalogReadlink (g : Globals) (path buf : Bytes) (size : ℕ) : M (ℤ × Bytes) := do
  let location ← binSearch g path
  if location < 0 then return (-ENOENT, buf)
  else
    match ← getEntryFromCatalog g location with
    | none => return (-ENOENT, buf)
    | some st => return (0, strncpy buf st.linkDest (size - 1))

end CatalogFS
