import CatalogFS.Stat
import CatalogFS.CLib.Lines

/-!
# `generate_catalog`

The generator as the source computes it: one record for each directory, with a trailing slash,
and one for each of its entries, breadth first; then every line padded to the length of the
longest. The message for a directory that cannot be scanned, which can end the run, is in `Messages`.
Lengths are natural numbers, so the casts to `int` in `pad_each_line` only agree with the source below
`2^31`.
-/

namespace CatalogFS

open CLib

structure Dirent where
  dName : Bytes
  dType : ℕ
  deriving DecidableEq

/-- What a run meets: the answers of the system calls, by path string, and the memory that is
read without having been written when `lstat` or `readlink` fails. -/
structure Host where
  lstat : Bytes → Option Stat
  readlink : Bytes → Option Bytes
  /-- The entries of a directory in the order the system enumerates them, dot entries included. -/
  readdir : Bytes → Option (List Dirent)
  staleStat : Bytes → Stat
  staleLink : Bytes → Bytes

/-- `filter`: everything but the dot entries. -/
def filter (ent : Dirent) : Bool :=
  !(ent.dName = [ch '.'] || ent.dName = [ch '.', ch '.'])

/-- `alphasort` in the C locale. -/
def alphasort (a b : Dirent) : Ordering := strcmp a.dName b.dName

/-- `scandir(dir, &namelist, filter, alphasort)`; `none` is a negative result. -/
def scandir (host : Host) (dir : Bytes) : Option (List Dirent) :=
  (host.readdir dir).map fun ents =>
    (ents.filter filter).insertionSort fun a b => alphasort a b ≠ .gt

structure Record where
  c : Byte
  mode : ℕ
  nlink : ℤ
  uid : ℤ
  gid : ℤ
  size : ℤ
  atime : ℤ
  mtime : ℤ
  ctime : ℤ
  depth : ℤ
  path : Bytes
  linkDest : Bytes
  deriving DecidableEq

def Record.numbers (r : Record) : List Bytes :=
  [octal r.mode, decimal r.nlink, decimal r.uid, decimal r.gid, decimal r.size, decimal r.atime,
    decimal r.mtime, decimal r.ctime, decimal r.depth]

/-- What stands between the separators: the path, and for a link also `\2` and the target. -/
def Record.name (r : Record) : Bytes :=
  if r.c = ch 'l' then r.path ++ linkSep :: r.linkDest else r.path

/-- The line before its final `\1` and newline:
`"%c %lo %ld %ld %ld %lld %lld %lld %lld %d \1%s"`, with `\2%s` for a link. -/
def Record.body (r : Record) : Bytes :=
  r.c :: (r.numbers.flatMap (32 :: ·) ++ 32 :: sep :: r.name)

def Record.text (r : Record) : Bytes := r.body ++ [sep, newline]

/-- The letter of the type bits of a mode; a regular file is assumed for any other code. -/
def typeLetter (temp : ℕ) : Byte :=
  match temp with
  | 1 => ch 'p'
  | 2 => ch 'c'
  | 4 => ch 'd'
  | 6 => ch 'b'
  | 8 => ch 'f'
  | 10 => ch 'l'
  | 12 => ch 's'
  | _ => ch 'f'

/-- `print_entry_to_catalog`; `none` is the `exit` on an empty `input_dir`. -/
def printEntryToCatalog (stWdf : StatWdf) (inputDir : Bytes) : Option Record :=
  if inputDir.length = 0 then none
  else
    let st := stWdf.stData
    let path := stWdf.filePath.drop inputDir.length
    some
      { c := typeLetter ((st.stMode &&& 0o170000) >>> 12).toNat
        mode := (st.stMode &&& 0o7777).toNat
        nlink := st.stNlink.toInt64.toInt
        uid := st.stUid.toNat
        gid := st.stGid.toNat
        size := st.stSize.toInt
        atime := st.stAtime.toInt
        mtime := st.stMtime.toInt
        ctime := st.stCtime.toInt
        depth := findDepth path
        path := path
        linkDest := stWdf.linkDest }

/-- `print_to_catalog`. When `lstat` or `readlink` fails the run goes on with what the memory
held. -/
def printToCatalog (host : Host) (path inputDir : Bytes) : Option Record :=
  -- a failed call only prints a message
  let stData := (host.lstat path).getD (host.staleStat path)
  let linkDest :=
    if ((stData.stMode &&& 0o170000) >>> 12).toNat = FileType.lnk.dt then
      match host.readlink path with
      | some target => target.take (maxPathLen - 1)
      | none => host.staleLink path
    else []
  printEntryToCatalog ⟨findDepth path, path, stData, linkDest⟩ inputDir

def insertQueue (queue : List Bytes) (dirname : Bytes) : List Bytes := queue ++ [dirname]

def removeQueue : List Bytes → Option (Bytes × List Bytes)
  | [] => none
  | dirname :: queue => some (dirname, queue)

structure Listing where
  queue : List Bytes
  catalog : List Record
  deriving DecidableEq

def Listing.print (host : Host) (inputDir path : Bytes) (s : Listing) : Option Listing :=
  (printToCatalog host path inputDir).map fun r => { s with catalog := s.catalog ++ [r] }

def listChild (host : Host) (inputDir currentDir : Bytes) (s : Listing) (ent : Dirent) :
    Option Listing := do
  let temp := currentDir ++ slash :: ent.dName
  let s ← s.print host inputDir temp
  -- the queue trusts `d_type`, the record trusts `lstat`
  if ent.dType = FileType.dir.dt then
    return { s with queue := insertQueue s.queue temp }
  else
    return s

/-- One iteration of the loop over the queue: the directory itself, then its entries. A directory that
`scandir` fails on has a name that `error` can print; `listDirReporting` is the loop for any name. -/
def listDir (host : Host) (inputDir currentDir : Bytes) (s : Listing) : Option Listing := do
  let s ← s.print host inputDir (currentDir ++ [slash])
  match scandir host currentDir with
  -- its own record has been written already
  | none => return s
  | some namelist => namelist.foldlM (listChild host inputDir currentDir) s

def catalogListingLoop (host : Host) (inputDir : Bytes) : ℕ → Listing → Option (List Record)
  | 0, s =>
    match removeQueue s.queue with
    | none => some s.catalog
    | some _ => none
  | fuel + 1, s =>
    match removeQueue s.queue with
    | none => some s.catalog
    | some (currentDir, queue) => do
      let s ← listDir host inputDir currentDir { s with queue }
      catalogListingLoop host inputDir fuel s

/-- `catalog_listing`, with at most `fuel` iterations of its loop; `none` if it needs more or the
process exits. -/
def catalogListing (host : Host) (inputDir : Bytes) (fuel : ℕ) : Option (List Record) :=
  catalogListingLoop host inputDir fuel ⟨insertQueue [] inputDir, []⟩

/-- The run of `catalog_listing` on `inputDir` ends and has written these records. -/
def Writes (host : Host) (inputDir : Bytes) (recs : List Record) : Prop :=
  ∃ fuel, catalogListing host inputDir fuel = some recs

def maxLen (file : Bytes) : ℕ := (lines file).foldl (fun m line => max m line.length) 0

/-- One line of the second pass: `"%.*s"` with precision `strlen(line) - 1`, `\1` up to the
longest length and a newline. -/
def padLine (width : ℕ) (line : Bytes) : Bytes :=
  let s := cstr line
  s.take (s.length - 1) ++ List.replicate (width - s.length) sep ++ [newline]

def padEachLine (file : Bytes) : Bytes := (lines file).flatMap (padLine (maxLen file))

/-- The same with the conversions of the source: the precision is a `size_t` taken as an `int`, where
a negative one counts as none, and the number of `\1` is a difference of two `int`s. It is `padLine`
for lines that an `int` can count. -/
def padLineInt (width : ℕ) (line : Bytes) : Bytes :=
  let s := cstr line
  let precision := toInt ((s.length : ℤ) - 1)
  (if precision < 0 then s else s.take precision.toNat) ++
    List.replicate (toInt width - toInt s.length).toNat sep ++ [newline]

def padEachLineInt (file : Bytes) : Bytes := (lines file).flatMap (padLineInt (maxLen file))

def catalogFile (recs : List Record) : Bytes := padEachLine (recs.flatMap Record.text)

end CatalogFS
