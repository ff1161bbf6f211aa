import CatalogFS.Tree
import CatalogFS.Worklist

namespace CatalogFS

open CLib

def recordOf (t : FileType) (a : Attr) (path target : Bytes) : Record where
  c := t.letter
  mode := a.perm.toNat
  nlink := a.nlink.toInt64.toInt
  uid := a.uid.toNat
  gid := a.gid.toNat
  size := a.size.toInt
  atime := a.atime.toInt
  mtime := a.mtime.toInt
  ctime := a.ctime.toInt
  depth := findDepth path
  path := path
  linkDest := target

/-- The record of a file of a tree; `readlink` is given room for `MAXPATHLEN - 1` bytes. -/
def nodeRecord (path : Bytes) (node : Node) : Record :=
  recordOf node.type node.attr path (node.target.take (maxPathLen - 1))

@[simp] theorem nodeRecord_path (path : Bytes) (node : Node) : (nodeRecord path node).path = path :=
  rfl

@[simp] theorem nodeRecord_depth (path : Bytes) (node : Node) :
    (nodeRecord path node).depth = findDepth path := rfl

def byName (ch : List (FileName × Node)) : List (FileName × Node) :=
  ch.insertionSort fun a b => strcmp a.1.val b.1.val ≠ .gt

namespace Tree

variable (T : Tree) (fails : List FileName → Bool)

def block (cs : List FileName) : List Record :=
  match T.get cs with
  | some (.dir a ch) =>
    nodeRecord (dirPath cs) (.dir a ch) ::
      if fails cs then [] else (byName ch).map fun e => nodeRecord (dirPath cs ++ e.1.val) e.2
  | _ => []

def subdirs (cs : List FileName) : List (List FileName) :=
  match T.get cs with
  | some (.dir _ ch) =>
    if fails cs then []
    else ((byName ch).filter fun e => e.2.isDir).map fun e => cs ++ [e.1]
  | _ => []

noncomputable def dirs : List (List FileName) :=
  Worklist.order (T.subdirs fails) [[]] (sizeOf T.root)

noncomputable def records : List Record := (T.dirs fails).flatMap (T.block fails)

variable (unknown : List FileName → Bool) {β : Type} (printed : Bytes → β)

def blockBy (cs : List FileName) : List β :=
  match T.get cs with
  | some (.dir _ ch) =>
    printed (dirPath cs) ::
      if fails cs then [] else (byName ch).map fun e => printed (dirPath cs ++ e.1.val)
  | _ => []

def subdirsBy (cs : List FileName) : List (List FileName) :=
  match T.get cs with
  | some (.dir _ ch) =>
    if fails cs then []
    else ((byName ch).filter fun e => e.2.isDir && !unknown (cs ++ [e.1])).map fun e => cs ++ [e.1]
  | _ => []

noncomputable def dirsBy : List (List FileName) :=
  Worklist.order (T.subdirsBy fails unknown) [[]] (sizeOf T.root)

noncomputable def recordsBy : List β :=
  (T.dirsBy fails unknown).flatMap (T.blockBy fails printed)

end Tree

theorem mem_byName {ch : List (FileName × Node)} {e : FileName × Node} : e ∈ byName ch ↔ e ∈ ch :=
  List.mem_insertionSort _

theorem strcmp_ne_gt {s t : Bytes} : strcmp s t ≠ .gt ↔ s ≤ t := by
  rw [Ne, strcmp_eq_gt, not_lt]

theorem pairwise_byName {ch : List (FileName × Node)} (h : (ch.map Prod.fst).Nodup) :
    (byName ch).Pairwise fun a b => a.1.val < b.1.val := by
  have hle : (byName ch).Pairwise fun a b => strcmp a.1.val b.1.val ≠ .gt := by
    have : Std.Total fun a b : FileName × Node => strcmp a.1.val b.1.val ≠ .gt :=
      ⟨fun a b => by simp only [strcmp_ne_gt]; exact le_total _ _⟩
    have : IsTrans (FileName × Node) fun a b => strcmp a.1.val b.1.val ≠ .gt :=
      ⟨fun a b c => by simp only [strcmp_ne_gt]; exact le_trans⟩
    exact List.pairwise_insertionSort _ _
  have hne : (byName ch).Pairwise fun a b => a.1 ≠ b.1 := by
    have hperm : ((byName ch).map Prod.fst).Perm (ch.map Prod.fst) :=
      (List.perm_insertionSort _ ch).map _
    exact List.pairwise_map.mp (hperm.nodup_iff.mpr h)
  exact (hle.and hne).imp fun {a b} hab =>
    lt_of_le_of_ne (strcmp_ne_gt.mp hab.1) fun e => hab.2 (FileName.ext e)

theorem filter_map_dirent {f : FileName × Node → Dirent} (hf : ∀ e, (f e).dName = e.1.val)
    (ch : List (FileName × Node)) : (ch.map f).filter filter = ch.map f := by
  apply List.filter_eq_self.mpr
  intro d hd
  obtain ⟨e, -, rfl⟩ := List.mem_map.mp hd
  simp [filter, hf, e.1.ne_dot, e.1.ne_dotdot]

/-- `scandir` gives the entries by name, in whatever order the system enumerates them. -/
theorem scandir_eq {host : Host} {dir : Bytes} {ents : List Dirent} {ch : List (FileName × Node)}
    {f : FileName × Node → Dirent} (hf : ∀ e, (f e).dName = e.1.val)
    (hdir : host.readdir dir = some ents) {dots : List Dirent}
    (hdots : dots.map Dirent.dName = dotEntries.map Dirent.dName)
    (hents : ents.Perm (dots ++ ch.map f)) (hnodup : (ch.map Prod.fst).Nodup) : scandir host dir = some ((byName ch).map f) := by
  have hnil : dots.filter filter = [] := by
    apply List.filter_eq_nil_iff.mpr
    intro d hd
    have hname : d.dName ∈ dotEntries.map Dirent.dName := hdots ▸ List.mem_map_of_mem hd
    rcases List.mem_pair.mp hname with h | h <;> simp [filter, h]
  have hperm : (ents.filter filter).Perm (ch.map f) := by
    have h := hents.filter filter
    rwa [List.filter_append, filter_map_dirent hf, hnil, List.nil_append] at h
  have htotal : Std.Total fun a b : Dirent => alphasort a b ≠ .gt :=
    ⟨fun a b => by simp only [alphasort, strcmp_ne_gt]; exact le_total _ _⟩
  have htrans : IsTrans Dirent fun a b => alphasort a b ≠ .gt :=
    ⟨fun a b c => by simp only [alphasort, strcmp_ne_gt]; exact le_trans⟩
  rw [scandir, hdir, Option.map_some]
  congr 1
  apply List.Perm.eq_of_pairwise ?_ (List.pairwise_insertionSort (fun a b => alphasort a b ≠ .gt) _)
  · refine List.pairwise_map.mpr ((pairwise_byName hnodup).imp fun h => ?_)
    rw [alphasort, hf, hf]
    exact strcmp_ne_gt.mpr h.le
  · exact ((List.perm_insertionSort _ _).trans hperm).trans
      ((List.perm_insertionSort _ ch).symm.map _)
  · -- entries of one name are one entry
    intro a b ha hb hab hba
    obtain ⟨x, hx, rfl⟩ := List.mem_map.mp (hperm.mem_iff.mp ((List.mem_insertionSort _).mp ha))
    obtain ⟨y, hy, rfl⟩ := List.mem_map.mp hb
    rw [alphasort, hf, hf] at hab hba
    have hval : x.1.val = y.1.val := le_antisymm (strcmp_ne_gt.mp hab) (strcmp_ne_gt.mp hba)
    rw [List.inj_on_of_nodup_map hnodup hx (mem_byName.mp hy) (FileName.ext hval)]

theorem typeLetter_dt (t : FileType) : typeLetter t.dt = t.letter := by
  cases t <;> rfl

theorem printEntryToCatalog_eq {inputDir : Bytes} (hne : inputDir ≠ []) (t : FileType) (a : Attr)
    (path target : Bytes) (depth : ℤ) :
    printEntryToCatalog ⟨depth, inputDir ++ path, a.stat t, target⟩ inputDir =
      some (recordOf t a path target) := by
  have hlen : inputDir.length ≠ 0 := fun h => hne (List.length_eq_zero_iff.mp h)
  have htype : (((a.stat t).stMode &&& 0o170000) >>> 12).toNat = t.dt := FileType.mode_type _ _
  have hperm : ((a.stat t).stMode &&& 0o7777).toNat = a.perm.toNat := FileType.mode_and_perm _ _
  simp only [printEntryToCatalog, if_neg hlen, List.drop_left, htype, typeLetter_dt, hperm]
  rfl

theorem printToCatalog_eq {host : Host} {inputDir path : Bytes} {node : Node}
    (hne : inputDir ≠ []) (hl : host.lstat (inputDir ++ path) = some node.stat)
    (hr : node.type = .lnk → host.readlink (inputDir ++ path) = some node.target) :
    printToCatalog host (inputDir ++ path) inputDir = some (nodeRecord path node) := by
  have htype : ((node.stat.stMode &&& 0o170000) >>> 12).toNat = node.type.dt :=
    FileType.mode_type _ _
  have hrecord : nodeRecord path node =
      recordOf node.type node.attr path (node.target.take (maxPathLen - 1)) := rfl
  rw [hrecord, ← printEntryToCatalog_eq hne node.type node.attr path _ (findDepth (inputDir ++ path)),
    printToCatalog, hl, Option.getD_some]
  simp only [htype]
  cases node with
  | leaf t a => cases t <;> rfl
  | link a t => rw [hr rfl]; rfl
  | dir a ch => rfl

/-- For a path behind `inputDir` something is always written. -/
theorem exists_printed (host : Host) {inputDir : Bytes} (hne : inputDir ≠ []) :
    ∃ printed : Bytes → Record,
      ∀ path, printToCatalog host (inputDir ++ path) inputDir = some (printed path) := by
  have hlen : inputDir.length ≠ 0 := fun h => hne (List.length_eq_zero_iff.mp h)
  have h : ∀ path, ∃ r, printToCatalog host (inputDir ++ path) inputDir = some r := by
    intro path
    simp [printToCatalog, printEntryToCatalog, hlen]
  exact Classical.skolem.mp h

variable {host : Host} {inputDir : Bytes} {T : Tree} {fails unknown : List FileName → Bool}

theorem get_concat {cs : List FileName} {a : Attr} {ch : List (FileName × Node)}
    (h : T.get cs = some (.dir a ch)) (c : FileName) : T.get (cs ++ [c]) = ch.lookup c := by
  rw [Tree.get, Node.get_append, ← Tree.get, h]
  simp

theorem lookup_of_mem {ch : List (FileName × Node)} (h : (ch.map Prod.fst).Nodup)
    {e : FileName × Node} (he : e ∈ ch) : ch.lookup e.1 = some e.2 := by
  obtain ⟨l₁, l₂, rfl⟩ := List.append_of_mem he
  refine List.lookup_eq_some_iff.mpr ⟨l₁, l₂, rfl, fun p hp => ?_⟩
  have hd : ∀ x ∈ l₁, x.1 ≠ e.1 := by
    intro x hx hxe
    rw [List.map_append, List.map_cons, List.nodup_append] at h
    exact h.2.2 x.1 (List.mem_map_of_mem hx) e.1 List.mem_cons_self hxe
  simpa using fun h' => hd p hp h'.symm

theorem mem_children_iff {cs : List FileName} {a : Attr} {ch : List (FileName × Node)}
    (h : T.get cs = some (.dir a ch)) (e : FileName × Node) :
    e ∈ ch ↔ T.get (cs ++ [e.1]) = some e.2 := by
  rw [get_concat h]
  constructor
  · exact lookup_of_mem (T.distinct cs a ch h)
  · intro he
    obtain ⟨l₁, l₂, rfl, -⟩ := List.lookup_eq_some_iff.mp he
    simp

theorem dType_direntBy (cs : List FileName) (e : FileName × Node) :
    (direntBy unknown cs e).dType = FileType.dir.dt ↔
      (e.2.isDir && !unknown (cs ++ [e.1])) = true := by
  obtain ⟨c, n⟩ := e
  cases h : unknown (cs ++ [c]) with
  | true => simp [direntBy, h, dtUnknown, FileType.dt]
  | false =>
    cases n with
    | leaf t a => cases t <;> simp [direntBy, h, Node.type, LeafType.type, FileType.dt, Node.isDir]
    | link a t => simp [direntBy, h, Node.type, FileType.dt, Node.isDir]
    | dir a ch => simp [direntBy, h, Node.type, Node.isDir]

section Printed

variable {printed : Bytes → Record}
  (hprinted : ∀ path, printToCatalog host (inputDir ++ path) inputDir = some (printed path))

include hprinted

theorem listChild_eq (cs : List FileName) (e : FileName × Node) (s : Listing) :
    listChild host inputDir (inputDir ++ pathString cs) s (direntBy unknown cs e) =
      some
        { queue := s.queue ++ if e.2.isDir && !unknown (cs ++ [e.1]) then
            [inputDir ++ pathString (cs ++ [e.1])] else []
          catalog := s.catalog ++ [printed (dirPath cs ++ e.1.val)] } := by
  have htemp : (inputDir ++ pathString cs) ++ slash :: (direntBy unknown cs e).dName =
      inputDir ++ pathString (cs ++ [e.1]) := by simp [direntBy, pathString_append]
  have hprint : printToCatalog host (inputDir ++ pathString (cs ++ [e.1])) inputDir =
      some (printed (dirPath cs ++ e.1.val)) := by
    rw [pathString_concat]
    exact hprinted _
  simp only [listChild, Listing.print, htemp, hprint, dType_direntBy]
  cases e.2.isDir && !unknown (cs ++ [e.1]) <;> simp [insertQueue]

theorem foldlM_listChild (cs : List FileName) (es : List (FileName × Node)) (s : Listing) :
    (es.map (direntBy unknown cs)).foldlM (listChild host inputDir (inputDir ++ pathString cs)) s =
      some
        { queue := s.queue ++
            ((es.filter fun e => e.2.isDir && !unknown (cs ++ [e.1])).map fun e => cs ++ [e.1]).map
              fun ds => inputDir ++ pathString ds
          catalog := s.catalog ++ es.map fun e => printed (dirPath cs ++ e.1.val) } := by
  induction es generalizing s with
  | nil => simp
  | cons e es ih =>
    rw [List.map_cons, List.foldlM_cons, listChild_eq hprinted, Option.bind_eq_bind,
      Option.bind_some, ih, List.filter_cons]
    cases e.2.isDir && !unknown (cs ++ [e.1]) <;> simp

theorem listDir_eq (hlists : host.Lists inputDir T fails unknown) {cs : List FileName} {a : Attr}
    {ch : List (FileName × Node)} (h : T.get cs = some (.dir a ch)) (s : Listing) :
    listDir host inputDir (inputDir ++ pathString cs) s =
      some
        { queue := s.queue ++
            (T.subdirsBy fails unknown cs).map fun ds => inputDir ++ pathString ds
          catalog := s.catalog ++ T.blockBy fails printed cs } := by
  have hprint : printToCatalog host ((inputDir ++ pathString cs) ++ [slash]) inputDir =
      some (printed (dirPath cs)) := by
    rw [List.append_assoc]
    exact hprinted _
  rw [listDir, Listing.print, hprint]
  simp only [Tree.subdirsBy, Tree.blockBy, h]
  cases hf : fails cs with
  | true =>
    have hscan : scandir host (inputDir ++ pathString cs) = none := by
      rw [scandir, hlists.readdir_fails cs a ch h hf]; rfl
    simp [hscan]
  | false =>
    obtain ⟨ents, dots, hents, hdots, hperm⟩ := hlists.readdir_dir cs a ch h hf
    have hscan := scandir_eq (f := direntBy unknown cs) (fun _ => rfl) hents hdots hperm
      (T.distinct cs a ch h)
    simp [hscan, foldlM_listChild hprinted cs (byName ch)]

end Printed

def Tree.IsDir (T : Tree) (cs : List FileName) : Prop := ∃ a ch, T.get cs = some (.dir a ch)

theorem Tree.isDir_nil (T : Tree) : T.IsDir [] := ⟨T.attr, T.children, by simp [Tree.get, Tree.root]⟩

/-- The subdirectories that are visited: directories one component below one that `scandir`
lists, and known to be directories. -/
theorem mem_subdirsBy {cs ds : List FileName} :
    ds ∈ T.subdirsBy fails unknown cs ↔ T.IsDir cs ∧ fails cs = false ∧
      ∃ c, ds = cs ++ [c] ∧ T.IsDir ds ∧ unknown ds = false := by
  unfold Tree.subdirsBy
  constructor
  · intro h
    split at h
    · rename_i a ch hcs
      cases hf : fails cs with
      | true => simp [hf] at h
      | false =>
        simp only [hf, Bool.false_eq_true, if_false, List.mem_map, List.mem_filter,
          Bool.and_eq_true, Bool.not_eq_true'] at h
        obtain ⟨e, ⟨he, hd, hknown⟩, rfl⟩ := h
        have hget := (mem_children_iff hcs e).mp (mem_byName.mp he)
        refine ⟨⟨a, ch, hcs⟩, rfl, e.1, rfl, ?_, hknown⟩
        obtain ⟨c, n⟩ := e
        cases n with
        | leaf t a => cases hd
        | link a t => cases hd
        | dir a' ch' => exact ⟨a', ch', hget⟩
    · simp at h
  · rintro ⟨⟨a, ch, hcs⟩, hf, c, rfl, ⟨a', ch', hds⟩, hknown⟩
    have he : (c, Node.dir a' ch') ∈ ch := (mem_children_iff hcs (c, Node.dir a' ch')).mpr hds
    simp only [hcs, hf, Bool.false_eq_true, if_false, List.mem_map, List.mem_filter,
      Bool.and_eq_true, Bool.not_eq_true']
    exact ⟨(c, Node.dir a' ch'), ⟨mem_byName.mpr he, rfl, hknown⟩, rfl⟩

theorem level_isDir_by (T : Tree) (fails unknown : List FileName → Bool) (i : ℕ) :
    ∀ cs ∈ Worklist.level (T.subdirsBy fails unknown) [[]] i, T.IsDir cs ∧ cs.length = i := by
  refine Worklist.level_induction (P := fun i cs => T.IsDir cs ∧ cs.length = i) ?_ ?_ i
  · intro cs hcs
    rw [List.mem_singleton.mp hcs]
    exact ⟨T.isDir_nil, rfl⟩
  · rintro i cs ⟨-, hlen⟩ ds hds
    obtain ⟨-, -, c, rfl, hdir, -⟩ := mem_subdirsBy.mp hds
    exact ⟨hdir, by simp [hlen]⟩

/-- Below the size of the tree there are no more directories. -/
theorem level_eq_nil_by (T : Tree) (fails unknown : List FileName → Bool) :
    Worklist.level (T.subdirsBy fails unknown) [[]] (sizeOf T.root) = [] := by
  apply List.eq_nil_iff_forall_not_mem.mpr
  intro cs hcs
  obtain ⟨⟨a, ch, h⟩, hlen⟩ := level_isDir_by T fails unknown _ cs hcs
  have := Node.length_lt_sizeOf h
  omega

theorem subdirsBy_noFailure : T.subdirsBy fails noFailure = T.subdirs fails := by
  funext cs
  unfold Tree.subdirsBy Tree.subdirs
  split <;> simp [noFailure]

theorem mem_subdirs {cs ds : List FileName} :
    ds ∈ T.subdirs fails cs ↔
      T.IsDir cs ∧ fails cs = false ∧ ∃ c, ds = cs ++ [c] ∧ T.IsDir ds := by
  rw [← subdirsBy_noFailure, mem_subdirsBy]
  simp [noFailure]

theorem level_isDir (T : Tree) (fails : List FileName → Bool) (i : ℕ) :
    ∀ cs ∈ Worklist.level (T.subdirs fails) [[]] i, T.IsDir cs ∧ cs.length = i := by
  rw [← subdirsBy_noFailure]
  exact level_isDir_by T fails noFailure i

theorem level_eq_nil (T : Tree) (fails : List FileName → Bool) :
    Worklist.level (T.subdirs fails) [[]] (sizeOf T.root) = [] := by
  rw [← subdirsBy_noFailure]
  exact level_eq_nil_by T fails noFailure

theorem mem_dirs {cs : List FileName} (h : cs ∈ T.dirs fails) : T.IsDir cs := by
  obtain ⟨i, -, hi⟩ := List.mem_flatMap.mp h
  exact (level_isDir T fails i cs hi).1

section Run

variable {printed : Bytes → Record}
  (hprinted : ∀ path, printToCatalog host (inputDir ++ path) inputDir = some (printed path))
  (hlists : host.Lists inputDir T fails unknown)

include hprinted hlists

/-- The loop of `catalog_listing` is the worklist over the directories of the tree. -/
theorem catalogListingLoop_eq_run (fuel : ℕ) (queue : List (List FileName))
    (hq : ∀ cs ∈ queue, T.IsDir cs) (out : List Record) :
    catalogListingLoop host inputDir fuel ⟨queue.map fun cs => inputDir ++ pathString cs, out⟩ =
      Worklist.run (T.blockBy fails printed) (T.subdirsBy fails unknown) fuel queue out := by
  induction fuel generalizing queue out with
  | zero => cases queue <;> rfl
  | succ fuel ih =>
    cases queue with
    | nil => rfl
    | cons cs queue =>
      obtain ⟨a, ch, h⟩ := hq cs List.mem_cons_self
      have hstep : catalogListingLoop host inputDir (fuel + 1)
          ⟨(cs :: queue).map fun cs => inputDir ++ pathString cs, out⟩ =
          (listDir host inputDir (inputDir ++ pathString cs)
            ⟨queue.map fun cs => inputDir ++ pathString cs, out⟩).bind
              (catalogListingLoop host inputDir fuel) := rfl
      rw [hstep, listDir_eq hprinted hlists h, Option.bind_some]
      have hq' : ∀ ds ∈ queue ++ T.subdirsBy fails unknown cs, T.IsDir ds := by
        intro ds hds
        rcases List.mem_append.mp hds with hds | hds
        · exact hq ds (List.mem_cons_of_mem cs hds)
        · obtain ⟨-, -, c, -, hdir, -⟩ := mem_subdirsBy.mp hds
          exact hdir
      rw [Worklist.run, ← ih _ hq', List.map_append]

theorem catalogListing_eq_run (fuel : ℕ) :
    catalogListing host inputDir fuel =
      Worklist.run (T.blockBy fails printed) (T.subdirsBy fails unknown) fuel [[]] [] := by
  have hq : ∀ cs ∈ [([] : List FileName)], T.IsDir cs := by
    intro cs hcs
    rw [List.mem_singleton.mp hcs]
    exact T.isDir_nil
  rw [← catalogListingLoop_eq_run hprinted hlists fuel [[]] hq []]
  simp [catalogListing, insertQueue]

/-- From some number of iterations on, `catalog_listing` ends, having written what is printed for
the directories that are visited and for their entries. -/
theorem writes_eventually_by :
    ∃ n, ∀ fuel ≥ n,
      catalogListing host inputDir fuel = some (T.recordsBy fails unknown printed) := by
  refine ⟨(T.dirsBy fails unknown).length, fun fuel hfuel => ?_⟩
  obtain ⟨k, rfl⟩ := Nat.exists_eq_add_of_le hfuel
  have hend := Worklist.run_eq_order (T.blockBy fails printed) _
    (level_eq_nil_by T fails unknown) []
  have hmore := Worklist.run_mono _ _ hend k
  rw [List.nil_append] at hmore
  rw [catalogListing_eq_run hprinted hlists]
  exact hmore

theorem writes_iff_by {recs : List Record} :
    Writes host inputDir recs ↔ recs = T.recordsBy fails unknown printed := by
  obtain ⟨n, hn⟩ := writes_eventually_by hprinted hlists
  constructor
  · rintro ⟨m, hm⟩
    have hend := hn n le_rfl
    rw [catalogListing_eq_run hprinted hlists] at hm hend
    exact Worklist.run_unique _ _ hm hend
  · rintro rfl
    exact ⟨n, hn n le_rfl⟩

end Run

theorem readlink_of_lnk (hfiles : host.ShowsFiles inputDir T) {cs : List FileName} {node : Node}
    (h : T.get cs = some node) (hlnk : node.type = .lnk) :
    host.readlink (inputDir ++ pathString cs) = some node.target := by
  cases node with
  | leaf t a => cases t <;> cases hlnk
  | link a t => exact hfiles.readlink_link _ a t h
  | dir a ch => cases hlnk

section Files

variable {printed : Bytes → Record}
  (hprinted : ∀ path, printToCatalog host (inputDir ++ path) inputDir = some (printed path))
  (hfiles : host.ShowsFiles inputDir T) (hne : inputDir ≠ [])

include hprinted hfiles hne

theorem printed_dirPath {cs : List FileName} {a : Attr} {ch : List (FileName × Node)}
    (h : T.get cs = some (.dir a ch)) : printed (dirPath cs) = nodeRecord (dirPath cs) (.dir a ch) :=
  Option.some.inj ((hprinted _).symm.trans
    (printToCatalog_eq hne (hfiles.lstat_dir cs a ch h) nofun))

theorem printed_entry {cs : List FileName} {c : FileName} {node : Node}
    (h : T.get (cs ++ [c]) = some node) :
    printed (dirPath cs ++ c.val) = nodeRecord (dirPath cs ++ c.val) node := by
  apply Option.some.inj
  rw [← hprinted]
  apply printToCatalog_eq hne
  · rw [← pathString_concat]
    exact hfiles.lstat_node _ _ (by simp) h
  · rw [← pathString_concat]
    exact readlink_of_lnk hfiles h

theorem blockBy_eq : T.blockBy fails printed = T.block fails := by
  funext cs
  unfold Tree.blockBy Tree.block
  split
  · rename_i a ch h
    rw [printed_dirPath hprinted hfiles hne h]
    congr 2
    apply List.map_congr_left
    intro e he
    exact printed_entry hprinted hfiles hne ((mem_children_iff h e).mp (mem_byName.mp he))
  · rfl

theorem recordsBy_eq : T.recordsBy fails noFailure printed = T.records fails := by
  rw [Tree.recordsBy, Tree.dirsBy, subdirsBy_noFailure, blockBy_eq hprinted hfiles hne]
  rfl

end Files

theorem writes_iff_dirsBy {unknown : List FileName → Bool} (hne : inputDir ≠ [])
    (hfiles : host.ShowsFiles inputDir T) (hlists : host.Lists inputDir T fails unknown)
    {recs : List Record} :
    Writes host inputDir recs ↔ recs = (T.dirsBy fails unknown).flatMap (T.block fails) := by
  obtain ⟨printed, hprinted⟩ := exists_printed host hne
  rw [writes_iff_by hprinted hlists, Tree.recordsBy, blockBy_eq hprinted hfiles hne]

theorem writes_eventually (hshows : host.Shows inputDir T fails) (hne : inputDir ≠ []) :
    ∃ n, ∀ fuel ≥ n, catalogListing host inputDir fuel = some (T.records fails) := by
  obtain ⟨printed, hprinted⟩ := exists_printed host hne
  rw [← recordsBy_eq hprinted hshows.files hne]
  exact writes_eventually_by hprinted hshows.lists

/-- `catalog_listing` ends having written exactly the listing of the tree. -/
theorem writes_iff (hshows : host.Shows inputDir T fails) (hne : inputDir ≠ []) {recs : List Record} :
    Writes host inputDir recs ↔ recs = T.records fails := by
  obtain ⟨printed, hprinted⟩ := exists_printed host hne
  rw [← recordsBy_eq hprinted hshows.files hne]
  exact writes_iff_by hprinted hshows.lists

theorem writes_unique (hshows : host.Shows inputDir T fails) (hne : inputDir ≠ [])
    {recs recs' : List Record} (h : Writes host inputDir recs) (h' : Writes host inputDir recs') :
    recs = recs' :=
  ((writes_iff hshows hne).mp h).trans ((writes_iff hshows hne).mp h').symm

end CatalogFS
