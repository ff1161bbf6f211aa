import CatalogFS.Fuse

namespace CatalogFS

open CLib

/-- Behind a position there is exactly one record with this path, and none before it. -/
def FollowedByOne (recs : List Record) (i : ℕ) (path : Bytes) : Prop :=
  (recs.map Record.path).count path = 1 ∧ ∃ (j : ℕ) (r : Record),
    i < j ∧ recs[j]? = some r ∧ r.path = path

/-- Every record of a directory as an entry of another one is followed by the directory's own record
and by one for each of its entries. -/
def Listable (T : Tree) (recs : List Record) : Prop :=
  ∀ (i : ℕ) (r : Record), recs[i]? = some r → r.c = ch 'd' → r.path.getLast? ≠ some slash →
    FollowedByOne recs i (r.path ++ [slash]) ∧
    ∀ cs a ch, T.get cs = some (.dir a ch) → pathString cs = r.path →
      ∀ e ∈ ch, FollowedByOne recs i (r.path ++ slash :: e.1.val)

/-- `readdir` lists the directory of every path that `getattr` reports as a directory's. -/
def ListsReported (room : Bytes → ℕ) (file : Bytes) (T : Tree) (probes : ℕ → Probe) : Prop :=
  ∀ p st, FusePath p → Returns probes (catalogGetattr (geometry file) p) (0, st) → st.isDir = true →
    ∃ cs a ch, T.get cs = some (.dir a ch) ∧ p = nodePath cs ∧
      ∃ filled : List (FileName × Node), filled.Perm ch ∧
        Returns probes (catalogReaddirIn room (geometry file) roomy p)
          (0, dots ++ filled.map fun e => ⟨e.1.val, some e.2.stat⟩)

variable {T : Tree} {unknown : List FileName → Bool}

theorem isDir_of_letter {node : Node} (h : node.type.letter = ch 'd') : node.isDir = true := by
  have htype : node.type = .dir := FileType.letter_injective h
  cases node with
  | leaf t a => cases t <;> cases htype
  | link a t => cases htype
  | dir a ch => rfl

theorem subdirsBy_eq (hknown : ∀ cs, cs ≠ [] → T.IsDir cs → unknown cs = false) :
    T.subdirsBy noFailure unknown = T.subdirs noFailure := by
  funext cs
  unfold Tree.subdirsBy Tree.subdirs
  split
  · rename_i a ch h
    have hfilter : ∀ e ∈ byName ch, (e.2.isDir && !unknown (cs ++ [e.1])) = e.2.isDir := by
      intro e he
      have hget := (mem_children_iff h e).mp (mem_byName.mp he)
      obtain ⟨c, n⟩ := e
      cases n with
      | leaf t b => rfl
      | link b t => rfl
      | dir b ch' => simp [hknown _ (by simp) ⟨b, ch', hget⟩, Node.isDir]
    simp only [noFailure, Bool.false_eq_true, if_false, List.filter_congr hfilter]
  · rfl

theorem followedByOne {i : ℕ} {r s : Record} (hr : (T.records noFailure)[i]? = some r)
    (hs : s ∈ T.records noFailure) (hdepth : r.depth < s.depth) :
    FollowedByOne (T.records noFailure) i s.path := by
  obtain ⟨hi, rfl⟩ := List.getElem?_eq_some_iff.mp hr
  obtain ⟨j, hj, rfl⟩ := List.getElem_of_mem hs
  have hnodup : ((T.records noFailure).map Record.path).Nodup :=
    List.pairwise_map.mpr pairwise_path_ne
  exact ⟨List.count_eq_one_of_mem hnodup (List.mem_map_of_mem hs), j, _,
    lt_of_depth_lt hj hi hdepth, List.getElem?_eq_getElem hj, rfl⟩

theorem listable_records : Listable T (T.records noFailure) := by
  intro i r hr hletter hlast
  rcases mem_records_iff.mp (List.mem_of_getElem? hr) with
    ⟨cs, a, ch, -, -, rfl⟩ | ⟨cs, c, node, hreach, -, hget, rfl⟩
  · exact absurd (getLast?_dirPath cs) hlast
  have hdir := isDir_of_letter hletter
  cases node with
  | leaf t b => cases hdir
  | link b t => cases hdir
  | dir b ch =>
    have hpath : (nodeRecord (dirPath cs ++ c.val) (.dir b ch)).path ++ [slash] =
        dirPath (cs ++ [c]) := by rw [nodeRecord_path, ← pathString_concat, dirPath]
    have hdepth : (nodeRecord (dirPath cs ++ c.val) (.dir b ch)).depth = cs.length + 1 :=
      findDepth_dirPath_append cs c.slash_notMem
    have hreached : T.Reached noFailure (cs ++ [c]) := hreach.step rfl ⟨b, ch, hget⟩
    constructor
    · have hown : nodeRecord (dirPath (cs ++ [c])) (.dir b ch) ∈ T.records noFailure :=
        mem_records_iff.mpr (.inl ⟨_, b, ch, hreached, hget, rfl⟩)
      rw [hpath]
      apply followedByOne hr hown
      rw [hdepth, nodeRecord_depth, findDepth_dirPath]
      simp
    · intro ds a' ch' hget' heq e he
      obtain rfl : ds = cs ++ [c] := by
        have hdirs : dirPath ds ++ [] = dirPath (cs ++ [c]) ++ [] := by
          rw [← hpath, ← heq]
          rfl
        exact (dirPath_append_inj (by simp) (by simp) hdirs).1
      have hentry : nodeRecord (dirPath (cs ++ [c]) ++ e.1.val) e.2 ∈ T.records noFailure :=
        mem_records_iff.mpr (.inr ⟨_, e.1, e.2, hreached, rfl,
          (mem_children_iff hget' e).mp he, rfl⟩)
      have hchild : (nodeRecord (dirPath cs ++ c.val) (.dir b ch)).path ++ slash :: e.1.val =
          dirPath (cs ++ [c]) ++ e.1.val := by rw [← hpath, List.append_assoc]; rfl
      rw [hchild]
      apply followedByOne hr hentry
      rw [hdepth, nodeRecord_depth, findDepth_dirPath_append _ e.1.slash_notMem]
      simp

theorem known_of_mem_dirsBy {cs : List FileName} (h : cs ∈ T.dirsBy noFailure unknown) :
    T.IsDir cs ∧ (cs ≠ [] → unknown cs = false) := by
  obtain ⟨i, -, hi⟩ := List.mem_flatMap.mp h
  refine ⟨(level_isDir_by T noFailure unknown i cs hi).1, ?_⟩
  refine Worklist.level_induction (P := fun _ cs => cs ≠ [] → unknown cs = false) ?_ ?_ i cs hi
  · intro cs hcs hne
    exact absurd (List.mem_singleton.mp hcs) hne
  · intro _ _ _ ds hds _
    obtain ⟨-, -, -, -, -, hknown⟩ := mem_subdirsBy.mp hds
    exact hknown

/-- When every directory is followed by its own record, every directory is visited. -/
theorem mem_dirsBy_of_listable
    (h : Listable T ((T.dirsBy noFailure unknown).flatMap (T.block noFailure))) :
    ∀ cs, T.IsDir cs → cs ∈ T.dirsBy noFailure unknown := by
  intro cs
  induction cs using List.reverseRecOn with
  | nil =>
    intro _
    have hpos : 0 < sizeOf T.root := Node.length_lt_sizeOf (Node.get_nil T.root)
    exact List.mem_flatMap.mpr ⟨0, List.mem_range.mpr hpos, List.mem_singleton_self _⟩
  | append_singleton cs c ih =>
    rintro ⟨a, ch, hget⟩
    obtain ⟨b, ch', hdir⟩ := isDir_of_get_concat hget
    -- its record as an entry stands among those of its parent, which is visited
    have hentry : nodeRecord (dirPath cs ++ c.val) (.dir a ch) ∈
        (T.dirsBy noFailure unknown).flatMap (T.block noFailure) :=
      List.mem_flatMap.mpr ⟨cs, ih ⟨b, ch', hdir⟩,
        (mem_block_iff hdir).mpr (.inr ⟨rfl, c, _, hget, rfl⟩)⟩
    obtain ⟨i, hi⟩ := List.mem_iff_getElem?.mp hentry
    obtain ⟨⟨-, j, own, -, hown, hpath⟩, -⟩ := h i _ hi rfl (getLast?_entry cs c)
    obtain ⟨ds, hds, hmem⟩ := List.mem_flatMap.mp (List.mem_of_getElem? hown)
    rw [nodeRecord_path, ← pathString_concat] at hpath
    have hstr := eq_pathString_of_slash hmem hpath
    have hdirs : dirPath (cs ++ [c]) ++ [] = dirPath ds ++ [] := by rw [dirPath, dirPath, hstr]
    obtain ⟨rfl, -⟩ := dirPath_append_inj (by simp) (by simp) hdirs
    exact hds

section Reported

variable {probes : ℕ → Probe} {room : Bytes → ℕ} (hclean : T.Clean)
  (hsize : maxLen (catalogFile (T.records noFailure)) *
    (lines (catalogFile (T.records noFailure))).length < 2 ^ 31)
  (hserves : Serves probes (catalogFile (T.records noFailure)))

include hclean hsize hserves

theorem listsReported_of_slashOrdered (hslash : T.SlashOrdered) (hroom : T.Roomy room) :
    ListsReported room (catalogFile (T.records noFailure)) T probes := by
  intro p st hp hget hdir
  rcases returns_getattr_cases hclean hsize hserves hp with hno | ⟨cs, node, hnode, rfl, hret⟩
  · exact absurd (congrArg Prod.fst (hget.unique hno)) zero_ne_neg_ENOENT
  · have hst : st = node.stat := congrArg Prod.snd (hget.unique hret)
    rw [hst, Stat.isDir_of_dt node.dt_stat] at hdir
    cases node with
    | leaf t a => cases hdir
    | link a t => cases hdir
    | dir a ch =>
      exact ⟨cs, a, ch, hnode, rfl,
        (showsTree_of_slashOrdered hclean hsize hserves hslash hroom).readdir cs a ch hnode⟩

/-- A directory that is found is reported as one, so that it is listed only if its own record is found
and its path has room. -/
theorem slashOrdered_of_listsReported
    (h : ListsReported room (catalogFile (T.records noFailure)) T probes) :
    T.SlashOrdered ∧ T.Roomy room := by
  have hlisted : ∀ cs, T.IsDir cs → locate T.entries (nodePath cs) ≠ -1 →
      HasRoom room (nodePath cs) ∧ locate T.entries (dirPath cs) ≠ -1 := by
    rintro cs ⟨a, ch, hget⟩ hl
    have hreported := returns_getattr_of_locate hclean hsize hserves hget hl
    obtain ⟨-, -, -, -, -, filled, -, hret⟩ := h _ _ (fusePath_nodePath cs) hreported
      (Stat.isDir_of_dt (Node.dt_stat _))
    obtain ⟨hroom, hret⟩ := returns_catalogReaddirIn_iff.mp hret
    exact ⟨hroom, locate_ne_of_readdir hclean hsize hserves hret⟩
  have hslash := (slashOrdered_iff_found T).mp fun cs hdir hl => (hlisted cs hdir hl).2
  refine ⟨hslash, ?_⟩
  rintro cs ⟨a, ch, hget⟩
  exact (hlisted cs ⟨a, ch, hget⟩ (locate_nodePath_ne hslash hget)).1

end Reported

section Runs

variable {host : Host} {inputDir : Bytes} (hne : inputDir ≠ [])
  (hfiles : host.ShowsFiles inputDir T) (hlists : host.Lists inputDir T noFailure unknown)

include hne hfiles hlists

theorem known_of_listable {recs : List Record} (hw : Writes host inputDir recs)
    (hlist : Listable T recs) : ∀ cs, cs ≠ [] → T.IsDir cs → unknown cs = false := by
  obtain rfl := (writes_iff_dirsBy hne hfiles hlists).mp hw
  intro cs hcs hdir
  exact (known_of_mem_dirsBy (mem_dirsBy_of_listable hlist cs hdir)).2 hcs

/-- Every directory that is catalogued is followed by its own record and by those of its entries
exactly when the system reports the type of every directory below the root. The mount then lists every
directory that it reports exactly when no directory's name continues a sibling directory's with a byte
below the slash and the block of every directory's path has room for another slash. -/
theorem listable_iff :
    ∃ recs, Writes host inputDir recs ∧
      (Listable T recs ↔ ∀ cs, cs ≠ [] → T.IsDir cs → unknown cs = false) ∧
      (T.Clean → maxLen (catalogFile recs) * (lines (catalogFile recs)).length < 2 ^ 31 →
        ∀ probes, Serves probes (catalogFile recs) → ∀ room,
          (Listable T recs ∧ ListsReported room (catalogFile recs) T probes ↔
            (∀ cs, cs ≠ [] → T.IsDir cs → unknown cs = false) ∧ T.SlashOrdered ∧ T.Roomy room)) := by
  have hwrites := (writes_iff_dirsBy hne hfiles hlists).mpr rfl
  have hrecords : (∀ cs, cs ≠ [] → T.IsDir cs → unknown cs = false) →
      (T.dirsBy noFailure unknown).flatMap (T.block noFailure) = T.records noFailure := by
    intro hknown
    rw [Tree.records, Tree.dirs, Tree.dirsBy, subdirsBy_eq hknown]
  have hiff : Listable T ((T.dirsBy noFailure unknown).flatMap (T.block noFailure)) ↔
      ∀ cs, cs ≠ [] → T.IsDir cs → unknown cs = false := by
    constructor
    · exact known_of_listable hne hfiles hlists hwrites
    · intro hknown
      rw [hrecords hknown]
      exact listable_records
  refine ⟨_, hwrites, hiff, fun hclean hsize probes hserves room => ?_⟩
  rw [hiff]
  apply and_congr_right
  intro hknown
  rw [hrecords hknown] at hsize hserves ⊢
  constructor
  · exact slashOrdered_of_listsReported hclean hsize hserves
  · rintro ⟨hslash, hroom⟩
    exact listsReported_of_slashOrdered hclean hsize hserves hslash hroom

end Runs

theorem listable_iff_smallTree :
    ∃ recs, Writes (treeHost [ch 'r'] smallTree noFailure) [ch 'r'] recs ∧
      ∀ probes, Serves probes (catalogFile recs) →
        (Listable smallTree recs ∧ ListsReported strdupRoom (catalogFile recs) smallTree probes ↔
          (∀ cs, cs ≠ [] → smallTree.IsDir cs → noFailure cs = false) ∧
            smallTree.SlashOrdered ∧ smallTree.Roomy strdupRoom) := by
  have hshows := treeHost_shows [ch 'r'] smallTree noFailure
  obtain ⟨recs, hw, -, h⟩ := listable_iff (List.cons_ne_nil _ _) hshows.files hshows.lists
  obtain rfl := writes_unique hshows (by decide) hw writes_smallRecords
  exact ⟨smallRecords, hw, fun probes hserves =>
    h smallTree_clean (by decide) probes hserves strdupRoom⟩

def Host.silent (host : Host) : Host :=
  { host with
    readdir := fun dir =>
      (host.readdir dir).map fun ents => ents.map fun ent => { ent with dType := dtUnknown } }

theorem Host.Lists.silent {host : Host} {inputDir : Bytes} {fails : List FileName → Bool}
    (h : host.Lists inputDir T fails unknown) :
    host.silent.Lists inputDir T fails fun _ => true where
  readdir_dir cs a ch hget hf := by
    obtain ⟨ents, dots, hents, hdots, hperm⟩ := h.readdir_dir cs a ch hget hf
    refine ⟨_, dots.map fun ent => { ent with dType := dtUnknown },
      congrArg (Option.map _) hents, ?_, ?_⟩
    · rw [List.map_map, ← hdots]
      rfl
    · have hmap := hperm.map fun ent : Dirent => { ent with dType := dtUnknown }
      rw [List.map_append, List.map_map] at hmap
      exact hmap
  readdir_fails cs a ch hget hf := congrArg (Option.map _) (h.readdir_fails cs a ch hget hf)

/-- On such a system the directory `a` of the small tree is catalogued but cannot be listed. -/
theorem not_listable_silent :
    ¬ ∃ recs, Writes (treeHost [ch 'r'] smallTree noFailure).silent [ch 'r'] recs ∧
      Listable smallTree recs := by
  rintro ⟨recs, hw, hlist⟩
  have hshows := treeHost_shows [ch 'r'] smallTree noFailure
  have hfiles : (treeHost [ch 'r'] smallTree noFailure).silent.ShowsFiles [ch 'r'] smallTree :=
    ⟨hshows.lstat_dir, hshows.lstat_node, hshows.readlink_link⟩
  have hknown := known_of_listable (List.cons_ne_nil _ _) hfiles hshows.lists.silent hw hlist
    [nameA] (by simp) ⟨_, _, rfl⟩
  cases hknown

end CatalogFS
