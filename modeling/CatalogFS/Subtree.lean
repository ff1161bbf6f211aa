import CatalogFS.Completeness

namespace CatalogFS

open CLib

variable {T : Tree} {qs : List FileName} {a : Attr} {ch : List (FileName × Node)}

def Tree.subtree (T : Tree) (qs : List FileName) (a : Attr) (ch : List (FileName × Node))
    (h : T.get qs = some (.dir a ch)) : Tree where
  attr := a
  children := ch
  distinct cs a' ch' hget := T.distinct (qs ++ cs) a' ch' <| by
    have hT : (Node.dir T.attr T.children).get qs = some (.dir a ch) := h
    rw [Node.get_append, hT]
    exact hget

theorem Tree.get_subtree (h : T.get qs = some (.dir a ch)) (cs : List FileName) :
    (T.subtree qs a ch h).get cs = T.get (qs ++ cs) := by
  have hT : T.root.get qs = some (.dir a ch) := h
  rw [Tree.get, Tree.get, Node.get_append, hT]
  rfl

theorem pathString_append_dirPath (qs cs : List FileName) :
    dirPath (qs ++ cs) = pathString qs ++ dirPath cs := by
  simp [dirPath, pathString_append]

theorem Host.Shows.subtree {host : Host} {inputDir : Bytes}
    (hshows : host.Shows inputDir T noFailure) (h : T.get qs = some (.dir a ch)) (hqs : qs ≠ []) :
    host.Shows (inputDir ++ pathString qs) (T.subtree qs a ch h) noFailure where
  lstat_dir cs a' ch' hget := by
    rw [List.append_assoc, ← pathString_append_dirPath]
    exact hshows.lstat_dir (qs ++ cs) a' ch' (Tree.get_subtree h cs ▸ hget)
  lstat_node cs node _ hget := by
    rw [List.append_assoc, ← pathString_append]
    exact hshows.lstat_node (qs ++ cs) node (by simp [hqs]) (Tree.get_subtree h cs ▸ hget)
  readlink_link cs a' t hget := by
    rw [List.append_assoc, ← pathString_append]
    exact hshows.readlink_link (qs ++ cs) a' t (Tree.get_subtree h cs ▸ hget)
  readdir_dir cs a' ch' hget hf := by
    rw [List.append_assoc, ← pathString_append]
    exact hshows.readdir_dir (qs ++ cs) a' ch' (Tree.get_subtree h cs ▸ hget) hf
  readdir_fails cs a' ch' _ hf := by
    cases hf

/-- A record of the whole tree as the record of a tree `q` above it would have it. -/
def Record.below (q : Bytes) (r : Record) : Record :=
  { r with path := r.path.drop q.length, depth := r.depth - findDepth q }

theorem below_nodeRecord (hqs : qs ≠ []) {p : Bytes} (hp : p.head? = some slash) (node : Node) :
    (nodeRecord (pathString qs ++ p) node).below (pathString qs) = nodeRecord p node := by
  obtain ⟨c, cs, rfl⟩ := List.exists_cons_of_ne_nil hqs
  have hd : findDepth (pathString (c :: cs) ++ p) - findDepth (pathString (c :: cs)) =
      findDepth p := by
    rw [findDepth_append rfl, findDepth_of_head? hp]
    omega
  simp only [Record.below, nodeRecord, recordOf, List.drop_left, hd]

theorem map_below_block (h : T.get qs = some (.dir a ch)) (hqs : qs ≠ []) (cs : List FileName) :
    (T.block noFailure (qs ++ cs)).map (Record.below (pathString qs)) =
      (T.subtree qs a ch h).block noFailure cs := by
  have hpre : ∀ n, dirPath (qs ++ cs) ++ n = pathString qs ++ (dirPath cs ++ n) := fun n => by
    rw [pathString_append_dirPath, List.append_assoc]
  have hhead : ∀ n, (dirPath cs ++ n).head? = some slash := fun n => by
    rw [List.head?_append, head?_dirPath]; rfl
  rw [Tree.block, Tree.block, Tree.get_subtree h]
  cases T.get (qs ++ cs) with
  | none => rfl
  | some node =>
    cases node with
    | leaf t b => rfl
    | link b t => rfl
    | dir b ch' =>
      have hown : dirPath (qs ++ cs) = pathString qs ++ dirPath cs := pathString_append_dirPath qs cs
      simp only [noFailure, List.map_cons, Bool.false_eq_true, if_false, List.map_map]
      rw [hown, below_nodeRecord hqs (head?_dirPath cs)]
      refine congrArg _ (List.map_congr_left fun e _ => ?_)
      rw [Function.comp_apply, List.append_assoc, below_nodeRecord hqs (hhead _)]

theorem subdirs_append (h : T.get qs = some (.dir a ch)) (cs : List FileName) :
    T.subdirs noFailure (qs ++ cs) =
      ((T.subtree qs a ch h).subdirs noFailure cs).map fun ds => qs ++ ds := by
  rw [Tree.subdirs, Tree.subdirs, Tree.get_subtree h]
  cases T.get (qs ++ cs) with
  | none => rfl
  | some node =>
    cases node with
    | leaf t b => rfl
    | link b t => rfl
    | dir b ch' => simp [noFailure, Function.comp_def]

/-- The directories of one level that lie in the subtree are those of a level of the subtree. -/
theorem filter_level (h : T.get qs = some (.dir a ch)) (i : ℕ) :
    (Worklist.level (T.subdirs noFailure) [[]] (qs.length + i)).filter (fun cs => qs.isPrefixOf cs) =
      (Worklist.level ((T.subtree qs a ch h).subdirs noFailure) [[]] i).map fun cs => qs ++ cs := by
  induction i with
  | zero =>
    -- on its own level the subtree is its root alone
    have heq : ∀ cs ∈ Worklist.level (T.subdirs noFailure) [[]] qs.length,
        qs.isPrefixOf cs = decide (cs = qs) := by
      intro cs hcs
      have hlen := (level_isDir T noFailure _ cs hcs).2
      rw [Bool.eq_iff_iff, List.isPrefixOf_iff_prefix, decide_eq_true_iff]
      exact ⟨fun hp => (hp.eq_of_length hlen.symm).symm, fun hp => hp ▸ List.prefix_rfl⟩
    have hreached : T.Reached noFailure qs := reached_of_isDir ⟨a, ch, h⟩
    have hnodup : (Worklist.level (T.subdirs noFailure) [[]] qs.length).Nodup := nodup_level _
    rw [Nat.add_zero, List.filter_congr heq, List.filter_eq,
      List.count_eq_one_of_mem hnodup (mem_level_of_reached hreached)]
    simp [Worklist.level]
  | succ i ih =>
    -- below that level a directory is in the subtree exactly when its parent is
    have hkids : ∀ cs ∈ Worklist.level (T.subdirs noFailure) [[]] (qs.length + i),
        ∀ ds ∈ T.subdirs noFailure cs, qs.isPrefixOf ds = qs.isPrefixOf cs := by
      intro cs hcs ds hds
      have hlen := (level_isDir T noFailure _ cs hcs).2
      obtain ⟨-, -, c, rfl, -⟩ := mem_subdirs.mp hds
      rw [Bool.eq_iff_iff, List.isPrefixOf_iff_prefix, List.isPrefixOf_iff_prefix]
      exact ⟨fun hp => List.prefix_of_prefix_length_le hp (List.prefix_append _ _) (by omega),
        fun hp => hp.trans (List.prefix_append _ _)⟩
    rw [← Nat.add_assoc, Worklist.level, Worklist.filter_flatMap_kids hkids, ih, Worklist.level,
      List.flatMap_map, List.map_flatMap]
    exact List.flatMap_congr fun cs _ => subdirs_append h cs

theorem filter_level_of_lt {i : ℕ} (hi : i < qs.length) :
    (Worklist.level (T.subdirs noFailure) [[]] i).filter (fun cs => qs.isPrefixOf cs) = [] := by
  apply List.filter_eq_nil_iff.mpr
  intro cs hcs hp
  have := (List.isPrefixOf_iff_prefix.mp hp).length_le
  have := (level_isDir T noFailure i cs hcs).2
  omega

/-- The directories of the whole listing that lie in the subtree, in order. -/
theorem filter_dirs (h : T.get qs = some (.dir a ch)) :
    (T.dirs noFailure).filter (fun cs => qs.isPrefixOf cs) =
      ((T.subtree qs a ch h).dirs noFailure).map fun cs => qs ++ cs := by
  have hT := level_eq_nil T noFailure
  have hQ := level_eq_nil (T.subtree qs a ch h) noFailure
  generalize hn : sizeOf T.root = n at hT
  generalize hm : sizeOf (T.subtree qs a ch h).root = m at hQ
  rw [Tree.dirs, Tree.dirs, hn, hm,
    ← Worklist.order_eq_of_le _ hT (show n ≤ qs.length + (m + n) by omega),
    ← Worklist.order_eq_of_le _ hQ (show m ≤ m + n by omega), Worklist.order, Worklist.order,
    List.range_add, List.flatMap_append, List.filter_append, List.filter_flatMap,
    List.filter_flatMap, List.flatMap_map, List.map_flatMap]
  rw [List.flatMap_eq_nil_iff.mpr fun i hi => filter_level_of_lt (List.mem_range.mp hi),
    List.nil_append]
  exact List.flatMap_congr fun i _ => filter_level h i

theorem filter_block (cs : List FileName) :
    (T.block noFailure cs).filter (fun r => (dirPath qs).isPrefixOf r.path) =
      if qs.isPrefixOf cs then T.block noFailure cs else [] := by
  have hiff : ∀ r ∈ T.block noFailure cs,
      ((dirPath qs).isPrefixOf r.path = true ↔ qs.isPrefixOf cs = true) := by
    intro r hr
    obtain ⟨n, hn, hp, -⟩ := exists_of_mem_block hr
    rw [List.isPrefixOf_iff_prefix, List.isPrefixOf_iff_prefix, hp, dirPath_prefix_iff hn]
  split_ifs with hc
  · exact List.filter_eq_self.mpr fun r hr => (hiff r hr).mpr hc
  · exact List.filter_eq_nil_iff.mpr fun r hr hp => hc ((hiff r hr).mp hp)

theorem records_subtree (h : T.get qs = some (.dir a ch)) (hqs : qs ≠ []) :
    (T.subtree qs a ch h).records noFailure =
      ((T.records noFailure).filter fun r => (dirPath qs).isPrefixOf r.path).map
        (Record.below (pathString qs)) := by
  have hfilter : (T.records noFailure).filter (fun r => (dirPath qs).isPrefixOf r.path) =
      ((T.dirs noFailure).filter fun cs => qs.isPrefixOf cs).flatMap (T.block noFailure) := by
    rw [Tree.records, List.filter_flatMap]
    generalize T.dirs noFailure = l
    induction l with
    | nil => rfl
    | cons cs l ih =>
      rw [List.flatMap_cons, ih, filter_block]
      cases hp : qs.isPrefixOf cs <;> simp [hp]
  rw [hfilter, filter_dirs h, List.flatMap_map, List.map_flatMap]
  exact List.flatMap_congr fun cs _ => (map_below_block h hqs cs).symm

/-- Running `catalog_listing` on a directory of a tree gives the records that the run on the whole
tree writes below that directory, in order, with the directory's path and depth taken off. -/
theorem catalogListing_subtree {host : Host} {inputDir : Bytes} (hne : inputDir ≠ [])
    (hshows : host.Shows inputDir T noFailure) (hqs : qs ≠ []) (h : T.get qs = some (.dir a ch)) :
    ∃ recs recs', Writes host inputDir recs ∧ Writes host (inputDir ++ pathString qs) recs' ∧
      recs' = (recs.filter fun r => (pathString qs ++ [slash]).isPrefixOf r.path).map fun r =>
        { r with
          path := r.path.drop (pathString qs).length
          depth := r.depth - findDepth (pathString qs) } :=
  ⟨_, _, (writes_iff hshows hne).mpr rfl,
    (writes_iff (hshows.subtree h hqs) (List.append_ne_nil_of_left_ne_nil hne _)).mpr rfl,
    records_subtree h hqs⟩

theorem catalogListing_subtree_smallTree :
    ∃ recs recs', Writes (treeHost [CLib.ch 'r'] smallTree noFailure) [CLib.ch 'r'] recs ∧
      Writes (treeHost [CLib.ch 'r'] smallTree noFailure) [CLib.ch 'r', slash, CLib.ch 'a'] recs' ∧
      recs' = (recs.filter fun r => ([slash, CLib.ch 'a'] ++ [slash]).isPrefixOf r.path).map fun r =>
        { r with
          path := r.path.drop [slash, CLib.ch 'a'].length
          depth := r.depth - findDepth [slash, CLib.ch 'a'] } :=
  catalogListing_subtree (List.cons_ne_nil _ _)
    (treeHost_shows [CLib.ch 'r'] smallTree noFailure) (List.cons_ne_nil nameA []) rfl

end CatalogFS
