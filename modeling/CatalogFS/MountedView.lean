import CatalogFS.Agreement

namespace CatalogFS

open CLib

variable {T : Tree}

/-- A path in the form in which FUSE passes it. -/
def FusePath (p : Bytes) : Prop := p ≠ [] ∧ (p = [slash] ∨ p.getLast? ≠ some slash)

theorem getLast?_pathString (cs : List FileName) : (pathString cs).getLast? ≠ some slash := by
  rcases List.eq_nil_or_concat' cs with rfl | ⟨ds, c, rfl⟩
  · simp
  · rw [pathString_concat]
    exact getLast?_entry ds c

theorem fusePath_nodePath (cs : List FileName) : FusePath (nodePath cs) := by
  unfold FusePath nodePath
  split_ifs with hcs
  · simp
  · obtain ⟨c, ds, rfl⟩ := List.exists_cons_of_ne_nil hcs
    exact ⟨by simp, .inr (getLast?_pathString _)⟩

theorem pathString_ne_slash (cs : List FileName) : pathString cs ≠ [slash] := by
  cases cs with
  | nil => simp
  | cons c cs =>
    intro h
    rw [pathString_cons] at h
    exact c.ne_nil (List.append_eq_nil_iff.mp (List.cons.inj h).2).1

theorem withSlash_nodePath (cs : List FileName) : withSlash (nodePath cs) = dirPath cs := by
  unfold withSlash nodePath
  by_cases hcs : cs = []
  · subst hcs
    simp [dirPath]
  · have hne : strcmp (pathString cs) [slash] ≠ .eq := fun h =>
      pathString_ne_slash cs (strcmp_eq_eq.mp h)
    rw [if_neg hcs, if_pos hne]
    rfl

theorem dirPath_eq_withSlash {p : Bytes} (hp : p ≠ []) {cs : List FileName}
    (h : dirPath cs = withSlash p) : p = nodePath cs := by
  unfold withSlash at h
  split_ifs at h with hs
  · have hpath : pathString cs = p := List.append_cancel_right h
    rw [nodePath, if_neg (fun hcs => hp (by rw [← hpath, hcs]; rfl)), hpath]
  · have hp' : p = [slash] := strcmp_eq_eq.mp (not_not.mp hs)
    rw [hp', dirPath] at h
    have hnil : pathString cs = [] :=
      List.append_cancel_right (h : pathString cs ++ [slash] = [] ++ [slash])
    have hcs : cs = [] := by
      cases cs with
      | nil => rfl
      | cons c cs => simp at hnil
    rw [hp', hcs]
    rfl

theorem stat_nodeRecord (p : Bytes) (node : Node) : (nodeRecord p node).stat = node.stat :=
  stat_recordOf _ _ _ _

theorem exists_entry {cs : List FileName} {node : Node} (h : T.get cs = some node) :
    ∃ e ∈ T.entries, e.path = nodePath cs ∧ e.st = node.stat := by
  rcases List.eq_nil_or_concat cs with rfl | ⟨ds, c, rfl⟩
  · have hroot : T.get [] = some T.root := by simp [Tree.get]
    obtain rfl : node = T.root := Option.some.inj (h.symm.trans hroot)
    exact ⟨_, List.mem_map_of_mem (mem_records_iff.mpr (.inl ⟨[], _, _, .root, hroot, rfl⟩)), rfl,
      stat_nodeRecord _ _⟩
  · rw [List.concat_eq_append] at h ⊢
    refine ⟨_, List.mem_map_of_mem (mem_records_iff.mpr (.inr ⟨ds, c, node,
      reached_of_isDir (isDir_of_get_concat h), rfl, h, rfl⟩)), ?_, stat_nodeRecord _ _⟩
    rw [nodePath, if_neg (by simp), pathString_concat]
    rfl

theorem exists_node {e : Entry} (he : e ∈ T.entries) (hp : FusePath e.path) :
    ∃ cs node, T.get cs = some node ∧ e.path = nodePath cs ∧ e.st = node.stat := by
  obtain ⟨r, hr, rfl⟩ := List.mem_map.mp he
  rcases mem_records_iff.mp hr with ⟨cs, a, ch, -, hget, rfl⟩ | ⟨cs, c, node, -, -, hget, rfl⟩
  · -- a directory's own record ends in a slash
    have hslash : dirPath cs = [slash] :=
      hp.2.resolve_right fun h => h List.getLast?_concat
    refine ⟨cs, _, hget, ?_, stat_nodeRecord _ _⟩
    have hcs : dirPath cs = withSlash (dirPath cs) := by
      conv_rhs => rw [hslash]
      rw [hslash]
      rfl
    exact dirPath_eq_withSlash hp.1 hcs
  · refine ⟨cs ++ [c], node, hget, ?_, stat_nodeRecord _ _⟩
    rw [nodePath, if_neg (by simp), pathString_concat]
    rfl

theorem locate_eq_of_ne {k : ℕ} {e : Entry} (he : T.entries[k]? = some e)
    (hne : locate T.entries e.path ≠ -1) : locate T.entries e.path = k := by
  rcases locate_cases (depthSorted_entries T) e.path with h | ⟨k', e', hl, he', hpath, -, -⟩
  · exact absurd h hne
  · have hnodup : T.entries.Pairwise fun a b => a.path ≠ b.path :=
      List.pairwise_map.mpr (pairwise_path_ne.imp fun h => h)
    obtain ⟨hk, rfl⟩ := List.getElem?_eq_some_iff.mp he
    obtain ⟨hk', rfl⟩ := List.getElem?_eq_some_iff.mp he'
    rw [hl]
    rcases lt_trichotomy k k' with hlt | rfl | hlt
    · exact absurd hpath.symm (List.pairwise_iff_getElem.mp hnodup _ _ hk hk' hlt)
    · rfl
    · exact absurd hpath (List.pairwise_iff_getElem.mp hnodup _ _ hk' hk hlt)

theorem locate_nodePath_ne (hslash : T.SlashOrdered) {cs : List FileName} {node : Node}
    (hget : T.get cs = some node) : locate T.entries (nodePath cs) ≠ -1 := by
  obtain ⟨e, he, hpath, -⟩ := exists_entry hget
  obtain ⟨k, hk⟩ := List.mem_iff_getElem?.mp he
  rw [← hpath, (locate_entries_iff T).mpr hslash k e hk]
  omega

/-- When the search finds the own record of every directory that it finds as an entry, sibling names
agree with the slash: by induction on the levels, since the entries of a level are found when the
paths of its directories ascend, and own records that are found ascend. -/
theorem slashOrdered_iff_found (T : Tree) :
    (∀ cs, T.IsDir cs → locate T.entries (nodePath cs) ≠ -1 → locate T.entries (dirPath cs) ≠ -1) ↔
      T.SlashOrdered := by
  constructor
  · intro h
    apply slashOrdered_of_pairwise_level
    intro i
    induction i with
    | zero => exact List.pairwise_singleton _ _
    | succ i ih =>
      have hasc : AscendsAt T.entries ((i : ℤ) + 1) :=
        List.pairwise_map.mpr ((pairwise_path_of_level ih).imp fun hlt hr hs => (hlt hr hs).le)
      have hfound : ∀ (k : ℕ) (e : Entry), T.entries[k]? = some e → ∀ cs, cs.length = i + 1 →
          e.path = dirPath cs → locate T.entries e.path = k := by
        intro k e he cs hcs hpath
        obtain ⟨r, hr, rfl⟩ := List.mem_map.mp (List.mem_of_getElem? he)
        have hrp : r.path = dirPath cs ++ [] := (List.append_nil _).symm ▸ hpath
        obtain ⟨hmem, -⟩ := mem_block_of_path hr List.not_mem_nil hrp
        obtain ⟨a, ch, hget⟩ := mem_dirs hmem
        obtain ⟨x, hx, hxp, -⟩ := exists_entry hget
        obtain ⟨ds, c, rfl⟩ : ∃ ds c, cs = ds ++ [c] := by
          rcases List.eq_nil_or_concat' cs with rfl | h
          · simp at hcs
          · exact h
        have hnode : nodePath (ds ++ [c]) = dirPath ds ++ c.val := by
          rw [nodePath, if_neg (by simp), pathString_concat]
        have hds : ds.length = i := by simpa using hcs
        have hxd : x.depth = (i : ℤ) + 1 := by
          rw [depth_entries T x hx, hxp, hnode, findDepth_dirPath_append ds c.slash_notMem, hds]
        obtain ⟨m, -, hm, -, -⟩ := exists_locate_of_ascendsAt (depthSorted_entries T) hx
          (depth_entries T x hx) (hxd ▸ hasc) (depth_entries_pos T x hx)
        apply locate_eq_of_ne he
        rw [hpath]
        apply h _ ⟨a, ch, hget⟩
        rw [← hxp, hm]
        omega
      apply pairwise_level_of_own
      rw [List.pairwise_iff_getElem]
      rintro j k hj hk hjk ⟨cs, ds, hcs, hds, hrp, hsp⟩
      have hej : T.entries[j]? = some (T.records noFailure)[j].entry := by
        rw [Tree.entries, List.getElem?_map, List.getElem?_eq_getElem hj]
        rfl
      have hek : T.entries[k]? = some (T.records noFailure)[k].entry := by
        rw [Tree.entries, List.getElem?_map, List.getElem?_eq_getElem hk]
        rfl
      have hdj := depth_entries T _ (List.mem_of_getElem? hej)
      have hdk := depth_entries T _ (List.mem_of_getElem? hek)
      have hpj : (T.records noFailure)[j].entry.path = dirPath cs := hrp
      have hpk : (T.records noFailure)[k].entry.path = dirPath ds := hsp
      have hdepth : (T.records noFailure)[j].entry.depth = (T.records noFailure)[k].entry.depth := by
        rw [hdj, hdk, hpj, hpk, findDepth_dirPath, findDepth_dirPath, hcs, hds]
      exact lt_of_located hej hek hdj hdk hdepth (depth_entries_pos T _ (List.mem_of_getElem? hej))
        (hfound j _ hej cs hcs hpj) (hfound k _ hek ds hds hpk) hjk
  · intro hslash cs hdir _
    obtain ⟨r, hr, hpath⟩ := dirPath_mem_block hdir
    have hmem : r.entry ∈ T.entries := List.mem_map_of_mem <| List.mem_flatMap.mpr
      ⟨cs, mem_dirs_iff.mpr (reached_of_isDir hdir), hr⟩
    obtain ⟨k, hk⟩ := List.mem_iff_getElem?.mp hmem
    have hloc := (locate_entries_iff T).mpr hslash k _ hk
    rw [show r.entry.path = dirPath cs from hpath] at hloc
    omega

theorem takeWhile_append_of_forall {α : Type} {p : α → Bool} {l₁ l₂ : List α}
    (h₁ : ∀ a ∈ l₁, p a = true) (h₂ : ∀ a ∈ l₂, p a = false) : (l₁ ++ l₂).takeWhile p = l₁ := by
  rw [List.takeWhile_append_of_pos h₁]
  cases l₂ with
  | nil => simp
  | cons a l₂ => simp [h₂ a List.mem_cons_self]

theorem inDirectory_entry {cs ds : List FileName} {r : Record} (hr : r ∈ T.block noFailure ds) :
    inDirectory (dirPath cs) r.entry = decide (cs = ds) := by
  obtain ⟨n, hn, hp, hd⟩ := exists_of_mem_block hr
  have hpath : r.entry.path = dirPath ds ++ n := hp
  have hdepth : r.entry.depth = ds.length + 1 := hd
  rw [inDirectory, hpath, hdepth, findDepth_dirPath]
  apply decide_eq_decide.mpr
  constructor
  · rintro ⟨hlen, hpre⟩
    exact ((dirPath_prefix_iff hn).mp hpre).eq_of_length (by omega)
  · rintro rfl
    exact ⟨rfl, List.prefix_append _ _⟩

section Listing

variable {cs : List FileName} {a : Attr} {ch : List (FileName × Node)}
  (h : T.get cs = some (.dir a ch))

include h

theorem block_of_dir : T.block noFailure cs = nodeRecord (dirPath cs) (.dir a ch) ::
    (byName ch).map fun e => nodeRecord (dirPath cs ++ e.1.val) e.2 := by
  simp [Tree.block, h, noFailure]

theorem inDirectory_child {x : FileName × Node} (hx : x ∈ byName ch) :
    inDirectory (dirPath cs) (nodeRecord (dirPath cs ++ x.1.val) x.2).entry = true := by
  have hmem : nodeRecord (dirPath cs ++ x.1.val) x.2 ∈ T.block noFailure cs := by
    rw [block_of_dir h]
    exact List.mem_cons_of_mem _ (List.mem_map_of_mem hx)
  rw [inDirectory_entry hmem]
  simp

/-- Behind a directory's own entry stand those of its entries by name and then other
directories. -/
theorem exists_entries_eq : ∃ before after : List Entry,
    T.entries = before ++ (nodeRecord (dirPath cs) (.dir a ch)).entry ::
      ((byName ch).map (fun e => (nodeRecord (dirPath cs ++ e.1.val) e.2).entry) ++ after) ∧
    ∀ e ∈ after, inDirectory (dirPath cs) e = false := by
  obtain ⟨l₁, l₂, hdirs⟩ := List.append_of_mem (mem_dirs_iff.mpr (reached_of_isDir ⟨a, ch, h⟩))
  refine ⟨(l₁.flatMap (T.block noFailure)).map Record.entry,
    (l₂.flatMap (T.block noFailure)).map Record.entry, ?_, ?_⟩
  · rw [Tree.entries, Tree.records, hdirs, List.flatMap_append, List.flatMap_cons, block_of_dir h]
    simp [Function.comp_def]
  · intro e he
    obtain ⟨r, hr, rfl⟩ := List.mem_map.mp he
    obtain ⟨ds, hds, hr⟩ := List.mem_flatMap.mp hr
    have hpair : (T.dirs noFailure).Pairwise fun cs ds => cs.length ≤ ds.length ∧ cs ≠ ds :=
      pairwise_dirs
    rw [hdirs] at hpair
    have hne := ((List.pairwise_cons.mp (List.pairwise_append.mp hpair).2.1).1 ds hds).2
    rw [inDirectory_entry hr]
    simpa using hne

theorem listed_entries (hl : locate T.entries (dirPath cs) ≠ -1) :
    listed T.entries (dirPath cs) =
      (byName ch).map fun e => (nodeRecord (dirPath cs ++ e.1.val) e.2).entry := by
  obtain ⟨before, after, hentries, hafter⟩ := exists_entries_eq h
  have hown : T.entries[before.length]? = some (nodeRecord (dirPath cs) (.dir a ch)).entry := by
    rw [hentries]
    simp
  have hloc : locate T.entries (dirPath cs) = before.length := locate_eq_of_ne hown hl
  have hdrop : T.entries.drop (before.length + 1) =
      (byName ch).map (fun e => (nodeRecord (dirPath cs ++ e.1.val) e.2).entry) ++ after := by
    rw [hentries, List.drop_append]
    simp
  rw [listed, hloc, Int.toNat_natCast, hdrop]
  apply takeWhile_append_of_forall
  · intro e he
    obtain ⟨x, hx, rfl⟩ := List.mem_map.mp he
    exact inDirectory_child h hx
  · exact hafter

end Listing

section Calls

variable {probes : ℕ → Probe} (hclean : T.Clean)
  (hsize : maxLen (catalogFile (T.records noFailure)) *
    (lines (catalogFile (T.records noFailure))).length < 2 ^ 31)
  (hserves : Serves probes (catalogFile (T.records noFailure)))

include hclean hsize hserves

theorem returns_getattr_cases {p : Bytes} (hp : FusePath p) :
    Returns probes (catalogGetattr (geometry (catalogFile (T.records noFailure))) p)
        (-ENOENT, Stat.zero) ∨
      ∃ cs node, T.get cs = some node ∧ p = nodePath cs ∧
        Returns probes (catalogGetattr (geometry (catalogFile (T.records noFailure))) p)
          (0, node.stat) := by
  have hcat := (isCatalog_tree hclean hsize).readable
  have hsorted := depthSorted_entries T
  rcases locate_cases hsorted p with hl | ⟨k, e, hl, he, hpath, -, -⟩
  · exact .inl (returns_catalogGetattr_of_neg hserves hcat hsorted hl)
  · obtain ⟨cs, node, hget, hcs, hst⟩ := exists_node (List.mem_of_getElem? he) (hpath ▸ hp)
    refine .inr ⟨cs, node, hget, hpath ▸ hcs, ?_⟩
    rw [← hst]
    exact returns_catalogGetattr hserves hcat hsorted hl he

theorem returns_readdir_of_locate {cs : List FileName} {a : Attr} {ch : List (FileName × Node)}
    (h : T.get cs = some (.dir a ch)) (hl : locate T.entries (dirPath cs) ≠ -1) :
    Returns probes (catalogReaddir (geometry (catalogFile (T.records noFailure))) roomy
        (nodePath cs))
      (0, dots ++ (byName ch).map fun e => ⟨e.1.val, some e.2.stat⟩) := by
  have hsorted := depthSorted_entries T
  rcases locate_cases hsorted (dirPath cs) with hneg | ⟨k, e, hk, he, -, -, -⟩
  · exact absurd hneg hl
  have hret := returns_catalogReaddir hserves (isCatalog_tree hclean hsize).readable hsorted
    (P := nodePath cs) (by rw [withSlash_nodePath]; exact hk) (List.getElem?_eq_some_iff.mp he).1
  have hnames : ((byName ch).map fun e => (nodeRecord (dirPath cs ++ e.1.val) e.2).entry).map
      (fun e => (⟨basename e.path, some e.st⟩ : Filled)) =
      (byName ch).map fun e => ⟨e.1.val, some e.2.stat⟩ := by
    rw [List.map_map]
    refine List.map_congr_left fun x _ => ?_
    have hbase : basename (dirPath cs ++ x.1.val) = x.1.val :=
      basename_append List.getLast?_concat x.1.slash_notMem
    have hst : (nodeRecord (dirPath cs ++ x.1.val) x.2).stat = x.2.stat := stat_nodeRecord _ _
    simp only [Function.comp_apply, Record.entry, nodeRecord_path, hbase, hst]
  rw [withSlash_nodePath, listed_entries h hl, hnames] at hret
  exact hret

theorem returns_readdir_cases {p : Bytes} (hp : p ≠ []) :
    Returns probes (catalogReaddir (geometry (catalogFile (T.records noFailure))) roomy p)
        (-ENOENT, dots) ∨
      ∃ cs a ch, T.get cs = some (.dir a ch) ∧ p = nodePath cs ∧
        Returns probes (catalogReaddir (geometry (catalogFile (T.records noFailure))) roomy p)
          (0, dots ++ (byName ch).map fun e => ⟨e.1.val, some e.2.stat⟩) := by
  have hsorted := depthSorted_entries T
  rcases locate_cases hsorted (withSlash p) with hl | ⟨k, e, hl, he, hpath, -, -⟩
  · exact .inl (returns_catalogReaddir_of_neg hserves (isCatalog_tree hclean hsize).readable hsorted _ hl)
  · obtain ⟨r, hr, rfl⟩ := List.mem_map.mp (List.mem_of_getElem? he)
    have hlast := getLast?_withSlash p
    rcases mem_records_iff.mp hr with ⟨cs, a, ch, -, hget, rfl⟩ | ⟨cs, c, node, -, -, -, rfl⟩
    · have hcs := dirPath_eq_withSlash hp hpath
      have hne : locate T.entries (dirPath cs) ≠ -1 := by
        rw [show dirPath cs = withSlash p from hpath]
        omega
      refine .inr ⟨cs, a, ch, hget, hcs, ?_⟩
      rw [hcs]
      exact returns_readdir_of_locate hclean hsize hserves hget hne
    · -- the record of an entry does not end in a slash
      rw [← hpath] at hlast
      obtain ⟨n, b, hn⟩ := (List.eq_nil_or_concat c.val).resolve_left c.ne_nil
      have hb : b = slash := by
        have hcons : (dirPath cs ++ c.val).getLast? = some slash := hlast
        rw [hn, List.concat_eq_append, ← List.append_assoc, List.getLast?_concat] at hcons
        exact Option.some.inj hcons
      exact absurd (by rw [hn, hb]; simp) c.slash_notMem

end Calls

/-- What is shown at a path is `-ENOENT` or the truth: the attributes of the file of the tree with
that path, and all entries of the directory with that path, each once, and none of another. -/
structure TellsTruth (file : Bytes) (T : Tree) (probes : ℕ → Probe) (p : Bytes) : Prop where
  getattr : Returns probes (catalogGetattr (geometry file) p) (-ENOENT, Stat.zero) ∨
    ∃ cs node, T.get cs = some node ∧ p = nodePath cs ∧
      Returns probes (catalogGetattr (geometry file) p) (0, node.stat)
  readdir : Returns probes (catalogReaddir (geometry file) roomy p) (-ENOENT, dots) ∨
    ∃ cs a ch, T.get cs = some (.dir a ch) ∧ p = nodePath cs ∧
      ∃ filled : List (FileName × Node), filled.Perm ch ∧
        Returns probes (catalogReaddir (geometry file) roomy p)
          (0, dots ++ filled.map fun e => ⟨e.1.val, some e.2.stat⟩)

/-- The lookup never lies on the catalog generated from a tree, whatever the names of sibling
directories. Strings are not bounded here: by `agree_getEntryFromCatalogBounded` a read that overflows
no buffer is the same. -/
theorem lookup_sound {host : Host} {inputDir : Bytes} (hne : inputDir ≠ [])
    (hshows : host.Shows inputDir T noFailure) (hclean : T.Clean) :
    ∃ recs, Writes host inputDir recs ∧
      (maxLen (catalogFile recs) * (lines (catalogFile recs)).length < 2 ^ 31 →
        ∀ probes, Serves probes (catalogFile recs) → ∀ p, FusePath p →
          TellsTruth (catalogFile recs) T probes p) := by
  refine ⟨_, (writes_iff hshows hne).mpr rfl, fun hsize probes hserves p hp =>
    ⟨returns_getattr_cases hclean hsize hserves hp, ?_⟩⟩
  rcases returns_readdir_cases hclean hsize hserves hp.1 with h | ⟨cs, a, ch, hget, hcs, h⟩
  · exact .inl h
  · exact .inr ⟨cs, a, ch, hget, hcs, byName ch, List.perm_insertionSort _ ch, h⟩

theorem lookup_sound_smallTree :
    ∃ recs, Writes (treeHost [ch 'r'] smallTree noFailure) [ch 'r'] recs ∧
      ∀ probes, Serves probes (catalogFile recs) →
        TellsTruth (catalogFile recs) smallTree probes [slash, ch 'a'] := by
  have hshows := treeHost_shows [ch 'r'] smallTree noFailure
  obtain ⟨recs, hw, h⟩ := lookup_sound (by decide) hshows smallTree_clean
  obtain rfl := writes_unique hshows (by decide) hw writes_smallRecords
  exact ⟨smallRecords, hw, fun probes hserves => h (by decide) probes hserves _ (by
    unfold FusePath; decide)⟩

/-- With clean names alone the lookup can lie: the line in the target of the link is shown as a
file `/aaa`. -/
theorem not_lookup_sound_of_namesClean :
    ¬ ∀ (T : Tree) (host : Host) (inputDir : Bytes), inputDir ≠ [] →
      host.Shows inputDir T noFailure → T.NamesClean →
      ∃ recs, Writes host inputDir recs ∧
        (maxLen (catalogFile recs) * (lines (catalogFile recs)).length < 2 ^ 31 →
          ∀ probes, Serves probes (catalogFile recs) → ∀ p, FusePath p →
            TellsTruth (catalogFile recs) T probes p) := by
  intro h
  have hshows := treeHost_shows [ch 'r'] lineTree noFailure
  obtain ⟨recs, hw, hrest⟩ := h lineTree _ [ch 'r'] (by decide) hshows lineTree_namesClean
  obtain rfl := writes_unique hshows (by decide) hw writes_lineRecords
  have hfuse : FusePath [slash, ch 'a', ch 'a', ch 'a'] := by
    unfold FusePath
    decide
  have hloc : locate (shownRecords.map Record.entry) [slash, ch 'a', ch 'a', ch 'a'] = 2 := by decide
  have hshown := returns_catalogGetattr (serves_steady _) isCatalog_lineRecords.readable
    depthSorted_shownRecords hloc rfl
  rcases (hrest (by decide) _ (serves_steady _) _ hfuse).getattr with hno | ⟨cs, node, hget, hp, -⟩
  · exact absurd (congrArg Prod.fst (hshown.unique hno)) zero_ne_neg_ENOENT
  · exact lineTree_forall (P := fun cs _ => [slash, ch 'a', ch 'a', ch 'a'] ≠ nodePath cs)
      (by decide) (by decide) (by decide) cs node hget hp

/-- The block of every directory's path has room for the slash that `readdir` appends. -/
def Tree.Roomy (T : Tree) (room : Bytes → ℕ) : Prop := ∀ cs, T.IsDir cs → HasRoom room (nodePath cs)

/-- The mounted catalog file shows the tree: every file has its attributes, every directory lists
exactly its entries, and no other path is there. -/
structure ShowsTree (room : Bytes → ℕ) (file : Bytes) (T : Tree) (probes : ℕ → Probe) : Prop where
  getattr : ∀ cs node, T.get cs = some node →
    Returns probes (catalogGetattr (geometry file) (nodePath cs)) (0, node.stat)
  readdir : ∀ cs a ch, T.get cs = some (.dir a ch) →
    ∃ filled : List (FileName × Node), filled.Perm ch ∧
      Returns probes (catalogReaddirIn room (geometry file) roomy (nodePath cs))
        (0, dots ++ filled.map fun e => ⟨e.1.val, some e.2.stat⟩)
  absent : ∀ p, FusePath p → (∀ cs node, T.get cs = some node → p ≠ nodePath cs) →
    Returns probes (catalogGetattr (geometry file) p) (-ENOENT, Stat.zero)

section Complete

variable {probes : ℕ → Probe} (hclean : T.Clean)
  (hsize : maxLen (catalogFile (T.records noFailure)) *
    (lines (catalogFile (T.records noFailure))).length < 2 ^ 31)
  (hserves : Serves probes (catalogFile (T.records noFailure)))

include hclean hsize hserves

theorem locate_ne_of_readdir {cs : List FileName} {buf : List Filled}
    (h : Returns probes (catalogReaddir (geometry (catalogFile (T.records noFailure))) roomy
      (nodePath cs)) (0, buf)) : locate T.entries (dirPath cs) ≠ -1 := by
  intro hneg
  have hl : locate T.entries (withSlash (nodePath cs)) = -1 := by rwa [withSlash_nodePath]
  have heq := h.unique (returns_catalogReaddir_of_neg hserves
    (isCatalog_tree hclean hsize).readable (depthSorted_entries T) roomy hl)
  exact absurd (congrArg Prod.fst heq) zero_ne_neg_ENOENT

theorem returns_getattr_of_locate {cs : List FileName} {node : Node} (hget : T.get cs = some node)
    (hl : locate T.entries (nodePath cs) ≠ -1) :
    Returns probes (catalogGetattr (geometry (catalogFile (T.records noFailure))) (nodePath cs))
      (0, node.stat) := by
  obtain ⟨e, he, hpath, hst⟩ := exists_entry hget
  obtain ⟨k, hk⟩ := List.mem_iff_getElem?.mp he
  rw [← hpath] at hl ⊢
  rw [← hst]
  exact returns_catalogGetattr hserves (isCatalog_tree hclean hsize).readable (depthSorted_entries T)
    (locate_eq_of_ne hk hl) hk

theorem showsTree_of_slashOrdered {room : Bytes → ℕ} (hslash : T.SlashOrdered) (hroom : T.Roomy room) :
    ShowsTree room (catalogFile (T.records noFailure)) T probes := by
  constructor
  · exact fun cs node hget => returns_getattr_of_locate hclean hsize hserves hget
      (locate_nodePath_ne hslash hget)
  · intro cs a ch hget
    have hl := (slashOrdered_iff_found T).mpr hslash cs ⟨a, ch, hget⟩ (locate_nodePath_ne hslash hget)
    exact ⟨byName ch, List.perm_insertionSort _ ch, returns_catalogReaddirIn_iff.mpr
      ⟨hroom cs ⟨a, ch, hget⟩, returns_readdir_of_locate hclean hsize hserves hget hl⟩⟩
  · intro p hp habsent
    rcases returns_getattr_cases hclean hsize hserves hp with h | ⟨cs, node, hget, hcs, -⟩
    · exact h
    · exact absurd hcs (habsent cs node hget)

/-- If every directory is listed, every record is found at its own location. -/
theorem slashOrdered_of_showsTree {room : Bytes → ℕ}
    (h : ShowsTree room (catalogFile (T.records noFailure)) T probes) :
    T.SlashOrdered ∧ T.Roomy room := by
  have hdir : ∀ cs, T.IsDir cs → HasRoom room (nodePath cs) ∧ locate T.entries (dirPath cs) ≠ -1 := by
    rintro cs ⟨a, ch, hget⟩
    obtain ⟨filled, -, hret⟩ := h.readdir cs a ch hget
    obtain ⟨hroom, hret⟩ := returns_catalogReaddirIn_iff.mp hret
    exact ⟨hroom, locate_ne_of_readdir hclean hsize hserves hret⟩
  exact ⟨(slashOrdered_iff_found T).mp fun cs hcs _ => (hdir cs hcs).2, fun cs hcs => (hdir cs hcs).1⟩

end Complete

/-- The mounted view is the catalogued tree exactly when no directory's name continues a sibling
directory's with a byte below the slash and the block of every directory's path has room for another
slash. -/
theorem mounted_view_iff {host : Host} {inputDir : Bytes} (hne : inputDir ≠ [])
    (hshows : host.Shows inputDir T noFailure) (hclean : T.Clean) :
    ∃ recs, Writes host inputDir recs ∧
      (maxLen (catalogFile recs) * (lines (catalogFile recs)).length < 2 ^ 31 →
        ∀ probes, Serves probes (catalogFile recs) → ∀ room,
          (ShowsTree room (catalogFile recs) T probes ↔ T.SlashOrdered ∧ T.Roomy room)) :=
  ⟨_, (writes_iff hshows hne).mpr rfl, fun hsize _ hserves _ =>
    ⟨slashOrdered_of_showsTree hclean hsize hserves, fun h =>
      showsTree_of_slashOrdered hclean hsize hserves h.1 h.2⟩⟩

theorem mounted_view_smallTree :
    ∃ recs, Writes (treeHost [ch 'r'] smallTree noFailure) [ch 'r'] recs ∧
      ∀ probes, Serves probes (catalogFile recs) →
        (ShowsTree strdupRoom (catalogFile recs) smallTree probes ↔
          smallTree.SlashOrdered ∧ smallTree.Roomy strdupRoom) := by
  have hshows := treeHost_shows [ch 'r'] smallTree noFailure
  obtain ⟨recs, hw, h⟩ := mounted_view_iff (by decide) hshows smallTree_clean
  obtain rfl := writes_unique hshows (by decide) hw writes_smallRecords
  exact ⟨smallRecords, hw, fun probes hserves => h (by decide) probes hserves strdupRoom⟩

theorem smallTree_isDir {cs : List FileName} (h : smallTree.IsDir cs) : cs = [] ∨ cs = [nameA] := by
  obtain ⟨a, ch, hget⟩ := h
  exact smallTree_forall (P := fun cs n => n.isDir = true → cs = [] ∨ cs = [nameA]) (by simp)
    (by simp [Node.isDir]) (by simp) (by simp [Node.isDir]) cs _ hget rfl

theorem smallTree_slashOrdered : smallTree.SlashOrdered := by
  intro cs c d hc hd b s heq
  have hcd : c = d := by
    rcases smallTree_isDir hc with h | h
    · simp at h
    · rcases smallTree_isDir hd with h' | h'
      · simp at h'
      · exact List.singleton_inj.mp (List.append_cancel_left (h.trans h'.symm))
  rw [hcd] at heq
  simp at heq

def nameADash : FileName := .ofBytes [ch 'a', ch '-'] (by decide)

def siblingTree : Tree where
  attr := smallAttr
  children := [(nameA, .dir smallAttr []),
    (nameADash, .dir smallAttr [])]
  distinct := by
    apply Node.distinct_dir (by decide)
    intro e he
    rcases List.mem_pair.mp he with rfl | rfl
    · exact Node.distinct_dir (by decide) (by simp)
    · exact Node.distinct_dir (by decide) (by simp)

theorem siblingTree_forall {P : List FileName → Node → Prop} (hroot : P [] siblingTree.root)
    (ha : P [nameA] (.dir smallAttr []))
    (hb : P [nameADash] (.dir smallAttr [])) :
    ∀ cs m, siblingTree.get cs = some m → P cs m := by
  apply Node.forall_get_dir hroot
  intro e he
  rcases List.mem_pair.mp he with rfl | rfl
  · exact Node.forall_get_dir ha (by simp)
  · exact Node.forall_get_dir hb (by simp)

theorem siblingTree_namesClean : siblingTree.NamesClean :=
  namesClean_of_forall (siblingTree_forall (by simp) (by decide) (by decide))

theorem siblingTree_no_link {cs : List FileName} {a : Attr} {t : Target} :
    siblingTree.get cs ≠ some (.link a t) := fun h =>
  siblingTree_forall (P := fun _ n => n ≠ .link a t) (by simp [Tree.root]) (by simp) (by simp) cs _
    h rfl

def siblingRecords : List Record :=
  [recordOf .dir smallAttr [slash] [], recordOf .dir smallAttr [slash, ch 'a'] [],
    recordOf .dir smallAttr [slash, ch 'a', ch '-'] [],
    recordOf .dir smallAttr [slash, ch 'a', slash] [],
    recordOf .dir smallAttr [slash, ch 'a', ch '-', slash] []]

theorem writes_siblingRecords :
    Writes (treeHost [ch 'r'] siblingTree noFailure) [ch 'r'] siblingRecords :=
  ⟨3, by decide⟩

/-- The directory `a-` cannot be listed: its record stands behind that of `a`, and the search looks
for it in front. -/
theorem not_mounted_view_of_siblings :
    ¬ ∀ (T : Tree) (host : Host) (inputDir : Bytes), inputDir ≠ [] →
      host.Shows inputDir T noFailure → T.NamesClean →
      (∀ cs a t, T.get cs = some (.link a t) → sep ∉ t.val ∧ linkSep ∉ t.val ∧ newline ∉ t.val) →
      ∃ recs, Writes host inputDir recs ∧
        (maxLen (catalogFile recs) * (lines (catalogFile recs)).length < 2 ^ 31 →
          ∀ probes, Serves probes (catalogFile recs) → ∀ room, T.Roomy room →
            ShowsTree room (catalogFile recs) T probes) := by
  intro h
  have hshows := treeHost_shows [ch 'r'] siblingTree noFailure
  obtain ⟨recs, hw, hrest⟩ := h siblingTree _ [ch 'r'] (by decide) hshows siblingTree_namesClean
    fun _ _ _ hlink => absurd hlink siblingTree_no_link
  have hrecs : siblingTree.records noFailure = siblingRecords :=
    ((writes_iff hshows (by decide)).mp writes_siblingRecords).symm
  obtain rfl := writes_unique hshows (by decide) hw writes_siblingRecords
  have hclean : siblingTree.Clean :=
    ⟨siblingTree_namesClean, fun _ _ _ hlink => absurd hlink siblingTree_no_link⟩
  have hcat := isCatalog_tree hclean (by rw [hrecs]; decide)
  rw [hrecs, Tree.entries, hrecs] at hcat
  have hsorted := depthSorted_entries siblingTree
  rw [Tree.entries, hrecs] at hsorted
  have hneg := returns_catalogReaddir_of_neg (serves_steady _) hcat.readable hsorted roomy
    (P := [slash, ch 'a', ch '-']) (by decide)
  obtain ⟨filled, -, hret⟩ := (hrest (by decide) _ (serves_steady _) (fun _ => 1)
    fun _ _ _ => Nat.one_pos).readdir [nameADash] smallAttr [] rfl
  exact absurd (congrArg Prod.fst ((returns_catalogReaddirIn_iff.mp hret).2.unique hneg))
    zero_ne_neg_ENOENT

end CatalogFS
