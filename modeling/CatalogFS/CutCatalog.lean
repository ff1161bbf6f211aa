import CatalogFS.MountedTree

namespace CatalogFS

open CLib

/-- The start of a catalog file as wide as the catalog holds the first records. -/
theorem isCatalog_of_cut {g : Globals} {file : Bytes} {es : List Entry} (hcat : IsCatalog g file es)
    {n : ℕ} (hn : n ≤ g.catalogLen) {file' : Bytes} (h : file.take (g.entrySize * n) <+: file') :
    IsCatalog { g with catalogLen := n } file' (es.take n) := by
  have hcut := hcat.take hn
  have hlen : (file.take (g.entrySize * n)).length = g.entrySize * n :=
    List.length_take_of_le hcut.size_le
  refine ⟨hcut.entrySize_pos, hcut.length_eq, hcut.size_lt, hlen ▸ h.length_le, fun k e he => ?_⟩
  have hk : k < n := (List.getElem?_eq_some_iff.mp he).1.trans_eq hcut.length_eq
  have hle : g.entrySize * k + g.entrySize ≤ g.entrySize * n := by
    rw [← Nat.mul_succ]
    exact Nat.mul_le_mul_left _ hk
  obtain ⟨rest, rfl⟩ := h
  have hslice : (((file.take (g.entrySize * n)) ++ rest).drop (g.entrySize * k)).take g.entrySize =
      (file.drop (g.entrySize * k)).take g.entrySize := by
    rw [List.drop_append_of_le_length (by omega), List.take_append_of_le_length, List.drop_take,
      List.take_take, min_eq_left (by omega)]
    rw [List.length_drop]
    omega
  rw [hslice]
  exact hcut.holds k e he

theorem maxLen_of_cut {f p : Bytes} (hlines : ∀ l ∈ lines f, IsLine l)
    (hwidth : ∀ l ∈ lines f, l.length = maxLen f) (hp : p <+: f) (hne : newline ∈ p) :
    maxLen p = maxLen f ∧ p.count newline ≤ (lines f).length ∧
      f.take (maxLen f * p.count newline) <+: p := by
  have hpf : p <+: (lines f).flatten := by rwa [lines_flatten]
  obtain ⟨tail, hp', htail, hcut⟩ := exists_prefix_flatten hlines hpf
  have hcount : p.count newline ≤ (lines f).length := by
    rw [length_lines_of_isLine hlines]
    exact hp.sublist.count_le _
  have hmem : ∀ l ∈ (lines f).take (p.count newline), l ∈ lines f := fun l hl =>
    List.mem_of_mem_take hl
  have hlinesp : lines p = (lines f).take (p.count newline) ++ lines tail := by
    conv_lhs => rw [hp']
    exact lines_flatten_append (fun l hl => hlines l (hmem l hl)) tail
  refine ⟨le_antisymm (maxLen_le fun l hl => ?_) ?_, hcount, ?_⟩
  · rw [hlinesp] at hl
    rcases List.mem_append.mp hl with hl | hl
    · exact (hwidth l (hmem l hl)).le
    · have hle := length_le_of_mem_lines hl
      rcases hcut with rfl | ⟨m, hm, hpre⟩
      · simp [lines] at hl
      · exact hle.trans (hpre.length_le.trans (hwidth m hm).le)
  · have hpos : 0 < p.count newline := List.count_pos_iff.mpr hne
    have hfirst : 0 < (lines f).length := hpos.trans_le hcount
    have hl : (lines f)[0] ∈ lines p := by
      rw [hlinesp]
      exact List.mem_append_left _ (List.mem_take_iff_getElem.mpr ⟨0, by omega, rfl⟩)
    exact hwidth _ (List.getElem_mem hfirst) ▸ length_le_maxLen hl
  · have hpre : ((lines f).take (p.count newline)).flatten <+: f := by
      refine ⟨((lines f).drop (p.count newline)).flatten, ?_⟩
      rw [← List.flatten_append, List.take_append_drop, lines_flatten]
    have hlen : ((lines f).take (p.count newline)).flatten.length = maxLen f * p.count newline := by
      rw [length_flatten_of_length_eq fun l hl => hwidth l (hmem l hl), List.length_take_of_le hcount]
    rw [← hlen, ← List.prefix_iff_eq_take.mp hpre]
    conv_rhs => rw [hp']
    exact List.prefix_append _ _

/-- The start of a list that is put together from blocks: whole blocks and the start of one more. -/
theorem exists_cut_flatMap {α β : Type} (f : α → List β) {ls : List α} (hne : ls ≠ []) {n : ℕ}
    (hn : n ≤ (ls.flatMap f).length) :
    ∃ whole last rest k, ls = whole ++ last :: rest ∧ (whole.flatMap f).length + k = n ∧
      k ≤ (f last).length ∧ (ls.flatMap f).take n = whole.flatMap f ++ (f last).take k := by
  induction ls generalizing n with
  | nil => exact absurd rfl hne
  | cons a ls ih =>
    rw [List.flatMap_cons] at hn ⊢
    by_cases hlast : n ≤ (f a).length
    · refine ⟨[], a, ls, n, rfl, by simp, hlast, ?_⟩
      rw [List.take_append_of_le_length hlast]
      rfl
    · have hls : ls ≠ [] := by
        rintro rfl
        simp at hn
        omega
      rw [List.length_append] at hn
      obtain ⟨whole, last, rest, k, rfl, hlen, hk, htake⟩ :=
        ih hls (n := n - (f a).length) (by omega)
      refine ⟨a :: whole, last, rest, k, rfl, ?_, hk, ?_⟩
      · rw [List.flatMap_cons, List.length_append]
        omega
      · rw [List.take_append, List.take_of_length_le (by omega), htake, List.flatMap_cons,
          List.append_assoc]

/-- The entries that are left of a directory when some are whole and of one more `k` records, its own
among them, are left. -/
def Tree.cutListing (T : Tree) (whole : List (List FileName)) (last : List FileName) (k : ℕ)
    (cs : List FileName) : Option (List (FileName × Node)) :=
  match T.get cs with
  | some (.dir _ ch) =>
    if cs ∈ whole then some (byName ch)
    else if cs = last ∧ 0 < k then some ((byName ch).take (k - 1))
    else none
  | _ => none

/-- The mounted file shows these entries of the directories that have any, their files with their
attributes, and nothing else, where a directory is listed in a block that has room behind its path. -/
structure ShowsListed (room : Bytes → ℕ) (g : Globals) (T : Tree)
    (listing : List FileName → Option (List (FileName × Node))) (probes : ℕ → Probe) : Prop where
  root : Returns probes (catalogGetattr g [slash]) (0, T.root.stat)
  getattr : ∀ cs l c node, listing cs = some l → (c, node) ∈ l →
    Returns probes (catalogGetattr g (nodePath (cs ++ [c]))) (0, node.stat)
  readdir : ∀ cs l, listing cs = some l → HasRoom room (nodePath cs) →
    Returns probes (catalogReaddirIn room g roomy (nodePath cs))
      (0, dots ++ l.map fun e => ⟨e.1.val, some e.2.stat⟩)
  absent : ∀ p, FusePath p → p ≠ [slash] →
    (∀ cs l c node, listing cs = some l → (c, node) ∈ l → p ≠ nodePath (cs ++ [c])) →
    Returns probes (catalogGetattr g p) (-ENOENT, Stat.zero)
  unlisted : ∀ p, p ≠ [] → HasRoom room p → (∀ cs, (listing cs).isSome → p ≠ nodePath cs) →
    Returns probes (catalogReaddirIn room g roomy p) (-ENOENT, dots)

section Cut

variable {T : Tree} {whole rest : List (List FileName)} {last : List FileName} {k : ℕ}
  (hdirs : T.dirs noFailure = whole ++ last :: rest)

def Tree.cutRecords (T : Tree) (whole : List (List FileName)) (last : List FileName) (k : ℕ) :
    List Record :=
  whole.flatMap (T.block noFailure) ++ (T.block noFailure last).take k

def entryRecords (cs : List FileName) (l : List (FileName × Node)) : List Record :=
  l.map fun e => nodeRecord (dirPath cs ++ e.1.val) e.2

theorem block_eq {cs : List FileName} {a : Attr} {ch : List (FileName × Node)}
    (h : T.get cs = some (.dir a ch)) : T.block noFailure cs =
      nodeRecord (dirPath cs) (.dir a ch) :: entryRecords cs (byName ch) :=
  block_of_dir h

theorem names_entryRecords (cs : List FileName) (l : List (FileName × Node)) :
    ((entryRecords cs l).map Record.entry).map (fun e => (⟨basename e.path, some e.st⟩ : Filled)) =
      l.map fun e => ⟨e.1.val, some e.2.stat⟩ := by
  rw [entryRecords, List.map_map, List.map_map]
  refine List.map_congr_left fun x _ => ?_
  have hbase : basename (dirPath cs ++ x.1.val) = x.1.val :=
    basename_append (getLast?_dirPath cs) x.1.slash_notMem
  have hst : (nodeRecord (dirPath cs ++ x.1.val) x.2).stat = x.2.stat := stat_nodeRecord _ _
  simp only [Function.comp_apply, Record.entry, nodeRecord_path, hbase, hst]

include hdirs

/-- A directory that is listed still has its own record, and behind it those of the entries that are
left. -/
theorem exists_cutRecords_eq {cs : List FileName} {l : List (FileName × Node)}
    (hl : T.cutListing whole last k cs = some l) : ∃ a ch before after,
      T.get cs = some (.dir a ch) ∧ l <+: byName ch ∧
      T.cutRecords whole last k =
        before ++ nodeRecord (dirPath cs) (.dir a ch) :: (entryRecords cs l ++ after) ∧
      ∀ r ∈ after, inDirectory (dirPath cs) r.entry = false := by
  unfold Tree.cutListing at hl
  split at hl
  · rename_i a ch hget
    split_ifs at hl with hwhole hlast
    · obtain rfl := Option.some.inj hl
      obtain ⟨w₁, w₂, rfl⟩ := List.append_of_mem hwhole
      refine ⟨a, ch, w₁.flatMap (T.block noFailure),
        w₂.flatMap (T.block noFailure) ++ (T.block noFailure last).take k, hget, List.prefix_rfl, ?_,
        fun r hr => ?_⟩
      · simp [Tree.cutRecords, block_eq hget]
      · have hpair : (T.dirs noFailure).Pairwise fun cs ds => cs.length ≤ ds.length ∧ cs ≠ ds :=
          pairwise_dirs
        rw [hdirs, List.append_assoc, List.cons_append] at hpair
        have hne := (List.pairwise_cons.mp (List.pairwise_append.mp hpair).2.1).1
        obtain ⟨ds, hds, hr⟩ : ∃ ds, ds ∈ w₂ ++ last :: rest ∧ r ∈ T.block noFailure ds := by
          rcases List.mem_append.mp hr with hr | hr
          · obtain ⟨ds, hds, hr⟩ := List.mem_flatMap.mp hr
            exact ⟨ds, List.mem_append_left _ hds, hr⟩
          · exact ⟨last, by simp, List.mem_of_mem_take hr⟩
        rw [inDirectory_entry hr]
        simpa using (hne ds hds).2
    · obtain rfl := Option.some.inj hl
      obtain ⟨rfl, hk⟩ := hlast
      obtain ⟨k, rfl⟩ := Nat.exists_eq_add_of_lt hk
      refine ⟨a, ch, whole.flatMap (T.block noFailure), [], hget, List.take_prefix _ _, ?_, nofun⟩
      simp [Tree.cutRecords, block_eq hget, entryRecords, List.map_take]
  · cases hl

theorem exists_cutListing {r : Record} (hr : r ∈ T.cutRecords whole last k) :
    ∃ cs l a ch, T.cutListing whole last k cs = some l ∧ T.get cs = some (.dir a ch) ∧
      (r = nodeRecord (dirPath cs) (.dir a ch) ∨
        ∃ e ∈ l, r = nodeRecord (dirPath cs ++ e.1.val) e.2) := by
  have hdir : ∀ cs ∈ whole ++ last :: rest, T.IsDir cs := by
    intro cs hcs
    rw [← hdirs] at hcs
    exact (mem_dirs_iff.mp hcs).isDir
  have hwhole : ∀ cs ∈ whole, ∀ r ∈ T.block noFailure cs, ∃ l a ch,
      T.cutListing whole last k cs = some l ∧ T.get cs = some (.dir a ch) ∧
      (r = nodeRecord (dirPath cs) (.dir a ch) ∨
        ∃ e ∈ l, r = nodeRecord (dirPath cs ++ e.1.val) e.2) := by
    intro cs hcs r hr
    obtain ⟨a, ch, hget⟩ := hdir cs (by simp [hcs])
    rw [block_eq hget] at hr
    refine ⟨byName ch, a, ch, by simp [Tree.cutListing, hget, hcs], hget, ?_⟩
    simpa [entryRecords, eq_comm] using hr
  rcases List.mem_append.mp hr with hr | hr
  · obtain ⟨cs, hcs, hr⟩ := List.mem_flatMap.mp hr
    exact ⟨cs, hwhole cs hcs r hr⟩
  · by_cases hlast : last ∈ whole
    · exact ⟨last, hwhole last hlast r (List.mem_of_mem_take hr)⟩
    · obtain ⟨a, ch, hget⟩ := hdir last (by simp)
      cases k with
      | zero => simp at hr
      | succ k =>
        rw [block_eq hget, List.take_succ_cons, entryRecords, ← List.map_take] at hr
        refine ⟨last, (byName ch).take k, a, ch, by simp [Tree.cutListing, hget, hlast], hget, ?_⟩
        rcases List.mem_cons.mp hr with rfl | hr
        · exact .inl rfl
        · obtain ⟨e, he, rfl⟩ := List.mem_map.mp hr
          exact .inr ⟨e, he, rfl⟩

variable {g : Globals} {file : Bytes} {probes : ℕ → Probe} (hserves : Serves probes file)
  (hcat : Readable g file ((T.cutRecords whole last k).map Record.entry))
  (hstrict : StrictCatalog ((T.cutRecords whole last k).map Record.entry))

include hserves hcat hstrict

omit hdirs in
theorem returns_getattr_cut {r : Record} (hr : r ∈ T.cutRecords whole last k)
    (hhead : r.path.head? = some slash) : Returns probes (catalogGetattr g r.path) (0, r.stat) := by
  obtain ⟨i, hi⟩ := List.mem_iff_getElem?.mp (List.mem_map_of_mem (f := Record.entry) hr)
  exact returns_catalogGetattr hserves hcat hstrict.toAscending.depthSorted
    (locate_of_mem hstrict hi (findDepth_pos hhead)) hi

theorem returns_readdir_cut {cs : List FileName} {l : List (FileName × Node)}
    (hl : T.cutListing whole last k cs = some l) :
    Returns probes (catalogReaddir g roomy (nodePath cs))
      (0, dots ++ l.map fun e => ⟨e.1.val, some e.2.stat⟩) := by
  obtain ⟨a, ch, before, after, hget, hpre, heq, hafter⟩ := exists_cutRecords_eq hdirs hl
  have hentries : (T.cutRecords whole last k).map Record.entry =
      before.map Record.entry ++ (nodeRecord (dirPath cs) (.dir a ch)).entry ::
        ((entryRecords cs l).map Record.entry ++ after.map Record.entry) := by
    rw [heq]
    simp
  have hown : ((T.cutRecords whole last k).map Record.entry)[before.length]? =
      some (nodeRecord (dirPath cs) (.dir a ch)).entry := by
    rw [hentries]
    simp
  have hloc : locate ((T.cutRecords whole last k).map Record.entry) (dirPath cs) = before.length :=
    locate_of_mem hstrict hown (findDepth_pos (head?_dirPath cs))
  have hdrop : ((T.cutRecords whole last k).map Record.entry).drop (before.length + 1) =
      (entryRecords cs l).map Record.entry ++ after.map Record.entry := by
    rw [hentries, List.drop_append]
    simp
  have hlisted : listed ((T.cutRecords whole last k).map Record.entry) (dirPath cs) =
      (entryRecords cs l).map Record.entry := by
    rw [listed, hloc, Int.toNat_natCast, hdrop]
    apply takeWhile_append_of_forall
    · rw [entryRecords, List.map_map]
      intro e he
      obtain ⟨x, hx, rfl⟩ := List.mem_map.mp he
      exact inDirectory_child hget (hpre.subset hx)
    · intro e he
      obtain ⟨r, hr, rfl⟩ := List.mem_map.mp he
      exact hafter r hr
  have hret := returns_catalogReaddir hserves hcat hstrict.toAscending.depthSorted
    (P := nodePath cs) (by rw [withSlash_nodePath]; exact hloc)
    (List.getElem?_eq_some_iff.mp hown).1
  rw [withSlash_nodePath, hlisted, names_entryRecords] at hret
  exact hret

theorem showsListed_of_strict (room : Bytes → ℕ) (hroot : (T.cutListing whole last k []).isSome) :
    ShowsListed room g T (T.cutListing whole last k) probes := by
  have hsorted := hstrict.toAscending.depthSorted
  have hfound : ∀ p, locate ((T.cutRecords whole last k).map Record.entry) p = -1 ∨
      ∃ r ∈ T.cutRecords whole last k, r.path = p := by
    intro p
    rcases locate_cases hsorted p with hl | ⟨i, e, -, he, hpath, -⟩
    · exact .inl hl
    · obtain ⟨r, hr, rfl⟩ := List.mem_map.mp (List.mem_of_getElem? he)
      exact .inr ⟨r, hr, hpath⟩
  constructor
  · obtain ⟨l, hl⟩ := Option.isSome_iff_exists.mp hroot
    obtain ⟨a, ch, before, after, hget, -, heq, -⟩ := exists_cutRecords_eq hdirs hl
    have h := returns_getattr_cut hserves hcat hstrict (r := nodeRecord (dirPath []) (.dir a ch))
      (by rw [heq]; simp) rfl
    have hT : T.root = .dir a ch := by simpa [Tree.get] using hget
    rw [stat_nodeRecord] at h
    rwa [hT]
  · intro cs l c node hl he
    obtain ⟨a, ch, before, after, -, -, heq, -⟩ := exists_cutRecords_eq hdirs hl
    have hmem : nodeRecord (dirPath cs ++ c.val) node ∈ entryRecords cs l :=
      List.mem_map_of_mem (f := fun e => nodeRecord (dirPath cs ++ e.1.val) e.2) he
    have h := returns_getattr_cut hserves hcat hstrict (r := nodeRecord (dirPath cs ++ c.val) node)
      (by rw [heq]; simp [hmem]) (by simp [head?_dirPath])
    rw [stat_nodeRecord] at h
    rwa [nodePath, if_neg (by simp), pathString_concat]
  · intro cs l hl hroom
    exact returns_catalogReaddirIn_iff.mpr ⟨hroom, returns_readdir_cut hdirs hserves hcat hstrict hl⟩
  · intro p hp hslash hnot
    rcases hfound p with hl | ⟨r, hr, rfl⟩
    · exact returns_catalogGetattr_of_neg hserves hcat hsorted hl
    · obtain ⟨cs, l, a, ch, hl, -, rfl | ⟨⟨c, node⟩, he, rfl⟩⟩ := exists_cutListing hdirs hr
      · exact absurd (getLast?_dirPath cs) (hp.2.resolve_left hslash)
      · refine absurd ?_ (hnot cs l c node hl he)
        rw [nodePath, if_neg (by simp), pathString_concat]
        rfl
  · intro p hp hroom hnot
    refine returns_catalogReaddirIn_iff.mpr ⟨hroom, ?_⟩
    rcases hfound (withSlash p) with hl | ⟨r, hr, hpath⟩
    · exact returns_catalogReaddir_of_neg hserves hcat hsorted _ hl
    · obtain ⟨cs, l, a, ch, hl, -, rfl | ⟨e, -, rfl⟩⟩ := exists_cutListing hdirs hr
      · exact absurd (dirPath_eq_withSlash hp hpath) (hnot cs (by simp [hl]))
      · have hlast := getLast?_withSlash p
        rw [← hpath] at hlast
        exact absurd hlast (getLast?_entry cs e.1)

omit hserves hcat hstrict in
theorem isSome_cutListing_root (hpos : 0 < (T.cutRecords whole last k).length) :
    (T.cutListing whole last k []).isSome := by
  have hpair : (T.dirs noFailure).Pairwise fun cs ds => cs.length ≤ ds.length ∧ cs ≠ ds :=
    pairwise_dirs
  have hmem : [] ∈ T.dirs noFailure := mem_dirs_iff.mpr .root
  obtain ⟨a, ch, hget⟩ := (mem_dirs_iff.mp hmem).isDir
  rw [hdirs] at hpair hmem
  obtain ⟨-, hlast, hbefore⟩ := List.pairwise_append.mp hpair
  have hroot : [] ∈ whole ∨ [] = last := by
    rcases List.mem_append.mp hmem with h | h
    · exact .inl h
    · rcases List.mem_cons.mp h with h | h
      · exact .inr h
      · obtain ⟨hlen, hne⟩ := (List.pairwise_cons.mp hlast).1 [] h
        exact absurd (List.length_eq_zero_iff.mp (Nat.le_zero.mp hlen)) hne
  rw [Tree.cutListing, hget]
  by_cases hwhole : [] ∈ whole
  · simp [hwhole]
  · obtain rfl : [] = last := hroot.resolve_left hwhole
    have hnil : whole = [] := by
      refine List.eq_nil_iff_forall_not_mem.mpr fun cs hcs => ?_
      obtain ⟨hlen, hne⟩ := hbefore cs hcs [] (by simp)
      exact hne (List.length_eq_zero_iff.mp (Nat.le_zero.mp hlen))
    have hk : 0 < k := by
      rw [Tree.cutRecords, hnil, List.flatMap_nil, List.nil_append, List.length_take] at hpos
      omega
    simp [hnil, hk]

end Cut

/-- The start of a tree's catalog, as long as it has a line, mounted with the width and the number of
its lines: some directories, in the order in which they are visited, with all their entries, of one
more directory as many entries as there are lines for, and nothing else. It does not matter what
comes behind these lines. -/
theorem cut_catalog_shows {T : Tree} {host : Host} {inputDir : Bytes} (hne : inputDir ≠ [])
    (hshows : host.Shows inputDir T noFailure) (hclean : T.Clean) (hslash : T.SlashOrdered) :
    ∃ recs, Writes host inputDir recs ∧
      ∀ catalogName stack, Mountable catalogName stack (catalogFile recs) →
        ∀ p, p <+: catalogFile recs → newline ∈ p →
          ∃ whole last k, whole ++ [last] <+: T.dirs noFailure ∧
            (whole.flatMap (T.block noFailure)).length + k = p.count newline ∧
            ∀ file probes, p <+: file → Serves probes file → ∀ room,
              ShowsListed room ⟨maxLen p, p.count newline⟩ T (T.cutListing whole last k) probes := by
  refine ⟨_, (writes_iff hshows hne).mpr rfl, fun catalogName stack hm p hp hline => ?_⟩
  have hsize := hm.size_lt
  have hprintable := records_printable T noFailure
  have hcat := isCatalog_tree hclean hsize
  have htext := isTextLine_of_mem_lines hprintable
  have hlines : ∀ l ∈ lines (catalogFile (T.records noFailure)), IsLine l := by
    rw [catalogFile, lines_padEachLine htext]
    intro l hl
    obtain ⟨m, hm, rfl⟩ := List.mem_map.mp hl
    exact ((htext m hm).padLine _).isLine
  obtain ⟨hwidth, hcount, hcut⟩ :=
    maxLen_of_cut hlines (length_line_catalogFile hprintable) hp hline
  have hcount' : p.count newline ≤ (T.records noFailure).length := by
    have hlen := hcat.length_eq
    rw [Tree.entries, List.length_map] at hlen
    exact hcount.trans_eq hlen.symm
  obtain ⟨whole, last, rest, k, hdirs, hlen, hk, htake⟩ := exists_cut_flatMap (T.block noFailure)
    (List.ne_nil_of_mem (mem_dirs_iff.mpr .root)) hcount'
  have hentries : T.entries.take (p.count newline) = (T.cutRecords whole last k).map Record.entry := by
    rw [Tree.entries, ← List.map_take, Tree.records, htake, Tree.cutRecords]
  refine ⟨whole, last, k, ⟨rest, by simp [hdirs]⟩, hlen, fun file probes hfile hserves room => ?_⟩
  have hcat' := isCatalog_of_cut hcat hcount (hcut.trans hfile)
  rw [hentries] at hcat'
  have hstrict : StrictCatalog ((T.cutRecords whole last k).map Record.entry) := by
    rw [← hentries]
    refine ⟨fun e he => depth_entries T e (List.mem_of_mem_take he), ?_⟩
    rw [List.map_take, entries_key]
    exact (pairwise_keyLt_iff_slashOrdered.mpr hslash).sublist (List.take_sublist _ _)
  have hpos : 0 < (T.cutRecords whole last k).length := by
    rw [Tree.cutRecords, List.length_append, List.length_take_of_le hk, hlen]
    exact List.count_pos_iff.mpr hline
  rw [hwidth]
  exact showsListed_of_strict hdirs hserves hcat'.readable hstrict room
    (isSome_cutListing_root hdirs hpos)

theorem cut_catalog_shows_smallTree : ∃ whole last k,
    whole ++ [last] <+: smallTree.dirs noFailure ∧
    (whole.flatMap (smallTree.block noFailure)).length + k = 2 ∧
    ∀ file probes, (catalogFile smallRecords).take 70 <+: file → Serves probes file → ∀ room,
      ShowsListed room ⟨30, 2⟩ smallTree (smallTree.cutListing whole last k) probes := by
  have hshows := treeHost_shows [ch 'r'] smallTree noFailure
  obtain ⟨recs, hw, h⟩ := cut_catalog_shows (by decide) hshows smallTree_clean
    smallTree_slashOrdered
  obtain rfl := writes_unique hshows (by decide) hw writes_smallRecords
  have hp := h _ _ smallRecords_mountable ((catalogFile smallRecords).take 70) (List.take_prefix _ _) (by decide)
  have hgeometry : maxLen ((catalogFile smallRecords).take 70) = 30 := by decide
  have hcount : ((catalogFile smallRecords).take 70).count newline = 2 := by decide
  rwa [hgeometry, hcount] at hp

end CatalogFS
