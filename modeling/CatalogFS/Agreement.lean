import CatalogFS.Lookup
import CatalogFS.RecordFormat
import CatalogFS.SearchOrder
import CatalogFS.TreeHost

namespace CatalogFS

open CLib

variable {T : Tree}

def Tree.NamesClean (T : Tree) : Prop :=
  ∀ cs c node, T.get (cs ++ [c]) = some node → sep ∉ c.val ∧ linkSep ∉ c.val ∧ newline ∉ c.val

/-- No name holds a separator and no link target a newline. -/
structure Tree.Clean (T : Tree) : Prop where
  name : T.NamesClean
  target : ∀ cs a t, T.get cs = some (.link a t) → newline ∉ t.val

noncomputable def Tree.entries (T : Tree) : List Entry := (T.records noFailure).map Record.entry

theorem notMem_pathString {b : Byte} (hb : b ≠ slash) {cs : List FileName}
    (h : ∀ c ∈ cs, b ∉ c.val) : b ∉ pathString cs := by
  intro hmem
  obtain ⟨c, hc, hbc⟩ := List.mem_flatMap.mp hmem
  rcases List.mem_cons.mp hbc with h' | h'
  · exact hb h'
  · exact h c hc h'

theorem Tree.Clean.component (hclean : T.Clean) {cs : List FileName} {node : Node}
    (h : T.get cs = some node) {c : FileName} (hc : c ∈ cs) :
    sep ∉ c.val ∧ linkSep ∉ c.val ∧ newline ∉ c.val := by
  obtain ⟨l₁, l₂, rfl⟩ := List.append_of_mem hc
  rw [List.append_cons, Tree.get, Node.get_append, ← Tree.get] at h
  obtain ⟨m, hm, -⟩ := Option.bind_eq_some_iff.mp h
  exact hclean.name l₁ c m hm

theorem nodeRecord_printable {cs : List FileName} {node : Node} {p : Bytes}
    (hhead : p.head? = some slash) (hp : ∀ b ∈ p, b = slash ∨ b ∈ pathString cs) :
    (nodeRecord p node).Printable := by
  have h0 : 0 ∉ p := fun hmem =>
    (hp 0 hmem).elim (by decide) (notMem_pathString (by decide) fun c _ => c.nul_notMem)
  have htarget : 0 ∉ node.target := by
    cases node with
    | leaf t a => simp [Node.target]
    | link a t => exact t.nul_notMem
    | dir a ch => simp [Node.target]
  exact printable_recordOf hhead h0 fun hmem => htarget (List.mem_of_mem_take hmem)

theorem nodeRecord_clean (hclean : T.Clean) {cs : List FileName} {node : Node}
    (h : T.get cs = some node) {p : Bytes} (hp : ∀ b ∈ p, b = slash ∨ b ∈ pathString cs) :
    (nodeRecord p node).Clean := by
  have hnot : ∀ b, b ≠ slash → (∀ c ∈ cs, b ∉ c.val) → b ∉ p := fun b hb hcs hbp =>
    (hp b hbp).elim hb (notMem_pathString hb hcs)
  have hcomp := fun c hc => hclean.component h (c := c) hc
  have htarget : newline ∉ node.target := by
    cases node with
    | leaf t a => simp [Node.target]
    | link a t => exact hclean.target cs a t h
    | dir a ch => simp [Node.target]
  exact
    { path := ⟨hnot sep (by decide) fun c hc => (hcomp c hc).1,
        hnot newline (by decide) fun c hc => (hcomp c hc).2.2⟩
      link := fun _ => ⟨hnot linkSep (by decide) fun c hc => (hcomp c hc).2.1,
        fun hmem => htarget (List.mem_of_mem_take hmem)⟩ }

theorem exists_of_mem_records {fails : List FileName → Bool} {r : Record}
    (hr : r ∈ T.records fails) :
    ∃ cs node p, T.get cs = some node ∧ r = nodeRecord p node ∧ p.head? = some slash ∧
      ∀ b ∈ p, b = slash ∨ b ∈ pathString cs := by
  rcases mem_records_iff.mp hr with ⟨cs, a, ch, -, hget, rfl⟩ | ⟨cs, c, node, -, -, hget, rfl⟩
  · refine ⟨cs, _, _, hget, rfl, head?_dirPath cs, fun b hb => ?_⟩
    rcases List.mem_append.mp hb with hb | hb
    · exact .inr hb
    · exact .inl (List.mem_singleton.mp hb)
  · refine ⟨_, node, _, hget, rfl, ?_, fun b hb => .inr (pathString_concat cs c ▸ hb)⟩
    rw [List.head?_append, head?_dirPath]
    rfl

theorem records_printable (T : Tree) (fails : List FileName → Bool) :
    ∀ r ∈ T.records fails, r.Printable := by
  intro r hr
  obtain ⟨cs, node, p, -, rfl, hhead, hp⟩ := exists_of_mem_records hr
  exact nodeRecord_printable hhead hp

theorem records_clean (hclean : T.Clean) : ∀ r ∈ T.records noFailure, r.Clean := by
  intro r hr
  obtain ⟨cs, node, p, hget, rfl, -, hp⟩ := exists_of_mem_records hr
  exact nodeRecord_clean hclean hget hp

theorem depth_records (T : Tree) (fails : List FileName → Bool) :
    ∀ r ∈ T.records fails, r.depth = findDepth r.path := by
  intro r hr
  obtain ⟨cs, node, p, -, rfl, -, -⟩ := exists_of_mem_records hr
  rfl

theorem records_ne_nil (T : Tree) (fails : List FileName → Bool) : T.records fails ≠ [] := by
  have hmem : nodeRecord (dirPath []) T.root ∈ T.records fails :=
    mem_records_iff.mpr (.inl ⟨[], T.attr, T.children, .root, by simp [Tree.get, Tree.root], rfl⟩)
  exact List.ne_nil_of_mem hmem

theorem isCatalog_tree (hclean : T.Clean)
    (hsize : maxLen (catalogFile (T.records noFailure)) *
      (lines (catalogFile (T.records noFailure))).length < 2 ^ 31) :
    IsCatalog (geometry (catalogFile (T.records noFailure))) (catalogFile (T.records noFailure))
      T.entries :=
  isCatalog_catalogFile (records_ne_nil T noFailure) (records_printable T noFailure)
    (records_clean hclean) (depth_records T noFailure) hsize

theorem depthSorted_entries (T : Tree) : DepthSorted T.entries :=
  List.pairwise_map.mpr (pairwise_depth.imp fun h => h)

theorem entries_key (T : Tree) : T.entries.map Entry.key = (T.records noFailure).map Record.key := by
  rw [Tree.entries, List.map_map]
  rfl

theorem depth_entries (T : Tree) : ∀ e ∈ T.entries, e.depth = findDepth e.path := by
  intro e he
  obtain ⟨r, hr, rfl⟩ := List.mem_map.mp he
  exact depth_records T noFailure r hr

theorem depth_entries_pos (T : Tree) : ∀ e ∈ T.entries, 0 < findDepth e.path := by
  intro e he
  obtain ⟨r, hr, rfl⟩ := List.mem_map.mp he
  exact findDepth_pos (records_printable T noFailure r hr).head_path

/-- Every path is found at its own record exactly when sibling names agree with the slash. -/
theorem locate_entries_iff (T : Tree) :
    (∀ (k : ℕ) (e : Entry), T.entries[k]? = some e → locate T.entries e.path = k) ↔
      T.SlashOrdered := by
  rw [strictCatalog_iff_locate (depthSorted_entries T) (depth_entries T)
    (depth_entries_pos T), entries_key, pairwise_keyLt_iff_slashOrdered]

/-- For the records that `catalog_listing` writes for a tree without separators in its names and
newlines in its link targets these are equivalent: `binSearch` finds the path of every record at
that record, the records are strictly ascending by depth and path, and no directory's name
continues a sibling's with a byte below the slash. -/
theorem binSearch_agrees_iff {host : Host} {inputDir : Bytes} (hne : inputDir ≠ [])
    (hshows : host.Shows inputDir T noFailure) (hclean : T.Clean) :
    ∃ recs, Writes host inputDir recs ∧
      (maxLen (catalogFile recs) * (lines (catalogFile recs)).length < 2 ^ 31 →
        ((∀ probes, Serves probes (catalogFile recs) → ∀ (k : ℕ) (r : Record), recs[k]? = some r →
            Returns probes (binSearch (geometry (catalogFile recs)) r.path) k) ↔
          (recs.map Record.key).Pairwise keyLt) ∧
        ((recs.map Record.key).Pairwise keyLt ↔ T.SlashOrdered)) := by
  refine ⟨_, (writes_iff hshows hne).mpr rfl, fun hsize => ⟨?_, pairwise_keyLt_iff_slashOrdered⟩⟩
  have hcat := (isCatalog_tree hclean hsize).readable
  have hsorted := depthSorted_entries T
  rw [pairwise_keyLt_iff_slashOrdered, ← locate_entries_iff T]
  have hget : ∀ (k : ℕ) r, (T.records noFailure)[k]? = some r → T.entries[k]? = some r.entry := by
    intro k r hr
    rw [Tree.entries, List.getElem?_map, hr]
    rfl
  constructor
  · intro h k e he
    rw [Tree.entries, List.getElem?_map, Option.map_eq_some_iff] at he
    obtain ⟨r, hr, rfl⟩ := he
    have hfind := h _ (serves_steady _) k r hr
    exact (returns_binSearch (serves_steady _) hcat hsorted _).unique hfind
  · intro h probes hserves k r hr
    have hfind := returns_binSearch hserves hcat hsorted r.entry.path
    rw [h k _ (hget k r hr)] at hfind
    exact hfind

theorem namesClean_of_forall (h : ∀ cs node, T.get cs = some node →
    ∀ c ∈ cs, sep ∉ c.val ∧ linkSep ∉ c.val ∧ newline ∉ c.val) : T.NamesClean :=
  fun cs c node hget => h (cs ++ [c]) node hget c (by simp)

theorem smallTree_clean : smallTree.Clean := by
  refine ⟨namesClean_of_forall ?_, fun cs a t hget => ?_⟩
  · exact smallTree_forall (by simp) (by decide) (by decide) (by decide)
  · exact smallTree_forall (P := fun _ n => newline ∉ n.target) (by decide) (by decide) (by decide)
      (by decide) cs _ hget

def smallRecords : List Record :=
  [recordOf .dir smallAttr [slash] [], recordOf .dir smallAttr [slash, ch 'a'] [],
    recordOf .lnk smallAttr [slash, ch 'l'] [ch 'a'],
    recordOf .dir smallAttr [slash, ch 'a', slash] [],
    recordOf .reg smallAttr [slash, ch 'a', slash, ch 'b'] []]

theorem writes_smallRecords :
    Writes (treeHost [ch 'r'] smallTree noFailure) [ch 'r'] smallRecords :=
  ⟨2, by decide⟩

theorem smallRecords_printable : ∀ r ∈ smallRecords, r.Printable := by
  have hrecs : smallRecords = smallTree.records noFailure :=
    (writes_iff (treeHost_shows [ch 'r'] smallTree noFailure) (by decide)).mp writes_smallRecords
  rw [hrecs]
  exact records_printable smallTree noFailure

theorem binSearch_agrees_smallTree :
    ∃ recs, Writes (treeHost [ch 'r'] smallTree noFailure) [ch 'r'] recs ∧
      ((∀ probes, Serves probes (catalogFile recs) → ∀ (k : ℕ) (r : Record), recs[k]? = some r →
          Returns probes (binSearch (geometry (catalogFile recs)) r.path) k) ↔
        smallTree.SlashOrdered) := by
  have hshows := treeHost_shows [ch 'r'] smallTree noFailure
  obtain ⟨recs, hw, h⟩ := binSearch_agrees_iff (by decide) hshows smallTree_clean
  obtain rfl := writes_unique hshows (by decide) hw writes_smallRecords
  obtain ⟨hab, hbc⟩ := h (by decide)
  exact ⟨smallRecords, hw, hab.trans hbc⟩

/-- A line of a catalog, without its end, as the target of a symbolic link. -/
def lineTarget : Target :=
  ⟨ch 'x' :: newline :: (recordOf .reg smallAttr [slash, ch 'a', ch 'a', ch 'a'] []).body, by decide⟩

def lineTree : Tree where
  attr := smallAttr
  children := [(nameA, .link smallAttr lineTarget),
    (nameB, .leaf .reg smallAttr)]
  distinct := by
    apply Node.distinct_dir (by decide)
    intro e he
    rcases List.mem_pair.mp he with rfl | rfl
    · exact Node.distinct_of_not_isDir rfl
    · exact Node.distinct_of_not_isDir rfl

theorem lineTree_forall {P : List FileName → Node → Prop} (hroot : P [] lineTree.root)
    (ha : P [nameA] (.link smallAttr lineTarget))
    (hb : P [nameB] (.leaf .reg smallAttr)) :
    ∀ cs m, lineTree.get cs = some m → P cs m := by
  apply Node.forall_get_dir hroot
  intro e he
  rcases List.mem_pair.mp he with rfl | rfl
  · exact Node.forall_get_of_not_isDir rfl ha
  · exact Node.forall_get_of_not_isDir rfl hb

theorem lineTree_namesClean : lineTree.NamesClean :=
  namesClean_of_forall (lineTree_forall (by simp) (by decide) (by decide))

def lineRecords : List Record :=
  [recordOf .dir smallAttr [slash] [], recordOf .lnk smallAttr [slash, ch 'a'] lineTarget.val,
    recordOf .reg smallAttr [slash, ch 'b'] []]

def shownRecords : List Record :=
  [recordOf .dir smallAttr [slash] [], recordOf .lnk smallAttr [slash, ch 'a'] [ch 'x'],
    recordOf .reg smallAttr [slash, ch 'a', ch 'a', ch 'a'] [],
    recordOf .reg smallAttr [slash, ch 'b'] []]

theorem writes_lineRecords : Writes (treeHost [ch 'r'] lineTree noFailure) [ch 'r'] lineRecords :=
  ⟨1, by decide⟩

theorem isCatalog_lineRecords :
    IsCatalog (geometry (catalogFile lineRecords)) (catalogFile lineRecords)
      (shownRecords.map Record.entry) := by
  have hfile : catalogFile lineRecords = catalogFile shownRecords := by decide
  rw [hfile]
  refine isCatalog_catalogFile (by decide) ?_ ?_ (by decide) (by decide)
  · simp only [shownRecords, List.forall_mem_cons, List.not_mem_nil, false_implies, implies_true,
      and_true]
    exact ⟨printable_recordOf rfl (by decide) (by decide),
      printable_recordOf rfl (by decide) (by decide),
      printable_recordOf rfl (by decide) (by decide),
      printable_recordOf rfl (by decide) (by decide)⟩
  · simp only [shownRecords, List.forall_mem_cons, List.not_mem_nil, false_implies, implies_true,
      and_true]
    exact ⟨⟨by decide, by decide⟩, ⟨by decide, by decide⟩, ⟨by decide, by decide⟩,
      ⟨by decide, by decide⟩⟩

theorem depthSorted_shownRecords : DepthSorted (shownRecords.map Record.entry) := by
  unfold DepthSorted
  decide

/-- With clean names alone the agreement fails: the target of the link adds a line to the catalog,
and the records behind it are found one location further on. -/
theorem not_binSearch_agrees_of_namesClean :
    ¬ ∀ (T : Tree) (host : Host) (inputDir : Bytes), inputDir ≠ [] →
      host.Shows inputDir T noFailure → T.NamesClean →
      ∃ recs, Writes host inputDir recs ∧
        (maxLen (catalogFile recs) * (lines (catalogFile recs)).length < 2 ^ 31 →
          ((∀ probes, Serves probes (catalogFile recs) → ∀ (k : ℕ) (r : Record), recs[k]? = some r →
              Returns probes (binSearch (geometry (catalogFile recs)) r.path) k) ↔
            (recs.map Record.key).Pairwise keyLt) ∧
          ((recs.map Record.key).Pairwise keyLt ↔ T.SlashOrdered)) := by
  intro h
  have hshows := treeHost_shows [ch 'r'] lineTree noFailure
  obtain ⟨recs, hw, hrest⟩ := h lineTree _ [ch 'r'] (by decide) hshows lineTree_namesClean
  obtain rfl := writes_unique hshows (by decide) hw writes_lineRecords
  have hfind := (hrest (by decide)).1.mpr (by decide) _ (serves_steady _) 2 _ rfl
  have hloc : locate (shownRecords.map Record.entry) [slash, ch 'b'] = 3 := by decide
  have htrue := returns_binSearch (serves_steady _) isCatalog_lineRecords.readable depthSorted_shownRecords
    [slash, ch 'b']
  rw [hloc] at htrue
  exact absurd (hfind.unique htrue) (by decide)

end CatalogFS
