import CatalogFS.Completeness

namespace CatalogFS

open CLib

/-- The system when calls fail on these paths and the memory that is then read holds this. -/
def Host.failing (host : Host) (lstatFails readlinkFails : Bytes → Bool)
    (staleStat : Bytes → Stat) (staleLink : Bytes → Bytes) : Host where
  lstat path := if lstatFails path then none else host.lstat path
  readlink path := if readlinkFails path then none else host.readlink path
  readdir := host.readdir
  staleStat := staleStat
  staleLink := staleLink

theorem Host.Lists.failing {host : Host} {inputDir : Bytes} {T : Tree}
    {fails unknown : List FileName → Bool} {lstatFails readlinkFails : Bytes → Bool}
    {staleStat : Bytes → Stat} {staleLink : Bytes → Bytes}
    (h : host.Lists inputDir T fails unknown) :
    (host.failing lstatFails readlinkFails staleStat staleLink).Lists inputDir T fails unknown :=
  ⟨h.readdir_dir, h.readdir_fails⟩

def Unaffected (inputDir : Bytes) (lstatFails readlinkFails : Bytes → Bool) (r : Record) : Prop :=
  lstatFails (inputDir ++ r.path) = false ∧
    (r.c = ch 'l' → readlinkFails (inputDir ++ r.path) = false)

/-- No call that the listing of the tree makes fails: `lstat` on each directory with a slash behind it
and on each file, and `readlink` on each link. -/
structure CallsSucceed (inputDir : Bytes) (T : Tree) (lstatFails readlinkFails : Bytes → Bool) :
    Prop where
  lstat_dir : ∀ cs, T.IsDir cs → lstatFails (inputDir ++ dirPath cs) = false
  lstat_node : ∀ cs node, cs ≠ [] → T.get cs = some node →
    lstatFails (inputDir ++ pathString cs) = false
  readlink_link : ∀ cs a t, T.get cs = some (.link a t) →
    readlinkFails (inputDir ++ pathString cs) = false

/-- Whatever memory is read unwritten, every record says what it says when no call fails, and the
records of the files whose calls succeed are all there. -/
def NothingInvented (host : Host) (inputDir : Bytes) (lstatFails readlinkFails : Bytes → Bool) :
    Prop :=
  ∀ recs₀, Writes host inputDir recs₀ → ∀ staleStat staleLink recs,
    Writes (host.failing lstatFails readlinkFails staleStat staleLink) inputDir recs →
      (∀ r ∈ recs, r ∈ recs₀) ∧
      ∀ r ∈ recs₀, Unaffected inputDir lstatFails readlinkFails r → r ∈ recs

section Paths

variable {T : Tree} {fails unknown : List FileName → Bool}

theorem blockBy_map {β : Type} (printed : Bytes → β) (cs : List FileName) :
    T.blockBy fails printed cs = (T.blockBy fails id cs).map printed := by
  unfold Tree.blockBy
  split
  · split_ifs <;> simp [Function.comp_def]
  · rfl

theorem recordsBy_map {β : Type} (printed : Bytes → β) :
    T.recordsBy fails unknown printed = (T.recordsBy fails unknown id).map printed := by
  rw [Tree.recordsBy, Tree.recordsBy, List.map_flatMap]
  exact List.flatMap_congr fun cs _ => blockBy_map printed cs

theorem exists_node_of_mem {host : Host} {inputDir : Bytes} (hfiles : host.ShowsFiles inputDir T)
    {path : Bytes} (h : path ∈ T.recordsBy fails unknown id) :
    ∃ node : Node, host.lstat (inputDir ++ path) = some node.stat ∧
      (node.type = .lnk → host.readlink (inputDir ++ path) = some node.target) := by
  obtain ⟨cs, -, hpath⟩ := List.mem_flatMap.mp h
  unfold Tree.blockBy at hpath
  split at hpath
  · rename_i a ch hget
    rcases List.mem_cons.mp hpath with rfl | hpath
    · exact ⟨.dir a ch, hfiles.lstat_dir cs a ch hget, nofun⟩
    · split_ifs at hpath
      · cases hpath
      · obtain ⟨e, he, rfl⟩ := List.mem_map.mp hpath
        have hnode := (mem_children_iff hget e).mp (mem_byName.mp he)
        have hstr : id (dirPath cs ++ e.1.val) = pathString (cs ++ [e.1]) :=
          (pathString_concat cs e.1).symm
        rw [hstr]
        exact ⟨e.2, hfiles.lstat_node _ _ (by simp) hnode, readlink_of_lnk hfiles hnode⟩
  · cases hpath

end Paths

section Printed

variable {host : Host} {path inputDir : Bytes} {r : Record}

def Host.typeOf (host : Host) (path : Bytes) : ℕ :=
  ((((host.lstat path).getD (host.staleStat path)).stMode &&& 0o170000) >>> 12).toNat

theorem path_of_printed (h : printToCatalog host (inputDir ++ path) inputDir = some r) :
    r.path = path := by
  simp only [printToCatalog, printEntryToCatalog] at h
  split_ifs at h <;> simp [← Option.some.inj h]

theorem letter_of_printed (h : printToCatalog host path inputDir = some r) :
    r.c = typeLetter (host.typeOf path) := by
  simp only [printToCatalog, printEntryToCatalog] at h
  split_ifs at h <;> simp [← Option.some.inj h, Host.typeOf]

theorem uid_of_printed (h : printToCatalog host path inputDir = some r) :
    r.uid = ((host.lstat path).getD (host.staleStat path)).stUid.toNat := by
  simp only [printToCatalog, printEntryToCatalog] at h
  split_ifs at h <;> simp [← Option.some.inj h]

theorem linkDest_of_printed (h : printToCatalog host path inputDir = some r)
    (htype : host.typeOf path = FileType.lnk.dt) (hfails : host.readlink path = none) :
    r.linkDest = host.staleLink path := by
  unfold Host.typeOf at htype
  simp only [printToCatalog, printEntryToCatalog, htype, hfails, if_true] at h
  split_ifs at h
  simp [← Option.some.inj h]

theorem typeLetter_eq_l {t : ℕ} : typeLetter t = ch 'l' ↔ t = FileType.lnk.dt := by
  constructor
  · intro h
    unfold typeLetter at h
    split at h <;> first | rfl | exact absurd h (by decide)
  · rintro rfl
    rfl

variable {lstatFails readlinkFails : Bytes → Bool} {staleStat : Bytes → Stat}
  {staleLink : Bytes → Bytes}

theorem forall_unaffected_iff {T : Tree} :
    (∀ r ∈ T.records noFailure, Unaffected inputDir lstatFails readlinkFails r) ↔
      CallsSucceed inputDir T lstatFails readlinkFails := by
  constructor
  · intro h
    have hentry : ∀ cs node, cs ≠ [] → T.get cs = some node →
        Unaffected inputDir lstatFails readlinkFails (nodeRecord (pathString cs) node) := by
      intro cs node hcs hget
      obtain ⟨ds, c, rfl⟩ := List.eq_nil_or_concat' cs |>.resolve_left hcs
      rw [pathString_concat]
      exact h _ (mem_records_iff.mpr (.inr ⟨ds, c, node,
        reached_of_isDir (isDir_of_get_concat hget), rfl, hget, rfl⟩))
    refine ⟨?_, fun cs node hcs hget => (hentry cs node hcs hget).1, ?_⟩
    · rintro cs ⟨a, ch, hget⟩
      exact (h _ (mem_records_iff.mpr
        (.inl ⟨cs, a, ch, reached_of_isDir ⟨a, ch, hget⟩, hget, rfl⟩))).1
    · intro cs a t hget
      have hcs : cs ≠ [] := by
        rintro rfl
        cases hget
      exact (hentry cs _ hcs hget).2 rfl
  · intro h r hr
    rcases mem_records_iff.mp hr with ⟨cs, a, ch, -, hget, rfl⟩ | ⟨cs, c, node, -, -, hget, rfl⟩
    · refine ⟨h.lstat_dir cs ⟨a, ch, hget⟩, fun hc => ?_⟩
      cases @FileType.letter_injective .dir .lnk hc
    · rw [← pathString_concat]
      refine ⟨h.lstat_node _ node (by simp) hget, fun hc => ?_⟩
      have hlnk : node.type = .lnk := FileType.letter_injective hc
      cases node with
      | leaf t a => cases t <;> cases hlnk
      | link a t => exact h.readlink_link _ a t hget
      | dir a ch => cases hlnk

theorem printed_of_unaffected {node : Node} {s : Record}
    (hl : host.lstat (inputDir ++ path) = some node.stat)
    (hr : printToCatalog host (inputDir ++ path) inputDir = some r)
    (hs : printToCatalog (host.failing lstatFails readlinkFails staleStat staleLink)
      (inputDir ++ path) inputDir = some s)
    (hlink : node.type = .lnk → host.readlink (inputDir ++ path) = some node.target)
    (h : Unaffected inputDir lstatFails readlinkFails r) : s = r := by
  obtain ⟨hlstat, hreadlink⟩ := h
  rw [path_of_printed hr] at hlstat hreadlink
  have hne : inputDir ≠ [] := by
    rintro rfl
    cases hr
  have hl' : (host.failing lstatFails readlinkFails staleStat staleLink).lstat
      (inputDir ++ path) = some node.stat := by simp [Host.failing, hlstat, hl]
  have htype : host.typeOf (inputDir ++ path) = node.type.dt := by
    rw [Host.typeOf, hl, Option.getD_some]
    exact FileType.mode_type _ _
  have hlink' : node.type = .lnk → (host.failing lstatFails readlinkFails staleStat
      staleLink).readlink (inputDir ++ path) = some node.target := by
    intro hlnk
    have hc : r.c = ch 'l' := by
      rw [letter_of_printed hr, htype, hlnk]
      rfl
    simp [Host.failing, hreadlink hc, hlink hlnk]
  rw [printToCatalog_eq hne hl hlink] at hr
  rw [printToCatalog_eq hne hl' hlink'] at hs
  exact Option.some.inj (hs.symm.trans hr)

end Printed

section Runs

variable {host : Host} {inputDir : Bytes} {T : Tree} {lstatFails readlinkFails : Bytes → Bool}
  {staleStat : Bytes → Stat} {staleLink : Bytes → Bytes} {recs₀ recs : List Record} {r : Record}
  (hne : inputDir ≠ []) (hshows : host.Shows inputDir T noFailure)
  (hw₀ : Writes host inputDir recs₀)

include hne hshows hw₀

theorem printed_of_mem (hr : r ∈ recs₀) :
    printToCatalog host (inputDir ++ r.path) inputDir = some r := by
  obtain ⟨printed, hprinted⟩ := exists_printed host hne
  obtain rfl := (writes_iff_by hprinted hshows.lists).mp hw₀
  rw [recordsBy_map] at hr
  obtain ⟨path, -, rfl⟩ := List.mem_map.mp hr
  rw [path_of_printed (hprinted path), hprinted]

theorem eq_of_path_eq (hr : r ∈ recs₀) {s : Record} (hs : s ∈ recs₀) (h : s.path = r.path) :
    s = r := by
  have hr' := printed_of_mem hne hshows hw₀ hr
  have hs' := printed_of_mem hne hshows hw₀ hs
  rw [h] at hs'
  exact Option.some.inj (hs'.symm.trans hr')

variable (lstatFails readlinkFails staleStat staleLink) in
/-- A run with failures records the same paths, each by what is then printed for it. -/
theorem exists_failing_run : ∃ (printed₀ printed : Bytes → Record) (paths : List Bytes),
    (∀ path, printToCatalog host (inputDir ++ path) inputDir = some (printed₀ path)) ∧
    (∀ path, printToCatalog (host.failing lstatFails readlinkFails staleStat staleLink)
      (inputDir ++ path) inputDir = some (printed path)) ∧
    (∀ path ∈ paths, ∃ node : Node, host.lstat (inputDir ++ path) = some node.stat ∧
      (node.type = .lnk → host.readlink (inputDir ++ path) = some node.target)) ∧
    recs₀ = paths.map printed₀ ∧
    ∀ recs, Writes (host.failing lstatFails readlinkFails staleStat staleLink) inputDir recs ↔
      recs = paths.map printed := by
  obtain ⟨printed₀, hprinted₀⟩ := exists_printed host hne
  obtain ⟨printed, hprinted⟩ :=
    exists_printed (host.failing lstatFails readlinkFails staleStat staleLink) hne
  refine ⟨printed₀, printed, T.recordsBy noFailure noFailure id, hprinted₀, hprinted, ?_, ?_, ?_⟩
  · exact fun path hpath => exists_node_of_mem hshows.files hpath
  · rw [← recordsBy_map]
    exact (writes_iff_by hprinted₀ hshows.lists).mp hw₀
  · intro recs
    rw [← recordsBy_map]
    exact writes_iff_by hprinted hshows.lists.failing

theorem exists_record_of_mem
    (hw : Writes (host.failing lstatFails readlinkFails staleStat staleLink) inputDir recs)
    (hr : r ∈ recs₀) :
    ∃ s ∈ recs, printToCatalog (host.failing lstatFails readlinkFails staleStat staleLink)
      (inputDir ++ r.path) inputDir = some s := by
  obtain ⟨printed₀, printed, paths, hprinted₀, hprinted, -, rfl, hruns⟩ :=
    exists_failing_run lstatFails readlinkFails staleStat staleLink hne hshows hw₀
  obtain rfl := (hruns recs).mp hw
  obtain ⟨path, hpath, rfl⟩ := List.mem_map.mp hr
  rw [path_of_printed (hprinted₀ path)]
  exact ⟨printed path, List.mem_map_of_mem hpath, hprinted path⟩

theorem eq_of_unaffected
    (hw : Writes (host.failing lstatFails readlinkFails staleStat staleLink) inputDir recs)
    (h : ∀ r ∈ recs₀, Unaffected inputDir lstatFails readlinkFails r) : recs = recs₀ := by
  obtain ⟨printed₀, printed, paths, hprinted₀, hprinted, hnode, rfl, hruns⟩ :=
    exists_failing_run lstatFails readlinkFails staleStat staleLink hne hshows hw₀
  obtain rfl := (hruns recs).mp hw
  apply List.map_congr_left
  intro path hpath
  obtain ⟨node, hl, hlink⟩ := hnode path hpath
  exact printed_of_unaffected hl (hprinted₀ path) (hprinted path) hlink
    (h _ (List.mem_map_of_mem hpath))

end Runs

section Main

variable {host : Host} {inputDir : Bytes} {T : Tree} {lstatFails readlinkFails : Bytes → Bool}
  (hne : inputDir ≠ []) (hshows : host.Shows inputDir T noFailure)

include hne hshows

variable {recs₀ : List Record} {r : Record}

/-- If nothing is invented, a record does not depend on the memory. -/
theorem printed_failing (h : NothingInvented host inputDir lstatFails readlinkFails)
    (hw₀ : Writes host inputDir recs₀) (hr : r ∈ recs₀) (staleStat : Bytes → Stat)
    (staleLink : Bytes → Bytes) :
    printToCatalog (host.failing lstatFails readlinkFails staleStat staleLink)
      (inputDir ++ r.path) inputDir = some r := by
  obtain ⟨_, _, _, -, -, -, -, hruns⟩ :=
    exists_failing_run lstatFails readlinkFails staleStat staleLink hne hshows hw₀
  have hw := (hruns _).mpr rfl
  obtain ⟨s, hs, hps⟩ := exists_record_of_mem hne hshows hw₀ hw hr
  have hmem := (h recs₀ hw₀ staleStat staleLink _ hw).1 s hs
  rw [hps, eq_of_path_eq hne hshows hw₀ hr hmem (path_of_printed hps)]

/-- Some content of the memory gives a record away as soon as one of its calls fails. -/
theorem unaffected_of_nothingInvented
    (h : NothingInvented host inputDir lstatFails readlinkFails)
    (hw₀ : Writes host inputDir recs₀) (hr : r ∈ recs₀) :
    Unaffected inputDir lstatFails readlinkFails r := by
  have hsame := printed_failing hne hshows h hw₀ hr
  have hlstat : lstatFails (inputDir ++ r.path) = false := by
    by_contra hfails
    have huid := uid_of_printed (hsame
      (fun _ => { Stat.zero with stUid := if r.uid = 0 then 1 else 0 }) fun _ => [])
    simp only [Host.failing, Bool.eq_true_of_not_eq_false hfails, if_true, Option.getD_none] at huid
    split_ifs at huid with hzero
    · rw [hzero] at huid
      exact absurd huid (by decide)
    · exact hzero huid
  refine ⟨hlstat, ?_⟩
  intro hc
  by_contra hfails
  have hs := hsame (fun _ => Stat.zero) fun _ => if r.linkDest = [] then [ch 'x'] else []
  have htype := typeLetter_eq_l.mp ((letter_of_printed hs).symm.trans hc)
  have hdest := linkDest_of_printed hs htype
    (by simp [Host.failing, Bool.eq_true_of_not_eq_false hfails])
  simp only [Host.failing] at hdest
  split_ifs at hdest with hnil
  · rw [hnil] at hdest
    cases hdest
  · exact hnil hdest

/-- Failing calls put nothing into the catalog that was not read exactly when none of the calls of
the run fails. -/
theorem nothingInvented_iff :
    NothingInvented host inputDir lstatFails readlinkFails ↔
      CallsSucceed inputDir T lstatFails readlinkFails := by
  rw [← forall_unaffected_iff]
  constructor
  · intro h r hr
    exact unaffected_of_nothingInvented hne hshows h ((writes_iff hshows hne).mpr rfl) hr
  · intro h recs₀ hw₀ staleStat staleLink recs hw
    obtain rfl := (writes_iff hshows hne).mp hw₀
    rw [eq_of_unaffected hne hshows hw₀ hw h]
    exact ⟨fun _ hr => hr, fun _ hr _ => hr⟩

end Main

/-- A `readlink` that fails on the directory `a` is never called, one that fails on the link `l` is. -/
theorem nothingInvented_iff_smallTree :
    NothingInvented (treeHost [ch 'r'] smallTree noFailure) [ch 'r'] (fun _ => false)
        (fun path => path = [ch 'r', slash, ch 'a']) ∧
      ¬ NothingInvented (treeHost [ch 'r'] smallTree noFailure) [ch 'r'] (fun _ => false)
        fun path => path = [ch 'r', slash, ch 'l'] := by
  have hshows := treeHost_shows [ch 'r'] smallTree noFailure
  constructor
  · refine (nothingInvented_iff (List.cons_ne_nil _ _) hshows).mpr
      ⟨fun _ _ => rfl, fun _ _ _ _ => rfl, fun cs a t hlink => ?_⟩
    have hl : ∀ a t, Node.link smallAttr targetA = .link a t →
        decide ([ch 'r'] ++ pathString [nameL] = [ch 'r', slash, ch 'a']) = false := by
      intro _ _ _
      decide
    exact smallTree_forall (P := fun cs n => ∀ a t, n = .link a t →
        decide ([ch 'r'] ++ pathString cs = [ch 'r', slash, ch 'a']) = false)
      (by simp [Tree.root]) hl (by simp) (by simp) cs _ hlink a t rfl
  · intro h
    have hsucceed := (nothingInvented_iff (List.cons_ne_nil _ _) hshows).mp h
    have hlink := hsucceed.readlink_link [nameL] smallAttr targetA rfl
    exact absurd hlink (by decide)

/-- When `lstat` fails on everything, the record of the root is made of memory. -/
theorem not_nothingInvented_smallTree :
    ¬ NothingInvented (treeHost [ch 'r'] smallTree noFailure) [ch 'r'] (fun _ => true)
      (fun _ => false) := by
  intro h
  have hshows := treeHost_shows [ch 'r'] smallTree noFailure
  have hw := (writes_iff hshows (List.cons_ne_nil (ch 'r') [])).mpr rfl
  have hroot : nodeRecord (dirPath []) smallTree.root ∈ smallTree.records noFailure :=
    mem_records_iff.mpr (.inl ⟨[], _, _, .root, rfl, rfl⟩)
  cases (unaffected_of_nothingInvented (List.cons_ne_nil (ch 'r') []) hshows h hw hroot).1

end CatalogFS
