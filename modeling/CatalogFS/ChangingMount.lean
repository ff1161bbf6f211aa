import CatalogFS.Buffers
import CatalogFS.ChangingSystem
import CatalogFS.MountedView

namespace CatalogFS

open CLib

variable {w : ℕ → Host} {inputDir : Bytes} {s s' : LiveListing}

/-- Every answer was that of a file, and no name or target holds a separator. -/
structure GoodAnswers (w : ℕ → Host) (asked : List Question) : Prop where
  file : ∀ i path, asked[i]? = some (.print path) → ∃ node : Node,
    (w i).lstat path = some node.stat ∧
      (node.type = .lnk → (w i).readlink path = some node.target) ∧ newline ∉ node.target
  name : ∀ i dir, asked[i]? = some (.scan dir) → ∀ ent ∈ (scandir (w i) dir).getD [],
    sep ∉ ent.dName ∧ linkSep ∉ ent.dName ∧ newline ∉ ent.dName

def Question.path : Question → Option Bytes
  | .print path => some path
  | .scan _ => none

theorem liveLoop_invariant {P : List Record → List Question → Prop}
    (hprint : ∀ catalog asked path r, P catalog asked →
      printToCatalog (w asked.length) path inputDir = some r →
        P (catalog ++ [r]) (asked ++ [.print path]))
    (hscan : ∀ catalog asked dir, P catalog asked → P catalog (asked ++ [.scan dir]))
    {fuel : ℕ} (h : liveLoop w inputDir fuel s = some s') (hs : P s.catalog s.asked) :
    P s'.catalog s'.asked := by
  have hstep : ∀ {path : Bytes} {s s' : LiveListing}, s.print w inputDir path = some s' →
      P s.catalog s.asked → P s'.catalog s'.asked := by
    intro path s s' h hs
    obtain ⟨r, hr, rfl⟩ := Option.map_eq_some_iff.mp h
    exact hprint _ _ _ _ hs hr
  have hchild : ∀ {currentDir : Bytes} {ent : Dirent} {s s' : LiveListing},
      liveChild w inputDir currentDir s ent = some s' → P s.catalog s.asked →
        P s'.catalog s'.asked := by
    intro currentDir ent s s' h hs
    obtain ⟨s₁, hs₁, h⟩ := Option.bind_eq_some_iff.mp h
    have hP := hstep hs₁ hs
    split_ifs at h <;> obtain rfl := Option.some.inj h <;> exact hP
  have hfold : ∀ {currentDir : Bytes} {namelist : List Dirent} {s s' : LiveListing},
      namelist.foldlM (liveChild w inputDir currentDir) s = some s' → P s.catalog s.asked →
        P s'.catalog s'.asked := by
    intro currentDir namelist
    induction namelist with
    | nil =>
      intro s s' h hs
      obtain rfl : s = s' := Option.some.inj h
      exact hs
    | cons ent namelist ih =>
      intro s s' h hs
      rw [List.foldlM_cons] at h
      obtain ⟨s₁, hs₁, h⟩ := Option.bind_eq_some_iff.mp h
      exact ih h (hchild hs₁ hs)
  have hdir : ∀ {currentDir : Bytes} {s s' : LiveListing},
      liveDir w inputDir currentDir s = some s' → P s.catalog s.asked → P s'.catalog s'.asked := by
    intro currentDir s s' h hs
    obtain ⟨s₁, hs₁, h⟩ := Option.bind_eq_some_iff.mp h
    have hP := hscan _ _ currentDir (hstep hs₁ hs)
    simp only [liveScan] at h
    split at h
    · split_ifs at h
      obtain rfl := Option.some.inj h
      exact hP
    · exact hfold h hP
  induction fuel generalizing s with
  | zero =>
    rw [liveLoop] at h
    split at h
    · obtain rfl := Option.some.inj h
      exact hs
    · cases h
  | succ fuel ih =>
    rw [liveLoop] at h
    split at h
    · obtain rfl := Option.some.inj h
      exact hs
    · obtain ⟨s₁, hs₁, h⟩ := Option.bind_eq_some_iff.mp h
      exact ih h (hdir hs₁ hs)

/-- There is one record for each file that was asked for, made from the answer. -/
structure Recorded (w : ℕ → Host) (inputDir : Bytes) (catalog : List Record)
    (asked : List Question) : Prop where
  paths : catalog.map Record.path = (asked.filterMap Question.path).map (List.drop inputDir.length)
  answer : ∀ r ∈ catalog, ∃ i path, asked[i]? = some (.print path) ∧
    printToCatalog (w i) path inputDir = some r

theorem drop_of_printed {host : Host} {path : Bytes} {r : Record}
    (h : printToCatalog host path inputDir = some r) : r.path = path.drop inputDir.length := by
  simp only [printToCatalog, printEntryToCatalog] at h
  split_ifs at h <;> simp [← Option.some.inj h]

theorem recorded_of_run {fuel : ℕ} (h : catalogListingLive w inputDir fuel = some s) :
    Recorded (met w) inputDir s.catalog s.asked := by
  have hold : ∀ {asked : List Question} {q : Question} {catalog : List Record},
      (∀ r ∈ catalog, ∃ i path, asked[i]? = some (.print path) ∧
        printToCatalog (met w i) path inputDir = some r) →
      ∀ r ∈ catalog, ∃ i path, (asked ++ [q])[i]? = some (.print path) ∧
        printToCatalog (met w i) path inputDir = some r := by
    intro asked q catalog h r hr
    obtain ⟨i, path, hi, hprinted⟩ := h r hr
    obtain ⟨hlt, -⟩ := List.getElem?_eq_some_iff.mp hi
    exact ⟨i, path, (List.getElem?_append_left hlt).trans hi, hprinted⟩
  refine liveLoop_invariant (P := Recorded (met w) inputDir) ?_ ?_ h ⟨rfl, nofun⟩
  · rintro catalog asked path r ⟨hpaths, hanswer⟩ hr
    refine ⟨?_, fun r' hr' => ?_⟩
    · simp [hpaths, drop_of_printed hr, Question.path]
    · rcases List.mem_append.mp hr' with hr' | hr'
      · exact hold hanswer r' hr'
      · obtain rfl := List.mem_singleton.mp hr'
        exact ⟨asked.length, path, List.getElem?_concat_length, hr⟩
  · rintro catalog asked dir ⟨hpaths, hanswer⟩
    exact ⟨by simp [hpaths, Question.path], hold hanswer⟩

def blockPaths (v : List FileName × List FileName) : List Bytes :=
  dirPath v.1 :: v.2.map fun c => dirPath v.1 ++ c.val

theorem exists_of_mem_blockPaths {v : List FileName × List FileName} {p : Bytes}
    (h : p ∈ blockPaths v) : ∃ n, slash ∉ n ∧ p = dirPath v.1 ++ n := by
  rcases List.mem_cons.mp h with rfl | h
  · exact ⟨[], List.not_mem_nil, (List.append_nil _).symm⟩
  · obtain ⟨c, -, rfl⟩ := List.mem_map.mp h
    exact ⟨c.val, c.slash_notMem, rfl⟩

section Recorded

variable {visited : List (List FileName × List FileName)} (hshape : Shape w inputDir visited [] s)
  (hrec : Recorded w inputDir s.catalog s.asked)

include hshape hrec

theorem paths_of_shape : s.catalog.map Record.path = visited.flatMap blockPaths := by
  have hblock : ∀ v : List FileName × List FileName,
      ((questions inputDir v.1 v.2).filterMap Question.path).map (List.drop inputDir.length) =
        blockPaths v := by
    intro v
    simp only [questions, Question.path, List.filterMap_cons, List.filterMap_map, List.map_cons,
      List.drop_left, blockPaths, List.cons.injEq, true_and]
    have hentries : (Question.path ∘ fun c : FileName => .print (inputDir ++ (dirPath v.1 ++ c.val))) =
        some ∘ fun c : FileName => inputDir ++ (dirPath v.1 ++ c.val) := rfl
    rw [hentries, List.filterMap_eq_map, List.map_map]
    exact List.map_congr_left fun c _ => List.drop_left
  rw [hrec.paths, hshape.asked_eq, List.filterMap_flatMap, List.map_flatMap]
  exact List.flatMap_congr fun v _ => hblock v

theorem exists_visited {r : Record} (hr : r ∈ s.catalog) :
    ∃ v ∈ visited, r.path ∈ blockPaths v := by
  have hpath : r.path ∈ visited.flatMap blockPaths := by
    rw [← paths_of_shape hshape hrec]
    exact List.mem_map_of_mem hr
  exact List.mem_flatMap.mp hpath

theorem exists_answer {r : Record} (hr : r ∈ s.catalog) :
    ∃ i, s.asked[i]? = some (.print (inputDir ++ r.path)) ∧
      printToCatalog (w i) (inputDir ++ r.path) inputDir = some r := by
  obtain ⟨i, path, hi, hprinted⟩ := hrec.answer r hr
  have hunder : ∃ p, path = inputDir ++ p := by
    have hmem := List.mem_of_getElem? hi
    rw [hshape.asked_eq] at hmem
    obtain ⟨v, -, hmem⟩ := List.mem_flatMap.mp hmem
    simp only [questions, List.mem_cons, reduceCtorEq, List.mem_map, Question.print.injEq,
      false_or] at hmem
    rcases hmem with rfl | ⟨c, -, rfl⟩
    · exact ⟨_, rfl⟩
    · exact ⟨_, rfl⟩
  obtain ⟨p, rfl⟩ := hunder
  have hpath : r.path = p := by rw [drop_of_printed hprinted, List.drop_left]
  rw [hpath]
  exact ⟨i, hi, hprinted⟩

theorem pairwise_findDepth : s.catalog.Pairwise fun r r' => findDepth r.path ≤ findDepth r'.path := by
  have hdepth : ∀ {v p}, p ∈ blockPaths v → findDepth p = v.1.length + 1 := by
    intro v p hp
    obtain ⟨n, hn, rfl⟩ := exists_of_mem_blockPaths hp
    exact findDepth_dirPath_append v.1 hn
  have hrank := (hshape.growing.pairwise_rank List.length
    fun cs ds ⟨c, hc⟩ => by simp [hc]).1
  rw [List.append_nil] at hrank
  have hpaths : (s.catalog.map Record.path).Pairwise fun p q => findDepth p ≤ findDepth q := by
    rw [paths_of_shape hshape hrec]
    refine List.pairwise_flatMap.mpr ⟨fun v _ => ?_, (List.pairwise_map.mp hrank).imp ?_⟩
    · refine List.pairwise_of_forall_mem_list fun p hp q hq => ?_
      rw [hdepth hp, hdepth hq]
    · intro v v' hle p hp q hq
      rw [hdepth hp, hdepth hq]
      omega
  rwa [List.pairwise_map] at hpaths

theorem nodup_paths : (s.catalog.map Record.path).Nodup := by
  rw [paths_of_shape hshape hrec, List.nodup_flatMap]
  constructor
  · intro v hv
    have hsorted := (hshape.names v hv).1
    have hnodup : v.2.Nodup := hsorted.imp fun hlt heq => absurd (heq ▸ hlt) (lt_irrefl _)
    refine List.nodup_cons.mpr ⟨fun hmem => ?_, hnodup.map fun c d hcd =>
      FileName.ext (List.append_cancel_left hcd)⟩
    obtain ⟨c, -, hc⟩ := List.mem_map.mp hmem
    exact c.ne_nil (List.append_right_eq_self.mp hc)
  · refine (List.pairwise_map.mp hshape.nodup_visited).imp fun hne p hp hp' => ?_
    obtain ⟨m, hm, rfl⟩ := exists_of_mem_blockPaths hp
    obtain ⟨n, hn, heq⟩ := exists_of_mem_blockPaths hp'
    exact hne (dirPath_append_inj hm hn heq).1

end Recorded

theorem clean_component {visited : List (List FileName × List FileName)}
    (hshape : Shape w inputDir visited [] s) (hgood : GoodAnswers w s.asked)
    {v : List FileName × List FileName} (hv : v ∈ visited) :
    (∀ c ∈ v.2, sep ∉ c.val ∧ linkSep ∉ c.val ∧ newline ∉ c.val) ∧
      ∀ c ∈ v.1, sep ∉ c.val ∧ linkSep ∉ c.val ∧ newline ∉ c.val := by
  have hname : ∀ v ∈ visited, ∀ c ∈ v.2, sep ∉ c.val ∧ linkSep ∉ c.val ∧ newline ∉ c.val := by
    intro v hv c hc
    obtain ⟨-, i, hi, hnames⟩ := hshape.names v hv
    have hmem : c.val ∈ v.2.map FileName.val := List.mem_map_of_mem hc
    rw [hnames] at hmem
    obtain ⟨ent, hent, heq⟩ := List.mem_map.mp hmem
    rw [← heq]
    exact hgood.name i _ hi ent hent
  refine ⟨hname v hv, ?_⟩
  have hcomp : ∀ cs ∈ visited.map Prod.fst, ∀ c ∈ cs,
      sep ∉ c.val ∧ linkSep ∉ c.val ∧ newline ∉ c.val := by
    intro cs
    induction cs using List.reverseRecOn with
    | nil => exact fun _ => nofun
    | append_singleton cs d ih =>
      intro hcs c hc
      rcases hshape.found _ (List.mem_append_left _ hcs) with hnil | ⟨u, hu, d', hd', heq⟩
      · simp at hnil
      · obtain ⟨hcs', hd⟩ := List.append_inj' heq rfl
        obtain rfl := List.singleton_inj.mp hd
        rcases List.mem_append.mp hc with hc | hc
        · exact ih (hcs' ▸ List.mem_map_of_mem hu) c hc
        · rw [List.mem_singleton.mp hc]
          exact hname u hu d hd'
  exact hcomp v.1 (List.mem_map_of_mem hv)

section Heard

variable {visited : List (List FileName × List FileName)} (hne : inputDir ≠ [])
  (hshape : Shape w inputDir visited [] s) (hrec : Recorded w inputDir s.catalog s.asked)
  (hgood : GoodAnswers w s.asked)

include hne hshape hrec hgood

theorem exists_heard {r : Record} (hr : r ∈ s.catalog) :
    ∃ i, ∃ node : Node, s.asked[i]? = some (.print (inputDir ++ r.path)) ∧
      (w i).lstat (inputDir ++ r.path) = some node.stat ∧ newline ∉ node.target ∧
      r = nodeRecord r.path node := by
  obtain ⟨i, hi, hprinted⟩ := exists_answer hshape hrec hr
  obtain ⟨node, hlstat, hreadlink, hnewline⟩ := hgood.file i _ hi
  rw [printToCatalog_eq hne hlstat hreadlink] at hprinted
  exact ⟨i, node, hi, hlstat, hnewline, (Option.some.inj hprinted).symm⟩

theorem forall_catalog : ∀ r ∈ s.catalog, r.Printable ∧ r.Clean ∧ r.depth = findDepth r.path := by
  intro r hr
  obtain ⟨i, node, -, -, hnewline, heq⟩ := exists_heard hne hshape hrec hgood hr
  obtain ⟨v, hv, hpath⟩ := exists_visited hshape hrec hr
  obtain ⟨hnames, hcomps⟩ := clean_component hshape hgood hv
  have hbyte : ∀ b, b ≠ slash → (∀ c ∈ v.1, b ∉ c.val) → (∀ c ∈ v.2, b ∉ c.val) → b ∉ r.path := by
    intro b hb hdir hname hmem
    have hown : b ∉ dirPath v.1 := by
      rw [dirPath, List.mem_append, not_or, List.mem_singleton]
      exact ⟨notMem_pathString hb hdir, hb⟩
    rcases List.mem_cons.mp hpath with hp | hp
    · exact hown (hp ▸ hmem)
    · obtain ⟨c, hc, hp⟩ := List.mem_map.mp hp
      rw [← hp] at hmem
      exact (List.mem_append.mp hmem).elim hown (hname c hc)
  have hhead : r.path.head? = some slash := by
    obtain ⟨n, -, hp⟩ := exists_of_mem_blockPaths hpath
    rw [hp, List.head?_append, head?_dirPath]
    rfl
  have hnul : 0 ∉ node.target := by
    cases node with
    | leaf t a => simp [Node.target]
    | link a t => exact t.nul_notMem
    | dir a ch => simp [Node.target]
  have htake : ∀ b, b ∉ node.target → b ∉ node.target.take (maxPathLen - 1) :=
    fun b hb hmem => hb (List.mem_of_mem_take hmem)
  refine ⟨?_, ?_, ?_⟩
  · rw [heq]
    exact printable_recordOf hhead
      (hbyte 0 (by decide) (fun c _ => c.nul_notMem) fun c _ => c.nul_notMem) (htake _ hnul)
  · refine ⟨⟨hbyte sep (by decide) (fun c hc => (hcomps c hc).1) fun c hc => (hnames c hc).1,
      hbyte newline (by decide) (fun c hc => (hcomps c hc).2.2) fun c hc => (hnames c hc).2.2⟩,
      fun _ => ⟨hbyte linkSep (by decide) (fun c hc => (hcomps c hc).2.1)
        fun c hc => (hnames c hc).2.1, ?_⟩⟩
    rw [heq]
    exact htake _ hnewline
  · rw [heq]
    rfl

theorem isCatalog_run
    (hsize : maxLen (catalogFile s.catalog) * (lines (catalogFile s.catalog)).length < 2 ^ 31) :
    IsCatalog (geometry (catalogFile s.catalog)) (catalogFile s.catalog)
        (s.catalog.map Record.entry) ∧ DepthSorted (s.catalog.map Record.entry) := by
  have hall := forall_catalog hne hshape hrec hgood
  have hnil : s.catalog ≠ [] := by
    intro hnil
    have hpaths := paths_of_shape hshape hrec
    rw [hnil, List.map_nil] at hpaths
    cases visited with
    | nil =>
      -- the root is either visited or still in the queue
      have hroot := hshape.growing.root_met
      simp at hroot
    | cons v visited => simp [blockPaths] at hpaths
  refine ⟨isCatalog_catalogFile hnil (fun r hr => (hall r hr).1) (fun r hr => (hall r hr).2.1)
    (fun r hr => (hall r hr).2.2) hsize, List.pairwise_map.mpr ?_⟩
  refine (pairwise_findDepth hshape hrec).imp_of_mem fun {r r'} hr hr' hle => ?_
  change r.depth ≤ r'.depth
  rw [(hall r hr).2.2, (hall r' hr').2.2]
  exact hle

end Heard

/-- What is shown at a path is `-ENOENT`, or the attributes that the system told for the path, and
the names that it told for the directory with the attributes that it told for each. -/
structure TellsHeard (room : Bytes → ℕ) (w : ℕ → Host) (inputDir : Bytes) (asked : List Question)
    (file : Bytes) (probes : ℕ → Probe) (p : Bytes) : Prop where
  getattr : Returns probes (catalogGetattr (geometry file) p) (-ENOENT, Stat.zero) ∨
    ∃ i st, asked[i]? = some (.print (inputDir ++ p)) ∧ (w i).lstat (inputDir ++ p) = some st ∧
      Returns probes (catalogGetattr (geometry file) p) (0, st)
  readdir : HasRoom room p →
    Returns probes (catalogReaddirIn room (geometry file) roomy p) (-ENOENT, dots) ∨
    ∃ cs i filled, p = nodePath cs ∧ asked[i]? = some (.scan (inputDir ++ pathString cs)) ∧
      filled.map Filled.name =
        ((scandir (w i) (inputDir ++ pathString cs)).getD []).map Dirent.dName ∧
      (∀ f ∈ filled, ∃ j st, asked[j]? = some (.print (inputDir ++ (dirPath cs ++ f.name))) ∧
        (w j).lstat (inputDir ++ (dirPath cs ++ f.name)) = some st ∧ f.st = some st) ∧
      Returns probes (catalogReaddirIn room (geometry file) roomy p) (0, dots ++ filled)

theorem inDirectory_iff {cs ds : List FileName} {e : Entry} {n : Bytes} (hn : slash ∉ n)
    (hpath : e.path = dirPath ds ++ n) (hdepth : e.depth = findDepth e.path) :
    inDirectory (dirPath cs) e = decide (cs = ds) := by
  rw [inDirectory, hdepth, hpath, findDepth_dirPath_append ds hn, findDepth_dirPath]
  apply decide_eq_decide.mpr
  constructor
  · rintro ⟨hlen, hpre⟩
    exact ((dirPath_prefix_iff hn).mp hpre).eq_of_length (by omega)
  · rintro rfl
    exact ⟨rfl, List.prefix_append _ _⟩

section Mount

variable {visited : List (List FileName × List FileName)} (hne : inputDir ≠ [])
  (hshape : Shape w inputDir visited [] s) (hrec : Recorded w inputDir s.catalog s.asked)
  (hgood : GoodAnswers w s.asked)

include hne hshape hrec hgood

/-- What is listed for a directory that is found: the records of the names in it. -/
theorem exists_listed {cs : List FileName}
    (hl : locate (s.catalog.map Record.entry) (dirPath cs) ≠ -1)
    (hsorted : DepthSorted (s.catalog.map Record.entry)) :
    ∃ v ∈ visited, v.1 = cs ∧ ∃ block : List Record, (∀ r ∈ block, r ∈ s.catalog) ∧
      block.map Record.path = v.2.map (fun c => dirPath cs ++ c.val) ∧
      listed (s.catalog.map Record.entry) (dirPath cs) = block.map Record.entry := by
  have hpaths := paths_of_shape hshape hrec
  rcases locate_cases hsorted (dirPath cs) with hneg | ⟨k, e, hk, he, hpath, -, -⟩
  · exact absurd hneg hl
  obtain ⟨r, hr, rfl⟩ := List.mem_map.mp (List.mem_of_getElem? he)
  -- only a directory's own record ends in a slash
  obtain ⟨v, hv, hmem⟩ := exists_visited hshape hrec hr
  have hown : v.1 = cs := by
    obtain ⟨n, hn, hp⟩ := exists_of_mem_blockPaths hmem
    have heq : dirPath v.1 ++ n = dirPath cs ++ [] := by
      rw [List.append_nil, ← hp]
      exact hpath
    exact (dirPath_append_inj hn List.not_mem_nil heq).1
  subst hown
  obtain ⟨l₁, l₂, rfl⟩ := List.append_of_mem hv
  rw [List.flatMap_append, List.flatMap_cons, blockPaths, List.cons_append] at hpaths
  obtain ⟨before, rest, hcat, hbefore, hrest⟩ := List.map_eq_append_iff.mp hpaths
  obtain ⟨own, rest, rfl, hownpath, hrest⟩ := List.map_eq_cons_iff.mp hrest
  obtain ⟨block, after, rfl, hblock, hafter⟩ := List.map_eq_append_iff.mp hrest
  refine ⟨v, by simp, rfl, block, fun r hr => by simp [hcat, hr], hblock, ?_⟩
  -- the own record is found at its place, since its path is listed only there
  have hloc : k = before.length := by
    have hnodup := nodup_paths hshape hrec
    have hkr : (s.catalog.map Record.path)[k]? = some (dirPath v.1) := by
      rw [List.getElem?_map] at he ⊢
      obtain ⟨r', hr', heq⟩ := Option.map_eq_some_iff.mp he
      rw [hr', Option.map_some, ← hpath, ← heq]
      rfl
    have hbr : (s.catalog.map Record.path)[before.length]? = some (dirPath v.1) := by
      rw [hcat]
      simp [hownpath]
    obtain ⟨hk', hkr⟩ := List.getElem?_eq_some_iff.mp hkr
    obtain ⟨hb', hbr⟩ := List.getElem?_eq_some_iff.mp hbr
    exact (hnodup.getElem_inj_iff).mp (hkr.trans hbr.symm)
  have hall := forall_catalog hne hshape hrec hgood
  have hin : ∀ r ∈ s.catalog, ∀ u, r.path ∈ blockPaths u →
      inDirectory (dirPath v.1) r.entry = decide (v.1 = u.1) := by
    intro r hr u hu
    obtain ⟨n, hn, hp⟩ := exists_of_mem_blockPaths hu
    exact inDirectory_iff hn hp (hall r hr).2.2
  have hdrop : (s.catalog.map Record.entry).drop (before.length + 1) =
      block.map Record.entry ++ after.map Record.entry := by
    rw [hcat, List.map_append, List.drop_append]
    simp
  rw [listed, hk, Int.toNat_natCast, hloc, hdrop]
  apply takeWhile_append_of_forall
  · intro e he
    obtain ⟨r, hr, rfl⟩ := List.mem_map.mp he
    have hu : r.path ∈ blockPaths v := by
      refine List.mem_cons_of_mem _ ?_
      rw [← hblock]
      exact List.mem_map_of_mem hr
    rw [hin r (by simp [hcat, hr]) v hu]
    simp
  · intro e he
    obtain ⟨r, hr, rfl⟩ := List.mem_map.mp he
    have hu : r.path ∈ l₂.flatMap blockPaths := by
      rw [← hafter]
      exact List.mem_map_of_mem hr
    obtain ⟨u, hu, hru⟩ := List.mem_flatMap.mp hu
    have hnodup := hshape.nodup_visited
    rw [List.map_append, List.map_cons] at hnodup
    have hne' : v.1 ≠ u.1 := fun heq =>
      (List.nodup_cons.mp (List.nodup_append.mp hnodup).2.1).1 (heq ▸ List.mem_map_of_mem hu)
    rw [hin r (by simp [hcat, hr]) u hru]
    simpa using hne'

variable (hsize : maxLen (catalogFile s.catalog) * (lines (catalogFile s.catalog)).length < 2 ^ 31)
  {probes : ℕ → Probe} (hserves : Serves probes (catalogFile s.catalog))

include hsize hserves

theorem heard_getattr (p : Bytes) :
    Returns probes (catalogGetattr (geometry (catalogFile s.catalog)) p) (-ENOENT, Stat.zero) ∨
      ∃ i st, s.asked[i]? = some (.print (inputDir ++ p)) ∧ (w i).lstat (inputDir ++ p) = some st ∧
        Returns probes (catalogGetattr (geometry (catalogFile s.catalog)) p) (0, st) := by
  obtain ⟨hcat, hsorted⟩ := isCatalog_run hne hshape hrec hgood hsize
  rcases locate_cases hsorted p with hl | ⟨k, e, hl, he, hpath, -, -⟩
  · exact .inl (returns_catalogGetattr_of_neg hserves hcat.readable hsorted hl)
  · obtain ⟨r, hr, rfl⟩ := List.mem_map.mp (List.mem_of_getElem? he)
    obtain rfl : r.path = p := hpath
    obtain ⟨i, node, hi, hlstat, -, heq⟩ := exists_heard hne hshape hrec hgood hr
    refine .inr ⟨i, node.stat, hi, hlstat, ?_⟩
    have hret := returns_catalogGetattr hserves hcat.readable hsorted hl he
    have hst : r.entry.st = node.stat := by
      change r.stat = _
      rw [heq, stat_nodeRecord]
    rwa [hst] at hret

theorem heard_readdir {p : Bytes} (hp : p ≠ []) :
    Returns probes (catalogReaddir (geometry (catalogFile s.catalog)) roomy p) (-ENOENT, dots) ∨
      ∃ cs i filled, p = nodePath cs ∧ s.asked[i]? = some (.scan (inputDir ++ pathString cs)) ∧
        filled.map Filled.name =
          ((scandir (w i) (inputDir ++ pathString cs)).getD []).map Dirent.dName ∧
        (∀ f ∈ filled, ∃ j st, s.asked[j]? = some (.print (inputDir ++ (dirPath cs ++ f.name))) ∧
          (w j).lstat (inputDir ++ (dirPath cs ++ f.name)) = some st ∧ f.st = some st) ∧
        Returns probes (catalogReaddir (geometry (catalogFile s.catalog)) roomy p)
          (0, dots ++ filled) := by
  obtain ⟨hcat, hsorted⟩ := isCatalog_run hne hshape hrec hgood hsize
  rcases locate_cases hsorted (withSlash p) with hl | ⟨k, e, hl, he, hpath, -, -⟩
  · exact .inl (returns_catalogReaddir_of_neg hserves hcat.readable hsorted _ hl)
  · obtain ⟨r, hr, rfl⟩ := List.mem_map.mp (List.mem_of_getElem? he)
    -- what ends in a slash is the own record of a directory
    obtain ⟨u, -, hu⟩ := exists_visited hshape hrec hr
    have hown : r.path = dirPath u.1 := by
      rcases List.mem_cons.mp hu with h | h
      · exact h
      · obtain ⟨c, -, hc⟩ := List.mem_map.mp h
        have hlast := getLast?_withSlash p
        rw [← hpath] at hlast
        obtain ⟨n, b, hn⟩ := (List.eq_nil_or_concat c.val).resolve_left c.ne_nil
        have hb : b = slash := by
          change r.path.getLast? = some slash at hlast
          rw [← hc, hn, List.concat_eq_append, ← List.append_assoc, List.getLast?_concat] at hlast
          exact Option.some.inj hlast
        exact absurd (by rw [hn, hb]; simp) c.slash_notMem
    have hwith : dirPath u.1 = withSlash p := hown.symm.trans hpath
    have hpu := dirPath_eq_withSlash hp hwith
    have hret := returns_catalogReaddir hserves hcat.readable hsorted hl
      (List.getElem?_eq_some_iff.mp he).1
    rw [← hwith] at hret hl
    obtain ⟨v, hv, hvu, block, hblock, hpaths, hlisted⟩ :=
      exists_listed hne hshape hrec hgood (by omega : locate _ (dirPath u.1) ≠ -1) hsorted
    obtain ⟨-, i, hi, hnames⟩ := hshape.names v hv
    rw [hvu] at hi hnames
    have hbase : ∀ r ∈ block, ∃ c : FileName, r.path = dirPath u.1 ++ c.val ∧
        basename r.path = c.val := by
      intro r hr
      have hmem : r.path ∈ block.map Record.path := List.mem_map_of_mem hr
      rw [hpaths] at hmem
      obtain ⟨c, -, hc⟩ := List.mem_map.mp hmem
      refine ⟨c, hc.symm, ?_⟩
      rw [← hc]
      exact basename_append List.getLast?_concat c.slash_notMem
    refine .inr ⟨u.1, i, block.map fun r => ⟨basename r.path, some r.stat⟩, hpu, hi, ?_, ?_, ?_⟩
    · rw [← hnames, List.map_map]
      have hmap := congrArg (List.map basename) hpaths
      rw [List.map_map, List.map_map] at hmap
      refine Eq.trans ?_ (hmap.trans (List.map_congr_left fun c _ => ?_))
      · rfl
      · exact basename_append List.getLast?_concat c.slash_notMem
    · intro f hf
      obtain ⟨r, hr, rfl⟩ := List.mem_map.mp hf
      obtain ⟨c, hc, hcb⟩ := hbase r hr
      obtain ⟨j, node, hj, hlstat, -, heq⟩ := exists_heard hne hshape hrec hgood (hblock r hr)
      refine ⟨j, node.stat, ?_, ?_, ?_⟩
      · rw [hcb, ← hc]
        exact hj
      · rw [hcb, ← hc]
        exact hlstat
      · rw [heq, stat_nodeRecord]
    · rw [hlisted, List.map_map] at hret
      exact hret

end Mount

/-- Whatever happens to the system during a run, as long as no file vanishes between the `scandir`
that names it and its own `lstat`, the mount of the catalog shows at each path nothing, or what the
system told the run about it: no listing is partial or mixed, and no attributes are those of another
file. -/
theorem changing_lookup_sound (hne : inputDir ≠ []) (hvalid : ValidNames w) {fuel : ℕ}
    (h : catalogListingLive w inputDir fuel = some s) (hgood : GoodAnswers (met w) s.asked)
    {catalogName : Bytes} {stack : ℕ} (hm : Mountable catalogName stack (catalogFile s.catalog))
    (room : Bytes → ℕ) {probes : ℕ → Probe} (hserves : Serves probes (catalogFile s.catalog))
    {p : Bytes} (hp : FusePath p) :
    TellsHeard room (met w) inputDir s.asked (catalogFile s.catalog) probes p := by
  obtain ⟨visited, hshape⟩ := exists_shape hvalid h
  have hrec := recorded_of_run h
  refine ⟨heard_getattr hne hshape hrec hgood hm.size_lt hserves p, fun hroom => ?_⟩
  rw [returns_catalogReaddirIn_iff, and_iff_right hroom]
  rcases heard_readdir hne hshape hrec hgood hm.size_lt hserves hp.1 with habsent | hlisted
  · exact .inl habsent
  · obtain ⟨cs, i, filled, hcs, hi, hnames, hstats, hret⟩ := hlisted
    exact .inr ⟨cs, i, filled, hcs, hi, hnames, hstats, returns_catalogReaddirIn_iff.mpr ⟨hroom, hret⟩⟩

theorem exists_link_of_readlink {T : Tree} {path s : Bytes}
    (h : (treeHost inputDir T noFailure).readlink path = some s) :
    ∃ cs a t, T.get cs = some (.link a t) ∧ t.val = s := by
  simp only [treeHost] at h
  split at h
  · rename_i cs a t hfind
    split_ifs at hfind
    exact ⟨cs, a, t, Node.get_of_find hfind, Option.some.inj h⟩
  · cases h

/-- The answers of clean trees are good when every file that was asked for was there, and every link
still one at its `readlink`. -/
theorem goodAnswers_treeHost {T : ℕ → Tree} (hclean : ∀ i, (T i).Clean) {asked : List Question}
    (hthere : ∀ i path, asked[i]? = some (.print path) →
      ((treeHost inputDir (T (2 * i)) noFailure).lstat path).isSome ∧
      ∀ st ∈ (treeHost inputDir (T (2 * i)) noFailure).lstat path,
        ((st.stMode &&& 0o170000) >>> 12).toNat = FileType.lnk.dt →
          ((treeHost inputDir (T (2 * i + 1)) noFailure).readlink path).isSome) :
    GoodAnswers (met fun i => treeHost inputDir (T i) noFailure) asked := by
  constructor
  · intro i path hi
    obtain ⟨hsome, hlink⟩ := hthere i path hi
    obtain ⟨st, hst⟩ := Option.isSome_iff_exists.mp hsome
    have hlink := hlink st hst
    simp only [treeHost] at hst
    obtain ⟨⟨cs, node⟩, hfind, rfl⟩ := Option.map_eq_some_iff.mp hst
    cases node with
    | leaf t a =>
      have htype : (Node.leaf t a).type ≠ .lnk := by cases t <;> rintro ⟨⟩
      exact ⟨.leaf t a, hst, fun h => absurd h htype, List.not_mem_nil⟩
    | dir a ch =>
      have htype : (Node.dir a ch).type ≠ .lnk := by rintro ⟨⟩
      exact ⟨.dir a ch, hst, fun h => absurd h htype, List.not_mem_nil⟩
    | link a t =>
      obtain ⟨later, hlater⟩ := Option.isSome_iff_exists.mp (hlink (FileType.mode_type _ _))
      obtain ⟨ds, b, u, hget, rfl⟩ := exists_link_of_readlink hlater
      exact ⟨.link a u, hst, fun _ => hlater, (hclean _).target ds b u hget⟩
  · intro i dir _ ent hent
    change ent ∈ (scandir (treeHost inputDir (T (2 * i)) noFailure) dir).getD [] at hent
    cases hscan : scandir (treeHost inputDir (T (2 * i)) noFailure) dir with
    | none =>
      rw [hscan] at hent
      cases hent
    | some namelist =>
      rw [hscan] at hent
      obtain ⟨ents, hents, rfl⟩ := Option.map_eq_some_iff.mp hscan
      obtain ⟨hmem, hfilter⟩ := List.mem_filter.mp
        ((List.perm_insertionSort _ _).mem_iff.mp (hent : ent ∈ List.insertionSort _ _))
      simp only [treeHost] at hents
      split at hents
      · rename_i cs a ch hfind
        split_ifs at hfind hents
        obtain rfl := Option.some.inj hents
        have hget : (T (2 * i)).get cs = some (.dir a ch) := Node.get_of_find hfind
        rcases List.mem_append.mp hmem with hdot | hmem
        · rcases List.mem_pair.mp hdot with rfl | rfl <;> cases hfilter
        · obtain ⟨e, he, rfl⟩ := List.mem_map.mp hmem
          exact (hclean _).name cs e.1 e.2 ((mem_children_iff hget e).mp he)
      · cases hents

theorem laterTree_clean : laterTree.Clean := by
  have hall : ∀ {P : List FileName → Node → Prop}, P [] laterTree.root →
      P [nameA] (.dir smallAttr [(nameB, .leaf .reg smallAttr), (nameL, .link smallAttr targetA)]) →
      P [nameA, nameB] (.leaf .reg smallAttr) → P [nameA, nameL] (.link smallAttr targetA) →
      P [nameL] (.link smallAttr targetB) → ∀ cs m, laterTree.get cs = some m → P cs m := by
    intro P hroot ha hb hal hl
    refine Node.forall_get_dir hroot fun e he => ?_
    rcases List.mem_pair.mp he with rfl | rfl
    · refine Node.forall_get_dir ha fun e he => ?_
      rcases List.mem_pair.mp he with rfl | rfl
      · exact Node.forall_get_of_not_isDir rfl hb
      · exact Node.forall_get_of_not_isDir rfl hal
    · exact Node.forall_get_of_not_isDir rfl hl
  refine ⟨namesClean_of_forall ?_, fun cs a t hget => ?_⟩
  · exact hall (by simp) (by decide) (by decide) (by decide) (by decide)
  · exact hall (P := fun _ n => newline ∉ n.target) (by decide) (by decide) (by decide) (by decide)
      (by decide) cs _ hget

theorem goodAnswers_changingLink : GoodAnswers (met changingLink) changingLinkRun.asked := by
  refine goodAnswers_treeHost (fun i => ?_) fun i path hi => ?_
  · split_ifs
    · exact smallTree_clean
    · exact laterTree_clean
  · have hall : ∀ i < 8, ∀ q ∈ changingLinkRun.asked[i]?, ∀ path ∈ q.path,
        ((changingLink (2 * i)).lstat path).isSome ∧
        ∀ st ∈ (changingLink (2 * i)).lstat path,
          ((st.stMode &&& 0o170000) >>> 12).toNat = FileType.lnk.dt →
            ((changingLink (2 * i + 1)).readlink path).isSome := by decide
    obtain ⟨hlt, -⟩ := List.getElem?_eq_some_iff.mp hi
    exact hall i hlt _ hi path rfl

theorem changingLinkRun_writes : catalogListingLive changingLink [ch 'r'] 2 = some changingLinkRun := by
  decide

theorem changingLinkRun_mountable :
    Mountable [ch 'c'] (2 ^ 23) (catalogFile changingLinkRun.catalog) := by
  have hvalid : ValidNames changingLink := validNames_treeHost _ _ _
  obtain ⟨visited, hshape⟩ := exists_shape hvalid changingLinkRun_writes
  have hprintable : ∀ r ∈ changingLinkRun.catalog, r.Printable := fun r hr =>
    (forall_catalog (by decide) hshape (recorded_of_run changingLinkRun_writes)
      goodAnswers_changingLink r hr).1
  refine ⟨by decide, by decide, ?_⟩
  rw [neverOverflows_catalogFile_iff (by decide) hprintable (by decide) (by decide)]
  decide

theorem changing_lookup_sound_changingLink :
    TellsHeard strdupRoom (met changingLink) [ch 'r'] changingLinkRun.asked
        (catalogFile changingLinkRun.catalog) (steady (catalogFile changingLinkRun.catalog))
        [slash, ch 'l'] ∧
      TellsHeard strdupRoom (met changingLink) [ch 'r'] changingLinkRun.asked
        (catalogFile changingLinkRun.catalog) (steady (catalogFile changingLinkRun.catalog))
        [slash, ch 'a'] := by
  have hvalid : ValidNames changingLink := validNames_treeHost _ _ _
  exact ⟨changing_lookup_sound (by decide) hvalid changingLinkRun_writes goodAnswers_changingLink
      changingLinkRun_mountable strdupRoom (serves_steady _) (by unfold FusePath; decide),
    changing_lookup_sound (by decide) hvalid changingLinkRun_writes goodAnswers_changingLink
      changingLinkRun_mountable strdupRoom (serves_steady _) (by unfold FusePath; decide)⟩

end CatalogFS
