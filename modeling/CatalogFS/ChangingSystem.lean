import CatalogFS.Messages

namespace CatalogFS

open CLib

/-- What a run asks the system: for the attributes and the target of a path, or for the entries of a
directory. -/
inductive Question
  | print (path : Bytes)
  | scan (dir : Bytes)
  deriving DecidableEq

structure LiveListing extends Listing where
  asked : List Question
  deriving DecidableEq

section Run

/-- The answers to question `i`. `print_to_catalog` makes two system calls, and the system is another
one at each: `w (2 * i)` when `lstat` or `scandir` is called, and `w (2 * i + 1)` when `readlink` is. -/
def met (w : ℕ → Host) (i : ℕ) : Host :=
  { w (2 * i) with
    readlink := (w (2 * i + 1)).readlink
    staleLink := (w (2 * i + 1)).staleLink }

variable (w : ℕ → Host) (inputDir : Bytes)

def LiveListing.print (path : Bytes) (s : LiveListing) : Option LiveListing :=
  (printToCatalog (w s.asked.length) path inputDir).map fun r =>
    { s with catalog := s.catalog ++ [r], asked := s.asked ++ [.print path] }

def liveChild (currentDir : Bytes) (s : LiveListing) (ent : Dirent) : Option LiveListing := do
  let temp := currentDir ++ slash :: ent.dName
  let s ← s.print w inputDir temp
  if ent.dType = FileType.dir.dt then
    return { s with queue := insertQueue s.queue temp }
  else
    return s

/-- `scandir` asks for one directory, and then there is the message or the loop over its entries. -/
def liveScan (currentDir : Bytes) (s : LiveListing) : Option LiveListing :=
  let asked := { s with asked := s.asked ++ [.scan currentDir] }
  match scandir (w s.asked.length) currentDir with
  | none => if Reportable (scandirError ++ currentDir) then some asked else none
  | some namelist => namelist.foldlM (liveChild w inputDir currentDir) asked

def liveDir (currentDir : Bytes) (s : LiveListing) : Option LiveListing := do
  let s ← s.print w inputDir (currentDir ++ [slash])
  liveScan w inputDir currentDir s

def liveLoop : ℕ → LiveListing → Option LiveListing
  | 0, s =>
    match removeQueue s.queue with
    | none => some s
    | some _ => none
  | fuel + 1, s =>
    match removeQueue s.queue with
    | none => some s
    | some (currentDir, queue) => do
      let s ← liveDir w inputDir currentDir { s with queue }
      liveLoop fuel s

def catalogListingLive (fuel : ℕ) : Option LiveListing :=
  liveLoop (met w) inputDir fuel ⟨⟨insertQueue [] inputDir, []⟩, []⟩

end Run

section Still

variable {host : Host} {inputDir : Bytes}

theorem map_foldlM {σ τ α : Type} {f : σ → α → Option σ} {g : τ → α → Option τ} {p : σ → τ}
    (h : ∀ s a, (f s a).map p = g (p s) a) (l : List α) (s : σ) :
    (l.foldlM f s).map p = l.foldlM g (p s) := by
  induction l generalizing s with
  | nil => rfl
  | cons a l ih =>
    rw [List.foldlM_cons, List.foldlM_cons, ← h]
    cases f s a with
    | none => rfl
    | some s' => exact ih s'

theorem toListing_print (path : Bytes) (s : LiveListing) :
    (s.print (fun _ => host) inputDir path).map LiveListing.toListing =
      s.toListing.print host inputDir path := by
  rw [LiveListing.print, Listing.print, Option.map_map]
  rfl

theorem toListing_liveChild (currentDir : Bytes) (s : LiveListing) (ent : Dirent) :
    (liveChild (fun _ => host) inputDir currentDir s ent).map LiveListing.toListing =
      listChild host inputDir currentDir s.toListing ent := by
  simp only [liveChild, listChild, ← toListing_print]
  cases s.print (fun _ => host) inputDir (currentDir ++ slash :: ent.dName) with
  | none => rfl
  | some s' => by_cases h : ent.dType = FileType.dir.dt <;> simp [h]

theorem toListing_liveDir (currentDir : Bytes) (s : LiveListing) :
    (liveDir (fun _ => host) inputDir currentDir s).map LiveListing.toListing =
      listDirReporting host inputDir currentDir s.toListing := by
  simp only [liveDir, listDirReporting, ← toListing_print]
  cases s.print (fun _ => host) inputDir (currentDir ++ [slash]) with
  | none => rfl
  | some s' =>
    simp only [Option.bind_eq_bind, Option.bind_some, Option.map_some, liveScan]
    cases scandir host currentDir with
    | none => by_cases h : Reportable (scandirError ++ currentDir) <;> simp [h]
    | some namelist => exact map_foldlM (toListing_liveChild currentDir) namelist _

theorem catalog_liveLoop (fuel : ℕ) (s : LiveListing) :
    (liveLoop (fun _ => host) inputDir fuel s).map (fun s => s.catalog) =
      catalogListingReportingLoop host inputDir fuel s.toListing := by
  induction fuel generalizing s with
  | zero =>
    rw [liveLoop, catalogListingReportingLoop]
    cases removeQueue s.queue <;> rfl
  | succ fuel ih =>
    rw [liveLoop, catalogListingReportingLoop]
    cases removeQueue s.queue with
    | none => rfl
    | some removed =>
      obtain ⟨currentDir, queue⟩ := removed
      have hdir : (liveDir (fun _ => host) inputDir currentDir { s with queue }).map
          LiveListing.toListing = listDirReporting host inputDir currentDir ⟨queue, s.catalog⟩ :=
        toListing_liveDir currentDir { s with queue }
      simp only [Option.bind_eq_bind]
      rw [← hdir]
      cases liveDir (fun _ => host) inputDir currentDir { s with queue } with
      | none => rfl
      | some s' => exact ih s'

/-- On a system that stands still this is the run of `catalog_listing`. -/
theorem catalog_catalogListingLive (fuel : ℕ) :
    (catalogListingLive (fun _ => host) inputDir fuel).map (fun s => s.catalog) =
      catalogListingReporting host inputDir fuel :=
  catalog_liveLoop fuel _

end Still

def SameAnswer (host host' : Host) : Question → Prop
  | .print path => host.lstat path = host'.lstat path ∧ host.readlink path = host'.readlink path ∧
      host.staleStat path = host'.staleStat path ∧ host.staleLink path = host'.staleLink path
  | .scan dir => host.readdir dir = host'.readdir dir

/-- Two changing systems answer alike what has been asked of the one. -/
def AgreeOn (v w : ℕ → Host) (asked : List Question) : Prop :=
  ∀ i q, asked[i]? = some q → SameAnswer (v i) (w i) q

theorem AgreeOn.mono {v w : ℕ → Host} {asked asked' : List Question} (h : AgreeOn v w asked')
    (hpre : asked <+: asked') : AgreeOn v w asked := by
  obtain ⟨rest, rfl⟩ := hpre
  intro i q hq
  obtain ⟨hi, -⟩ := List.getElem?_eq_some_iff.mp hq
  exact h i q ((List.getElem?_append_left hi).trans hq)

/-- A part of the run depends only on the answers to what it asks. -/
def Local (f : (ℕ → Host) → LiveListing → Option LiveListing) : Prop :=
  ∀ w s s', f w s = some s' → s.asked <+: s'.asked ∧ ∀ v, AgreeOn v w s'.asked → f v s = some s'

theorem Local.bind {f g : (ℕ → Host) → LiveListing → Option LiveListing} (hf : Local f)
    (hg : Local g) : Local fun w s => (f w s).bind (g w) := by
  intro w s s'' h
  obtain ⟨s', hs', hs''⟩ := Option.bind_eq_some_iff.mp h
  obtain ⟨hpre, hsame⟩ := hf w s s' hs'
  obtain ⟨hpre', hsame'⟩ := hg w s' s'' hs''
  refine ⟨hpre.trans hpre', fun v hv => ?_⟩
  change (f v s).bind (g v) = some s''
  rw [hsame v (hv.mono hpre')]
  exact hsame' v hv

theorem local_foldlM {f : (ℕ → Host) → LiveListing → Dirent → Option LiveListing}
    (hf : ∀ ent, Local fun w s => f w s ent) (namelist : List Dirent) :
    Local fun w s => namelist.foldlM (f w) s := by
  induction namelist with
  | nil =>
    rintro w s s' h
    obtain rfl : s = s' := Option.some.inj h
    exact ⟨List.prefix_rfl, fun _ _ => rfl⟩
  | cons ent namelist ih => exact (hf ent).bind ih

section Answers

variable (inputDir : Bytes)

theorem printToCatalog_congr {host host' : Host} {path : Bytes}
    (h : SameAnswer host host' (.print path)) :
    printToCatalog host path inputDir = printToCatalog host' path inputDir := by
  obtain ⟨hlstat, hreadlink, hstat, hlink⟩ := h
  rw [printToCatalog, printToCatalog, hlstat, hreadlink, hstat, hlink]

theorem local_print (path : Bytes) : Local fun w s => s.print w inputDir path := by
  intro w s s' h
  obtain ⟨r, hr, rfl⟩ := Option.map_eq_some_iff.mp h
  refine ⟨List.prefix_append _ _, fun v hv => ?_⟩
  have hagree : SameAnswer (v s.asked.length) (w s.asked.length) (.print path) :=
    hv _ _ List.getElem?_concat_length
  simp only [LiveListing.print, printToCatalog_congr inputDir hagree, hr, Option.map_some]

theorem local_liveChild (currentDir : Bytes) (ent : Dirent) :
    Local fun w s => liveChild w inputDir currentDir s ent := by
  refine (local_print inputDir _).bind (g := fun _ s =>
    if ent.dType = FileType.dir.dt then
      some { s with queue := insertQueue s.queue (currentDir ++ slash :: ent.dName) }
    else some s) fun w s s' h => ?_
  have hasked : s'.asked = s.asked := by
    split_ifs at h <;> obtain rfl := Option.some.inj h <;> rfl
  exact ⟨by rw [hasked], fun _ _ => h⟩

theorem local_liveScan (currentDir : Bytes) : Local fun w s => liveScan w inputDir currentDir s := by
  intro w s s' h
  have hagree : ∀ v, AgreeOn v w (s.asked ++ [.scan currentDir]) →
      scandir (v s.asked.length) currentDir = scandir (w s.asked.length) currentDir := by
    intro v hv
    have hsame : (v s.asked.length).readdir currentDir = (w s.asked.length).readdir currentDir :=
      hv _ (.scan currentDir) List.getElem?_concat_length
    rw [scandir, scandir, hsame]
  simp only [liveScan] at h
  cases hscan : scandir (w s.asked.length) currentDir with
  | none =>
    simp only [hscan] at h
    split_ifs at h with hreport
    obtain rfl := Option.some.inj h
    refine ⟨List.prefix_append _ _, fun v hv => ?_⟩
    simp only [liveScan, hagree v hv, hscan, if_pos hreport]
  | some namelist =>
    rw [hscan] at h
    obtain ⟨hpre, hsame⟩ := local_foldlM (local_liveChild inputDir currentDir) namelist w _ s' h
    refine ⟨(List.prefix_append _ _).trans hpre, fun v hv => ?_⟩
    simp only [liveScan, hagree v (hv.mono hpre), hscan]
    exact hsame v hv

theorem local_liveDir (currentDir : Bytes) : Local fun w s => liveDir w inputDir currentDir s :=
  (local_print inputDir _).bind (local_liveScan inputDir currentDir)

theorem local_liveLoop (fuel : ℕ) : Local fun w s => liveLoop w inputDir fuel s := by
  induction fuel with
  | zero =>
    intro w s s' h
    simp only [liveLoop] at h ⊢
    cases hq : removeQueue s.queue with
    | none =>
      rw [hq] at h
      obtain rfl := Option.some.inj h
      exact ⟨List.prefix_rfl, fun _ _ => rfl⟩
    | some removed =>
      rw [hq] at h
      cases h
  | succ fuel ih =>
    intro w s s' h
    simp only [liveLoop] at h ⊢
    cases hq : removeQueue s.queue with
    | none =>
      rw [hq] at h
      obtain rfl := Option.some.inj h
      exact ⟨List.prefix_rfl, fun _ _ => rfl⟩
    | some removed =>
      rw [hq] at h
      exact (local_liveDir inputDir removed.1).bind ih w { s with queue := removed.2 } s' h

end Answers

/-- The names that the system gives for the entries of a directory are distinct names of files. -/
def ValidNames (w : ℕ → Host) : Prop :=
  ∀ i dir ents, (w i).readdir dir = some ents → (ents.map Dirent.dName).Nodup ∧
    ∀ ent ∈ ents, filter ent = true → ∃ c : FileName, c.val = ent.dName

def questions (inputDir : Bytes) (cs names : List FileName) : List Question :=
  .print (inputDir ++ dirPath cs) :: .scan (inputDir ++ pathString cs) ::
    names.map fun c => .print (inputDir ++ (dirPath cs ++ c.val))

def IsEntry (cs ds : List FileName) : Prop := ∃ c, ds = cs ++ [c]

theorem scandir_names {host : Host} {dir : Bytes} {namelist : List Dirent}
    (hvalid : ∀ ents, host.readdir dir = some ents → (ents.map Dirent.dName).Nodup ∧
      ∀ ent ∈ ents, filter ent = true → ∃ c : FileName, c.val = ent.dName)
    (h : scandir host dir = some namelist) : ∃ names : List FileName,
      names.Pairwise (fun c d => c.val < d.val) ∧
        names.map FileName.val = namelist.map Dirent.dName := by
  obtain ⟨ents, hents, rfl⟩ := Option.map_eq_some_iff.mp h
  obtain ⟨hnodup, hname⟩ := hvalid ents hents
  have hperm := List.perm_insertionSort (fun a b => alphasort a b ≠ .gt) (ents.filter filter)
  have hrange : ((ents.filter filter).insertionSort fun a b => alphasort a b ≠ .gt).map Dirent.dName ∈
      Set.range (List.map FileName.val) := by
    rw [Set.range_list_map]
    intro s hs
    obtain ⟨ent, hent, rfl⟩ := List.mem_map.mp hs
    obtain ⟨hmem, hfilter⟩ := List.mem_filter.mp (hperm.mem_iff.mp hent)
    exact hname ent hmem hfilter
  obtain ⟨names, hnames⟩ := hrange
  refine ⟨names, ?_, hnames⟩
  have hne : (names.map FileName.val).Nodup := by
    rw [hnames, (hperm.map Dirent.dName).nodup_iff]
    exact hnodup.sublist (List.filter_sublist.map _)
  have hle : (names.map FileName.val).Pairwise (· ≤ ·) := by
    have : Std.Total fun a b : Dirent => alphasort a b ≠ .gt :=
      ⟨fun a b => by simp only [alphasort, strcmp_ne_gt]; exact le_total _ _⟩
    have : IsTrans Dirent fun a b => alphasort a b ≠ .gt :=
      ⟨fun a b c => by simp only [alphasort, strcmp_ne_gt]; exact le_trans⟩
    have hsorted := List.pairwise_insertionSort (fun a b : Dirent => alphasort a b ≠ .gt)
      (ents.filter filter)
    rw [hnames, List.pairwise_map]
    exact hsorted.imp fun h => strcmp_ne_gt.mp h
  exact List.pairwise_map.mp ((hle.and hne).imp fun h => lt_of_le_of_ne h.1 h.2)

section Asked

variable {w : ℕ → Host} {inputDir : Bytes} {s s' : LiveListing}

theorem foldlM_liveChild {currentDir : Bytes} {namelist : List Dirent}
    (h : namelist.foldlM (liveChild w inputDir currentDir) s = some s') :
    s'.asked = s.asked ++ namelist.map (fun ent => .print (currentDir ++ slash :: ent.dName)) ∧
      s'.queue = s.queue ++ (namelist.filter fun ent => ent.dType = FileType.dir.dt).map
        fun ent => currentDir ++ slash :: ent.dName := by
  induction namelist generalizing s with
  | nil =>
    obtain rfl : s = s' := Option.some.inj h
    simp
  | cons ent namelist ih =>
    rw [List.foldlM_cons] at h
    obtain ⟨s₁, hs₁, h⟩ := Option.bind_eq_some_iff.mp h
    obtain ⟨hasked, hqueue⟩ := ih h
    obtain ⟨s₀, hs₀, hs₁⟩ := Option.bind_eq_some_iff.mp hs₁
    obtain ⟨r, -, rfl⟩ := Option.map_eq_some_iff.mp hs₀
    rw [hasked, hqueue]
    by_cases hdir : ent.dType = FileType.dir.dt
    · rw [if_pos hdir] at hs₁
      obtain rfl := Option.some.inj hs₁
      simp [hdir, insertQueue]
    · rw [if_neg hdir] at hs₁
      obtain rfl := Option.some.inj hs₁
      simp [hdir]

theorem liveDir_asks (hvalid : ValidNames w) {cs : List FileName}
    (h : liveDir w inputDir (inputDir ++ pathString cs) s = some s') :
    ∃ names : List FileName, names.Pairwise (fun c d => c.val < d.val) ∧
      names.map FileName.val =
        ((scandir (w (s.asked.length + 1)) (inputDir ++ pathString cs)).getD []).map Dirent.dName ∧
      s'.asked = s.asked ++ questions inputDir cs names ∧
      ∃ dirs : List FileName, dirs.Sublist names ∧
        s'.queue = s.queue ++ (dirs.map fun c => cs ++ [c]).map fun ds => inputDir ++ pathString ds := by
  obtain ⟨s₀, hs₀, h⟩ := Option.bind_eq_some_iff.mp h
  obtain ⟨r, -, rfl⟩ := Option.map_eq_some_iff.mp hs₀
  have hown : inputDir ++ pathString cs ++ [slash] = inputDir ++ dirPath cs := by simp [dirPath]
  have hentry : ∀ n : Bytes, inputDir ++ pathString cs ++ slash :: n = inputDir ++ (dirPath cs ++ n) :=
    fun n => by simp [dirPath]
  simp only [liveScan, List.length_append, List.length_singleton] at h
  cases hscan : scandir (w (s.asked.length + 1)) (inputDir ++ pathString cs) with
  | none =>
    simp only [hscan] at h
    split_ifs at h
    obtain rfl := Option.some.inj h
    exact ⟨[], List.Pairwise.nil, rfl, by simp [questions, hown], [], List.nil_sublist _, by simp⟩
  | some namelist =>
    rw [hscan] at h
    obtain ⟨hasked, hqueue⟩ := foldlM_liveChild h
    obtain ⟨names, hsorted, hmap⟩ := scandir_names (hvalid _ _) hscan
    have hsub : ((namelist.filter fun ent => ent.dType = FileType.dir.dt).map Dirent.dName).Sublist
        (names.map FileName.val) := by
      rw [hmap]
      exact List.filter_sublist.map _
    obtain ⟨dirs, hdirs, hdirsmap⟩ := List.sublist_map_iff.mp hsub
    refine ⟨names, hsorted, hmap, ?_, dirs, hdirs, ?_⟩
    · have hprint := congrArg (List.map fun n => Question.print (inputDir ++ (dirPath cs ++ n))) hmap
      simp only [List.map_map, Function.comp_def] at hprint
      rw [hasked, questions, hprint]
      simp [hown, hentry]
    · have hqueued := congrArg (List.map fun n => inputDir ++ (dirPath cs ++ n)) hdirsmap
      rw [hqueue]
      simp only [List.map_map, Function.comp_def] at hqueued
      simp [hentry, hqueued, pathString_concat, Function.comp_def]

structure Shape (w : ℕ → Host) (inputDir : Bytes) (visited : List (List FileName × List FileName))
    (queue : List (List FileName)) (s : LiveListing) : Prop where
  growing : Worklist.Growing IsEntry [] (visited.map Prod.fst) queue
  queue_eq : s.queue = queue.map fun cs => inputDir ++ pathString cs
  asked_eq : s.asked = visited.flatMap fun v => questions inputDir v.1 v.2
  found : ∀ cs ∈ visited.map Prod.fst ++ queue, cs = [] ∨ ∃ v ∈ visited, ∃ c ∈ v.2, cs = v.1 ++ [c]
  names : ∀ v ∈ visited, v.2.Pairwise (fun c d => c.val < d.val) ∧
    ∃ i, s.asked[i]? = some (.scan (inputDir ++ pathString v.1)) ∧
      v.2.map FileName.val =
        ((scandir (w i) (inputDir ++ pathString v.1)).getD []).map Dirent.dName

theorem Shape.step (hvalid : ValidNames w) {visited : List (List FileName × List FileName)}
    {cs : List FileName} {queue : List (List FileName)} (h : Shape w inputDir visited (cs :: queue) s)
    (hdir : liveDir w inputDir (inputDir ++ pathString cs)
      { s with queue := queue.map fun ds => inputDir ++ pathString ds } = some s') :
    ∃ names queue', Shape w inputDir (visited ++ [(cs, names)]) queue' s' := by
  obtain ⟨names, hsorted, hmap, hasked, dirs, hsub, hqueue⟩ := liveDir_asks hvalid hdir
  refine ⟨names, queue ++ dirs.map fun c => cs ++ [c], ?_, ?_, ?_, ?_, ?_⟩
  · rw [List.map_append]
    refine h.growing.step _ ?_ fun ds hds => ?_
    · have hnodup : names.Nodup := hsorted.imp fun hlt heq => absurd (heq ▸ hlt) (lt_irrefl _)
      exact (hnodup.sublist hsub).map fun c d hcd =>
        List.singleton_inj.mp (List.append_cancel_left hcd)
    · obtain ⟨c, -, rfl⟩ := List.mem_map.mp hds
      exact ⟨c, rfl⟩
  · rw [hqueue, List.map_append]
  · rw [hasked, h.asked_eq]
    simp
  · intro ds hds
    have hcases : ds ∈ visited.map Prod.fst ++ cs :: queue ∨ ds ∈ dirs.map fun c => cs ++ [c] := by
      simp only [List.map_append, List.map_cons, List.map_nil, List.mem_append, List.mem_cons,
        List.not_mem_nil, or_false] at hds ⊢
      tauto
    rcases hcases with hds | hds
    · rcases h.found ds hds with rfl | ⟨v, hv, hc⟩
      · exact .inl rfl
      · exact .inr ⟨v, List.mem_append_left _ hv, hc⟩
    · obtain ⟨c, hc, rfl⟩ := List.mem_map.mp hds
      exact .inr ⟨(cs, names), by simp, c, hsub.subset hc, rfl⟩
  · intro v hv
    rcases List.mem_append.mp hv with hv | hv
    · obtain ⟨hpair, i, hi, hnames⟩ := h.names v hv
      obtain ⟨hlt, -⟩ := List.getElem?_eq_some_iff.mp hi
      refine ⟨hpair, i, ?_, hnames⟩
      rw [hasked, List.getElem?_append_left hlt]
      exact hi
    · obtain rfl := List.mem_singleton.mp hv
      refine ⟨hsorted, s.asked.length + 1, ?_, hmap⟩
      rw [hasked, List.getElem?_append_right (Nat.le_succ _)]
      simp [questions]

theorem Shape.loop (hvalid : ValidNames w) {fuel : ℕ}
    {visited : List (List FileName × List FileName)} {queue : List (List FileName)}
    (h : Shape w inputDir visited queue s) (hloop : liveLoop w inputDir fuel s = some s') :
    ∃ visited', Shape w inputDir visited' [] s' := by
  induction fuel generalizing s visited queue with
  | zero =>
    rw [liveLoop, h.queue_eq] at hloop
    cases queue with
    | nil =>
      obtain rfl := Option.some.inj hloop
      exact ⟨visited, h⟩
    | cons cs queue => cases hloop
  | succ fuel ih =>
    rw [liveLoop, h.queue_eq] at hloop
    cases queue with
    | nil =>
      obtain rfl := Option.some.inj hloop
      exact ⟨visited, h⟩
    | cons cs queue =>
      obtain ⟨s₁, hs₁, hloop⟩ := Option.bind_eq_some_iff.mp hloop
      obtain ⟨names, queue', hshape⟩ := h.step hvalid hs₁
      exact ih hshape hloop

theorem ValidNames.met (hvalid : ValidNames w) : ValidNames (met w) := fun i dir ents h =>
  hvalid (2 * i) dir ents h

theorem exists_shape (hvalid : ValidNames w) {fuel : ℕ}
    (h : catalogListingLive w inputDir fuel = some s) :
    ∃ visited, Shape (met w) inputDir visited [] s := by
  have hstart : Shape (met w) inputDir [] [[]] ⟨⟨insertQueue [] inputDir, []⟩, []⟩ :=
    ⟨.start, by simp [insertQueue], rfl, by simp, nofun⟩
  exact hstart.loop hvalid.met h

end Asked

section Once

variable {w : ℕ → Host} {inputDir : Bytes} {s : LiveListing}
  {visited : List (List FileName × List FileName)}

theorem questions_inj {cs ds names names' : List FileName} {q : Question}
    (h : q ∈ questions inputDir cs names) (h' : q ∈ questions inputDir ds names') : cs = ds := by
  simp only [questions, List.mem_cons, List.mem_map] at h h'
  have hpath : ∀ m n : Bytes, slash ∉ m → slash ∉ n →
      inputDir ++ (dirPath cs ++ m) = inputDir ++ (dirPath ds ++ n) → cs = ds := fun m n hm hn heq =>
    (dirPath_append_inj hm hn (List.append_cancel_left heq)).1
  have hnil : slash ∉ ([] : Bytes) := List.not_mem_nil
  rcases h with rfl | rfl | ⟨c, -, rfl⟩
  · rcases h' with h' | h' | ⟨d, -, h'⟩
    · exact hpath [] [] hnil hnil (by simpa using h')
    · cases h'
    · exact hpath [] d.val hnil d.slash_notMem (by simpa using h'.symm)
  · rcases h' with h' | h' | ⟨d, -, h'⟩
    · cases h'
    · have hscan := congrArg (· ++ [slash]) (Question.scan.inj h')
      exact hpath [] [] hnil hnil (by simpa [dirPath] using hscan)
    · cases h'
  · rcases h' with h' | h' | ⟨d, -, h'⟩
    · exact hpath c.val [] c.slash_notMem hnil (by simpa using h')
    · cases h'
    · exact hpath c.val d.val c.slash_notMem d.slash_notMem (Question.print.inj h'.symm)

theorem nodup_questions {cs names : List FileName} (h : names.Pairwise fun c d => c.val < d.val) :
    (questions inputDir cs names).Nodup := by
  have hnodup : names.Nodup := h.imp fun hlt heq => absurd (heq ▸ hlt) (lt_irrefl _)
  refine List.nodup_cons.mpr ⟨?_, List.nodup_cons.mpr ⟨by simp, hnodup.map fun c d hcd => ?_⟩⟩
  · simp only [List.mem_cons, reduceCtorEq, List.mem_map, Question.print.injEq, false_or, not_exists,
      not_and]
    intro c _ hc
    exact c.ne_nil (List.append_right_eq_self.mp (List.append_cancel_left hc))
  · exact FileName.ext (List.append_cancel_left (List.append_cancel_left (Question.print.inj hcd)))

theorem Shape.nodup_visited (h : Shape w inputDir visited [] s) : (visited.map Prod.fst).Nodup := by
  have hnodup := (h.growing.nodup (fun cs ds x ⟨c, hc⟩ ⟨d, hd⟩ =>
    List.append_inj_left' (hc.symm.trans hd) rfl) fun cs ⟨c, hc⟩ => by simp at hc).1
  rwa [List.append_nil] at hnodup

theorem Shape.nodup_asked (h : Shape w inputDir visited [] s) : s.asked.Nodup := by
  rw [h.asked_eq, List.nodup_flatMap]
  refine ⟨fun v hv => nodup_questions (h.names v hv).1, ?_⟩
  refine (List.pairwise_map.mp h.nodup_visited).imp fun hne q hq hq' => ?_
  exact hne (questions_inj hq hq')

/-- The system that stands still and answers each question as the changing one did when it was asked. -/
def frozen (w : ℕ → Host) (asked : List Question) : Host where
  lstat path := (w (asked.idxOf (.print path))).lstat path
  readlink path := (w (asked.idxOf (.print path))).readlink path
  readdir dir := (w (asked.idxOf (.scan dir))).readdir dir
  staleStat path := (w (asked.idxOf (.print path))).staleStat path
  staleLink path := (w (asked.idxOf (.print path))).staleLink path

theorem agreeOn_frozen {asked : List Question} (h : asked.Nodup) :
    AgreeOn (fun _ => frozen w asked) w asked := by
  intro i q hq
  obtain ⟨hi, rfl⟩ := List.getElem?_eq_some_iff.mp hq
  have hidx : asked.idxOf asked[i] = i := h.idxOf_getElem i hi
  generalize asked[i] = q at hidx
  cases q with
  | print path => simp only [SameAnswer, frozen, hidx, and_self]
  | scan dir => simp only [SameAnswer, frozen, hidx]

theorem met_const (host : Host) : met (fun _ => host) = fun _ => host := rfl

theorem catalogListingLive_frozen (hvalid : ValidNames w) {fuel : ℕ}
    (h : catalogListingLive w inputDir fuel = some s) :
    catalogListingLive (fun _ => frozen (met w) s.asked) inputDir fuel = some s := by
  obtain ⟨visited, hshape⟩ := exists_shape hvalid h
  rw [catalogListingLive, met_const]
  exact (local_liveLoop inputDir fuel (met w) _ s h).2 _ (agreeOn_frozen hshape.nodup_asked)

/-- Whatever happens to the system between two calls of `lstat`, `readlink` and `scandir`, a run that
ends has asked for no path twice and has written the listing of the system that stands still and
answers as the run was answered, as long as each `scandir` gives distinct names of files. -/
theorem changing_listing_eq_frozen (hvalid : ValidNames w) {fuel : ℕ}
    (h : catalogListingLive w inputDir fuel = some s) :
    s.asked.Nodup ∧
      catalogListingReporting (frozen (met w) s.asked) inputDir fuel = some s.catalog := by
  obtain ⟨visited, hshape⟩ := exists_shape hvalid h
  refine ⟨hshape.nodup_asked, ?_⟩
  rw [← catalog_catalogListingLive, catalogListingLive_frozen hvalid h, Option.map_some]

end Once

section Trees

theorem Node.get_of_find {n m : Node} {comps : List Bytes} {cs : List FileName}
    (h : n.find comps = some (cs, m)) : n.get cs = some m := by
  induction comps generalizing n cs with
  | nil =>
    cases n <;>
    · simp only [Node.find, Option.some.injEq, Prod.mk.injEq] at h
      obtain ⟨rfl, rfl⟩ := h
      rfl
  | cons c comps ih =>
    cases n with
    | leaf t a => cases h
    | link a t => cases h
    | dir a ch =>
      obtain ⟨e, he, h⟩ := Option.bind_eq_some_iff.mp h
      obtain ⟨⟨ds, m'⟩, hds, heq⟩ := Option.map_eq_some_iff.mp h
      obtain ⟨rfl, rfl⟩ := Prod.mk.inj heq
      -- the first entry with the name is the one that is looked up
      have hlookup : ch.lookup e.1 = some e.2 := by
        obtain ⟨hc, l₁, l₂, rfl, hbefore⟩ := List.find?_eq_some_iff_append.mp he
        refine List.lookup_eq_some_iff.mpr ⟨l₁, l₂, rfl, fun p hp => ?_⟩
        have hne := hbefore p hp
        simp only [decide_eq_true_eq] at hc
        simp only [Bool.not_eq_true', decide_eq_false_iff_not] at hne
        simp only [bne_iff_ne, ne_eq]
        intro hep
        exact hne (hep ▸ hc)
      rw [Node.get_dir_cons, hlookup, Option.bind_some]
      exact ih hds

theorem nodup_dotEntries {ch : List (FileName × Node)} (h : (ch.map Prod.fst).Nodup) :
    ((dotEntries ++ ch.map direntOf).map Dirent.dName).Nodup := by
  have hnames : (ch.map direntOf).map Dirent.dName = (ch.map Prod.fst).map FileName.val := by
    simp [Function.comp_def, direntOf]
  rw [List.map_append, hnames]
  refine List.nodup_append.mpr ⟨by decide, h.map fun _ _ => FileName.ext, ?_⟩
  rintro s hs _ hc rfl
  obtain ⟨c, -, rfl⟩ := List.mem_map.mp hc
  rcases List.mem_pair.mp hs with hdot | hdot
  · exact c.ne_dot hdot
  · exact c.ne_dotdot hdot

/-- A system that shows a tree at each moment gives the names of files. -/
theorem validNames_treeHost (inputDir : Bytes) (T : ℕ → Tree) (fails : List FileName → Bool) :
    ValidNames fun i => treeHost inputDir (T i) fails := by
  intro i dir ents h
  simp only [treeHost] at h
  split at h
  · rename_i cs a ch hfind
    split_ifs at hfind h
    obtain rfl := Option.some.inj h
    have hget : (T i).get cs = some (.dir a ch) := Node.get_of_find hfind
    refine ⟨nodup_dotEntries ((T i).distinct cs a ch hget), fun ent hent hfilter => ?_⟩
    rcases List.mem_append.mp hent with hent | hent
    · rcases List.mem_pair.mp hent with rfl | rfl <;> cases hfilter
    · obtain ⟨e, -, rfl⟩ := List.mem_map.mp hent
      exact ⟨e.1, rfl⟩
  · cases h

end Trees

def targetB : Target := ⟨[ch 'b'], by decide⟩

def laterTree : Tree where
  attr := smallAttr
  children :=
    [(nameA, .dir smallAttr [(nameB, .leaf .reg smallAttr), (nameL, .link smallAttr targetA)]),
      (nameL, .link smallAttr targetB)]
  distinct := by
    apply Node.distinct_dir (by decide)
    simp only [List.forall_mem_cons, List.not_mem_nil, false_implies, implies_true, and_true]
    refine ⟨Node.distinct_dir (by decide) ?_, Node.distinct_of_not_isDir rfl⟩
    simp only [List.forall_mem_cons, List.not_mem_nil, false_implies, implies_true, and_true]
    exact ⟨Node.distinct_of_not_isDir rfl, Node.distinct_of_not_isDir rfl⟩

/-- The system changes between the `lstat` and the `readlink` of the link. -/
def changingLink (i : ℕ) : Host :=
  treeHost [ch 'r'] (if i < 7 then smallTree else laterTree) noFailure

def changingLinkRun : LiveListing :=
  ⟨⟨[], [recordOf .dir smallAttr [slash] [], recordOf .dir smallAttr [slash, ch 'a'] [],
      recordOf .lnk smallAttr [slash, ch 'l'] [ch 'b'],
      recordOf .dir smallAttr [slash, ch 'a', slash] [],
      recordOf .reg smallAttr [slash, ch 'a', slash, ch 'b'] [],
      recordOf .lnk smallAttr [slash, ch 'a', slash, ch 'l'] [ch 'a']]⟩,
    questions [ch 'r'] [] [nameA, nameL] ++ questions [ch 'r'] [nameA] [nameB, nameL]⟩

theorem changing_listing_changingLink : changingLinkRun.asked.Nodup ∧
    catalogListingReporting (frozen (met changingLink) changingLinkRun.asked) [ch 'r'] 2 =
      some changingLinkRun.catalog :=
  changing_listing_eq_frozen (validNames_treeHost _ _ _) (by decide)

end CatalogFS
