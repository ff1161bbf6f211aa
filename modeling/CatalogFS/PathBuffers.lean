import CatalogFS.Completeness

namespace CatalogFS

open CLib

/-- What keeps a run of `catalog_listing` from its end. -/
inductive Stop
  /-- A string is written past the end of a `char[MAXPATHLEN]`. -/
  | overflow
  /-- The process exits, or there are no iterations left. -/
  | exit
  deriving DecidableEq

def strcpy (src : Bytes) : Except Stop Bytes :=
  if src.length + 1 ≤ maxPathLen then .ok src else .error .overflow

def strcat (dest src : Bytes) : Except Stop Bytes := strcpy (dest ++ src)

def orExit {α : Type} : Option α → Except Stop α
  | none => .error .exit
  | some a => .ok a

def insertQueueBounded (queue : List Bytes) (dirname : Bytes) : Except Stop (List Bytes) := do
  let dirname ← strcpy dirname
  return insertQueue queue dirname

def removeQueueBounded (queue : List Bytes) : Except Stop (Option (Bytes × List Bytes)) :=
  match removeQueue queue with
  | none => return none
  | some (dirname, queue) => do
    let dirname ← strcpy dirname
    return some (dirname, queue)

/-- The body of the loop over the entries of a directory. The path is built a second time for the
queue. -/
def listChildBounded (host : Host) (inputDir currentDir : Bytes) (s : Listing) (ent : Dirent) :
    Except Stop Listing := do
  let temp ← strcpy currentDir
  let temp ← strcat temp [slash]
  let temp ← strcat temp ent.dName
  let s ← orExit (s.print host inputDir temp)
  if ent.dType = FileType.dir.dt then
    let temp ← strcpy []
    let temp ← strcat temp currentDir
    let temp ← strcat temp [slash]
    let temp ← strcat temp ent.dName
    let queue ← insertQueueBounded s.queue temp
    return { s with queue }
  else
    return s

/-- One iteration of the loop over the queue, for a directory with a name that `error` can print, as in
`listDirReporting`, if `scandir` fails. -/
def listDirBounded (host : Host) (inputDir currentDir : Bytes) (s : Listing) : Except Stop Listing := do
  let temp ← strcpy currentDir
  let temp ← strcat temp [slash]
  let s ← orExit (s.print host inputDir temp)
  match scandir host currentDir with
  | none => return s
  | some namelist => namelist.foldlM (listChildBounded host inputDir currentDir) s

def catalogListingLoopBounded (host : Host) (inputDir : Bytes) : ℕ → Listing → Except Stop (List Record)
  | 0, s =>
    match removeQueue s.queue with
    | none => return s.catalog
    | some _ => .error .exit
  | fuel + 1, s => do
    match ← removeQueueBounded s.queue with
    | none => return s.catalog
    | some (removed, queue) =>
      let currentDir ← strcpy removed
      let s ← listDirBounded host inputDir currentDir { s with queue }
      catalogListingLoopBounded host inputDir fuel s

def catalogListingBounded (host : Host) (inputDir : Bytes) (fuel : ℕ) : Except Stop (List Record) := do
  let currentDir ← strcpy inputDir
  let queue ← insertQueueBounded [] currentDir
  catalogListingLoopBounded host inputDir fuel ⟨queue, []⟩

/-- However long it goes on, the run overflows no buffer. -/
def NoPathOverflow (host : Host) (inputDir : Bytes) : Prop :=
  ∀ fuel, catalogListingBounded host inputDir fuel ≠ .error .overflow

namespace Host

variable (host : Host)

def subdirs (dir : Bytes) : List Bytes :=
  (((scandir host dir).getD []).filter fun ent => ent.dType = FileType.dir.dt).map
    fun ent => dir ++ slash :: ent.dName

inductive Queued (inputDir : Bytes) : Bytes → Prop
  | root : Queued inputDir inputDir
  | step {dir d : Bytes} : Queued inputDir dir → d ∈ host.subdirs dir → Queued inputDir d

/-- There is room for the paths that are built from a directory: its own with a slash behind it, and
those of its entries. -/
def DirFits (dir : Bytes) : Prop :=
  dir.length + 1 < maxPathLen ∧
    ∀ ent ∈ (scandir host dir).getD [], (dir ++ slash :: ent.dName).length < maxPathLen

end Host

section Strings

variable {s : Bytes}

theorem strcpy_of_lt (h : s.length < maxPathLen) : strcpy s = .ok s := if_pos h

theorem strcpy_of_le (h : maxPathLen ≤ s.length) : strcpy s = .error .overflow := if_neg (by omega)

/-- A string that fits when a part is appended has fitted before. -/
theorem strcpy_bind_strcat {α : Type} (s t : Bytes) (k : Bytes → Except Stop α) :
    (do
      let temp ← strcpy s
      let temp ← strcat temp t
      k temp) = strcpy (s ++ t) >>= k := by
  by_cases h : (s ++ t).length < maxPathLen
  · have hs : s.length < maxPathLen := by
      rw [List.length_append] at h
      omega
    rw [strcpy_of_lt hs]
    rfl
  · rw [strcpy_of_le (not_lt.mp h)]
    by_cases hs : s.length < maxPathLen
    · rw [strcpy_of_lt hs]
      change strcpy (s ++ t) >>= k = _
      rw [strcpy_of_le (not_lt.mp h)]
    · rw [strcpy_of_le (not_lt.mp hs)]
      rfl

end Strings

/-- The run with buffers overflows one or goes as the run without them. -/
def SameUnlessOverflow {α : Type} (x : Except Stop α) (a : Option α) : Prop :=
  x = .error .overflow ∨ x = orExit a

section Same

variable {α β : Type} {host : Host} {inputDir : Bytes}

theorem same_pure (a : α) : SameUnlessOverflow (pure a) (some a) := .inr rfl

theorem same_strcpy {s : Bytes} {f : Bytes → Except Stop α} {a : Option α}
    (h : SameUnlessOverflow (f s) a) : SameUnlessOverflow (strcpy s >>= f) a := by
  rcases lt_or_ge s.length maxPathLen with hlt | hge
  · rw [strcpy_of_lt hlt]
    exact h
  · rw [strcpy_of_le hge]
    exact .inl rfl

theorem SameUnlessOverflow.bind {x : Except Stop α} {a : Option α} {f : α → Except Stop β}
    {k : α → Option β} (hx : SameUnlessOverflow x a) (h : ∀ v, SameUnlessOverflow (f v) (k v)) :
    SameUnlessOverflow (x >>= f) (a >>= k) := by
  rcases hx with rfl | rfl
  · exact .inl rfl
  · cases a with
    | none => exact .inr rfl
    | some v => exact h v

theorem same_listChild (dir : Bytes) (s : Listing) (ent : Dirent) :
    SameUnlessOverflow (listChildBounded host inputDir dir s ent)
      (listChild host inputDir dir s ent) := by
  simp only [listChildBounded, listChild, insertQueueBounded]
  rw [strcpy_bind_strcat, strcpy_bind_strcat, ← List.append_cons]
  apply same_strcpy
  apply SameUnlessOverflow.bind (.inr rfl)
  intro s
  split_ifs
  · rw [strcpy_bind_strcat, strcpy_bind_strcat, strcpy_bind_strcat, List.nil_append,
      ← List.append_cons]
    apply same_strcpy
    rw [bind_assoc]
    apply same_strcpy
    exact same_pure _
  · exact same_pure _

theorem same_foldlM_listChild (dir : Bytes) (ents : List Dirent) (s : Listing) :
    SameUnlessOverflow (ents.foldlM (listChildBounded host inputDir dir) s)
      (ents.foldlM (listChild host inputDir dir) s) := by
  induction ents generalizing s with
  | nil => exact same_pure _
  | cons ent ents ih =>
    rw [List.foldlM_cons, List.foldlM_cons]
    exact (same_listChild dir s ent).bind ih

theorem same_listDir (dir : Bytes) (s : Listing) :
    SameUnlessOverflow (listDirBounded host inputDir dir s) (listDir host inputDir dir s) := by
  simp only [listDirBounded, listDir]
  rw [strcpy_bind_strcat]
  apply same_strcpy
  apply SameUnlessOverflow.bind (.inr rfl)
  intro s
  cases scandir host dir with
  | none => exact same_pure _
  | some namelist => exact same_foldlM_listChild dir namelist s

theorem same_catalogListingLoop (fuel : ℕ) (s : Listing) :
    SameUnlessOverflow (catalogListingLoopBounded host inputDir fuel s)
      (catalogListingLoop host inputDir fuel s) := by
  induction fuel generalizing s with
  | zero =>
    obtain ⟨queue, c⟩ := s
    cases queue <;> exact .inr rfl
  | succ fuel ih =>
    obtain ⟨queue, c⟩ := s
    cases queue with
    | nil => exact same_pure _
    | cons dir q =>
      rw [catalogListingLoopBounded, removeQueueBounded, removeQueue]
      dsimp only
      rw [bind_assoc]
      apply same_strcpy
      apply same_strcpy
      exact (same_listDir dir _).bind ih

/-- A run that overflows no buffer is that of `catalogListing`. -/
theorem same_catalogListing (fuel : ℕ) :
    SameUnlessOverflow (catalogListingBounded host inputDir fuel)
      (catalogListing host inputDir fuel) := by
  simp only [catalogListingBounded, insertQueueBounded]
  apply same_strcpy
  rw [bind_assoc]
  apply same_strcpy
  exact same_catalogListingLoop fuel _

end Same

section Directory

variable {host : Host} {inputDir : Bytes}

theorem exists_print (host : Host) (hne : inputDir ≠ []) (path : Bytes) (s : Listing) :
    ∃ s', orExit (s.print host inputDir path) = .ok s' ∧ s'.queue = s.queue := by
  have hlen : inputDir.length ≠ 0 := fun h => hne (List.length_eq_zero_iff.mp h)
  simp [Listing.print, printToCatalog, printEntryToCatalog, hlen, orExit]

theorem listChildBounded_of_fits (host : Host) (hne : inputDir ≠ []) {dir : Bytes} {ent : Dirent}
    (h : (dir ++ slash :: ent.dName).length < maxPathLen) (s : Listing) :
    ∃ s', listChildBounded host inputDir dir s ent = .ok s' ∧
      s'.queue = s.queue ++
        if ent.dType = FileType.dir.dt then [dir ++ slash :: ent.dName] else [] := by
  obtain ⟨s', hprint, hqueue⟩ := exists_print host hne (dir ++ slash :: ent.dName) s
  simp only [listChildBounded, insertQueueBounded]
  rw [strcpy_bind_strcat, strcpy_bind_strcat, ← List.append_cons, strcpy_of_lt h]
  change ∃ s'', (orExit (s.print host inputDir (dir ++ slash :: ent.dName)) >>= _) = _ ∧ _
  rw [hprint]
  change ∃ s'', (if ent.dType = FileType.dir.dt then _ else _) = _ ∧ _
  split_ifs
  · rw [strcpy_bind_strcat, strcpy_bind_strcat, strcpy_bind_strcat, List.nil_append,
      ← List.append_cons, strcpy_of_lt h]
    change ∃ s'', ((strcpy (dir ++ slash :: ent.dName) >>= _) >>= _) = _ ∧ _
    rw [strcpy_of_lt h]
    exact ⟨_, rfl, by rw [insertQueue, hqueue]⟩
  · exact ⟨s', rfl, by rw [hqueue, List.append_nil]⟩

theorem listChildBounded_of_not_fits {dir : Bytes} {ent : Dirent}
    (h : maxPathLen ≤ (dir ++ slash :: ent.dName).length) (s : Listing) :
    listChildBounded host inputDir dir s ent = .error .overflow := by
  simp only [listChildBounded]
  rw [strcpy_bind_strcat, strcpy_bind_strcat, ← List.append_cons, strcpy_of_le h]
  rfl

theorem foldlM_listChildBounded_of_fits (hne : inputDir ≠ []) {dir : Bytes} {ents : List Dirent}
    (h : ∀ ent ∈ ents, (dir ++ slash :: ent.dName).length < maxPathLen) (s : Listing) :
    ∃ s', ents.foldlM (listChildBounded host inputDir dir) s = .ok s' ∧
      s'.queue = s.queue ++ (ents.filter fun ent => ent.dType = FileType.dir.dt).map
        fun ent => dir ++ slash :: ent.dName := by
  induction ents generalizing s with
  | nil => exact ⟨s, rfl, (List.append_nil _).symm⟩
  | cons ent ents ih =>
    obtain ⟨s₁, hs₁, hqueue₁⟩ := listChildBounded_of_fits host hne (h ent List.mem_cons_self) s
    obtain ⟨s₂, hs₂, hqueue₂⟩ := ih (fun e he => h e (List.mem_cons_of_mem ent he)) s₁
    refine ⟨s₂, ?_, ?_⟩
    · rw [List.foldlM_cons, hs₁]
      exact hs₂
    · rw [hqueue₂, hqueue₁, List.filter_cons]
      by_cases hd : ent.dType = FileType.dir.dt <;> simp [hd]

/-- The loop over the entries stops at the first path that is too long. -/
theorem foldlM_listChildBounded_of_not_fits (hne : inputDir ≠ []) {dir : Bytes} {ents : List Dirent}
    (h : ∃ ent ∈ ents, maxPathLen ≤ (dir ++ slash :: ent.dName).length) (s : Listing) :
    ents.foldlM (listChildBounded host inputDir dir) s = .error .overflow := by
  induction ents generalizing s with
  | nil =>
    obtain ⟨ent, hent, -⟩ := h
    cases hent
  | cons ent ents ih =>
    rw [List.foldlM_cons]
    rcases lt_or_ge (dir ++ slash :: ent.dName).length maxPathLen with hlt | hge
    · obtain ⟨s₁, hs₁, -⟩ := listChildBounded_of_fits host hne hlt s
      rw [hs₁]
      apply ih
      obtain ⟨e, he, hlong⟩ := h
      rcases List.mem_cons.mp he with rfl | he
      · omega
      · exact ⟨e, he, hlong⟩
    · rw [listChildBounded_of_not_fits hge]
      rfl

theorem listDirBounded_of_fits (hne : inputDir ≠ []) {dir : Bytes} (h : host.DirFits dir)
    (s : Listing) :
    ∃ s', listDirBounded host inputDir dir s = .ok s' ∧ s'.queue = s.queue ++ host.subdirs dir := by
  obtain ⟨hdir, hents⟩ := h
  have hlen : (dir ++ [slash]).length < maxPathLen := by simpa using hdir
  obtain ⟨s₁, hprint, hqueue⟩ := exists_print host hne (dir ++ [slash]) s
  simp only [listDirBounded]
  rw [strcpy_bind_strcat, strcpy_of_lt hlen]
  change ∃ s', (orExit (s.print host inputDir (dir ++ [slash])) >>= _) = _ ∧ _
  rw [hprint, Host.subdirs, ← hqueue]
  cases hscan : scandir host dir with
  | none => exact ⟨s₁, rfl, (List.append_nil _).symm⟩
  | some namelist =>
    rw [hscan] at hents
    exact foldlM_listChildBounded_of_fits hne hents s₁

theorem listDirBounded_of_not_fits (hne : inputDir ≠ []) {dir : Bytes} (h : ¬ host.DirFits dir)
    (s : Listing) : listDirBounded host inputDir dir s = .error .overflow := by
  simp only [listDirBounded]
  rw [strcpy_bind_strcat]
  rcases lt_or_ge (dir ++ [slash]).length maxPathLen with hlt | hge
  · obtain ⟨s₁, hprint, -⟩ := exists_print host hne (dir ++ [slash]) s
    rw [strcpy_of_lt hlt]
    change (orExit (s.print host inputDir (dir ++ [slash])) >>= _) = _
    rw [hprint]
    have hents : ∃ ent ∈ (scandir host dir).getD [],
        maxPathLen ≤ (dir ++ slash :: ent.dName).length := by
      by_contra! hall
      exact h ⟨by simpa using hlt, hall⟩
    cases hscan : scandir host dir with
    | none =>
      rw [hscan] at hents
      obtain ⟨ent, hent, -⟩ := hents
      cases hent
    | some namelist =>
      rw [hscan] at hents
      exact foldlM_listChildBounded_of_not_fits hne hents s₁
  · rw [strcpy_of_le hge]
    rfl

end Directory

section Run

variable {host : Host} {inputDir : Bytes}

def LoopFits (host : Host) (inputDir : Bytes) (s : Listing) : Prop :=
  ∀ fuel, catalogListingLoopBounded host inputDir fuel s ≠ .error .overflow

theorem loop_succ_cons {dir : Bytes} (hdir : dir.length < maxPathLen) (fuel : ℕ) (q : List Bytes)
    (c : List Record) :
    catalogListingLoopBounded host inputDir (fuel + 1) ⟨dir :: q, c⟩ =
      listDirBounded host inputDir dir ⟨q, c⟩ >>= catalogListingLoopBounded host inputDir fuel := by
  rw [catalogListingLoopBounded, removeQueueBounded, removeQueue]
  change (strcpy dir >>= _) >>= _ = _
  rw [strcpy_of_lt hdir]
  change strcpy dir >>= _ = _
  rw [strcpy_of_lt hdir]
  rfl

/-- A directory of the queue whose path does not fit is not even removed from it. -/
theorem loop_succ_overflow {dir : Bytes} (hdir : maxPathLen ≤ dir.length) (fuel : ℕ) (q : List Bytes)
    (c : List Record) :
    catalogListingLoopBounded host inputDir (fuel + 1) ⟨dir :: q, c⟩ = .error .overflow := by
  rw [catalogListingLoopBounded, removeQueueBounded, removeQueue]
  change (strcpy dir >>= _) >>= _ = _
  rw [strcpy_of_le hdir]
  rfl

/-- When the loop never overflows, the paths of its next directory fit, and it never overflows after
it has queued the subdirectories. -/
theorem LoopFits.cons (hne : inputDir ≠ []) {dir : Bytes} {q : List Bytes} {c : List Record}
    (h : LoopFits host inputDir ⟨dir :: q, c⟩) :
    host.DirFits dir ∧ ∃ s', s'.queue = q ++ host.subdirs dir ∧ LoopFits host inputDir s' := by
  have hdir : dir.length < maxPathLen := by
    by_contra hlong
    exact h 1 (loop_succ_overflow (not_lt.mp hlong) 0 q c)
  have hfits : host.DirFits dir := by
    by_contra hnot
    apply h 1
    rw [loop_succ_cons hdir, listDirBounded_of_not_fits hne hnot]
    rfl
  obtain ⟨s', hs', hqueue⟩ := listDirBounded_of_fits hne hfits ⟨q, c⟩
  refine ⟨hfits, s', hqueue, ?_⟩
  intro fuel hover
  apply h (fuel + 1)
  rw [loop_succ_cons hdir, hs']
  exact hover

/-- Every directory of the queue comes to its head. -/
theorem LoopFits.reaches_head (hne : inputDir ≠ []) {dir : Bytes} {front rest : List Bytes}
    {c : List Record} (h : LoopFits host inputDir ⟨front ++ dir :: rest, c⟩) :
    ∃ q c', LoopFits host inputDir ⟨dir :: q, c'⟩ := by
  -- what stands before the directory is removed, what is queued meanwhile stands behind it
  induction front generalizing rest c with
  | nil => exact ⟨rest, c, h⟩
  | cons d front ih =>
    rw [List.cons_append] at h
    obtain ⟨-, ⟨queue, c'⟩, hqueue, h'⟩ := h.cons hne
    dsimp only at hqueue
    rw [hqueue, List.append_assoc, List.cons_append] at h'
    exact ih h'

/-- Every directory that is ever queued is reached by a run that never overflows. -/
theorem LoopFits.of_queued (hne : inputDir ≠ []) (h : LoopFits host inputDir ⟨[inputDir], []⟩)
    {dir : Bytes} (hq : host.Queued inputDir dir) :
    ∃ q c, LoopFits host inputDir ⟨dir :: q, c⟩ := by
  induction hq with
  | root => exact ⟨[], [], h⟩
  | step _ hd ih =>
    obtain ⟨q, c, hfits⟩ := ih
    obtain ⟨-, ⟨queue, c'⟩, hqueue, h'⟩ := hfits.cons hne
    obtain ⟨l, r, hlr⟩ := List.append_of_mem hd
    dsimp only at hqueue
    rw [hqueue, hlr, ← List.append_assoc] at h'
    exact h'.reaches_head hne

/-- When the paths of all directories that are ever queued fit, the loop never overflows. -/
theorem loopFits_of_queued (hne : inputDir ≠ [])
    (h : ∀ dir, host.Queued inputDir dir → host.DirFits dir) (s : Listing)
    (hq : ∀ dir ∈ s.queue, host.Queued inputDir dir) : LoopFits host inputDir s := by
  intro fuel
  induction fuel generalizing s with
  | zero =>
    obtain ⟨queue, c⟩ := s
    cases queue <;> rintro ⟨⟩
  | succ fuel ih =>
    obtain ⟨queue, c⟩ := s
    cases queue with
    | nil => rintro ⟨⟩
    | cons dir q =>
      have hdir := hq dir List.mem_cons_self
      have hfits := h dir hdir
      obtain ⟨s', hs', hqueue⟩ := listDirBounded_of_fits hne hfits ⟨q, c⟩
      rw [loop_succ_cons (Nat.lt_of_succ_lt hfits.1), hs']
      apply ih
      intro d hd
      rw [hqueue] at hd
      rcases List.mem_append.mp hd with hd | hd
      · exact hq d (List.mem_cons_of_mem dir hd)
      · exact hdir.step hd

theorem catalogListingBounded_of_lt (h : inputDir.length < maxPathLen) (fuel : ℕ) :
    catalogListingBounded host inputDir fuel =
      catalogListingLoopBounded host inputDir fuel ⟨[inputDir], []⟩ := by
  rw [catalogListingBounded, strcpy_of_lt h]
  change (insertQueueBounded [] inputDir >>= _) = _
  rw [insertQueueBounded, strcpy_of_lt h]
  rfl

/-- On any system, the run overflows no buffer exactly when there is room for the paths that are built
from each directory that is queued. -/
theorem noPathOverflow_iff_queued (hne : inputDir ≠ []) :
    NoPathOverflow host inputDir ↔ ∀ dir, host.Queued inputDir dir → host.DirFits dir := by
  constructor
  · intro h
    have hlen : inputDir.length < maxPathLen := by
      by_contra hlong
      apply h 0
      rw [catalogListingBounded, strcpy_of_le (not_lt.mp hlong)]
      rfl
    have hloop : LoopFits host inputDir ⟨[inputDir], []⟩ := by
      intro fuel
      rw [← catalogListingBounded_of_lt hlen]
      exact h fuel
    intro dir hq
    obtain ⟨q, c, hfits⟩ := hloop.of_queued hne hq
    exact (hfits.cons hne).1
  · intro h fuel
    rw [catalogListingBounded_of_lt (Nat.lt_of_succ_lt (h inputDir .root).1)]
    apply loopFits_of_queued hne h
    intro dir hdir
    rw [List.mem_singleton.mp hdir]
    exact .root

end Run

inductive Tree.Visited (T : Tree) (fails unknown : List FileName → Bool) : List FileName → Prop
  | root : T.Visited fails unknown []
  | step {cs ds : List FileName} : T.Visited fails unknown cs → ds ∈ T.subdirsBy fails unknown cs →
    T.Visited fails unknown ds

/-- Under `inputDir`, a directory that is queued has a path of less than `MAXPATHLEN` bytes with a slash
behind it, and so have its entries if `scandir` lists them. -/
structure PathsFit (inputDir : Bytes) (T : Tree) (fails unknown : List FileName → Bool) : Prop where
  dir_lt : ∀ cs, T.Visited fails unknown cs → (inputDir ++ dirPath cs).length < maxPathLen
  entry_lt : ∀ cs c node, T.Visited fails unknown cs → fails cs = false →
    T.get (cs ++ [c]) = some node → (inputDir ++ pathString (cs ++ [c])).length < maxPathLen

section Trees

variable {host : Host} {inputDir : Bytes} {T : Tree} {fails unknown : List FileName → Bool}

theorem Tree.Visited.isDir {cs : List FileName} (h : T.Visited fails unknown cs) : T.IsDir cs := by
  cases h with
  | root => exact T.isDir_nil
  | step _ hds =>
    obtain ⟨-, -, c, -, hdir, -⟩ := mem_subdirsBy.mp hds
    exact hdir

theorem scandir_getD (hlists : host.Lists inputDir T fails unknown) {cs : List FileName} {a : Attr}
    {ch : List (FileName × Node)} (h : T.get cs = some (.dir a ch)) :
    (scandir host (inputDir ++ pathString cs)).getD [] =
      if fails cs then [] else (byName ch).map (direntBy unknown cs) := by
  cases hf : fails cs with
  | true =>
    rw [scandir, hlists.readdir_fails cs a ch h hf]
    rfl
  | false =>
    obtain ⟨ents, dots, hents, hdots, hperm⟩ := hlists.readdir_dir cs a ch h hf
    rw [scandir_eq (f := direntBy unknown cs) (fun _ => rfl) hents hdots hperm (T.distinct cs a ch h)]
    rfl

theorem subdirs_eq (hlists : host.Lists inputDir T fails unknown) {cs : List FileName}
    (hcs : T.IsDir cs) :
    host.subdirs (inputDir ++ pathString cs) =
      (T.subdirsBy fails unknown cs).map fun ds => inputDir ++ pathString ds := by
  obtain ⟨a, ch, h⟩ := hcs
  rw [Host.subdirs, scandir_getD hlists h]
  simp only [Tree.subdirsBy, h]
  cases fails cs with
  | true => rfl
  | false =>
    simp only [Bool.false_eq_true, if_false, List.filter_map, List.map_map]
    have hfilter : ((fun ent : Dirent => decide (ent.dType = FileType.dir.dt)) ∘ direntBy unknown cs) =
        fun e => e.2.isDir && !unknown (cs ++ [e.1]) := by
      funext e
      rw [Function.comp_apply, Bool.eq_iff_iff, decide_eq_true_iff]
      exact dType_direntBy cs e
    rw [hfilter]
    apply List.map_congr_left
    intro e _
    simp [direntBy, pathString_append]

theorem queued_iff (hlists : host.Lists inputDir T fails unknown) {dir : Bytes} :
    host.Queued inputDir dir ↔
      ∃ cs, T.Visited fails unknown cs ∧ dir = inputDir ++ pathString cs := by
  constructor
  · intro h
    induction h with
    | root => exact ⟨[], .root, (List.append_nil _).symm⟩
    | step _ hd ih =>
      obtain ⟨cs, hcs, rfl⟩ := ih
      rw [subdirs_eq hlists hcs.isDir] at hd
      obtain ⟨ds, hds, rfl⟩ := List.mem_map.mp hd
      exact ⟨ds, hcs.step hds, rfl⟩
  · rintro ⟨cs, hcs, rfl⟩
    induction hcs with
    | root =>
      rw [pathString_nil, List.append_nil]
      exact .root
    | step hcs hds ih =>
      apply ih.step
      rw [subdirs_eq hlists hcs.isDir]
      exact List.mem_map_of_mem hds

theorem dirFits_iff (hlists : host.Lists inputDir T fails unknown) {cs : List FileName}
    (hcs : T.IsDir cs) :
    host.DirFits (inputDir ++ pathString cs) ↔ (inputDir ++ dirPath cs).length < maxPathLen ∧
      ∀ c node, fails cs = false → T.get (cs ++ [c]) = some node →
        (inputDir ++ pathString (cs ++ [c])).length < maxPathLen := by
  obtain ⟨a, ch, h⟩ := hcs
  have hdir : (inputDir ++ pathString cs).length + 1 = (inputDir ++ dirPath cs).length := by
    simp [dirPath, Nat.add_assoc]
  have hpath : ∀ e : FileName × Node, (inputDir ++ pathString cs) ++ slash :: (direntBy unknown cs e).dName
      = inputDir ++ pathString (cs ++ [e.1]) := by
    intro e
    simp [direntBy, pathString_append]
  rw [Host.DirFits, hdir, scandir_getD hlists h]
  apply and_congr_right
  intro _
  constructor
  · intro hents c node hf hget
    rw [hf] at hents
    have he := (mem_children_iff h (c, node)).mpr hget
    rw [← hpath (c, node)]
    exact hents _ (List.mem_map_of_mem (mem_byName.mpr he))
  · intro hentries ent hent
    cases hf : fails cs with
    | true =>
      rw [hf] at hent
      cases hent
    | false =>
      rw [hf] at hent
      obtain ⟨e, he, rfl⟩ := List.mem_map.mp hent
      rw [hpath]
      exact hentries e.1 e.2 hf ((mem_children_iff h e).mp (mem_byName.mp he))

/-- For a tree of any shape, with names of any length, on any system: no `strcpy` or `strcat` of the
listing overflows exactly when every path that it builds fits. -/
theorem noPathOverflow_iff (hne : inputDir ≠ []) (hlists : host.Lists inputDir T fails unknown) :
    NoPathOverflow host inputDir ↔ PathsFit inputDir T fails unknown := by
  rw [noPathOverflow_iff_queued hne]
  constructor
  · intro h
    have hfits : ∀ cs, T.Visited fails unknown cs → host.DirFits (inputDir ++ pathString cs) :=
      fun cs hcs => h _ ((queued_iff hlists).mpr ⟨cs, hcs, rfl⟩)
    constructor
    · intro cs hcs
      exact ((dirFits_iff hlists hcs.isDir).mp (hfits cs hcs)).1
    · intro cs c node hcs hf hget
      exact ((dirFits_iff hlists hcs.isDir).mp (hfits cs hcs)).2 c node hf hget
  · rintro h dir hdir
    obtain ⟨cs, hcs, rfl⟩ := (queued_iff hlists).mp hdir
    exact (dirFits_iff hlists hcs.isDir).mpr
      ⟨h.dir_lt cs hcs, fun c node hf hget => h.entry_lt cs c node hcs hf hget⟩

end Trees

def tooLong (inputDir : Bytes) (cs : List FileName) : Bool :=
  maxPathLen ≤ (inputDir ++ pathString cs).length

/-- The system fails on paths of `MAXPATHLEN` bytes or more, and shows the tree as far as that. -/
structure Host.ShowsShort (host : Host) (inputDir : Bytes) (T : Tree) : Prop where
  lists : host.Lists inputDir T (tooLong inputDir) noFailure
  lstat_dir : ∀ cs a ch, T.get cs = some (.dir a ch) →
    (inputDir ++ dirPath cs).length < maxPathLen →
      host.lstat (inputDir ++ dirPath cs) = some (Node.dir a ch).stat
  lstat_node : ∀ cs node, cs ≠ [] → T.get cs = some node →
    (inputDir ++ pathString cs).length < maxPathLen →
      host.lstat (inputDir ++ pathString cs) = some node.stat
  readdir_long : ∀ path, maxPathLen ≤ path.length → host.readdir path = none
  lstat_long : ∀ path, maxPathLen ≤ path.length → host.lstat path = none

def Host.limited (host : Host) : Host :=
  { host with
    lstat := fun path => if maxPathLen ≤ path.length then none else host.lstat path
    readdir := fun path => if maxPathLen ≤ path.length then none else host.readdir path }

def listedPath (cs : List FileName) (node : Node) : Bytes :=
  if node.isDir then dirPath cs else pathString cs

section Limit

variable {host : Host} {inputDir : Bytes} {T : Tree}

theorem Host.Shows.limited (h : host.Shows inputDir T noFailure) :
    host.limited.ShowsShort inputDir T where
  lists := by
    constructor
    · intro cs a ch hget hshort
      have hlen : ¬ maxPathLen ≤ (inputDir ++ pathString cs).length := by
        simpa [tooLong] using hshort
      obtain ⟨ents, hents, hperm⟩ := h.readdir_dir cs a ch hget rfl
      exact ⟨ents, dotEntries, by simp only [Host.limited, if_neg hlen, hents], rfl, hperm⟩
    · intro cs a ch _ hlong
      exact if_pos (by simpa [tooLong] using hlong)
  lstat_dir cs a ch hget hlt := by
    simp only [Host.limited, if_neg (not_le.mpr hlt), h.lstat_dir cs a ch hget]
  lstat_node cs node hcs hget hlt := by
    simp only [Host.limited, if_neg (not_le.mpr hlt), h.lstat_node cs node hcs hget]
  readdir_long _ hle := if_pos hle
  lstat_long _ hle := if_pos hle

theorem PathsFit.not_tooLong (h : PathsFit inputDir T (tooLong inputDir) noFailure)
    {cs : List FileName} (hcs : T.Visited (tooLong inputDir) noFailure cs) :
    tooLong inputDir cs = false := by
  have hlt := h.dir_lt cs hcs
  simp only [dirPath, List.length_append] at hlt
  simp only [tooLong, List.length_append, decide_eq_false_iff_not]
  omega

theorem PathsFit.visited (h : PathsFit inputDir T (tooLong inputDir) noFailure)
    {cs : List FileName} (hcs : T.IsDir cs) : T.Visited (tooLong inputDir) noFailure cs := by
  induction cs using List.reverseRecOn with
  | nil => exact .root
  | append_singleton cs c ih =>
    obtain ⟨a, ch, hget⟩ := hcs
    have hparent := ih (isDir_of_get_concat hget)
    exact hparent.step
      (mem_subdirsBy.mpr ⟨hparent.isDir, h.not_tooLong hparent, c, rfl, ⟨a, ch, hget⟩, rfl⟩)

/-- When only long paths fail, what has to fit is every path of the tree: a limit of the system does
not keep the listing from building a path, only from using it. -/
theorem pathsFit_tooLong_iff :
    PathsFit inputDir T (tooLong inputDir) noFailure ↔
      ∀ cs node, T.get cs = some node → (inputDir ++ listedPath cs node).length < maxPathLen := by
  constructor
  · intro h cs node hget
    cases hdir : node.isDir with
    | true =>
      rw [listedPath, hdir]
      obtain ⟨a, ch, rfl⟩ : ∃ a ch, node = .dir a ch := by
        cases node with
        | leaf t a => cases hdir
        | link a t => cases hdir
        | dir a ch => exact ⟨a, ch, rfl⟩
      exact h.dir_lt cs (h.visited ⟨a, ch, hget⟩)
    | false =>
      rw [listedPath, hdir]
      rcases List.eq_nil_or_concat' cs with rfl | ⟨ds, c, rfl⟩
      · obtain rfl := Option.some.inj hget
        cases hdir
      · have hds := h.visited (isDir_of_get_concat hget)
        exact h.entry_lt ds c node hds (h.not_tooLong hds) hget
  · intro h
    constructor
    · intro cs hcs
      obtain ⟨a, ch, hget⟩ := hcs.isDir
      exact h cs _ hget
    · intro cs c node _ _ hget
      have hlt := h _ node hget
      unfold listedPath at hlt
      split_ifs at hlt
      · simp only [dirPath, List.length_append] at hlt ⊢
        omega
      · exact hlt

end Limit

theorem noPathOverflow_iff_smallTree :
    NoPathOverflow (treeHost [slash, ch 'm'] smallTree noFailure).limited [slash, ch 'm'] := by
  apply (noPathOverflow_iff (by decide) (treeHost_shows _ smallTree noFailure).limited.lists).mpr
  apply pathsFit_tooLong_iff.mpr
  exact smallTree_forall (by decide) (by decide) (by decide) (by decide)

def longInput : Bytes := slash :: (List.replicate 2047 [ch 'a', slash]).flatten

theorem length_longInput : longInput.length = 4095 := by
  rw [longInput, List.length_cons, List.length_flatten, List.map_replicate, List.sum_replicate]
  rfl

/-- The first `strcat` of the listing overflows, on every tree. -/
theorem not_noPathOverflow_longInput :
    ¬ ∀ (T : Tree) (inputDir : Bytes) (host : Host),
      (∀ cs c node, T.get (cs ++ [c]) = some node → c.val.length ≤ 255) →
      inputDir.length < maxPathLen → host.ShowsShort inputDir T → NoPathOverflow host inputDir := by
  intro h
  have hnames : ∀ cs node, smallTree.get cs = some node → ∀ c ∈ cs, c.val.length ≤ 255 :=
    smallTree_forall (by simp) (by simp [nameL, FileName.ofBytes]) (by simp [nameA, FileName.ofBytes])
      (by simp [nameA, nameB, FileName.ofBytes])
  have hrun := h smallTree longInput _ (fun cs c node hget => hnames _ node hget c (by simp))
    (by rw [length_longInput]; decide) (treeHost_shows longInput smallTree noFailure).limited
  have hfits := ((noPathOverflow_iff_queued (List.cons_ne_nil _ _)).mp hrun longInput .root).1
  rw [length_longInput] at hfits
  exact absurd hfits (by decide)

end CatalogFS
