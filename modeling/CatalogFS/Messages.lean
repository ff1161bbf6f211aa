import CatalogFS.Completeness

/-!
# The message for a directory that cannot be scanned

When `scandir` fails, `catalog_listing` puts the name of the directory into `errormsg[256]` and hands
the message to `error` as a format. The listing with its messages is the one without them as long as
every message fits and asks for no argument.
-/

namespace CatalogFS

open CLib

def scandirError : Bytes :=
  newline :: (['E', 'R', 'R', 'O', 'R', ':', 's', 'c', 'a', 'n', 'd', 'i', 'r', ' ', 'r', 'e', 't',
    'u', 'r', 'n', ' ', 'n', 'o', 'n', '-', 'z', 'e', 'r', 'o', ' ', 'v', 'a', 'l', 'u', 'e', '.',
    ' '].map ch ++ newline :: ['I', 'n', 'p', 'u', 't', ' ', 'D', 'i', 'r', 'e', 'c', 't', 'o', 'r',
    'y', '='].map ch)

def isFlag (b : Byte) : Bool := b ∈ [' ', '#', '+', '-', '0', '\'', 'I'].map ch

/-- What follows the conversion behind a `%`, for one that takes no argument: another `%`, or the `m`
of glibc, the message for `errno`, before which flags, a width and a precision may stand. -/
def skipConversion (s : Bytes) : Option Bytes :=
  if s.head? = some (ch '%') then some s.tail
  else
    let s := (s.dropWhile isFlag).dropWhile (isDigit 10)
    let s := if s.head? = some (ch '.') then s.tail.dropWhile (isDigit 10) else s
    if s.head? = some (ch 'm') then some s.tail else none

/-- Every conversion of a format of at most `n` bytes takes no argument. -/
def takesNoArgument : ℕ → Bytes → Bool
  | _, [] => true
  | 0, _ :: _ => false
  | n + 1, b :: s =>
    if b = ch '%' then
      match skipConversion s with
      | none => false
      | some s => takesNoArgument n s
    else takesNoArgument n s

/-- `sprintf(errormsg, ..)` and `error(0, errno, errormsg)` are defined for these bytes: they fit with
a NUL, and as a format they ask for nothing that is not passed. -/
def Reportable (message : Bytes) : Prop :=
  message.length < 256 ∧ takesNoArgument message.length message = true

instance (message : Bytes) : Decidable (Reportable message) :=
  inferInstanceAs (Decidable (_ ∧ _))

/-- `listDir` with its message, after which the loop goes on. -/
def listDirReporting (host : Host) (inputDir currentDir : Bytes) (s : Listing) : Option Listing := do
  let s ← s.print host inputDir (currentDir ++ [slash])
  match scandir host currentDir with
  | none => if Reportable (scandirError ++ currentDir) then return s else none
  | some namelist => namelist.foldlM (listChild host inputDir currentDir) s

def catalogListingReportingLoop (host : Host) (inputDir : Bytes) :
    ℕ → Listing → Option (List Record)
  | 0, s =>
    match removeQueue s.queue with
    | none => some s.catalog
    | some _ => none
  | fuel + 1, s =>
    match removeQueue s.queue with
    | none => some s.catalog
    | some (currentDir, queue) => do
      let s ← listDirReporting host inputDir currentDir { s with queue }
      catalogListingReportingLoop host inputDir fuel s

def catalogListingReporting (host : Host) (inputDir : Bytes) (fuel : ℕ) : Option (List Record) :=
  catalogListingReportingLoop host inputDir fuel ⟨insertQueue [] inputDir, []⟩

/-- The run of `catalog_listing` with its messages ends and has written these records. -/
def WritesReporting (host : Host) (inputDir : Bytes) (recs : List Record) : Prop :=
  ∃ fuel, catalogListingReporting host inputDir fuel = some recs

theorem takesNoArgument_of_notMem {s : Bytes} (h : ch '%' ∉ s) (n : ℕ) :
    s.length ≤ n → takesNoArgument n s = true := by
  induction s generalizing n with
  | nil => cases n <;> exact fun _ => rfl
  | cons b s ih =>
    intro hn
    obtain ⟨n, rfl⟩ := Nat.exists_eq_add_of_le' (show 1 ≤ n by simp at hn; omega)
    rw [List.mem_cons, not_or] at h
    rw [takesNoArgument, if_neg (Ne.symm h.1)]
    exact ih h.2 n (by simpa using hn)

theorem length_scandirError : scandirError.length = 55 := rfl

/-- A path of at most 200 bytes without a `%` can be reported. -/
theorem reportable_of_notMem {path : Bytes} (h : ch '%' ∉ path) (hlen : path.length ≤ 200) :
    Reportable (scandirError ++ path) := by
  have herror : ch '%' ∉ scandirError := by decide
  refine ⟨?_, takesNoArgument_of_notMem ?_ _ le_rfl⟩
  · rw [List.length_append, length_scandirError]
    omega
  · rw [List.mem_append, not_or]
    exact ⟨herror, h⟩

theorem listDirReporting_eq (host : Host) (inputDir currentDir : Bytes) (s : Listing) :
    listDirReporting host inputDir currentDir s =
      if scandir host currentDir = none → Reportable (scandirError ++ currentDir) then
        listDir host inputDir currentDir s
      else none := by
  unfold listDirReporting listDir
  cases hscan : scandir host currentDir with
  | none =>
    by_cases hrep : Reportable (scandirError ++ currentDir)
    · simp [hrep]
    · simp [hrep]
  | some namelist => simp

section Run

variable {host : Host} {inputDir : Bytes} {T : Tree} {fails unknown : List FileName → Bool}

theorem scandir_eq_none_iff (hlists : host.Lists inputDir T fails unknown) {cs : List FileName}
    (h : T.IsDir cs) : scandir host (inputDir ++ pathString cs) = none ↔ fails cs = true := by
  obtain ⟨a, ch, hget⟩ := h
  rw [scandir, Option.map_eq_none_iff]
  cases hf : fails cs with
  | true => simp [hlists.readdir_fails cs a ch hget hf]
  | false =>
    obtain ⟨ents, -, hents, -, -⟩ := hlists.readdir_dir cs a ch hget hf
    simp [hents]

def Speaks (inputDir : Bytes) (fails : List FileName → Bool) (cs : List FileName) : Prop :=
  fails cs = true → Reportable (scandirError ++ (inputDir ++ pathString cs))

instance (inputDir : Bytes) (fails : List FileName → Bool) :
    DecidablePred (Speaks inputDir fails) :=
  fun cs => inferInstanceAs (Decidable (fails cs = true → _))

section Printed

variable {printed : Bytes → Record}
  (hprinted : ∀ path, printToCatalog host (inputDir ++ path) inputDir = some (printed path))
  (hlists : host.Lists inputDir T fails unknown)

include hprinted hlists

/-- The loop with its messages is the worklist over the directories, broken off at one that cannot be
reported. -/
theorem catalogListingReportingLoop_eq_run (fuel : ℕ) (queue : List (List FileName))
    (hq : ∀ cs ∈ queue, T.IsDir cs) (out : List Record) :
    catalogListingReportingLoop host inputDir fuel
        ⟨queue.map fun cs => inputDir ++ pathString cs, out⟩ =
      Worklist.runGuarded (T.blockBy fails printed) (T.subdirsBy fails unknown)
        (Speaks inputDir fails) fuel queue out := by
  induction fuel generalizing queue out with
  | zero => cases queue <;> rfl
  | succ fuel ih =>
    cases queue with
    | nil => rfl
    | cons cs queue =>
      obtain ⟨a, ch, h⟩ := hq cs List.mem_cons_self
      have hdir : T.IsDir cs := ⟨a, ch, h⟩
      have hstep : catalogListingReportingLoop host inputDir (fuel + 1)
          ⟨(cs :: queue).map fun cs => inputDir ++ pathString cs, out⟩ =
          (listDirReporting host inputDir (inputDir ++ pathString cs)
            ⟨queue.map fun cs => inputDir ++ pathString cs, out⟩).bind
              (catalogListingReportingLoop host inputDir fuel) := rfl
      have hspeaks : (scandir host (inputDir ++ pathString cs) = none →
          Reportable (scandirError ++ (inputDir ++ pathString cs))) ↔ Speaks inputDir fails cs := by
        rw [scandir_eq_none_iff hlists hdir]
        rfl
      rw [hstep, listDirReporting_eq, listDir_eq hprinted hlists h, Worklist.runGuarded]
      by_cases hok : Speaks inputDir fails cs
      · have hq' : ∀ ds ∈ queue ++ T.subdirsBy fails unknown cs, T.IsDir ds := by
          intro ds hds
          rcases List.mem_append.mp hds with hds | hds
          · exact hq ds (List.mem_cons_of_mem cs hds)
          · obtain ⟨-, -, c, -, hkid, -⟩ := mem_subdirsBy.mp hds
            exact hkid
        rw [if_pos (hspeaks.mpr hok), if_pos hok, Option.bind_some, ← ih _ hq', List.map_append]
      · rw [if_neg fun hscan => hok (hspeaks.mp hscan), if_neg hok]
        rfl

theorem catalogListingReporting_eq_some_iff {fuel : ℕ} {recs : List Record} :
    catalogListingReporting host inputDir fuel = some recs ↔
      catalogListing host inputDir fuel = some recs ∧
        ∀ cs ∈ T.dirsBy fails unknown, Speaks inputDir fails cs := by
  have hq : ∀ cs ∈ [([] : List FileName)], T.IsDir cs := by
    intro cs hcs
    rw [List.mem_singleton.mp hcs]
    exact T.isDir_nil
  have hrun := catalogListingReportingLoop_eq_run hprinted hlists fuel [[]] hq []
  have hstart : catalogListingReporting host inputDir fuel = catalogListingReportingLoop host inputDir
      fuel ⟨[([] : List FileName)].map fun cs => inputDir ++ pathString cs, []⟩ := by
    simp [catalogListingReporting, insertQueue]
  have hmem : ∀ cs, cs ∈ T.dirsBy fails unknown ↔
      ∃ i, cs ∈ Worklist.level (T.subdirsBy fails unknown) [[]] i := fun cs =>
    Worklist.mem_order_iff _ (level_eq_nil_by T fails unknown)
  rw [hstart, hrun, Worklist.runGuarded_eq_some_iff, ← catalogListing_eq_run hprinted hlists]
  apply and_congr_right
  intro _
  constructor
  · intro h cs hcs
    obtain ⟨i, hi⟩ := (hmem cs).mp hcs
    exact h i cs hi
  · intro h i cs hi
    exact h cs ((hmem cs).mpr ⟨i, hi⟩)

end Printed

theorem speaks_iff_reached : (∀ cs ∈ T.dirsBy fails noFailure, Speaks inputDir fails cs) ↔
    ∀ cs, T.Reached fails cs → Speaks inputDir fails cs := by
  have hdirs : T.dirsBy fails noFailure = T.dirs fails := by
    rw [Tree.dirsBy, subdirsBy_noFailure]
    rfl
  simp only [hdirs, mem_dirs_iff]

variable (hne : inputDir ≠ [])

include hne

/-- The run with its messages ends with what the run without them writes, when every directory that is
visited and cannot be scanned can be reported, and not at all otherwise. -/
theorem writesReporting_iff_dirsBy (hfiles : host.ShowsFiles inputDir T)
    (hlists : host.Lists inputDir T fails unknown) {recs : List Record} :
    WritesReporting host inputDir recs ↔
      recs = (T.dirsBy fails unknown).flatMap (T.block fails) ∧
        ∀ cs ∈ T.dirsBy fails unknown, Speaks inputDir fails cs := by
  obtain ⟨printed, hprinted⟩ := exists_printed host hne
  rw [← writes_iff_dirsBy hne hfiles hlists]
  constructor
  · rintro ⟨fuel, hfuel⟩
    obtain ⟨hrun, hspeaks⟩ := (catalogListingReporting_eq_some_iff hprinted hlists).mp hfuel
    exact ⟨⟨fuel, hrun⟩, hspeaks⟩
  · rintro ⟨⟨fuel, hfuel⟩, hspeaks⟩
    exact ⟨fuel, (catalogListingReporting_eq_some_iff hprinted hlists).mpr ⟨hfuel, hspeaks⟩⟩

variable (hshows : host.Shows inputDir T fails)

include hshows

theorem writesReporting_iff {recs : List Record} :
    WritesReporting host inputDir recs ↔
      recs = T.records fails ∧ ∀ cs, T.Reached fails cs → Speaks inputDir fails cs := by
  rw [writesReporting_iff_dirsBy hne hshows.files hshows.lists, speaks_iff_reached,
    ← writes_iff_dirsBy hne hshows.files hshows.lists, writes_iff hshows hne]

/-- The listing with its messages is complete, for every set of directories on which `scandir` fails,
exactly when each of those that are reached has a path of at most 200 bytes, which as a format takes
no argument. -/
theorem catalogListing_complete_iff :
    (∃ recs, (∃ n, ∀ fuel ≥ n, catalogListingReporting host inputDir fuel = some recs) ∧
      CompleteListing T fails recs) ↔
    ∀ cs, T.Reached fails cs → fails cs = true →
      Reportable (scandirError ++ (inputDir ++ pathString cs)) := by
  obtain ⟨printed, hprinted⟩ := exists_printed host hne
  constructor
  · rintro ⟨recs, ⟨n, hn⟩, -⟩
    exact ((writesReporting_iff hne hshows).mp ⟨n, hn n le_rfl⟩).2
  · intro hspeaks
    obtain ⟨n, hn⟩ := writes_eventually hshows hne
    refine ⟨T.records fails, ⟨n, fun fuel hfuel => ?_⟩, completeListing_records T fails⟩
    apply (catalogListingReporting_eq_some_iff hprinted hshows.lists).mpr
    exact ⟨hn fuel hfuel, (speaks_iff_reached).mpr hspeaks⟩

end Run

theorem catalogListing_complete_smallTree :
    (∃ recs, (∃ n, ∀ fuel ≥ n, catalogListingReporting
        (treeHost [ch 'r'] smallTree fun cs => cs.length = 1) [ch 'r'] fuel = some recs) ∧
      CompleteListing smallTree (fun cs => cs.length = 1) recs) ↔
    ∀ cs, smallTree.Reached (fun cs => cs.length = 1) cs → decide (cs.length = 1) = true →
      Reportable (scandirError ++ ([ch 'r'] ++ pathString cs)) :=
  catalogListing_complete_iff (List.cons_ne_nil (ch 'r') [])
    (treeHost_shows [ch 'r'] smallTree fun cs => cs.length = 1)

def percentName : FileName := .ofBytes [ch '%', ch 'n'] (by decide)

def percentTree : Tree where
  attr := smallAttr
  children := [(percentName, .dir smallAttr [])]
  distinct := by
    apply Node.distinct_dir (by decide)
    intro e he
    obtain rfl := List.mem_singleton.mp he
    exact Node.distinct_dir (by decide) (by simp)

/-- The message for it is a format with an argument that is not passed. -/
theorem not_catalogListing_complete_percent :
    ¬ ∀ (T : Tree) (fails : List FileName → Bool) (host : Host) (inputDir : Bytes), inputDir ≠ [] →
      host.Shows inputDir T fails →
      ∃ recs, (∃ n, ∀ fuel ≥ n, catalogListingReporting host inputDir fuel = some recs) ∧
        CompleteListing T fails recs := by
  intro h
  have hshows := treeHost_shows [ch 'r'] percentTree fun cs => cs.length = 1
  have hreport := (catalogListing_complete_iff (List.cons_ne_nil _ _) hshows).mp
    (h _ _ _ [ch 'r'] (List.cons_ne_nil _ _) hshows) [percentName]
    (.step .root rfl ⟨smallAttr, [], rfl⟩) rfl
  exact absurd hreport (by decide)

end CatalogFS
