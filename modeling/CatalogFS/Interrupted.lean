import CatalogFS.CLib.Streams
import CatalogFS.Messages
import CatalogFS.Regeneration

namespace CatalogFS

open CLib

inductive OutFile
  | catalog
  | temp
  deriving DecidableEq

def outStreams (files : Files) (catalogBuffer tempBuffer : Bytes) : Streams OutFile where
  file
    | .catalog => files.catalog
    | .temp => files.temp
  buffer
    | .catalog => catalogBuffer
    | .temp => tempBuffer

def filesOf (file : OutFile → Option Bytes) : Files := ⟨file .catalog, file .temp⟩

def openOps (calls : Calls) : List (FileOp OutFile) :=
  (if calls.opensCatalog then [.fopen .catalog] else []) ++
    if calls.opensTemp then [.fopen .temp] else []

/-- `print_entry_to_catalog` prints each record to the first stream and flushes it. -/
def listOps (recs : List Record) : List (FileOp OutFile) :=
  recs.flatMap fun r => [.fputs .catalog r.text, .fflush .catalog]

/-- `pad_each_line` rewinds the first stream and reads it, rewinds both, and prints each padded line to
the second one. -/
def padOps (listing : Bytes) : List (FileOp OutFile) :=
  .fflush .catalog :: .fflush .catalog :: .fflush .temp ::
    ((lines listing).map (padLine (maxLen listing))).map (.fputs .temp)

/-- `main` behind the listing. A second stream that is null ends it where `pad_each_line` rewinds
that. -/
def finishOps (calls : Calls) (listing : Bytes) : Ending × List (FileOp OutFile) :=
  if !calls.opensTemp then (.crash, [.fflush .catalog])
  else
    let ops := padOps listing ++ [.fflush .catalog, .fflush .temp]
    if !calls.renames then (.failure, ops)
    else (.success, ops ++ [.rename .temp .catalog])

def statError : Bytes :=
  newline :: ['E', 'R', 'R', 'O', 'R', ':', 'C', 'a', 'n', 'n', 'o', 't', ' ', 'g', 'e', 't', ' ', 's',
    't', 'a', 't', 'i', 's', 't', 'i', 'c', 's', ' ', 'o', 'f', ' ', 't', 'h', 'e', ' ', 'd', 'i', 'r',
    'e', 'c', 't', 'o', 'r', 'y', ':'].map ch

def fopenError : Bytes :=
  newline :: ['E', 'R', 'R', 'O', 'R', ':', 'C', 'a', 'n', 'n', 'o', 't', ' ', 'o', 'p', 'e', 'n', ' ',
    'c', 'a', 't', 'a', 'l', 'o', 'g', ' ', 'f', 'i', 'l', 'e', ' ', 'f', 'o', 'r', ' ', 'w', 'r', 'i',
    't', 'i', 'n', 'g', ':'].map ch

def renameError (catalogName : Bytes) : Bytes :=
  newline :: ['E', 'R', 'R', 'O', 'R', ':', 'C', 'a', 'n', 'n', 'o', 't', ' ', 'r', 'e', 'n', 'a', 'm',
    'e', ' ', 'f', 'i', 'l', 'e', ':'].map ch ++ catalogName ++ ['.', 't', 'e', 'm', 'p', ' ', 't', 'o',
    ' ', 'f', 'i', 'l', 'e', ':'].map ch ++ catalogName

/-- The message fits `errormsg[256]`, and if the call fails, it is a format for `error`. -/
def fitsErrormsg (succeeds : Bool) (message : Bytes) : Bool :=
  decide (message.length < 256) && (succeeds || takesNoArgument message.length message)

/-- The messages that `main` prepares once it has the arguments. -/
def fitsMessages (calls : Calls) : List Bytes → Bool
  | [inputDir, catalogName] =>
    fitsErrormsg true (statError ++ inputDir) &&
      fitsErrormsg calls.opensCatalog (fopenError ++ catalogName) &&
      fitsErrormsg calls.renames (renameError catalogName)
  | _ => true

/-- The operations of a run of `main` that ends, none when it breaks off at a message. -/
def generateCatalogOps (host : Host) (calls : Calls) (argv : List Bytes) (fuel : ℕ) :
    Option (Ending × List (FileOp OutFile)) :=
  match checkArguments calls argv with
  | none => some (.failure, [])
  | some inputDir =>
    if !fitsMessages calls argv then none
    else if !calls.opensCatalog then some (.failure, openOps calls)
    else do
      let recs ← catalogListingReporting host inputDir fuel
      let (ending, ops) := finishOps calls (recs.flatMap Record.text)
      return (ending, openOps calls ++ listOps recs ++ ops)

/-- A run on these files can be killed at a moment when this is left of them. -/
def LeavesKilled (host : Host) (calls : Calls) (argv : List Bytes) (files files' : Files) : Prop :=
  ∃ fuel ending ops file, generateCatalogOps host calls argv fuel = some (ending, ops) ∧
    Killed ops (outStreams files [] []) file ∧ filesOf file = files'

section Exec

variable (files : Files) (b t text : Bytes)

@[simp] theorem filesOf_file : filesOf (outStreams files b t).file = files := rfl

@[simp] theorem exec_fopen_catalog : FileOp.exec (outStreams files b t) (.fopen .catalog) =
    outStreams { files with catalog := some [] } [] t := by
  rw [FileOp.exec, Streams.mk.injEq]
  constructor <;> funext f <;> cases f <;> rfl

@[simp] theorem exec_fopen_temp : FileOp.exec (outStreams files b t) (.fopen .temp) =
    outStreams { files with temp := some [] } b [] := by
  rw [FileOp.exec, Streams.mk.injEq]
  constructor <;> funext f <;> cases f <;> rfl

@[simp] theorem exec_fputs_catalog : FileOp.exec (outStreams files b t) (.fputs .catalog text) =
    outStreams files (b ++ text) t := by
  rw [FileOp.exec, outStreams, outStreams, Streams.mk.injEq]
  refine ⟨rfl, ?_⟩
  funext f
  cases f <;> rfl

@[simp] theorem exec_fputs_temp : FileOp.exec (outStreams files b t) (.fputs .temp text) =
    outStreams files b (t ++ text) := by
  rw [FileOp.exec, outStreams, outStreams, Streams.mk.injEq]
  refine ⟨rfl, ?_⟩
  funext f
  cases f <;> rfl

@[simp] theorem exec_fflush_catalog : FileOp.exec (outStreams files b t) (.fflush .catalog) =
    outStreams { files with catalog := files.catalog.map (· ++ b) } [] t := by
  rw [FileOp.exec, Streams.mk.injEq]
  constructor <;> funext f <;> cases f <;> rfl

@[simp] theorem exec_fflush_temp : FileOp.exec (outStreams files b t) (.fflush .temp) =
    outStreams { files with temp := files.temp.map (· ++ t) } b [] := by
  rw [FileOp.exec, Streams.mk.injEq]
  constructor <;> funext f <;> cases f <;> rfl

@[simp] theorem exec_rename : FileOp.exec (outStreams files b t) (.rename .temp .catalog) =
    outStreams ⟨files.temp, none⟩ t [] := by
  rw [FileOp.exec, Streams.mk.injEq]
  constructor <;> funext f <;> cases f <;> rfl

theorem leaves_outStreams {file : OutFile → Option Bytes} :
    Leaves (outStreams files b t) file ↔ ∃ p q, p <+: b ∧ q <+: t ∧
      filesOf file = ⟨files.catalog.map (· ++ p), files.temp.map (· ++ q)⟩ := by
  constructor
  · intro h
    obtain ⟨p, hp, hcatalog⟩ := h .catalog
    obtain ⟨q, hq, htemp⟩ := h .temp
    exact ⟨p, q, hp, hq, by rw [filesOf, hcatalog, htemp]; rfl⟩
  · rintro ⟨p, q, hp, hq, hfile⟩ f
    obtain ⟨hcatalog, htemp⟩ := Files.mk.inj hfile
    cases f with
    | catalog => exact ⟨p, hp, hcatalog⟩
    | temp => exact ⟨q, hq, htemp⟩

end Exec

section Whole

variable (files : Files) (b t : Bytes)

@[simp] theorem runOps_openOps (calls : Calls) : runOps (openOps calls) (outStreams files [] []) =
    outStreams ⟨fopenW calls.opensCatalog files.catalog, fopenW calls.opensTemp files.temp⟩ [] [] := by
  cases hcatalog : calls.opensCatalog <;> cases htemp : calls.opensTemp <;>
    simp [openOps, hcatalog, htemp, fopenW]

@[simp] theorem runOps_listOps (recs : List Record) (listed : Bytes) (temp : Option Bytes) :
    runOps (listOps recs) (outStreams ⟨some listed, temp⟩ [] t) =
      outStreams ⟨some (listed ++ recs.flatMap Record.text), temp⟩ [] t := by
  induction recs generalizing listed with
  | nil => simp [listOps]
  | cons r recs ih =>
    rw [listOps, List.flatMap_cons, runOps_append, runOps_cons, runOps_cons, runOps_nil, ← listOps,
      exec_fputs_catalog, exec_fflush_catalog, Option.map_some, List.nil_append, ih]
    simp

@[simp] theorem runOps_padOps (listing : Bytes) : runOps (padOps listing) (outStreams files b t) =
    outStreams ⟨files.catalog.map (· ++ b), files.temp.map (· ++ t)⟩ [] (padEachLine listing) := by
  simp only [padOps, runOps_cons, exec_fflush_catalog, exec_fflush_temp, runOps_fputs,
    exec_fputs_temp, map_append_nil, List.nil_append]
  rw [padEachLine, List.flatMap_def]

/-- All operations together make of the files what `main` makes of them. -/
theorem generateCatalogMain_eq_runOps (host : Host) (calls : Calls) (argv : List Bytes) (fuel : ℕ)
    (hmessages : fitsMessages calls argv = true)
    (hspeaks : ∀ inputDir, checkArguments calls argv = some inputDir →
      catalogListingReporting host inputDir fuel = catalogListing host inputDir fuel) :
    generateCatalogMain host calls argv fuel files =
      (generateCatalogOps host calls argv fuel).map fun run =>
        (run.1, filesOf (runOps run.2 (outStreams files [] [])).file) := by
  unfold generateCatalogMain generateCatalogOps
  cases hargs : checkArguments calls argv with
  | none => simp
  | some inputDir =>
    cases hcatalog : calls.opensCatalog with
    | false => simp [hmessages, hcatalog, fopenW]
    | true =>
      cases hlist : catalogListing host inputDir fuel with
      | none => simp [hmessages, hlist, hspeaks inputDir hargs]
      | some recs =>
        have hreport := (hspeaks inputDir hargs).trans hlist
        cases htemp : calls.opensTemp with
        | false => simp [hmessages, hlist, hreport, hcatalog, htemp, finishOps, fopenW]
        | true =>
          cases hren : calls.renames <;>
            simp [hmessages, hlist, hreport, hcatalog, htemp, hren, finishOps, fopenW]

end Whole

inductive Moment (calls : Calls) (files : Files) (listing : Bytes) : Files → Prop
  | before : Moment calls files listing files
  | notOpened : calls.opensCatalog = false →
      Moment calls files listing ⟨files.catalog, fopenW calls.opensTemp files.temp⟩
  | emptied : calls.opensCatalog = true → Moment calls files listing ⟨some [], files.temp⟩
  | listed {p : Bytes} : calls.opensCatalog = true → p <+: listing →
      Moment calls files listing ⟨some p, fopenW calls.opensTemp files.temp⟩
  | padded {p : Bytes} : calls.opensCatalog = true → calls.opensTemp = true →
      p <+: padEachLine listing → Moment calls files listing ⟨some listing, some p⟩
  | renamed : calls.opensCatalog = true → calls.opensTemp = true → calls.renames = true →
      Moment calls files listing ⟨some (padEachLine listing), none⟩

section Moments

variable {calls : Calls} {files : Files} {listing : Bytes} {file : OutFile → Option Bytes}

theorem killed_openOps : Killed (openOps calls) (outStreams files [] []) file ↔
    filesOf file = files ∨ filesOf file = ⟨fopenW calls.opensCatalog files.catalog, files.temp⟩ ∨
      filesOf file =
        ⟨fopenW calls.opensCatalog files.catalog, fopenW calls.opensTemp files.temp⟩ := by
  cases hcatalog : calls.opensCatalog <;> cases htemp : calls.opensTemp <;>
    simp [openOps, hcatalog, htemp, fopenW, killed_cons, killed_nil, leaves_outStreams]

theorem prefix_append_iff {p s t : Bytes} : p <+: s ++ t ↔ p <+: s ∨ ∃ q, q <+: t ∧ p = s ++ q := by
  constructor
  · intro h
    rcases List.prefix_or_prefix_of_prefix h (List.prefix_append s t) with hp | ⟨q, rfl⟩
    · exact .inl hp
    · exact .inr ⟨q, (List.prefix_append_right_inj s).mp h, rfl⟩
  · rintro (h | ⟨q, hq, rfl⟩)
    · exact h.trans (List.prefix_append s t)
    · exact (List.prefix_append_right_inj s).mpr hq

/-- Between a record and its flush the library may have written a part of it. -/
theorem killed_listOps {recs : List Record} (listed : Bytes) (temp : Option Bytes) :
    Killed (listOps recs) (outStreams ⟨some listed, temp⟩ [] []) file ↔
      ∃ p, p <+: recs.flatMap Record.text ∧ filesOf file = ⟨some (listed ++ p), temp⟩ := by
  induction recs generalizing listed with
  | nil => simp [listOps, killed_nil, leaves_outStreams]
  | cons r recs ih =>
    have hops : listOps (r :: recs) =
        .fputs .catalog r.text :: .fflush .catalog :: listOps recs := rfl
    have hnone : (∃ p q, p <+: ([] : Bytes) ∧ q <+: ([] : Bytes) ∧
        filesOf file = ⟨(some listed).map (· ++ p), temp.map (· ++ q)⟩) →
        ∃ p, p <+: r.text ∧ filesOf file = ⟨some (listed ++ p), temp⟩ := by
      rintro ⟨p, q, hp, hq, h⟩
      obtain rfl := List.prefix_nil.mp hp
      obtain rfl := List.prefix_nil.mp hq
      exact ⟨[], List.nil_prefix, by simpa using h⟩
    rw [hops, killed_cons, killed_cons, exec_fputs_catalog, exec_fflush_catalog, Option.map_some,
      List.nil_append, ih, leaves_outStreams, leaves_outStreams, List.flatMap_cons]
    simp only [prefix_append_iff]
    constructor
    · rintro (h | ⟨p, q, hp, hq, h⟩ | ⟨p, hp, h⟩)
      · obtain ⟨p, hp, h⟩ := hnone h
        exact ⟨p, .inl hp, h⟩
      · obtain rfl := List.prefix_nil.mp hq
        exact ⟨p, .inl hp, by simpa using h⟩
      · exact ⟨_, .inr ⟨p, hp, rfl⟩, by rw [h, List.append_assoc]⟩
    · rintro ⟨p, hp | ⟨q, hq, rfl⟩, h⟩
      · exact .inr (.inl ⟨p, [], hp, List.nil_prefix, by simpa using h⟩)
      · exact .inr (.inr ⟨q, hq, by rw [h, List.append_assoc]⟩)

theorem killed_padOps : Killed (padOps listing) (outStreams ⟨some listing, some []⟩ [] []) file ↔
    ∃ p, p <+: padEachLine listing ∧ filesOf file = ⟨some listing, some p⟩ := by
  rw [padOps, killed_cons, killed_cons, killed_cons, killed_fputs, ← List.flatMap_def,
    ← padEachLine]
  simp only [exec_fflush_catalog, exec_fflush_temp, exec_fputs_temp, leaves_outStreams,
    List.prefix_nil, exists_eq_left, exists_and_left, Option.map_some, List.nil_append,
    List.append_nil, or_self_left]
  exact or_iff_right_of_imp fun h => ⟨[], List.nil_prefix, h⟩

theorem killed_finishOps (temp : Option Bytes) :
    Killed (finishOps calls listing).2
        (outStreams ⟨some listing, fopenW calls.opensTemp temp⟩ [] []) file ↔
      filesOf file = ⟨some listing, fopenW calls.opensTemp temp⟩ ∨
      (calls.opensTemp = true ∧ ∃ p, p <+: padEachLine listing ∧ filesOf file = ⟨some listing, some p⟩) ∨
      (calls.opensTemp = true ∧ calls.renames = true ∧
        filesOf file = ⟨some (padEachLine listing), none⟩) := by
  have hclosed : padOps listing ++ [FileOp.fflush .catalog, .fflush .temp] =
      padOps listing ++ [FileOp.fflush .catalog] ++ [FileOp.fflush .temp] := by
    rw [List.append_assoc, List.cons_append, List.nil_append]
  cases htemp : calls.opensTemp with
  | false =>
    rw [finishOps, if_pos (by simp [htemp]), ← List.nil_append [FileOp.fflush OutFile.catalog],
      killed_concat_fflush, killed_nil, leaves_outStreams]
    simp
  | true =>
    have hempty : filesOf file = ⟨some listing, some []⟩ →
        ∃ p, p <+: padEachLine listing ∧ filesOf file = ⟨some listing, some p⟩ :=
      fun h => ⟨[], List.nil_prefix, h⟩
    rw [finishOps, if_neg (by simp [htemp]), fopenW, if_pos rfl]
    cases hren : calls.renames with
    | false =>
      rw [if_pos (by simp), hclosed, killed_concat_fflush, killed_concat_fflush, killed_padOps]
      simpa using hempty
    | true =>
      rw [if_neg (by simp), killed_concat, hclosed, killed_concat_fflush, killed_concat_fflush,
        killed_padOps]
      simp only [runOps_append, runOps_padOps, runOps_cons, runOps_nil, exec_fflush_catalog,
        exec_fflush_temp, exec_rename, leaves_outStreams, true_and]
      rw [← or_assoc, or_iff_right_of_imp hempty]
      simp

theorem killed_ops {recs : List Record} (hopens : calls.opensCatalog = true) :
    Killed (openOps calls ++ listOps recs ++ (finishOps calls (recs.flatMap Record.text)).2)
        (outStreams files [] []) file ↔
      Moment calls files (recs.flatMap Record.text) (filesOf file) := by
  rw [killed_append, killed_append, runOps_append, runOps_openOps, killed_openOps, hopens, fopenW,
    if_pos rfl, killed_listOps, runOps_listOps, List.nil_append, killed_finishOps]
  constructor
  · rintro (((h | h | h) | ⟨p, hp, h⟩) | h | ⟨htemp, p, hp, h⟩ | ⟨htemp, hren, h⟩) <;> rw [h]
    · exact .before
    · exact .emptied hopens
    · exact .listed hopens List.nil_prefix
    · exact .listed hopens hp
    · exact .listed hopens List.prefix_rfl
    · exact .padded hopens htemp hp
    · exact .renamed hopens htemp hren
  · intro h
    generalize hfiles : filesOf file = files' at h
    cases h with
    | before => exact .inl (.inl (.inl rfl))
    | notOpened hnot => rw [hopens] at hnot; cases hnot
    | emptied => exact .inl (.inl (.inr (.inl rfl)))
    | listed _ hp => exact .inl (.inr ⟨_, hp, rfl⟩)
    | padded _ htemp hp => exact .inr (.inr (.inl ⟨htemp, _, hp, rfl⟩))
    | renamed _ htemp hren => exact .inr (.inr (.inr ⟨htemp, hren, rfl⟩))

theorem killed_openOps_of_not_opens (hopens : calls.opensCatalog = false) :
    Killed (openOps calls) (outStreams files [] []) file ↔ Moment calls files listing (filesOf file) := by
  rw [killed_openOps, hopens, fopenW, if_neg (by simp)]
  constructor
  · rintro (h | h | h) <;> rw [h]
    · exact .before
    · exact .before
    · exact .notOpened hopens
  · intro h
    generalize hfiles : filesOf file = files' at h
    cases h with
    | before => exact .inl rfl
    | notOpened => exact .inr (.inr rfl)
    | emptied h => rw [hopens] at h; cases h
    | listed h => rw [hopens] at h; cases h
    | padded h => rw [hopens] at h; cases h
    | renamed h => rw [hopens] at h; cases h

end Moments

/-- What a run that is killed somewhere can leave of its two files, when its messages can be printed:
the catalog file as it was, the start of the listing without padding, or at last the complete padded
one, which until then grows under the other name. -/
theorem leavesKilled_iff {host : Host} {calls : Calls} {argv : List Bytes} {inputDir : Bytes} {T : Tree}
    {fails : List FileName → Bool} (hargs : checkArguments calls argv = some inputDir)
    (hmessages : fitsMessages calls argv = true) (hshows : host.Shows inputDir T fails)
    (hspeaks : ∀ cs, T.Reached fails cs → fails cs = true →
      Reportable (scandirError ++ (inputDir ++ pathString cs))) (files files' : Files) :
    LeavesKilled host calls argv files files' ↔
      Moment calls files ((T.records fails).flatMap Record.text) files' := by
  have hwrites : ∀ recs, WritesReporting host inputDir recs ↔ recs = T.records fails := fun recs =>
    (writesReporting_iff (ne_nil_of_checkArguments hargs) hshows).trans
      ⟨fun h => h.1, fun h => ⟨h, hspeaks⟩⟩
  cases hopens : calls.opensCatalog with
  | false =>
    have hops : ∀ fuel, generateCatalogOps host calls argv fuel = some (.failure, openOps calls) := by
      intro fuel
      simp [generateCatalogOps, hargs, hmessages, hopens]
    constructor
    · rintro ⟨fuel, ending, ops, file, hrun, hkilled, rfl⟩
      rw [hops] at hrun
      obtain ⟨-, rfl⟩ := Prod.mk.inj (Option.some.inj hrun)
      exact (killed_openOps_of_not_opens hopens).mp hkilled
    · intro h
      exact ⟨0, _, _, (outStreams files' [] []).file, hops 0,
        (killed_openOps_of_not_opens hopens).mpr h, rfl⟩
  | true =>
    have hops : ∀ fuel, generateCatalogOps host calls argv fuel =
        (catalogListingReporting host inputDir fuel).map fun recs =>
          ((finishOps calls (recs.flatMap Record.text)).1,
            openOps calls ++ listOps recs ++ (finishOps calls (recs.flatMap Record.text)).2) := by
      intro fuel
      cases hlist : catalogListingReporting host inputDir fuel <;>
        simp [generateCatalogOps, hargs, hmessages, hopens, hlist]
    constructor
    · rintro ⟨fuel, ending, ops, file, hrun, hkilled, rfl⟩
      rw [hops, Option.map_eq_some_iff] at hrun
      obtain ⟨recs, hlist, hrun⟩ := hrun
      obtain ⟨-, rfl⟩ := Prod.mk.inj hrun
      rw [← (hwrites recs).mp ⟨fuel, hlist⟩]
      exact (killed_ops hopens).mp hkilled
    · intro h
      obtain ⟨fuel, hlist⟩ := (hwrites _).mpr rfl
      refine ⟨fuel, (finishOps calls ((T.records fails).flatMap Record.text)).1,
        openOps calls ++ listOps (T.records fails) ++
          (finishOps calls ((T.records fails).flatMap Record.text)).2,
        (outStreams files' [] []).file, ?_, (killed_ops hopens).mpr h, rfl⟩
      rw [hops, hlist, Option.map_some]

/-- The run is killed in the middle of the second record. -/
theorem leavesKilled_iff_renameFails :
    LeavesKilled (treeHost [ch 'r'] smallTree noFailure) renameFails [[ch 'r'], [ch 'c']]
        ⟨some [ch 'x'], none⟩
        ⟨some (((smallTree.records noFailure).flatMap Record.text).take 40), some []⟩ := by
  have hargs : checkArguments renameFails [[ch 'r'], [ch 'c']] = some [ch 'r'] := by decide
  exact (leavesKilled_iff hargs (by decide) (treeHost_shows [ch 'r'] smallTree noFailure)
    (by simp [noFailure]) _ _).mpr (.listed rfl (List.take_prefix _ _))

end CatalogFS
