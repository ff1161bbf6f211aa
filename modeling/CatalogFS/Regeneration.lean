import CatalogFS.Completeness

namespace CatalogFS

open CLib

/-- The contents of the two files a run writes; `none` where there is no file. -/
structure Files where
  catalog : Option Bytes
  temp : Option Bytes
  deriving DecidableEq

structure Calls where
  /-- What `stat` tells of `input_dir`; `none` when it fails. -/
  statDir : Option Stat
  opensCatalog : Bool
  opensTemp : Bool
  renames : Bool

inductive Ending
  | success
  | failure
  | crash
  deriving DecidableEq

/-- The checks of `main` on its arguments and on the directory: `input_dir`, or `none` when it
exits. -/
def checkArguments (calls : Calls) (argv : List Bytes) : Option Bytes :=
  match argv with
  | [inputDir, catalogName] =>
    if inputDir.length = 0 ∨ catalogName.length = 0 then none
    else
      match calls.statDir with
      | none => none
      | some buf => if buf.stMode &&& 0o170000 = 0o040000 then some inputDir else none
  | _ => none

def fopenW (opens : Bool) (file : Option Bytes) : Option Bytes := if opens then some [] else file

/-- `main` from the arguments behind the program's name to the exit, with at most `fuel` iterations
of the loop of `catalog_listing`. The messages that are put into `errormsg[256]` on the way have to
fit: `input_dir` has at most 209 bytes, and the catalog's name, which stands in one of them twice, at
most 107. -/
def generateCatalogMain (host : Host) (calls : Calls) (argv : List Bytes) (fuel : ℕ) (files : Files) :
    Option (Ending × Files) :=
  match checkArguments calls argv with
  | none => some (.failure, files)
  | some inputDir =>
    let files := { files with catalog := fopenW calls.opensCatalog files.catalog }
    let files := { files with temp := fopenW calls.opensTemp files.temp }
    -- the first stream is looked at after the second file has been opened, the second one never
    if !calls.opensCatalog then some (.failure, files)
    else do
      let recs ← catalogListing host inputDir fuel
      let listing := recs.flatMap Record.text
      let files := { files with catalog := some listing }
      -- `fseek` on a null stream in `pad_each_line`
      if !calls.opensTemp then return (.crash, files)
      else
        let files := { files with temp := some (padEachLine listing) }
        if !calls.renames then return (.failure, files)
        else return (.success, { catalog := files.temp, temp := none })

def Ends (host : Host) (calls : Calls) (argv : List Bytes) (files : Files) (ending : Ending)
    (files' : Files) : Prop :=
  ∃ fuel, generateCatalogMain host calls argv fuel files = some (ending, files')

def Calls.Opened (calls : Calls) (argv : List Bytes) : Prop :=
  (checkArguments calls argv).isSome ∧ calls.opensCatalog = true

/-- A run that does not reach its success message leaves the old content, one that does leaves a
complete padded listing. -/
def OldOrComplete (host : Host) (calls : Calls) (argv : List Bytes) : Prop :=
  ∀ files ending files', Ends host calls argv files ending files' →
    if ending = .success then
      ∃ inputDir recs, checkArguments calls argv = some inputDir ∧ Writes host inputDir recs ∧
        files'.catalog = some (catalogFile recs)
    else files'.catalog = files.catalog

section Run

variable {host : Host} {calls : Calls} {argv : List Bytes} {files files' : Files} {ending : Ending}
  {inputDir : Bytes} {T : Tree} {fails : List FileName → Bool}

theorem ne_nil_of_checkArguments (h : checkArguments calls argv = some inputDir) :
    inputDir ≠ [] := by
  unfold checkArguments at h
  split at h
  · split_ifs at h with hempty
    split at h
    · cases h
    · split_ifs at h
      obtain rfl := Option.some.inj h
      intro hnil
      exact hempty (.inl (List.length_eq_zero_iff.mpr hnil))
  · cases h

theorem ends_of_not_opened (h : ¬ calls.Opened argv) :
    ∃ files₀ : Files, files₀.catalog = files.catalog ∧
      ∀ ending files', Ends host calls argv files ending files' ↔
        ending = .failure ∧ files' = files₀ := by
  cases hargs : checkArguments calls argv with
  | none =>
    refine ⟨files, rfl, fun ending files' => ?_⟩
    simp only [Ends, generateCatalogMain, hargs, exists_const, Option.some.injEq, Prod.mk.injEq]
    exact and_congr eq_comm eq_comm
  | some inputDir =>
    have hopens : calls.opensCatalog = false := by
      rw [← Bool.not_eq_true]
      intro hopens
      exact h ⟨by simp [hargs], hopens⟩
    refine ⟨{ files with temp := fopenW calls.opensTemp files.temp }, rfl, fun ending files' => ?_⟩
    simp only [Ends, generateCatalogMain, hargs, hopens, fopenW, Bool.not_false, Bool.false_eq_true,
      if_true, if_false, exists_const, Option.some.injEq, Prod.mk.injEq]
    exact and_congr eq_comm eq_comm

def Calls.outcome (calls : Calls) (files : Files) (recs : List Record) : Ending × Files :=
  let listing := recs.flatMap Record.text
  if !calls.opensTemp then (.crash, ⟨some listing, files.temp⟩)
  else if !calls.renames then (.failure, ⟨some listing, some (catalogFile recs)⟩)
  else (.success, ⟨some (catalogFile recs), none⟩)

/-- A run that has opened the catalog file ends with a complete listing, in one of three ways. -/
theorem ends_iff_of_opened (hopens : calls.opensCatalog = true)
    (hargs : checkArguments calls argv = some inputDir) (hshows : host.Shows inputDir T fails) :
    Ends host calls argv files ending files' ↔
      (ending, files') = calls.outcome files (T.records fails) := by
  have hmain : ∀ fuel, generateCatalogMain host calls argv fuel files =
      (catalogListing host inputDir fuel).map (calls.outcome files) := by
    intro fuel
    cases hlist : catalogListing host inputDir fuel with
    | none => simp [generateCatalogMain, hargs, hopens, hlist]
    | some recs =>
      cases htemp : calls.opensTemp <;> cases hren : calls.renames <;>
        simp [generateCatalogMain, Calls.outcome, hargs, hopens, hlist, htemp, hren, fopenW,
          catalogFile]
  have hwrites : ∀ recs, Writes host inputDir recs ↔ recs = T.records fails :=
    fun _ => writes_iff hshows (ne_nil_of_checkArguments hargs)
  simp only [Ends, hmain, Option.map_eq_some_iff]
  constructor
  · rintro ⟨fuel, recs, hrecs, hout⟩
    rw [← hout, (hwrites recs).mp ⟨fuel, hrecs⟩]
  · intro h
    obtain ⟨fuel, hfuel⟩ := (hwrites _).mpr rfl
    exact ⟨fuel, _, hfuel, h.symm⟩

end Run

/-- How a run leaves the catalog file. It ends. If it has not opened the file, the content is the old
one. If it reaches its success message, the content is the complete padded listing. With both files
open it does so exactly when the renaming succeeds; if that fails, the complete listing stands there
without padding, and the padded one in the other file. -/
theorem regeneration_outcome {host : Host} {calls : Calls} {argv : List Bytes} {T : Tree}
    {fails : List FileName → Bool}
    (hshows : ∀ inputDir, checkArguments calls argv = some inputDir → host.Shows inputDir T fails)
    (files : Files) :
    (∃ ending files', Ends host calls argv files ending files') ∧
    ∀ ending files', Ends host calls argv files ending files' →
      (¬ calls.Opened argv → ending = .failure ∧ files'.catalog = files.catalog) ∧
      (ending = .success → files'.catalog = some (catalogFile (T.records fails))) ∧
      (calls.Opened argv → calls.opensTemp →
        (ending = .success ↔ calls.renames) ∧
        (ending ≠ .success →
          files'.catalog = some ((T.records fails).flatMap Record.text) ∧
          files'.temp = some (catalogFile (T.records fails)))) := by
  by_cases hopened : calls.Opened argv
  · obtain ⟨inputDir, hargs⟩ := Option.isSome_iff_exists.mp hopened.1
    have hends : ∀ ending files', Ends host calls argv files ending files' ↔
        (ending, files') = calls.outcome files (T.records fails) := by
      intro ending files'
      exact ends_iff_of_opened hopened.2 hargs (hshows inputDir hargs)
    refine ⟨⟨_, _, (hends _ _).mpr rfl⟩, ?_⟩
    intro ending files' h
    have hout := (hends _ _).mp h
    cases htemp : calls.opensTemp <;> cases hren : calls.renames <;>
      simp only [Calls.outcome, htemp, hren, Bool.not_true, Bool.not_false, Bool.false_eq_true,
        if_true, if_false, Prod.mk.injEq] at hout <;>
      obtain ⟨rfl, rfl⟩ := hout <;> simp [hopened]
  · obtain ⟨files₀, hcatalog, hends⟩ := @ends_of_not_opened host calls argv files hopened
    refine ⟨⟨_, _, (hends _ _).mpr ⟨rfl, rfl⟩⟩, ?_⟩
    intro ending files' h
    obtain ⟨rfl, rfl⟩ := (hends _ _).mp h
    simp [hopened, hcatalog]

def renameFails : Calls where
  statDir := some { Stat.zero with stMode := 0o040755 }
  opensCatalog := true
  opensTemp := true
  renames := false

theorem regeneration_outcome_renameFails :
    ∃ ending files', Ends (treeHost [ch 'r'] smallTree noFailure) renameFails [[ch 'r'], [ch 'c']]
        ⟨some [ch 'x'], none⟩ ending files' ∧ ending ≠ .success ∧
      files'.catalog = some ((smallTree.records noFailure).flatMap Record.text) := by
  have hargs : checkArguments renameFails [[ch 'r'], [ch 'c']] = some [ch 'r'] := by decide
  have hshows : ∀ inputDir, checkArguments renameFails [[ch 'r'], [ch 'c']] = some inputDir →
      (treeHost [ch 'r'] smallTree noFailure).Shows inputDir smallTree noFailure := by
    intro inputDir hdir
    obtain rfl := Option.some.inj (hargs.symm.trans hdir)
    exact treeHost_shows [ch 'r'] smallTree noFailure
  obtain ⟨⟨ending, files', h⟩, hall⟩ := regeneration_outcome hshows ⟨some [ch 'x'], none⟩
  obtain ⟨-, -, hopened⟩ := hall ending files' h
  obtain ⟨hsuccess, hfailure⟩ := hopened ⟨by rw [hargs]; rfl, rfl⟩ rfl
  have hne : ending ≠ .success := by
    intro hend
    cases hsuccess.mp hend
  exact ⟨ending, files', h, hne, (hfailure hne).1⟩

/-- When the renaming fails, the old content is gone. -/
theorem not_oldOrComplete_renameFails :
    ¬ OldOrComplete (treeHost [ch 'r'] smallTree noFailure) renameFails [[ch 'r'], [ch 'c']] := by
  intro h
  have hend : Ends (treeHost [ch 'r'] smallTree noFailure) renameFails [[ch 'r'], [ch 'c']]
      ⟨some [ch 'x'], none⟩ _ _ :=
    (ends_iff_of_opened rfl (by decide) (treeHost_shows [ch 'r'] smallTree noFailure)).mpr rfl
  have hold := h _ _ _ hend
  rw [if_neg (by decide)] at hold
  have hroot : nodeRecord (dirPath []) smallTree.root ∈ smallTree.records noFailure :=
    mem_records_iff.mpr (.inl ⟨[], _, _, .root, rfl, rfl⟩)
  have hmem : newline ∈ (smallTree.records noFailure).flatMap Record.text :=
    List.mem_flatMap.mpr ⟨_, hroot, by simp [Record.text]⟩
  rw [Option.some.inj hold] at hmem
  exact absurd hmem (by decide)

end CatalogFS
