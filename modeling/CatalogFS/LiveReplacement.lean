import CatalogFS.Lookup
import CatalogFS.RecordFormat

namespace CatalogFS

open CLib

inductive Call
  | getattr (path : Bytes)
  | readdir (path : Bytes)
  | readlink (path buf : Bytes) (size : ℕ)
  deriving DecidableEq

/-- What a call returns, with what it leaves in its out-parameter. -/
inductive Reply
  | attr (res : ℤ) (st : Stat)
  | entries (res : ℤ) (filled : List Filled)
  | link (res : ℤ) (buf : Bytes)
  deriving DecidableEq

def perform (filler : Filler) (g : Globals) : Call → M Reply
  | .getattr path => do
    let (res, st) ← catalogGetattr g path
    return .attr res st
  | .readdir path => do
    let (res, filled) ← catalogReaddir g filler path
    return .entries res filled
  | .readlink path buf size => do
    let (res, buf) ← catalogReadlink g path buf size
    return .link res buf

section Runs

variable (filler : Filler)

/-- The call can return this while the file can be read and has this content. -/
def CanReturn (g : Globals) (file : Bytes) (c : Call) (r : Reply) : Prop :=
  ∃ probes w, Serves probes file ∧ perform filler g c probes ⟨0, 0, []⟩ = some (r, w)

structure Mount where
  g : Globals
  file : Bytes

def mount (file : Bytes) : Mount := ⟨geometry file, file⟩

inductive Event
  | call (c : Call) (r : Reply)
  | replace (file : Bytes)
  deriving DecidableEq

inductive Run : Mount → List Event → Mount → Prop
  | nil (m : Mount) : Run m [] m
  | call {m m' : Mount} {c : Call} {r : Reply} {trace : List Event} :
      CanReturn filler m.g m.file c r → Run m trace m' → Run m (.call c r :: trace) m'
  | replace {m m' : Mount} {file : Bytes} {trace : List Event} :
      Run { m with file } trace m' → Run m (.replace file :: trace) m'

end Runs

variable {filler : Filler}

/-- A catalog in the order of the search whose links all tell their targets. -/
def WellFormed (file : Bytes) : Prop :=
  ∃ es, IsCatalog (geometry file) file es ∧ AscendingCatalog es ∧ ∀ e ∈ es, e.target.isSome

/-- On a well-formed catalog every call returns, and what it returns does not depend on the state
or the memory of the process. -/
theorem exists_reply {g : Globals} {file : Bytes} {es : List Entry} (hcat : Readable g file es)
    (hasc : AscendingCatalog es) (htargets : ∀ e ∈ es, e.target.isSome) (c : Call) :
    ∃ r, ∀ probes, Serves probes file → Returns probes (perform filler g c) r := by
  have hsorted := hasc.depthSorted
  cases c with
  | getattr path =>
    rcases locate_cases hsorted path with hl | ⟨k, e, hl, he, -⟩
    · exact ⟨_, fun _ hserves =>
        (returns_catalogGetattr_of_neg hserves hcat hsorted hl).bind (returns_pure _)⟩
    · exact ⟨_, fun _ hserves =>
        (returns_catalogGetattr hserves hcat hsorted hl he).bind (returns_pure _)⟩
  | readdir path =>
    rcases locate_cases hsorted (withSlash path) with hl | ⟨k, e, hl, he, -⟩
    · exact ⟨_, fun _ hserves =>
        (returns_catalogReaddir_of_neg hserves hcat hsorted filler hl).bind (returns_pure _)⟩
    · exact ⟨_, fun _ hserves => (returns_catalogReaddir_fill hserves hcat hsorted filler hl
        (List.getElem?_eq_some_iff.mp he).1).bind (returns_pure _)⟩
  | readlink path buf size =>
    rcases locate_cases hsorted path with hl | ⟨k, e, hl, he, -⟩
    · exact ⟨_, fun _ hserves =>
        (returns_catalogReadlink_of_neg hserves hcat hsorted hl buf size).bind (returns_pure _)⟩
    · obtain ⟨t, ht⟩ := Option.isSome_iff_exists.mp (htargets e (List.mem_of_getElem? he))
      exact ⟨_, fun _ hserves =>
        (returns_catalogReadlink hserves hcat hsorted hl he ht buf size).bind (returns_pure _)⟩

/-- What the call returns on a file system freshly mounted on the file; on a well-formed catalog
it can return nothing else. -/
def FreshReply (filler : Filler) (file : Bytes) (c : Call) (r : Reply) : Prop :=
  CanReturn filler (mount file).g (mount file).file c r ∧
    (WellFormed file → ∀ probes, Serves probes file →
      Returns probes (perform filler (geometry file) c) r)

theorem freshReply_of_canReturn {file : Bytes} {c : Call} {r : Reply}
    (h : CanReturn filler (geometry file) file c r) : FreshReply filler file c r := by
  refine ⟨h, fun ⟨es, hcat, hasc, htargets⟩ => ?_⟩
  obtain ⟨r', hr'⟩ := exists_reply hcat.readable hasc htargets c
  obtain ⟨probes, w, hserves, hw⟩ := h
  obtain ⟨w', hw'⟩ := hr' probes hserves ⟨0, 0, []⟩
  obtain rfl : r = r' := by
    rw [hw] at hw'
    exact congrArg Prod.fst (Option.some.inj hw')
  exact hr'

/-- Every reply in the trace is what a file system freshly mounted on the content of the moment
returns. -/
def Agrees (filler : Filler) : Bytes → List Event → Prop
  | _, [] => True
  | file, .call c r :: trace => FreshReply filler file c r ∧ Agrees filler file trace
  | _, .replace file :: trace => Agrees filler file trace

/-- As long as the geometry of the mount is that of the content, every reply is that of a fresh
mount. -/
theorem Run.agrees {m₀ m : Mount} {trace : List Event} (hrun : Run filler m₀ trace m)
    (hg : m₀.g = geometry m₀.file) (h : ∀ file, .replace file ∈ trace → geometry file = m₀.g) :
    Agrees filler m₀.file trace := by
  induction hrun with
  | nil m => trivial
  | call hcall _ ih =>
    refine ⟨freshReply_of_canReturn (hg ▸ hcall), ih hg fun f hf => ?_⟩
    exact h f (List.mem_cons_of_mem _ hf)
  | replace _ ih =>
    exact ih (h _ List.mem_cons_self).symm fun f hf => h f (List.mem_cons_of_mem _ hf)

/-- In every run in which the catalog is replaced only by ones with as many lines of the same width,
every reply is that of a file system freshly mounted on the content of the moment. -/
theorem agrees_of_same_geometry {file : Bytes} {trace : List Event} {m : Mount}
    (hrun : Run filler (mount file) trace m)
    (hgeom : ∀ file', .replace file' ∈ trace → geometry file' = geometry file) :
    Agrees filler file trace :=
  hrun.agrees rfl hgeom

theorem strictCatalog_pairRecords : StrictCatalog (pairRecords.map Record.entry) :=
  ⟨by decide, by decide⟩

theorem returns_getattr_pairRecords (filler : Filler) :
    Returns (steady (catalogFile pairRecords))
      (perform filler (geometry (catalogFile pairRecords)) (.getattr [slash, ch 'b']))
      (.attr 0 (smallAttr.stat .reg)) := by
  have hst : (recordOf .reg smallAttr [slash, ch 'b'] []).entry.st = smallAttr.stat .reg :=
    stat_recordOf _ _ _ _
  have hret := returns_catalogGetattr (serves_steady _) isCatalog_pairRecords.readable
    strictCatalog_pairRecords.toAscending.depthSorted (s := [slash, ch 'b']) (k := 1) (by decide) rfl
  rw [hst] at hret
  exact hret.bind (returns_pure _)

def otherRecords : List Record :=
  [recordOf .dir smallAttr [slash] [], recordOf .reg smallAttr [slash, ch 'c'] []]

theorem agrees_of_same_geometry_pair :
    Agrees roomy (catalogFile otherRecords) [.replace (catalogFile pairRecords),
      .call (.getattr [slash, ch 'b']) (.attr 0 (smallAttr.stat .reg))] := by
  have hgeom : geometry (catalogFile pairRecords) = geometry (catalogFile otherRecords) := by decide
  obtain ⟨w, hw⟩ := returns_getattr_pairRecords roomy ⟨0, 0, []⟩
  have hcall : CanReturn roomy (geometry (catalogFile otherRecords)) (catalogFile pairRecords)
      (.getattr [slash, ch 'b']) (.attr 0 (smallAttr.stat .reg)) :=
    hgeom ▸ ⟨_, w, serves_steady _, hw⟩
  refine agrees_of_same_geometry (.replace (.call hcall (.nil _))) fun file' h => ?_
  obtain rfl : file' = catalogFile pairRecords := by simpa using h
  exact hgeom

def rootRecords : List Record := [recordOf .dir { smallAttr with size := 10 } [slash] []]

theorem wellFormed_pairRecords : WellFormed (catalogFile pairRecords) :=
  ⟨_, isCatalog_pairRecords, strictCatalog_pairRecords.toAscending, by decide⟩

theorem wellFormed_rootRecords : WellFormed (catalogFile rootRecords) := by
  refine ⟨_, isCatalog_catalogFile (show rootRecords ≠ [] by decide) (fun r hr => ?_)
    (fun r hr => ?_) (by decide) (by decide), ⟨by decide, by decide⟩, by decide⟩
  · obtain rfl := List.mem_singleton.mp hr
    exact printable_recordOf rfl (by decide) (by decide)
  · obtain rfl := List.mem_singleton.mp hr
    exact ⟨by decide, by decide⟩

/-- A file that only the new catalog has is not there: the mount knows of one line. -/
theorem not_agrees_of_replace :
    ¬ ∀ (A B : Bytes) (before after : List Event) (m : Mount), WellFormed A → WellFormed B →
      (∀ file, .replace file ∉ before ++ after) →
      Run roomy (mount A) (before ++ .replace B :: after) m →
        Agrees roomy A (before ++ .replace B :: after) := by
  intro h
  have hgeom : geometry (catalogFile rootRecords) =
      { geometry (catalogFile pairRecords) with catalogLen := 1 } := by decide
  have hcat := isCatalog_pairRecords.take (n := 1) (by decide)
  rw [← hgeom] at hcat
  have hsorted : DepthSorted ((pairRecords.map Record.entry).take 1) := by
    unfold DepthSorted
    decide
  have hmiss : Returns (steady (catalogFile pairRecords))
      (perform roomy (geometry (catalogFile rootRecords)) (.getattr [slash, ch 'b']))
      (.attr (-ENOENT) Stat.zero) :=
    (returns_catalogGetattr_of_neg (serves_steady _) hcat.readable hsorted (by decide)).bind (returns_pure _)
  obtain ⟨w, hw⟩ := hmiss ⟨0, 0, []⟩
  have hagrees := h (catalogFile rootRecords) (catalogFile pairRecords) []
    [.call (.getattr [slash, ch 'b']) (.attr (-ENOENT) Stat.zero)] _ wellFormed_rootRecords
    wellFormed_pairRecords (by simp) (.replace (.call ⟨_, w, serves_steady _, hw⟩ (.nil _)))
  have hfresh := hagrees.1.2 wellFormed_pairRecords _ (serves_steady _)
  exact absurd (hfresh.unique (returns_getattr_pairRecords roomy)) (by simp [ENOENT])

end CatalogFS
