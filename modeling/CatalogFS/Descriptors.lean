import CatalogFS.LiveReplacement

namespace CatalogFS

open CLib

/-- The `lseek` or the `read` of a call of `getEntry_from_catalog` for this location fails. To an offset
that is negative as an `int`, every `lseek` does. -/
def Probe.fails (g : Globals) (p : Probe) (location : ℤ) : Bool :=
  p.seekFails || toInt (g.entrySize * location) < 0 || p.readFails

/-- The number of failing reads among those of these locations, the first of which meets the probe
`i`. -/
def failures (g : Globals) (probes : ℕ → Probe) : ℕ → List ℤ → ℕ
  | _, [] => 0
  | i, l :: reads => (if (probes i).fails g l then 1 else 0) + failures g probes (i + 1) reads

/-- Whenever the computation ends, it has left one descriptor open for each of its failing reads. -/
def LeavesOpen {α : Type} (g : Globals) (probes : ℕ → Probe) (x : M α) : Prop :=
  ∀ w a w', x probes w = some (a, w') → ∃ reads, w'.probes = w.probes + reads.length ∧
    w'.locations = w.locations ++ reads ∧ w'.openFds = w.openFds + failures g probes w.probes reads

def Returned (g : Globals) (probes : ℕ → Probe) (w w' : World) : Prop :=
  ∃ filler c r, perform filler g c probes w = some (r, w')

def Unfailing (g : Globals) (probes : ℕ → Probe) (w w' : World) : Prop :=
  ∀ k l, (w'.locations.drop w.locations.length)[k]? = some l → (probes (w.probes + k)).fails g l = false

variable {g : Globals} {probes : ℕ → Probe}

theorem failures_append (i : ℕ) (reads reads' : List ℤ) :
    failures g probes i (reads ++ reads') =
      failures g probes i reads + failures g probes (i + reads.length) reads' := by
  induction reads generalizing i with
  | nil => simp [failures]
  | cons l reads ih =>
    have hlen : i + 1 + reads.length = i + (l :: reads).length := by
      rw [List.length_cons]
      omega
    rw [List.cons_append, failures, failures, ih, hlen, Nat.add_assoc]

theorem failures_eq_zero_iff (i : ℕ) (reads : List ℤ) :
    failures g probes i reads = 0 ↔
      ∀ k l, reads[k]? = some l → (probes (i + k)).fails g l = false := by
  induction reads generalizing i with
  | nil => simp [failures]
  | cons l reads ih =>
    rw [failures, Nat.add_eq_zero_iff, ih]
    constructor
    · rintro ⟨hl, hrest⟩ k l' hk
      cases k with
      | zero =>
        obtain rfl : l = l' := by simpa using hk
        simpa using hl
      | succ k =>
        have h := hrest k l' (by simpa using hk)
        rwa [Nat.add_right_comm] at h
    · intro h
      refine ⟨by simpa using h 0 l rfl, fun k l' hk => ?_⟩
      have h' := h (k + 1) l' (by simpa using hk)
      rwa [← Nat.add_assoc, Nat.add_right_comm] at h'

section Rules

variable {α β : Type}

theorem leavesOpen_pure (a : α) : LeavesOpen g probes (pure a) := by
  rintro w _ _ ⟨⟩
  exact ⟨[], rfl, (List.append_nil _).symm, rfl⟩

theorem leavesOpen_failure : LeavesOpen g probes (failure : M α) := by
  rintro w a w' ⟨⟩

theorem leavesOpen_exhausted {P : Prop} [Decidable P] (a : α) :
    LeavesOpen g probes (if P then failure else return a) := by
  split_ifs
  · exact leavesOpen_failure
  · exact leavesOpen_pure a

theorem LeavesOpen.bind {x : M α} {f : α → M β} (hx : LeavesOpen g probes x)
    (hf : ∀ a, LeavesOpen g probes (f a)) : LeavesOpen g probes (x >>= f) := by
  intro w b w'' h
  change (x probes w).bind (fun p => f p.1 probes p.2) = _ at h
  obtain ⟨⟨a, w'⟩, hxw, hfw⟩ := Option.bind_eq_some_iff.mp h
  obtain ⟨reads, hprobes, hlocations, hfds⟩ := hx w a w' hxw
  obtain ⟨reads', hprobes', hlocations', hfds'⟩ := hf a w' b w'' hfw
  refine ⟨reads ++ reads', ?_, ?_, ?_⟩
  · rw [hprobes', hprobes, List.length_append, Nat.add_assoc]
  · rw [hlocations', hlocations, List.append_assoc]
  · rw [hfds', hfds, hprobes, failures_append, Nat.add_assoc]

/-- Both early returns skip the `close`. -/
theorem leavesOpen_getEntryFromCatalog (l : ℤ) : LeavesOpen g probes (getEntryFromCatalog g l) := by
  intro w a w' h
  refine ⟨[l], ?_⟩
  simp only [getEntryFromCatalog] at h
  split at h
  · cases h
  · simp only [failures, Probe.fails]
    split_ifs at h with hseek hread
    · cases h
      exact ⟨rfl, rfl, by simp [hseek]⟩
    · cases h
      exact ⟨rfl, rfl, by simp [hread]⟩
    · cases h
      exact ⟨rfl, rfl, by simp [hseek, hread]⟩

theorem leavesOpen_getEntryDepthFilepath (l : ℤ) :
    LeavesOpen g probes (getEntryDepthFilepath g l) := by
  apply (leavesOpen_getEntryFromCatalog l).bind
  rintro (_ | st) <;> exact leavesOpen_pure _

theorem leavesOpen_getEntryFilepath (l : ℤ) : LeavesOpen g probes (getEntryFilepath g l) := by
  apply (leavesOpen_getEntryDepthFilepath l).bind
  rintro (_ | ⟨depth, filePath⟩) <;> exact leavesOpen_pure _

theorem leavesOpen_getattrByLocation (l : ℤ) : LeavesOpen g probes (getattrByLocation g l) := by
  apply (leavesOpen_getEntryFromCatalog l).bind
  rintro (_ | st) <;> exact leavesOpen_pure _

end Rules

section Search

theorem leavesOpen_findIndexLoop (d : ℤ) (n : ℕ) (w : Window) :
    LeavesOpen g probes (findIndexLoop g d n w) := by
  induction n generalizing w with
  | zero => exact leavesOpen_exhausted _
  | succ n ih =>
    rw [findIndexLoop]
    split_ifs
    · apply (leavesOpen_getEntryDepthFilepath _).bind
      rintro (_ | ⟨depth, path⟩)
      · exact leavesOpen_pure _
      dsimp only
      split_ifs
      · exact leavesOpen_pure _
      · exact ih _
      · exact ih _
    · exact leavesOpen_pure _

theorem leavesOpen_findLowestLoop (d low : ℤ) (n : ℕ) (i depth : ℤ) :
    LeavesOpen g probes (findLowestLoop g d low n i depth) := by
  induction n generalizing i depth with
  | zero => exact leavesOpen_exhausted _
  | succ n ih =>
    rw [findLowestLoop]
    split_ifs
    · exact leavesOpen_pure _
    · apply (leavesOpen_getEntryDepthFilepath _).bind
      rintro (_ | ⟨depth, path⟩)
      · exact leavesOpen_pure _
      · exact ih _ _
    · exact leavesOpen_pure _

theorem leavesOpen_findHighestLoop (d high : ℤ) (n : ℕ) (i depth : ℤ) :
    LeavesOpen g probes (findHighestLoop g d high n i depth) := by
  induction n generalizing i depth with
  | zero => exact leavesOpen_exhausted _
  | succ n ih =>
    rw [findHighestLoop]
    split_ifs
    · exact leavesOpen_pure _
    · apply (leavesOpen_getEntryDepthFilepath _).bind
      rintro (_ | ⟨depth, path⟩)
      · exact leavesOpen_pure _
      · exact ih _ _
    · exact leavesOpen_pure _

theorem leavesOpen_searchPathLoop (s : Bytes) (n : ℕ) (low high : ℤ) :
    LeavesOpen g probes (searchPathLoop g s n low high) := by
  induction n generalizing low high with
  | zero => exact leavesOpen_exhausted _
  | succ n ih =>
    rw [searchPathLoop]
    split_ifs
    · apply (leavesOpen_getEntryFilepath _).bind
      rintro (_ | path)
      · exact leavesOpen_pure _
      dsimp only
      split
      · exact leavesOpen_pure _
      · exact ih _ _
      · exact ih _ _
    · exact leavesOpen_pure _

theorem leavesOpen_binSearch (s : Bytes) : LeavesOpen g probes (binSearch g s) := by
  unfold binSearch
  dsimp only
  split_ifs
  · exact leavesOpen_pure _
  apply (leavesOpen_findIndexLoop _ _ _).bind
  rintro (_ | w)
  · exact leavesOpen_pure _
  dsimp only
  split_ifs
  · exact leavesOpen_pure _
  apply LeavesOpen.bind
  · apply (leavesOpen_findLowestLoop _ _ _ _ _).bind
    rintro (_ | ⟨i, depth⟩) <;> exact leavesOpen_pure _
  rintro (_ | w)
  · exact leavesOpen_pure _
  apply LeavesOpen.bind
  · apply (leavesOpen_findHighestLoop _ _ _ _ _).bind
    rintro (_ | ⟨i, depth⟩) <;> exact leavesOpen_pure _
  rintro (_ | w)
  · exact leavesOpen_pure _
  apply (leavesOpen_searchPathLoop _ _ _ _).bind
  intro result
  exact leavesOpen_pure _

theorem leavesOpen_contentsLoop (path : Bytes) (depth : ℤ) (n : ℕ) (i : ℤ) :
    LeavesOpen g probes (contentsLoop g path depth n i) := by
  induction n generalizing i with
  | zero => exact leavesOpen_failure
  | succ n ih =>
    rw [contentsLoop]
    split_ifs
    · exact leavesOpen_pure _
    apply (leavesOpen_getEntryDepthFilepath _).bind
    rintro (_ | ⟨entryDepth, entryFilePath⟩)
    · exact leavesOpen_pure _
    dsimp only
    split_ifs
    · exact leavesOpen_pure _
    · exact ih _

theorem leavesOpen_getDirectoryContents (path : Bytes) :
    LeavesOpen g probes (getDirectoryContents g path) := by
  unfold getDirectoryContents
  split_ifs
  · exact leavesOpen_pure _
  apply (leavesOpen_binSearch _).bind
  intro low
  dsimp only
  split_ifs
  · exact leavesOpen_pure _
  · exact leavesOpen_pure _
  apply (leavesOpen_contentsLoop _ _ _ _).bind
  rintro (_ | i) <;> exact leavesOpen_pure _

end Search

section Operations

theorem leavesOpen_catalogGetattr (path : Bytes) : LeavesOpen g probes (catalogGetattr g path) := by
  unfold catalogGetattr getattrByPath
  apply LeavesOpen.bind
  · apply (leavesOpen_binSearch _).bind
    intro location
    split_ifs
    · exact leavesOpen_pure _
    · exact leavesOpen_getattrByLocation _
  · rintro (_ | st) <;> exact leavesOpen_pure _

/-- An entry whose record cannot be read is skipped, and leaves its descriptors open all the same. -/
theorem leavesOpen_readdirLoop (filler : Filler) (high : ℤ) (n : ℕ) (location : ℤ)
    (buf : List Filled) : LeavesOpen g probes (readdirLoop g filler high n location buf) := by
  induction n generalizing location buf with
  | zero => exact leavesOpen_exhausted _
  | succ n ih =>
    rw [readdirLoop]
    split_ifs
    · apply (leavesOpen_getattrByLocation _).bind
      intro st
      apply (leavesOpen_getEntryFilepath _).bind
      intro pathname
      split
      · dsimp only
        split_ifs
        · exact leavesOpen_pure _
        · exact ih _ _
      · exact ih _ _
    · exact leavesOpen_pure _

theorem leavesOpen_catalogReaddir (filler : Filler) (path : Bytes) :
    LeavesOpen g probes (catalogReaddir g filler path) := by
  unfold catalogReaddir
  apply (leavesOpen_getDirectoryContents _).bind
  rintro (_ | ⟨low, high⟩)
  · exact leavesOpen_pure _
  dsimp only
  split_ifs
  · exact leavesOpen_pure _
  apply (leavesOpen_readdirLoop _ _ _ _ _).bind
  intro buf
  exact leavesOpen_pure _

theorem leavesOpen_catalogReadlink (path buf : Bytes) (size : ℕ) :
    LeavesOpen g probes (catalogReadlink g path buf size) := by
  unfold catalogReadlink
  apply (leavesOpen_binSearch _).bind
  intro location
  split_ifs
  · exact leavesOpen_pure _
  apply (leavesOpen_getEntryFromCatalog _).bind
  rintro (_ | st) <;> exact leavesOpen_pure _

theorem leavesOpen_perform (filler : Filler) (c : Call) : LeavesOpen g probes (perform filler g c) := by
  cases c with
  | getattr path => exact (leavesOpen_catalogGetattr path).bind fun _ => leavesOpen_pure _
  | readdir path => exact (leavesOpen_catalogReaddir filler path).bind fun _ => leavesOpen_pure _
  | readlink path buf size =>
    exact (leavesOpen_catalogReadlink path buf size).bind fun _ => leavesOpen_pure _

/-- A call that returns has closed what it opened exactly when none of its reads has failed. -/
theorem Returned.openFds_iff {w w' : World} (h : Returned g probes w w') :
    w'.openFds = w.openFds ↔ Unfailing g probes w w' := by
  obtain ⟨filler, c, r, hr⟩ := h
  obtain ⟨reads, -, hlocations, hfds⟩ := leavesOpen_perform filler c w r w' hr
  have hdrop : w'.locations.drop w.locations.length = reads := by rw [hlocations, List.drop_left]
  rw [Unfailing, hdrop, ← failures_eq_zero_iff, hfds]
  omega

end Operations

/-- In every sequence of calls, each call that returns leaves the number of open descriptors as it was
exactly when no `lseek` and no `read` fails in it. -/
theorem openFds_unchanged_iff {w₀ : World} {ws : List World}
    (h : (w₀ :: ws).IsChain (Returned g probes)) :
    (w₀ :: ws).IsChain (fun w w' => w'.openFds = w.openFds) ↔
      (w₀ :: ws).IsChain (Unfailing g probes) := by
  rw [List.isChain_iff_getElem] at h ⊢
  rw [List.isChain_iff_getElem]
  exact forall₂_congr fun i hi => (h i hi).openFds_iff

theorem returned_getattr_rootRecords :
    Returned (geometry (catalogFile rootRecords)) (steady (catalogFile rootRecords)) ⟨0, 0, []⟩
      ⟨3, 0, [0, 0, 0]⟩ :=
  ⟨roomy, .getattr [slash], .attr 0 rootRecords[0].entry.st, by decide⟩

theorem openFds_unchanged_iff_rootRecords :
    [⟨0, 0, []⟩, ⟨3, 0, [0, 0, 0]⟩].IsChain fun w w' : World => w'.openFds = w.openFds := by
  apply (openFds_unchanged_iff (List.isChain_pair.mpr returned_getattr_rootRecords)).mpr
  apply List.isChain_pair.mpr
  intro k l hl
  obtain rfl : l = 0 := by simpa using List.mem_of_getElem? hl
  rfl

def unreadable (file : Bytes) : ℕ → Probe := fun i => { steady file i with readFails := true }

/-- When the first `read` fails, the call returns an error and leaves its descriptor open. -/
theorem not_openFds_unchanged_unreadable :
    ¬ ∀ (g : Globals) (probes : ℕ → Probe) (w₀ : World) (ws : List World),
      (w₀ :: ws).IsChain (Returned g probes) →
        (w₀ :: ws).IsChain fun w w' => w'.openFds = w.openFds := by
  intro h
  have hcall : Returned (geometry (catalogFile rootRecords)) (unreadable (catalogFile rootRecords))
      ⟨0, 0, []⟩ ⟨1, 1, [0]⟩ :=
    ⟨roomy, .getattr [slash], .attr (-ENOENT) Stat.zero, by decide⟩
  have hchain := h _ _ _ _ (List.isChain_pair.mpr hcall)
  cases List.isChain_pair.mp hchain

end CatalogFS
