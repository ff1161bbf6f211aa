import CatalogFS.Lookup

namespace CatalogFS

open CLib

section Strncpy

variable {dest src : Bytes} {n : ℕ}

theorem length_strncpy (h : n ≤ dest.length) : (strncpy dest src n).length = dest.length := by
  simp only [strncpy, List.length_append, List.length_take, List.length_replicate,
    List.length_drop]
  omega

theorem getElem?_strncpy_of_le {i : ℕ} (hi : n ≤ i) : (strncpy dest src n)[i]? = dest[i]? := by
  have hlen : (src.take n ++ List.replicate (n - src.length) (0 : Byte)).length = n := by
    simp only [List.length_append, List.length_take, List.length_replicate]
    omega
  rw [strncpy, List.getElem?_append_right (by omega), hlen, List.getElem?_drop]
  congr 1
  omega

theorem drop_strncpy {m : ℕ} (hm : n ≤ m) : (strncpy dest src n).drop m = dest.drop m := by
  apply List.ext_getElem?
  intro i
  rw [List.getElem?_drop, List.getElem?_drop, getElem?_strncpy_of_le (by omega)]

theorem getElem?_strncpy_length (h : src.length < n) : (strncpy dest src n)[src.length]? = some 0 := by
  rw [strncpy, List.take_of_length_le h.le, List.append_assoc,
    List.getElem?_append_right le_rfl, Nat.sub_self, List.getElem?_append_left (by simpa using h)]
  simp [h]

theorem take_strncpy : (strncpy dest src n).take (min src.length n) = src.take n := by
  rw [strncpy, List.append_assoc, List.take_append_of_le_length (by simp [min_comm]),
    List.take_of_length_le (by simp [min_comm])]

end Strncpy

/-- `buf` holds the beginning of the target that fits with a NUL behind it, and nothing else of the
memory has changed from `size` on. -/
structure HoldsTarget (t buf buf' : Bytes) (size : ℕ) : Prop where
  length_eq : buf'.length = buf.length
  take_eq : buf'.take (min t.length (size - 1)) = t.take (size - 1)
  nul : buf'[min t.length (size - 1)]? = some 0
  drop_eq : buf'.drop size = buf.drop size

def FillsBuffer (probes : ℕ → Probe) (g : Globals) (path buf : Bytes) (size : ℕ) (t : Bytes) : Prop :=
  ∃ buf', Returns probes (catalogReadlink g path buf size) (0, buf') ∧ HoldsTarget t buf buf' size

def Globals.Fits (g : Globals) : Prop :=
  g.catalogLen < 2 ^ 31 ∧ ∀ k < g.catalogLen, g.entrySize * k < 2 ^ 31

theorem Layout.readable {g : Globals} {file : Bytes} {es : List Entry} (h : Layout g file es)
    (hfits : g.Fits) : Readable g file es := ⟨h, hfits.1, hfits.2⟩

/-- After `strncpy` the contract holds exactly when the target is short enough for the padding, or
the byte behind the copied ones is NUL already. -/
theorem holdsTarget_strncpy_iff {t buf : Bytes} {size : ℕ} (h1 : 1 ≤ size) (hsize : size ≤ buf.length) :
    HoldsTarget t buf (strncpy buf t (size - 1)) size ↔
      t.length + 1 < size ∨ buf[size - 1]? = some 0 := by
  have hlen : (strncpy buf t (size - 1)).length = buf.length := length_strncpy (by omega)
  have hdrop : (strncpy buf t (size - 1)).drop size = buf.drop size := drop_strncpy (by omega)
  by_cases hshort : t.length + 1 < size
  · have hmin : min t.length (size - 1) = t.length := min_eq_left (by omega)
    refine ⟨fun _ => .inl hshort, fun _ => ⟨hlen, take_strncpy, ?_, hdrop⟩⟩
    rw [hmin]
    exact getElem?_strncpy_length (by omega)
  · have hmin : min t.length (size - 1) = size - 1 := min_eq_right (by omega)
    have hlast : (strncpy buf t (size - 1))[size - 1]? = buf[size - 1]? :=
      getElem?_strncpy_of_le le_rfl
    constructor
    · intro h
      have hnul := h.nul
      rw [hmin, hlast] at hnul
      exact .inr hnul
    · rintro (h | h)
      · exact absurd h hshort
      · refine ⟨hlen, take_strncpy, ?_, hdrop⟩
        rw [hmin, hlast, h]

section Readlink

variable {probes : ℕ → Probe} {g : Globals} {path buf : Bytes} {size : ℕ}

/-- Whatever is read, a call that succeeds has copied some string with `strncpy`. -/
theorem eq_strncpy_of_returns {buf' : Bytes}
    (h : Returns probes (catalogReadlink g path buf size) (0, buf')) :
    ∃ t, buf' = strncpy buf t (size - 1) := by
  obtain ⟨w', hw'⟩ := h ⟨0, 0, []⟩
  change (binSearch g path probes ⟨0, 0, []⟩).bind _ = _ at hw'
  obtain ⟨⟨location, w₁⟩, -, hw'⟩ := Option.bind_eq_some_iff.mp hw'
  dsimp only at hw'
  split_ifs at hw' with hneg
  · exact absurd (congrArg Prod.fst (congrArg Prod.fst (Option.some.inj hw'))).symm
      zero_ne_neg_ENOENT
  · change (getEntryFromCatalog g location probes w₁).bind _ = _ at hw'
    obtain ⟨⟨st, w₂⟩, -, hw'⟩ := Option.bind_eq_some_iff.mp hw'
    cases st with
    | none =>
      exact absurd (congrArg Prod.fst (congrArg Prod.fst (Option.some.inj hw'))).symm
        zero_ne_neg_ENOENT
    | some st =>
      exact ⟨st.linkDest, (congrArg Prod.snd (congrArg Prod.fst (Option.some.inj hw'))).symm⟩

theorem returns_catalogReadlink_of_relative (h : path.head? ≠ some slash) :
    Returns probes (catalogReadlink g path buf size) (-ENOENT, buf) := by
  have hfind : Returns probes (binSearch g path) (-1) := by
    unfold binSearch
    rw [if_pos (by rw [findDepth_of_head?_ne h]; decide)]
    exact returns_pure _
  apply hfind.bind
  rw [if_pos (by decide)]
  exact returns_pure _

/-- A call that fills the buffer has been given an absolute path, and a target that leaves room or a
buffer that ends in NUL. -/
theorem room_of_fillsBuffer {t : Bytes} (h1 : 1 ≤ size)
    (h : FillsBuffer probes g path buf size t) :
    path.head? = some slash ∧ (t.length + 1 < size ∨ buf[size - 1]? = some 0) := by
  obtain ⟨buf', hret, hholds⟩ := h
  constructor
  · by_contra hhead
    have heq := hret.unique (returns_catalogReadlink_of_relative hhead)
    exact zero_ne_neg_ENOENT (congrArg Prod.fst heq)
  · by_contra hroom
    rw [not_or] at hroom
    -- what was copied ends before the last byte
    obtain ⟨t', rfl⟩ := eq_strncpy_of_returns hret
    have hnul := hholds.nul
    rw [min_eq_right (by omega), getElem?_strncpy_of_le le_rfl] at hnul
    exact hroom.2 hnul

variable {file : Bytes} {es : List Entry}

theorem returns_catalogReadlink_of_mem (hserves : Serves probes file) (hcat : Readable g file es)
    (hstrict : StrictCatalog es) {e : Entry} (he : e ∈ es) (hhead : e.path.head? = some slash)
    {t : Bytes} (ht : e.target = some t) :
    Returns probes (catalogReadlink g e.path buf size) (0, strncpy buf t (size - 1)) := by
  obtain ⟨k, hk⟩ := List.mem_iff_getElem?.mp he
  exact returns_catalogReadlink hserves hcat hstrict.toAscending.depthSorted
    (locate_of_mem hstrict hk (findDepth_pos hhead)) hk ht buf size

end Readlink

/-- Exactly when `readlink` does what is asked of it. For a path that an entry has it leaves the
target in the buffer with a NUL behind it only if the path begins with a slash and the target has
fewer than `size - 1` bytes or the last byte of the buffer is NUL before the call; in a catalog whose
offsets fit, this is enough. For a path that no entry has, it leaves the buffer alone. The strings of
the reader are not bounded here: by `agree_getEntryFromCatalogBounded` a read that overflows no buffer
is the same. -/
theorem catalogReadlink_fillsBuffer_iff {probes : ℕ → Probe} {g : Globals} {file : Bytes}
    {es : List Entry} (hserves : Serves probes file) (hlayout : Layout g file es)
    (hstrict : StrictCatalog es) (path buf : Bytes) (size : ℕ) (h1 : 1 ≤ size)
    (hsize : size ≤ buf.length) :
    (∀ e ∈ es, e.path = path → ∀ t, e.target = some t →
      (FillsBuffer probes g path buf size t →
        path.head? = some slash ∧ (t.length + 1 < size ∨ buf[size - 1]? = some 0)) ∧
      (g.Fits → (FillsBuffer probes g path buf size t ↔
        path.head? = some slash ∧ (t.length + 1 < size ∨ buf[size - 1]? = some 0)))) ∧
    (g.Fits → (∀ e ∈ es, e.path ≠ path) →
      Returns probes (catalogReadlink g path buf size) (-ENOENT, buf)) := by
  constructor
  · rintro e he rfl t ht
    refine ⟨room_of_fillsBuffer h1, fun hfits => ⟨room_of_fillsBuffer h1, ?_⟩⟩
    rintro ⟨hhead, hroom⟩
    exact ⟨_, returns_catalogReadlink_of_mem hserves (hlayout.readable hfits) hstrict he hhead ht,
      (holdsTarget_strncpy_iff h1 hsize).mpr hroom⟩
  · intro hfits hnone
    have hsorted := hstrict.toAscending.depthSorted
    apply returns_catalogReadlink_of_neg hserves (hlayout.readable hfits) hsorted
    apply locate_eq_neg_one hsorted
    rintro ⟨-, e, he, hpath⟩
    exact hnone e he hpath

def linkRecords : List Record :=
  [recordOf .dir smallAttr [slash] [], recordOf .lnk smallAttr [slash, ch 'l'] [ch 'a', ch 'b']]

theorem isCatalog_linkRecords : IsCatalog (geometry (catalogFile linkRecords))
    (catalogFile linkRecords) (linkRecords.map Record.entry) := by
  refine isCatalog_catalogFile (show linkRecords ≠ [] by decide) ?_ ?_ (by decide) (by decide)
  · intro r hr
    fin_cases hr
    · exact printable_recordOf rfl (by decide) (by decide)
    · exact printable_recordOf rfl (by decide) (by decide)
  · intro r hr
    fin_cases hr
    · exact ⟨by decide, by decide⟩
    · exact ⟨by decide, by decide⟩

theorem strictCatalog_linkRecords : StrictCatalog (linkRecords.map Record.entry) :=
  ⟨by decide, by decide⟩

theorem catalogReadlink_fillsBuffer_iff_link :
    FillsBuffer (steady (catalogFile linkRecords)) (geometry (catalogFile linkRecords))
      [slash, ch 'l'] [ch 'x', ch 'x', ch 'x', ch 'x'] 4 [ch 'a', ch 'b'] :=
  (((catalogReadlink_fillsBuffer_iff (serves_steady _) isCatalog_linkRecords.readable.toLayout
    strictCatalog_linkRecords [slash, ch 'l'] [ch 'x', ch 'x', ch 'x', ch 'x'] 4 (by decide)
    (by decide)).1 (recordOf .lnk smallAttr [slash, ch 'l'] [ch 'a', ch 'b']).entry (by decide) rfl _
    rfl).2 ⟨isCatalog_linkRecords.readable.length_lt, isCatalog_linkRecords.readable.offset_lt⟩).mpr
    (by decide)

/-- Two bytes of target in a buffer of three: no NUL behind them. -/
theorem not_fillsBuffer_linkRecords :
    ¬ FillsBuffer (steady (catalogFile linkRecords)) (geometry (catalogFile linkRecords))
      [slash, ch 'l'] [ch 'x', ch 'x', ch 'x'] 3 [ch 'a', ch 'b'] := by
  intro h
  exact absurd (room_of_fillsBuffer (by decide) h) (by decide)

end CatalogFS
