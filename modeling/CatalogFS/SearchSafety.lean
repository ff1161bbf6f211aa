import CatalogFS.Lookup

namespace CatalogFS

open CLib

def answer (g : Globals) (p : Probe) (location : ℤ) : Option (ℤ × Bytes) :=
  (getEntryDepthFilepath g location (fun _ => p) ⟨0, 0, []⟩).bind Prod.fst

/-- From every state of the process the computation ends, with a result that has `Q` or because
the catalog could not be opened. It has read only locations of the catalog. -/
def Safe {α : Type} (g : Globals) (probes : ℕ → Probe) (x : M α) (Q : α → Prop) : Prop :=
  ∀ w, (∃ i, w.probes ≤ i ∧ (probes i).content = none ∧ x probes w = none) ∨
    ∃ a w' reads, x probes w = some (a, w') ∧ w'.probes = w.probes + reads.length ∧
      w'.locations = w.locations ++ reads ∧ (∀ l ∈ reads, 0 ≤ l ∧ l < g.catalogLen) ∧ Q a

/-- A result of `binSearch`, where `A` says what may be read at a location: `-1`, or a location of
the catalog where the path may be read. -/
def FoundAt (g : Globals) (A : ℤ → Option (ℤ × Bytes) → Prop) (s : Bytes) (r : ℤ) : Prop :=
  r = -1 ∨ 0 ≤ r ∧ r < g.catalogLen ∧ ∃ d, A r (some (d, s))

/-- A result of `get_directory_contents`: on success the locations of the directory and of its last
entry. Between them stand entries of the directory, and behind them nothing or another entry. -/
def ContentsAt (g : Globals) (A : ℤ → Option (ℤ × Bytes) → Prop) (D : Bytes)
    (r : Option (ℤ × ℤ)) : Prop :=
  ∀ low high, r = some (low, high) →
    0 ≤ low ∧ low ≤ high ∧ high < g.catalogLen ∧ (∃ d, A low (some (d, D))) ∧
      (∀ l, low < l → l ≤ high → ∃ path, A l (some (findDepth D, path)) ∧ D <+: path) ∧
      (high + 1 = g.catalogLen ∨
        ∃ d path, A (high + 1) (some (d, path)) ∧ ¬ (d = findDepth D ∧ D <+: path))

section Rules

variable {α β : Type} {g : Globals} {probes : ℕ → Probe}

theorem safe_pure {Q : α → Prop} {a : α} (h : Q a) : Safe g probes (pure a) Q :=
  fun w => .inr ⟨a, w, [], rfl, rfl, (List.append_nil _).symm, by simp, h⟩

theorem safe_none {Q : α → Prop} :
    Safe g probes (pure (none : Option α)) fun r => ∀ a, r = some a → Q a := by
  apply safe_pure
  rintro a ⟨⟩

theorem Safe.bind {P : α → Prop} {Q : β → Prop} {x : M α} {f : α → M β} (hx : Safe g probes x P)
    (hf : ∀ a, P a → Safe g probes (f a) Q) : Safe g probes (x >>= f) Q := by
  intro w
  have hbind : (x >>= f) probes w = (x probes w).bind fun p => f p.1 probes p.2 := rfl
  rw [hbind]
  rcases hx w with ⟨i, hi, hcontent, hnone⟩ | ⟨a, w', reads, ha, hprobes, hlocations, hreads, hP⟩
  · exact .inl ⟨i, hi, hcontent, by rw [hnone, Option.bind_none]⟩
  rw [ha, Option.bind_some]
  rcases hf a hP w' with ⟨i, hi, hcontent, hnone⟩ | ⟨b, w'', reads', hb, hp, hl, hr, hQ⟩
  · exact .inl ⟨i, by omega, hcontent, hnone⟩
  · refine .inr ⟨b, w'', reads ++ reads', hb, ?_, ?_, ?_, hQ⟩
    · rw [hp, hprobes, List.length_append, Nat.add_assoc]
    · rw [hl, hlocations, List.append_assoc]
    · intro l hmem
      exact (List.mem_append.mp hmem).elim (hreads l) (hr l)

theorem Safe.mono {P Q : α → Prop} {x : M α} (hx : Safe g probes x P) (h : ∀ a, P a → Q a) :
    Safe g probes x Q := by
  intro w
  rcases hx w with hexit | ⟨a, w', reads, ha, hprobes, hlocations, hreads, hP⟩
  · exact .inl hexit
  · exact .inr ⟨a, w', reads, ha, hprobes, hlocations, hreads, h a hP⟩

theorem getEntryDepthFilepath_cases (w : World) (l : ℤ) :
    (probes w.probes).content = none ∧ getEntryDepthFilepath g l probes w = none ∨
      ∃ fds, getEntryDepthFilepath g l probes w =
        some (answer g (probes w.probes) l, ⟨w.probes + 1, fds, w.locations ++ [l]⟩) := by
  have hbind : ∀ ps v, getEntryDepthFilepath g l ps v = (getEntryFromCatalog g l ps v).bind
      fun p => some (p.1.map fun st => (st.depth, st.filePath), p.2) := by
    intro ps v
    change (getEntryFromCatalog g l ps v).bind _ = _
    congr 1
    funext p
    rcases p with ⟨_ | st, w'⟩ <;> rfl
  rw [answer, hbind, hbind]
  simp only [getEntryFromCatalog]
  cases hcontent : (probes w.probes).content with
  | none => exact .inl ⟨rfl, rfl⟩
  | some content =>
    right
    dsimp only
    split_ifs
    · exact ⟨_, rfl⟩
    · exact ⟨_, rfl⟩
    · exact ⟨_, rfl⟩

end Rules

section Loops

variable {g : Globals} {probes : ℕ → Probe} {A : ℤ → Option (ℤ × Bytes) → Prop}
  (hA : ∀ i l, A l (answer g (probes i) l))

include hA

theorem safe_getEntryDepthFilepath {l : ℤ} (h0 : 0 ≤ l) (hn : l < g.catalogLen) :
    Safe g probes (getEntryDepthFilepath g l) (A l) := by
  intro w
  rcases @getEntryDepthFilepath_cases g probes w l with ⟨hcontent, h⟩ | ⟨fds, h⟩
  · exact .inl ⟨w.probes, le_rfl, hcontent, h⟩
  · refine .inr ⟨_, _, [l], h, rfl, rfl, ?_, hA _ l⟩
    simp [h0, hn]

/-- The search by depth keeps its window in the catalog. If it ends with a window that is not empty,
it has broken off at an entry of the depth. -/
theorem safe_findIndexLoop (d : ℤ) (n : ℕ) (w : Window) (h0 : 0 ≤ w.low)
    (hn : w.high < g.catalogLen) (hfuel : w.high - w.low + 1 ≤ n) :
    Safe g probes (findIndexLoop g d n w) fun r => ∀ w', r = some w' →
      0 ≤ w'.low ∧ w'.high < g.catalogLen ∧
        (w'.low ≤ w'.high → w'.low ≤ w'.mid ∧ w'.mid ≤ w'.high ∧ w'.depth = d) := by
  induction n generalizing w with
  | zero =>
    rw [findIndexLoop, if_neg (by omega)]
    apply safe_pure
    rintro w' ⟨⟩
    exact ⟨h0, hn, by omega⟩
  | succ n ih =>
    rw [findIndexLoop]
    by_cases hle : w.low ≤ w.high
    · have h1 := Bisect.low_le_mid hle
      have h2 := Bisect.mid_le_high hle
      rw [if_pos hle, calculateMid_eq hle]
      generalize Bisect.mid w.low w.high = m at h1 h2
      apply (safe_getEntryDepthFilepath hA (h0.trans h1) (h2.trans_lt hn)).bind
      rintro (_ | ⟨depth, path⟩) -
      · exact safe_none
      · dsimp only
        split_ifs with heq hlt
        · apply safe_pure
          rintro w' ⟨⟩
          exact ⟨h0, hn, fun _ => ⟨h1, h2, heq⟩⟩
        · exact ih _ (by dsimp only; omega) hn (by dsimp only; omega)
        · exact ih _ h0 (by dsimp only; omega) (by dsimp only; omega)
    · rw [if_neg hle]
      apply safe_pure
      rintro w' ⟨⟩
      exact ⟨h0, hn, fun h => absurd h hle⟩

/-- The scan down ends at `low - 1` at the latest. -/
theorem safe_findLowestLoop {d low : ℤ} (h0 : 0 ≤ low) (n : ℕ) (i depth : ℤ) (hi : low ≤ i)
    (hn : i < g.catalogLen) (hfuel : i - low + 1 ≤ n) :
    Safe g probes (findLowestLoop g d low n i depth) fun r => ∀ p, r = some p → low ≤ p.1 + 1 := by
  induction n generalizing i depth with
  | zero => omega
  | succ n ih =>
    rw [findLowestLoop]
    split_ifs with heq hlast
    · apply safe_pure
      rintro p ⟨⟩
      dsimp only
      omega
    · apply (safe_getEntryDepthFilepath hA (by omega) (by omega)).bind
      rintro (_ | ⟨depth, path⟩) -
      · exact safe_none
      · exact ih _ _ (by omega) (by omega) (by omega)
    · apply safe_pure
      rintro p ⟨⟩
      dsimp only
      omega

/-- The scan up ends at `high + 1` at the latest. -/
theorem safe_findHighestLoop {d high : ℤ} (hn : high < g.catalogLen) (n : ℕ) (i depth : ℤ)
    (h0 : 0 ≤ i) (hi : i ≤ high) (hfuel : high - i + 1 ≤ n) :
    Safe g probes (findHighestLoop g d high n i depth) fun r => ∀ p, r = some p → p.1 - 1 ≤ high := by
  induction n generalizing i depth with
  | zero => omega
  | succ n ih =>
    rw [findHighestLoop]
    split_ifs with heq hlast
    · apply safe_pure
      rintro p ⟨⟩
      dsimp only
      omega
    · apply (safe_getEntryDepthFilepath hA (by omega) (by omega)).bind
      rintro (_ | ⟨depth, path⟩) -
      · exact safe_none
      · exact ih _ _ (by omega) (by omega) (by omega)
    · apply safe_pure
      rintro p ⟨⟩
      dsimp only
      omega

theorem safe_findLowestIndex (d : ℤ) {w : Window} (h0 : 0 ≤ w.low) (hmid : w.low ≤ w.mid)
    (hn : w.mid < g.catalogLen) :
    Safe g probes (findLowestIndex g d w) fun r => ∀ w', r = some w' →
      w.low ≤ w'.low ∧ w'.high = w.high ∧ w'.mid = w.mid := by
  apply (safe_findLowestLoop hA h0 _ _ w.depth hmid hn (by omega)).bind
  rintro (_ | ⟨i, depth⟩) h
  · exact safe_none
  · apply safe_pure
    rintro w' ⟨⟩
    exact ⟨h _ rfl, rfl, rfl⟩

theorem safe_findHighestIndex (d : ℤ) {w : Window} (h0 : 0 ≤ w.mid) (hmid : w.mid ≤ w.high)
    (hn : w.high < g.catalogLen) :
    Safe g probes (findHighestIndex g d w) fun r => ∀ w', r = some w' →
      w'.low = w.low ∧ w'.high ≤ w.high := by
  apply (safe_findHighestLoop hA hn _ _ w.depth h0 hmid (by omega)).bind
  rintro (_ | ⟨i, depth⟩) h
  · exact safe_none
  · apply safe_pure
    rintro w' ⟨⟩
    exact ⟨rfl, h _ rfl⟩

/-- The last loop ends without a result or at an index where the path has been read. -/
theorem safe_searchPathLoop (s : Bytes) (n : ℕ) (low high : ℤ) (h0 : 0 ≤ low)
    (hn : high < g.catalogLen) (hfuel : high - low + 1 ≤ n) :
    Safe g probes (searchPathLoop g s n low high) (FoundAt g A s) := by
  induction n generalizing low high with
  | zero =>
    rw [searchPathLoop, if_neg (by omega)]
    exact safe_pure (.inl rfl)
  | succ n ih =>
    rw [searchPathLoop]
    by_cases hle : low ≤ high
    · have h1 := Bisect.low_le_mid hle
      have h2 := Bisect.mid_le_high hle
      rw [if_pos hle, calculateMid_eq hle]
      generalize Bisect.mid low high = m at h1 h2
      have hread : Safe g probes (getEntryFilepath g m) fun r =>
          ∀ path, r = some path → ∃ d, A m (some (d, path)) := by
        apply (safe_getEntryDepthFilepath hA (h0.trans h1) (h2.trans_lt hn)).bind
        rintro (_ | ⟨depth, path⟩) h
        · exact safe_none
        · apply safe_pure
          rintro _ ⟨⟩
          exact ⟨depth, h⟩
      apply hread.bind
      rintro (_ | path) h
      · exact safe_pure (.inl rfl)
      · dsimp only
        cases hc : strcmp path s with
        | eq =>
          obtain rfl := strcmp_eq_eq.mp hc
          exact safe_pure (.inr ⟨h0.trans h1, h2.trans_lt hn, h path rfl⟩)
        | lt => exact ih _ _ (by omega) hn (by omega)
        | gt => exact ih _ _ h0 (by omega) (by omega)
    · rw [if_neg hle]
      exact safe_pure (.inl rfl)

theorem safe_binSearch (hlen : g.catalogLen < 2 ^ 31) (s : Bytes) :
    Safe g probes (binSearch g s) (FoundAt g A s) := by
  unfold binSearch
  dsimp only
  split_ifs with hdepth
  · exact safe_pure (.inl rfl)
  generalize findDepth s = d
  apply (safe_findIndexLoop hA d _ ⟨0, g.catalogLen - 1, 0, 1⟩ le_rfl (by dsimp only; omega)
    (by dsimp only; omega)).bind
  rintro (_ | w) hw
  · exact safe_pure (.inl rfl)
  obtain ⟨h0, hn, hmid⟩ := hw w rfl
  dsimp only
  split_ifs with hempty
  · exact safe_pure (.inl rfl)
  -- the window is not empty, so the search by depth has broken off inside it
  obtain ⟨hml, hmh, -⟩ := hmid (by omega)
  apply (safe_findLowestIndex hA d h0 hml (by omega)).bind
  rintro (_ | w₁) hw₁
  · exact safe_pure (.inl rfl)
  obtain ⟨hlow, hhigh, heq⟩ := hw₁ w₁ rfl
  apply (safe_findHighestIndex hA d (w := { w₁ with depth := d }) (by dsimp only; omega)
    (by dsimp only; omega) (by dsimp only; omega)).bind
  rintro (_ | w₂) hw₂
  · exact safe_pure (.inl rfl)
  obtain ⟨hlow₂, hhigh₂⟩ := hw₂ w₂ rfl
  dsimp only at hlow₂ hhigh₂
  apply (safe_searchPathLoop hA s _ _ _ (by omega) (by omega) (by omega)).bind
  rintro r (rfl | ⟨hr, hrn, hread⟩)
  · exact safe_pure (.inl rfl)
  · -- a location fits an `int`
    apply safe_pure
    rw [toInt_of_lt (by omega) (by omega)]
    exact .inr ⟨hr, hrn, hread⟩

/-- The scan behind a directory's own entry passes entries of the directory only, and stops at the
end of the catalog or at an entry that is not one of them. -/
theorem safe_contentsLoop (D : Bytes) (n : ℕ) (i : ℤ) (h0 : 0 ≤ i) (hi : i < g.catalogLen)
    (hfuel : g.catalogLen - i ≤ n) :
    Safe g probes (contentsLoop g D (findDepth D) n i) fun r => ∀ j, r = some j →
      i < j ∧ j ≤ g.catalogLen ∧
        (∀ l, i < l → l < j → ∃ path, A l (some (findDepth D, path)) ∧ D <+: path) ∧
        (j = g.catalogLen ∨
          ∃ d path, A j (some (d, path)) ∧ ¬ (d = findDepth D ∧ D <+: path)) := by
  induction n generalizing i with
  | zero => omega
  | succ n ih =>
    rw [contentsLoop]
    split_ifs with hend
    · apply safe_pure
      rintro j ⟨⟩
      exact ⟨by omega, by omega, by omega, .inl (by omega)⟩
    · apply (safe_getEntryDepthFilepath hA (by omega) (by omega)).bind
      rintro (_ | ⟨d, path⟩) hread
      · exact safe_none
      dsimp only
      have htest : d ≠ findDepth D ∨ strncmp D path D.length ≠ .eq ↔
          ¬ (d = findDepth D ∧ D <+: path) := by
        rw [Ne, Ne, strncmp_length_eq]
        tauto
      split_ifs with hstop
      · apply safe_pure
        rintro j ⟨⟩
        exact ⟨by omega, by omega, by omega, .inr ⟨d, path, hread, htest.mp hstop⟩⟩
      · obtain ⟨rfl, hpre⟩ := not_not.mp (mt htest.mpr hstop)
        apply (ih (i + 1) (by omega) (by omega) (by omega)).mono
        intro r hr j hj
        obtain ⟨hij, hjn, hbetween, hend⟩ := hr j hj
        refine ⟨by omega, hjn, fun l hil hlj => ?_, hend⟩
        rcases (show i + 1 ≤ l by omega).eq_or_lt with rfl | hil
        · exact ⟨path, hread, hpre⟩
        · exact hbetween l hil hlj

theorem safe_getDirectoryContents (hlen : g.catalogLen < 2 ^ 31) (D : Bytes) :
    Safe g probes (getDirectoryContents g D) (ContentsAt g A D) := by
  unfold getDirectoryContents
  split_ifs with hlast
  · exact safe_pure nofun
  apply (safe_binSearch hA hlen D).bind
  rintro low (rfl | ⟨h0, hn, hread⟩)
  · exact safe_pure nofun
  rw [if_neg (by omega)]
  dsimp only
  split_ifs with hdepth
  · exact safe_pure nofun
  apply (safe_contentsLoop hA D _ low h0 hn (by omega)).bind
  rintro (_ | j) hj
  · exact safe_pure nofun
  obtain ⟨hlj, hjn, hbetween, hend⟩ := hj j rfl
  apply safe_pure
  rintro _ _ ⟨⟩
  refine ⟨h0, by omega, by omega, hread, fun l hl hlh => hbetween l hl (by omega), ?_⟩
  rwa [Int.sub_add_cancel]

end Loops

/-- The search is safe on any bytes: `binSearch` and `get_directory_contents` end and read only
locations of the catalog, whatever each read meets, and what they return rests on answers that reads
have given. When each location always answers the same, it holds of what the catalog holds. Strings are
not bounded here: by `agree_getEntryDepthFilepathBounded` a read that overflows no buffer is the
same. -/
theorem search_safe {g : Globals} (hlen : g.catalogLen < 2 ^ 31) (probes : ℕ → Probe)
    (s D : Bytes) :
    (Safe g probes (binSearch g s) (FoundAt g (fun l a => ∃ i, answer g (probes i) l = a) s) ∧
      Safe g probes (getDirectoryContents g D)
        (ContentsAt g (fun l a => ∃ i, answer g (probes i) l = a) D)) ∧
    ∀ entry : ℤ → Option (ℤ × Bytes), (∀ i l, answer g (probes i) l = entry l) →
      Safe g probes (binSearch g s) (FoundAt g (fun l a => entry l = a) s) ∧
        Safe g probes (getDirectoryContents g D) (ContentsAt g (fun l a => entry l = a) D) := by
  refine ⟨⟨?_, ?_⟩, fun entry hentry => ⟨?_, ?_⟩⟩
  · exact safe_binSearch (fun i l => ⟨i, rfl⟩) hlen s
  · exact safe_getDirectoryContents (fun i l => ⟨i, rfl⟩) hlen D
  · exact safe_binSearch (fun i l => (hentry i l).symm) hlen s
  · exact safe_getDirectoryContents (fun i l => (hentry i l).symm) hlen D

/-- Every other read meets a file whose second line is garbage. -/
theorem search_safe_flapping :
    Safe ⟨26, 2⟩ (fun i => if i % 2 = 0 then steady (relativeFile ++ relativeFile) 0 else
        steady (relativeFile ++ [sep]) 0) (binSearch ⟨26, 2⟩ [slash]) fun r => r < 2 :=
  ((search_safe (by decide) _ [slash] [slash]).1.1).mono fun _ hr => by
    rcases hr with rfl | ⟨-, hr, -⟩
    · decide
    · exact hr

end CatalogFS
