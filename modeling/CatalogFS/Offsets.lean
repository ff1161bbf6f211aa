import CatalogFS.Lookup

namespace CatalogFS

open CLib

/-- The geometries that `main` accepts and whose records have offsets in the range of an `off_t`. -/
structure Accepted (g : Globals) : Prop where
  entrySize_ge : 13 ≤ g.entrySize
  entrySize_lt : g.entrySize < 2 ^ 31
  catalogLen_pos : 0 < g.catalogLen
  size_le : g.entrySize * g.catalogLen ≤ 2 ^ 63 - 1

/-- Every record of a file that holds as many is decoded from its own bytes. -/
def ReadsOwnBytes (stack : ℕ) (g : Globals) : Prop :=
  ∀ file probes, Serves probes file → g.entrySize * g.catalogLen ≤ file.length →
    ∀ k : ℕ, k < g.catalogLen → ∀ w, ∃ w', withEntry stack g (getEntryFromCatalog g k) probes w =
      some (some (decode (probes w.probes).stale
        ((file.drop (g.entrySize * k)).take g.entrySize)), w')

/-- On every ordered catalog `binSearch` returns the location of the path, and `readdir`, when the
path has room for a slash, passes on the entries at the locations that follow the directory's own. -/
def FindsLocations (stack : ℕ) (g : Globals) : Prop :=
  ∀ file probes es, Serves probes file → Layout g file es → AscendingCatalog es → ∀ s,
    (s.head? = some slash ∧ (∃ e ∈ es, e.path = s) →
      ∃ (k : ℕ) (e : Entry), Returns probes (withEntry stack g (binSearch g s)) k ∧
        es[k]? = some e ∧ e.path = s ∧ ∀ P room, withSlash P = s → HasRoom room P →
          Returns probes (withEntry stack g (catalogReaddirIn room g roomy P))
            (0, dots ++ ((es.drop (k + 1)).takeWhile (inDirectory s)).map Entry.filled)) ∧
    (¬ (s.head? = some slash ∧ ∃ e ∈ es, e.path = s) →
      Returns probes (withEntry stack g (binSearch g s)) (-1))

/-- No location and no offset is narrowed to another one, in a process that has `stack` bytes for the
array that a record is read into. -/
def NotNarrowed (stack : ℕ) (g : Globals) : Prop := ReadsOwnBytes stack g ∧ FindsLocations stack g

variable {stack : ℕ} {g : Globals}

theorem offset_lt (hlast : g.entrySize * (g.catalogLen - 1) < 2 ^ 31) {k : ℕ}
    (hk : k < g.catalogLen) : g.entrySize * k < 2 ^ 31 :=
  (Nat.mul_le_mul_left _ (by omega)).trans_lt hlast

theorem readsOwnBytes (hlast : g.entrySize * (g.catalogLen - 1) < 2 ^ 31) (hentry : EntryFits stack g) :
    ReadsOwnBytes stack g := by
  intro file probes hserves hsize k hk w
  rw [withEntry_of_fits hentry]
  have hle : g.entrySize * k + g.entrySize ≤ g.entrySize * g.catalogLen := by
    rw [← Nat.mul_succ]
    exact Nat.mul_le_mul_left _ hk
  exact ⟨_, getEntryFromCatalog_read hserves (offset_lt hlast hk) (hle.trans hsize) w⟩

section Fits

variable (hacc : Accepted g) (hlast : g.entrySize * (g.catalogLen - 1) < 2 ^ 31)

include hacc hlast

theorem readable_of_layout {file : Bytes} {es : List Entry} (hlayout : Layout g file es) :
    Readable g file es where
  toLayout := hlayout
  length_lt := by
    have hwidth := hacc.entrySize_ge
    have hle : 13 * (g.catalogLen - 1) ≤ g.entrySize * (g.catalogLen - 1) :=
      Nat.mul_le_mul_right _ hwidth
    omega
  offset_lt _ hk := offset_lt hlast hk

theorem findsLocations (hentry : EntryFits stack g) : FindsLocations stack g := by
  intro file probes es hserves hlayout hasc s
  simp only [withEntry_of_fits hentry]
  have hread := readable_of_layout hacc hlast hlayout
  have hret := returns_binSearch hserves hread hasc.depthSorted s
  constructor
  · rintro ⟨hhead, e, he, rfl⟩
    obtain ⟨k, e', hl, he', hpath⟩ := exists_locate hasc he (findDepth_pos hhead)
    refine ⟨k, e', hl ▸ hret, he', hpath, ?_⟩
    intro P room hP hroom
    have hk := (List.getElem?_eq_some_iff.mp he').1
    have hdir := returns_catalogReaddir hserves hread hasc.depthSorted (P := P) (hP ▸ hl) hk
    rw [hP, listed, hl, Int.toNat_natCast] at hdir
    exact returns_catalogReaddirIn_iff.mpr ⟨hroom, hdir⟩
  · intro h
    rwa [locate_eq_neg_one hasc.depthSorted h] at hret

end Fits

def lastDiffers (g : Globals) : Bytes :=
  List.replicate (g.entrySize * (g.catalogLen - 1)) (ch 'd') ++ List.replicate g.entrySize (ch 'f')

theorem sscanf_letters {b c : Byte} (hb : b = ch 'd' ∨ b = ch 'f') (hc : c = ch 'd' ∨ c = ch 'f')
    (s : Bytes) : sscanf entryFormat (cstr (b :: c :: s)) = [.char b] := by
  have hspace : isSpace c = false := by rcases hc with rfl | rfl <;> decide
  have hdigit : isDigit 8 c = false := by rcases hc with rfl | rfl <;> decide
  have hb0 : b ≠ 0 := by rcases hb with rfl | rfl <;> decide
  have hc0 : c ≠ 0 := by rcases hc with rfl | rfl <;> decide
  have hsign : ∀ t, scanSign (c :: t) = (false, c :: t) := by
    intro t
    rcases hc with rfl | rfl <;> rfl
  simp [cstr, hb0, hc0, entryFormat, sscanf, scanInt, hsign, hspace, hdigit]

theorem stMode_decode_letters {b c : Byte} (hb : b = ch 'd' ∨ b = ch 'f')
    (hc : c = ch 'd' ∨ c = ch 'f') (s : Bytes) (stale : Locals) :
    (decode stale (b :: c :: s)).stData.stMode = (addTypeBits b stale.mode).toUInt32 := by
  have hl : b ≠ ch 'l' := by rcases hb with rfl | rfl <;> decide
  rw [decode, sscanf_letters hb hc]
  change (entryOfLocals { stale with c := b }).stData.stMode = _
  rw [entryOfLocals, if_neg hl]

theorem lastDiffers_drop {o : ℕ} (ho : o < g.entrySize * (g.catalogLen - 1))
    (hwidth : 13 ≤ g.entrySize) :
    ∃ c s, ((lastDiffers g).drop o).take g.entrySize = ch 'd' :: c :: s ∧
      (c = ch 'd' ∨ c = ch 'f') := by
  obtain ⟨m, hm⟩ := Nat.exists_eq_add_of_le' (Nat.sub_pos_of_lt ho)
  obtain ⟨v, hv⟩ := Nat.exists_eq_add_of_le' (show 2 ≤ g.entrySize by omega)
  rw [lastDiffers, List.drop_append_of_le_length (by simpa using ho.le), List.drop_replicate, hm, hv]
  cases m with
  | zero => exact ⟨_, _, rfl, .inr rfl⟩
  | succ m => exact ⟨_, _, rfl, .inl rfl⟩

/-- Without its array not even the first record is read. -/
theorem entryFits_of_readsOwnBytes (hacc : Accepted g) (h : ReadsOwnBytes stack g) :
    EntryFits stack g := by
  by_contra hentry
  have hlen := List.length_replicate (n := g.entrySize * g.catalogLen) (a := ch 'd')
  obtain ⟨w', hw'⟩ := h _ _ (serves_steady _) hlen.ge 0 hacc.catalogLen_pos ⟨0, 0, []⟩
  rw [withEntry_getEntryFromCatalog hentry] at hw'
  cases hw'

/-- When the offset of the last record does not fit, its place is given as one where another record
begins, or as one that cannot be sought. -/
theorem lt_of_readsOwnBytes (hacc : Accepted g) (h : ReadsOwnBytes stack g) :
    g.entrySize * (g.catalogLen - 1) < 2 ^ 31 := by
  by_contra hge
  have hentry := entryFits_of_readsOwnBytes hacc h
  have hwidth := hacc.entrySize_ge
  have hpos := hacc.catalogLen_pos
  have hsize : g.entrySize * (g.catalogLen - 1) + g.entrySize = g.entrySize * g.catalogLen := by
    rw [← Nat.mul_succ, Nat.succ_eq_add_one, Nat.sub_add_cancel hpos]
  have hlen : (lastDiffers g).length = g.entrySize * g.catalogLen := by
    rw [lastDiffers, List.length_append, List.length_replicate, List.length_replicate, hsize]
  obtain ⟨w', hw'⟩ := h (lastDiffers g) (steady _) (serves_steady _) hlen.ge (g.catalogLen - 1)
    (by omega) ⟨0, 0, []⟩
  rw [withEntry_of_fits hentry] at hw'
  have hslice : ((lastDiffers g).drop (g.entrySize * (g.catalogLen - 1))).take g.entrySize =
      List.replicate g.entrySize (ch 'f') := by
    rw [lastDiffers, List.drop_left' (List.length_replicate ..), List.take_replicate, min_self]
  rw [hslice] at hw'
  have hlt := toInt_lt (g.entrySize * ((g.catalogLen - 1 : ℕ) : ℤ))
  simp only [getEntryFromCatalog, steady] at hw'
  generalize toInt (g.entrySize * ((g.catalogLen - 1 : ℕ) : ℤ)) = offset at hw' hlt
  by_cases hneg : offset < 0
  · simp [hneg] at hw'
  · -- the record that is read begins with the wrong letter
    obtain ⟨o, rfl⟩ := Int.eq_ofNat_of_zero_le (not_lt.mp hneg)
    have ho : o < g.entrySize * (g.catalogLen - 1) := by omega
    obtain ⟨c, s, hread, hc⟩ := lastDiffers_drop ho hwidth
    obtain ⟨v, hv⟩ := Nat.exists_eq_add_of_le' (show 2 ≤ g.entrySize by omega)
    simp only [hneg, decide_false, Bool.false_or, Bool.false_eq_true, if_false, Int.toNat_natCast,
      readEntry_eq (show o + g.entrySize ≤ (lastDiffers g).length by omega), hread] at hw'
    rw [hv, List.replicate_succ, List.replicate_succ] at hw'
    have hst := congrArg (fun r => r.bind fun p => p.1.map fun st => st.stData.stMode) hw'
    change some (decode _ (ch 'd' :: c :: s)).stData.stMode =
      some (decode _ (ch 'f' :: ch 'f' :: List.replicate v (ch 'f'))).stData.stMode at hst
    rw [stMode_decode_letters (.inl rfl) hc, stMode_decode_letters (.inr rfl) (.inr rfl)] at hst
    revert hst
    decide

/-- The records are read from their own places, and found and listed at their own locations, exactly
when the offset of the last one fits an `int` and the array for a record fits an `int` and the
stack. -/
theorem notNarrowed_iff (hacc : Accepted g) :
    NotNarrowed stack g ↔ g.entrySize * (g.catalogLen - 1) < 2 ^ 31 ∧ EntryFits stack g := by
  constructor
  · rintro ⟨hreads, -⟩
    exact ⟨lt_of_readsOwnBytes hacc hreads, entryFits_of_readsOwnBytes hacc hreads⟩
  · rintro ⟨hlast, hentry⟩
    exact ⟨readsOwnBytes hlast hentry, findsLocations hacc hlast hentry⟩

/-- The offset of the last of these records is `2 ^ 32`, so that it is read from the place of the
first one. -/
def wrapping : Globals := ⟨128, 2 ^ 25 + 1⟩

theorem accepted_wrapping : Accepted wrapping := ⟨by decide, by decide, by decide, by decide⟩

theorem notNarrowed_iff_wrapping : NotNarrowed (2 ^ 23) wrapping ↔
    wrapping.entrySize * (wrapping.catalogLen - 1) < 2 ^ 31 ∧ EntryFits (2 ^ 23) wrapping :=
  notNarrowed_iff accepted_wrapping

theorem not_notNarrowed_wrapping :
    Accepted wrapping ∧ EntryFits (2 ^ 23) wrapping ∧ ¬ NotNarrowed (2 ^ 23) wrapping := by
  refine ⟨accepted_wrapping, by decide, ?_⟩
  intro h
  exact absurd (lt_of_readsOwnBytes accepted_wrapping h.1) (by decide)

end CatalogFS
