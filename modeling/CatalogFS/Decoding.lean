import CatalogFS.Reading

namespace CatalogFS

open CLib

def recordBytes (g : Globals) (file : Bytes) (location : ℤ) : Bytes :=
  (file.drop (g.entrySize * location).toNat).take g.entrySize

/-- The bytes that are read are those of the record, all of them. -/
structure ReadWhole (g : Globals) (file : Bytes) (location : ℤ) : Prop where
  offset_eq : toInt (g.entrySize * location) = g.entrySize * location
  nonneg : 0 ≤ g.entrySize * location
  size_le : g.entrySize * location + g.entrySize ≤ file.length

def Converted (line : Bytes) : Prop := (sscanf entryFormat (cstr line)).length = 11

/-- The record of a link has a `\2` in its path field. -/
def LinkSplit (line : Bytes) : Prop :=
  Item.char (ch 'l') ∈ sscanf entryFormat (cstr line) →
    ∃ path, Item.str path ∈ sscanf entryFormat (cstr line) ∧ linkSep ∈ path

instance (line : Bytes) : Decidable (Converted line) :=
  inferInstanceAs (Decidable (_ = _))

/-- Every call on this file fails or has read and converted the whole record; and then no other call
that succeeds gives anything else, whatever its variables and buffers held before. -/
def NeverStale (g : Globals) (file : Bytes) (location : ℤ) : Prop :=
  ∀ probes w, (probes w.probes).content = some file →
    (∃ w', getEntryFromCatalog g location probes w = some (none, w')) ∨
    ∃ st w', getEntryFromCatalog g location probes w = some (some st, w') ∧
      ReadWhole g file location ∧ Converted (recordBytes g file location) ∧
      ∀ probes₂ w₂ st₂ w₂', (probes₂ w₂.probes).content = some file →
        getEntryFromCatalog g location probes₂ w₂ = some (some st₂, w₂') → st₂ = st

structure Fields where
  c : Byte
  mode : ℤ
  nlink : ℤ
  uid : ℤ
  gid : ℤ
  size : ℤ
  atime : ℤ
  mtime : ℤ
  ctime : ℤ
  depth : ℤ
  filePath : Bytes

def Fields.items (f : Fields) : List Item :=
  [.char f.c, .num f.mode, .num f.nlink, .num f.uid, .num f.gid, .num f.size, .num f.atime,
    .num f.mtime, .num f.ctime, .num f.depth, .str f.filePath]

def Fields.locals (f : Fields) (linkDest : Bytes) : Locals :=
  ⟨f.c, toULong f.mode, toLong f.nlink, toLong f.uid, toLong f.gid, toLong f.size, toLong f.atime,
    toLong f.mtime, toLong f.ctime, toInt (toLong f.depth).toInt, f.filePath, linkDest⟩

theorem assignItems_items (f : Fields) (stale : Locals) :
    assignItems stale f.items = f.locals stale.linkDest := by
  unfold assignItems
  rfl

theorem exists_fields {line : Bytes} (h : Converted line) :
    ∃ f : Fields, sscanf entryFormat (cstr line) = f.items := by
  have hkinds := @sscanf_kind_eq entryFormat (cstr line) h
  generalize sscanf entryFormat (cstr line) = items at hkinds ⊢
  simp only [entryFormat, Directive.kind, List.filterMap_cons, List.filterMap_nil,
    List.map_eq_cons_iff, List.map_eq_nil_iff] at hkinds
  obtain ⟨i0, _, rfl, h0, i1, _, rfl, h1, i2, _, rfl, h2, i3, _, rfl, h3, i4, _, rfl, h4, i5, _, rfl,
    h5, i6, _, rfl, h6, i7, _, rfl, h7, i8, _, rfl, h8, i9, _, rfl, h9, i10, _, rfl, h10, rfl⟩ := hkinds
  obtain ⟨c, rfl⟩ := Item.exists_char h0
  obtain ⟨mode, rfl⟩ := Item.exists_num h1
  obtain ⟨nlink, rfl⟩ := Item.exists_num h2
  obtain ⟨uid, rfl⟩ := Item.exists_num h3
  obtain ⟨gid, rfl⟩ := Item.exists_num h4
  obtain ⟨size, rfl⟩ := Item.exists_num h5
  obtain ⟨atime, rfl⟩ := Item.exists_num h6
  obtain ⟨mtime, rfl⟩ := Item.exists_num h7
  obtain ⟨ctime, rfl⟩ := Item.exists_num h8
  obtain ⟨depth, rfl⟩ := Item.exists_num h9
  obtain ⟨filePath, rfl⟩ := Item.exists_str h10
  exact ⟨⟨c, mode, nlink, uid, gid, size, atime, mtime, ctime, depth, filePath⟩, rfl⟩

theorem linkSplit_iff {line : Bytes} {f : Fields} (h : sscanf entryFormat (cstr line) = f.items) :
    LinkSplit line ↔ (f.c = ch 'l' → linkSep ∈ f.filePath) := by
  simp [LinkSplit, h, Fields.items, eq_comm]

theorem decode_eq {line : Bytes} {f : Fields} (h : sscanf entryFormat (cstr line) = f.items)
    (stale : Locals) : decode stale line = entryOfLocals (f.locals stale.linkDest) := by
  rw [decode, h, assignItems_items]

theorem entryOfLocals_congr {f : Fields} (h : f.c = ch 'l' → linkSep ∈ f.filePath)
    (linkDest linkDest' : Bytes) :
    entryOfLocals (f.locals linkDest) = entryOfLocals (f.locals linkDest') := by
  by_cases hc : f.c = ch 'l'
  · have hlen : f.filePath.length ≠ (f.filePath.takeWhile (· ≠ linkSep)).length := by
      intro heq
      have hself := (List.takeWhile_prefix (l := f.filePath) (· ≠ linkSep)).eq_of_length heq.symm
      exact takeWhile_ne_eq_self.mp hself (h hc)
    simp only [entryOfLocals, Fields.locals, hc, hlen, ne_eq, not_false_eq_true, if_true]
  · simp only [entryOfLocals, Fields.locals, hc, if_false]

theorem linkDest_entryOfLocals {f : Fields} (hc : f.c = ch 'l') (h : linkSep ∉ f.filePath)
    (linkDest : Bytes) : (entryOfLocals (f.locals linkDest)).linkDest = linkDest := by
  simp only [entryOfLocals, Fields.locals, hc, takeWhile_ne_eq_self.mpr h, ne_eq,
    not_true_eq_false, if_true, if_false]

section Calls

variable {g : Globals} {file : Bytes} {location : ℤ} {probes : ℕ → Probe} {w : World}

theorem getEntryFromCatalog_of_neg (hneg : toInt (g.entrySize * location) < 0)
    (hcontent : (probes w.probes).content = some file) :
    ∃ w', getEntryFromCatalog g location probes w = some (none, w') := by
  simp [getEntryFromCatalog, hcontent, hneg]

theorem getEntryFromCatalog_of_nonneg (hneg : ¬ toInt (g.entrySize * location) < 0)
    (hcontent : (probes w.probes).content = some file) :
    (∃ w', getEntryFromCatalog g location probes w = some (none, w')) ∨
      ∃ w', getEntryFromCatalog g location probes w =
        some (some (decode (probes w.probes).stale (readEntry file (toInt (g.entrySize *
          location)).toNat g.entrySize (probes w.probes).staleEntry)), w') := by
  simp only [getEntryFromCatalog, hcontent, hneg, decide_false, Bool.or_false]
  split_ifs
  · exact .inl ⟨_, rfl⟩
  · exact .inl ⟨_, rfl⟩
  · exact .inr ⟨_, rfl⟩

def leaving (file linkDest : Bytes) : ℕ → Probe := fun i =>
  { steady file i with stale := { (steady file i).stale with linkDest } }

theorem getEntryFromCatalog_leaving (file : Bytes) (hneg : ¬ toInt (g.entrySize * location) < 0)
    (linkDest : Bytes) : ∃ w', getEntryFromCatalog g location (leaving file linkDest) ⟨0, 0, []⟩ =
      some (some (decode (leaving file linkDest 0).stale (readEntry file (toInt (g.entrySize *
        location)).toNat g.entrySize (leaving file linkDest 0).staleEntry)), w') := by
  simp [getEntryFromCatalog, leaving, steady, hneg, decode]

theorem readEntry_of_readWhole (h : ReadWhole g file location) (stale : ℕ → Byte) :
    readEntry file (toInt (g.entrySize * location)).toNat g.entrySize stale =
      recordBytes g file location := by
  have hnonneg := h.nonneg
  have hsize := h.size_le
  rw [h.offset_eq, recordBytes, readEntry_eq (by omega)]

end Calls

section Iff

variable {g : Globals} {file : Bytes} {location : ℤ}

/-- Two calls with different bytes in `link_dest` give away a record that is not all there. -/
theorem readWhole_of_neverStale (h : NeverStale g file location)
    (hneg : ¬ toInt (g.entrySize * location) < 0) :
    ReadWhole g file location ∧ Converted (recordBytes g file location) ∧
      LinkSplit (recordBytes g file location) := by
  obtain ⟨w₁, h₁⟩ := getEntryFromCatalog_leaving file hneg []
  obtain ⟨w₂, h₂⟩ := getEntryFromCatalog_leaving file hneg [0]
  rcases h (leaving file []) ⟨0, 0, []⟩ rfl with ⟨w', hw'⟩ | ⟨st, w', hw', hwhole, hconv, huniq⟩
  · cases congrArg (Option.map Prod.fst) (h₁.symm.trans hw')
  · refine ⟨hwhole, hconv, ?_⟩
    obtain ⟨f, hf⟩ := exists_fields hconv
    rw [linkSplit_iff hf]
    intro hc
    by_contra hmem
    have heq := (huniq _ _ _ _ rfl h₁).trans (huniq _ _ _ _ rfl h₂).symm
    rw [readEntry_of_readWhole hwhole, readEntry_of_readWhole hwhole, decode_eq hf, decode_eq hf] at heq
    have hdest := congrArg StatWdf.linkDest heq
    rw [linkDest_entryOfLocals hc hmem, linkDest_entryOfLocals hc hmem] at hdest
    cases hdest

theorem neverStale_of_readWhole (hwhole : ReadWhole g file location)
    (hconv : Converted (recordBytes g file location))
    (hsplit : LinkSplit (recordBytes g file location)) : NeverStale g file location := by
  intro probes w hcontent
  obtain ⟨f, hf⟩ := exists_fields hconv
  have hneg : ¬ toInt (g.entrySize * location) < 0 := by
    rw [hwhole.offset_eq]
    exact not_lt.mpr hwhole.nonneg
  have hcall : ∀ probes w, (probes w.probes).content = some file →
      (∃ w', getEntryFromCatalog g location probes w = some (none, w')) ∨
        ∃ w', getEntryFromCatalog g location probes w =
          some (some (entryOfLocals (f.locals [])), w') := by
    intro probes w hcontent
    have h := getEntryFromCatalog_of_nonneg hneg hcontent
    rwa [readEntry_of_readWhole hwhole, decode_eq hf,
      entryOfLocals_congr ((linkSplit_iff hf).mp hsplit) _ []] at h
  rcases hcall probes w hcontent with hfail | ⟨w', hw'⟩
  · exact .inl hfail
  · refine .inr ⟨_, w', hw', hwhole, hconv, fun probes₂ w₂ st₂ w₂' hcontent₂ h₂ => ?_⟩
    rcases hcall probes₂ w₂ hcontent₂ with ⟨v, hv⟩ | ⟨v, hv⟩
    · cases congrArg (Option.map Prod.fst) (hv.symm.trans h₂)
    · exact (Option.some.inj (congrArg Prod.fst (Option.some.inj (hv.symm.trans h₂)))).symm

end Iff

/-- A record is never stale exactly when its offset is negative, so that every call fails, or it is
all there with all of its fields, for a link with the separator before its target as well. Strings are
not bounded here: by `agree_getEntryFromCatalogBounded` a read that overflows no buffer is the same. -/
theorem neverStale_iff (g : Globals) (file : Bytes) (location : ℤ) :
    NeverStale g file location ↔ toInt (g.entrySize * location) < 0 ∨
      ReadWhole g file location ∧ Converted (recordBytes g file location) ∧
        LinkSplit (recordBytes g file location) := by
  constructor
  · intro h
    rw [or_iff_not_imp_left]
    exact readWhole_of_neverStale h
  · rintro (hneg | ⟨hwhole, hconv, hsplit⟩)
    · exact fun probes w hcontent => .inl (getEntryFromCatalog_of_neg hneg hcontent)
    · exact neverStale_of_readWhole hwhole hconv hsplit

def garbage : Bytes := List.replicate 13 (ch 'x')

/-- A record that does not parse is not an error. -/
theorem not_neverStale_garbage : ¬ NeverStale ⟨13, 1⟩ garbage 0 := by
  intro h
  rcases h (steady garbage) ⟨0, 0, []⟩ rfl with ⟨w', hw'⟩ | ⟨st, w', -, -, hconv, -⟩
  · have hneg : ¬ toInt ((13 : ℕ) * 0) < 0 := by decide
    obtain ⟨v, hv⟩ := @getEntryFromCatalog_leaving ⟨13, 1⟩ 0 garbage hneg []
    cases congrArg (Option.map Prod.fst) (hv.symm.trans hw')
  · exact absurd hconv (by decide)

end CatalogFS
