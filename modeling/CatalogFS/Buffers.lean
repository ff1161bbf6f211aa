import CatalogFS.Decoding
import CatalogFS.RecordFormat
import CatalogFS.Room

namespace CatalogFS

open CLib

inductive Buffer
  | errormsg
  | filePath
  | temp
  | linkDest
  /-- `file_path` of the caller of `getEntry_depth_filepath`. -/
  | result
  deriving DecidableEq

def Buffer.size : Buffer → ℕ
  | .errormsg => 256
  | _ => maxPathLen

/-- A string and its NUL are written to a buffer. The error is the buffer they overflow. -/
def store (b : Buffer) (s : Bytes) : Except Buffer Bytes :=
  if s.length + 1 ≤ b.size then .ok s else .error b

def openError : Bytes :=
  newline :: ['E', 'R', 'R', 'O', 'R', ':', 'C', 'a', 'n', 'n', 'o', 't', ' ', 'o', 'p', 'e', 'n', ' ',
    'c', 'a', 't', 'a', 'l', 'o', 'g', ' ', 'f', 'i', 'l', 'e', ':'].map ch

/-- Of the converted items only the path is a string. -/
def storeItem : Item → Except Buffer Unit
  | .str s => do
    let _ ← store .filePath s
    return ()
  | _ => return ()

def splitLink (l : Locals) : Except Buffer StatWdf := do
  let st := entryOfLocals l
  if l.c = ch 'l' then
    let temp ← store .temp (l.filePath.takeWhile (· ≠ linkSep))
    let linkDest ←
      if l.filePath.length ≠ temp.length then store .linkDest (l.filePath.drop (temp.length + 1))
      else pure l.linkDest
    let filePath ← store .filePath temp
    return { st with filePath, linkDest }
  else return st

def decodeBounded (stale : Locals) (entry : Bytes) : Except Buffer StatWdf := do
  let items := sscanf entryFormat (cstr entry)
  items.forM storeItem
  splitLink (assignItems stale items)

/-- `getEntry_from_catalog` with its buffers, on a catalog of this name. -/
def getEntryFromCatalogBounded (catalogName : Bytes) (g : Globals) (location : ℤ) (probes : ℕ → Probe)
    (w : World) : Except Buffer (Option (Option StatWdf × World)) := do
  let _ ← store .errormsg (openError ++ catalogName)
  let p := probes w.probes
  let w := { w with probes := w.probes + 1, locations := w.locations ++ [location] }
  match p.content with
  | none => return none
  | some content =>
    let opened := { w with openFds := w.openFds + 1 }
    let offset := toInt (g.entrySize * location)
    if p.seekFails || offset < 0 then return some (none, opened)
    else if p.readFails then return some (none, opened)
    else
      let st ← decodeBounded p.stale (readEntry content offset.toNat g.entrySize p.staleEntry)
      return some (some st, w)

def getEntryDepthFilepathBounded (catalogName : Bytes) (g : Globals) (location : ℤ)
    (probes : ℕ → Probe) (w : World) : Except Buffer (Option (Option (ℤ × Bytes) × World)) := do
  match ← getEntryFromCatalogBounded catalogName g location probes w with
  | none => return none
  | some (none, w) => return some (none, w)
  | some (some st, w) =>
    let filePath ← store .result st.filePath
    return some (some (st.depth, filePath), w)

def bytesRead (g : Globals) (file : Bytes) (k : ℕ) : Bytes :=
  (file.drop (toInt (g.entrySize * k)).toNat).take g.entrySize

/-- No call for a record of this file overflows a buffer, whatever the variables held before. -/
def NeverOverflows (catalogName : Bytes) (g : Globals) (file : Bytes) : Prop :=
  ∀ k : ℕ, k < g.catalogLen → ∀ probes w, (probes w.probes).content = some file →
    ∀ b, getEntryDepthFilepathBounded catalogName g k probes w ≠ .error b

def PathFits (line : Bytes) : Prop :=
  Converted line ∧ ∀ s, Item.str s ∈ sscanf entryFormat (cstr line) → s.length < maxPathLen

section Store

variable {b : Buffer} {s : Bytes}

theorem store_of_fits (h : s.length < b.size) : store b s = .ok s := if_pos h

theorem store_of_not_fits (h : b.size ≤ s.length) : store b s = .error b := if_neg (by omega)

theorem store_cases (b : Buffer) (s : Bytes) : store b s = .ok s ∨ store b s = .error b := by
  unfold store
  split_ifs
  · exact .inl rfl
  · exact .inr rfl

theorem length_openError : openError.length = 32 := rfl

theorem store_errormsg_iff {catalogName : Bytes} :
    store .errormsg (openError ++ catalogName) = .ok (openError ++ catalogName) ↔
      catalogName.length ≤ 223 := by
  simp only [store, List.length_append, length_openError, Buffer.size]
  split_ifs with h
  · exact ⟨fun _ => by omega, fun _ => rfl⟩
  · exact ⟨nofun, fun _ => by omega⟩

end Store

/-- A bounded computation ends with the overflow of a buffer or as the unbounded one does. -/
def Agree {α : Type} (x : Except Buffer α) (a : α) : Prop := x = .ok a ∨ ∃ b, x = .error b

section Agree

variable {α β : Type}

theorem agree_pure (a : α) : Agree (pure a : Except Buffer α) a := .inl rfl

theorem agree_store (b : Buffer) (s : Bytes) : Agree (store b s) s :=
  (store_cases b s).imp id fun h => ⟨b, h⟩

theorem Agree.bind {x : Except Buffer α} {a : α} {f : α → Except Buffer β} {c : β} (hx : Agree x a)
    (hf : Agree (f a) c) : Agree (x >>= f) c := by
  rcases hx with rfl | ⟨b, rfl⟩
  · exact hf
  · exact .inr ⟨b, rfl⟩

end Agree

theorem Agree.eq_ok {α : Type} {x : Except Buffer α} {a c : α} (hx : Agree x a) (h : x = .ok c) :
    c = a := by
  rcases hx with hx | ⟨b, hx⟩
  · exact Except.ok.inj (h.symm.trans hx)
  · cases h.symm.trans hx

theorem agree_storeItem (i : Item) : Agree (storeItem i) () := by
  cases i with
  | char c => exact agree_pure _
  | num z => exact agree_pure _
  | str s => exact (agree_store _ _).bind (agree_pure _)

theorem agree_forM_storeItem (items : List Item) : Agree (items.forM storeItem) () := by
  induction items with
  | nil => exact agree_pure _
  | cons i items ih => exact (agree_storeItem i).bind ih

theorem agree_splitLink (l : Locals) : Agree (splitLink l) (entryOfLocals l) := by
  unfold splitLink
  by_cases hc : l.c = ch 'l'
  · rw [if_pos hc]
    apply (agree_store _ _).bind
    have hst : ∀ linkDest, (linkDest = if l.filePath.length ≠ (l.filePath.takeWhile
        (· ≠ linkSep)).length then l.filePath.drop ((l.filePath.takeWhile (· ≠ linkSep)).length + 1)
          else l.linkDest) →
        Agree (do
          let filePath ← store .filePath (l.filePath.takeWhile (· ≠ linkSep))
          return { entryOfLocals l with filePath, linkDest }) (entryOfLocals l) := by
      rintro linkDest rfl
      apply (agree_store _ _).bind
      simp only [entryOfLocals, if_pos hc]
      exact agree_pure _
    by_cases hlen : l.filePath.length ≠ (l.filePath.takeWhile (· ≠ linkSep)).length
    · rw [if_pos hlen]
      exact (agree_store _ _).bind (hst _ (if_pos hlen).symm)
    · rw [if_neg hlen]
      exact (agree_pure _).bind (hst _ (if_neg hlen).symm)
  · rw [if_neg hc]
    exact agree_pure _

theorem agree_decodeBounded (stale : Locals) (entry : Bytes) :
    Agree (decodeBounded stale entry) (decode stale entry) :=
  (agree_forM_storeItem _).bind (agree_splitLink _)

theorem agree_getEntryFromCatalogBounded (catalogName : Bytes) (g : Globals) (location : ℤ)
    (probes : ℕ → Probe) (w : World) :
    Agree (getEntryFromCatalogBounded catalogName g location probes w)
      (getEntryFromCatalog g location probes w) := by
  unfold getEntryFromCatalogBounded getEntryFromCatalog
  apply (agree_store _ _).bind
  cases hcontent : (probes w.probes).content with
  | none =>
    simp only [hcontent]
    exact agree_pure _
  | some content =>
    simp only [hcontent]
    split_ifs
    · exact agree_pure _
    · exact agree_pure _
    · exact (agree_decodeBounded _ _).bind (agree_pure _)

/-- Unless a buffer overflows, `getEntry_depth_filepath` with its buffers does what it does without
them. -/
theorem agree_getEntryDepthFilepathBounded (catalogName : Bytes) (g : Globals) (location : ℤ)
    (probes : ℕ → Probe) (w : World) :
    Agree (getEntryDepthFilepathBounded catalogName g location probes w)
      (getEntryDepthFilepath g location probes w) := by
  unfold getEntryDepthFilepathBounded
  apply (agree_getEntryFromCatalogBounded catalogName g location probes w).bind
  change Agree _ ((getEntryFromCatalog g location probes w).bind _)
  rcases getEntryFromCatalog g location probes w with _ | ⟨_ | st, w'⟩
  · exact agree_pure _
  · exact agree_pure _
  · exact (agree_store _ _).bind (agree_pure _)

section Fits

variable {line : Bytes} {l stale : Locals}

theorem length_filePath_le (l : Locals) : (entryOfLocals l).filePath.length ≤ l.filePath.length := by
  unfold entryOfLocals
  split_ifs
  · exact (List.takeWhile_prefix _).length_le
  · exact le_rfl

theorem splitLink_of_fits (h : l.filePath.length < maxPathLen) :
    splitLink l = .ok (entryOfLocals l) := by
  have hlen : (l.filePath.takeWhile (· ≠ linkSep)).length < maxPathLen :=
    (List.takeWhile_prefix _).length_le.trans_lt h
  have htemp := store_of_fits (b := .temp) hlen
  have hpath := store_of_fits (b := .filePath) hlen
  have hdest : store .linkDest
      (l.filePath.drop ((l.filePath.takeWhile (· ≠ linkSep)).length + 1)) = .ok _ :=
    store_of_fits (by rw [List.length_drop]; exact (Nat.sub_le _ _).trans_lt h)
  have hok : ∃ st, splitLink l = .ok st := by
    simp only [splitLink, htemp, bind, Except.bind]
    split_ifs
    · simp only [hdest, hpath]
      exact ⟨_, rfl⟩
    · simp only [pure, Except.pure, hpath]
      exact ⟨_, rfl⟩
    · exact ⟨_, rfl⟩
  obtain ⟨st, hst⟩ := hok
  rw [hst, (agree_splitLink l).eq_ok hst]

theorem decodeBounded_of_pathFits (h : PathFits line) (stale : Locals) :
    ∃ st, decodeBounded stale line = .ok st ∧ st.filePath.length < maxPathLen := by
  obtain ⟨f, hf⟩ := exists_fields h.1
  have hlen : f.filePath.length < maxPathLen := h.2 _ (by rw [hf]; simp [Fields.items])
  have hforM : (sscanf entryFormat (cstr line)).forM storeItem = .ok () := by
    rw [hf]
    change (storeItem (.str f.filePath) >>= fun _ => pure ()) = _
    rw [storeItem, store_of_fits (b := .filePath) hlen]
    rfl
  refine ⟨_, ?_, (length_filePath_le (f.locals stale.linkDest)).trans_lt hlen⟩
  rw [decodeBounded, hforM]
  change splitLink (assignItems stale (sscanf entryFormat (cstr line))) = _
  rw [hf, assignItems_items]
  exact splitLink_of_fits hlen

def longPath : Bytes := List.replicate maxPathLen (ch 'x')

theorem length_longPath : longPath.length = maxPathLen := List.length_replicate

theorem linkSep_notMem_longPath : linkSep ∉ longPath := fun h =>
  absurd (List.eq_of_mem_replicate h) (by decide)

/-- Before the path is converted, `file_path` is not written to. -/
theorem filePath_assignItems (l : Locals) (items : List Item) (h : items.length ≤ 10) :
    (assignItems l items).filePath = l.filePath := by
  have hargs : ∀ f ∈ entryArgs.take 10, ∀ i l, (f i l).filePath = l.filePath := by
    intro f hf i l
    fin_cases hf <;> cases i <;> rfl
  have hfold : ∀ (ps : List ((Item → Locals → Locals) × Item)) (l : Locals),
      (∀ p ∈ ps, p.1 ∈ entryArgs.take 10) →
        (ps.foldl (fun l p => p.1 p.2 l) l).filePath = l.filePath := by
    intro ps
    induction ps with
    | nil => exact fun _ _ => rfl
    | cons p ps ih =>
      intro l hps
      rw [List.foldl_cons, ih _ fun q hq => hps q (List.mem_cons_of_mem p hq)]
      exact hargs p.1 (hps p List.mem_cons_self) p.2 l
  apply hfold
  intro p hp
  rw [List.zip_eq_zip_take_min] at hp
  exact List.take_subset_take_left _ (by omega) (List.of_mem_zip hp).1

/-- Whatever else is decoded, the path that filled the buffer is too long to be copied. -/
theorem decodeBounded_of_not_pathFits (h : ¬ PathFits line) (hstale : stale.filePath = longPath)
    {st : StatWdf} (hst : decodeBounded stale line = .ok st) : maxPathLen ≤ st.filePath.length := by
  by_cases hconv : Converted line
  · -- the path field itself is too long
    obtain ⟨f, hf⟩ := exists_fields hconv
    have hlong : maxPathLen ≤ f.filePath.length := by
      by_contra hlt
      refine h ⟨hconv, fun s hs => ?_⟩
      rw [hf] at hs
      obtain rfl : s = f.filePath := by simpa [Fields.items] using hs
      omega
    have hforM : f.items.forM storeItem = .error .filePath := by
      change (storeItem (.str f.filePath) >>= fun _ => pure ()) = _
      rw [storeItem, store_of_not_fits (b := .filePath) hlong]
      rfl
    rw [decodeBounded, hf, hforM] at hst
    cases hst
  · -- the path is what the buffer held
    have hlen : (sscanf entryFormat (cstr line)).length ≤ 10 := by
      have hle := (sscanf_kind_isPrefix entryFormat (cstr line)).length_le
      rw [List.length_map] at hle
      exact Nat.le_of_lt_succ (lt_of_le_of_ne hle hconv)
    have hpath := (filePath_assignItems stale _ hlen).trans hstale
    obtain rfl := (agree_decodeBounded stale line).eq_ok hst
    rw [decode, entryOfLocals]
    split_ifs with hc
    · dsimp only
      rw [hpath, takeWhile_ne_eq_self.mpr linkSep_notMem_longPath, length_longPath]
    · dsimp only
      rw [hpath, length_longPath]

end Fits

section Calls

variable {catalogName file : Bytes} {g : Globals} {k : ℕ}

def filled (file : Bytes) : ℕ → Probe := fun i =>
  { steady file i with stale := { (steady file i).stale with filePath := longPath } }

theorem toInt_le {z : ℤ} (h : 0 ≤ z) : toInt z ≤ z := by
  have hmod : z % ((2 ^ 32 : ℕ) : ℤ) ≤ z := by omega
  rw [toInt, Int.bmod_def]
  split_ifs
  · exact hmod
  · exact (Int.sub_le_self _ (by norm_num)).trans hmod

theorem readEntry_eq_bytesRead (hk : k < g.catalogLen)
    (hsize : g.entrySize * g.catalogLen ≤ file.length) (stale : ℕ → Byte) :
    readEntry file (toInt (g.entrySize * k)).toNat g.entrySize stale = bytesRead g file k := by
  apply readEntry_eq
  have hle : toInt ((g.entrySize : ℤ) * k) ≤ (g.entrySize * k : ℕ) := by
    rw [Nat.cast_mul]
    exact toInt_le (by positivity)
  have hlast : g.entrySize * k + g.entrySize ≤ g.entrySize * g.catalogLen := by
    rw [← Nat.mul_succ]
    exact Nat.mul_le_mul_left _ hk
  omega

theorem overflow_of_long_name (h : ¬ catalogName.length ≤ 223) (probes : ℕ → Probe) (w : World) :
    getEntryDepthFilepathBounded catalogName g k probes w = .error .errormsg := by
  have hstore : store .errormsg (openError ++ catalogName) = .error .errormsg := by
    refine (store_cases _ _).resolve_left fun hok => h (store_errormsg_iff.mp hok)
  rw [getEntryDepthFilepathBounded, getEntryFromCatalogBounded, hstore]
  rfl

section Reads

variable (hname : catalogName.length ≤ 223) (hk : k < g.catalogLen)
  (hsize : g.entrySize * g.catalogLen ≤ file.length)

include hname hk hsize

theorem bounded_of_reads {probes : ℕ → Probe} {w : World}
    (hcontent : (probes w.probes).content = some file)
    (hseek : ((probes w.probes).seekFails || decide (toInt (g.entrySize * k) < 0)) = false)
    (hread : (probes w.probes).readFails = false) :
    ∃ w', getEntryDepthFilepathBounded catalogName g k probes w =
      (do
        let st ← decodeBounded (probes w.probes).stale (bytesRead g file k)
        let filePath ← store .result st.filePath
        return some (some (st.depth, filePath), w')) := by
  refine ⟨⟨w.probes + 1, w.openFds, w.locations ++ [(k : ℤ)]⟩, ?_⟩
  rw [getEntryDepthFilepathBounded, getEntryFromCatalogBounded, store_errormsg_iff.mpr hname]
  simp only [hcontent, hseek, hread, readEntry_eq_bytesRead hk hsize, Bool.false_eq_true, if_false]
  cases decodeBounded (probes w.probes).stale (bytesRead g file k) <;> rfl

theorem bounded_ok (hfits : toInt (g.entrySize * k) < 0 ∨ PathFits (bytesRead g file k))
    {probes : ℕ → Probe} {w : World} (hcontent : (probes w.probes).content = some file) :
    ∃ r, getEntryDepthFilepathBounded catalogName g k probes w = .ok r := by
  cases hseek : (probes w.probes).seekFails || decide (toInt (g.entrySize * k) < 0) with
  | true =>
    rw [getEntryDepthFilepathBounded, getEntryFromCatalogBounded, store_errormsg_iff.mpr hname]
    simp only [hcontent, hseek, if_true]
    exact ⟨_, rfl⟩
  | false =>
    cases hread : (probes w.probes).readFails with
    | true =>
      rw [getEntryDepthFilepathBounded, getEntryFromCatalogBounded, store_errormsg_iff.mpr hname]
      simp only [hcontent, hseek, hread, Bool.false_eq_true, if_false, if_true]
      exact ⟨_, rfl⟩
    | false =>
      have hneg : ¬ toInt (g.entrySize * k) < 0 := by
        intro hneg
        simp [hneg] at hseek
      obtain ⟨w', hcall⟩ := bounded_of_reads hname hk hsize hcontent hseek hread
      obtain ⟨st, hst, hlen⟩ :=
        decodeBounded_of_pathFits (hfits.resolve_left hneg) (probes w.probes).stale
      have hstore := store_of_fits (b := .result) hlen
      rw [hcall, hst]
      change ∃ r, (store .result st.filePath >>= _) = _
      rw [hstore]
      exact ⟨_, rfl⟩

/-- Some content of `file_path` makes a call for any other record overflow. -/
theorem exists_overflow (hneg : ¬ toInt (g.entrySize * k) < 0)
    (hfits : ¬ PathFits (bytesRead g file k)) :
    ∃ b, getEntryDepthFilepathBounded catalogName g k (filled file) ⟨0, 0, []⟩ = .error b := by
  have hseek : ((filled file 0).seekFails || decide (toInt (g.entrySize * k) < 0)) = false := by
    simp [filled, steady, hneg]
  obtain ⟨w', hcall⟩ := bounded_of_reads hname hk hsize (w := ⟨0, 0, []⟩) rfl hseek rfl
  rw [hcall]
  cases hdecode : decodeBounded (filled file 0).stale (bytesRead g file k) with
  | error b => exact ⟨b, rfl⟩
  | ok st =>
    have hstore := store_of_not_fits (b := .result)
      (decodeBounded_of_not_pathFits hfits rfl hdecode)
    change ∃ b, (store .result st.filePath >>= _) = _
    rw [hstore]
    exact ⟨_, rfl⟩

end Reads

/-- Calls overflow no buffer exactly when the name of the catalog leaves room in the message and
everything that is read at an offset is a record with room for its path field. -/
theorem neverOverflows_iff (hpos : 0 < g.catalogLen)
    (hsize : g.entrySize * g.catalogLen ≤ file.length) :
    NeverOverflows catalogName g file ↔ catalogName.length ≤ 223 ∧
      ∀ k : ℕ, k < g.catalogLen → toInt (g.entrySize * k) < 0 ∨ PathFits (bytesRead g file k) := by
  constructor
  · intro h
    have hname : catalogName.length ≤ 223 := by
      by_contra hlong
      exact h 0 hpos (filled file) ⟨0, 0, []⟩ rfl _ (overflow_of_long_name hlong _ _)
    refine ⟨hname, fun k hk => ?_⟩
    rw [or_iff_not_imp_left]
    intro hneg
    by_contra hfits
    obtain ⟨b, hb⟩ := exists_overflow hname hk hsize hneg hfits
    exact h k hk (filled file) ⟨0, 0, []⟩ rfl b hb
  · rintro ⟨hname, hfits⟩ k hk probes w hcontent b hb
    obtain ⟨r, hr⟩ := bounded_ok hname hk hsize (hfits k hk) hcontent
    cases hr.symm.trans hb

end Calls

section Generated

variable {recs : List Record}

theorem pathFits_padLine {r : Record} (h : r.Printable) (w : ℕ) :
    PathFits (padLine w r.text) ↔ (r.name.takeWhile (· ≠ sep)).length < maxPathLen := by
  simp only [PathFits, Converted, sscanf_padLine h]
  constructor
  · intro hfits
    exact hfits.2 _ (by simp [Record.items])
  · intro hlen
    refine ⟨rfl, fun s hs => ?_⟩
    obtain rfl : s = r.name.takeWhile (· ≠ sep) := by simpa [Record.items] using hs
    exact hlen

theorem size_catalogFile (h : ∀ r ∈ recs, r.Printable) :
    (geometry (catalogFile recs)).entrySize * (geometry (catalogFile recs)).catalogLen =
      (catalogFile recs).length := by
  conv_rhs => rw [← lines_flatten (catalogFile recs)]
  rw [length_flatten_of_length_eq (length_line_catalogFile h)]
  rfl

theorem catalogLen_pos (hne : recs ≠ []) (h : ∀ r ∈ recs, r.Printable) :
    0 < (geometry (catalogFile recs)).catalogLen := by
  change 0 < (lines (catalogFile recs)).length
  rw [length_lines_catalogFile h]
  exact Nat.add_pos_left (List.length_pos_iff.mpr hne) _

theorem bytesRead_catalogFile (h : ∀ r ∈ recs, r.Printable) (hn : ∀ r ∈ recs, newline ∉ r.name)
    {k : ℕ} {r : Record} (hr : recs[k]? = some r) (hoffset : maxLen (catalogFile recs) * k < 2 ^ 31) :
    bytesRead (geometry (catalogFile recs)) (catalogFile recs) k =
      padLine (maxLen (catalogFile recs)) r.text := by
  have hint : toInt ((maxLen (catalogFile recs) : ℤ) * k) = (maxLen (catalogFile recs) * k : ℕ) := by
    rw [← Nat.cast_mul]
    exact toInt_of_lt (by omega) (by omega)
  change ((catalogFile recs).drop (toInt ((maxLen (catalogFile recs) : ℤ) * k)).toNat).take
    (maxLen (catalogFile recs)) = _
  rw [hint, Int.toNat_natCast, slice_catalogFile h hn hr]

/-- Where no name holds a newline and every offset fits, the records have to have room for their path
field. -/
theorem neverOverflows_catalogFile_iff (hne : recs ≠ []) (h : ∀ r ∈ recs, r.Printable)
    (hn : ∀ r ∈ recs, newline ∉ r.name)
    (hoffset : ∀ k < recs.length, maxLen (catalogFile recs) * k < 2 ^ 31) {catalogName : Bytes} :
    NeverOverflows catalogName (geometry (catalogFile recs)) (catalogFile recs) ↔
      catalogName.length ≤ 223 ∧ ∀ r ∈ recs, (r.name.takeWhile (· ≠ sep)).length < maxPathLen := by
  rw [neverOverflows_iff (catalogLen_pos hne h) (size_catalogFile h).le]
  apply and_congr_right
  intro _
  have hlen : (geometry (catalogFile recs)).catalogLen = recs.length :=
    (length_lines_catalogFile_eq_iff h).mpr hn
  rw [hlen]
  constructor
  · intro hfits r hr
    obtain ⟨k, hk⟩ := List.mem_iff_getElem?.mp hr
    obtain ⟨hlt, -⟩ := List.getElem?_eq_some_iff.mp hk
    have hnonneg : ¬ toInt ((geometry (catalogFile recs)).entrySize * k) < 0 := by
      change ¬ toInt ((maxLen (catalogFile recs) : ℤ) * k) < 0
      have hlt' := hoffset k hlt
      rw [← Nat.cast_mul, toInt_of_lt (by omega) (by omega)]
      omega
    have hfit := (hfits k hlt).resolve_left hnonneg
    rw [bytesRead_catalogFile h hn hk (hoffset k hlt)] at hfit
    exact (pathFits_padLine (h r hr) _).mp hfit
  · intro hpaths k hk
    have hr := List.getElem?_eq_getElem hk
    rw [bytesRead_catalogFile h hn hr (hoffset k hk)]
    exact .inr ((pathFits_padLine (h _ (List.getElem_mem hk)) _).mpr (hpaths _ (List.getElem_mem hk)))

/-- When the reader can hold what the generator writes. It can exactly when the name of the catalog
leaves room in the message and all that is read at an offset are records with room for their path
field. Where no name holds a newline and every offset fits, the records are those of the generator,
and the path field is the path, for a link with a `\2` and the target behind it, up to the first
`\1`. -/
theorem catalogFile_neverOverflows_iff (hne : recs ≠ []) (h : ∀ r ∈ recs, r.Printable)
    (catalogName : Bytes) :
    (NeverOverflows catalogName (geometry (catalogFile recs)) (catalogFile recs) ↔
      catalogName.length ≤ 223 ∧ ∀ k : ℕ, k < (geometry (catalogFile recs)).catalogLen →
        toInt ((geometry (catalogFile recs)).entrySize * k) < 0 ∨
          PathFits (bytesRead (geometry (catalogFile recs)) (catalogFile recs) k)) ∧
    ((∀ r ∈ recs, newline ∉ r.name) → (∀ k < recs.length, maxLen (catalogFile recs) * k < 2 ^ 31) →
      (NeverOverflows catalogName (geometry (catalogFile recs)) (catalogFile recs) ↔
        catalogName.length ≤ 223 ∧
          ∀ r ∈ recs, (r.name.takeWhile (· ≠ sep)).length < maxPathLen)) := by
  exact ⟨neverOverflows_iff (catalogLen_pos hne h) (size_catalogFile h).le,
    fun hn hoffset => neverOverflows_catalogFile_iff hne h hn hoffset⟩

end Generated

/-- What a process needs to serve a catalog: the offsets fit an `int`, the array for a record fits on
the stack, and no string overflows its buffer. -/
structure Mountable (catalogName : Bytes) (stack : ℕ) (file : Bytes) : Prop where
  size_lt : maxLen file * (lines file).length < 2 ^ 31
  entry : EntryFits stack (geometry file)
  buffers : NeverOverflows catalogName (geometry file) file

theorem catalogFile_neverOverflows_iff_pair :
    NeverOverflows [ch 'c'] (geometry (catalogFile pairRecords)) (catalogFile pairRecords) :=
  ((catalogFile_neverOverflows_iff (List.cons_ne_nil _ _) printable_pairRecords [ch 'c']).2
    (by decide) (by decide)).mpr ⟨by decide, by decide⟩

/-- The name of a catalog that is 224 bytes long does not fit into the message. -/
theorem not_neverOverflows_longName :
    ¬ NeverOverflows (List.replicate 224 (ch 'x')) (geometry (catalogFile pairRecords))
      (catalogFile pairRecords) := by
  intro h
  have hlong : ¬ (List.replicate 224 (ch 'x')).length ≤ 223 := by
    rw [List.length_replicate]
    omega
  exact h 0 (by decide) (steady (catalogFile pairRecords)) ⟨0, 0, []⟩ rfl _
    (overflow_of_long_name hlong _ _)

end CatalogFS
