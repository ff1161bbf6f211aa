import CatalogFS.Listing
import CatalogFS.Padding
import CatalogFS.Reading
import CatalogFS.TreeHost

namespace CatalogFS

open CLib

def Record.items (r : Record) : List Item :=
  [.char r.c, .num r.mode, .num r.nlink, .num r.uid, .num r.gid, .num r.size, .num r.atime,
    .num r.mtime, .num r.ctime, .num r.depth, .str (r.name.takeWhile (· ≠ sep))]

theorem exists_name_eq_cons {r : Record} (h : r.path.head? = some slash) :
    ∃ s, r.name = slash :: s := by
  obtain ⟨p, hp⟩ := List.head?_eq_some_iff.mp h
  unfold Record.name
  split_ifs
  · exact ⟨p ++ linkSep :: r.linkDest, by rw [hp]; rfl⟩
  · exact ⟨p, hp⟩

/-- The scan converts everything up to the first `\1` behind the path and then fails on the `s` of
its format, whatever follows. -/
theorem sscanf_body {r : Record} (h : r.path.head? = some slash) (rest : Bytes) :
    sscanf entryFormat (r.body ++ sep :: rest) = r.items := by
  obtain ⟨s, hs⟩ := exists_name_eq_cons h
  obtain ⟨u, hu⟩ := exists_dropWhile_ne_append sep r.name rest
  have htake : (r.name ++ sep :: rest).takeWhile (· ≠ sep) = r.name.takeWhile (· ≠ sep) :=
    takeWhile_ne_append sep r.name rest
  have hne : (r.name ++ sep :: rest).takeWhile (· ≠ sep) ≠ [] := by
    rw [htake, hs]
    simp [slash, sep]
  have hsep : ∀ c ∈ (sep :: (r.name ++ sep :: rest)).head?, isSpace c = false := by
    intro c hc
    obtain rfl : sep = c := by simpa using hc
    rfl
  have hlit : sscanf [.lit (ch 's'), .lit sep, .space] (sep :: u) = [] := rfl
  simp only [Record.body, Record.numbers, List.flatMap_cons, List.flatMap_nil, List.append_nil,
    List.cons_append, List.append_assoc]
  rw [entryFormat, sscanf_char, sscanf_octal, sscanf_decimal, sscanf_decimal, sscanf_decimal,
    sscanf_decimal, sscanf_decimal, sscanf_decimal, sscanf_decimal, sscanf_decimal,
    sscanf_space _ hsep, sscanf_lit_self, sscanf_until _ hne, htake, hu, hlit]
  rfl

def Record.stat (r : Record) : Stat where
  stMode := (addTypeBits r.c (toULong r.mode)).toUInt32
  stNlink := (toLong r.nlink).toUInt64
  stUid := (toLong r.uid).toUInt64.toUInt32
  stGid := (toLong r.gid).toUInt64.toUInt32
  stSize := toLong r.size
  stAtime := toLong r.atime
  stMtime := toLong r.mtime
  stCtime := toLong r.ctime

/-- What a record tells when its path is read back; the target ends at the first `\1`. -/
def Record.entry (r : Record) : Entry :=
  ⟨r.depth, r.path, r.stat, some (if r.c = ch 'l' then r.linkDest.takeWhile (· ≠ sep) else [])⟩

/-- No separator stands where it would end the line or the path. -/
structure Record.Clean (r : Record) : Prop where
  path : sep ∉ r.path ∧ newline ∉ r.path
  link : r.c = ch 'l' → linkSep ∉ r.path ∧ newline ∉ r.linkDest

theorem entryOfLocals_items (r : Record) (stale : Locals) :
    entryOfLocals (assignItems stale r.items) =
      if r.c = ch 'l' then
        ⟨toInt (toLong r.depth).toInt, (r.name.takeWhile (· ≠ sep)).takeWhile (· ≠ linkSep), r.stat,
          if (r.name.takeWhile (· ≠ sep)).length ≠
              ((r.name.takeWhile (· ≠ sep)).takeWhile (· ≠ linkSep)).length
          then (r.name.takeWhile (· ≠ sep)).drop
            (((r.name.takeWhile (· ≠ sep)).takeWhile (· ≠ linkSep)).length + 1)
          else stale.linkDest⟩
      else ⟨toInt (toLong r.depth).toInt, r.name.takeWhile (· ≠ sep), r.stat, []⟩ := by
  unfold entryOfLocals
  rfl

theorem toInt_toLong_toInt {z : ℤ} (h1 : -2 ^ 31 ≤ z) (h2 : z < 2 ^ 31) :
    toInt (toLong z).toInt = z := by
  have hz : max (-2 ^ 63) (min z (2 ^ 63 - 1)) = z := by omega
  rw [toLong, hz, Int64.toInt_ofInt_of_le (by omega) (by omega), toInt_of_lt h1 h2]

theorem entryOfLocals_items_of_notMem {r : Record} (h1 : -2 ^ 31 ≤ r.depth) (h2 : r.depth < 2 ^ 31)
    (hsep : sep ∉ r.path) (hlink : r.c = ch 'l' → linkSep ∉ r.path) (stale : Locals) :
    entryOfLocals (assignItems stale r.items) = r.entry.statWdf stale.linkDest := by
  rw [entryOfLocals_items, toInt_toLong_toInt h1 h2]
  by_cases hc : r.c = ch 'l'
  · have hentry : r.entry.statWdf stale.linkDest =
        ⟨r.depth, r.path, r.stat, r.linkDest.takeWhile (· ≠ sep)⟩ := by
      simp [Entry.statWdf, Record.entry, hc]
    have htake : r.name.takeWhile (· ≠ sep) =
        r.path ++ linkSep :: r.linkDest.takeWhile (· ≠ sep) := by
      rw [Record.name, if_pos hc, List.takeWhile_append_of_pos fun b hb => by
        simpa using fun hba : b = sep => hsep (hba ▸ hb)]
      rfl
    rw [if_pos hc, hentry, htake, takeWhile_ne_append, takeWhile_ne_eq_self.mpr (hlink hc),
      if_pos (by simp)]
    simp
  · have hentry : r.entry.statWdf stale.linkDest = ⟨r.depth, r.path, r.stat, []⟩ := by
      simp [Entry.statWdf, Record.entry, hc]
    rw [if_neg hc, hentry, Record.name, if_neg hc, takeWhile_ne_eq_self.mpr hsep]

theorem notMem_of_filePath_eq {r : Record} {stale : Locals}
    (h : (entryOfLocals (assignItems stale r.items)).filePath = r.path) :
    sep ∉ r.path ∧ (r.c = ch 'l' → linkSep ∉ r.path) := by
  rw [entryOfLocals_items] at h
  by_cases hc : r.c = ch 'l'
  · rw [if_pos hc] at h
    dsimp only at h
    -- what is read back is cut at the first `\1` and then at the first `\2`
    refine ⟨fun hmem => ?_, fun _ => h ▸ notMem_takeWhile_ne linkSep _⟩
    rw [← h] at hmem
    exact notMem_takeWhile_ne sep _ ((List.takeWhile_sublist _).mem hmem)
  · rw [if_neg hc] at h
    exact ⟨h ▸ notMem_takeWhile_ne sep _, fun hl => absurd hl hc⟩

/-- A record is read back exactly when it has no `\1` in its path and, for a link, no `\2` in its
path and no `\1` in its target. -/
theorem entryOfLocals_items_eq_iff {r : Record} (h1 : -2 ^ 31 ≤ r.depth) (h2 : r.depth < 2 ^ 31)
    (stale : Locals) :
    entryOfLocals (assignItems stale r.items) =
        ⟨r.depth, r.path, r.stat, if r.c = ch 'l' then r.linkDest else []⟩ ↔
      sep ∉ r.path ∧ (r.c = ch 'l' → linkSep ∉ r.path ∧ sep ∉ r.linkDest) := by
  constructor
  · intro h
    obtain ⟨hsep, hlink⟩ := notMem_of_filePath_eq (congrArg StatWdf.filePath h)
    refine ⟨hsep, fun hc => ⟨hlink hc, ?_⟩⟩
    rw [entryOfLocals_items_of_notMem h1 h2 hsep hlink] at h
    have htarget := congrArg StatWdf.linkDest h
    simp only [Entry.statWdf, Record.entry, Option.getD_some, if_pos hc] at htarget
    exact takeWhile_ne_eq_self.mp htarget
  · rintro ⟨hsep, hlink⟩
    -- with a clean path only the target of a link can differ
    rw [entryOfLocals_items_of_notMem h1 h2 hsep fun hc => (hlink hc).1]
    by_cases hc : r.c = ch 'l'
    · simp only [Entry.statWdf, Record.entry, Option.getD_some, if_pos hc,
        takeWhile_ne_eq_self.mpr (hlink hc).2]
    · simp only [Entry.statWdf, Record.entry, Option.getD_some, if_neg hc]

theorem exists_body_eq (r : Record) :
    ∃ s, r.body = r.c :: (s ++ r.name) ∧ ∀ b ∈ s, b = 32 ∨ b = sep ∨ 45 ≤ b.val := by
  refine ⟨r.numbers.flatMap (32 :: ·) ++ [32, sep], by simp [Record.body], fun b hb => ?_⟩
  rcases List.mem_append.mp hb with hb | hb
  · obtain ⟨n, hn, hb⟩ := List.mem_flatMap.mp hb
    rcases List.mem_cons.mp hb with rfl | hb
    · exact .inl rfl
    · refine .inr (.inr ?_)
      simp only [Record.numbers, List.mem_cons, List.not_mem_nil, or_false] at hn
      obtain rfl | hn := hn
      · exact le_val_of_mem_octal hb
      · rcases hn with rfl | rfl | rfl | rfl | rfl | rfl | rfl | rfl <;>
          exact le_val_of_mem_decimal hb
  · rcases List.mem_pair.mp hb with rfl | rfl
    · exact .inl rfl
    · exact .inr (.inl rfl)

/-- A record that can stand on a line: its letter is a letter, its path begins with a slash, and
nothing in it is a NUL. -/
structure Record.Printable (r : Record) : Prop where
  letter : 45 ≤ r.c.val
  head_path : r.path.head? = some slash
  nul_notMem : 0 ∉ r.name

theorem mem_body_iff {r : Record} (h : r.Printable) {b : Byte} (hb : b ≠ 32) (hs : b ≠ sep)
    (hv : b.val < 45) : b ∈ r.body ↔ b ∈ r.name := by
  obtain ⟨s, hs', hmem⟩ := exists_body_eq r
  have hc : b ≠ r.c := fun e => by have := h.letter; rw [← e] at this; omega
  have hns : b ∉ s := fun hb' => by
    rcases hmem b hb' with e | e | e
    · exact hb e
    · exact hs e
    · omega
  simp [hs', hc, hns]

theorem nul_notMem_body {r : Record} (h : r.Printable) : 0 ∉ r.body := by
  rw [mem_body_iff h (by decide) (by decide) (by decide)]
  exact h.nul_notMem

theorem newline_mem_body {r : Record} (h : r.Printable) : newline ∈ r.body ↔ newline ∈ r.name :=
  mem_body_iff h (by decide) (by decide) (by decide)

theorem newline_notMem_name {r : Record} (h : r.Clean) : newline ∉ r.name := by
  unfold Record.name
  split_ifs with hc
  · simp only [List.mem_append, List.mem_cons, not_or]
    exact ⟨h.path.2, by decide, (h.link hc).2⟩
  · exact h.path.2

theorem getLast?_text {recs : List Record} (hne : recs ≠ []) :
    (recs.flatMap Record.text).getLast? = some newline := by
  obtain ⟨rs, r, rfl⟩ := (List.eq_nil_or_concat recs).resolve_left hne
  simp [Record.text]

/-- Every line of a file of records is a text line, also where a name holds a newline. -/
theorem isTextLine_of_mem_lines {recs : List Record} (h : ∀ r ∈ recs, r.Printable) :
    ∀ l ∈ lines (recs.flatMap Record.text), IsTextLine l := by
  intro l hl
  have hnul : 0 ∉ recs.flatMap Record.text := by
    intro h0
    obtain ⟨r, hr, h0⟩ := List.mem_flatMap.mp h0
    rcases List.mem_append.mp h0 with h0 | h0
    · exact nul_notMem_body (h r hr) h0
    · exact absurd h0 (by decide)
  have hne : recs ≠ [] := by
    rintro rfl
    simp [lines] at hl
  obtain ⟨body, hbody, rfl⟩ := isLine_of_mem_lines (getLast?_text hne) l hl
  exact ⟨body, hbody, fun h0 => hnul (mem_of_mem_lines hl (List.mem_append_left _ h0)), rfl⟩

/-- The number of lines of a file of records: one for each record and one more for each newline in
a name. -/
theorem length_lines_text {recs : List Record} (h : ∀ r ∈ recs, r.Printable) :
    (lines (recs.flatMap Record.text)).length =
      recs.length + (recs.map fun r => r.name.count newline).sum := by
  rw [length_lines_of_isLine fun l hl => (isTextLine_of_mem_lines h l hl).isLine]
  induction recs with
  | nil => rfl
  | cons r recs ih =>
    obtain ⟨s, hs, hmem⟩ := exists_body_eq r
    have hr := h r List.mem_cons_self
    have hc : newline ≠ r.c := fun e => by have := hr.letter; rw [← e] at this; simp [newline] at this
    have hns : newline ∉ s := fun hb => by
      rcases hmem _ hb with e | e | e
      · exact absurd e (by decide)
      · exact absurd e (by decide)
      · exact absurd e (by decide)
    have hcount : r.text.count newline = r.name.count newline + 1 := by
      rw [Record.text, hs, List.count_append, List.count_cons_of_ne hc.symm, List.count_append,
        List.count_eq_zero_of_not_mem hns, Nat.zero_add]
      rfl
    rw [List.flatMap_cons, List.count_append, hcount, ih fun x hx => h x (List.mem_cons_of_mem r hx),
      List.map_cons, List.sum_cons, List.length_cons]
    omega

theorem lines_text {recs : List Record} (h : ∀ r ∈ recs, r.Printable)
    (hn : ∀ r ∈ recs, newline ∉ r.name) :
    lines (recs.flatMap Record.text) = recs.map Record.text := by
  rw [List.flatMap_def]
  apply lines_flatten_of_isLine
  intro l hl
  obtain ⟨r, hr, rfl⟩ := List.mem_map.mp hl
  refine ⟨r.body ++ [sep], ?_, by simp [Record.text]⟩
  simp only [List.mem_append, not_or]
  exact ⟨fun hb => hn r hr ((newline_mem_body (h r hr)).mp hb), by decide⟩

theorem sscanf_padLine {r : Record} (h : r.Printable) (w : ℕ) :
    sscanf entryFormat (cstr (padLine w r.text)) = r.items := by
  have htext : r.text = (r.body ++ [sep]) ++ [newline] := by simp [Record.text]
  have h0 : 0 ∉ r.body ++ [sep] := by
    simp only [List.mem_append, not_or]
    exact ⟨nul_notMem_body h, by decide⟩
  rw [htext, padLine_eq h0, cstr_of_notMem]
  · simp only [List.append_assoc, List.cons_append, List.nil_append]
    exact sscanf_body h.head_path _
  · simp only [List.mem_append, not_or]
    exact ⟨⟨by simpa using h0, nul_notMem_replicate_sep _⟩, by decide⟩

theorem holdsEntry_padLine {r : Record} (h : r.Printable) (hclean : r.Clean) (h1 : -2 ^ 31 ≤ r.depth)
    (h2 : r.depth < 2 ^ 31) (w : ℕ) : HoldsEntry (padLine w r.text) r.entry := by
  intro stale
  rw [sscanf_padLine h]
  exact entryOfLocals_items_of_notMem h1 h2 hclean.path.1 (fun hc => (hclean.link hc).1) stale

theorem length_line_catalogFile {recs : List Record} (h : ∀ r ∈ recs, r.Printable) :
    ∀ l ∈ lines (catalogFile recs), l.length = maxLen (catalogFile recs) := by
  have htext := isTextLine_of_mem_lines h
  rw [catalogFile, maxLen_padEachLine htext]
  exact length_of_mem_padEachLine htext

theorem length_lines_catalogFile {recs : List Record} (h : ∀ r ∈ recs, r.Printable) :
    (lines (catalogFile recs)).length =
      recs.length + (recs.map fun r => r.name.count newline).sum := by
  rw [catalogFile, lines_padEachLine (isTextLine_of_mem_lines h), List.length_map,
    length_lines_text h]

/-- There is one line for each record exactly when no name holds a newline. -/
theorem length_lines_catalogFile_eq_iff {recs : List Record} (h : ∀ r ∈ recs, r.Printable) :
    (lines (catalogFile recs)).length = recs.length ↔ ∀ r ∈ recs, newline ∉ r.name := by
  rw [length_lines_catalogFile h]
  have hsum : (recs.map fun r => r.name.count newline).sum = 0 ↔ ∀ r ∈ recs, newline ∉ r.name := by
    simp [List.sum_eq_zero_iff, List.count_eq_zero]
  rw [← hsum]
  omega

theorem slice_catalogFile {recs : List Record} (h : ∀ r ∈ recs, r.Printable)
    (hn : ∀ r ∈ recs, newline ∉ r.name) {k : ℕ} {r : Record} (hr : recs[k]? = some r) :
    ((catalogFile recs).drop (maxLen (catalogFile recs) * k)).take (maxLen (catalogFile recs)) =
      padLine (maxLen (catalogFile recs)) r.text := by
  obtain ⟨hk, rfl⟩ := List.getElem?_eq_some_iff.mp hr
  have htext := isTextLine_of_mem_lines h
  have hlines := lines_text h hn
  have hk' : k < (lines (recs.flatMap Record.text)).length := by
    rwa [hlines, List.length_map]
  have hslice := record_padEachLine htext hk'
  simp only [hlines, List.getElem_map] at hslice
  rw [catalogFile, maxLen_padEachLine htext, hslice]

theorem length_catalogFile {recs : List Record} (h : ∀ r ∈ recs, r.Printable)
    (hn : ∀ r ∈ recs, newline ∉ r.name) :
    (catalogFile recs).length = maxLen (catalogFile recs) * recs.length := by
  have htext := isTextLine_of_mem_lines h
  rw [catalogFile, length_padEachLine htext, maxLen_padEachLine htext, lines_text h hn,
    List.length_map]

theorem length_text_le {recs : List Record} (h : ∀ r ∈ recs, r.Printable)
    (hn : ∀ r ∈ recs, newline ∉ r.name) {r : Record} (hr : r ∈ recs) :
    r.text.length ≤ maxLen (catalogFile recs) := by
  rw [catalogFile, maxLen_padEachLine (isTextLine_of_mem_lines h)]
  apply length_le_maxLen
  rw [lines_text h hn]
  exact List.mem_map_of_mem hr

theorem length_path_lt (r : Record) : r.path.length < r.text.length := by
  have hname : r.path.length ≤ r.name.length := by
    unfold Record.name
    split_ifs <;> simp
  obtain ⟨s, hs, -⟩ := exists_body_eq r
  simp only [Record.text, hs, List.length_append, List.length_cons]
  omega

theorem getEntryFromCatalog_items {recs : List Record} (h : ∀ r ∈ recs, r.Printable)
    (hn : ∀ r ∈ recs, newline ∉ r.name)
    (hsize : maxLen (catalogFile recs) * recs.length < 2 ^ 31) {probes : ℕ → Probe}
    (hserves : Serves probes (catalogFile recs)) {k : ℕ} {r : Record} (hr : recs[k]? = some r)
    (n : ℕ) (w : World) :
    getEntryFromCatalog ⟨maxLen (catalogFile recs), n⟩ k probes w =
      some (some (entryOfLocals (assignItems (probes w.probes).stale r.items)),
        { w with probes := w.probes + 1, locations := w.locations ++ [(k : ℤ)] }) := by
  obtain ⟨hk, -⟩ := List.getElem?_eq_some_iff.mp hr
  have hmem := List.mem_of_getElem? hr
  have hfile := length_catalogFile h hn
  have hpos := length_text_le h hn hmem
  have hlt := length_path_lt r
  generalize hw : maxLen (catalogFile recs) = width at *
  have hlast : width * k + width ≤ width * recs.length := by
    rw [← Nat.mul_succ]
    exact Nat.mul_le_mul_left _ hk
  rw [getEntryFromCatalog_read hserves (by dsimp only; omega) (by dsimp only; omega), ← hw,
    slice_catalogFile h hn hr, sscanf_padLine (h r hmem)]

/-- The depth of a record fits an `int` when the offsets of its file do. -/
theorem depth_lt {recs : List Record} (h : ∀ r ∈ recs, r.Printable)
    (hn : ∀ r ∈ recs, newline ∉ r.name) (hd : ∀ r ∈ recs, r.depth = findDepth r.path)
    (hsize : maxLen (catalogFile recs) * recs.length < 2 ^ 31) {r : Record} (hr : r ∈ recs) :
    -2 ^ 31 ≤ r.depth ∧ r.depth < 2 ^ 31 := by
  have hpos := findDepth_pos (h r hr).head_path
  have hpath := findDepth_le_length r.path
  have hlt := length_path_lt r
  have hle := length_text_le h hn hr
  have hmul : maxLen (catalogFile recs) ≤ maxLen (catalogFile recs) * recs.length :=
    Nat.le_mul_of_pos_right _ (List.length_pos_of_mem hr)
  rw [hd r hr]
  omega

/-- The geometry with which a catalog file is mounted: the width of its lines and their number. -/
def geometry (file : Bytes) : Globals := ⟨maxLen file, (lines file).length⟩

theorem geometry_catalogFile {recs : List Record} (h : ∀ r ∈ recs, r.Printable)
    (hclean : ∀ r ∈ recs, r.Clean) :
    geometry (catalogFile recs) = ⟨maxLen (catalogFile recs), recs.length⟩ := by
  rw [geometry, (length_lines_catalogFile_eq_iff h).mpr fun r hr => newline_notMem_name (hclean r hr)]

/-- What `catalog_listing` and `pad_each_line` write for clean records is a catalog of them. -/
theorem isCatalog_catalogFile {recs : List Record} (hne : recs ≠ []) (h : ∀ r ∈ recs, r.Printable)
    (hclean : ∀ r ∈ recs, r.Clean) (hd : ∀ r ∈ recs, r.depth = findDepth r.path)
    (hsize : maxLen (catalogFile recs) * (lines (catalogFile recs)).length < 2 ^ 31) :
    IsCatalog (geometry (catalogFile recs)) (catalogFile recs) (recs.map Record.entry) := by
  have hn : ∀ r ∈ recs, newline ∉ r.name := fun r hr => newline_notMem_name (hclean r hr)
  rw [(length_lines_catalogFile_eq_iff h).mpr hn] at hsize
  rw [geometry_catalogFile h hclean]
  constructor
  · obtain ⟨r, rs, rfl⟩ := List.exists_cons_of_ne_nil hne
    exact (Nat.zero_le _).trans_lt
      ((length_path_lt r).trans_le (length_text_le h hn List.mem_cons_self))
  · exact List.length_map _
  · exact hsize
  · exact (length_catalogFile h hn).ge
  · intro k e he
    rw [List.getElem?_map, Option.map_eq_some_iff] at he
    obtain ⟨r, hr, rfl⟩ := he
    have hmem := List.mem_of_getElem? hr
    have hdepth := depth_lt h hn hd hsize hmem
    rw [slice_catalogFile h hn hr]
    exact holdsEntry_padLine (h r hmem) (hclean r hmem) hdepth.1 hdepth.2 _

theorem addTypeBits_letter (t : FileType) (m : UInt64) :
    addTypeBits t.letter m = UInt64.ofNat (2 ^ 12 * t.dt) ||| m := by
  cases t <;> rfl

theorem addTypeBits_mode (t : FileType) (perm : BitVec 12) :
    (addTypeBits t.letter (toULong perm.toNat)).toUInt32 = t.mode perm := by
  have hperm := perm.isLt
  have hdt : t.dt < 2 ^ 4 := by cases t <;> decide
  apply UInt32.toNat_inj.mp
  rw [FileType.mode_toNat, addTypeBits_letter, toULong_natCast (by omega), UInt64.toNat_toUInt32,
    UInt64.toNat_or, UInt64.toNat_ofNat_of_lt' (by simp only [UInt64.size]; omega),
    UInt64.toNat_ofNat_of_lt' (by simp only [UInt64.size]; omega),
    ← Nat.two_pow_add_eq_or_of_lt hperm, Nat.mod_eq_of_lt (by omega), Nat.mul_comm]

theorem toInt_uint32 (x : UInt32) : (x.toUInt64.toInt64).toInt = x.toNat := by
  have := x.toNat_lt
  rw [Int64.toInt, Int64.toBitVec, BitVec.toInt_eq_toNat_of_lt]
  · simp
  · simp
    omega

theorem stat_recordOf (t : FileType) (a : Attr) (path target : Bytes) :
    (recordOf t a path target).stat = a.stat t := by
  have hid : ∀ x : UInt32, (toLong x.toNat).toUInt64.toUInt32 = x := fun x => by
    rw [← toInt_uint32, toLong_toInt]
    simp
  simp only [Record.stat, recordOf, Attr.stat, addTypeBits_mode, toLong_toInt, hid,
    UInt64.toUInt64_toInt64]

structure FileEntry where
  type : FileType
  attr : Attr
  path : Bytes
  target : Bytes
  head_path : path.head? = some slash
  nul_notMem_path : 0 ∉ path
  nul_notMem_target : 0 ∉ target

def FileEntry.record (e : FileEntry) : Record := recordOf e.type e.attr e.path e.target

def FileEntry.statWdf (inputDir : Bytes) (e : FileEntry) : StatWdf :=
  ⟨findDepth (inputDir ++ e.path), inputDir ++ e.path, e.attr.stat e.type, e.target⟩

/-- The `stat_wdf` of a file as the mounted file system should see it. -/
def FileEntry.mounted (e : FileEntry) : StatWdf :=
  ⟨findDepth e.path, e.path, e.attr.stat e.type, if e.type = .lnk then e.target else []⟩

theorem printable_recordOf {t : FileType} {a : Attr} {path target : Bytes}
    (hhead : path.head? = some slash) (hpath : 0 ∉ path) (htarget : 0 ∉ target) :
    (recordOf t a path target).Printable where
  letter := by cases t <;> exact Nat.le_of_ble_eq_true rfl
  head_path := hhead
  nul_notMem := by
    unfold Record.name
    split_ifs
    · simp only [List.mem_append, List.mem_cons, not_or]
      exact ⟨hpath, by decide, htarget⟩
    · exact hpath

theorem FileEntry.printable (e : FileEntry) : e.record.Printable :=
  printable_recordOf e.head_path e.nul_notMem_path e.nul_notMem_target

theorem FileEntry.letter_eq_iff (e : FileEntry) : e.record.c = ch 'l' ↔ e.type = .lnk :=
  FileType.letter_injective.eq_iff (b := .lnk)

theorem FileEntry.mounted_eq (e : FileEntry) :
    e.mounted = ⟨e.record.depth, e.record.path, e.record.stat,
      if e.record.c = ch 'l' then e.record.linkDest else []⟩ := by
  have hstat : e.record.stat = e.attr.stat e.type := stat_recordOf _ _ _ _
  have hc : (e.record.c = ch 'l') = (e.type = .lnk) := propext e.letter_eq_iff
  simp only [hstat, hc]
  rfl

theorem FileEntry.newline_notMem_name_iff (e : FileEntry) :
    newline ∉ e.record.name ↔ newline ∉ e.path ∧ (e.type = .lnk → newline ∉ e.target) := by
  rw [← e.letter_eq_iff]
  unfold Record.name
  split_ifs with hl
  · have hmem : newline ∈ e.record.path ++ linkSep :: e.record.linkDest ↔
        newline ∈ e.path ∨ newline ∈ e.target := by
      simp only [List.mem_append, List.mem_cons]
      exact or_congr_right (or_iff_right (by decide))
    simp [hmem, hl]
  · simp only [hl, false_implies, and_true]
    rfl

theorem mapM_printEntryToCatalog {inputDir : Bytes} (hne : inputDir ≠ []) (es : List FileEntry) :
    es.mapM (fun e => printEntryToCatalog (e.statWdf inputDir) inputDir) =
      some (es.map FileEntry.record) := by
  have hone : (fun e : FileEntry => printEntryToCatalog (e.statWdf inputDir) inputDir) =
      fun e => some e.record :=
    funext fun e => printEntryToCatalog_eq hne e.type e.attr e.path e.target _
  rw [hone]
  exact List.mapM_pure

/-- Of a file whose lines are its records, an entry is read back exactly when its path and target
do not hold the separators. -/
theorem returns_mounted_iff {es : List FileEntry}
    (hn : ∀ r ∈ es.map FileEntry.record, newline ∉ r.name)
    (hsize : maxLen (catalogFile (es.map FileEntry.record)) * es.length < 2 ^ 31) {k n : ℕ}
    {e : FileEntry} (he : es[k]? = some e) :
    (∀ probes, Serves probes (catalogFile (es.map FileEntry.record)) →
      Returns probes (getEntryFromCatalog ⟨maxLen (catalogFile (es.map FileEntry.record)), n⟩ k)
        (some e.mounted)) ↔
    sep ∉ e.path ∧ (e.type = .lnk → linkSep ∉ e.path ∧ sep ∉ e.target) := by
  have hprint : ∀ r ∈ es.map FileEntry.record, r.Printable := by
    intro r hr
    obtain ⟨e, -, rfl⟩ := List.mem_map.mp hr
    exact e.printable
  have hd : ∀ r ∈ es.map FileEntry.record, r.depth = findDepth r.path := by
    intro r hr
    obtain ⟨e, -, rfl⟩ := List.mem_map.mp hr
    rfl
  have hr : (es.map FileEntry.record)[k]? = some e.record := by rw [List.getElem?_map, he]; rfl
  have hsize' : maxLen (catalogFile (es.map FileEntry.record)) *
      (es.map FileEntry.record).length < 2 ^ 31 := by rwa [List.length_map]
  have hdepth := depth_lt hprint hn hd hsize' (List.mem_of_getElem? hr)
  have hlnk : e.record.c = ch 'l' ↔ e.type = .lnk := e.letter_eq_iff
  have hiff : ∀ stale, entryOfLocals (assignItems stale e.record.items) = e.mounted ↔
      sep ∉ e.path ∧ (e.type = .lnk → linkSep ∉ e.path ∧ sep ∉ e.target) := by
    intro stale
    rw [e.mounted_eq, ← hlnk]
    exact entryOfLocals_items_eq_iff hdepth.1 hdepth.2 stale
  constructor
  · intro h
    obtain ⟨w', hw'⟩ := h _ (serves_steady _) ⟨0, 0, []⟩
    rw [getEntryFromCatalog_items hprint hn hsize' (serves_steady _) hr] at hw'
    have heq := congrArg Prod.fst (Option.some.inj hw')
    exact (hiff _).mp (Option.some.inj heq)
  · intro h probes hserves w
    rw [getEntryFromCatalog_items hprint hn hsize' hserves hr, (hiff _).mpr h]
    exact ⟨_, rfl⟩

/-- Writing files with `print_entry_to_catalog` and padding gives a file with one line for each,
from which `get_entry_from_catalog` reads every one of them back, exactly when no separator occurs
where the format uses it. -/
theorem getEntryFromCatalog_roundTrip {inputDir : Bytes} (hne : inputDir ≠ [])
    {es : List FileEntry} {recs : List Record}
    (hrecs : es.mapM (fun e => printEntryToCatalog (e.statWdf inputDir) inputDir) = some recs)
    (hsize : maxLen (catalogFile recs) * es.length < 2 ^ 31) (n : ℕ) :
    (∀ l ∈ lines (catalogFile recs), l.length = maxLen (catalogFile recs)) ∧
    ((lines (catalogFile recs)).length = es.length ∧
      (∀ (k : ℕ) (e : FileEntry), es[k]? = some e → ∀ probes, Serves probes (catalogFile recs) →
        Returns probes (getEntryFromCatalog ⟨maxLen (catalogFile recs), n⟩ k) (some e.mounted)) ↔
    ∀ e ∈ es, (sep ∉ e.path ∧ newline ∉ e.path) ∧
      (e.type = .lnk → linkSep ∉ e.path ∧ sep ∉ e.target ∧ newline ∉ e.target)) := by
  obtain rfl : es.map FileEntry.record = recs :=
    Option.some.inj ((mapM_printEntryToCatalog hne es).symm.trans hrecs)
  have hprint : ∀ r ∈ es.map FileEntry.record, r.Printable := by
    intro r hr
    obtain ⟨e, -, rfl⟩ := List.mem_map.mp hr
    exact e.printable
  have hlines := length_lines_catalogFile_eq_iff hprint
  rw [List.length_map] at hlines
  refine ⟨length_line_catalogFile hprint, ?_⟩
  constructor
  · rintro ⟨hcount, hread⟩ e he
    have hn := hlines.mp hcount
    obtain ⟨k, hk⟩ := List.mem_iff_getElem?.mp he
    obtain ⟨hsep, hlink⟩ := (returns_mounted_iff hn hsize hk).mp (hread k e hk)
    obtain ⟨hpath, htarget⟩ := e.newline_notMem_name_iff.mp (hn e.record (List.mem_map_of_mem he))
    exact ⟨⟨hsep, hpath⟩, fun ht => ⟨(hlink ht).1, (hlink ht).2, htarget ht⟩⟩
  · intro hclean
    have hn : ∀ r ∈ es.map FileEntry.record, newline ∉ r.name := by
      intro r hr
      obtain ⟨e, he, rfl⟩ := List.mem_map.mp hr
      obtain ⟨⟨-, hpath⟩, hlink⟩ := hclean e he
      exact e.newline_notMem_name_iff.mpr ⟨hpath, fun ht => (hlink ht).2.2⟩
    refine ⟨hlines.mpr hn, fun k e he => (returns_mounted_iff hn hsize he).mpr ?_⟩
    obtain ⟨⟨hsep, -⟩, hlink⟩ := hclean e (List.mem_of_getElem? he)
    exact ⟨hsep, fun ht => ⟨(hlink ht).1, (hlink ht).2.1⟩⟩

def twoEntries : List FileEntry :=
  [⟨.lnk, smallAttr, [slash, ch 'l'], [linkSep, 32, ch 'x'], rfl, by decide, by decide⟩,
    ⟨.reg, smallAttr, [slash, linkSep], [], rfl, by decide, by decide⟩]

theorem getEntryFromCatalog_roundTrip_two :
    ∃ recs, twoEntries.mapM (fun e => printEntryToCatalog (e.statWdf [ch 'r']) [ch 'r']) =
        some recs ∧
      (lines (catalogFile recs)).length = 2 ∧
      ∀ probes, Serves probes (catalogFile recs) →
        Returns probes (getEntryFromCatalog ⟨maxLen (catalogFile recs), 2⟩ 0)
          (some ⟨1, [slash, ch 'l'], smallAttr.stat .lnk, [linkSep, 32, ch 'x']⟩) := by
  have hrecs := mapM_printEntryToCatalog (List.cons_ne_nil (ch 'r') []) twoEntries
  obtain ⟨-, hiff⟩ := getEntryFromCatalog_roundTrip (by decide) hrecs (by decide) 2
  obtain ⟨hlines, hread⟩ := hiff.mpr (by decide)
  exact ⟨_, hrecs, hlines, hread 0 _ rfl⟩

def pairRecords : List Record :=
  [recordOf .dir smallAttr [slash] [], recordOf .reg smallAttr [slash, ch 'b'] []]

theorem printable_pairRecords : ∀ r ∈ pairRecords, r.Printable := by
  intro r hr
  rcases List.mem_pair.mp hr with rfl | rfl
  · exact printable_recordOf rfl (by decide) (by decide)
  · exact printable_recordOf rfl (by decide) (by decide)

theorem isCatalog_pairRecords :
    IsCatalog (geometry (catalogFile pairRecords)) (catalogFile pairRecords)
      (pairRecords.map Record.entry) := by
  refine isCatalog_catalogFile (by decide) printable_pairRecords (fun r hr => ?_)
    (fun r hr => ?_) (by decide)
  · rcases List.mem_pair.mp hr with rfl | rfl
    · exact ⟨by decide, by decide⟩
    · exact ⟨by decide, by decide⟩
  · rcases List.mem_pair.mp hr with rfl | rfl <;> rfl

end CatalogFS
