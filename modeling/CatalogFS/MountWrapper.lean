import CatalogFS.Agreement

/-!
# The script `catalogfsmount`

The checks of the wrapper script on the catalog file, with the output of `bytecount`, `sort -u`,
`wc -l`, `expr` and `ls` as strings, and the checks of `main` on the two values it exports. The
lines of the script that would assign `minlen` are commented out, so that `expr $minlen + 1` is
`expr + 1`: a plus sign in front of a single word, for which `expr` prints the word.
-/

namespace CatalogFS

open CLib

/-- `./bytecount`: one line for each line of the file, its length printed with `%d`. -/
def bytecount (file : Bytes) : List Bytes := (lines file).map fun l => decimal (toInt l.length)

def sortUniqueCount (out : List Bytes) : ℕ := out.dedup.length

def wcLines (file : Bytes) : ℕ := file.count newline

def exprInt (word : Bytes) : Option ℤ :=
  if word.head? = some (ch '+') then none
  else
    match scanInt 10 word with
    | some (z, []) => some z
    | _ => none

/-- What `expr` prints, for the forms the script uses: `+ WORD`, `N + M` and `N * M`. -/
def expr : List Bytes → Option Bytes
  | [op, word] => if op = [ch '+'] then some word else none
  | [a, op, b] =>
    match exprInt a, exprInt b with
    | some x, some y =>
      if op = [ch '+'] then some (decimal (x + y))
      else if op = [ch '*'] then some (decimal (x * y))
      else none
    | _, _ => none
  | _ => none

structure Exports where
  entrySize : Bytes
  catalogLen : Bytes
  deriving DecidableEq

/-- The words `$minlen` stands for when nothing has assigned it. -/
def minlen : List Bytes := []

/-- `catalogfsmount` from the check of the line lengths on; `none` when it does not go on to start
`catalogfs`. -/
def catalogfsmount (file : Bytes) : Option Exports :=
  let nl := sortUniqueCount (bytecount file)
  if nl ≠ 1 then none
  else
    let entrySize := (expr (minlen ++ [[ch '+'], [ch '1']])).getD []
    let catalogLen := decimal (wcLines file)
    let fileSize := decimal file.length
    let expectedFileSize := (expr [catalogLen, [ch '*'], entrySize]).getD []
    if fileSize ≠ expectedFileSize then none else some ⟨entrySize, catalogLen⟩

def strtol (s : Bytes) : ℤ :=
  match scanInt 10 (s.dropWhile isSpace) with
  | some (z, _) => (toLong z).toInt
  | none => 0

def atoi (s : Bytes) : ℤ := toInt (strtol s)

def atol (s : Bytes) : ℤ := strtol s

/-- `main` of `catalogfs` on its environment variables; `none` when it exits. -/
def catalogfsMain (catalogFile entrySize catalogLen : Option Bytes) : Option Globals :=
  match catalogFile, entrySize, catalogLen with
  | some _, some entrySize, some catalogLen =>
    if atoi entrySize < 13 then none
    else if atol catalogLen ≤ 0 then none
    else some ⟨(atoi entrySize).toNat, (atol catalogLen).toNat⟩
  | _, _, _ => none

theorem exprInt_decimal (n : ℕ) : exprInt (decimal n) = some (n : ℤ) := by
  have hhead : (decimal n).head? ≠ some (ch '+') := by
    intro h
    have := le_val_of_mem_decimal (List.mem_of_mem_head? h)
    exact absurd this (by decide)
  have hnil : EndsNumber 10 [] := by simp [EndsNumber]
  have hscan := scanInt_decimal n hnil
  rw [List.append_nil] at hscan
  rw [exprInt, if_neg hhead, hscan]

/-- The script goes on only for files of newlines, with a line length of one. -/
theorem catalogfsmount_eq_some_iff {file : Bytes} {e : Exports} :
    catalogfsmount file = some e ↔
      file ≠ [] ∧ (∀ b ∈ file, b = newline) ∧ e = ⟨[ch '1'], decimal file.length⟩ := by
  have hexpected : (expr [decimal (wcLines file), [ch '*'], [ch '1']]).getD [] =
      decimal (wcLines file) := by
    have hone : exprInt [ch '1'] = some 1 := by decide
    rw [expr, exprInt_decimal, hone]
    dsimp only
    rw [if_neg (by decide), if_pos rfl, mul_one]
    rfl
  have hsize : decimal file.length = decimal (wcLines file) ↔ ∀ b ∈ file, b = newline := by
    rw [decimal_injective.eq_iff, Nat.cast_inj, wcLines, eq_comm, List.count_eq_length]
    exact forall₂_congr fun b _ => eq_comm
  have hdef : catalogfsmount file = if sortUniqueCount (bytecount file) ≠ 1 then none
      else if decimal file.length ≠ (expr [decimal (wcLines file), [ch '*'], [ch '1']]).getD []
      then none else some ⟨[ch '1'], decimal (wcLines file)⟩ := rfl
  rw [hdef, hexpected]
  constructor
  · intro h
    by_cases hnl : sortUniqueCount (bytecount file) = 1
    · by_cases hall : decimal file.length = decimal (wcLines file)
      · rw [if_neg (not_not.mpr hnl), if_neg (not_not.mpr hall)] at h
        refine ⟨?_, hsize.mp hall, by rw [← Option.some.inj h, hall]⟩
        rintro rfl
        exact absurd hnl (by decide)
      · rw [if_neg (not_not.mpr hnl), if_pos hall] at h
        cases h
    · rw [if_pos hnl] at h
      cases h
  · rintro ⟨hne, hall, rfl⟩
    have hrep : file = List.replicate file.length newline := List.eq_replicate_iff.mpr ⟨rfl, hall⟩
    have hnl : sortUniqueCount (bytecount file) = 1 := by
      have hlen : file.length ≠ 0 := fun h => hne (List.length_eq_zero_iff.mp h)
      rw [sortUniqueCount, bytecount, hrep, lines_replicate_newline, List.map_replicate,
        List.replicate_dedup hlen, List.length_singleton]
    rw [if_neg (not_not.mpr hnl), if_neg (not_not.mpr (hsize.mpr hall)), hsize.mpr hall]

structure FixedWidth (file : Bytes) : Prop where
  ne_nil : file ≠ []
  getLast?_eq : file.getLast? = some newline
  length_eq : ∀ l ∈ lines file, l.length = maxLen file

/-- The wrapper treats the file as it should: it goes on exactly when all lines have one length,
exports this length and the number of lines, so that record `k` is line `k`, and a generated
catalog gets past it and past the checks of `main`. -/
structure MountsRight (file : Bytes) : Prop where
  accepts_iff : (∃ e, catalogfsmount file = some e) ↔ FixedWidth file
  exports_eq : ∀ e, catalogfsmount file = some e →
    e = ⟨decimal (maxLen file), decimal (lines file).length⟩ ∧
      ∀ k, ∀ hk : k < (lines file).length,
        (file.drop (maxLen file * k)).take (maxLen file) = (lines file)[k]
  generated : ∀ (host : Host) inputDir T fails recs, inputDir ≠ [] → host.Shows inputDir T fails →
    Writes host inputDir recs → file = catalogFile recs →
      ∃ e, catalogfsmount file = some e ∧ ∀ name, ∃ g,
        catalogfsMain (some name) (some e.entrySize) (some e.catalogLen) = some g

theorem fixedWidth_of_forall_newline {file : Bytes} (hne : file ≠ [])
    (hall : ∀ b ∈ file, b = newline) : FixedWidth file ∧ maxLen file = 1 := by
  have hrep : file = List.replicate file.length newline := List.eq_replicate_iff.mpr ⟨rfl, hall⟩
  have hlines : lines file = List.replicate file.length [newline] := by
    conv_lhs => rw [hrep]
    exact lines_replicate_newline _
  have hone : ∀ l ∈ lines file, l.length = 1 := by
    intro l hl
    rw [hlines] at hl
    rw [List.eq_of_mem_replicate hl]
    rfl
  have hlen : file.length ≠ 0 := fun h => hne (List.length_eq_zero_iff.mp h)
  have hmax : maxLen file = 1 := by
    refine maxLen_eq ?_ hone
    rw [hlines]
    simpa using hlen
  refine ⟨⟨hne, ?_, fun l hl => (hone l hl).trans hmax.symm⟩, hmax⟩
  rw [List.getLast?_eq_some_getLast hne]
  exact congrArg some (hall _ (List.getLast_mem hne))

theorem forall_newline_of_maxLen {file : Bytes} (h : file.getLast? = some newline)
    (hmax : maxLen file = 1) : ∀ b ∈ file, b = newline := by
  intro b hb
  rw [← lines_flatten file] at hb
  obtain ⟨l, hl, hbl⟩ := List.mem_flatten.mp hb
  have hlen := length_le_maxLen hl
  obtain ⟨body, -, rfl⟩ := isLine_of_mem_lines h l hl
  have hbody : body = [] := by
    rw [hmax, List.length_append, List.length_singleton] at hlen
    exact List.length_eq_zero_iff.mp (by omega)
  rw [hbody] at hbl
  simpa using hbl

theorem getLast?_padEachLine {file : Bytes} (h : lines file ≠ []) :
    (padEachLine file).getLast? = some newline := by
  obtain ⟨ls, l, hl⟩ := (List.eq_nil_or_concat (lines file)).resolve_left h
  rw [padEachLine, hl, List.concat_eq_append, List.flatMap_append, List.flatMap_singleton, padLine,
    ← List.append_assoc]
  exact List.getLast?_concat

/-- A generated catalog has lines of one length, which is not one. -/
theorem fixedWidth_catalogFile {host : Host} {inputDir : Bytes} {T : Tree}
    {fails : List FileName → Bool} {recs : List Record} (hne : inputDir ≠ [])
    (hshows : host.Shows inputDir T fails) (hw : Writes host inputDir recs) :
    FixedWidth (catalogFile recs) ∧ maxLen (catalogFile recs) ≠ 1 := by
  obtain rfl := (writes_iff hshows hne).mp hw
  have hprint := records_printable T fails
  have hlast := getLast?_text (records_ne_nil T fails)
  have hlines : lines ((T.records fails).flatMap Record.text) ≠ [] := by
    intro h
    have hflat := lines_flatten ((T.records fails).flatMap Record.text)
    rw [h] at hflat
    rw [← hflat] at hlast
    cases hlast
  have hlast' := getLast?_padEachLine hlines
  refine ⟨⟨List.ne_nil_of_mem (List.mem_of_getLast? hlast'), hlast', length_line_catalogFile hprint⟩,
    fun hmax => ?_⟩
  -- the letter of a record is not a newline
  obtain ⟨r, rs, hrs⟩ := List.exists_cons_of_ne_nil (records_ne_nil T fails)
  have hletter := (hprint r (hrs ▸ List.mem_cons_self)).letter
  rw [catalogFile, maxLen_padEachLine (isTextLine_of_mem_lines hprint)] at hmax
  have hc : r.c = newline := forall_newline_of_maxLen hlast hmax r.c <| by
    rw [hrs]
    simp [Record.text, Record.body]
  rw [hc] at hletter
  exact absurd hletter (by decide)

/-- The wrapper treats a file as it should exactly when the file is not a catalog of lines of one
length or all its lines are empty. -/
theorem mountsRight_iff (file : Bytes) :
    MountsRight file ↔ ¬ FixedWidth file ∨ maxLen file = 1 := by
  constructor
  · intro h
    by_cases hfw : FixedWidth file
    · obtain ⟨e, he⟩ := h.accepts_iff.mpr hfw
      obtain ⟨hne, hall, -⟩ := catalogfsmount_eq_some_iff.mp he
      exact .inr (fixedWidth_of_forall_newline hne hall).2
    · exact .inl hfw
  · intro h
    constructor
    · constructor
      · rintro ⟨e, he⟩
        obtain ⟨hne, hall, -⟩ := catalogfsmount_eq_some_iff.mp he
        exact (fixedWidth_of_forall_newline hne hall).1
      · intro hfw
        have hall := forall_newline_of_maxLen hfw.getLast?_eq (h.resolve_left (not_not.mpr hfw))
        exact ⟨_, catalogfsmount_eq_some_iff.mpr ⟨hfw.ne_nil, hall, rfl⟩⟩
    · intro e he
      obtain ⟨hne, hall, rfl⟩ := catalogfsmount_eq_some_iff.mp he
      obtain ⟨hfw, hmax⟩ := fixedWidth_of_forall_newline hne hall
      have hrep : file = List.replicate file.length newline := List.eq_replicate_iff.mpr ⟨rfl, hall⟩
      have hlen : (lines file).length = file.length := by
        conv_lhs => rw [hrep, lines_replicate_newline, List.length_replicate]
      refine ⟨?_, fun k hk => record_of_lines hfw.length_eq hk⟩
      rw [hmax, hlen]
      rfl
    · rintro host inputDir T fails recs hne hshows hw rfl
      obtain ⟨hfw, hmax⟩ := fixedWidth_catalogFile hne hshows hw
      exact absurd (h.resolve_left (not_not.mpr hfw)) hmax

/-- The wrapper refuses the catalog of the small tree. -/
theorem not_mountsRight_smallRecords : ¬ MountsRight (catalogFile smallRecords) := by
  intro h
  obtain ⟨hfw, -⟩ := fixedWidth_catalogFile (by decide)
    (treeHost_shows [ch 'r'] smallTree noFailure) writes_smallRecords
  obtain ⟨e, he⟩ := h.accepts_iff.mpr hfw
  obtain ⟨-, hall, -⟩ := catalogfsmount_eq_some_iff.mp he
  exact absurd (hall (ch 'd') (by decide)) (by decide)

end CatalogFS
