import CatalogFS.Generate

namespace CatalogFS

open CLib

theorem foldl_max_length (ls : List Bytes) (m : ℕ) :
    m ≤ ls.foldl (fun m line => max m line.length) m ∧
      ∀ l ∈ ls, l.length ≤ ls.foldl (fun m line => max m line.length) m := by
  induction ls generalizing m with
  | nil => simp
  | cons l ls ih =>
    obtain ⟨h1, h2⟩ := ih (max m l.length)
    refine ⟨(le_max_left _ _).trans h1, fun x hx => ?_⟩
    rcases List.mem_cons.mp hx with rfl | hx
    · exact (le_max_right _ _).trans h1
    · exact h2 x hx

theorem foldl_max_length_le {ls : List Bytes} {w m : ℕ} (hm : m ≤ w) (h : ∀ l ∈ ls, l.length ≤ w) :
    ls.foldl (fun m line => max m line.length) m ≤ w := by
  induction ls generalizing m with
  | nil => exact hm
  | cons l ls ih =>
    exact ih (max_le hm (h l List.mem_cons_self)) fun x hx => h x (List.mem_cons_of_mem l hx)

theorem length_le_maxLen {f l : Bytes} (h : l ∈ lines f) : l.length ≤ maxLen f :=
  (foldl_max_length (lines f) 0).2 l h

theorem maxLen_le {f : Bytes} {w : ℕ} (h : ∀ l ∈ lines f, l.length ≤ w) : maxLen f ≤ w :=
  foldl_max_length_le (Nat.zero_le w) h

theorem maxLen_eq {f : Bytes} {w : ℕ} (hne : lines f ≠ []) (h : ∀ l ∈ lines f, l.length = w) :
    maxLen f = w := by
  obtain ⟨l, ls, hl⟩ := List.exists_cons_of_ne_nil hne
  have hmem : l ∈ lines f := hl ▸ List.mem_cons_self
  exact le_antisymm (maxLen_le fun x hx => (h x hx).le) (h l hmem ▸ length_le_maxLen hmem)

/-- A text line: it ends in its only newline and holds no NUL. -/
def IsTextLine (l : Bytes) : Prop := ∃ body, newline ∉ body ∧ 0 ∉ body ∧ l = body ++ [newline]

theorem IsTextLine.isLine {l : Bytes} (h : IsTextLine l) : IsLine l := by
  obtain ⟨body, hb, -, rfl⟩ := h
  exact ⟨body, hb, rfl⟩

theorem padLine_eq {body : Bytes} (h0 : 0 ∉ body) (w : ℕ) :
    padLine w (body ++ [newline]) =
      body ++ List.replicate (w - (body.length + 1)) sep ++ [newline] := by
  have hs : cstr (body ++ [newline]) = body ++ [newline] :=
    cstr_of_notMem (by simp [h0, newline])
  simp [padLine, hs]

theorem newline_notMem_replicate_sep (n : ℕ) : newline ∉ List.replicate n sep := by
  intro h
  exact absurd (List.eq_of_mem_replicate h) (by decide)

theorem nul_notMem_replicate_sep (n : ℕ) : 0 ∉ List.replicate n sep := by
  intro h
  exact absurd (List.eq_of_mem_replicate h) (by decide)

theorem IsTextLine.padLine {l : Bytes} (h : IsTextLine l) (w : ℕ) : IsTextLine (padLine w l) := by
  obtain ⟨body, hb, h0, rfl⟩ := h
  refine ⟨body ++ List.replicate (w - (body.length + 1)) sep, ?_, ?_, padLine_eq h0 w⟩
  · simp only [List.mem_append, not_or]
    exact ⟨hb, newline_notMem_replicate_sep _⟩
  · simp only [List.mem_append, not_or]
    exact ⟨h0, nul_notMem_replicate_sep _⟩

theorem length_padLine {l : Bytes} (h : IsTextLine l) {w : ℕ} (hw : l.length ≤ w) :
    (padLine w l).length = w := by
  obtain ⟨body, -, h0, rfl⟩ := h
  rw [padLine_eq h0]
  simp only [List.length_append, List.length_replicate, List.length_singleton] at hw ⊢
  omega

variable {f : Bytes}

theorem lines_padEachLine (h : ∀ l ∈ lines f, IsTextLine l) :
    lines (padEachLine f) = (lines f).map (padLine (maxLen f)) := by
  rw [padEachLine, List.flatMap_def]
  apply lines_flatten_of_isLine
  intro l hl
  obtain ⟨x, hx, rfl⟩ := List.mem_map.mp hl
  exact ((h x hx).padLine _).isLine

theorem length_of_mem_padEachLine (h : ∀ l ∈ lines f, IsTextLine l) :
    ∀ l ∈ lines (padEachLine f), l.length = maxLen f := by
  intro l hl
  rw [lines_padEachLine h] at hl
  obtain ⟨x, hx, rfl⟩ := List.mem_map.mp hl
  exact length_padLine (h x hx) (length_le_maxLen hx)

theorem maxLen_padEachLine (h : ∀ l ∈ lines f, IsTextLine l) : maxLen (padEachLine f) = maxLen f := by
  by_cases hne : lines f = []
  · have hf : lines (padEachLine f) = [] := by rw [lines_padEachLine h, hne, List.map_nil]
    rw [maxLen, maxLen, hf, hne]
  · refine maxLen_eq ?_ (length_of_mem_padEachLine h)
    rw [lines_padEachLine h]
    simpa using hne

/-- The `k`-th line of the padded file lies at the `k`-th multiple of the width. -/
theorem record_padEachLine (h : ∀ l ∈ lines f, IsTextLine l) {k : ℕ} (hk : k < (lines f).length) :
    ((padEachLine f).drop (maxLen f * k)).take (maxLen f) = padLine (maxLen f) (lines f)[k] := by
  have hk' : k < (lines (padEachLine f)).length := by
    rw [lines_padEachLine h, List.length_map]
    exact hk
  rw [record_of_lines (length_of_mem_padEachLine h) hk']
  simp only [lines_padEachLine h, List.getElem_map]

theorem length_padEachLine (h : ∀ l ∈ lines f, IsTextLine l) :
    (padEachLine f).length = maxLen f * (lines f).length := by
  conv_lhs => rw [← lines_flatten (padEachLine f)]
  rw [length_flatten_of_length_eq (length_of_mem_padEachLine h), lines_padEachLine h,
    List.length_map]

theorem exists_length_eq_maxLen (hne : lines f ≠ []) : ∃ l ∈ lines f, l.length = maxLen f := by
  have hmem : ∀ (ls : List Bytes) (m : ℕ), ls.foldl (fun m line => max m line.length) m = m ∨
      ∃ l ∈ ls, l.length = ls.foldl (fun m line => max m line.length) m := by
    intro ls
    induction ls with
    | nil => exact fun m => .inl rfl
    | cons l ls ih =>
      intro m
      rcases ih (max m l.length) with h | ⟨x, hx, h⟩
      · rw [List.foldl_cons, h]
        rcases max_choice m l.length with hm | hm
        · exact .inl hm
        · exact .inr ⟨l, List.mem_cons_self, hm.symm⟩
      · exact .inr ⟨x, List.mem_cons_of_mem l hx, h⟩
  rcases hmem (lines f) 0 with h | h
  · -- a width of zero is the length of every line
    obtain ⟨l, ls, hl⟩ := List.exists_cons_of_ne_nil hne
    have hl : l ∈ lines f := hl ▸ List.mem_cons_self
    have hle := length_le_maxLen hl
    exact ⟨l, hl, by change maxLen f = 0 at h; omega⟩
  · exact h

theorem maxLen_lt (h : ∀ l ∈ lines f, l.length < 2 ^ 31) : maxLen f < 2 ^ 31 := by
  by_cases hne : lines f = []
  · rw [maxLen, hne]
    decide
  · obtain ⟨l, hl, heq⟩ := exists_length_eq_maxLen hne
    exact heq ▸ h l hl

/-- The conversions of the source change nothing for lines that an `int` can count. -/
theorem padLineInt_eq {l : Bytes} (h : IsTextLine l) (hl : l.length < 2 ^ 31) {w : ℕ}
    (hw : w < 2 ^ 31) : padLineInt w l = padLine w l := by
  obtain ⟨body, -, h0, rfl⟩ := h
  have hs : cstr (body ++ [newline]) = body ++ [newline] :=
    cstr_of_notMem (by simp [h0, newline])
  rw [List.length_append, List.length_singleton] at hl
  have hprecision : toInt (((body ++ [newline]).length : ℤ) - 1) = body.length := by
    rw [List.length_append, List.length_singleton, Nat.cast_succ, Int.add_sub_cancel]
    exact toInt_of_lt (by omega) (by omega)
  have hcount : (toInt w - toInt (body ++ [newline]).length).toNat =
      w - (body ++ [newline]).length := by
    rw [List.length_append, List.length_singleton, toInt_of_lt (by omega) (by omega),
      toInt_of_lt (by omega) (by omega)]
    omega
  unfold padLineInt padLine
  dsimp only
  rw [hs, hprecision, hcount, if_neg (by omega), Int.toNat_natCast, List.length_append,
    List.length_singleton, Nat.add_sub_cancel]

theorem padEachLineInt_eq (h : ∀ l ∈ lines f, IsTextLine l) (hlen : ∀ l ∈ lines f, l.length < 2 ^ 31) :
    padEachLineInt f = padEachLine f :=
  List.flatMap_congr fun l hl => padLineInt_eq (h l hl) (hlen l hl) (maxLen_lt hlen)

theorem padLine_self {l : Bytes} (h : IsTextLine l) {w : ℕ} (hw : l.length = w) :
    padLine w l = l := by
  obtain ⟨body, -, h0, rfl⟩ := h
  rw [List.length_append, List.length_singleton] at hw
  rw [padLine_eq h0, hw, Nat.sub_self, List.replicate_zero, List.append_nil]

theorem padEachLine_padEachLine (h : ∀ l ∈ lines f, IsTextLine l) :
    padEachLine (padEachLine f) = padEachLine f := by
  have hself : ∀ l ∈ lines (padEachLine f), padLine (maxLen (padEachLine f)) l = l := by
    intro l hl
    have hlen := length_of_mem_padEachLine h l hl
    rw [lines_padEachLine h] at hl
    obtain ⟨x, hx, rfl⟩ := List.mem_map.mp hl
    rw [maxLen_padEachLine h]
    exact padLine_self ((h x hx).padLine _) hlen
  rw [padEachLine, List.flatMap_def, List.map_congr_left hself, List.map_id', lines_flatten]

/-- `pad_each_line` makes every file of text lines an array of lines of one width, the greatest length
that occurs: line for line and in their order, with `\1` between the text and the newline. Padding
the result again changes nothing. -/
theorem padEachLineInt_fixed_width (ls : List Bytes) (htext : ∀ l ∈ ls, IsTextLine l)
    (hlen : ∀ l ∈ ls, l.length < 2 ^ 31) :
    ((∀ l ∈ ls, l.length ≤ maxLen ls.flatten) ∧
      (ls ≠ [] → ∃ l ∈ ls, l.length = maxLen ls.flatten)) ∧
    lines (padEachLineInt ls.flatten) = ls.map (fun l =>
      l.dropLast ++ List.replicate (maxLen ls.flatten - l.length) sep ++ [newline]) ∧
    (padEachLineInt ls.flatten).length = ls.length * maxLen ls.flatten ∧
    (∀ k (hk : k < ls.length),
      ((padEachLineInt ls.flatten).drop (k * maxLen ls.flatten)).take (maxLen ls.flatten) =
        ls[k].dropLast ++ List.replicate (maxLen ls.flatten - ls[k].length) sep ++ [newline]) ∧
    padEachLineInt (padEachLineInt ls.flatten) = padEachLineInt ls.flatten := by
  have hlines : lines ls.flatten = ls := lines_flatten_of_isLine fun l hl => (htext l hl).isLine
  have htext' : ∀ l ∈ lines ls.flatten, IsTextLine l := by rwa [hlines]
  have hlen' : ∀ l ∈ lines ls.flatten, l.length < 2 ^ 31 := by rwa [hlines]
  have hpad : ∀ l ∈ ls, padLine (maxLen ls.flatten) l =
      l.dropLast ++ List.replicate (maxLen ls.flatten - l.length) sep ++ [newline] := by
    intro l hl
    obtain ⟨body, -, h0, rfl⟩ := htext l hl
    rw [padLine_eq h0, List.dropLast_concat, List.length_append, List.length_singleton]
  have hout := lines_padEachLine htext'
  rw [hlines, List.map_congr_left hpad] at hout
  -- the padded lines are counted by an `int` as well
  have htext₂ : ∀ l ∈ lines (padEachLine ls.flatten), IsTextLine l := by
    intro l hl
    rw [lines_padEachLine htext'] at hl
    obtain ⟨x, hx, rfl⟩ := List.mem_map.mp hl
    exact (htext' x hx).padLine _
  have hlen₂ : ∀ l ∈ lines (padEachLine ls.flatten), l.length < 2 ^ 31 := by
    intro l hl
    rw [length_of_mem_padEachLine htext' l hl]
    exact maxLen_lt hlen'
  rw [padEachLineInt_eq htext' hlen', padEachLineInt_eq htext₂ hlen₂]
  refine ⟨⟨?_, ?_⟩, hout, ?_, ?_, padEachLine_padEachLine htext'⟩
  · intro l hl
    exact length_le_maxLen (hlines.symm ▸ hl)
  · intro hne
    rw [← hlines] at hne
    obtain ⟨l, hl, heq⟩ := exists_length_eq_maxLen hne
    exact ⟨l, hlines ▸ hl, heq⟩
  · rw [length_padEachLine htext', hlines, Nat.mul_comm]
  · intro k hk
    have hrec := record_padEachLine htext' (k := k) (by rwa [hlines])
    simp only [hlines] at hrec
    rw [Nat.mul_comm, hrec, hpad _ (List.getElem_mem hk)]

theorem padEachLineInt_fixed_width_pair :
    lines (padEachLineInt [[ch 'a', ch 'b', newline], [newline]].flatten) =
      [[ch 'a', ch 'b', newline], [sep, sep, newline]] := by
  have htext : ∀ l ∈ [[ch 'a', ch 'b', newline], [newline]], IsTextLine l := by
    intro l hl
    rcases List.mem_pair.mp hl with rfl | rfl
    · exact ⟨[ch 'a', ch 'b'], by decide, by decide, rfl⟩
    · exact ⟨[], by decide, by decide, rfl⟩
  rw [(padEachLineInt_fixed_width _ htext (by decide)).2.1]
  decide

end CatalogFS
