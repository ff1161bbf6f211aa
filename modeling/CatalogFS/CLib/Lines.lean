import CatalogFS.CLib.Strings

namespace CLib

def newline : Byte := 10

/-- What successive calls of `getline` return. -/
def lines : Bytes → List Bytes
  | [] => []
  | b :: s =>
    if b = newline then [b] :: lines s
    else
      match lines s with
      | [] => [[b]]
      | l :: ls => (b :: l) :: ls

def IsLine (l : Bytes) : Prop := ∃ body, newline ∉ body ∧ l = body ++ [newline]

theorem lines_cons_of_ne {b : Byte} (hb : b ≠ newline) (s : Bytes) :
    lines (b :: s) = (match lines s with | [] => [[b]] | l :: ls => (b :: l) :: ls) := by
  rw [lines, if_neg hb]

theorem lines_flatten (f : Bytes) : (lines f).flatten = f := by
  induction f with
  | nil => rfl
  | cons b s ih =>
    by_cases hb : b = newline
    · simp [lines, hb, ih]
    · rw [lines_cons_of_ne hb]
      cases hs : lines s with
      | nil => simp_all
      | cons l ls => simp_all

theorem lines_body_append {body : Bytes} (h : newline ∉ body) (s : Bytes) :
    lines (body ++ newline :: s) = (body ++ [newline]) :: lines s := by
  induction body with
  | nil => simp [lines]
  | cons b body ih =>
    have hb : b ≠ newline := fun e => h (e ▸ List.mem_cons_self)
    rw [List.cons_append, lines_cons_of_ne hb, ih fun e => h (List.mem_cons_of_mem b e)]
    rfl

theorem lines_line_append {l : Bytes} (h : IsLine l) (s : Bytes) :
    lines (l ++ s) = l :: lines s := by
  obtain ⟨body, hb, rfl⟩ := h
  simpa using lines_body_append hb s

theorem lines_flatten_of_isLine {ls : List Bytes} (h : ∀ l ∈ ls, IsLine l) :
    lines ls.flatten = ls := by
  induction ls with
  | nil => rfl
  | cons l ls ih =>
    rw [List.flatten_cons, lines_line_append (h l List.mem_cons_self),
      ih fun m hm => h m (List.mem_cons_of_mem l hm)]

theorem isLine_of_mem_lines {f : Bytes} (hf : f.getLast? = some newline) :
    ∀ l ∈ lines f, IsLine l := by
  induction f with
  | nil => simp [lines]
  | cons b s ih =>
    intro l hl
    by_cases hs : s = []
    · subst hs
      obtain rfl : b = newline := by simpa using hf
      have : l = [newline] := by simpa [lines] using hl
      exact ⟨[], by simp, this⟩
    · have ih := ih (by rwa [List.getLast?_cons_of_ne_nil hs] at hf)
      by_cases hb : b = newline
      · rw [lines, if_pos hb] at hl
        rcases List.mem_cons.mp hl with rfl | hl
        · exact ⟨[], by simp, by simp [hb]⟩
        · exact ih l hl
      · rw [lines_cons_of_ne hb] at hl
        cases hls : lines s with
        | nil =>
          have hflat := lines_flatten s
          rw [hls] at hflat
          exact absurd hflat.symm hs
        | cons m ms =>
          rw [hls] at hl ih
          rcases List.mem_cons.mp hl with rfl | hl
          · obtain ⟨body, hbody, rfl⟩ := ih m List.mem_cons_self
            refine ⟨b :: body, ?_, rfl⟩
            simp only [List.mem_cons, not_or]
            exact ⟨fun h => hb h.symm, hbody⟩
          · exact ih l (List.mem_cons_of_mem m hl)

theorem mem_of_mem_lines {f l : Bytes} (h : l ∈ lines f) {b : Byte} (hb : b ∈ l) : b ∈ f := by
  rw [← lines_flatten f]
  exact List.mem_flatten_of_mem h hb

theorem length_lines_of_isLine {f : Bytes} (h : ∀ l ∈ lines f, IsLine l) :
    (lines f).length = f.count newline := by
  have hone : ∀ ls : List Bytes, (∀ l ∈ ls, IsLine l) → ls.flatten.count newline = ls.length := by
    intro ls hls
    induction ls with
    | nil => rfl
    | cons l ls ih =>
      obtain ⟨body, hb, rfl⟩ := hls l List.mem_cons_self
      rw [List.flatten_cons, List.count_append, List.count_append, List.count_eq_zero_of_not_mem hb,
        ih fun m hm => hls m (List.mem_cons_of_mem _ hm)]
      simp [Nat.add_comm]
  rw [← hone _ h, lines_flatten]

theorem lines_replicate_newline (n : ℕ) :
    lines (List.replicate n newline) = List.replicate n [newline] := by
  induction n with
  | zero => rfl
  | succ n ih => rw [List.replicate_succ, lines, if_pos rfl, ih, List.replicate_succ]

theorem lines_flatten_append {ls : List Bytes} (h : ∀ l ∈ ls, IsLine l) (s : Bytes) :
    lines (ls.flatten ++ s) = ls ++ lines s := by
  induction ls with
  | nil => rfl
  | cons l ls ih =>
    rw [List.flatten_cons, List.append_assoc, lines_line_append (h l List.mem_cons_self),
      ih fun m hm => h m (List.mem_cons_of_mem l hm), List.cons_append]

theorem length_le_of_mem_lines {f l : Bytes} (h : l ∈ lines f) : l.length ≤ f.length := by
  obtain ⟨before, after, hlines⟩ := List.append_of_mem h
  rw [← lines_flatten f, hlines]
  simp
  omega

/-- What a file is cut to: as many of its lines as there are newlines left, and the start of one
more. -/
theorem exists_prefix_flatten {ls : List Bytes} (h : ∀ l ∈ ls, IsLine l) {p : Bytes}
    (hp : p <+: ls.flatten) : ∃ tail, p = (ls.take (p.count newline)).flatten ++ tail ∧
      newline ∉ tail ∧ (tail = [] ∨ ∃ l ∈ ls, tail <+: l) := by
  induction ls generalizing p with
  | nil =>
    obtain rfl : p = [] := List.prefix_nil.mp hp
    exact ⟨[], by simp⟩
  | cons l ls ih =>
    obtain ⟨body, hb, hl⟩ := h l List.mem_cons_self
    rcases List.prefix_or_prefix_of_prefix hp (List.prefix_append l ls.flatten) with hpl | ⟨q, rfl⟩
    · rcases List.prefix_concat_iff.mp (hl ▸ hpl) with hpl | hpl
      · refine ⟨[], ?_, List.not_mem_nil, .inl rfl⟩
        have hcount : p.count newline = 1 := by simp [hpl, List.count_eq_zero_of_not_mem hb]
        rw [hcount, hpl, ← hl]
        simp
      · have hnot : newline ∉ p := fun hmem => hb (hpl.subset hmem)
        exact ⟨p, by simp [List.count_eq_zero_of_not_mem hnot], hnot,
          .inr ⟨l, List.mem_cons_self, hpl.trans ⟨[newline], hl.symm⟩⟩⟩
    · have hcount : (l ++ q).count newline = q.count newline + 1 := by
        simp [hl, List.count_eq_zero_of_not_mem hb, Nat.add_comm]
      obtain ⟨tail, hq, htail, hcut⟩ := ih (fun m hm => h m (List.mem_cons_of_mem l hm))
        ((List.prefix_append_right_inj l).mp hp)
      refine ⟨tail, ?_, htail, hcut.imp_right fun ⟨m, hm, hpre⟩ =>
        ⟨m, List.mem_cons_of_mem l hm, hpre⟩⟩
      rw [hcount, List.take_succ_cons, List.flatten_cons, List.append_assoc, ← hq]

theorem drop_take_flatten {α : Type*} {w : ℕ} {ls : List (List α)} (h : ∀ l ∈ ls, l.length = w)
    {k : ℕ} (hk : k < ls.length) : (ls.flatten.drop (w * k)).take w = ls[k] := by
  induction ls generalizing k with
  | nil => simp at hk
  | cons l ls ih =>
    have hl : l.length = w := h l List.mem_cons_self
    cases k with
    | zero => simp [← hl]
    | succ k =>
      have hdrop : (l ++ ls.flatten).drop (w * (k + 1)) = ls.flatten.drop (w * k) := by
        rw [List.drop_append,
          List.drop_eq_nil_of_le (by rw [hl]; exact Nat.le_mul_of_pos_right w k.succ_pos),
          hl, Nat.mul_succ, Nat.add_sub_cancel]
        rfl
      rw [List.flatten_cons, hdrop, List.getElem_cons_succ]
      exact ih (fun m hm => h m (List.mem_cons_of_mem l hm)) (by simpa using hk)

theorem length_flatten_of_length_eq {α : Type*} {w : ℕ} {ls : List (List α)}
    (h : ∀ l ∈ ls, l.length = w) : ls.flatten.length = w * ls.length := by
  rw [List.length_flatten, List.map_congr_left (g := fun _ => w) h]
  simp [Nat.mul_comm]

/-- In a file of lines of length `w`, line `k` is the bytes from `w * k` on. -/
theorem record_of_lines {f : Bytes} {w : ℕ} (h : ∀ l ∈ lines f, l.length = w) {k : ℕ}
    (hk : k < (lines f).length) : (f.drop (w * k)).take w = (lines f)[k] := by
  have := drop_take_flatten h hk
  rwa [lines_flatten] at this

end CLib
