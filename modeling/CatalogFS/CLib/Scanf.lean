import CatalogFS.CLib.Numeral

namespace CLib

def isSpace (c : Byte) : Bool := c = 32 || (9 ≤ c.val && c.val ≤ 13)

inductive Directive
  /-- `%c`: the next byte, whatever it is. -/
  | char
  /-- White space in the format: any amount of white space. -/
  | space
  /-- A character of the format that has to match. -/
  | lit (b : Byte)
  /-- `%ld`, `%lo` and their kin: white space, then an integer in this base. -/
  | num (base : ℕ)
  /-- `%[^b]`: a non-empty run of bytes other than `b`. -/
  | until (b : Byte)
  deriving DecidableEq

inductive Item
  | char (b : Byte)
  | num (z : ℤ)
  | str (s : Bytes)
  deriving DecidableEq

/-- The items converted from the string by the format, up to the first failure. -/
def sscanf : List Directive → Bytes → List Item
  | [], _ => []
  | .char :: _, [] => []
  | .char :: ds, b :: s => .char b :: sscanf ds s
  | .space :: ds, s => sscanf ds (s.dropWhile isSpace)
  | .lit _ :: _, [] => []
  | .lit a :: ds, b :: s => if a = b then sscanf ds s else []
  | .num base :: ds, s =>
    match scanInt base (s.dropWhile isSpace) with
    | none => []
    | some (z, s) => .num z :: sscanf ds s
  | .until a :: ds, s =>
    let t := s.takeWhile (· ≠ a)
    if t = [] then [] else .str t :: sscanf ds (s.dropWhile (· ≠ a))

@[simp] theorem sscanf_char (ds : List Directive) (b : Byte) (s : Bytes) :
    sscanf (.char :: ds) (b :: s) = .char b :: sscanf ds s := rfl

@[simp] theorem sscanf_lit_self (ds : List Directive) (b : Byte) (s : Bytes) :
    sscanf (.lit b :: ds) (b :: s) = sscanf ds s := by
  simp [sscanf]

/-- White space in the format skips one blank of the input. -/
theorem sscanf_space (ds : List Directive) {s : Bytes} (h : ∀ c ∈ s.head?, isSpace c = false) :
    sscanf (.space :: ds) (32 :: s) = sscanf ds s := by
  have hs : s.dropWhile isSpace = s := by
    cases s with
    | nil => rfl
    | cons c s => simp [h c rfl]
  rw [sscanf, List.dropWhile_cons, if_pos (by decide), hs]

theorem sscanf_num (ds : List Directive) {base : ℕ} {s rest : Bytes} {z : ℤ}
    (hs : ∀ c ∈ s.head?, isSpace c = false) (h : scanInt base s = some (z, rest)) :
    sscanf (.num base :: ds) s = .num z :: sscanf ds rest := by
  have hd : s.dropWhile isSpace = s := by
    cases s with
    | nil => rfl
    | cons c s => simp [hs c rfl]
  simp [sscanf, hd, h]

theorem sscanf_until (ds : List Directive) {a : Byte} {s : Bytes} (h : s.takeWhile (· ≠ a) ≠ []) :
    sscanf (.until a :: ds) s =
      .str (s.takeWhile (· ≠ a)) :: sscanf ds (s.dropWhile (· ≠ a)) := by
  simp only [sscanf, if_neg h]

inductive Kind
  | char
  | num
  | str
  deriving DecidableEq

def Item.kind : Item → Kind
  | .char _ => .char
  | .num _ => .num
  | .str _ => .str

def Directive.kind : Directive → Option Kind
  | .char => some .char
  | .num _ => some .num
  | .until _ => some .str
  | .space => none
  | .lit _ => none

theorem Item.exists_char {i : Item} (h : i.kind = .char) : ∃ b, i = .char b := by
  cases i with
  | char b => exact ⟨b, rfl⟩
  | num z => cases h
  | str s => cases h

theorem Item.exists_num {i : Item} (h : i.kind = .num) : ∃ z, i = .num z := by
  cases i with
  | char b => cases h
  | num z => exact ⟨z, rfl⟩
  | str s => cases h

theorem Item.exists_str {i : Item} (h : i.kind = .str) : ∃ s, i = .str s := by
  cases i with
  | char b => cases h
  | num z => cases h
  | str s => exact ⟨s, rfl⟩

/-- The items have the kinds that the format asks for, in its order. -/
theorem sscanf_kind_isPrefix (ds : List Directive) (s : Bytes) :
    (sscanf ds s).map Item.kind <+: ds.filterMap Directive.kind := by
  fun_induction sscanf ds s with
  | case1 => exact List.nil_prefix
  | case2 => exact List.nil_prefix
  | case3 ds b s ih => exact List.cons_prefix_cons.mpr ⟨rfl, ih⟩
  | case4 ds s ih => exact ih
  | case5 => exact List.nil_prefix
  | case6 ds b s ih => exact ih
  | case7 => exact List.nil_prefix
  | case8 => exact List.nil_prefix
  | case9 base ds s z rest _ ih => exact List.cons_prefix_cons.mpr ⟨rfl, ih⟩
  | case10 => exact List.nil_prefix
  | case11 a ds s t _ ih => exact List.cons_prefix_cons.mpr ⟨rfl, ih⟩

theorem sscanf_kind_eq {ds : List Directive} {s : Bytes}
    (h : (sscanf ds s).length = (ds.filterMap Directive.kind).length) :
    (sscanf ds s).map Item.kind = ds.filterMap Directive.kind :=
  (sscanf_kind_isPrefix ds s).eq_of_length (by rw [List.length_map, h])

theorem endsNumber_blank (base : ℕ) (s : Bytes) : EndsNumber base (32 :: s) := by
  intro c hc
  have : c = 32 := by simpa using hc.symm
  simp [this, isDigit]

theorem isSpace_of_isDigit {b : ℕ} {c : Byte} (h : isDigit b c = true) :
    isSpace c = false := by
  simp only [isDigit, Bool.and_eq_true, decide_eq_true_eq] at h
  have hc : c ≠ 32 := by rintro rfl; simp at h
  simp only [isSpace, hc, decide_false, Bool.false_or, Bool.and_eq_false_iff, decide_eq_false_iff_not]
  omega

theorem head?_octal_append (n : ℕ) (s : Bytes) : ∀ c ∈ (octal n ++ s).head?, isSpace c = false :=
  fun c hc => isSpace_of_isDigit
    (head?_digitsIn_append (b := 8) (by norm_num) (by norm_num) n s c hc)

theorem head?_decimal_append (z : ℤ) (s : Bytes) :
    ∀ c ∈ (decimal z ++ s).head?, isSpace c = false := by
  intro c hc
  unfold decimal at hc
  split_ifs at hc
  · have : c = ch '-' := by simpa using hc.symm
    rw [this]
    decide
  · exact isSpace_of_isDigit
      (head?_digitsIn_append (b := 10) (by norm_num) (by norm_num) _ s c hc)

theorem sscanf_octal (ds : List Directive) (n : ℕ) (s : Bytes) :
    sscanf (.space :: .num 8 :: ds) (32 :: (octal n ++ 32 :: s)) =
      .num n :: sscanf ds (32 :: s) := by
  rw [sscanf_space _ (head?_octal_append n _),
    sscanf_num _ (head?_octal_append n _) (scanInt_octal n (endsNumber_blank 8 s))]

theorem sscanf_decimal (ds : List Directive) (z : ℤ) (s : Bytes) :
    sscanf (.space :: .num 10 :: ds) (32 :: (decimal z ++ 32 :: s)) =
      .num z :: sscanf ds (32 :: s) := by
  rw [sscanf_space _ (head?_decimal_append z _),
    sscanf_num _ (head?_decimal_append z _) (scanInt_decimal z (endsNumber_blank 10 s))]

example : sscanf [.char, .space, .num 8, .space, .num 10] [102, 32, 55, 53, 32, 45, 57] =
    [.char 102, .num 61, .num (-9)] := by decide

end CLib
