import CatalogFS.CLib.Strings

namespace CLib

def digit (d : ℕ) : Byte := Fin.ofNat 256 (48 + d)

/-- `n` in base `b`, most significant digit first. -/
def digitsIn (b n : ℕ) : Bytes :=
  if n = 0 then [digit 0] else ((Nat.digits b n).map digit).reverse

def decimal (z : ℤ) : Bytes :=
  if z < 0 then ch '-' :: digitsIn 10 z.natAbs else digitsIn 10 z.natAbs

def octal (n : ℕ) : Bytes := digitsIn 8 n

def isDigit (b : ℕ) (c : Byte) : Bool := 48 ≤ c.val && c.val < 48 + b

def digitsValue (b : ℕ) (l : Bytes) : ℕ := l.foldl (fun v c => v * b + (c.val - 48)) 0

def scanSign : Bytes → Bool × Bytes
  | [] => (false, [])
  | c :: s => if c = ch '-' then (true, s) else if c = ch '+' then (false, s) else (false, c :: s)

/-- The integer at the start of a string and the rest of the string, if there is one. -/
def scanInt (b : ℕ) (s : Bytes) : Option (ℤ × Bytes) :=
  let (negative, s) := scanSign s
  let ds := s.takeWhile (isDigit b)
  if ds = [] then none
  else
    let v : ℤ := digitsValue b ds
    some (if negative then -v else v, s.dropWhile (isDigit b))

theorem digit_val {d : ℕ} (h : d < 10) : (digit d).val = 48 + d := by
  simp only [digit, Fin.val_ofNat]
  omega

theorem isDigit_digit {b d : ℕ} (hb : b ≤ 10) (hd : d < b) : isDigit b (digit d) = true := by
  simp [isDigit, digit_val (by omega : d < 10), hd]

theorem digitsIn_ne_nil (b n : ℕ) : digitsIn b n ≠ [] := by
  unfold digitsIn
  split_ifs with h
  · simp
  · simp [Nat.digits_ne_nil_iff_ne_zero.mpr h]

theorem isDigit_of_mem_digitsIn {b n : ℕ} (hb : 1 < b) (hb' : b ≤ 10) :
    ∀ c ∈ digitsIn b n, isDigit b c = true := by
  intro c hc
  unfold digitsIn at hc
  split_ifs at hc with h
  · rw [List.mem_singleton.mp hc]
    exact isDigit_digit hb' (by omega)
  · obtain ⟨d, hd, rfl⟩ := List.mem_map.mp (List.mem_reverse.mp hc)
    exact isDigit_digit hb' (Nat.digits_lt_base hb hd)

theorem foldr_digit_eq_ofDigits (b : ℕ) (ds : List ℕ) (h : ∀ d ∈ ds, d < 10) :
    ds.foldr (fun d v => v * b + ((digit d).val - 48)) 0 = Nat.ofDigits b ds := by
  induction ds with
  | nil => rfl
  | cons d ds ih =>
    rw [List.foldr_cons, ih fun e he => h e (List.mem_cons_of_mem d he),
      digit_val (h d List.mem_cons_self), Nat.ofDigits_cons]
    rw [Nat.add_sub_cancel_left, Nat.mul_comm, Nat.add_comm]

theorem digitsValue_digitsIn {b : ℕ} (hb : 1 < b) (hb' : b ≤ 10) (n : ℕ) :
    digitsValue b (digitsIn b n) = n := by
  unfold digitsIn digitsValue
  split_ifs with h
  · simp [digit, h]
  · rw [List.foldl_reverse, List.foldr_map]
    exact (foldr_digit_eq_ofDigits b _ fun d hd => (Nat.digits_lt_base hb hd).trans_le hb').trans
      (Nat.ofDigits_digits b n)

def EndsNumber (b : ℕ) (rest : Bytes) : Prop := ∀ c ∈ rest.head?, isDigit b c = false

theorem takeWhile_digits_append {b : ℕ} {ds rest : Bytes} (hds : ∀ c ∈ ds, isDigit b c = true)
    (hrest : EndsNumber b rest) : (ds ++ rest).takeWhile (isDigit b) = ds := by
  rw [List.takeWhile_append_of_pos hds]
  cases rest with
  | nil => simp
  | cons c rest => simp [hrest c rfl]

theorem dropWhile_digits_append {b : ℕ} {ds rest : Bytes} (hds : ∀ c ∈ ds, isDigit b c = true)
    (hrest : EndsNumber b rest) : (ds ++ rest).dropWhile (isDigit b) = rest := by
  rw [List.dropWhile_append_of_pos hds]
  cases rest with
  | nil => rfl
  | cons c rest => simp [hrest c rfl]

theorem scanSign_of_isDigit {b : ℕ} {s : Bytes} (h : ∀ c ∈ s.head?, isDigit b c = true) :
    scanSign s = (false, s) := by
  cases s with
  | nil => rfl
  | cons c s =>
    have hc : isDigit b c = true := h c rfl
    have hm : c ≠ ch '-' := by rintro rfl; simp [isDigit, ch] at hc
    have hp : c ≠ ch '+' := by rintro rfl; simp [isDigit, ch] at hc
    simp [scanSign, hm, hp]

theorem head?_digitsIn_append {b : ℕ} (hb : 1 < b) (hb' : b ≤ 10) (n : ℕ) (rest : Bytes) :
    ∀ c ∈ (digitsIn b n ++ rest).head?, isDigit b c = true := by
  intro c hc
  obtain ⟨d, ds, hd⟩ := List.exists_cons_of_ne_nil (digitsIn_ne_nil b n)
  rw [hd] at hc
  have hcd : d = c := by simpa using hc
  exact isDigit_of_mem_digitsIn hb hb' c (by rw [hd, hcd]; exact List.mem_cons_self)

theorem scanInt_digitsIn {b : ℕ} (hb : 1 < b) (hb' : b ≤ 10) (n : ℕ) {rest : Bytes}
    (hrest : EndsNumber b rest) : scanInt b (digitsIn b n ++ rest) = some ((n : ℤ), rest) := by
  have hds := isDigit_of_mem_digitsIn (n := n) hb hb'
  simp only [scanInt, scanSign_of_isDigit (head?_digitsIn_append hb hb' n rest),
    takeWhile_digits_append hds hrest, dropWhile_digits_append hds hrest,
    if_neg (digitsIn_ne_nil b n), digitsValue_digitsIn hb hb']
  rfl

theorem scanInt_octal (n : ℕ) {rest : Bytes} (hrest : EndsNumber 8 rest) :
    scanInt 8 (octal n ++ rest) = some ((n : ℤ), rest) :=
  scanInt_digitsIn (by norm_num) (by norm_num) n hrest

theorem scanInt_decimal (z : ℤ) {rest : Bytes} (hrest : EndsNumber 10 rest) :
    scanInt 10 (decimal z ++ rest) = some (z, rest) := by
  have hds := isDigit_of_mem_digitsIn (b := 10) (n := z.natAbs) (by norm_num) (by norm_num)
  unfold decimal
  split_ifs with hz
  · have hsign : scanSign (ch '-' :: digitsIn 10 z.natAbs ++ rest) =
        (true, digitsIn 10 z.natAbs ++ rest) := by simp [scanSign]
    simp only [scanInt, hsign, takeWhile_digits_append hds hrest,
      dropWhile_digits_append hds hrest, if_neg (digitsIn_ne_nil 10 z.natAbs),
      digitsValue_digitsIn (b := 10) (by norm_num) (by norm_num), if_true]
    rw [show -(z.natAbs : ℤ) = z by omega]
  · rw [scanInt_digitsIn (by norm_num) (by norm_num) _ hrest]
    rw [show (z.natAbs : ℤ) = z by omega]

theorem le_val_of_mem_octal {n : ℕ} {c : Byte} (h : c ∈ octal n) : 45 ≤ c.val := by
  have := isDigit_of_mem_digitsIn (by norm_num) (by norm_num) c h
  simp only [isDigit, Bool.and_eq_true, decide_eq_true_eq] at this
  omega

theorem le_val_of_mem_decimal {z : ℤ} {c : Byte} (h : c ∈ decimal z) : 45 ≤ c.val := by
  have hdigit : c ∈ digitsIn 10 z.natAbs → 45 ≤ c.val := by
    intro h
    have := isDigit_of_mem_digitsIn (by norm_num) (by norm_num) c h
    simp only [isDigit, Bool.and_eq_true, decide_eq_true_eq] at this
    omega
  unfold decimal at h
  split_ifs at h
  · rcases List.mem_cons.mp h with rfl | h
    · decide
    · exact hdigit h
  · exact hdigit h

theorem decimal_injective : Function.Injective decimal := by
  intro x y h
  have hnil : EndsNumber 10 [] := by simp [EndsNumber]
  have hx := scanInt_decimal x hnil
  have hy := scanInt_decimal y hnil
  rw [h, hy] at hx
  exact (congrArg Prod.fst (Option.some.inj hx)).symm

/-- What `strtol` makes of an integer: the nearest `long`. -/
def toLong (z : ℤ) : Int64 := Int64.ofInt (max (-2 ^ 63) (min z (2 ^ 63 - 1)))

/-- What `strtoul` makes of an integer: a value out of range gives `ULONG_MAX`, a negative one
wraps around. -/
def toULong (z : ℤ) : UInt64 :=
  if 2 ^ 64 ≤ z.natAbs then UInt64.ofNat (2 ^ 64 - 1) else UInt64.ofInt z

def toInt (z : ℤ) : ℤ := z.bmod (2 ^ 32)

theorem toLong_toInt (x : Int64) : toLong x.toInt = x := by
  have h1 : -2 ^ 63 ≤ x.toInt := x.le_toInt
  have h2 : x.toInt < 2 ^ 63 := x.toInt_lt
  have h : max (-2 ^ 63) (min x.toInt (2 ^ 63 - 1)) = x.toInt := by omega
  rw [toLong, h, Int64.ofInt_toInt]

theorem toULong_natCast {n : ℕ} (h : n < 2 ^ 64) : toULong n = UInt64.ofNat n := by
  have hn : ((n : ℤ) % 2 ^ 64).toNat = n := by omega
  rw [toULong, if_neg (by simpa using h), UInt64.ofInt, hn]

theorem toInt_of_lt {z : ℤ} (h1 : -2 ^ 31 ≤ z) (h2 : z < 2 ^ 31) : toInt z = z := by
  unfold toInt
  rw [Int.bmod_eq_of_le] <;> omega

theorem toInt_lt (z : ℤ) : toInt z < 2 ^ 31 := by
  have := Int.bmod_lt (x := z) (m := 2 ^ 32) (by norm_num)
  unfold toInt
  omega

end CLib
