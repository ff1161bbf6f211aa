import Mathlib

namespace CLib

/-- So that numerals stand for bytes. -/
instance byteNeZero : NeZero 256 := ⟨by decide⟩

abbrev Byte := Fin 256

abbrev Bytes := List Byte

def ch (c : Char) : Byte := Fin.ofNat 256 c.toNat

/-- The string at the start of a buffer: everything before the first NUL. -/
def cstr (b : Bytes) : Bytes := b.takeWhile (· ≠ 0)

theorem notMem_takeWhile_ne (a : Byte) (s : Bytes) : a ∉ s.takeWhile (· ≠ a) := by
  intro h
  simpa using List.mem_takeWhile_imp h

theorem takeWhile_ne_eq_self {a : Byte} {s : Bytes} : s.takeWhile (· ≠ a) = s ↔ a ∉ s := by
  constructor
  · intro h
    exact h ▸ notMem_takeWhile_ne a s
  · intro h
    exact List.takeWhile_eq_self_iff.mpr fun b hb => by
      simpa using fun hba : b = a => h (hba ▸ hb)

theorem takeWhile_ne_append (a : Byte) (s t : Bytes) :
    (s ++ a :: t).takeWhile (· ≠ a) = s.takeWhile (· ≠ a) := by
  induction s with
  | nil => simp
  | cons b s ih =>
    by_cases hb : b = a
    · simp [hb]
    · simp only [List.cons_append, List.takeWhile_cons, ih]

theorem exists_dropWhile_ne_append (a : Byte) (s t : Bytes) :
    ∃ u, (s ++ a :: t).dropWhile (· ≠ a) = a :: u := by
  induction s with
  | nil => exact ⟨t, by simp⟩
  | cons b s ih =>
    by_cases hb : b = a
    · exact ⟨s ++ a :: t, by simp [hb]⟩
    · simpa [List.dropWhile_cons, hb] using ih

theorem cstr_of_notMem {s : Bytes} (h : (0 : Byte) ∉ s) : cstr s = s :=
  takeWhile_ne_eq_self.mpr h

/-- `strcmp`: bytes are compared as unsigned, and a string that ends is below one that goes on. -/
def strcmp : Bytes → Bytes → Ordering
  | [], [] => .eq
  | [], _ :: _ => .lt
  | _ :: _, [] => .gt
  | a :: s, b :: t => if a < b then .lt else if b < a then .gt else strcmp s t

def strncmp (s t : Bytes) (n : ℕ) : Ordering := strcmp (s.take n) (t.take n)

@[simp] theorem strcmp_eq_eq {s t : Bytes} : strcmp s t = .eq ↔ s = t := by
  fun_induction strcmp s t with
  | case1 => simp
  | case2 => simp
  | case3 => simp
  | case4 a s b t hab => simp [hab.ne]
  | case5 a s b t _ hba => simp [hba.ne']
  | case6 a s b t hab hba ih => simp [ih, le_antisymm (not_lt.mp hba) (not_lt.mp hab)]

@[simp] theorem strcmp_eq_lt {s t : Bytes} : strcmp s t = .lt ↔ s < t := by
  fun_induction strcmp s t with
  | case1 => simp
  | case2 => simp
  | case3 => simp
  | case4 a s b t hab => simp [List.cons_lt_cons_iff, hab]
  | case5 a s b t hab hba => simp [List.cons_lt_cons_iff, hab, hba.ne']
  | case6 a s b t hab hba ih =>
    simp [ih, le_antisymm (not_lt.mp hba) (not_lt.mp hab)]

@[simp] theorem strcmp_eq_gt {s t : Bytes} : strcmp s t = .gt ↔ t < s := by
  rcases lt_trichotomy s t with hst | rfl | hst
  · simp [strcmp_eq_lt.mpr hst, hst.le]
  · simp [strcmp_eq_eq.mpr rfl]
  · have hne : strcmp s t ≠ .lt := fun h => lt_asymm hst (strcmp_eq_lt.mp h)
    have hne' : strcmp s t ≠ .eq := fun h => hst.ne' (strcmp_eq_eq.mp h)
    cases h : strcmp s t <;> simp_all

theorem strncmp_length_eq {s t : Bytes} : strncmp s t s.length = .eq ↔ s <+: t := by
  rw [strncmp, strcmp_eq_eq, List.take_length, List.prefix_iff_eq_take]

section Order

variable {α : Type*} [LinearOrder α]

theorem append_lt_append_left_iff (s : List α) {t u : List α} : s ++ t < s ++ u ↔ t < u := by
  induction s with
  | nil => rfl
  | cons a s ih => simp [ih]

theorem lt_append_of_ne_nil (s : List α) {t : List α} (h : t ≠ []) : s < s ++ t := by
  obtain ⟨a, t, rfl⟩ := List.exists_cons_of_ne_nil h
  simpa using (append_lt_append_left_iff s).mpr (List.nil_lt_cons a t)

/-- Two strings that differ before either ends stay in order whatever follows them. -/
theorem append_lt_append_of_lt {s t : List α} (hlt : s < t) (h : ¬ s <+: t) (u v : List α) :
    s ++ u < t ++ v := by
  induction s generalizing t with
  | nil => exact absurd (List.nil_prefix) h
  | cons a s ih =>
    cases t with
    | nil => exact absurd hlt (List.not_lt_nil _)
    | cons b t =>
      rcases List.cons_lt_cons_iff.mp hlt with hab | ⟨rfl, hst⟩
      · exact List.cons_lt_cons_iff.mpr (.inl hab)
      · have hp : ¬ s <+: t := fun hp => h (List.cons_prefix_cons.mpr ⟨rfl, hp⟩)
        exact List.cons_lt_cons_iff.mpr (.inr ⟨rfl, ih hst hp⟩)

/-- The strings with a given prefix form an interval of the order. -/
theorem prefix_of_le_of_le {d x y : List α} (hdx : d ≤ x) (hxy : x ≤ y) (hy : d <+: y) : d <+: x := by
  by_contra hx
  have hlt : d < x := lt_of_le_of_ne hdx fun h => hx (h ▸ List.prefix_rfl)
  obtain ⟨v, rfl⟩ := hy
  have : d ++ v < x := by simpa using append_lt_append_of_lt hlt hx v []
  exact absurd hxy (not_le.mpr this)

end Order

end CLib
