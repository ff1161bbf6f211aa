import Mathlib

namespace Bisect

def mid (low high : ℤ) : ℤ := low + (high - low) / 2

theorem low_le_mid {low high : ℤ} (h : low ≤ high) : low ≤ mid low high := by
  unfold mid; omega

theorem mid_le_high {low high : ℤ} (h : low ≤ high) : mid low high ≤ high := by
  unfold mid; omega

structure Outcome where
  low : ℤ
  high : ℤ
  hit : Option ℤ
  deriving DecidableEq

/-- Binary search by the oracle `c`, with at most `n` probes. -/
def search (c : ℤ → Ordering) : ℕ → ℤ → ℤ → Outcome
  | 0, low, high => ⟨low, high, none⟩
  | n + 1, low, high =>
    if low ≤ high then
      match c (mid low high) with
      | .eq => ⟨low, high, some (mid low high)⟩
      | .lt => search c n (mid low high + 1) high
      | .gt => search c n low (mid low high - 1)
    else ⟨low, high, none⟩

def fuel (low high : ℤ) : ℕ := (high - low + 1).toNat

variable {c : ℤ → Ordering} {n : ℕ} {low high : ℤ}

theorem search_of_lt (h : high < low) : search c n low high = ⟨low, high, none⟩ := by
  cases n with
  | zero => rfl
  | succ n => rw [search, if_neg (not_le.mpr h)]

theorem search_eq (h : low ≤ high) (hm : c (mid low high) = .eq) :
    search c (n + 1) low high = ⟨low, high, some (mid low high)⟩ := by
  rw [search, if_pos h, hm]

theorem search_lt (h : low ≤ high) (hm : c (mid low high) = .lt) :
    search c (n + 1) low high = search c n (mid low high + 1) high := by
  rw [search, if_pos h, hm]

theorem search_gt (h : low ≤ high) (hm : c (mid low high) = .gt) :
    search c (n + 1) low high = search c n low (mid low high - 1) := by
  rw [search, if_pos h, hm]

/-- The window only shrinks, and a hit lies in it at an index where the oracle says `eq`. -/
theorem search_sound (c : ℤ → Ordering) (n : ℕ) (low high : ℤ) :
    low ≤ (search c n low high).low ∧ (search c n low high).high ≤ high ∧
      ∀ m, (search c n low high).hit = some m →
        c m = .eq ∧ (search c n low high).low ≤ m ∧ m ≤ (search c n low high).high := by
  -- one probe shrinks the window from one side; the rest is the search of that half
  induction n generalizing low high with
  | zero => simp [search]
  | succ n ih =>
    by_cases h : low ≤ high
    · have h1 := low_le_mid h
      have h2 := mid_le_high h
      cases hm : c (mid low high) with
      | eq =>
        rw [search_eq h hm]
        refine ⟨le_rfl, le_rfl, fun m hmm => ?_⟩
        obtain rfl : mid low high = m := by simpa using hmm
        exact ⟨hm, h1, h2⟩
      | lt =>
        rw [search_lt h hm]
        obtain ⟨hl, hh, hit⟩ := ih (mid low high + 1) high
        exact ⟨by omega, hh, hit⟩
      | gt =>
        rw [search_gt h hm]
        obtain ⟨hl, hh, hit⟩ := ih low (mid low high - 1)
        exact ⟨hl, by omega, hit⟩
    · rw [search_of_lt (not_le.mp h)]
      simp

theorem eq_of_hit {m : ℤ} (h : (search c n low high).hit = some m) : c m = .eq :=
  ((search_sound c n low high).2.2 m h).1

theorem le_of_hit {m : ℤ} (h : (search c n low high).hit = some m) : low ≤ m ∧ m ≤ high := by
  obtain ⟨hl, hh, hit⟩ := search_sound c n low high
  have := (hit m h).2
  omega

/-- A search that hits left of its first probe goes on in the left half. -/
theorem gt_of_hit_lt_mid {k : ℤ} (h : low ≤ high) (hit : (search c (n + 1) low high).hit = some k)
    (hk : k < mid low high) :
    c (mid low high) = .gt ∧ (search c n low (mid low high - 1)).hit = some k := by
  cases hc : c (mid low high) with
  | eq =>
    rw [search_eq h hc] at hit
    exact absurd (Option.some.inj hit) hk.ne'
  | lt =>
    rw [search_lt h hc] at hit
    have := le_of_hit hit
    omega
  | gt =>
    rw [search_gt h hc] at hit
    exact ⟨rfl, hit⟩

/-- A search that hits right of its first probe goes on in the right half. -/
theorem lt_of_mid_lt_hit {k : ℤ} (h : low ≤ high) (hit : (search c (n + 1) low high).hit = some k)
    (hk : mid low high < k) :
    c (mid low high) = .lt ∧ (search c n (mid low high + 1) high).hit = some k := by
  cases hc : c (mid low high) with
  | eq =>
    rw [search_eq h hc] at hit
    exact absurd (Option.some.inj hit) hk.ne
  | lt =>
    rw [search_lt h hc] at hit
    exact ⟨rfl, hit⟩
  | gt =>
    rw [search_gt h hc] at hit
    have := le_of_hit hit
    omega

theorem empty_of_miss (hn : fuel low high ≤ n) (h : (search c n low high).hit = none) :
    (search c n low high).high < (search c n low high).low := by
  induction n generalizing low high with
  | zero =>
    simp only [fuel, Nat.le_zero, Int.toNat_eq_zero] at hn
    change high < low
    omega
  | succ n ih =>
    by_cases hle : low ≤ high
    · have h1 := low_le_mid hle
      have h2 := mid_le_high hle
      unfold fuel at hn ih
      cases hm : c (mid low high) with
      | eq => simp [search_eq hle hm] at h
      | lt =>
        rw [search_lt hle hm] at h ⊢
        exact ih (by omega) h
      | gt =>
        rw [search_gt hle hm] at h ⊢
        exact ih (by omega) h
    · rw [search_of_lt (not_le.mp hle)]
      exact not_le.mp hle

/-- On `[low, high]` the oracle says `lt` before `eq` and `eq` before `gt`. -/
structure Ordered (c : ℤ → Ordering) (low high : ℤ) : Prop where
  lt_of_le : ∀ i j, low ≤ i → i ≤ j → j ≤ high → c j = .lt → c i = .lt
  gt_of_le : ∀ i j, low ≤ i → i ≤ j → j ≤ high → c i = .gt → c j = .gt

theorem Ordered.mono {low' high' : ℤ} (h : Ordered c low high) (hl : low ≤ low')
    (hh : high' ≤ high) : Ordered c low' high' where
  lt_of_le i j hi hij hj := h.lt_of_le i j (hl.trans hi) hij (hj.trans hh)
  gt_of_le i j hi hij hj := h.gt_of_le i j (hl.trans hi) hij (hj.trans hh)

theorem mem_window (hc : Ordered c low high) {k : ℤ} (hk : low ≤ k ∧ k ≤ high) (heq : c k = .eq) :
    (search c n low high).low ≤ k ∧ k ≤ (search c n low high).high := by
  induction n generalizing low high with
  | zero => exact hk
  | succ n ih =>
    by_cases hle : low ≤ high
    · have h1 := low_le_mid hle
      have h2 := mid_le_high hle
      cases hm : c (mid low high) with
      | eq => rw [search_eq hle hm]; exact hk
      | lt =>
        rw [search_lt hle hm]
        -- otherwise the oracle would say `lt` at `k` as well
        have hlt : mid low high < k := by
          by_contra hkm
          have := hc.lt_of_le k (mid low high) hk.1 (not_lt.mp hkm) h2 hm
          simp [heq] at this
        exact ih (hc.mono (by omega) le_rfl) ⟨by omega, hk.2⟩
      | gt =>
        rw [search_gt hle hm]
        have hlt : k < mid low high := by
          by_contra hkm
          have := hc.gt_of_le (mid low high) k h1 (not_lt.mp hkm) hk.2 hm
          simp [heq] at this
        exact ih (hc.mono le_rfl (by omega)) ⟨hk.1, by omega⟩
    · rw [search_of_lt (not_le.mp hle)]
      exact hk

theorem exists_hit (hc : Ordered c low high) (hn : fuel low high ≤ n) {k : ℤ}
    (hk : low ≤ k ∧ k ≤ high) (heq : c k = .eq) : ∃ m, (search c n low high).hit = some m := by
  cases h : (search c n low high).hit with
  | some m => exact ⟨m, rfl⟩
  | none =>
    -- the window would still hold `k`
    have h1 := mem_window (n := n) hc hk heq
    have h2 := empty_of_miss hn h
    omega

/-- In a list along which a property can only be lost, the elements that have it come first. -/
theorem lt_countP_iff {α : Type*} {p : α → Bool} {l : List α}
    (h : l.Pairwise fun a b => p b = true → p a = true) {k : ℕ} {a : α} (ha : l[k]? = some a) :
    k < l.countP p ↔ p a = true := by
  induction l generalizing k with
  | nil => simp at ha
  | cons b l ih =>
    obtain ⟨hb, hl⟩ := List.pairwise_cons.mp h
    have hnone : p b = false → l.countP p = 0 := fun hpb =>
      List.countP_eq_zero.mpr fun x hx hpx => by simp [hb x hx hpx] at hpb
    cases k with
    | zero =>
      obtain rfl : b = a := by simpa using ha
      cases hpb : p b with
      | true => simp [hpb]
      | false => simp [hpb, hnone hpb]
    | succ k =>
      have ha' : l[k]? = some a := by simpa using ha
      cases hpb : p b with
      | true => simp [hpb, ih hl ha']
      | false =>
        have hpa : ¬ p a = true := fun hpa => by
          simp [hb a (List.mem_of_getElem? ha') hpa] at hpb
        simp [hpb, hnone hpb, hpa]

section Sequence

variable {α : Type*} [LinearOrder α] (f : ℤ → α)

def cmpAt (a : α) (i : ℤ) : Ordering := compare (f i) a

theorem cmpAt_eq {a : α} {i : ℤ} : cmpAt f a i = .eq ↔ f i = a := compare_eq_iff_eq

theorem cmpAt_lt {a : α} {i : ℤ} : cmpAt f a i = .lt ↔ f i < a := compare_lt_iff_lt

theorem cmpAt_gt {a : α} {i : ℤ} : cmpAt f a i = .gt ↔ a < f i := compare_gt_iff_gt

theorem ordered_cmpAt {low high : ℤ}
    (h : ∀ i j, low ≤ i → i ≤ j → j ≤ high → f i ≤ f j) (a : α) : Ordered (cmpAt f a) low high where
  lt_of_le i j hi hij hj hlt :=
    (cmpAt_lt f).mpr ((h i j hi hij hj).trans_lt ((cmpAt_lt f).mp hlt))
  gt_of_le i j hi hij hj hgt :=
    (cmpAt_gt f).mpr (((cmpAt_gt f).mp hgt).trans_le (h i j hi hij hj))

/-- Two elements that binary search finds at their own indices ascend. The induction follows the
search: the first probe separates the two, or both are found by the search of the same half. -/
theorem lt_of_hits {n : ℕ} {low high i j : ℤ}
    (hi : (search (cmpAt f (f i)) n low high).hit = some i)
    (hj : (search (cmpAt f (f j)) n low high).hit = some j) (hij : i < j) : f i < f j := by
  induction n generalizing low high with
  | zero => cases hi
  | succ n ih =>
    have hbounds := le_of_hit hi
    have hle : low ≤ high := by omega
    rcases lt_trichotomy j (mid low high) with hjm | hjm | hjm
    · exact ih (gt_of_hit_lt_mid hle hi (hij.trans hjm)).2 (gt_of_hit_lt_mid hle hj hjm).2
    · rw [hjm]
      exact (cmpAt_gt f).mp (gt_of_hit_lt_mid hle hi (hij.trans_eq hjm)).1
    · obtain ⟨hmj, hjright⟩ := lt_of_mid_lt_hit hle hj hjm
      rcases lt_trichotomy i (mid low high) with him | him | him
      · have hmi := (gt_of_hit_lt_mid hle hi him).1
        exact ((cmpAt_gt f).mp hmi).trans ((cmpAt_lt f).mp hmj)
      · rw [him]
        exact (cmpAt_lt f).mp hmj
      · exact ih (lt_of_mid_lt_hit hle hi him).2 hjright

end Sequence

end Bisect
