import CatalogFS.Buffers
import CatalogFS.LiveReplacement
import CatalogFS.SearchSafety

namespace CatalogFS

open CLib

/-- When the computation returns, its result and the number of records it has asked for are related. -/
def Spends {α : Type} (probes : ℕ → Probe) (x : M α) (P : α → ℕ → Prop) : Prop :=
  ∀ w a w', x probes w = some (a, w') → ∃ c, w'.probes = w.probes + c ∧ P a c

section Rules

variable {α β : Type} {probes : ℕ → Probe} {P : α → ℕ → Prop}

theorem spends_pure {a : α} (h : P a 0) : Spends probes (pure a) P := by
  intro w b w' hw
  obtain ⟨rfl, rfl⟩ := Prod.mk.inj (Option.some.inj hw)
  exact ⟨0, rfl, h⟩

theorem spends_failure : Spends probes (failure : M α) P := by
  intro w b w' hw
  cases hw

theorem Spends.bind {Q : β → ℕ → Prop} {x : M α} {f : α → M β} (hx : Spends probes x P)
    (hf : ∀ a c, P a c → Spends probes (f a) fun b d => Q b (c + d)) : Spends probes (x >>= f) Q := by
  intro w b w'' hw
  obtain ⟨⟨a, w'⟩, ha, hb⟩ := Option.bind_eq_some_iff.mp hw
  obtain ⟨c, hc, hP⟩ := hx w a w' ha
  obtain ⟨d, hd, hQ⟩ := hf a c hP w' b w'' hb
  exact ⟨c + d, by rw [hd, hc, Nat.add_assoc], hQ⟩

theorem Spends.mono {Q : α → ℕ → Prop} {x : M α} (hx : Spends probes x P)
    (h : ∀ a c, P a c → Q a c) : Spends probes x Q := by
  intro w a w' hw
  obtain ⟨c, hc, hP⟩ := hx w a w' hw
  exact ⟨c, hc, h a c hP⟩

theorem Spends.of_returns {x : M α} {a : α} (hx : Spends probes x P) (hret : Returns probes x a) :
    Spends probes x fun b c => b = a ∧ P a c := by
  intro w b w' hw
  obtain ⟨w'', hw''⟩ := hret w
  rw [hw, Option.some.injEq, Prod.mk.injEq] at hw''
  obtain ⟨rfl, rfl⟩ := hw''
  obtain ⟨c, hc, hP⟩ := hx w b w' hw
  exact ⟨c, hc, rfl, hP⟩

theorem spends_getEntryFromCatalog (g : Globals) (l : ℤ) :
    Spends probes (getEntryFromCatalog g l) fun _ c => c = 1 := by
  intro w a w' hw
  refine ⟨1, ?_, rfl⟩
  unfold getEntryFromCatalog at hw
  cases hcontent : (probes w.probes).content with
  | none => simp [hcontent] at hw
  | some content =>
    simp only [hcontent] at hw
    split_ifs at hw
    · exact congrArg (fun p => p.2.probes) (Option.some.inj hw).symm
    · exact congrArg (fun p => p.2.probes) (Option.some.inj hw).symm
    · exact congrArg (fun p => p.2.probes) (Option.some.inj hw).symm

theorem spends_getEntryFromCatalog_bind {g : Globals} {l : ℤ} {f : Option StatWdf → M α}
    (hf : ∀ r, Spends probes (f r) fun a c => P a (c + 1)) :
    Spends probes (getEntryFromCatalog g l >>= f) P := by
  refine (spends_getEntryFromCatalog g l).bind ?_
  rintro r _ rfl
  exact (hf r).mono fun a c h => by rwa [Nat.add_comm]

theorem spends_getEntryDepthFilepath_bind {g : Globals} {l : ℤ} {f : Option (ℤ × Bytes) → M α}
    (hf : ∀ r, Spends probes (f r) fun a c => P a (c + 1)) :
    Spends probes (getEntryDepthFilepath g l >>= f) P := by
  rw [getEntryDepthFilepath, bind_assoc]
  apply spends_getEntryFromCatalog_bind
  rintro (_ | st)
  · rw [pure_bind]
    exact hf none
  · rw [pure_bind]
    exact hf _

theorem spends_getEntryFilepath_bind {g : Globals} {l : ℤ} {f : Option Bytes → M α}
    (hf : ∀ r, Spends probes (f r) fun a c => P a (c + 1)) :
    Spends probes (getEntryFilepath g l >>= f) P := by
  rw [getEntryFilepath, bind_assoc]
  apply spends_getEntryDepthFilepath_bind
  rintro (_ | ⟨depth, path⟩)
  · rw [pure_bind]
    exact hf none
  · rw [pure_bind]
    exact hf _

end Rules

section Loops

variable {probes : ℕ → Probe} {g : Globals}

/-- A window of less than `2 ^ (t + 1)` entries leaves less than `2 ^ t` on each side of its middle. -/
theorem halves_lt {low high : ℤ} {t : ℕ} (h : high - low + 1 < 2 ^ (t + 1)) :
    high - (Bisect.mid low high + 1) + 1 < 2 ^ t ∧ Bisect.mid low high - 1 - low + 1 < 2 ^ t := by
  rw [pow_succ] at h
  unfold Bisect.mid
  generalize (2 : ℤ) ^ t = p at *
  omega

/-- The search by depth reads a logarithm of its window. -/
theorem spends_findIndexLoop (d : ℤ) (n : ℕ) (w : Window) :
    Spends probes (findIndexLoop g d n w) fun r c =>
      (∀ t : ℕ, w.high - w.low + 1 < 2 ^ t → c ≤ t) ∧
      ∀ w', r = some w' → w.low ≤ w'.low ∧ w'.high ≤ w.high ∧
        (w'.low ≤ w'.high → 1 ≤ c ∧ w'.low ≤ w'.mid ∧ w'.mid ≤ w'.high ∧ w'.depth = d) := by
  induction n generalizing w with
  | zero =>
    rw [findIndexLoop]
    split_ifs with hle
    · exact spends_failure
    · apply spends_pure
      refine ⟨fun t _ => Nat.zero_le t, ?_⟩
      rintro w' ⟨⟩
      exact ⟨le_rfl, le_rfl, fun h => absurd h hle⟩
  | succ n ih =>
    rw [findIndexLoop]
    split_ifs with hle
    · have h1 := Bisect.low_le_mid hle
      have h2 := Bisect.mid_le_high hle
      have hhalves := fun t => @halves_lt w.low w.high t
      rw [calculateMid_eq hle]
      generalize Bisect.mid w.low w.high = m at h1 h2 hhalves
      have hone : ∀ t : ℕ, w.high - w.low + 1 < 2 ^ t → 1 ≤ t := by
        intro t ht
        by_contra h0
        obtain rfl : t = 0 := by omega
        rw [pow_zero] at ht
        omega
      apply spends_getEntryDepthFilepath_bind
      rintro (_ | ⟨depth, path⟩)
      · exact spends_pure ⟨hone, by rintro _ ⟨⟩⟩
      dsimp only
      split_ifs with heq hlt
      · apply spends_pure
        refine ⟨hone, ?_⟩
        rintro w' ⟨⟩
        exact ⟨le_rfl, le_rfl, fun _ => ⟨le_rfl, h1, h2, heq⟩⟩
      · refine (ih _).mono ?_
        rintro r c ⟨hc, hr⟩
        refine ⟨fun t ht => ?_, fun w' hw' => ?_⟩
        · obtain ⟨t, rfl⟩ := Nat.exists_eq_add_of_le' (hone t ht)
          have := hc t (hhalves t ht).1
          omega
        · obtain ⟨hlow, hhigh, hmid⟩ := hr w' hw'
          exact ⟨by dsimp only at hlow; omega, hhigh, fun h => ⟨by omega, (hmid h).2⟩⟩
      · refine (ih _).mono ?_
        rintro r c ⟨hc, hr⟩
        refine ⟨fun t ht => ?_, fun w' hw' => ?_⟩
        · obtain ⟨t, rfl⟩ := Nat.exists_eq_add_of_le' (hone t ht)
          have := hc t (hhalves t ht).2
          omega
        · obtain ⟨hlow, hhigh, hmid⟩ := hr w' hw'
          exact ⟨hlow, by dsimp only at hhigh; omega, fun h => ⟨by omega, (hmid h).2⟩⟩
    · apply spends_pure
      refine ⟨fun t _ => Nat.zero_le t, ?_⟩
      rintro w' ⟨⟩
      exact ⟨le_rfl, le_rfl, fun h => absurd h hle⟩

/-- The scan down reads every entry it passes, but for the one it begins at, and the one it ends at if
that is in the window. -/
theorem spends_findLowestLoop (d low : ℤ) (n : ℕ) (i depth : ℤ) (hi : low ≤ i) :
    Spends probes (findLowestLoop g d low n i depth) fun r c => (c : ℤ) ≤ i - low ∧
      ∀ p, r = some p → low - 1 ≤ p.1 ∧ p.1 ≤ i ∧ (depth = d → p.1 < i) ∧ i - p.1 - 1 ≤ c ∧
        (c : ℤ) ≤ i - p.1 := by
  induction n generalizing i depth with
  | zero =>
    rw [findLowestLoop]
    split_ifs with hd
    · exact spends_failure
    · apply spends_pure
      refine ⟨by push_cast; omega, ?_⟩
      rintro p ⟨⟩
      dsimp only
      exact ⟨by omega, le_rfl, fun h => absurd h hd, by push_cast; omega, by push_cast; omega⟩
  | succ n ih =>
    rw [findLowestLoop]
    split_ifs with hd hlast
    · apply spends_pure
      refine ⟨by push_cast; omega, ?_⟩
      rintro p ⟨⟩
      dsimp only
      push_cast
      omega
    · apply spends_getEntryDepthFilepath_bind
      rintro (_ | ⟨depth, path⟩)
      · exact spends_pure ⟨by push_cast; omega, by rintro _ ⟨⟩⟩
      · refine (ih (i - 1) depth (by omega)).mono ?_
        rintro r c ⟨hc, hr⟩
        refine ⟨by push_cast; omega, fun p hp => ?_⟩
        obtain ⟨h1, h2, -, h3, h4⟩ := hr p hp
        push_cast
        omega
    · apply spends_pure
      refine ⟨by push_cast; omega, ?_⟩
      rintro p ⟨⟩
      dsimp only
      exact ⟨by omega, le_rfl, fun h => absurd h hd, by push_cast; omega, by push_cast; omega⟩

theorem spends_findHighestLoop (d high : ℤ) (n : ℕ) (i depth : ℤ) (hi : i ≤ high) :
    Spends probes (findHighestLoop g d high n i depth) fun r c => (c : ℤ) ≤ high - i ∧
      ∀ p, r = some p → p.1 ≤ high + 1 ∧ i ≤ p.1 ∧ (depth = d → i < p.1) ∧ p.1 - i - 1 ≤ c ∧
        (c : ℤ) ≤ p.1 - i := by
  induction n generalizing i depth with
  | zero =>
    rw [findHighestLoop]
    split_ifs with hd
    · exact spends_failure
    · apply spends_pure
      refine ⟨by push_cast; omega, ?_⟩
      rintro p ⟨⟩
      dsimp only
      exact ⟨by omega, le_rfl, fun h => absurd h hd, by push_cast; omega, by push_cast; omega⟩
  | succ n ih =>
    rw [findHighestLoop]
    split_ifs with hd hlast
    · apply spends_pure
      refine ⟨by push_cast; omega, ?_⟩
      rintro p ⟨⟩
      dsimp only
      push_cast
      omega
    · apply spends_getEntryDepthFilepath_bind
      rintro (_ | ⟨depth, path⟩)
      · exact spends_pure ⟨by push_cast; omega, by rintro _ ⟨⟩⟩
      · refine (ih (i + 1) depth (by omega)).mono ?_
        rintro r c ⟨hc, hr⟩
        refine ⟨by push_cast; omega, fun p hp => ?_⟩
        obtain ⟨h1, h2, -, h3, h4⟩ := hr p hp
        push_cast
        omega
    · apply spends_pure
      refine ⟨by push_cast; omega, ?_⟩
      rintro p ⟨⟩
      dsimp only
      exact ⟨by omega, le_rfl, fun h => absurd h hd, by push_cast; omega, by push_cast; omega⟩

theorem spends_searchPathLoop (s : Bytes) (n : ℕ) (low high : ℤ) :
    Spends probes (searchPathLoop g s n low high) fun r c =>
      (∀ t : ℕ, high - low + 1 < 2 ^ t → c ≤ t) ∧ (low ≤ high → 1 ≤ c) ∧
        (r = -1 ∨ low ≤ r ∧ r ≤ high) := by
  induction n generalizing low high with
  | zero =>
    rw [searchPathLoop]
    split_ifs with hle
    · exact spends_failure
    · exact spends_pure ⟨fun t _ => Nat.zero_le t, fun h => absurd h hle, .inl rfl⟩
  | succ n ih =>
    rw [searchPathLoop]
    split_ifs with hle
    · have h1 := Bisect.low_le_mid hle
      have h2 := Bisect.mid_le_high hle
      have hhalves := fun t => @halves_lt low high t
      rw [calculateMid_eq hle]
      generalize Bisect.mid low high = m at h1 h2 hhalves
      have hone : ∀ t : ℕ, high - low + 1 < 2 ^ t → 1 ≤ t := by
        intro t ht
        by_contra h0
        obtain rfl : t = 0 := by omega
        rw [pow_zero] at ht
        omega
      apply spends_getEntryFilepath_bind
      rintro (_ | path)
      · exact spends_pure ⟨hone, fun _ => le_rfl, .inl rfl⟩
      dsimp only
      cases strcmp path s with
      | eq => exact spends_pure ⟨hone, fun _ => le_rfl, .inr ⟨h1, h2⟩⟩
      | lt =>
        refine (ih (m + 1) high).mono ?_
        rintro r c ⟨hc, -, hr⟩
        refine ⟨fun t ht => ?_, fun _ => ?_, hr.imp_right fun hr => ⟨by omega, hr.2⟩⟩
        · obtain ⟨t, rfl⟩ := Nat.exists_eq_add_of_le' (hone t ht)
          exact Nat.add_le_add_right (hc t (hhalves t ht).1) 1
        · exact Nat.le_add_left 1 c
      | gt =>
        refine (ih low (m - 1)).mono ?_
        rintro r c ⟨hc, -, hr⟩
        refine ⟨fun t ht => ?_, fun _ => ?_, hr.imp_right fun hr => ⟨hr.1, by omega⟩⟩
        · obtain ⟨t, rfl⟩ := Nat.exists_eq_add_of_le' (hone t ht)
          exact Nat.add_le_add_right (hc t (hhalves t ht).2) 1
        · exact Nat.le_add_left 1 c
    · exact spends_pure ⟨fun t _ => Nat.zero_le t, fun h => absurd h hle, .inl rfl⟩

end Loops

section Phases

variable {probes : ℕ → Probe} {g : Globals}

theorem spends_findLowestIndex (d : ℤ) {w : Window} (hmid : w.low ≤ w.mid) (hd : w.depth = d) :
    Spends probes (findLowestIndex g d w) fun r c => (c : ℤ) ≤ w.mid - w.low ∧
      ∀ w', r = some w' → w'.high = w.high ∧ w'.mid = w.mid ∧ w.low ≤ w'.low ∧ w'.low ≤ w.mid ∧
        w.mid - w'.low ≤ c ∧ (c : ℤ) ≤ w.mid - w'.low + 1 := by
  refine (spends_findLowestLoop d w.low _ w.mid w.depth hmid).bind ?_
  rintro (_ | ⟨i, depth⟩) c ⟨hc, hr⟩
  · exact spends_pure ⟨hc, by rintro _ ⟨⟩⟩
  · obtain ⟨h1, -, h2, h3, h4⟩ := hr _ rfl
    have h2 := h2 hd
    apply spends_pure
    refine ⟨hc, ?_⟩
    rintro w' ⟨⟩
    dsimp only at *
    push_cast
    exact ⟨rfl, rfl, by omega, by omega, by omega, by omega⟩

theorem spends_findHighestIndex (d : ℤ) {w : Window} (hmid : w.mid ≤ w.high) (hd : w.depth = d) :
    Spends probes (findHighestIndex g d w) fun r c => (c : ℤ) ≤ w.high - w.mid ∧
      ∀ w', r = some w' → w'.low = w.low ∧ w'.high ≤ w.high ∧ w.mid ≤ w'.high ∧
        w'.high - w.mid ≤ c ∧ (c : ℤ) ≤ w'.high - w.mid + 1 := by
  refine (spends_findHighestLoop d w.high _ w.mid w.depth hmid).bind ?_
  rintro (_ | ⟨i, depth⟩) c ⟨hc, hr⟩
  · exact spends_pure ⟨hc, by rintro _ ⟨⟩⟩
  · obtain ⟨h1, -, h2, h3, h4⟩ := hr _ rfl
    have h2 := h2 hd
    apply spends_pure
    refine ⟨hc, ?_⟩
    rintro w' ⟨⟩
    dsimp only at *
    push_cast
    exact ⟨rfl, by omega, by omega, by omega, by omega⟩

theorem lt_two_pow_size {k : ℤ} {n : ℕ} (h : k ≤ n) : k < 2 ^ n.size := by
  have hlt : (n : ℤ) < 2 ^ n.size := by exact_mod_cast n.lt_size_self
  omega

/-- The first phase reads each entry of the window it gives, at most two more, and what the search by
depth reads. -/
theorem spends_boundsForSameDepth (d mid₀ depth₀ : ℤ) :
    Spends probes (boundsForSameDepth g d ⟨0, g.catalogLen - 1, mid₀, depth₀⟩) fun r c =>
      c ≤ g.catalogLen.size + g.catalogLen ∧
      ∀ w, r = some w → 0 ≤ w.low ∧ w.high < g.catalogLen ∧
        (w.high < w.low → c ≤ g.catalogLen.size) ∧
        (w.low ≤ w.high → w.high - w.low + 1 ≤ c ∧
          (c : ℤ) ≤ g.catalogLen.size + (w.high - w.low) + 2) := by
  have hsize : (g.catalogLen : ℤ) - 1 - 0 + 1 < 2 ^ g.catalogLen.size := lt_two_pow_size (by omega)
  refine (spends_findIndexLoop d _ ⟨0, g.catalogLen - 1, mid₀, depth₀⟩).bind ?_
  rintro (_ | w) c ⟨hc, hr⟩
  · exact spends_pure ⟨(hc _ hsize).trans (Nat.le_add_right _ _), by rintro _ ⟨⟩⟩
  have hc := hc _ hsize
  obtain ⟨hlow, hhigh, hmid⟩ := hr w rfl
  dsimp only at hlow hhigh ⊢
  split_ifs with hempty
  · apply spends_pure
    refine ⟨by omega, ?_⟩
    rintro w' ⟨⟩
    exact ⟨hlow, by omega, fun _ => hc, fun h => by omega⟩
  obtain ⟨hone, hlm, hmh, hd⟩ := hmid (by omega)
  refine (spends_findLowestIndex d hlm hd).bind ?_
  rintro (_ | w₁) c₁ ⟨hc₁, hr₁⟩
  · exact spends_pure ⟨by omega, by rintro _ ⟨⟩⟩
  obtain ⟨heq, hmid₁, hll, hlm₁, hmin₁, hmax₁⟩ := hr₁ w₁ rfl
  dsimp only
  refine (spends_findHighestIndex d (w := { w₁ with depth := d }) (by dsimp only; omega) rfl).mono ?_
  rintro r c₂ ⟨hc₂, hr₂⟩
  dsimp only at hc₂ hr₂
  refine ⟨by omega, fun w₂ hw₂ => ?_⟩
  obtain ⟨hlow₂, hhigh₂, hmh₂, hmin₂, hmax₂⟩ := hr₂ w₂ hw₂
  push_cast
  exact ⟨by omega, by omega, by omega, by omega⟩

/-- On any bytes `binSearch` reads as many records as the catalog has, and twice a logarithm. -/
theorem spends_binSearch (hlen : g.catalogLen < 2 ^ 31) (s : Bytes) :
    Spends probes (binSearch g s) fun r c =>
      c ≤ 2 * g.catalogLen.size + g.catalogLen ∧ r < g.catalogLen := by
  rw [binSearch_eq_bounds]
  split_ifs
  · exact spends_pure ⟨Nat.zero_le _, by omega⟩
  refine (spends_boundsForSameDepth (findDepth s) 0 1).bind ?_
  rintro (_ | w) c ⟨hc, hr⟩
  · exact spends_pure ⟨by omega, by omega⟩
  obtain ⟨hlow, hhigh, -⟩ := hr w rfl
  refine (spends_searchPathLoop s _ w.low w.high).bind ?_
  rintro r c' ⟨hc', -, hr'⟩
  have hc' := hc' _ (lt_two_pow_size (n := g.catalogLen) (by omega))
  apply spends_pure
  refine ⟨by omega, ?_⟩
  rcases hr' with rfl | hr'
  · rw [toInt_of_lt (by decide) (by decide)]
    omega
  · rw [toInt_of_lt (by omega) (by omega)]
    omega

/-- When the first phase gives a window, `binSearch` reads each entry of it and one more. -/
theorem spends_binSearch_of_bounds {s : Bytes} {w : Window} (hd : 0 < findDepth s)
    (hbounds : Returns probes
      (boundsForSameDepth g (findDepth s) ⟨0, g.catalogLen - 1, 0, 1⟩) (some w)) :
    Spends probes (binSearch g s) fun _ c =>
      (w.high < w.low → c ≤ g.catalogLen.size) ∧
      (w.low ≤ w.high → w.high - w.low + 2 ≤ c ∧
        (c : ℤ) ≤ g.catalogLen.size + (w.high - w.low) + 2 + (w.high - w.low + 1).toNat.size) := by
  rw [binSearch_eq_bounds, if_neg (by omega)]
  refine ((spends_boundsForSameDepth (findDepth s) 0 1).of_returns hbounds).bind ?_
  rintro _ c ⟨rfl, -, hr⟩
  obtain ⟨-, -, hmiss, hhit⟩ := hr w rfl
  refine (spends_searchPathLoop s _ w.low w.high).bind ?_
  rintro r c' ⟨hc', hone, -⟩
  apply spends_pure
  refine ⟨fun hempty => ?_, fun hle => ?_⟩
  · have h0 := hc' 0 (by rw [pow_zero]; omega)
    have := hmiss hempty
    omega
  · have h1 := hc' _ (lt_two_pow_size (n := (w.high - w.low + 1).toNat) (by omega))
    have h2 := hone hle
    have h3 := hhit hle
    omega

end Phases

section Catalog

variable {probes : ℕ → Probe} {g : Globals} {file : Bytes} {es : List Entry}

theorem groupHigh_sub_groupLow (es : List Entry) (d : ℤ) :
    groupHigh es d - groupLow es d + 1 = es.countP fun e => e.depth = d := by
  have hcount : es.countP (fun e => e.depth ≤ d) =
      es.countP (fun e => e.depth < d) + es.countP (fun e => e.depth = d) := by
    induction es with
    | nil => rfl
    | cons e es ih =>
      simp only [List.countP_cons, ih]
      rcases lt_trichotomy e.depth d with h | h | h
      · simp [h, h.le, h.ne]
        omega
      · simp [h]
        omega
      · simp [h.not_ge, h.not_gt, h.ne']
  unfold groupHigh groupLow
  omega

theorem exists_bounds (hserves : Serves probes file) (hcat : Readable g file es)
    (hsorted : DepthSorted es) (d : ℤ) : ∃ w,
      Returns probes (boundsForSameDepth g d ⟨0, g.catalogLen - 1, 0, 1⟩) (some w) ∧
      if groupHigh es d < groupLow es d then w.high < w.low
      else w.low = groupLow es d ∧ w.high = groupHigh es d := by
  have hlen : (g.catalogLen : ℤ) = es.length := by rw [hcat.length_eq]
  have hreads := hasDepths_of_readable hserves hcat
  have hmono : ∀ i j : ℤ, 0 ≤ i → i ≤ j → j < g.catalogLen → depthAt es i ≤ depthAt es j :=
    fun i j hi hij hj => depthAt_le hsorted hi hij (by omega)
  cases hm : (searchDepth es d).hit with
  | none =>
    have hgroup := groupHigh_lt_of_miss hsorted hm
    rw [searchDepth, ← hlen] at hm
    obtain ⟨w, -, hbounds, hempty⟩ := returns_bounds_of_miss hreads 0 1 hm
    exact ⟨w, hbounds, by rw [if_pos hgroup]; exact hempty⟩
  | some m =>
    rw [searchDepth, ← hlen] at hm
    obtain ⟨w, hbounds, hle, hiff⟩ := returns_bounds_of_hit hmono hreads 0 1 hm
    rw [hlen] at hiff
    obtain ⟨hlow, hhigh⟩ := eq_group_of_mem_iff hsorted hle hiff
    exact ⟨w, hbounds, by rw [if_neg (by omega)]; exact ⟨hlow, hhigh⟩⟩

/-- How many records `binSearch` reads on a catalog whose depth fields never decrease. When no entry
has the depth of the path it is a logarithm; otherwise it is at least one more than there are such
entries, and at most that and two logarithms. -/
theorem binSearch_reads (hserves : Serves probes file) (hcat : Readable g file es)
    (hsorted : DepthSorted es) {s : Bytes} (hd : 0 < findDepth s) {k : ℕ}
    (hk : es.countP (fun e => e.depth = findDepth s) = k) (w : World) :
    ∃ w' c, binSearch g s probes w = some (locate es s, w') ∧ w'.probes = w.probes + c ∧
      (k = 0 → c ≤ es.length.size) ∧
      (0 < k → k + 1 ≤ c ∧ c ≤ k + 1 + es.length.size + k.size) := by
  obtain ⟨w₀, hbounds, hgroup⟩ := exists_bounds hserves hcat hsorted (findDepth s)
  obtain ⟨w', hw'⟩ := returns_binSearch hserves hcat hsorted s w
  obtain ⟨c, hc, hmiss, hhit⟩ := spends_binSearch_of_bounds hd hbounds w _ w' hw'
  have hwidth := groupHigh_sub_groupLow es (findDepth s)
  rw [hk] at hwidth
  rw [hcat.length_eq]
  refine ⟨w', c, hw', hc, fun hzero => ?_, fun hpos => ?_⟩
  · rw [if_pos (by omega)] at hgroup
    exact hmiss hgroup
  · rw [if_neg (by omega)] at hgroup
    obtain ⟨hlow, hhigh⟩ := hgroup
    have hw₀ : w₀.high - w₀.low + 1 = k := by omega
    have := hhit (by omega)
    rw [hw₀, Int.toNat_natCast] at this
    omega

end Catalog

theorem binSearch_reads_pair : ∃ w' c,
    binSearch (geometry (catalogFile pairRecords)) [slash, ch 'b'] (steady (catalogFile pairRecords))
        ⟨0, 0, []⟩ = some (locate (pairRecords.map Record.entry) [slash, ch 'b'], w') ∧
      w'.probes = 0 + c ∧ 3 ≤ c ∧ c ≤ 7 := by
  obtain ⟨w', c, hw', hc, -, hbounds⟩ :=
    binSearch_reads (serves_steady (catalogFile pairRecords)) isCatalog_pairRecords.readable
      strictCatalog_pairRecords.toAscending.depthSorted (s := [slash, ch 'b']) (k := 2) (by decide)
      (by decide) ⟨0, 0, []⟩
  exact ⟨w', c, hw', hc, hbounds (by decide)⟩

def Reply.res : Reply → ℤ
  | .attr res _ => res
  | .entries res _ => res
  | .link res _ => res

section Calls

variable {probes : ℕ → Probe} {g : Globals}

theorem safe_getEntryFromCatalog {l : ℤ} (h0 : 0 ≤ l) (hn : l < g.catalogLen) :
    Safe g probes (getEntryFromCatalog g l) fun _ => True := by
  intro w
  unfold getEntryFromCatalog
  cases hcontent : (probes w.probes).content with
  | none => exact .inl ⟨w.probes, le_rfl, hcontent, by simp [hcontent]⟩
  | some content =>
    right
    simp only [hcontent]
    split_ifs
    · exact ⟨_, _, [l], rfl, rfl, rfl, by simp [h0, hn], trivial⟩
    · exact ⟨_, _, [l], rfl, rfl, rfl, by simp [h0, hn], trivial⟩
    · exact ⟨_, _, [l], rfl, rfl, rfl, by simp [h0, hn], trivial⟩

theorem safe_getEntryFilepath {l : ℤ} (h0 : 0 ≤ l) (hn : l < g.catalogLen) :
    Safe g probes (getEntryFilepath g l) fun _ => True := by
  have hread : Safe g probes (getEntryDepthFilepath g l) fun _ => True :=
    safe_getEntryDepthFilepath (A := fun _ _ => True) (fun _ _ => trivial) h0 hn
  apply hread.bind
  rintro (_ | ⟨depth, path⟩) - <;> exact safe_pure trivial

theorem safe_getattrByLocation {l : ℤ} (h0 : 0 ≤ l) (hn : l < g.catalogLen) :
    Safe g probes (getattrByLocation g l) fun _ => True := by
  apply (safe_getEntryFromCatalog h0 hn).bind
  rintro (_ | st) - <;> exact safe_pure trivial

theorem safe_readdirLoop (hlen : g.catalogLen < 2 ^ 31) (filler : Filler) {high : ℤ}
    (hn : high < g.catalogLen) (n : ℕ) (location : ℤ) (buf : List Filled) (h0 : 0 ≤ location)
    (hfuel : high - location + 1 ≤ n) :
    Safe g probes (readdirLoop g filler high n location buf) fun _ => True := by
  induction n generalizing location buf with
  | zero =>
    rw [readdirLoop, if_neg (by omega)]
    exact safe_pure trivial
  | succ n ih =>
    rw [readdirLoop]
    split_ifs with hle
    · have hnext : toInt (location + 1) = location + 1 := toInt_of_lt (by omega) (by omega)
      have hrest : ∀ buf, Safe g probes (readdirLoop g filler high n (toInt (location + 1)) buf)
          fun _ => True := by
        intro buf
        rw [hnext]
        exact ih _ buf (by omega) (by omega)
      apply (safe_getattrByLocation h0 (by omega)).bind
      intro st _
      apply (safe_getEntryFilepath h0 (by omega)).bind
      intro pathname _
      cases st with
      | none => exact hrest buf
      | some st =>
        cases pathname with
        | none => exact hrest buf
        | some pathname =>
          dsimp only
          split_ifs
          · exact safe_pure trivial
          · exact hrest _
    · exact safe_pure trivial

theorem spends_contentsLoop (D : Bytes) (d : ℤ) (n : ℕ) (i : ℤ) (hi : i < g.catalogLen) :
    Spends probes (contentsLoop g D d n i) fun r c =>
      (c : ℤ) ≤ g.catalogLen - 1 - i ∧ ∀ j, r = some j → j ≤ g.catalogLen := by
  induction n generalizing i with
  | zero => exact spends_failure
  | succ n ih =>
    rw [contentsLoop]
    split_ifs with hend
    · apply spends_pure
      refine ⟨by push_cast; omega, ?_⟩
      rintro j ⟨⟩
      omega
    · apply spends_getEntryDepthFilepath_bind
      rintro (_ | ⟨depth, path⟩)
      · exact spends_pure ⟨by push_cast; omega, by rintro _ ⟨⟩⟩
      dsimp only
      split_ifs
      · apply spends_pure
        refine ⟨by push_cast; omega, ?_⟩
        rintro j ⟨⟩
        omega
      · refine (ih (i + 1) (by omega)).mono ?_
        rintro r c ⟨hc, hr⟩
        exact ⟨by push_cast; omega, hr⟩

theorem spends_getDirectoryContents (hlen : g.catalogLen < 2 ^ 31) (D : Bytes) :
    Spends probes (getDirectoryContents g D) fun r c =>
      c ≤ 2 * g.catalogLen.size + 2 * g.catalogLen ∧
        ∀ p, r = some p → 0 ≤ p.1 ∧ p.1 < g.catalogLen ∧ p.2 < g.catalogLen := by
  unfold getDirectoryContents
  split_ifs
  · exact spends_pure ⟨Nat.zero_le _, by rintro _ ⟨⟩⟩
  refine (spends_binSearch hlen D).bind ?_
  rintro low c ⟨hc, hlow⟩
  split_ifs
  · exact spends_pure ⟨by omega, by rintro _ ⟨⟩⟩
  dsimp only
  split_ifs
  · exact spends_pure ⟨by omega, by rintro _ ⟨⟩⟩
  refine (spends_contentsLoop D _ _ low hlow).bind ?_
  rintro (_ | j) c' ⟨hc', hj⟩
  · exact spends_pure ⟨by omega, by rintro _ ⟨⟩⟩
  · have hj := hj j rfl
    apply spends_pure
    refine ⟨by omega, ?_⟩
    rintro p ⟨⟩
    exact ⟨by omega, hlow, by dsimp only; omega⟩

/-- On any bytes each call ends, unless the catalog cannot be opened, with zero or `-ENOENT`. -/
theorem safe_perform (hlen : g.catalogLen < 2 ^ 31) (filler : Filler) (c : Call) :
    Safe g probes (perform filler g c) fun r => r.res = 0 ∨ r.res = -ENOENT := by
  cases c with
  | getattr path =>
    apply Safe.bind (P := fun r => r.1 = 0 ∨ r.1 = -ENOENT)
    · apply Safe.bind (P := fun _ => True)
      · apply (safe_binSearch (A := fun _ _ => True) (fun _ _ => trivial) hlen path).bind
        rintro r (rfl | ⟨h0, hn, -⟩)
        · exact safe_pure trivial
        · rw [if_neg (by omega)]
          exact safe_getattrByLocation h0 hn
      · rintro (_ | st) -
        · exact safe_pure (.inr rfl)
        · exact safe_pure (.inl rfl)
    · exact fun r hr => safe_pure hr
  | readdir path =>
    apply Safe.bind (P := fun r => r.1 = 0 ∨ r.1 = -ENOENT)
    · apply (safe_getDirectoryContents (A := fun _ _ => True) (fun _ _ => trivial) hlen
        (withSlash path)).bind
      rintro (_ | ⟨low, high⟩) hr
      · exact safe_pure (.inr rfl)
      · obtain ⟨h0, hle, hn, -⟩ := hr low high rfl
        dsimp only
        rw [if_neg (by omega), toInt_of_lt (by omega) (by omega)]
        apply (safe_readdirLoop hlen filler hn _ _ dots (by omega) (by omega)).bind
        exact fun buf _ => safe_pure (.inl rfl)
    · exact fun r hr => safe_pure hr
  | readlink path buf size =>
    apply Safe.bind (P := fun r => r.1 = 0 ∨ r.1 = -ENOENT)
    · apply (safe_binSearch (A := fun _ _ => True) (fun _ _ => trivial) hlen path).bind
      rintro r (rfl | ⟨h0, hn, -⟩)
      · exact safe_pure (.inr rfl)
      · rw [if_neg (by omega)]
        apply (safe_getEntryFromCatalog h0 hn).bind
        rintro (_ | st) -
        · exact safe_pure (.inr rfl)
        · exact safe_pure (.inl rfl)
    · exact fun r hr => safe_pure hr

end Calls

def fitsBuffers (catalogName : Bytes) (g : Globals) (probes : ℕ → Probe) (location : ℤ) (i : ℕ) :
    Bool :=
  (getEntryDepthFilepathBounded catalogName g location probes ⟨i, 0, []⟩).toBool

/-- A computation on buffers of the declared sizes: none of the records that it reads overflows one. -/
def withBuffers {α : Type} (catalogName : Bytes) (g : Globals) (x : M α) : M α := fun probes w =>
  (x probes w).bind fun r =>
    let reads := r.2.locations.drop w.locations.length
    if (reads.zipIdx w.probes).all fun p => fitsBuffers catalogName g probes p.1 p.2 then some r
    else none

/-- A call in the memory it has: the buffers, the array for a record, the block of the path, and the
buffer of the caller, where a link of size zero is copied whole. -/
def performIn (catalogName : Bytes) (stack : ℕ) (room : Bytes → ℕ) (filler : Filler) (g : Globals)
    (c : Call) : M Reply :=
  withBuffers catalogName g (withEntry stack g (match c with
    | .getattr path => perform filler g (.getattr path)
    | .readdir path => do
      let (res, filled) ← catalogReaddirIn room g filler path
      return .entries res filled
    | .readlink path buf size => do
      let (res, buf) ← catalogReadlink g path buf size
      if size = 0 ∧ res = 0 then failure
      return .link res buf))

/-- The caller has given the call the memory that it writes to. -/
def Call.InBounds (room : Bytes → ℕ) : Call → Prop
  | .getattr _ => True
  | .readdir path => HasRoom room path
  | .readlink _ buf size => 0 < size ∧ size ≤ buf.length

/-- No record at a location of the catalog overflows a buffer, whenever it is read. -/
def NoOverflow (catalogName : Bytes) (g : Globals) (probes : ℕ → Probe) : Prop :=
  ∀ l : ℤ, 0 ≤ l → l < g.catalogLen → ∀ i, fitsBuffers catalogName g probes l i

section Memory

variable {catalogName : Bytes} {stack : ℕ} {room : Bytes → ℕ} {filler : Filler} {g : Globals}
  {probes : ℕ → Probe}

theorem noOverflow_of_neverOverflows {file : ℕ → Bytes}
    (hcontent : ∀ i, (probes i).content = some (file i))
    (h : ∀ i, NeverOverflows catalogName g (file i)) : NoOverflow catalogName g probes := by
  intro l h0 hl i
  obtain ⟨k, rfl⟩ := Int.eq_ofNat_of_zero_le h0
  have hk := h i k (by omega) probes ⟨i, 0, []⟩ (hcontent i)
  unfold fitsBuffers
  cases hread : getEntryDepthFilepathBounded catalogName g k probes ⟨i, 0, []⟩ with
  | ok _ => rfl
  | error b => exact absurd hread (hk b)

theorem withBuffers_eq {α : Type} {x : M α} {P : α → Prop} (hbuffers : NoOverflow catalogName g probes)
    (hsafe : Safe g probes x P) (w : World) : withBuffers catalogName g x probes w = x probes w := by
  unfold withBuffers
  rcases hsafe w with ⟨-, -, -, hnone⟩ | ⟨a, w', reads, hx, -, hloc, hin, -⟩
  · rw [hnone, Option.bind_none]
  · rw [hx, Option.bind_some]
    apply if_pos
    simp only [hloc, List.drop_left]
    rw [List.all_eq_true]
    intro p hp
    obtain ⟨h0, hn⟩ := hin p.1 (List.fst_mem_of_mem_zipIdx hp)
    exact hbuffers p.1 h0 hn p.2

theorem performIn_eq (hlen : g.catalogLen < 2 ^ 31) (hentry : EntryFits stack g)
    (hbuffers : NoOverflow catalogName g probes) {c : Call} (hc : c.InBounds room) (w : World) :
    performIn catalogName stack room filler g c probes w = perform filler g c probes w := by
  rw [← withBuffers_eq hbuffers (safe_perform hlen filler c) w]
  unfold performIn
  rw [withEntry_of_fits hentry]
  cases c with
  | getattr path => rfl
  | readdir path =>
    have hroom : HasRoom room path := hc
    simp only [catalogReaddirIn, if_pos hroom, perform]
  | readlink path buf size =>
    have hsize : ∀ res : ℤ, ¬ (size = 0 ∧ res = 0) := fun res h => hc.1.ne' h.1
    simp only [if_neg (hsize _), perform]

end Memory

end CatalogFS
