import CatalogFS.Bisect
import CatalogFS.RecordFormat

namespace CatalogFS

open CLib

def depthAt (es : List Entry) (i : ℤ) : ℤ := es[i.toNat]?.elim 0 Entry.depth

def pathAt (es : List Entry) (i : ℤ) : Bytes := es[i.toNat]?.elim [] Entry.path

def groupLow (es : List Entry) (d : ℤ) : ℤ := es.countP fun e => e.depth < d

/-- The last index of a depth, one less than the first if there is none. -/
def groupHigh (es : List Entry) (d : ℤ) : ℤ := (es.countP fun e => e.depth ≤ d : ℕ) - 1

def searchDepth (es : List Entry) (d : ℤ) : Bisect.Outcome :=
  Bisect.search (Bisect.cmpAt (depthAt es) d) (Bisect.fuel 0 (es.length - 1)) 0 (es.length - 1)

def searchGroup (es : List Entry) (d : ℤ) (s : Bytes) : Bisect.Outcome :=
  Bisect.search (Bisect.cmpAt (pathAt es) s) (Bisect.fuel (groupLow es d) (groupHigh es d))
    (groupLow es d) (groupHigh es d)

/-- The location of a path, or `-1`. -/
def locate (es : List Entry) (s : Bytes) : ℤ :=
  if findDepth s ≤ 0 then -1 else (searchGroup es (findDepth s) s).hit.getD (-1)

/-- The first phase of `binSearch`: the bounds of the entries with the depth of the search path. When
the search by depth finds none, they are what it leaves. -/
def boundsForSameDepth (g : Globals) (searchPathDepth : ℤ) (w : Window) : M (Option Window) := do
  match ← findIndex g searchPathDepth w with
  | none => return none
  | some w =>
    if w.low > w.high then return some w
    else
      match ← findLowestIndex g searchPathDepth w with
      | none => return none
      | some w => findHighestIndex g searchPathDepth { w with depth := searchPathDepth }

/-- Every location of the catalog can be read, whenever that is, and these are the depth fields. The
offset of each location then does not wrap in an `int` to a negative one. -/
def HasDepths (probes : ℕ → Probe) (g : Globals) (depth : ℤ → ℤ) : Prop :=
  ∀ i : ℤ, 0 ≤ i → i < g.catalogLen → ∀ w, ∃ path w',
    getEntryDepthFilepath g i probes w = some (some (depth i, path), w')

/-- The order in which the search expects the entries: by depth, then by `strcmp` of the path. -/
def keyLt (a b : ℤ × Bytes) : Prop := a.1 < b.1 ∨ a.1 = b.1 ∧ strcmp a.2 b.2 = .lt

def keyLe (a b : ℤ × Bytes) : Prop := a.1 < b.1 ∨ a.1 = b.1 ∧ strcmp a.2 b.2 ≠ .gt

def Entry.key (e : Entry) : ℤ × Bytes := (e.depth, e.path)

instance (a b : ℤ × Bytes) : Decidable (keyLt a b) := by unfold keyLt; infer_instance

instance (a b : ℤ × Bytes) : Decidable (keyLe a b) := by unfold keyLe; infer_instance

def DepthSorted (es : List Entry) : Prop := es.Pairwise fun a b => a.depth ≤ b.depth

/-- A catalog whose depth fields are right and which ascends by depth and path. -/
structure AscendingCatalog (es : List Entry) : Prop where
  depth_eq : ∀ e ∈ es, e.depth = findDepth e.path
  ascending : (es.map Entry.key).Pairwise keyLe

theorem keyLe_of_keyLt {a b : ℤ × Bytes} (h : keyLt a b) : keyLe a b := by
  rcases h with h | ⟨h, hlt⟩
  · exact .inl h
  · exact .inr ⟨h, by simp [hlt]⟩

theorem depthSorted_of_keyLe {es : List Entry} (h : (es.map Entry.key).Pairwise keyLe) :
    DepthSorted es :=
  (List.pairwise_map.mp h).imp fun hab => hab.elim le_of_lt fun hab => hab.1.le

theorem AscendingCatalog.depthSorted {es : List Entry} (h : AscendingCatalog es) : DepthSorted es :=
  depthSorted_of_keyLe h.ascending

theorem strcmp_eq_cmpAt (f : ℤ → Bytes) (s : Bytes) (i : ℤ) :
    strcmp (f i) s = Bisect.cmpAt f s i := by
  rcases lt_trichotomy (f i) s with h | h | h
  · rw [strcmp_eq_lt.mpr h, (Bisect.cmpAt_lt f).mpr h]
  · rw [strcmp_eq_eq.mpr h, (Bisect.cmpAt_eq f).mpr h]
  · rw [strcmp_eq_gt.mpr h, (Bisect.cmpAt_gt f).mpr h]

section Group

variable {es : List Entry} {d i : ℤ}

theorem getElem?_toNat (h0 : 0 ≤ i) (hn : i < es.length) :
    ∃ e, es[i.toNat]? = some e ∧ depthAt es i = e.depth ∧ pathAt es i = e.path := by
  have hlt : i.toNat < es.length := by omega
  have he := List.getElem?_eq_getElem hlt
  exact ⟨es[i.toNat], he, by rw [depthAt, he]; rfl, by rw [pathAt, he]; rfl⟩

theorem depthAt_le (hsorted : DepthSorted es) {j : ℤ} (h0 : 0 ≤ i) (hij : i ≤ j)
    (hn : j < es.length) : depthAt es i ≤ depthAt es j := by
  obtain ⟨a, ha, hda, -⟩ := getElem?_toNat h0 (hij.trans_lt hn)
  obtain ⟨b, hb, hdb, -⟩ := getElem?_toNat (h0.trans hij) hn
  obtain ⟨hi, rfl⟩ := List.getElem?_eq_some_iff.mp ha
  obtain ⟨hj, rfl⟩ := List.getElem?_eq_some_iff.mp hb
  rw [hda, hdb]
  rcases hij.eq_or_lt with rfl | hij
  · exact le_rfl
  · exact List.pairwise_iff_getElem.mp hsorted _ _ hi hj (by omega)

theorem groupLow_nonneg : 0 ≤ groupLow es d := Int.natCast_nonneg _

theorem groupHigh_lt : groupHigh es d < es.length := by
  have : es.countP (fun e => e.depth ≤ d) ≤ es.length := List.countP_le_length
  unfold groupHigh
  omega

theorem mem_group_iff (hsorted : DepthSorted es) (h0 : 0 ≤ i) (hn : i < es.length) :
    groupLow es d ≤ i ∧ i ≤ groupHigh es d ↔ depthAt es i = d := by
  obtain ⟨e, he, hd, -⟩ := getElem?_toNat h0 hn
  have hlt : i.toNat < es.countP (fun e => e.depth < d) ↔ e.depth < d := by
    have h := Bisect.lt_countP_iff (p := fun e : Entry => decide (e.depth < d))
      (hsorted.imp fun {a b} hab hb => by simp at hb ⊢; omega) he
    simpa using h
  have hle : i.toNat < es.countP (fun e => e.depth ≤ d) ↔ e.depth ≤ d := by
    have h := Bisect.lt_countP_iff (p := fun e : Entry => decide (e.depth ≤ d))
      (hsorted.imp fun {a b} hab hb => by simp at hb ⊢; omega) he
    simpa using h
  rw [hd]
  unfold groupLow groupHigh
  omega

theorem groupHigh_lt_groupLow (hsorted : DepthSorted es)
    (h : ∀ i : ℤ, 0 ≤ i → i < es.length → depthAt es i ≠ d) : groupHigh es d < groupLow es d := by
  by_contra hle
  have hle := not_lt.mp hle
  have hn : groupLow es d < es.length := hle.trans_lt groupHigh_lt
  exact h (groupLow es d) groupLow_nonneg hn
    ((mem_group_iff hsorted groupLow_nonneg hn).mp ⟨le_rfl, hle⟩)

theorem ordered_depthAt (hsorted : DepthSorted es) (d : ℤ) :
    Bisect.Ordered (Bisect.cmpAt (depthAt es) d) 0 (es.length - 1) :=
  Bisect.ordered_cmpAt _ (fun i j hi hij hj => depthAt_le hsorted hi hij (by omega)) d

theorem groupHigh_lt_of_miss (hsorted : DepthSorted es) (hm : (searchDepth es d).hit = none) :
    groupHigh es d < groupLow es d := by
  apply groupHigh_lt_groupLow hsorted
  intro i h0 hn heq
  obtain ⟨m, hm'⟩ := Bisect.exists_hit (ordered_depthAt hsorted d) le_rfl (k := i) ⟨h0, by omega⟩
    ((Bisect.cmpAt_eq _).mpr heq)
  rw [searchDepth, hm'] at hm
  cases hm

theorem eq_group_of_mem_iff (hsorted : DepthSorted es) {low high : ℤ} (hle : low ≤ high)
    (h : ∀ i : ℤ, (0 ≤ i ∧ i < es.length ∧ depthAt es i = d) ↔ low ≤ i ∧ i ≤ high) :
    low = groupLow es d ∧ high = groupHigh es d := by
  have h0 : 0 ≤ groupLow es d := groupLow_nonneg
  have hn : groupHigh es d < es.length := groupHigh_lt
  have hgroup : ∀ i : ℤ, low ≤ i ∧ i ≤ high ↔ groupLow es d ≤ i ∧ i ≤ groupHigh es d := by
    intro i
    rw [← h]
    constructor
    · rintro ⟨hi, hin, hd⟩
      exact (mem_group_iff hsorted hi hin).mpr hd
    · intro hi
      exact ⟨by omega, by omega, (mem_group_iff hsorted (by omega) (by omega)).mp hi⟩
  have hlow := (hgroup low).mp ⟨le_rfl, hle⟩
  have hlow' := (hgroup (groupLow es d)).mpr ⟨le_rfl, by omega⟩
  have hhigh := (hgroup high).mp ⟨hle, le_rfl⟩
  have hhigh' := (hgroup (groupHigh es d)).mpr ⟨by omega, le_rfl⟩
  omega

theorem toInt_searchGroup (hcard : (es.length : ℤ) < 2 ^ 31) (s : Bytes) :
    toInt ((searchGroup es d s).hit.getD (-1)) = (searchGroup es d s).hit.getD (-1) := by
  have h0 : 0 ≤ groupLow es d := groupLow_nonneg
  have hn : groupHigh es d < es.length := groupHigh_lt
  cases hr : (searchGroup es d s).hit with
  | none => rfl
  | some k =>
    have := Bisect.le_of_hit hr
    rw [Option.getD_some, toInt_of_lt (by omega) (by omega)]

end Group

theorem searchPathLoop_of_lt {g : Globals} {s : Bytes} {n : ℕ} {low high : ℤ} (h : high < low) :
    searchPathLoop g s n low high = pure (-1) := by
  cases n <;> rw [searchPathLoop, if_neg (not_le.mpr h)]

theorem binSearch_eq_bounds (g : Globals) (s : Bytes) :
    binSearch g s =
      if findDepth s ≤ 0 then pure (-1)
      else do
        match ← boundsForSameDepth g (findDepth s) ⟨0, g.catalogLen - 1, 0, 1⟩ with
        | none => return -1
        | some w => return toInt (← searchPathLoop g s (w.high - w.low + 1).toNat w.low w.high) := by
  unfold binSearch boundsForSameDepth
  dsimp only
  by_cases hd : findDepth s ≤ 0
  · rw [if_pos hd, if_pos hd]
  rw [if_neg hd, if_neg hd, bind_assoc]
  apply bind_congr
  rintro (_ | w)
  · rw [pure_bind]
  dsimp only
  by_cases hempty : w.low > w.high
  · -- the search for the path begins with an empty window
    rw [if_pos hempty, if_pos hempty, pure_bind]
    dsimp only
    rw [searchPathLoop_of_lt hempty, pure_bind]
    rfl
  · rw [if_neg hempty, if_neg hempty, bind_assoc]
    apply bind_congr
    rintro (_ | w)
    · rw [pure_bind]
    · rfl

section Reads

variable {probes : ℕ → Probe} {g : Globals} {depth : ℤ → ℤ}

theorem HasDepths.bind {α : Type} {f : Option (ℤ × Bytes) → M α} {a : α} {i : ℤ}
    (hreads : HasDepths probes g depth) (h0 : 0 ≤ i) (hn : i < g.catalogLen)
    (hf : ∀ path, Returns probes (f (some (depth i, path))) a) :
    Returns probes (getEntryDepthFilepath g i >>= f) a := by
  apply returns_bind
  intro w
  obtain ⟨path, w', hw⟩ := hreads i h0 hn w
  exact ⟨_, w', hw, hf path⟩

theorem calculateMid_eq {low high : ℤ} (h : low ≤ high) :
    calculateMid low high = Bisect.mid low high := by
  rw [calculateMid, Bisect.mid, Int.tdiv_eq_ediv_of_nonneg (by omega)]

theorem returns_findIndexLoop (hreads : HasDepths probes g depth) (d : ℤ) (n : ℕ) (w : Window)
    (h0 : 0 ≤ w.low) (hn : w.high < g.catalogLen) (hfuel : w.high - w.low + 1 ≤ n) :
    ∃ w', Returns probes (findIndexLoop g d n w) (some w') ∧
      w'.low = (Bisect.search (Bisect.cmpAt depth d) n w.low w.high).low ∧
      w'.high = (Bisect.search (Bisect.cmpAt depth d) n w.low w.high).high ∧
      ∀ m, (Bisect.search (Bisect.cmpAt depth d) n w.low w.high).hit = some m →
        w'.mid = m ∧ w'.depth = d := by
  induction n generalizing w with
  | zero =>
    rw [findIndexLoop, if_neg (by omega)]
    exact ⟨w, returns_pure _, rfl, rfl, nofun⟩
  | succ n ih =>
    by_cases hle : w.low ≤ w.high
    · have h1 := Bisect.low_le_mid hle
      have h2 := Bisect.mid_le_high hle
      rw [findIndexLoop, if_pos hle, calculateMid_eq hle]
      generalize hm : Bisect.mid w.low w.high = m at *
      have hm0 : 0 ≤ m := h0.trans h1
      have hmn : m < g.catalogLen := h2.trans_lt hn
      rcases lt_trichotomy (depth m) d with hlt | heq | hgt
      · have hc : Bisect.cmpAt depth d (Bisect.mid w.low w.high) = .lt :=
          (Bisect.cmpAt_lt _).mpr (hm ▸ hlt)
        obtain ⟨w', hret, hw'⟩ :=
          ih { w with mid := m, depth := depth m, low := m + 1 } (by dsimp only; omega) hn
            (by dsimp only; omega)
        refine ⟨w', hreads.bind hm0 hmn fun path => ?_, ?_⟩
        · dsimp only
          rw [if_neg hlt.ne, if_pos hlt]
          exact hret
        · rw [Bisect.search_lt hle hc, hm]
          exact hw'
      · have hc : Bisect.cmpAt depth d (Bisect.mid w.low w.high) = .eq :=
          (Bisect.cmpAt_eq _).mpr (hm ▸ heq)
        refine ⟨{ w with mid := m, depth := depth m }, hreads.bind hm0 hmn fun path => ?_, ?_⟩
        · dsimp only
          rw [if_pos heq]
          exact returns_pure _
        · rw [Bisect.search_eq hle hc, hm]
          refine ⟨rfl, rfl, fun m' hm' => ?_⟩
          obtain rfl : m = m' := by simpa using hm'
          exact ⟨rfl, heq⟩
      · have hc : Bisect.cmpAt depth d (Bisect.mid w.low w.high) = .gt :=
          (Bisect.cmpAt_gt _).mpr (hm ▸ hgt)
        obtain ⟨w', hret, hw'⟩ :=
          ih { w with mid := m, depth := depth m, high := m - 1 } h0 (by dsimp only; omega)
            (by dsimp only; omega)
        refine ⟨w', hreads.bind hm0 hmn fun path => ?_, ?_⟩
        · dsimp only
          rw [if_neg hgt.ne', if_neg hgt.not_gt]
          exact hret
        · rw [Bisect.search_gt hle hc, hm]
          exact hw'
    · rw [findIndexLoop, if_neg hle, Bisect.search_of_lt (not_le.mp hle)]
      exact ⟨w, returns_pure _, rfl, rfl, nofun⟩

theorem returns_findIndex (hreads : HasDepths probes g depth) (d mid₀ depth₀ : ℤ) :
    ∃ w, Returns probes (findIndex g d ⟨0, g.catalogLen - 1, mid₀, depth₀⟩) (some w) ∧
      w.low = (Bisect.search (Bisect.cmpAt depth d) (Bisect.fuel 0 (g.catalogLen - 1)) 0
        (g.catalogLen - 1)).low ∧
      w.high = (Bisect.search (Bisect.cmpAt depth d) (Bisect.fuel 0 (g.catalogLen - 1)) 0
        (g.catalogLen - 1)).high ∧
      ∀ m, (Bisect.search (Bisect.cmpAt depth d) (Bisect.fuel 0 (g.catalogLen - 1)) 0
        (g.catalogLen - 1)).hit = some m → w.mid = m ∧ w.depth = d :=
  returns_findIndexLoop hreads d _ ⟨0, g.catalogLen - 1, mid₀, depth₀⟩ le_rfl (by dsimp only; omega)
    (by dsimp only; omega)

theorem returns_bounds_of_miss (hreads : HasDepths probes g depth) {d : ℤ} (mid₀ depth₀ : ℤ)
    (hm : (Bisect.search (Bisect.cmpAt depth d) (Bisect.fuel 0 (g.catalogLen - 1)) 0
      (g.catalogLen - 1)).hit = none) :
    ∃ w, Returns probes (findIndex g d ⟨0, g.catalogLen - 1, mid₀, depth₀⟩) (some w) ∧
      Returns probes (boundsForSameDepth g d ⟨0, g.catalogLen - 1, mid₀, depth₀⟩) (some w) ∧
      w.high < w.low := by
  obtain ⟨w, hfind, hlow, hhigh, -⟩ := returns_findIndex hreads d mid₀ depth₀
  have hempty := Bisect.empty_of_miss le_rfl hm
  rw [← hlow, ← hhigh] at hempty
  refine ⟨w, hfind, ?_, hempty⟩
  apply Returns.bind hfind
  dsimp only
  rw [if_pos hempty]
  exact returns_pure _

/-- The scan down passes entries of the depth only. It ends below the window or at another depth. -/
theorem returns_findLowestLoop (hreads : HasDepths probes g depth) (d : ℤ) {low : ℤ} (h0 : 0 ≤ low)
    (n : ℕ) (i : ℤ) (hi : low ≤ i) (hn : i < g.catalogLen) (hfuel : i - low + 1 ≤ n) :
    ∃ i' depth', Returns probes (findLowestLoop g d low n i (depth i)) (some (i', depth')) ∧
      low - 1 ≤ i' ∧ i' ≤ i ∧ (∀ j, i' < j → j ≤ i → depth j = d) ∧ (low ≤ i' → depth i' ≠ d) := by
  induction n generalizing i with
  | zero => omega
  | succ n ih =>
    rw [findLowestLoop]
    by_cases hd : depth i = d
    · rw [if_pos hd]
      by_cases hlast : i - 1 < low
      · rw [if_pos hlast]
        refine ⟨i - 1, depth i, returns_pure _, by omega, by omega, ?_, by omega⟩
        intro j hj hji
        obtain rfl : j = i := by omega
        exact hd
      · rw [if_neg hlast]
        obtain ⟨i', depth', hret, hlow, hle, hpassed, hend⟩ :=
          ih (i - 1) (by omega) (by omega) (by omega)
        refine ⟨i', depth', hreads.bind (by omega) (by omega) fun _ => hret, hlow, by omega, ?_, hend⟩
        intro j hj hji
        rcases hji.eq_or_lt with rfl | hlt
        · exact hd
        · exact hpassed j hj (by omega)
    · rw [if_neg hd]
      exact ⟨i, depth i, returns_pure _, by omega, le_rfl, by omega, fun _ => hd⟩

/-- The scan up passes entries of the depth only. It ends above the window or at another depth. -/
theorem returns_findHighestLoop (hreads : HasDepths probes g depth) (d : ℤ) {high : ℤ}
    (hn : high < g.catalogLen) (n : ℕ) (i : ℤ) (h0 : 0 ≤ i) (hi : i ≤ high)
    (hfuel : high - i + 1 ≤ n) :
    ∃ i' depth', Returns probes (findHighestLoop g d high n i (depth i)) (some (i', depth')) ∧
      i' ≤ high + 1 ∧ i ≤ i' ∧ (∀ j, i ≤ j → j < i' → depth j = d) ∧ (i' ≤ high → depth i' ≠ d) := by
  induction n generalizing i with
  | zero => omega
  | succ n ih =>
    rw [findHighestLoop]
    by_cases hd : depth i = d
    · rw [if_pos hd]
      by_cases hlast : i + 1 > high
      · rw [if_pos hlast]
        refine ⟨i + 1, depth i, returns_pure _, by omega, by omega, ?_, by omega⟩
        intro j hij hj
        obtain rfl : i = j := by omega
        exact hd
      · rw [if_neg hlast]
        obtain ⟨i', depth', hret, hhigh, hle, hpassed, hend⟩ :=
          ih (i + 1) (by omega) (by omega) (by omega)
        refine ⟨i', depth', hreads.bind (by omega) (by omega) fun _ => hret, hhigh, by omega, ?_, hend⟩
        intro j hij hj
        rcases hij.eq_or_lt with rfl | hlt
        · exact hd
        · exact hpassed j (by omega) hj
    · rw [if_neg hd]
      exact ⟨i, depth i, returns_pure _, by omega, le_rfl, by omega, fun _ => hd⟩

/-- `find_lowest_index` moves `low` up to the lowest index from which the depth is the same. -/
theorem returns_findLowestIndex (hreads : HasDepths probes g depth) {w : Window} (h0 : 0 ≤ w.low)
    (hlow : w.low ≤ w.mid) (hn : w.mid < g.catalogLen) (hd : depth w.mid = w.depth) :
    ∃ low dl, Returns probes (findLowestIndex g w.depth w) (some { w with low, depth := dl }) ∧
      w.low ≤ low ∧ low ≤ w.mid ∧ (∀ j, low ≤ j → j ≤ w.mid → depth j = w.depth) ∧
      (w.low < low → depth (low - 1) ≠ w.depth) := by
  obtain ⟨i, dl, hret, hge, hle, hpassed, hend⟩ := returns_findLowestLoop hreads w.depth h0
    (w.mid - w.low + 2).toNat w.mid hlow hn (by omega)
  have hne : i ≠ w.mid := by
    rintro rfl
    exact hend hlow hd
  rw [hd] at hret
  refine ⟨i + 1, dl, hret.bind (returns_pure _), by omega, by omega,
    fun j hj => hpassed j (by omega), ?_⟩
  intro hlt
  rw [Int.add_sub_cancel]
  exact hend (by omega)

/-- `find_highest_index` moves `high` down to the highest index up to which the depth is the same. -/
theorem returns_findHighestIndex (hreads : HasDepths probes g depth) {w : Window} (h0 : 0 ≤ w.mid)
    (hhigh : w.mid ≤ w.high) (hn : w.high < g.catalogLen) (hd : depth w.mid = w.depth) :
    ∃ high dh, Returns probes (findHighestIndex g w.depth w) (some { w with high, depth := dh }) ∧
      high ≤ w.high ∧ w.mid ≤ high ∧ (∀ j, w.mid ≤ j → j ≤ high → depth j = w.depth) ∧
      (high < w.high → depth (high + 1) ≠ w.depth) := by
  obtain ⟨i, dh, hret, hle, hge, hpassed, hend⟩ := returns_findHighestLoop hreads w.depth hn
    (w.high - w.mid + 2).toNat w.mid h0 hhigh (by omega)
  have hne : i ≠ w.mid := by
    rintro rfl
    exact hend hhigh hd
  rw [hd] at hret
  refine ⟨i - 1, dh, hret.bind (returns_pure _), by omega, by omega,
    fun j hmj hj => hpassed j hmj (by omega), ?_⟩
  intro hlt
  rw [Int.sub_add_cancel]
  exact hend (by omega)

section Sorted

variable (hmono : ∀ i j : ℤ, 0 ≤ i → i ≤ j → j < g.catalogLen → depth i ≤ depth j)

include hmono

theorem ordered_of_mono (d : ℤ) :
    Bisect.Ordered (Bisect.cmpAt depth d) 0 (g.catalogLen - 1) :=
  Bisect.ordered_cmpAt depth (fun i j hi hij hj => hmono i j hi hij (by omega)) d

/-- When the search by depth has hit, the two scans narrow its window to the entries of the depth:
no other entry is left in it, and none of them is outside. -/
theorem returns_narrowed (hreads : HasDepths probes g depth) {n : ℕ} {d m : ℤ} {w : Window}
    (hm : (Bisect.search (Bisect.cmpAt depth d) n 0 (g.catalogLen - 1)).hit = some m)
    (hlow : w.low = (Bisect.search (Bisect.cmpAt depth d) n 0 (g.catalogLen - 1)).low)
    (hhigh : w.high = (Bisect.search (Bisect.cmpAt depth d) n 0 (g.catalogLen - 1)).high)
    (hmid : w.mid = m) (hdepth : w.depth = d) :
    w.low ≤ w.high ∧ ∃ low high dl dh, low ≤ high ∧
      Returns probes (findLowestIndex g d w) (some { w with low, depth := dl }) ∧
      Returns probes (findHighestIndex g d { w with low, depth := d })
        (some { w with low, high, depth := dh }) ∧
      ∀ i : ℤ, (0 ≤ i ∧ i < g.catalogLen ∧ depth i = d) ↔ low ≤ i ∧ i ≤ high := by
  subst hmid hdepth
  obtain ⟨h0, hn, hit⟩ := Bisect.search_sound (Bisect.cmpAt depth w.depth) n 0 (g.catalogLen - 1)
  obtain ⟨hc, hml, hmh⟩ := hit _ hm
  -- the window of the search holds every entry of the depth
  have hwindow : ∀ i : ℤ, 0 ≤ i → i < g.catalogLen → depth i = w.depth → w.low ≤ i ∧ i ≤ w.high := by
    intro i hi hin hd
    rw [hlow, hhigh]
    exact Bisect.mem_window (ordered_of_mono hmono w.depth) ⟨hi, by omega⟩
      ((Bisect.cmpAt_eq _).mpr hd)
  have hd : depth w.mid = w.depth := (Bisect.cmpAt_eq _).mp hc
  rw [← hlow] at h0 hml
  rw [← hhigh] at hn hmh
  obtain ⟨low, dl, hlowest, hll, hlm, hbelow, hedge⟩ :=
    returns_findLowestIndex hreads h0 hml (by omega) hd
  obtain ⟨high, dh, hhighest, hhh, hmh', habove, hedge'⟩ :=
    returns_findHighestIndex hreads (w := { w with low, depth := w.depth }) (by dsimp only; omega)
      hmh (by dsimp only; omega) hd
  dsimp only at hhh hmh' habove hedge'
  refine ⟨by omega, low, high, dl, dh, by omega, hlowest, hhighest, ?_⟩
  intro i
  constructor
  · rintro ⟨hi, hin, hdi⟩
    obtain ⟨hli, hih⟩ := hwindow i hi hin hdi
    -- an entry behind a border would have the depths around it on both sides of `w.depth`
    constructor
    · by_contra hlt
      have hle := hmono i (low - 1) hi (by omega) (by omega)
      have hle' := hmono (low - 1) w.mid (by omega) (by omega) (by omega)
      have hne := hedge (by omega)
      omega
    · by_contra hlt
      have hle := hmono w.mid (high + 1) (by omega) (by omega) (by omega)
      have hle' := hmono (high + 1) i (by omega) (by omega) hin
      have hne := hedge' (by omega)
      omega
  · rintro ⟨hli, hih⟩
    refine ⟨by omega, by omega, ?_⟩
    rcases le_total i w.mid with him | him
    · exact hbelow i hli him
    · exact habove i him hih

theorem returns_bounds_of_hit (hreads : HasDepths probes g depth) {d m : ℤ} (mid₀ depth₀ : ℤ)
    (hm : (Bisect.search (Bisect.cmpAt depth d) (Bisect.fuel 0 (g.catalogLen - 1)) 0
      (g.catalogLen - 1)).hit = some m) :
    ∃ w, Returns probes (boundsForSameDepth g d ⟨0, g.catalogLen - 1, mid₀, depth₀⟩) (some w) ∧
      w.low ≤ w.high ∧
      ∀ i : ℤ, (0 ≤ i ∧ i < g.catalogLen ∧ depth i = d) ↔ w.low ≤ i ∧ i ≤ w.high := by
  obtain ⟨w, hfind, hlow, hhigh, hhit⟩ := returns_findIndex hreads d mid₀ depth₀
  obtain ⟨hmid, hdepth⟩ := hhit m hm
  obtain ⟨hle, low, high, dl, dh, hgroup, hlowest, hhighest, hiff⟩ :=
    returns_narrowed hmono hreads hm hlow hhigh hmid hdepth
  refine ⟨{ w with low, high, depth := dh }, ?_, hgroup, hiff⟩
  apply Returns.bind hfind
  dsimp only
  rw [if_neg (not_lt.mpr hle)]
  apply hlowest.bind
  exact hhighest

end Sorted

end Reads

section Phases

variable {probes : ℕ → Probe} {g : Globals} {file : Bytes} {es : List Entry}

/-- Every location of the catalog can be read, whenever that is, and these are the depths and the
paths. What else an entry tells may change meanwhile. -/
structure HasKeys (probes : ℕ → Probe) (g : Globals) (es : List Entry) : Prop where
  length_eq : es.length = g.catalogLen
  length_lt : g.catalogLen < 2 ^ 31
  reads : ∀ (k : ℕ) (e : Entry), es[k]? = some e →
    Returns probes (getEntryDepthFilepath g k) (some (e.depth, e.path))

theorem hasKeys_of_readable (hserves : Serves probes file) (hcat : Readable g file es) :
    HasKeys probes g es :=
  ⟨hcat.length_eq, hcat.length_lt, fun _ _ => returns_getEntryDepthFilepath hserves hcat⟩

theorem HasKeys.returns_entryAt (hkeys : HasKeys probes g es) {i : ℤ} (h0 : 0 ≤ i)
    (hn : i < es.length) :
    Returns probes (getEntryDepthFilepath g i) (some (depthAt es i, pathAt es i)) := by
  obtain ⟨e, he, hd, hp⟩ := getElem?_toNat h0 hn
  have h := hkeys.reads _ _ he
  rwa [Int.toNat_of_nonneg h0, ← hd, ← hp] at h

theorem HasKeys.hasDepths (hkeys : HasKeys probes g es) : HasDepths probes g (depthAt es) := by
  intro i h0 hn w
  obtain ⟨w', hw'⟩ := hkeys.returns_entryAt h0 (by rw [hkeys.length_eq]; exact hn) w
  exact ⟨_, w', hw'⟩

theorem hasDepths_of_readable (hserves : Serves probes file) (hcat : Readable g file es) :
    HasDepths probes g (depthAt es) :=
  (hasKeys_of_readable hserves hcat).hasDepths

theorem HasKeys.returns_searchPathLoop (hkeys : HasKeys probes g es) (s : Bytes) (n : ℕ)
    (low high : ℤ) (h0 : 0 ≤ low) (hn : high < es.length) (hfuel : high - low + 1 ≤ n) :
    Returns probes (searchPathLoop g s n low high)
      ((Bisect.search (Bisect.cmpAt (pathAt es) s) n low high).hit.getD (-1)) := by
  induction n generalizing low high with
  | zero =>
    rw [searchPathLoop, if_neg (by omega)]
    exact returns_pure _
  | succ n ih =>
    rw [searchPathLoop]
    by_cases hle : low ≤ high
    · have h1 := Bisect.low_le_mid hle
      have h2 := Bisect.mid_le_high hle
      have hread : Returns probes (getEntryFilepath g (Bisect.mid low high))
          (some (pathAt es (Bisect.mid low high))) :=
        (hkeys.returns_entryAt (h0.trans h1) (h2.trans_lt hn)).bind (returns_pure _)
      rw [if_pos hle, calculateMid_eq hle]
      apply hread.bind
      dsimp only
      rw [strcmp_eq_cmpAt (pathAt es)]
      cases hc : Bisect.cmpAt (pathAt es) s (Bisect.mid low high) with
      | eq =>
        rw [Bisect.search_eq hle hc]
        exact returns_pure _
      | lt =>
        rw [Bisect.search_lt hle hc]
        exact ih _ _ (by omega) hn (by omega)
      | gt =>
        rw [Bisect.search_gt hle hc]
        exact ih _ _ h0 (by omega) (by omega)
    · rw [if_neg hle, Bisect.search_of_lt (not_le.mp hle)]
      exact returns_pure _

theorem HasKeys.returns_binSearch (hkeys : HasKeys probes g es) (hsorted : DepthSorted es)
    (s : Bytes) : Returns probes (binSearch g s) (locate es s) := by
  have hlen : (g.catalogLen : ℤ) = es.length := by rw [hkeys.length_eq]
  have hcard : (es.length : ℤ) < 2 ^ 31 := by rw [← hlen]; exact_mod_cast hkeys.length_lt
  rw [binSearch_eq_bounds, locate]
  by_cases hd : findDepth s ≤ 0
  · rw [if_pos hd, if_pos hd]
    exact returns_pure _
  rw [if_neg hd, if_neg hd]
  generalize findDepth s = d
  have hreads := hkeys.hasDepths
  have hmono : ∀ i j : ℤ, 0 ≤ i → i ≤ j → j < g.catalogLen → depthAt es i ≤ depthAt es j :=
    fun i j hi hij hj => depthAt_le hsorted hi hij (by omega)
  cases hm : (searchDepth es d).hit with
  | none =>
    -- no entry has the depth: the window is empty, and so is the interval
    have hgroup := groupHigh_lt_of_miss hsorted hm
    rw [searchDepth, ← hlen] at hm
    obtain ⟨w, -, hbounds, hempty⟩ := returns_bounds_of_miss hreads 0 1 hm
    apply hbounds.bind
    dsimp only
    rw [searchPathLoop_of_lt hempty, pure_bind, searchGroup, Bisect.search_of_lt hgroup]
    exact returns_pure _
  | some m =>
    rw [searchDepth, ← hlen] at hm
    obtain ⟨w, hbounds, hle, hiff⟩ := returns_bounds_of_hit hmono hreads 0 1 hm
    rw [hlen] at hiff
    obtain ⟨hlow, hhigh⟩ := eq_group_of_mem_iff hsorted hle hiff
    apply hbounds.bind
    dsimp only
    rw [hlow, hhigh]
    apply (hkeys.returns_searchPathLoop s _ _ _ groupLow_nonneg groupHigh_lt (by omega)).bind
    change Returns probes (pure (toInt ((searchGroup es d s).hit.getD (-1)))) _
    rw [toInt_searchGroup hcard]
    exact returns_pure _

theorem returns_binSearch (hserves : Serves probes file) (hcat : Readable g file es)
    (hsorted : DepthSorted es) (s : Bytes) : Returns probes (binSearch g s) (locate es s) :=
  (hasKeys_of_readable hserves hcat).returns_binSearch hsorted s

end Phases

section Bounds

variable {probes : ℕ → Probe} {g : Globals} {depth : ℤ → ℤ}

/-- On a catalog whose depth fields never decrease, the first phase of `binSearch` bounds exactly the
entries of a depth, and when there are none the search by depth ends with an empty window. Nothing is
assumed about the paths, nor about what `mid` and `depth` held before; that the depths can be read
implies that no offset wraps to a negative one. -/
theorem boundsForSameDepth_correct (hreads : HasDepths probes g depth)
    (hmono : ∀ i j : ℤ, 0 ≤ i → i ≤ j → j < g.catalogLen → depth i ≤ depth j) (d mid₀ depth₀ : ℤ) :
    ((∃ i : ℤ, 0 ≤ i ∧ i < g.catalogLen ∧ depth i = d) →
      ∃ w, Returns probes (boundsForSameDepth g d ⟨0, g.catalogLen - 1, mid₀, depth₀⟩) (some w) ∧
        {i : ℤ | 0 ≤ i ∧ i < g.catalogLen ∧ depth i = d} = Set.Icc w.low w.high) ∧
    ((∀ i : ℤ, 0 ≤ i → i < g.catalogLen → depth i ≠ d) →
      ∃ w, Returns probes (findIndex g d ⟨0, g.catalogLen - 1, mid₀, depth₀⟩) (some w) ∧
        w.high < w.low) := by
  constructor
  · rintro ⟨k, hk, hkn, hd⟩
    obtain ⟨m, hm⟩ := Bisect.exists_hit (ordered_of_mono hmono d) le_rfl (k := k) ⟨hk, by omega⟩
      ((Bisect.cmpAt_eq _).mpr hd)
    obtain ⟨w, hbounds, -, hiff⟩ := returns_bounds_of_hit hmono hreads mid₀ depth₀ hm
    exact ⟨w, hbounds, Set.ext hiff⟩
  · intro hnone
    have hm : (Bisect.search (Bisect.cmpAt depth d) (Bisect.fuel 0 (g.catalogLen - 1)) 0
        (g.catalogLen - 1)).hit = none := by
      apply Option.eq_none_iff_forall_ne_some.mpr
      intro m hm
      obtain ⟨h0, hn⟩ := Bisect.le_of_hit hm
      exact hnone m h0 (by omega) ((Bisect.cmpAt_eq _).mp (Bisect.eq_of_hit hm))
    obtain ⟨w, hfind, -, hempty⟩ := returns_bounds_of_miss hreads mid₀ depth₀ hm
    exact ⟨w, hfind, hempty⟩

theorem boundsForSameDepth_correct_pair :
    ∃ w, Returns (steady (catalogFile pairRecords))
        (boundsForSameDepth (geometry (catalogFile pairRecords)) 1 ⟨0, 1, 0, 1⟩) (some w) ∧
      {i : ℤ | 0 ≤ i ∧ i < 2 ∧ depthAt (pairRecords.map Record.entry) i = 1} = Set.Icc w.low w.high :=
  (boundsForSameDepth_correct
    (hasDepths_of_readable (serves_steady _) isCatalog_pairRecords.readable)
    (fun i j hi hij hj => depthAt_le (AscendingCatalog.depthSorted ⟨by decide, by decide⟩) hi hij
      (by rw [isCatalog_pairRecords.length_eq]; exact hj)) 1 0 1).1
    ⟨0, le_rfl, by decide, rfl⟩

end Bounds

section Locate

variable {es : List Entry}

theorem locate_cases (hsorted : DepthSorted es) (s : Bytes) :
    locate es s = -1 ∨ ∃ (k : ℕ) (e : Entry), locate es s = k ∧ es[k]? = some e ∧ e.path = s ∧
      e.depth = findDepth s ∧ 0 < findDepth s := by
  unfold locate
  by_cases hd : findDepth s ≤ 0
  · exact .inl (if_pos hd)
  · rw [if_neg hd]
    cases hr : (searchGroup es (findDepth s) s).hit with
    | none => exact .inl rfl
    | some m =>
      obtain ⟨hlm, hmh⟩ := Bisect.le_of_hit hr
      have h0 : 0 ≤ m := groupLow_nonneg.trans hlm
      have hn : m < es.length := hmh.trans_lt groupHigh_lt
      obtain ⟨e, he, hde, hpe⟩ := getElem?_toNat h0 hn
      have hdepth := (mem_group_iff hsorted h0 hn).mp ⟨hlm, hmh⟩
      have hpath := (Bisect.cmpAt_eq _).mp (Bisect.eq_of_hit hr)
      exact .inr ⟨m.toNat, e, (Int.toNat_of_nonneg h0).symm, he, hpe ▸ hpath, hde ▸ hdepth, by omega⟩

theorem locate_eq_neg_one (hsorted : DepthSorted es) {s : Bytes}
    (h : ¬ (s.head? = some slash ∧ ∃ e ∈ es, e.path = s)) : locate es s = -1 := by
  rcases locate_cases hsorted s with hl | ⟨k, e, -, he, hpath, -, hpos⟩
  · exact hl
  · exact absurd ⟨head?_of_findDepth_pos hpos, e, List.mem_of_getElem? he, hpath⟩ h

def AscendsAt (es : List Entry) (d : ℤ) : Prop :=
  es.Pairwise fun a b => a.depth = d → b.depth = d → a.path ≤ b.path

theorem AscendingCatalog.ascendsAt (h : AscendingCatalog es) (d : ℤ) : AscendsAt es d := by
  refine (List.pairwise_map.mp h.ascending).imp fun {a b} hab hda hdb => ?_
  rcases hab with hlt | ⟨-, hle⟩
  · simp only [Entry.key] at hlt
    omega
  · exact not_lt.mp (mt strcmp_eq_gt.mpr hle)

theorem pathAt_le (hsorted : DepthSorted es) {d i j : ℤ} (hasc : AscendsAt es d)
    (hi : groupLow es d ≤ i) (hij : i ≤ j) (hj : j ≤ groupHigh es d) :
    pathAt es i ≤ pathAt es j := by
  have h0 : 0 ≤ groupLow es d := groupLow_nonneg
  have hn : groupHigh es d < es.length := groupHigh_lt
  rcases hij.eq_or_lt with rfl | hij
  · exact le_rfl
  obtain ⟨a, ha, hda, hpa⟩ := getElem?_toNat (show 0 ≤ i by omega) (show i < es.length by omega)
  obtain ⟨b, hb, hdb, hpb⟩ := getElem?_toNat (show 0 ≤ j by omega) (show j < es.length by omega)
  have hdi : depthAt es i = d := (mem_group_iff hsorted (by omega) (by omega)).mp ⟨hi, by omega⟩
  have hdj : depthAt es j = d := (mem_group_iff hsorted (by omega) (by omega)).mp ⟨by omega, hj⟩
  obtain ⟨hia, rfl⟩ := List.getElem?_eq_some_iff.mp ha
  obtain ⟨hjb, rfl⟩ := List.getElem?_eq_some_iff.mp hb
  rw [hpa, hpb]
  exact List.pairwise_iff_getElem.mp hasc _ _ hia hjb (by omega) (hda.symm.trans hdi)
    (hdb.symm.trans hdj)

/-- Where the paths of its depth ascend, every path is found. -/
theorem exists_locate_of_ascendsAt (hsorted : DepthSorted es) {e : Entry} (he : e ∈ es)
    (hd : e.depth = findDepth e.path) (hasc : AscendsAt es e.depth) (hpos : 0 < findDepth e.path) :
    ∃ (k : ℕ) (e' : Entry), locate es e.path = k ∧ es[k]? = some e' ∧ e'.path = e.path := by
  obtain ⟨i, hi⟩ := List.mem_iff_getElem?.mp he
  have hlen := (List.getElem?_eq_some_iff.mp hi).1
  have hdi : depthAt es i = findDepth e.path := by simp [depthAt, hi, hd]
  have hpi : pathAt es i = e.path := by simp [pathAt, hi]
  have hgroup := (mem_group_iff hsorted (Int.natCast_nonneg i) (by omega)).mpr hdi
  have hordered := Bisect.ordered_cmpAt (pathAt es)
    (fun a b => pathAt_le hsorted (hd ▸ hasc)) e.path
  obtain ⟨m, hm⟩ := Bisect.exists_hit hordered le_rfl hgroup ((Bisect.cmpAt_eq _).mpr hpi)
  rcases locate_cases hsorted e.path with hl | ⟨k, e', hl, he', hpath, -, -⟩
  · rw [locate, if_neg (by omega), searchGroup, hm, Option.getD_some] at hl
    have h0 : 0 ≤ groupLow es (findDepth e.path) := groupLow_nonneg
    have := Bisect.le_of_hit hm
    omega
  · exact ⟨k, e', hl, he', hpath⟩

theorem exists_locate (hasc : AscendingCatalog es) {e : Entry} (he : e ∈ es)
    (hpos : 0 < findDepth e.path) :
    ∃ (k : ℕ) (e' : Entry), locate es e.path = k ∧ es[k]? = some e' ∧ e'.path = e.path :=
  exists_locate_of_ascendsAt hasc.depthSorted he (hasc.depth_eq e he) (hasc.ascendsAt _) hpos

end Locate

/-- `binSearch` is correct on every ascending catalog: it finds every path that begins with a slash
and belongs to a record, and gives `-1` for every other string. Strings are not bounded here: by
`agree_getEntryDepthFilepathBounded` a read that overflows no buffer is the same. -/
theorem binSearch_correct {probes : ℕ → Probe} {g : Globals} {file : Bytes} {es : List Entry}
    (hserves : Serves probes file) (hcat : IsCatalog g file es) (hasc : AscendingCatalog es)
    (s : Bytes) :
    (s.head? = some slash ∧ (∃ e ∈ es, e.path = s) →
      ∃ (k : ℕ) (e : Entry), Returns probes (binSearch g s) k ∧ es[k]? = some e ∧ e.path = s) ∧
    (¬ (s.head? = some slash ∧ ∃ e ∈ es, e.path = s) → Returns probes (binSearch g s) (-1)) := by
  have hret := returns_binSearch hserves hcat.readable hasc.depthSorted s
  constructor
  · rintro ⟨hhead, e, he, rfl⟩
    obtain ⟨k, e', hl, he', hpath⟩ := exists_locate hasc he (findDepth_pos hhead)
    exact ⟨k, e', hl ▸ hret, he', hpath⟩
  · intro h
    rwa [locate_eq_neg_one hasc.depthSorted h] at hret

theorem binSearch_correct_pair :
    ∃ (k : ℕ) (e : Entry),
      Returns (steady (catalogFile pairRecords))
        (binSearch (geometry (catalogFile pairRecords)) [slash, ch 'b']) k ∧
      (pairRecords.map Record.entry)[k]? = some e ∧ e.path = [slash, ch 'b'] :=
  (binSearch_correct (serves_steady _) isCatalog_pairRecords
    ⟨by decide, by decide⟩ [slash, ch 'b']).1 (by decide)

end CatalogFS
