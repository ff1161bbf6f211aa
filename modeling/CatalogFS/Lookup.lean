import CatalogFS.Room
import CatalogFS.Search

namespace CatalogFS

open CLib

theorem zero_ne_neg_ENOENT : (0 : ℤ) ≠ -ENOENT := by decide

section Returns

variable {probes : ℕ → Probe} {g : Globals} {file : Bytes} {es : List Entry}

theorem returns_getattrByPath (hserves : Serves probes file) (hcat : Readable g file es)
    (hsorted : DepthSorted es) {s : Bytes} {k : ℕ} {e : Entry} (hl : locate es s = k)
    (he : es[k]? = some e) : Returns probes (getattrByPath g s) (some e.st) := by
  have hfind := returns_binSearch hserves hcat hsorted s
  rw [hl] at hfind
  apply hfind.bind
  rw [if_neg (by omega)]
  exact returns_getattrByLocation hserves hcat he

theorem returns_catalogGetattr (hserves : Serves probes file) (hcat : Readable g file es)
    (hsorted : DepthSorted es) {s : Bytes} {k : ℕ} {e : Entry} (hl : locate es s = k)
    (he : es[k]? = some e) : Returns probes (catalogGetattr g s) (0, e.st) :=
  (returns_getattrByPath hserves hcat hsorted hl he).bind (returns_pure _)

theorem returns_catalogGetattr_of_neg (hserves : Serves probes file) (hcat : Readable g file es)
    (hsorted : DepthSorted es) {s : Bytes} (hl : locate es s = -1) :
    Returns probes (catalogGetattr g s) (-ENOENT, Stat.zero) := by
  have hfind := returns_binSearch hserves hcat hsorted s
  rw [hl] at hfind
  have hnone : Returns probes (getattrByPath g s) none := by
    apply hfind.bind
    rw [if_pos (by omega)]
    exact returns_pure _
  exact hnone.bind (returns_pure _)

theorem returns_catalogReadlink (hserves : Serves probes file) (hcat : Readable g file es)
    (hsorted : DepthSorted es) {s : Bytes} {k : ℕ} {e : Entry} {t : Bytes} (hl : locate es s = k)
    (he : es[k]? = some e) (ht : e.target = some t) (buf : Bytes) (size : ℕ) :
    Returns probes (catalogReadlink g s buf size) (0, strncpy buf t (size - 1)) := by
  have hfind := returns_binSearch hserves hcat hsorted s
  rw [hl] at hfind
  apply hfind.bind
  rw [if_neg (by omega)]
  refine returns_bind fun w => ⟨_, _, getEntryFromCatalog_eq hserves hcat he w, ?_⟩
  dsimp only [Entry.statWdf]
  rw [ht, Option.getD_some]
  exact returns_pure _

theorem returns_catalogReadlink_of_neg (hserves : Serves probes file) (hcat : Readable g file es)
    (hsorted : DepthSorted es) {s : Bytes} (hl : locate es s = -1) (buf : Bytes) (size : ℕ) :
    Returns probes (catalogReadlink g s buf size) (-ENOENT, buf) := by
  have hfind := returns_binSearch hserves hcat hsorted s
  rw [hl] at hfind
  apply hfind.bind
  rw [if_pos (by omega)]
  exact returns_pure _

/-- What the scan behind a directory's own entry goes on for. -/
def inDirectory (D : Bytes) (e : Entry) : Bool := e.depth = findDepth D ∧ D <+: e.path

def listed (es : List Entry) (D : Bytes) : List Entry :=
  (es.drop ((locate es D).toNat + 1)).takeWhile (inDirectory D)

/-- The scan stops at the first entry that is not one of the directory. -/
theorem HasKeys.returns_contentsLoop (hkeys : HasKeys probes g es) (D : Bytes) (n k : ℕ)
    (hk : k ≤ es.length) (hn : es.length < k + n) :
    Returns probes (contentsLoop g D (findDepth D) n ((k : ℤ) - 1))
      (some ((k + ((es.drop k).takeWhile (inDirectory D)).length : ℕ) : ℤ)) := by
  have hlen : (g.catalogLen : ℤ) = es.length := by rw [hkeys.length_eq]
  induction n generalizing k with
  | zero => omega
  | succ n ih =>
    rw [contentsLoop, Int.sub_add_cancel, hlen]
    rcases hk.eq_or_lt with rfl | hlt
    · rw [if_pos le_rfl, List.drop_length]
      exact returns_pure _
    · have he := List.getElem?_eq_getElem hlt
      rw [if_neg (by omega), List.drop_eq_getElem_cons hlt, List.takeWhile_cons]
      apply (hkeys.reads k _ he).bind
      dsimp only
      by_cases hin : inDirectory D es[k] = true
      · have hstop : ¬ (es[k].depth ≠ findDepth D ∨ strncmp D es[k].path D.length ≠ .eq) := by
          simp only [inDirectory, decide_eq_true_eq] at hin
          simp only [ne_eq, strncmp_length_eq]
          tauto
        rw [if_neg hstop, if_pos hin, List.length_cons]
        have ih := ih (k + 1) hlt (by omega)
        rw [Nat.cast_succ, Int.add_sub_cancel, Nat.add_right_comm] at ih
        exact ih
      · have hstop : es[k].depth ≠ findDepth D ∨ strncmp D es[k].path D.length ≠ .eq := by
          simp only [inDirectory, decide_eq_true_eq] at hin
          simp only [ne_eq, strncmp_length_eq]
          tauto
        rw [if_pos hstop, if_neg hin]
        exact returns_pure _

/-- The path under which a directory's own entry is catalogued. -/
def withSlash (P : Bytes) : Bytes := if strcmp P [slash] ≠ .eq then P ++ [slash] else P

theorem getLast?_withSlash (P : Bytes) : (withSlash P).getLast? = some slash := by
  unfold withSlash
  split_ifs with h
  · simp
  · simp only [ne_eq, not_not, strcmp_eq_eq] at h
    simp [h]

theorem HasKeys.returns_getDirectoryContents (hkeys : HasKeys probes g es) (hsorted : DepthSorted es)
    {D : Bytes} (hD : D.getLast? = some slash) {k : ℕ} (hl : locate es D = k) (hk : k < es.length) :
    Returns probes (getDirectoryContents g D) (some ((k : ℤ), k + ((listed es D).length : ℤ))) := by
  have hlen : (g.catalogLen : ℤ) = es.length := by rw [hkeys.length_eq]
  have hfind := hkeys.returns_binSearch hsorted D
  rw [hl] at hfind
  have hpos : 0 < findDepth D := by
    rcases locate_cases hsorted D with h | ⟨_, _, -, -, -, -, h⟩
    · omega
    · exact h
  rw [getDirectoryContents, if_neg (by simp [hD])]
  apply hfind.bind
  rw [if_neg (by omega)]
  dsimp only
  rw [if_neg (by omega)]
  have hloop := hkeys.returns_contentsLoop D (g.catalogLen - k + 1 : ℤ).toNat (k + 1) hk
    (by omega)
  rw [Nat.cast_succ, Int.add_sub_cancel] at hloop
  apply hloop.bind
  have hend : ((k + 1 + ((es.drop (k + 1)).takeWhile (inDirectory D)).length : ℕ) : ℤ) - 1 =
      k + ((listed es D).length : ℤ) := by
    rw [listed, hl, Int.toNat_natCast]
    omega
  dsimp only
  rw [hend]
  exact returns_pure _

/-- The filler as it is for a `readdir` that passes only zero offsets: it always has room. -/
def roomy : Filler := fun _ _ => 0

/-- What the filler has been handed when all entries have been passed to it, or up to the first one
that it has no room for. -/
def fill (filler : Filler) : List Filled → List Filled → List Filled
  | buf, [] => buf
  | buf, entry :: entries =>
    if filler buf entry ≠ 0 then buf ++ [entry] else fill filler (buf ++ [entry]) entries

theorem fill_roomy (buf entries : List Filled) : fill roomy buf entries = buf ++ entries := by
  induction entries generalizing buf with
  | nil => simp [fill]
  | cons entry entries ih => rw [fill, if_neg (by simp [roomy]), ih, List.append_assoc]; rfl

def Entry.filled (e : Entry) : Filled := ⟨basename e.path, some e.st⟩

/-- The loop of `readdir` hands the filler the names and attributes of the entries in the range. -/
theorem returns_readdirLoop (hserves : Serves probes file) (hcat : Readable g file es)
    (filler : Filler) (m n k : ℕ) (buf : List Filled) (hn : m ≤ n) (hk : k + m ≤ es.length) :
    Returns probes (readdirLoop g filler ((k + m : ℕ) - 1 : ℤ) n k buf)
      (fill filler buf (((es.drop k).take m).map Entry.filled)) := by
  have hlen := hcat.length_eq ▸ hcat.length_lt
  induction m generalizing n k buf with
  | zero =>
    rw [List.take_zero, List.map_nil, fill]
    cases n with
    | zero =>
      rw [readdirLoop, if_neg (by omega)]
      exact returns_pure buf
    | succ n =>
      rw [readdirLoop, if_neg (by omega)]
      exact returns_pure buf
  | succ m ih =>
    obtain ⟨n, rfl⟩ := Nat.exists_eq_add_of_le' (Nat.one_le_iff_ne_zero.mpr (by omega : n ≠ 0))
    have hlt : k < es.length := by omega
    have he := List.getElem?_eq_getElem hlt
    have hnext : toInt ((k : ℤ) + 1) = (k + 1 : ℕ) := by
      rw [toInt_of_lt (by omega) (by omega)]
      rfl
    have ih := ih n (k + 1) (buf ++ [es[k].filled]) (by omega) (by omega)
    rw [readdirLoop, if_pos (by omega), List.drop_eq_getElem_cons hlt, List.take_succ_cons,
      List.map_cons, fill]
    apply (returns_getattrByLocation hserves hcat he).bind
    apply (returns_getEntryFilepath hserves hcat he).bind
    dsimp only
    rw [← Entry.filled, hnext]
    split_ifs
    · -- the filler has no room
      exact returns_pure _
    · rw [Nat.add_right_comm] at ih
      exact ih

theorem take_takeWhile_length {α : Type} (p : α → Bool) (l : List α) :
    l.take (l.takeWhile p).length = l.takeWhile p :=
  (List.prefix_iff_eq_take.mp (List.takeWhile_prefix p)).symm

theorem returns_catalogReaddir_fill (hserves : Serves probes file) (hcat : Readable g file es)
    (hsorted : DepthSorted es) (filler : Filler) {P : Bytes} {k : ℕ}
    (hl : locate es (withSlash P) = k) (hk : k < es.length) :
    Returns probes (catalogReaddir g filler P)
      (0, fill filler dots ((listed es (withSlash P)).map Entry.filled)) := by
  have hlen := hcat.length_eq ▸ hcat.length_lt
  have hcount : (listed es (withSlash P)).length ≤ es.length - (k + 1) := by
    rw [listed, hl, Int.toNat_natCast, ← List.length_drop]
    exact (List.takeWhile_sublist _).length_le
  have hfirst : toInt ((k : ℤ) + 1) = (k + 1 : ℕ) := by
    rw [toInt_of_lt (by omega) (by omega)]
    rfl
  rw [catalogReaddir]
  apply ((hasKeys_of_readable hserves hcat).returns_getDirectoryContents hsorted
    (getLast?_withSlash P) hl hk).bind
  dsimp only
  rw [if_neg (by omega), hfirst]
  have hhigh : (k : ℤ) + ((listed es (withSlash P)).length : ℤ) =
      (k + 1 + (listed es (withSlash P)).length : ℕ) - 1 := by
    push_cast
    omega
  rw [hhigh]
  have hloop := returns_readdirLoop hserves hcat filler (listed es (withSlash P)).length
    (((k + 1 + (listed es (withSlash P)).length : ℕ) - 1 : ℤ) - ((k + 1 : ℕ) : ℤ) + 1).toNat (k + 1)
    dots (by omega) (by omega)
  apply hloop.bind
  have htake : (es.drop (k + 1)).take (listed es (withSlash P)).length =
      listed es (withSlash P) := by
    rw [listed, hl, Int.toNat_natCast]
    exact take_takeWhile_length _ _
  rw [htake]
  exact returns_pure _

theorem returns_catalogReaddir (hserves : Serves probes file) (hcat : Readable g file es)
    (hsorted : DepthSorted es) {P : Bytes} {k : ℕ} (hl : locate es (withSlash P) = k)
    (hk : k < es.length) :
    Returns probes (catalogReaddir g roomy P)
      (0, dots ++ (listed es (withSlash P)).map fun e => ⟨basename e.path, some e.st⟩) := by
  have hret := returns_catalogReaddir_fill hserves hcat hsorted roomy hl hk
  rw [fill_roomy] at hret
  exact hret

theorem returns_catalogReaddir_of_neg (hserves : Serves probes file) (hcat : Readable g file es)
    (hsorted : DepthSorted es) (filler : Filler) {P : Bytes} (hl : locate es (withSlash P) = -1) :
    Returns probes (catalogReaddir g filler P) (-ENOENT, dots) := by
  have hfind := returns_binSearch hserves hcat hsorted (withSlash P)
  rw [hl] at hfind
  have hnone : Returns probes (getDirectoryContents g (withSlash P)) none := by
    rw [getDirectoryContents, if_neg (by simp [getLast?_withSlash])]
    apply hfind.bind
    rw [if_pos (by omega)]
    exact returns_pure _
  rw [catalogReaddir]
  exact hnone.bind (returns_pure _)

end Returns

section Ordered

variable {es : List Entry}

/-- A catalog whose depth fields are right and which is strictly ascending by depth and path. -/
structure StrictCatalog (es : List Entry) : Prop where
  depth_eq : ∀ e ∈ es, e.depth = findDepth e.path
  ascending : (es.map Entry.key).Pairwise keyLt

theorem StrictCatalog.toAscending (h : StrictCatalog es) : AscendingCatalog es :=
  ⟨h.depth_eq, h.ascending.imp keyLe_of_keyLt⟩

theorem keyLt_irrefl (a : ℤ × Bytes) : ¬ keyLt a a := by
  rintro (h | ⟨-, h⟩)
  · exact lt_irrefl _ h
  · exact lt_irrefl _ (strcmp_eq_lt.mp h)

theorem keyLt_asymm {a b : ℤ × Bytes} (hab : keyLt a b) : ¬ keyLt b a := by
  simp only [keyLt, strcmp_eq_lt] at *
  rintro (h | ⟨h, hlt⟩)
  · omega
  · rcases hab with hab | ⟨-, hab⟩
    · omega
    · exact lt_asymm hab hlt

theorem lt_of_keyLt (h : StrictCatalog es) {i j : ℕ} {a b : Entry} (ha : es[i]? = some a)
    (hb : es[j]? = some b) (hab : keyLt a.key b.key) : i < j := by
  obtain ⟨hi, rfl⟩ := List.getElem?_eq_some_iff.mp ha
  obtain ⟨hj, rfl⟩ := List.getElem?_eq_some_iff.mp hb
  rcases lt_trichotomy i j with hij | rfl | hij
  · exact hij
  · exact absurd hab (keyLt_irrefl _)
  · exact absurd (List.pairwise_iff_getElem.mp (List.pairwise_map.mp h.ascending) _ _ hj hi hij)
      (keyLt_asymm hab)

/-- Every path is found at the only entry that has it. -/
theorem locate_of_mem (h : StrictCatalog es) {k : ℕ} {e : Entry} (he : es[k]? = some e)
    (hpos : 0 < findDepth e.path) : locate es e.path = k := by
  have hmem := List.mem_of_getElem? he
  obtain ⟨k', e', hl, he', hpath⟩ := exists_locate h.toAscending hmem hpos
  have hdepth : e'.depth = e.depth := by
    rw [h.depth_eq e hmem, h.depth_eq e' (List.mem_of_getElem? he'), hpath]
  obtain ⟨hi, hei⟩ := List.getElem?_eq_some_iff.mp he
  obtain ⟨hj, hej⟩ := List.getElem?_eq_some_iff.mp he'
  have hkey : ∀ {i j : ℕ} (hi : i < es.length) (hj : j < es.length),
      es[i].key = es[j].key → ¬ i < j := by
    intro i j hi hj heq hij
    have := List.pairwise_iff_getElem.mp (List.pairwise_map.mp h.ascending) _ _ hi hj hij
    rw [heq] at this
    exact keyLt_irrefl _ this
  have heq : es[k'].key = es[k].key := by simp only [hei, hej, Entry.key, hdepth, hpath]
  have h1 := hkey hj hi heq
  have h2 := hkey hi hj heq.symm
  rw [hl, show k' = k by omega]

theorem basename_append {D n : Bytes} (hD : D.getLast? = some slash) (hn : slash ∉ n) :
    basename (D ++ n) = n := by
  obtain ⟨D, rfl⟩ := List.getLast?_eq_some_iff.mp hD
  have hall : ∀ b ∈ n.reverse, decide (b ≠ slash) = true := by
    intro b hb
    simpa using fun e : b = slash => hn (e ▸ List.mem_reverse.mp hb)
  rw [basename, List.append_assoc, List.reverse_append, List.reverse_append, List.append_assoc,
    List.takeWhile_append_of_pos hall]
  simp

theorem hit_of_locate {e : Entry} (hdepth : e.depth = findDepth e.path)
    (hpos : 0 < findDepth e.path) {k : ℤ} (h0 : 0 ≤ k) (hl : locate es e.path = k) :
    (searchGroup es e.depth e.path).hit = some k := by
  rw [locate, if_neg (by omega), ← hdepth] at hl
  cases hs : (searchGroup es e.depth e.path).hit with
  | none =>
    rw [hs, Option.getD_none] at hl
    omega
  | some m =>
    rw [hs, Option.getD_some] at hl
    rw [hl]

/-- Two entries of one depth that are found at their own locations have ascending paths. -/
theorem lt_of_located {i j : ℕ} {a b : Entry} (ha : es[i]? = some a) (hb : es[j]? = some b)
    (hda : a.depth = findDepth a.path) (hdb : b.depth = findDepth b.path) (hd : a.depth = b.depth)
    (hpos : 0 < findDepth a.path) (hla : locate es a.path = i) (hlb : locate es b.path = j)
    (hij : i < j) : a.path < b.path := by
  have hpa : pathAt es i = a.path := by simp [pathAt, ha]
  have hpb : pathAt es j = b.path := by simp [pathAt, hb]
  have hhita := hit_of_locate hda hpos (Int.natCast_nonneg i) hla
  have hhitb := hit_of_locate hdb (by omega) (Int.natCast_nonneg j) hlb
  rw [← hpa] at hhita
  rw [← hd, ← hpb] at hhitb
  rw [← hpa, ← hpb]
  exact Bisect.lt_of_hits (pathAt es) hhita hhitb (by omega)

/-- A catalog in which every path is found at its own entry is strictly ascending: the binary
search among the entries of one depth can find each of them only if their paths ascend. -/
theorem strictCatalog_iff_locate (hsorted : DepthSorted es)
    (hdepth : ∀ e ∈ es, e.depth = findDepth e.path) (hpos : ∀ e ∈ es, 0 < findDepth e.path) :
    (∀ (k : ℕ) (e : Entry), es[k]? = some e → locate es e.path = k) ↔
      (es.map Entry.key).Pairwise keyLt := by
  constructor
  · intro h
    apply List.pairwise_map.mpr
    apply List.pairwise_iff_getElem.mpr
    intro i j hi hj hij
    rcases (List.pairwise_iff_getElem.mp hsorted i j hi hj hij).lt_or_eq with hlt | heq
    · exact .inl hlt
    have ha := List.getElem?_eq_getElem hi
    have hb := List.getElem?_eq_getElem hj
    have hlt := lt_of_located ha hb (hdepth _ (List.getElem_mem hi)) (hdepth _ (List.getElem_mem hj))
      heq (hpos _ (List.getElem_mem hi)) (h i _ ha) (h j _ hb) hij
    exact .inr ⟨heq, strcmp_eq_lt.mpr hlt⟩
  · intro hasc k e he
    exact locate_of_mem ⟨hdepth, hasc⟩ he (hpos e (List.mem_of_getElem? he))

theorem mem_takeWhile_drop {α : Type} {p : α → Bool} {l : List α} {k i : ℕ} {a : α} (hki : k ≤ i)
    (hi : l[i]? = some a) (h : ∀ j b, k ≤ j → j ≤ i → l[j]? = some b → p b = true) :
    a ∈ (l.drop k).takeWhile p := by
  induction hn : i - k generalizing k with
  | zero =>
    obtain rfl : k = i := by omega
    obtain ⟨hlt, rfl⟩ := List.getElem?_eq_some_iff.mp hi
    rw [List.drop_eq_getElem_cons hlt, List.takeWhile_cons, if_pos (h k _ le_rfl le_rfl hi)]
    exact List.mem_cons_self
  | succ n ih =>
    obtain ⟨hlt, rfl⟩ := List.getElem?_eq_some_iff.mp hi
    have hk : k < l.length := by omega
    have hpk := h k l[k] le_rfl hki (List.getElem?_eq_getElem hk)
    rw [List.drop_eq_getElem_cons hk, List.takeWhile_cons, if_pos hpk]
    apply List.mem_cons_of_mem
    exact ih (by omega) (fun j b hkj => h j b (by omega)) (by omega)

/-- Everything between a directory's own entry and an entry below it is below it. -/
theorem inDirectory_between (h : StrictCatalog es) {k j i : ℕ} {d x e : Entry} {n : Bytes}
    (hd : es[k]? = some d) (hx : es[j]? = some x) (he : es[i]? = some e) (hkj : k < j) (hji : j < i)
    (hdepth : e.depth = d.depth) (hpath : e.path = d.path ++ n) :
    x.depth = d.depth ∧ d.path <+: x.path := by
  obtain ⟨hk', rfl⟩ := List.getElem?_eq_some_iff.mp hd
  obtain ⟨hj', rfl⟩ := List.getElem?_eq_some_iff.mp hx
  obtain ⟨hi', rfl⟩ := List.getElem?_eq_some_iff.mp he
  have hasc := List.pairwise_iff_getElem.mp (List.pairwise_map.mp h.toAscending.ascending)
  have h1 := hasc _ _ hk' hj' hkj
  have h2 := hasc _ _ hj' hi' hji
  simp only [keyLe, Entry.key, Ne, strcmp_eq_gt, not_lt] at h1 h2
  have hle1 : es[k].path ≤ es[j].path := (h1.resolve_left (by omega)).2
  have hle2 : es[j].path ≤ es[i].path := (h2.resolve_left (by omega)).2
  exact ⟨by omega, prefix_of_le_of_le hle1 hle2 (hpath ▸ List.prefix_append _ n)⟩

theorem pairwise_listed (h : StrictCatalog es) (D : Bytes) :
    (listed es D).Pairwise fun a b => a.path < b.path := by
  have hsub : (listed es D).Sublist es :=
    (List.takeWhile_sublist _).trans (List.drop_sublist _ _)
  apply ((List.pairwise_map.mp h.ascending).sublist hsub).imp_of_mem
  intro a b ha hb hab
  have hda := List.mem_takeWhile_imp ha
  have hdb := List.mem_takeWhile_imp hb
  simp only [inDirectory, decide_eq_true_eq] at hda hdb
  simp only [keyLt, Entry.key, strcmp_eq_lt] at hab
  rcases hab with hab | ⟨-, hab⟩
  · omega
  · exact hab

section Listed

variable (h : StrictCatalog es) {D : Bytes} {k : ℕ} {d : Entry} (hd : es[k]? = some d)
  (hpath : d.path = D) (hpos : 0 < findDepth D) {e : Entry}

include h hd hpath hpos

theorem exists_name_of_mem_listed (he : e ∈ listed es D) :
    e ∈ es ∧ ∃ n, n ≠ [] ∧ slash ∉ n ∧ e.path = D ++ n := by
  have hl : locate es D = k := hpath ▸ locate_of_mem h hd (hpath ▸ hpos)
  rw [listed, hl, Int.toNat_natCast] at he
  have hdrop : e ∈ es.drop (k + 1) := (List.takeWhile_sublist _).mem he
  have hmem : e ∈ es := List.mem_of_mem_drop hdrop
  have hin := List.mem_takeWhile_imp he
  simp only [inDirectory, decide_eq_true_eq] at hin
  obtain ⟨hdepth, n, hn⟩ := hin
  refine ⟨hmem, n, ?_, ?_, hn.symm⟩
  · -- the directory's own entry is not behind itself
    rintro rfl
    rw [List.append_nil] at hn
    obtain ⟨j, hj⟩ := List.mem_iff_getElem?.mp hdrop
    rw [List.getElem?_drop] at hj
    have hlj := locate_of_mem h hj (hn ▸ hpos)
    rw [← hn, hl] at hlj
    omega
  · have hcount : findDepth D = findDepth D + n.count slash := by
      rw [← findDepth_append (head?_of_findDepth_pos hpos), hn, ← h.depth_eq e hmem, hdepth]
    exact List.count_eq_zero.mp (by omega)

theorem mem_listed_of_name (he : e ∈ es) {n : Bytes} (hne : n ≠ []) (hn : slash ∉ n)
    (hep : e.path = D ++ n) : e ∈ listed es D := by
  have hl : locate es D = k := hpath ▸ locate_of_mem h hd (hpath ▸ hpos)
  have hdd : d.depth = findDepth D := hpath ▸ h.depth_eq d (List.mem_of_getElem? hd)
  have hdepth : e.depth = findDepth D := by
    rw [h.depth_eq e he, hep, findDepth_append (head?_of_findDepth_pos hpos),
      List.count_eq_zero_of_not_mem hn]
    simp
  obtain ⟨i, hi⟩ := List.mem_iff_getElem?.mp he
  have hki : k < i := by
    apply lt_of_keyLt h hd hi
    refine .inr ⟨hdd.trans hdepth.symm, strcmp_eq_lt.mpr ?_⟩
    simp only [Entry.key, hpath, hep]
    exact lt_append_of_ne_nil D hne
  rw [listed, hl, Int.toNat_natCast]
  apply mem_takeWhile_drop hki hi
  intro j x hkj hji hx
  simp only [inDirectory, decide_eq_true_eq]
  rcases hji.lt_or_eq with hji | rfl
  · have hbetween := inDirectory_between h hd hx hi hkj hji (hdepth.trans hdd.symm) (hpath ▸ hep)
    rwa [hdd, hpath] at hbetween
  · obtain rfl : e = x := Option.some.inj (hi.symm.trans hx)
    exact ⟨hdepth, hep ▸ List.prefix_append D n⟩

/-- The entries listed for a directory are those whose path is the directory's with a name
behind it. -/
theorem mem_listed_iff :
    e ∈ listed es D ↔ e ∈ es ∧ ∃ n, n ≠ [] ∧ slash ∉ n ∧ e.path = D ++ n := by
  constructor
  · exact exists_name_of_mem_listed h hd hpath hpos
  · rintro ⟨he, n, hne, hn, hep⟩
    exact mem_listed_of_name h hd hpath hpos he hne hn hep

theorem mem_map_listed_iff (hlast : D.getLast? = some slash) {n : Bytes} {st : Stat} :
    (n, st) ∈ (listed es D).map (fun e => (basename e.path, e.st)) ↔
      n ≠ [] ∧ slash ∉ n ∧ ∃ e ∈ es, e.path = D ++ n ∧ e.st = st := by
  rw [List.mem_map]
  constructor
  · rintro ⟨e, he, heq⟩
    obtain ⟨hes, n', hne, hn, hep⟩ := (mem_listed_iff h hd hpath hpos).mp he
    obtain rfl : n' = n := by
      rw [← basename_append hlast hn, ← hep]
      exact congrArg Prod.fst heq
    exact ⟨hne, hn, e, hes, hep, congrArg Prod.snd heq⟩
  · rintro ⟨hne, hn, e, hes, hep, rfl⟩
    have hmem := (mem_listed_iff h hd hpath hpos).mpr ⟨hes, n, hne, hn, hep⟩
    exact ⟨e, hmem, by rw [hep, basename_append hlast hn]⟩

theorem pairwise_basename_listed (hlast : D.getLast? = some slash) :
    (listed es D).Pairwise fun a b => strcmp (basename a.path) (basename b.path) = .lt := by
  apply (pairwise_listed h D).imp_of_mem
  intro a b ha hb hab
  obtain ⟨-, m, -, hm, hap⟩ := exists_name_of_mem_listed h hd hpath hpos ha
  obtain ⟨-, n, -, hn, hbp⟩ := exists_name_of_mem_listed h hd hpath hpos hb
  rw [hap, hbp, append_lt_append_left_iff] at hab
  rw [hap, hbp, basename_append hlast hm, basename_append hlast hn]
  exact strcmp_eq_lt.mpr hab

end Listed

end Ordered

/-- On a strictly ascending catalog `readdir` and `getattr` agree on paths in blocks with room for a
slash: a path for which there is no record of a directory gives `-ENOENT`, and every other one
exactly the names behind the directory's path, in ascending order, with the attributes `getattr`
gives for them. -/
theorem catalogReaddir_agrees {probes : ℕ → Probe} {g : Globals} {file : Bytes} {es : List Entry}
    (hserves : Serves probes file) (hcat : IsCatalog g file es) (hstrict : StrictCatalog es)
    {room : Bytes → ℕ} (P : Bytes) (hroom : HasRoom room P) :
    (¬ ((withSlash P).head? = some slash ∧ ∃ e ∈ es, e.path = withSlash P) →
      Returns probes (catalogReaddirIn room g roomy P) (-ENOENT, dots)) ∧
    ((withSlash P).head? = some slash ∧ (∃ e ∈ es, e.path = withSlash P) →
      ∃ filled : List (Bytes × Stat),
        Returns probes (catalogReaddirIn room g roomy P)
          (0, dots ++ filled.map fun p => ⟨p.1, some p.2⟩) ∧
        (filled.Pairwise fun p q => strcmp p.1 q.1 = .lt) ∧
        (∀ n, (∃ st, (n, st) ∈ filled) ↔
          n ≠ [] ∧ slash ∉ n ∧ ∃ e ∈ es, e.path = withSlash P ++ n) ∧
        ∀ n st, (n, st) ∈ filled → Returns probes (catalogGetattr g (withSlash P ++ n)) (0, st)) := by
  have hsorted := hstrict.toAscending.depthSorted
  have hlast := getLast?_withSlash P
  constructor
  · intro h
    exact returns_catalogReaddirIn_iff.mpr ⟨hroom, returns_catalogReaddir_of_neg hserves hcat.readable
      hsorted _ (locate_eq_neg_one hsorted h)⟩
  · rintro ⟨hhead, d, hd, hpath⟩
    generalize hD : withSlash P = D at *
    obtain ⟨k, hk⟩ := List.mem_iff_getElem?.mp hd
    have hpos := findDepth_pos hhead
    have hl : locate es D = k := hpath ▸ locate_of_mem hstrict hk (hpath ▸ hpos)
    have hret := returns_catalogReaddir hserves hcat.readable hsorted (hD ▸ hl)
      (List.getElem?_eq_some_iff.mp hk).1
    rw [hD] at hret
    have hmap : ∀ n st, (n, st) ∈ (listed es D).map (fun e => (basename e.path, e.st)) ↔
        n ≠ [] ∧ slash ∉ n ∧ ∃ e ∈ es, e.path = D ++ n ∧ e.st = st := fun n st =>
      mem_map_listed_iff hstrict hk hpath hpos hlast
    refine ⟨(listed es D).map fun e => (basename e.path, e.st), ?_, ?_, fun n => ⟨?_, ?_⟩, ?_⟩
    · rw [List.map_map]
      exact returns_catalogReaddirIn_iff.mpr ⟨hroom, hret⟩
    · exact List.pairwise_map.mpr (pairwise_basename_listed hstrict hk hpath hpos hlast)
    · rintro ⟨st, hst⟩
      obtain ⟨hne, hn, e, hes, hep, -⟩ := (hmap n st).mp hst
      exact ⟨hne, hn, e, hes, hep⟩
    · rintro ⟨hne, hn, e, hes, hep⟩
      exact ⟨e.st, (hmap n e.st).mpr ⟨hne, hn, e, hes, hep, rfl⟩⟩
    · intro n st hst
      obtain ⟨-, -, e, hes, hep, rfl⟩ := (hmap n st).mp hst
      obtain ⟨i, hi⟩ := List.mem_iff_getElem?.mp hes
      have hposn : 0 < findDepth e.path := by
        rw [hep, findDepth_append hhead]
        omega
      exact returns_catalogGetattr hserves hcat.readable hsorted (hep ▸ locate_of_mem hstrict hi hposn) hi

theorem catalogReaddir_agrees_pair :
    ∃ filled : List (Bytes × Stat),
      Returns (steady (catalogFile pairRecords))
        (catalogReaddirIn strdupRoom (geometry (catalogFile pairRecords)) roomy [slash])
        (0, dots ++ filled.map fun p => ⟨p.1, some p.2⟩) ∧
      ∃ st, ([ch 'b'], st) ∈ filled := by
  obtain ⟨filled, hret, -, hmem, -⟩ := (catalogReaddir_agrees (serves_steady _)
    isCatalog_pairRecords ⟨by decide, by decide⟩ [slash] hasRoom_slash).2 (by decide)
  exact ⟨filled, hret, (hmem [ch 'b']).mpr (by decide)⟩

/-- `d 0 0 0 0 0 0 0 0 -1 \1a/\1`, the record of a directory without a leading slash. -/
def relativeFile : Bytes :=
  [ch 'd', 32, 48, 32, 48, 32, 48, 32, 48, 32, 48, 32, 48, 32, 48, 32, 48, 32, ch '-', 49, 32, sep,
    ch 'a', slash, sep, newline]

def relativeRecord : Record := ⟨ch 'd', 0, 0, 0, 0, 0, 0, 0, 0, -1, [ch 'a', slash], []⟩

theorem isCatalog_relativeFile :
    IsCatalog (geometry relativeFile) relativeFile [relativeRecord.entry] := by
  have hitems : sscanf entryFormat (cstr ((relativeFile.drop 0).take 26)) =
      relativeRecord.items := by decide
  refine ⟨by decide, by decide, by decide, by decide, fun k e he => ?_⟩
  cases k with
  | zero =>
    obtain rfl : relativeRecord.entry = e := by simpa using he
    intro stale
    have hw : (geometry relativeFile).entrySize = 26 := by decide
    rw [hw, Nat.mul_zero, hitems, entryOfLocals_items, if_neg (by decide)]
    rfl
  | succ k => simp at he

/-- For a path without a leading slash the agreement fails: the record of the directory is there,
but the search gives every such path up. -/
theorem not_catalogReaddir_agrees_of_relative :
    ¬ ∀ (probes : ℕ → Probe) (g : Globals) (file : Bytes) (es : List Entry),
      Serves probes file → IsCatalog g file es → StrictCatalog es → ∀ (room : Bytes → ℕ) P,
        HasRoom room P → (∃ e ∈ es, e.path = withSlash P) →
          ∃ buf, Returns probes (catalogReaddirIn room g roomy P) (0, buf) := by
  intro h
  have hstrict : StrictCatalog [relativeRecord.entry] := ⟨by decide, by decide⟩
  obtain ⟨buf, hbuf⟩ := h _ _ _ _ (serves_steady _) isCatalog_relativeFile hstrict (fun _ => 1)
    [ch 'a'] (by decide) (by decide)
  have hneg := returns_catalogReaddir_of_neg (serves_steady _) isCatalog_relativeFile.readable
    hstrict.toAscending.depthSorted roomy (P := [ch 'a']) (by decide)
  exact absurd (congrArg Prod.fst ((returns_catalogReaddirIn_iff.mp hbuf).2.unique hneg))
    zero_ne_neg_ENOENT

end CatalogFS
