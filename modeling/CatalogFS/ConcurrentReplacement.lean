import CatalogFS.Reads

namespace CatalogFS

open CLib

/-- The content of the catalog at each read, and its entries: their names stay. -/
structure Generations (g : Globals) (probes : ℕ → Probe) (file : ℕ → Bytes) (es : ℕ → List Entry) :
    Prop where
  serves : ∀ i, Serves (fun _ => probes i) (file i)
  readable : ∀ i, Readable g (file i) (es i)
  keys : ∀ i, (es i).map Entry.key = (es 0).map Entry.key

/-- What the call returns on a file system with this catalog, mounted with this geometry, that has the
memory it needs. -/
def Replies (g : Globals) (file : Bytes) (c : Call) (r : Reply) : Prop :=
  ∀ probes, Serves probes file → Returns probes (perform roomy g c) r

/-- A reply that is put together from true ones: a directory's entries may come from several, which
have the same names. -/
def Mixes (truth : Reply → Prop) : Reply → Prop
  | .entries res filled => ∀ (n : ℕ) (x : Filled), filled[n]? = some x →
      ∃ filled' : List Filled, truth (.entries res filled') ∧
        filled'.map Filled.name = filled.map Filled.name ∧ filled'[n]? = some x
  | r => truth r

theorem Mixes.of_truth {truth : Reply → Prop} {r : Reply} (h : truth r) : Mixes truth r := by
  cases r with
  | attr res st => exact h
  | entries res filled => exact fun _ _ hx => ⟨filled, h, rfl, hx⟩
  | link res buf => exact h

section Keys

variable {es es' : List Entry} (h : es'.map Entry.key = es.map Entry.key)

include h

theorem getElem?_of_keys {k : ℕ} {e : Entry} (he : es[k]? = some e) :
    ∃ e', es'[k]? = some e' ∧ e'.depth = e.depth ∧ e'.path = e.path := by
  have hk : (es'.map Entry.key)[k]? = some e.key := by rw [h, List.getElem?_map, he, Option.map_some]
  rw [List.getElem?_map, Option.map_eq_some_iff] at hk
  obtain ⟨e', he', hkey⟩ := hk
  exact ⟨e', he', congrArg Prod.fst hkey, congrArg Prod.snd hkey⟩

theorem depthSorted_of_keys (hsorted : DepthSorted es) : DepthSorted es' := by
  have hmap : ∀ l : List Entry, DepthSorted l ↔
      (l.map Entry.key).Pairwise fun a b => a.1 ≤ b.1 := fun l => by
    rw [DepthSorted, List.pairwise_map]
    rfl
  rw [hmap] at hsorted ⊢
  rwa [h]

theorem locate_of_keys (s : Bytes) : locate es' s = locate es s := by
  have hpath : ∀ l : List Entry, pathAt l = fun i => ((l.map Entry.key)[i.toNat]?).elim [] Prod.snd := by
    intro l
    funext i
    rw [pathAt, List.getElem?_map]
    cases l[i.toNat]? <;> rfl
  have hlow : ∀ l : List Entry, ∀ d, groupLow l d = (l.map Entry.key).countP fun k => k.1 < d := by
    intro l d
    rw [groupLow, List.countP_map]
    rfl
  have hhigh : ∀ l : List Entry, ∀ d,
      groupHigh l d = ((l.map Entry.key).countP fun k => k.1 ≤ d : ℕ) - 1 := by
    intro l d
    rw [groupHigh, List.countP_map]
    rfl
  simp only [locate, searchGroup, hpath, hlow, hhigh, h]

theorem listed_of_keys (D : Bytes) :
    (listed es' D).map Entry.key = (listed es D).map Entry.key := by
  have hmap : ∀ l : List Entry, (l.takeWhile (inDirectory D)).map Entry.key =
      (l.map Entry.key).takeWhile fun k => k.1 = findDepth D ∧ D <+: k.2 := by
    intro l
    rw [List.takeWhile_map]
    rfl
  rw [listed, listed, locate_of_keys h, hmap, hmap, List.map_drop, List.map_drop, h]

end Keys

def World.read (w : World) (location : ℤ) : World :=
  { w with probes := w.probes + 1, locations := w.locations ++ [location] }

theorem bind_eq_of_some {α β : Type} {probes : ℕ → Probe} {x : M α} {a : α} {w w' : World}
    (h : x probes w = some (a, w')) (f : α → M β) : (x >>= f) probes w = f a probes w' := by
  change (x probes w).bind (fun p => f p.1 probes p.2) = _
  rw [h, Option.bind_some]

section Calls

variable {g : Globals} {probes : ℕ → Probe} {file : ℕ → Bytes} {es : ℕ → List Entry}
  (hgen : Generations g probes file es)

include hgen

theorem Generations.getEntryFromCatalog_eq {k : ℕ} {w : World} {e : Entry}
    (he : (es w.probes)[k]? = some e) : getEntryFromCatalog g k probes w =
      some (some (e.statWdf (probes w.probes).stale.linkDest), w.read k) :=
  CatalogFS.getEntryFromCatalog_eq (hgen.serves w.probes) (hgen.readable w.probes) he w

theorem Generations.exists_entry {k : ℕ} (hk : k < (es 0).length) (i : ℕ) :
    ∃ e, (es i)[k]? = some e ∧ e.depth = (es 0)[k].depth ∧ e.path = (es 0)[k].path :=
  getElem?_of_keys (hgen.keys i) (List.getElem?_eq_getElem hk)

theorem Generations.hasKeys : HasKeys probes g (es 0) := by
  refine ⟨(hgen.readable 0).length_eq, (hgen.readable 0).length_lt, fun k e he => ?_⟩
  refine returns_bind fun w => ?_
  obtain ⟨e', he', hdepth, hpath⟩ := getElem?_of_keys (hgen.keys w.probes) he
  refine ⟨_, _, hgen.getEntryFromCatalog_eq he', ?_⟩
  dsimp only [Entry.statWdf]
  rw [hdepth, hpath]
  exact returns_pure _

variable (hsorted : DepthSorted (es 0))

include hsorted

theorem Generations.binSearch_eq (s : Bytes) (w : World) :
    ∃ w', binSearch g s probes w = some (locate (es 0) s, w') ∧ w.probes ≤ w'.probes := by
  obtain ⟨w', hw'⟩ := hgen.hasKeys.returns_binSearch hsorted s w
  obtain ⟨c, hc, -⟩ := spends_binSearch (hgen.readable 0).length_lt s w _ _ hw'
  exact ⟨w', hw', by omega⟩

theorem Generations.getattr (p : Bytes) (w : World) :
    ∃ r w' i, perform roomy g (.getattr p) probes w = some (r, w') ∧ w.probes ≤ i ∧ i ≤ w'.probes ∧
      Replies g (file i) (.getattr p) r := by
  obtain ⟨w₁, hw₁, hle⟩ := hgen.binSearch_eq hsorted p w
  have hlocate := fun i => locate_of_keys (hgen.keys i) p
  have hsorted' := fun i => depthSorted_of_keys (hgen.keys i) hsorted
  rcases locate_cases hsorted p with hl | ⟨k, e₀, hl, he₀, -⟩
  · rw [hl] at hw₁ hlocate
    have hpath : getattrByPath g p probes w = some (none, w₁) := by
      rw [getattrByPath, bind_eq_of_some hw₁, if_pos (by omega)]
      rfl
    refine ⟨.attr (-ENOENT) Stat.zero, w₁, w₁.probes, ?_, hle, le_rfl, fun probes' hserves => ?_⟩
    · rw [perform, catalogGetattr, bind_assoc, bind_eq_of_some hpath]
      rfl
    · exact (returns_catalogGetattr_of_neg hserves (hgen.readable _) (hsorted' _) (hlocate _)).bind
        (returns_pure _)
  · rw [hl] at hw₁ hlocate
    obtain ⟨e, he, -⟩ := getElem?_of_keys (hgen.keys w₁.probes) he₀
    have hpath : getattrByPath g p probes w = some (some e.st, w₁.read k) := by
      rw [getattrByPath, bind_eq_of_some hw₁, if_neg (by omega), getattrByLocation,
        bind_eq_of_some (hgen.getEntryFromCatalog_eq he)]
      rfl
    refine ⟨.attr 0 e.st, w₁.read k, w₁.probes, ?_, hle, ?_, fun probes' hserves => ?_⟩
    · rw [perform, catalogGetattr, bind_assoc, bind_eq_of_some hpath]
      rfl
    · exact Nat.le_succ _
    · exact (returns_catalogGetattr hserves (hgen.readable _) (hsorted' _) (hlocate _) he).bind
        (returns_pure _)

theorem Generations.readlink (htargets : ∀ i, ∀ e ∈ es i, e.target.isSome) (p buf : Bytes) (size : ℕ)
    (w : World) : ∃ r w' i, perform roomy g (.readlink p buf size) probes w = some (r, w') ∧
      w.probes ≤ i ∧ i ≤ w'.probes ∧ Replies g (file i) (.readlink p buf size) r := by
  obtain ⟨w₁, hw₁, hle⟩ := hgen.binSearch_eq hsorted p w
  have hlocate := fun i => locate_of_keys (hgen.keys i) p
  have hsorted' := fun i => depthSorted_of_keys (hgen.keys i) hsorted
  rcases locate_cases hsorted p with hl | ⟨k, e₀, hl, he₀, -⟩
  · rw [hl] at hw₁ hlocate
    refine ⟨.link (-ENOENT) buf, w₁, w₁.probes, ?_, hle, le_rfl, fun probes' hserves => ?_⟩
    · rw [perform, catalogReadlink, bind_assoc, bind_eq_of_some hw₁, if_pos (by omega)]
      rfl
    · exact (returns_catalogReadlink_of_neg hserves (hgen.readable _) (hsorted' _) (hlocate _) buf
        size).bind (returns_pure _)
  · rw [hl] at hw₁ hlocate
    obtain ⟨e, he, -⟩ := getElem?_of_keys (hgen.keys w₁.probes) he₀
    obtain ⟨t, ht⟩ := Option.isSome_iff_exists.mp (htargets _ e (List.mem_of_getElem? he))
    refine ⟨.link 0 (strncpy buf t (size - 1)), w₁.read k, w₁.probes, ?_, hle, ?_,
      fun probes' hserves => ?_⟩
    · rw [perform, catalogReadlink, bind_assoc, bind_eq_of_some hw₁, if_neg (by omega), bind_assoc,
        bind_eq_of_some (hgen.getEntryFromCatalog_eq he)]
      dsimp only [Entry.statWdf]
      rw [ht]
      rfl
    · exact Nat.le_succ _
    · exact (returns_catalogReadlink hserves (hgen.readable _) (hsorted' _) (hlocate _) he ht buf
        size).bind (returns_pure _)

omit hsorted in
/-- The loop of `readdir` hands over the names of the range, each with attributes it had when it was
read. -/
theorem Generations.readdirLoop_eq (m n k : ℕ) (buf : List Filled) (hn : m ≤ n)
    (hk : k + m ≤ (es 0).length) (w : World) :
    ∃ filled w', readdirLoop g roomy ((k + m : ℕ) - 1 : ℤ) n k buf probes w =
        some (buf ++ filled, w') ∧ w.probes ≤ w'.probes ∧
      filled.map Filled.name = (((es 0).drop k).take m).map (fun e => basename e.path) ∧
      ∀ (j : ℕ) (x : Filled), filled[j]? = some x → ∃ i, w.probes ≤ i ∧ i ≤ w'.probes ∧
        ((((es i).drop k).take m).map Entry.filled)[j]? = some x := by
  have hlen := (hgen.readable 0).length_eq ▸ (hgen.readable 0).length_lt
  induction m generalizing n k buf w with
  | zero =>
    refine ⟨[], w, ?_, le_rfl, by simp, by simp⟩
    cases n <;> rw [readdirLoop, if_neg (by omega), List.append_nil] <;> rfl
  | succ m ih =>
    obtain ⟨n, rfl⟩ := Nat.exists_eq_add_of_le' (Nat.one_le_iff_ne_zero.mpr (by omega : n ≠ 0))
    have hlt : k < (es 0).length := by omega
    have hnext : toInt ((k : ℤ) + 1) = (k + 1 : ℕ) := by
      rw [toInt_of_lt (by omega) (by omega)]
      rfl
    -- the attributes are read first, then the name
    obtain ⟨e, he, -, hpath⟩ := hgen.exists_entry hlt w.probes
    have hst : getattrByLocation g k probes w = some (some e.st, w.read k) := by
      rw [getattrByLocation, bind_eq_of_some (hgen.getEntryFromCatalog_eq he)]
      rfl
    obtain ⟨e', he', -, hpath'⟩ := hgen.exists_entry hlt (w.probes + 1)
    have hname : getEntryFilepath g k probes (w.read k) = some (some e.path, (w.read k).read k) := by
      rw [getEntryFilepath, getEntryDepthFilepath, bind_assoc,
        bind_eq_of_some (hgen.getEntryFromCatalog_eq he')]
      dsimp only [Entry.statWdf]
      rw [hpath', ← hpath]
      rfl
    have hw₂ : ((w.read k).read k).probes = w.probes + 2 := rfl
    obtain ⟨filled, w', hrun, hle, hnames, hmoments⟩ :=
      ih n (k + 1) (buf ++ [e.filled]) (by omega) (by omega) ((w.read k).read k)
    refine ⟨e.filled :: filled, w', ?_, by omega, ?_, ?_⟩
    · rw [readdirLoop, if_pos (by omega), bind_eq_of_some hst, bind_eq_of_some hname]
      dsimp only
      rw [Nat.add_right_comm, Nat.add_assoc] at hrun
      rw [← Entry.filled, if_neg (by simp [roomy]), hnext, hrun, List.append_assoc]
      rfl
    · rw [List.drop_eq_getElem_cons hlt, List.take_succ_cons, List.map_cons, List.map_cons, hnames,
        Entry.filled, hpath]
    · have hcons : ∀ i, ∃ e, (es i)[k]? = some e ∧
          ((es i).drop k).take (m + 1) = e :: ((es i).drop (k + 1)).take m := by
        intro i
        obtain ⟨e, he, -⟩ := hgen.exists_entry hlt i
        obtain ⟨hk, rfl⟩ := List.getElem?_eq_some_iff.mp he
        exact ⟨_, he, by rw [List.drop_eq_getElem_cons hk, List.take_succ_cons]⟩
      rintro (_ | j) x hx
      · obtain rfl : e.filled = x := by simpa using hx
        obtain ⟨e₀, he₀, htake⟩ := hcons w.probes
        obtain rfl : e₀ = e := Option.some.inj (he₀.symm.trans he)
        exact ⟨w.probes, le_rfl, by omega, by rw [htake]; rfl⟩
      · obtain ⟨i, hi, hi', hx'⟩ := hmoments j x (by simpa using hx)
        obtain ⟨e₀, -, htake⟩ := hcons i
        exact ⟨i, by omega, hi', by rw [htake]; exact hx'⟩

theorem Generations.replies_readdir {p : Bytes} {k : ℕ} (hl : locate (es 0) (withSlash p) = k)
    (hk : k < (es 0).length) (i : ℕ) : Replies g (file i) (.readdir p)
      (.entries 0 (dots ++ (((es i).drop (k + 1)).take (listed (es 0) (withSlash p)).length).map
        Entry.filled)) := by
  intro probes' hserves
  have hl' : locate (es i) (withSlash p) = k := by rw [locate_of_keys (hgen.keys i), hl]
  have hlen : (es i).length = (es 0).length := by
    rw [(hgen.readable i).length_eq, (hgen.readable 0).length_eq]
  have hlisted : ((es i).drop (k + 1)).take (listed (es 0) (withSlash p)).length =
      listed (es i) (withSlash p) := by
    have hcount := congrArg List.length (listed_of_keys (hgen.keys i) (withSlash p))
    rw [List.length_map, List.length_map] at hcount
    rw [← hcount, listed, hl', Int.toNat_natCast]
    exact take_takeWhile_length _ _
  have hret := returns_catalogReaddir_fill hserves (hgen.readable i)
    (depthSorted_of_keys (hgen.keys i) hsorted) roomy hl' (by omega)
  rw [fill_roomy, ← hlisted] at hret
  exact hret.bind (returns_pure _)

theorem Generations.readdir (p : Bytes) (w : World) :
    ∃ r w', perform roomy g (.readdir p) probes w = some (r, w') ∧ w.probes ≤ w'.probes ∧
      Mixes (fun r' => ∃ i, w.probes ≤ i ∧ i ≤ w'.probes ∧ Replies g (file i) (.readdir p) r') r := by
  rcases locate_cases hsorted (withSlash p) with hl | ⟨k, e₀, hl, he₀, -⟩
  · obtain ⟨w₁, hw₁, hle⟩ := hgen.binSearch_eq hsorted (withSlash p) w
    rw [hl] at hw₁
    refine ⟨.entries (-ENOENT) dots, w₁, ?_, hle, fun n x hx => ⟨dots, ⟨w.probes, le_rfl, hle, ?_⟩,
      rfl, hx⟩⟩
    · have hnone : getDirectoryContents g (withSlash p) probes w = some (none, w₁) := by
        rw [getDirectoryContents, if_neg (by simp [getLast?_withSlash]), bind_eq_of_some hw₁,
          if_pos (by omega)]
        rfl
      rw [perform, catalogReaddir, ← withSlash, bind_assoc, bind_eq_of_some hnone]
      rfl
    · intro probes' hserves
      exact (returns_catalogReaddir_of_neg hserves (hgen.readable _)
        (depthSorted_of_keys (hgen.keys _) hsorted) roomy
        (by rw [locate_of_keys (hgen.keys _), hl])).bind (returns_pure _)
  · have hk := (List.getElem?_eq_some_iff.mp he₀).1
    have hlen := (hgen.readable 0).length_eq ▸ (hgen.readable 0).length_lt
    obtain ⟨w₁, hw₁⟩ :=
      hgen.hasKeys.returns_getDirectoryContents hsorted (getLast?_withSlash p) hl hk w
    obtain ⟨c, hc, -⟩ := spends_getDirectoryContents (hgen.readable 0).length_lt _ w _ _ hw₁
    have hcount : (listed (es 0) (withSlash p)).length ≤ (es 0).length - (k + 1) := by
      rw [listed, hl, Int.toNat_natCast, ← List.length_drop]
      exact (List.takeWhile_sublist _).length_le
    have hfirst : toInt ((k : ℤ) + 1) = (k + 1 : ℕ) := by
      rw [toInt_of_lt (by omega) (by omega)]
      rfl
    have hhigh : (k : ℤ) + ((listed (es 0) (withSlash p)).length : ℤ) =
        (k + 1 + (listed (es 0) (withSlash p)).length : ℕ) - 1 := by
      push_cast
      omega
    have htruth := hgen.replies_readdir hsorted hl hk
    generalize hm : (listed (es 0) (withSlash p)).length = m at *
    obtain ⟨filled, w', hrun, hle, hnames, hmoments⟩ := hgen.readdirLoop_eq m
      (((k + 1 + m : ℕ) - 1 : ℤ) - ((k + 1 : ℕ) : ℤ) + 1).toNat (k + 1) dots (by omega) (by omega) w₁
    refine ⟨.entries 0 (dots ++ filled), w', ?_, by omega, ?_⟩
    · rw [perform, catalogReaddir, ← withSlash, bind_assoc, bind_eq_of_some hw₁]
      dsimp only
      rw [if_neg (by omega), hfirst, hhigh, bind_assoc, bind_eq_of_some hrun]
      rfl
    · have hsame : ∀ i, (dots ++ (((es i).drop (k + 1)).take m).map Entry.filled).map Filled.name =
          (dots ++ filled).map Filled.name := by
        intro i
        have hname : ∀ l : List Entry, (l.map Entry.filled).map Filled.name =
            (l.map Entry.key).map fun key => basename key.2 := by
          intro l
          rw [List.map_map, List.map_map]
          rfl
        have hnames₀ : ∀ l : List Entry, (l.map fun e => basename e.path) =
            (l.map Entry.key).map fun key => basename key.2 := by
          intro l
          rw [List.map_map]
          rfl
        have hkeys : (((es i).drop (k + 1)).take m).map Entry.key =
            (((es 0).drop (k + 1)).take m).map Entry.key := by
          rw [List.map_take, List.map_drop, hgen.keys i, ← List.map_drop, ← List.map_take]
        rw [List.map_append, List.map_append, hnames, hname, hnames₀, hkeys]
      intro n x hx
      rcases lt_or_ge n dots.length with hn | hn
      · refine ⟨_, ⟨w.probes, le_rfl, by omega, htruth _⟩, hsame _, ?_⟩
        rw [List.getElem?_append_left hn] at hx ⊢
        exact hx
      · rw [List.getElem?_append_right hn] at hx
        obtain ⟨i, hi, hi', hx'⟩ := hmoments _ x hx
        refine ⟨_, ⟨i, by omega, hi', htruth i⟩, hsame i, ?_⟩
        rw [List.getElem?_append_right hn]
        exact hx'

end Calls

/-- While the catalog is replaced again and again by others with the same names, also between the
reads of one call, every call that has the memory it needs returns. What it tells is what a file system
freshly mounted on the catalog of some moment between the call's begin and end tells; a directory's
entries may be of several such moments, but they are the same entries. -/
theorem replies_of_generations {g : Globals} {probes : ℕ → Probe} {file : ℕ → Bytes}
    {es : ℕ → List Entry} (hgen : Generations g probes file es) (hsorted : DepthSorted (es 0))
    (htargets : ∀ i, ∀ e ∈ es i, e.target.isSome) {catalogName : Bytes} {stack : ℕ}
    {room : Bytes → ℕ} (hentry : EntryFits stack g) (hbuffers : NoOverflow catalogName g probes)
    {c : Call} (hc : c.InBounds room) (w : World) :
    ∃ r w', performIn catalogName stack room roomy g c probes w = some (r, w') ∧
      Mixes (fun r' => ∃ i, w.probes ≤ i ∧ i ≤ w'.probes ∧ Replies g (file i) c r') r := by
  rw [performIn_eq (hgen.readable 0).length_lt hentry hbuffers hc]
  cases c with
  | getattr p =>
    obtain ⟨r, w', i, hrun, hi, hi', htruth⟩ := hgen.getattr hsorted p w
    exact ⟨r, w', hrun, Mixes.of_truth ⟨i, hi, hi', htruth⟩⟩
  | readdir p =>
    obtain ⟨r, w', hrun, -, hmix⟩ := hgen.readdir hsorted p w
    exact ⟨r, w', hrun, hmix⟩
  | readlink p buf size =>
    obtain ⟨r, w', i, hrun, hi, hi', htruth⟩ := hgen.readlink hsorted htargets p buf size w
    exact ⟨r, w', hrun, Mixes.of_truth ⟨i, hi, hi', htruth⟩⟩

def grownRecords : List Record :=
  [recordOf .dir smallAttr [slash] [], recordOf .reg { smallAttr with size := 8 } [slash, ch 'b'] []]

theorem printable_grownRecords : ∀ r ∈ grownRecords, r.Printable := by
  intro r hr
  rcases List.mem_pair.mp hr with rfl | rfl
  · exact printable_recordOf rfl (by decide) (by decide)
  · exact printable_recordOf rfl (by decide) (by decide)

theorem isCatalog_grownRecords :
    IsCatalog (geometry (catalogFile grownRecords)) (catalogFile grownRecords)
      (grownRecords.map Record.entry) := by
  refine isCatalog_catalogFile (by decide) printable_grownRecords (fun r hr => ?_)
    (fun r hr => ?_) (by decide)
  · rcases List.mem_pair.mp hr with rfl | rfl
    · exact ⟨by decide, by decide⟩
    · exact ⟨by decide, by decide⟩
  · rcases List.mem_pair.mp hr with rfl | rfl <;> rfl

def growingRecords (i : ℕ) : List Record := if i < 2 then pairRecords else grownRecords

theorem generations_growing :
    Generations (geometry (catalogFile pairRecords)) (fun i => steady (catalogFile (growingRecords i)) i)
      (fun i => catalogFile (growingRecords i)) fun i => (growingRecords i).map Record.entry := by
  have hgeometry : geometry (catalogFile grownRecords) = geometry (catalogFile pairRecords) := by decide
  have hkeys : (grownRecords.map Record.entry).map Entry.key =
      (pairRecords.map Record.entry).map Entry.key := by decide
  refine ⟨fun i => serves_steady _, fun i => ?_, fun i => ?_⟩
  · unfold growingRecords
    split_ifs
    · exact isCatalog_pairRecords.readable
    · exact hgeometry ▸ isCatalog_grownRecords.readable
  · have hstart : growingRecords 0 = pairRecords := rfl
    rw [hstart, growingRecords]
    split_ifs
    · rfl
    · exact hkeys

/-- The root is listed while the file in it grows. -/
theorem replies_of_generations_growing : ∃ r w',
    performIn [ch 'c'] (2 ^ 23) strdupRoom roomy (geometry (catalogFile pairRecords)) (.readdir [slash])
        (fun i => steady (catalogFile (growingRecords i)) i) ⟨0, 0, []⟩ = some (r, w') ∧
      Mixes (fun r' => ∃ i, 0 ≤ i ∧ i ≤ w'.probes ∧ Replies (geometry (catalogFile pairRecords))
        (catalogFile (growingRecords i)) (.readdir [slash]) r') r := by
  have hgeometry : geometry (catalogFile grownRecords) = geometry (catalogFile pairRecords) := by decide
  have hbuffers : ∀ i, NeverOverflows [ch 'c'] (geometry (catalogFile pairRecords))
      (catalogFile (growingRecords i)) := by
    intro i
    unfold growingRecords
    split_ifs
    · rw [neverOverflows_catalogFile_iff (by decide) printable_pairRecords (by decide) (by decide)]
      decide
    · rw [← hgeometry, neverOverflows_catalogFile_iff (by decide) printable_grownRecords (by decide)
        (by decide)]
      decide
  have htargets : ∀ i, ∀ e ∈ (growingRecords i).map Record.entry, e.target.isSome := by
    intro i
    unfold growingRecords
    split_ifs <;> decide
  have hentry : EntryFits (2 ^ 23) (geometry (catalogFile pairRecords)) := ⟨by decide, by decide⟩
  have hroom : Call.InBounds strdupRoom (.readdir [slash]) := hasRoom_slash
  exact replies_of_generations generations_growing strictCatalog_pairRecords.toAscending.depthSorted
    htargets hentry (noOverflow_of_neverOverflows (fun _ => rfl) hbuffers) hroom ⟨0, 0, []⟩

end CatalogFS
