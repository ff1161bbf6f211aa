import CatalogFS.Reader

namespace CatalogFS

open CLib

/-- Whenever a record is asked for, the file can be opened and read and holds these bytes. What
the variables and buffers hold is left open. -/
def Serves (probes : ℕ → Probe) (file : Bytes) : Prop :=
  ∀ i, (probes i).content = some file ∧ (probes i).seekFails = false ∧ (probes i).readFails = false

/-- Probes of a file that does not change, where the memory that is read unwritten holds zeros. -/
def steady (file : Bytes) : ℕ → Probe := fun _ =>
  ⟨some file, false, false, ⟨0, 0, 0, 0, 0, 0, 0, 0, 0, 0, [], []⟩, fun _ => 0⟩

theorem serves_steady (file : Bytes) : Serves (steady file) file := fun _ => ⟨rfl, rfl, rfl⟩

/-- From every state of the process the computation returns this result. -/
def Returns {α : Type} (probes : ℕ → Probe) (x : M α) (a : α) : Prop :=
  ∀ w, ∃ w', x probes w = some (a, w')

section Returns

variable {α β : Type} {probes : ℕ → Probe}

theorem returns_pure (a : α) : Returns probes (pure a) a := fun w => ⟨w, rfl⟩

/-- The first computation may return what the state makes of it, as long as the second one then
returns the same. -/
theorem returns_bind {x : M α} {f : α → M β} {b : β}
    (h : ∀ w, ∃ a w', x probes w = some (a, w') ∧ Returns probes (f a) b) :
    Returns probes (x >>= f) b := by
  intro w
  obtain ⟨a, w', hx, hf⟩ := h w
  obtain ⟨w'', hw''⟩ := hf w'
  refine ⟨w'', ?_⟩
  change (x probes w).bind (fun p => f p.1 probes p.2) = _
  rw [hx, Option.bind_some]
  exact hw''

theorem Returns.bind {x : M α} {f : α → M β} {a : α} {b : β} (hx : Returns probes x a)
    (hf : Returns probes (f a) b) : Returns probes (x >>= f) b :=
  returns_bind fun w => (hx w).elim fun w' hw' => ⟨a, w', hw', hf⟩

theorem Returns.unique {x : M α} {a b : α} (ha : Returns probes x a) (hb : Returns probes x b) :
    a = b := by
  obtain ⟨_, h1⟩ := ha ⟨0, 0, []⟩
  obtain ⟨_, h2⟩ := hb ⟨0, 0, []⟩
  rw [h1] at h2
  exact congrArg Prod.fst (Option.some.inj h2)

end Returns

/-- What a line of the catalog tells. `target` is `none` for a link without a `\2`. -/
structure Entry where
  depth : ℤ
  path : Bytes
  st : Stat
  target : Option Bytes
  deriving DecidableEq

def Entry.statWdf (e : Entry) (stale : Bytes) : StatWdf :=
  ⟨e.depth, e.path, e.st, e.target.getD stale⟩

def decode (stale : Locals) (bytes : Bytes) : StatWdf :=
  entryOfLocals (assignItems stale (sscanf entryFormat (cstr bytes)))

/-- Scanning the line gives the entry, whatever the variables held before. -/
def HoldsEntry (line : Bytes) (e : Entry) : Prop :=
  ∀ stale, entryOfLocals (assignItems stale (sscanf entryFormat (cstr line))) =
    e.statWdf stale.linkDest

structure Layout (g : Globals) (file : Bytes) (es : List Entry) : Prop where
  length_eq : es.length = g.catalogLen
  size_le : g.entrySize * g.catalogLen ≤ file.length
  holds : ∀ k e, es[k]? = some e →
    HoldsEntry ((file.drop (g.entrySize * k)).take g.entrySize) e

/-- What lookups rest on: besides, every location and every offset fits an `int`. -/
structure Readable (g : Globals) (file : Bytes) (es : List Entry) : Prop
    extends Layout g file es where
  length_lt : g.catalogLen < 2 ^ 31
  offset_lt : ∀ k < g.catalogLen, g.entrySize * k < 2 ^ 31

/-- With this geometry the file is a catalog of these entries. -/
structure IsCatalog (g : Globals) (file : Bytes) (es : List Entry) : Prop where
  entrySize_pos : 0 < g.entrySize
  length_eq : es.length = g.catalogLen
  size_lt : g.entrySize * g.catalogLen < 2 ^ 31
  size_le : g.entrySize * g.catalogLen ≤ file.length
  holds : ∀ k e, es[k]? = some e →
    HoldsEntry ((file.drop (g.entrySize * k)).take g.entrySize) e

/-- When the file has all the bytes, what the buffer held before is not seen. -/
theorem readEntry_eq {file : Bytes} {offset size : ℕ} (h : offset + size ≤ file.length)
    (stale : ℕ → Byte) : readEntry file offset size stale = (file.drop offset).take size := by
  have hlen : ((file.drop offset).take size).length = size := by
    rw [List.length_take, List.length_drop]
    omega
  simp [readEntry, hlen]

section Catalog

variable {probes : ℕ → Probe} {g : Globals} {file : Bytes} {es : List Entry}

theorem IsCatalog.readable (hcat : IsCatalog g file es) : Readable g file es where
  length_eq := hcat.length_eq
  size_le := hcat.size_le
  holds := hcat.holds
  length_lt := (Nat.le_mul_of_pos_left _ hcat.entrySize_pos).trans_lt hcat.size_lt
  offset_lt _ hk := (Nat.mul_le_mul_left _ hk.le).trans_lt hcat.size_lt

theorem IsCatalog.take (hcat : IsCatalog g file es) {n : ℕ} (hn : n ≤ g.catalogLen) :
    IsCatalog { g with catalogLen := n } file (es.take n) := by
  have hle : g.entrySize * n ≤ g.entrySize * g.catalogLen := Nat.mul_le_mul_left _ hn
  refine ⟨hcat.entrySize_pos, ?_, hle.trans_lt hcat.size_lt, hle.trans hcat.size_le,
    fun k e he => hcat.holds k e ?_⟩
  · rw [List.length_take, hcat.length_eq, min_eq_left hn]
  · rw [List.getElem?_take] at he
    split_ifs at he
    exact he

theorem getEntryFromCatalog_read (hserves : Serves probes file) {k : ℕ}
    (hlt : g.entrySize * k < 2 ^ 31) (hle : g.entrySize * k + g.entrySize ≤ file.length) (w : World) :
    getEntryFromCatalog g k probes w =
      some (some (entryOfLocals (assignItems (probes w.probes).stale
          (sscanf entryFormat (cstr ((file.drop (g.entrySize * k)).take g.entrySize))))),
        { w with probes := w.probes + 1, locations := w.locations ++ [(k : ℤ)] }) := by
  obtain ⟨hcontent, hseek, hread⟩ := hserves w.probes
  have hoffset : toInt (g.entrySize * (k : ℤ)) = (g.entrySize * k : ℕ) := by
    rw [← Nat.cast_mul]
    exact toInt_of_lt (by omega) (by omega)
  have hnonneg : ¬ ((g.entrySize * k : ℕ) : ℤ) < 0 := by omega
  simp only [getEntryFromCatalog, hcontent, hseek, hread, hoffset, hnonneg, decide_false,
    Bool.or_false, Bool.false_eq_true, if_false, Int.toNat_natCast, readEntry_eq hle]

theorem getEntryFromCatalog_eq (hserves : Serves probes file) (hcat : Readable g file es) {k : ℕ}
    {e : Entry} (he : es[k]? = some e) (w : World) :
    getEntryFromCatalog g k probes w =
      some (some (e.statWdf (probes w.probes).stale.linkDest),
        { w with probes := w.probes + 1, locations := w.locations ++ [(k : ℤ)] }) := by
  obtain ⟨hk, -⟩ := List.getElem?_eq_some_iff.mp he
  rw [hcat.length_eq] at hk
  have hlast : g.entrySize * k + g.entrySize ≤ g.entrySize * g.catalogLen := by
    rw [← Nat.mul_succ]
    exact Nat.mul_le_mul_left _ hk
  rw [getEntryFromCatalog_read hserves (hcat.offset_lt k hk) (hlast.trans hcat.size_le),
    hcat.holds k e he]

theorem returns_getEntryDepthFilepath (hserves : Serves probes file) (hcat : Readable g file es)
    {k : ℕ} {e : Entry} (he : es[k]? = some e) :
    Returns probes (getEntryDepthFilepath g k) (some (e.depth, e.path)) :=
  returns_bind fun w => ⟨_, _, getEntryFromCatalog_eq hserves hcat he w, returns_pure _⟩

theorem returns_getEntryFilepath (hserves : Serves probes file) (hcat : Readable g file es)
    {k : ℕ} {e : Entry} (he : es[k]? = some e) :
    Returns probes (getEntryFilepath g k) (some e.path) :=
  (returns_getEntryDepthFilepath hserves hcat he).bind (returns_pure _)

theorem returns_getattrByLocation (hserves : Serves probes file) (hcat : Readable g file es)
    {k : ℕ} {e : Entry} (he : es[k]? = some e) :
    Returns probes (getattrByLocation g k) (some e.st) :=
  returns_bind fun w => ⟨_, _, getEntryFromCatalog_eq hserves hcat he w, returns_pure _⟩

end Catalog

end CatalogFS
