import CatalogFS.Reading

/-!
# The memory that the calls are given

`catalog_readdir` appends a slash in the block that holds the path, and every reading of a record has
an array of `entry_size + 1` bytes on the stack. A call that writes behind its block, or whose array
does not fit, is not one that returns.
-/

namespace CatalogFS

open CLib

/-- The block of a path has a byte behind the NUL, unless nothing is appended to it. -/
def HasRoom (room : Bytes → ℕ) (path : Bytes) : Prop := path ≠ [slash] → 0 < room path

instance (room : Bytes → ℕ) (path : Bytes) : Decidable (HasRoom room path) :=
  inferInstanceAs (Decidable (_ → _))

/-- `catalog_readdir` when the block of each path has `room` bytes behind the NUL. -/
def catalogReaddirIn (room : Bytes → ℕ) (g : Globals) (filler : Filler) (path : Bytes) :
    M (ℤ × List Filled) :=
  if HasRoom room path then catalogReaddir g filler path else failure

/-- The room in a block from `strdup`, which the FUSE library passes on: glibc hands out 24 bytes or
the next of 40, 56 and so on. -/
def strdupRoom (path : Bytes) : ℕ :=
  max 24 ((path.length + 1 + 8 + 15) / 16 * 16 - 8) - (path.length + 1)

theorem strdupRoom_eq_zero_iff {path : Bytes} :
    strdupRoom path = 0 ↔ 16 < path.length ∧ path.length % 16 = 7 := by
  unfold strdupRoom
  omega

/-- `char entry[entry_size + 1]`: the size is an `int`, and the array has to fit on the stack. -/
def EntryFits (stack : ℕ) (g : Globals) : Prop :=
  g.entrySize + 1 < 2 ^ 31 ∧ g.entrySize + 1 ≤ stack

instance (stack : ℕ) (g : Globals) : Decidable (EntryFits stack g) :=
  inferInstanceAs (Decidable (_ ∧ _))

/-- A computation with this array in every reading of a record. -/
def withEntry {α : Type} (stack : ℕ) (g : Globals) (x : M α) : M α := fun probes w =>
  (x probes w).bind fun r => if r.2.probes = w.probes ∨ EntryFits stack g then some r else none

section Room

variable {room : Bytes → ℕ} {probes : ℕ → Probe} {g : Globals} {filler : Filler} {path : Bytes}

theorem returns_catalogReaddirIn_iff {r : ℤ × List Filled} :
    Returns probes (catalogReaddirIn room g filler path) r ↔
      HasRoom room path ∧ Returns probes (catalogReaddir g filler path) r := by
  unfold catalogReaddirIn
  split_ifs with hroom
  · exact ⟨fun h => ⟨hroom, h⟩, fun h => h.2⟩
  · refine ⟨fun h => ?_, fun h => absurd h.1 hroom⟩
    obtain ⟨w, hw⟩ := h ⟨0, 0, []⟩
    cases hw

theorem hasRoom_slash : HasRoom room [slash] := fun h => absurd rfl h

end Room

section Entry

variable {α : Type} {stack : ℕ} {g : Globals}

theorem withEntry_of_fits (h : EntryFits stack g) (x : M α) : withEntry stack g x = x := by
  funext probes w
  simp [withEntry, h]

theorem returns_withEntry {probes : ℕ → Probe} {x : M α} {a : α} (h : EntryFits stack g)
    (hx : Returns probes x a) : Returns probes (withEntry stack g x) a := by
  rwa [withEntry_of_fits h]

/-- A record cannot be read without its array. -/
theorem withEntry_getEntryFromCatalog (h : ¬ EntryFits stack g) (location : ℤ) (probes : ℕ → Probe)
    (w : World) : withEntry stack g (getEntryFromCatalog g location) probes w = none := by
  unfold withEntry getEntryFromCatalog
  cases hcontent : (probes w.probes).content with
  | none => simp [hcontent]
  | some content =>
    simp only [hcontent]
    split_ifs <;> simp [h]

end Entry

end CatalogFS
