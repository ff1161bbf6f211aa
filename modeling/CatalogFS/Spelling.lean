import CatalogFS.Completeness

namespace CatalogFS

open CLib

/-- A suffix that leads from a directory to itself or to something in it. -/
def IsSuffix (r : Bytes) : Prop := r = [] ∨ r.head? = some slash

def SameEntries : Option (List Dirent) → Option (List Dirent) → Prop
  | none, none => True
  | some ents, some ents' => ents.Perm ents'
  | _, _ => False

/-- With every suffix the two spellings lead to the same file, and each directory has the same
entries, in some order. -/
structure SameFiles (host₁ : Host) (s₁ : Bytes) (host₂ : Host) (s₂ : Bytes) : Prop where
  lstat_eq : ∀ r, r.head? = some slash → host₁.lstat (s₁ ++ r) = host₂.lstat (s₂ ++ r)
  readlink_eq : ∀ r, r.head? = some slash → host₁.readlink (s₁ ++ r) = host₂.readlink (s₂ ++ r)
  readdir_same : ∀ r, IsSuffix r → SameEntries (host₁.readdir (s₁ ++ r)) (host₂.readdir (s₂ ++ r))

theorem sameEntries_refl (ents : Option (List Dirent)) : SameEntries ents ents := by
  cases ents with
  | none => trivial
  | some ents => exact List.Perm.refl ents

theorem isSuffix_pathString (cs : List FileName) : IsSuffix (pathString cs) := by
  cases cs with
  | nil => exact .inl rfl
  | cons c cs => exact .inr rfl

theorem head?_pathString {cs : List FileName} (h : cs ≠ []) :
    (pathString cs).head? = some slash := by
  obtain ⟨c, cs, rfl⟩ := List.exists_cons_of_ne_nil h
  rfl

section Same

variable {host₁ host₂ : Host} {s₁ s₂ : Bytes} {T : Tree} {fails unknown : List FileName → Bool}

theorem SameFiles.files (hsame : SameFiles host₁ s₁ host₂ s₂) (h : host₁.ShowsFiles s₁ T) :
    host₂.ShowsFiles s₂ T where
  lstat_dir cs a ch hget := by
    rw [← hsame.lstat_eq _ (head?_dirPath cs)]
    exact h.lstat_dir cs a ch hget
  lstat_node cs node hcs hget := by
    rw [← hsame.lstat_eq _ (head?_pathString hcs)]
    exact h.lstat_node cs node hcs hget
  readlink_link cs a t hget := by
    have hcs : cs ≠ [] := by
      rintro rfl
      cases hget
    rw [← hsame.readlink_eq _ (head?_pathString hcs)]
    exact h.readlink_link cs a t hget

theorem SameFiles.lists (hsame : SameFiles host₁ s₁ host₂ s₂)
    (h : host₁.Lists s₁ T fails unknown) : host₂.Lists s₂ T fails unknown where
  readdir_dir cs a ch hget hf := by
    obtain ⟨ents, dots, hents, hdots, hperm⟩ := h.readdir_dir cs a ch hget hf
    have hentries := hsame.readdir_same _ (isSuffix_pathString cs)
    rw [hents] at hentries
    cases h₂ : host₂.readdir (s₂ ++ pathString cs) with
    | none =>
      rw [h₂] at hentries
      cases hentries
    | some ents' =>
      rw [h₂] at hentries
      exact ⟨ents', dots, rfl, hdots, hentries.symm.trans hperm⟩
  readdir_fails cs a ch hget hf := by
    have hentries := hsame.readdir_same _ (isSuffix_pathString cs)
    rw [h.readdir_fails cs a ch hget hf] at hentries
    cases h₂ : host₂.readdir (s₂ ++ pathString cs) with
    | none => rfl
    | some ents' =>
      rw [h₂] at hentries
      cases hentries

theorem exists_path_eq_slash_cons {cs : List FileName} {r : Record} (hr : r ∈ T.block fails cs) :
    ∃ n, r.path = slash :: n ∧ n.head? ≠ some slash := by
  obtain ⟨n, hn, hp, -⟩ := exists_of_mem_block hr
  rw [hp]
  cases cs with
  | nil =>
    refine ⟨n, rfl, ?_⟩
    intro h
    exact hn (List.mem_of_head? h)
  | cons c cs =>
    refine ⟨c.val ++ (dirPath cs ++ n), by simp [dirPath], ?_⟩
    intro h
    rw [List.head?_append_of_ne_nil _ c.ne_nil] at h
    exact c.slash_notMem (List.mem_of_head? h)

/-- The catalog depends on the tree only, and on the entries for which the system does not tell the
type: two spellings of its directory and two orders of enumeration give the same records, and so the
same bytes. The path of each record begins with one slash, the one that was put behind `input_dir`. -/
theorem catalog_eq_of_sameFiles (hne₁ : s₁ ≠ []) (hne₂ : s₂ ≠ []) (hfiles : host₁.ShowsFiles s₁ T)
    (hlists : host₁.Lists s₁ T fails unknown) (hsame : SameFiles host₁ s₁ host₂ s₂) :
    (∃ recs₁ recs₂, Writes host₁ s₁ recs₁ ∧ Writes host₂ s₂ recs₂) ∧
    ∀ recs₁ recs₂, Writes host₁ s₁ recs₁ → Writes host₂ s₂ recs₂ →
      recs₁ = recs₂ ∧ catalogFile recs₁ = catalogFile recs₂ ∧
      ∀ r ∈ recs₁, ∃ n, r.path = slash :: n ∧ n.head? ≠ some slash := by
  have hfiles₂ := hsame.files hfiles
  have hlists₂ := hsame.lists hlists
  refine ⟨⟨_, _, (writes_iff_dirsBy hne₁ hfiles hlists).mpr rfl,
    (writes_iff_dirsBy hne₂ hfiles₂ hlists₂).mpr rfl⟩, ?_⟩
  intro recs₁ recs₂ h₁ h₂
  obtain rfl := (writes_iff_dirsBy hne₁ hfiles hlists).mp h₁
  obtain rfl := (writes_iff_dirsBy hne₂ hfiles₂ hlists₂).mp h₂
  refine ⟨rfl, rfl, ?_⟩
  intro r hr
  obtain ⟨cs, -, hr⟩ := List.mem_flatMap.mp hr
  exact exists_path_eq_slash_cons hr

end Same

theorem catalog_eq_of_sameFiles_slash :
    ∃ recs₁ recs₂, Writes (treeHost [ch 'r'] smallTree noFailure) [ch 'r'] recs₁ ∧
      Writes (treeHost [ch 'r'] smallTree noFailure) [ch 'r', slash] recs₂ ∧
      catalogFile recs₁ = catalogFile recs₂ := by
  have hsame : SameFiles (treeHost [ch 'r'] smallTree noFailure) [ch 'r']
      (treeHost [ch 'r'] smallTree noFailure) [ch 'r', slash] := by
    refine ⟨fun r _ => ?_, fun r _ => ?_, fun r _ => ?_⟩
    · simp [treeHost, components_slash_cons]
    · simp [treeHost, components_slash_cons]
    · have hdir : (treeHost [ch 'r'] smallTree noFailure).readdir ([ch 'r'] ++ r) =
          (treeHost [ch 'r'] smallTree noFailure).readdir ([ch 'r', slash] ++ r) := by
        simp [treeHost, components_slash_cons]
      rw [hdir]
      exact sameEntries_refl _
  have hshows := treeHost_shows [ch 'r'] smallTree noFailure
  obtain ⟨⟨recs₁, recs₂, h₁, h₂⟩, heq⟩ := catalog_eq_of_sameFiles (List.cons_ne_nil _ _)
    (List.cons_ne_nil _ _) hshows.files hshows.lists hsame
  exact ⟨recs₁, recs₂, h₁, h₂, (heq recs₁ recs₂ h₁ h₂).2.1⟩

end CatalogFS
