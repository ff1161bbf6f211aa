import CatalogFS.Completeness
import CatalogFS.Search

namespace CatalogFS

open CLib

variable {T : Tree}

/-- No directory's name continues a sibling directory's with a byte below the slash. -/
def Tree.SlashOrdered (T : Tree) : Prop :=
  ∀ cs c d, T.IsDir (cs ++ [c]) → T.IsDir (cs ++ [d]) →
    ∀ b s, d.val = c.val ++ b :: s → ¬ b < slash

def Record.key (r : Record) : ℤ × Bytes := (r.depth, r.path)

/-- Two names in order stay in order with a slash behind each, unless the first is the beginning
of the second and a byte below the slash follows. -/
theorem append_slash_lt_append_slash {m n : Bytes} (hn : slash ∉ n) (hlt : m < n) :
    m ++ [slash] < n ++ [slash] ↔ ∀ b s, n = m ++ b :: s → ¬ b < slash := by
  by_cases hp : m <+: n
  · obtain ⟨t, rfl⟩ := hp
    cases t with
    | nil => simp at hlt
    | cons b s =>
      have hb : b ≠ slash := fun h => hn (by simp [h])
      have hcons : m ++ [slash] < (m ++ b :: s) ++ [slash] ↔ ¬ b < slash := by
        rw [List.append_assoc, append_lt_append_left_iff, List.cons_append, List.cons_lt_cons_iff,
          not_lt]
        exact ⟨fun h => h.elim le_of_lt fun h => h.1.le, fun h => .inl (lt_of_le_of_ne h hb.symm)⟩
      rw [hcons]
      constructor
      · intro h b' s' heq
        obtain ⟨rfl, -⟩ := List.cons.inj (List.append_cancel_left heq)
        exact h
      · intro h
        exact h b s rfl
  · apply iff_of_true (append_lt_append_of_lt hlt hp _ _)
    intro b s heq
    exact absurd (heq ▸ List.prefix_append _ _) hp

theorem dirPath_concat (cs : List FileName) (c : FileName) :
    dirPath (cs ++ [c]) = dirPath cs ++ (c.val ++ [slash]) := by
  rw [dirPath, pathString_concat, List.append_assoc]

/-- Different directories of one level: the order of their paths is that of everything below. -/
theorem dirPath_append_lt {cs ds : List FileName} (hlen : cs.length = ds.length) (hne : cs ≠ ds)
    (hlt : dirPath cs < dirPath ds) (u v : Bytes) : dirPath cs ++ u < dirPath ds ++ v := by
  refine append_lt_append_of_lt hlt (fun hp => hne ?_) u v
  rw [← List.append_nil (dirPath ds)] at hp
  exact ((dirPath_prefix_iff (by simp)).mp hp).eq_of_length hlen

theorem pairwise_subdirs (cs : List FileName) :
    (T.subdirs noFailure cs).Pairwise fun x y =>
      ∃ c d, x = cs ++ [c] ∧ y = cs ++ [d] ∧ c.val < d.val := by
  unfold Tree.subdirs
  split
  · rename_i a ch h
    simp only [noFailure, Bool.false_eq_true, if_false]
    refine List.pairwise_map.mpr (((pairwise_byName (T.distinct cs a ch h)).filter _).imp ?_)
    exact fun {x y} hxy => ⟨x.1, y.1, rfl, rfl, hxy⟩
  · exact List.Pairwise.nil

/-- Where sibling names agree with the slash, the paths of the directories of a level ascend. -/
theorem SlashOrdered.pairwise_level (h : T.SlashOrdered) (i : ℕ) :
    (Worklist.level (T.subdirs noFailure) [[]] i).Pairwise fun cs ds =>
      cs ≠ ds ∧ dirPath cs < dirPath ds := by
  refine Worklist.pairwise_level (P := fun i cs => cs.length = i)
    (fun i cs hcs => (level_isDir T noFailure i cs hcs).2) (List.pairwise_singleton _ _) ?_ ?_ i
  · -- the subdirectories of one directory
    intro i cs _
    apply (pairwise_subdirs cs).imp_of_mem
    intro x y hx hy hxy
    obtain ⟨c, d, rfl, rfl, hcd⟩ := hxy
    obtain ⟨-, -, -, -, hxdir⟩ := mem_subdirs.mp hx
    obtain ⟨-, -, -, -, hydir⟩ := mem_subdirs.mp hy
    have hlt := (append_slash_lt_append_slash d.slash_notMem hcd).mpr (h cs c d hxdir hydir)
    refine ⟨fun heq => ?_, ?_⟩
    · have hval := congrArg FileName.val (List.singleton_inj.mp (List.append_cancel_left heq))
      exact hcd.ne hval
    · rw [dirPath_concat, dirPath_concat]
      exact (append_lt_append_left_iff _).mpr hlt
  · -- subdirectories of different directories
    rintro i cs ds hcs hds ⟨hne, hlt⟩ x hx y hy
    obtain ⟨-, -, c, rfl, -⟩ := mem_subdirs.mp hx
    obtain ⟨-, -, d, rfl, -⟩ := mem_subdirs.mp hy
    refine ⟨fun heq => hne (List.append_inj_left' heq rfl), ?_⟩
    rw [dirPath_concat, dirPath_concat]
    exact dirPath_append_lt (hcs.trans hds.symm) hne hlt _ _

theorem rel_or_rel_of_pairwise {α : Type} {R : α → α → Prop} {l : List α} (h : l.Pairwise R) {a b : α}
    (ha : a ∈ l) (hb : b ∈ l) (hne : a ≠ b) : R a b ∨ R b a := by
  have : Std.Symm fun x y => R x y ∨ R y x := ⟨fun _ _ h => h.symm⟩
  exact (h.imp (S := fun x y => R x y ∨ R y x) Or.inl).forall ha hb hne

/-- Two sibling names that disagree with the slash put their directories in descending order. -/
theorem slashOrdered_of_pairwise_level
    (h : ∀ i, (Worklist.level (T.subdirs noFailure) [[]] i).Pairwise fun cs ds =>
      dirPath cs < dirPath ds) : T.SlashOrdered := by
  rintro cs c d hc hd b s hds hb
  have hcd : c.val < d.val := hds ▸ lt_append_of_ne_nil c.val (by simp)
  have hcs : T.IsDir cs := hc.elim fun a ⟨ch, h⟩ => isDir_of_get_concat h
  have hlevel := mem_level_of_reached (reached_of_isDir hcs)
  have hmem : ∀ x, T.IsDir (cs ++ [x]) → cs ++ [x] ∈ T.subdirs noFailure cs :=
    fun x hx => mem_subdirs.mpr ⟨hcs, rfl, x, rfl, hx⟩
  have hne : cs ++ [c] ≠ cs ++ [d] := fun heq =>
    hcd.ne (congrArg FileName.val (List.singleton_inj.mp (List.append_cancel_left heq)))
  -- one of the two directories comes first on the level below; their names say which
  have hkids := (List.pairwise_flatMap.mp (h (cs.length + 1))).1 cs hlevel
  rcases rel_or_rel_of_pairwise (hkids.and (pairwise_subdirs cs)) (hmem c hc) (hmem d hd) hne with
    ⟨hlt, -⟩ | ⟨-, u, v, hu, hv, huv⟩
  · rw [dirPath_concat, dirPath_concat, append_lt_append_left_iff,
      append_slash_lt_append_slash d.slash_notMem hcd] at hlt
    exact hlt b s hds hb
  · obtain rfl := List.singleton_inj.mp (List.append_cancel_left hu)
    obtain rfl := List.singleton_inj.mp (List.append_cancel_left hv)
    exact lt_asymm hcd huv

theorem dirPath_mem_block {cs : List FileName} (h : T.IsDir cs) :
    ∃ r ∈ T.block noFailure cs, r.path = dirPath cs := by
  obtain ⟨a, ch, hget⟩ := h
  exact ⟨_, (mem_block_iff hget).mpr (.inl rfl), rfl⟩

def OwnRecords (i : ℕ) (r s : Record) : Prop :=
  ∃ cs ds, cs.length = i ∧ ds.length = i ∧ r.path = dirPath cs ∧ s.path = dirPath ds

/-- When the own records of one depth ascend, the paths of the directories do. -/
theorem pairwise_level_of_own {i : ℕ}
    (h : (T.records noFailure).Pairwise fun r s => OwnRecords i r s → r.path < s.path) :
    (Worklist.level (T.subdirs noFailure) [[]] i).Pairwise fun cs ds => dirPath cs < dirPath ds := by
  rw [Tree.records, List.pairwise_flatMap, Tree.dirs, Worklist.order, List.pairwise_flatMap] at h
  by_cases hi : i < sizeOf T.root
  · apply (h.2.1 i (List.mem_range.mpr hi)).imp_of_mem
    intro cs ds hcs hds hlt
    obtain ⟨hcdir, hclen⟩ := level_isDir T noFailure i cs hcs
    obtain ⟨hddir, hdlen⟩ := level_isDir T noFailure i ds hds
    obtain ⟨r, hr, hrp⟩ := dirPath_mem_block hcdir
    obtain ⟨s, hs, hsp⟩ := dirPath_mem_block hddir
    have hpath := hlt r hr s hs ⟨cs, ds, hclen, hdlen, hrp, hsp⟩
    rwa [hrp, hsp] at hpath
  · rw [Worklist.level_eq_nil_of_le _ (level_eq_nil T noFailure) (not_lt.mp hi)]
    exact List.Pairwise.nil

/-- When the paths of the directories of a level ascend, those of all records of its depth do. -/
theorem pairwise_path_of_level {i : ℕ}
    (h : (Worklist.level (T.subdirs noFailure) [[]] i).Pairwise fun cs ds =>
      dirPath cs < dirPath ds) :
    (T.records noFailure).Pairwise fun r s =>
      r.depth = (i : ℤ) + 1 → s.depth = (i : ℤ) + 1 → r.path < s.path := by
  have hdepth : ∀ {cs r}, r ∈ T.block noFailure cs → r.depth = i + 1 → cs.length = i := by
    intro cs r hr hri
    obtain ⟨-, -, -, hrd⟩ := exists_of_mem_block hr
    omega
  rw [Tree.records, List.pairwise_flatMap, Tree.dirs, Worklist.order, List.pairwise_flatMap]
  refine ⟨fun cs _ => (pairwise_block cs).imp fun hlt _ _ => hlt, fun j _ => ?_, ?_⟩
  · -- directories of one level
    by_cases hji : j = i
    · subst hji
      apply (h.and (nodup_level j)).imp_of_mem
      intro cs ds hcs hds hlt r hr s hs _ _
      have hclen := (level_isDir T noFailure j cs hcs).2
      have hdlen := (level_isDir T noFailure j ds hds).2
      obtain ⟨m, -, hrp, -⟩ := exists_of_mem_block hr
      obtain ⟨n, -, hsp, -⟩ := exists_of_mem_block hs
      rw [hrp, hsp]
      exact dirPath_append_lt (hclen.trans hdlen.symm) hlt.2 hlt.1 m n
    · refine List.pairwise_of_forall_mem_list fun cs hcs ds _ r hr s _ hri _ => ?_
      have hclen := (level_isDir T noFailure j cs hcs).2
      exact absurd (hclen.symm.trans (hdepth hr hri)) hji
  · -- directories of different levels
    apply List.pairwise_lt_range.imp
    intro j k hjk cs hcs ds hds r hr s hs hri hsi
    have hclen := (level_isDir T noFailure j cs hcs).2
    have hdlen := (level_isDir T noFailure k ds hds).2
    have hcs := hdepth hr hri
    have hds := hdepth hs hsi
    omega

theorem pairwise_keyLt_iff :
    ((T.records noFailure).map Record.key).Pairwise keyLt ↔
      ∀ i, (Worklist.level (T.subdirs noFailure) [[]] i).Pairwise fun cs ds =>
        dirPath cs < dirPath ds := by
  rw [List.pairwise_map]
  constructor
  · intro h i
    refine pairwise_level_of_own (h.imp_of_mem fun {r s} hr hs hlt => ?_)
    rintro ⟨cs, ds, hcs, hds, hrp, hsp⟩
    have hrp' : r.path = dirPath cs ++ [] := by rw [hrp, List.append_nil]
    have hsp' : s.path = dirPath ds ++ [] := by rw [hsp, List.append_nil]
    obtain ⟨-, hrb⟩ := mem_block_of_path hr List.not_mem_nil hrp'
    obtain ⟨-, hsb⟩ := mem_block_of_path hs List.not_mem_nil hsp'
    obtain ⟨-, -, -, hrd⟩ := exists_of_mem_block hrb
    obtain ⟨-, -, -, hsd⟩ := exists_of_mem_block hsb
    rcases hlt with hlt | ⟨-, hlt⟩
    · simp only [Record.key] at hlt
      omega
    · exact strcmp_eq_lt.mp hlt
  · intro h
    rw [List.pairwise_iff_getElem]
    intro j k hj hk hjk
    rcases (List.pairwise_iff_getElem.mp pairwise_depth j k hj hk hjk).lt_or_eq with hlt | heq
    · exact .inl hlt
    · obtain ⟨cs, -, hr⟩ := List.mem_flatMap.mp (List.getElem_mem hj)
      obtain ⟨-, -, -, hrd⟩ := exists_of_mem_block hr
      have hpath := List.pairwise_iff_getElem.mp (pairwise_path_of_level (h cs.length)) j k hj hk hjk
        hrd (heq ▸ hrd)
      exact .inr ⟨heq, strcmp_eq_lt.mpr hpath⟩

/-- The listing is in the order of the search exactly when sibling names agree with the slash. -/
theorem pairwise_keyLt_iff_slashOrdered :
    ((T.records noFailure).map Record.key).Pairwise keyLt ↔ T.SlashOrdered := by
  rw [pairwise_keyLt_iff]
  constructor
  · exact slashOrdered_of_pairwise_level
  · exact fun h i => (SlashOrdered.pairwise_level h i).imp fun hlt => hlt.2

end CatalogFS
