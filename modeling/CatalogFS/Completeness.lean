import CatalogFS.Listing
import CatalogFS.TreeHost

namespace CatalogFS

open CLib

variable {T : Tree} {fails : List FileName → Bool}

/-- The directories that are reached through directories whose `scandir` succeeds. -/
inductive Tree.Reached (T : Tree) (fails : List FileName → Bool) : List FileName → Prop
  | root : T.Reached fails []
  | step {cs : List FileName} {c : FileName} : T.Reached fails cs → fails cs = false →
      T.IsDir (cs ++ [c]) → T.Reached fails (cs ++ [c])

theorem Tree.Reached.isDir {cs : List FileName} (h : T.Reached fails cs) : T.IsDir cs := by
  cases h with
  | root => exact T.isDir_nil
  | step _ _ h => exact h

theorem reached_of_mem_level (i : ℕ) :
    ∀ cs ∈ Worklist.level (T.subdirs fails) [[]] i, T.Reached fails cs := by
  refine Worklist.level_induction (P := fun _ cs => T.Reached fails cs) ?_ ?_ i
  · intro cs hcs
    rw [List.mem_singleton.mp hcs]
    exact .root
  · intro i cs hcs ds hds
    obtain ⟨-, hf, c, rfl, hdir⟩ := mem_subdirs.mp hds
    exact hcs.step hf hdir

theorem mem_level_of_reached {cs : List FileName} (h : T.Reached fails cs) :
    cs ∈ Worklist.level (T.subdirs fails) [[]] cs.length := by
  induction h with
  | root => exact List.mem_singleton_self _
  | @step cs c hcs hf hdir ih =>
    rw [List.length_append, List.length_singleton, Worklist.level]
    exact List.mem_flatMap.mpr ⟨cs, ih, mem_subdirs.mpr ⟨hcs.isDir, hf, c, rfl, hdir⟩⟩

/-- The listing visits exactly the directories that are reached. -/
theorem mem_dirs_iff {cs : List FileName} : cs ∈ T.dirs fails ↔ T.Reached fails cs := by
  constructor
  · intro h
    obtain ⟨i, -, hi⟩ := List.mem_flatMap.mp h
    exact reached_of_mem_level i cs hi
  · intro h
    obtain ⟨a, ch, hget⟩ := h.isDir
    exact List.mem_flatMap.mpr ⟨cs.length, List.mem_range.mpr (Node.length_lt_sizeOf hget),
      mem_level_of_reached h⟩

theorem isDir_of_get_concat {cs : List FileName} {c : FileName} {node : Node}
    (h : T.get (cs ++ [c]) = some node) : T.IsDir cs := by
  rw [Tree.get, Node.get_append, ← Tree.get] at h
  obtain ⟨m, hm, hmc⟩ := Option.bind_eq_some_iff.mp h
  cases m with
  | leaf t b => cases hmc
  | link b t => cases hmc
  | dir b ch => exact ⟨b, ch, hm⟩

theorem reached_of_isDir {cs : List FileName} (h : T.IsDir cs) : T.Reached noFailure cs := by
  induction cs using List.reverseRecOn with
  | nil => exact .root
  | append_singleton cs c ih =>
    obtain ⟨a, ch, hget⟩ := h
    exact (ih (isDir_of_get_concat hget)).step rfl ⟨a, ch, hget⟩

/-- The records of a directory carry its path and a name without slashes, empty for its own. -/
theorem mem_block_iff {cs : List FileName} {a : Attr} {ch : List (FileName × Node)}
    (h : T.get cs = some (.dir a ch)) {r : Record} :
    r ∈ T.block fails cs ↔
      r = nodeRecord (dirPath cs) (.dir a ch) ∨
        fails cs = false ∧ ∃ c node, T.get (cs ++ [c]) = some node ∧
          r = nodeRecord (dirPath cs ++ c.val) node := by
  simp only [Tree.block, h, List.mem_cons]
  apply or_congr_right
  cases hf : fails cs with
  | true => simp
  | false =>
    simp only [Bool.false_eq_true, if_false, List.mem_map, true_and]
    constructor
    · rintro ⟨e, he, rfl⟩
      exact ⟨e.1, e.2, (mem_children_iff h e).mp (mem_byName.mp he), rfl⟩
    · rintro ⟨c, node, hget, rfl⟩
      exact ⟨(c, node), mem_byName.mpr ((mem_children_iff h (c, node)).mpr hget), rfl⟩

theorem exists_of_mem_block {cs : List FileName} {r : Record} (hr : r ∈ T.block fails cs) :
    ∃ n, slash ∉ n ∧ r.path = dirPath cs ++ n ∧ r.depth = cs.length + 1 := by
  have hdir : T.IsDir cs := by
    unfold Tree.block at hr
    split at hr
    · rename_i a ch h
      exact ⟨a, ch, h⟩
    · simp at hr
  obtain ⟨a, ch, h⟩ := hdir
  rcases (mem_block_iff h).mp hr with rfl | ⟨-, c, node, -, rfl⟩
  · exact ⟨[], by simp, by simp, findDepth_dirPath cs⟩
  · exact ⟨c.val, c.slash_notMem, rfl, findDepth_dirPath_append cs c.slash_notMem⟩

theorem pairwise_block (cs : List FileName) :
    (T.block fails cs).Pairwise fun r s => r.path < s.path := by
  unfold Tree.block
  split
  · rename_i a ch h
    refine List.pairwise_cons.mpr ⟨fun r hr => ?_, ?_⟩
    · split_ifs at hr
      · simp at hr
      · obtain ⟨e, -, rfl⟩ := List.mem_map.mp hr
        exact lt_append_of_ne_nil _ e.1.ne_nil
    · split_ifs
      · exact List.Pairwise.nil
      · refine List.pairwise_map.mpr ((pairwise_byName (T.distinct cs a ch h)).imp fun hab => ?_)
        exact (append_lt_append_left_iff _).mpr hab
  · exact List.Pairwise.nil

theorem nodup_level (i : ℕ) : (Worklist.level (T.subdirs fails) [[]] i).Nodup := by
  refine Worklist.pairwise_level (P := fun _ _ => True) (fun _ _ _ => trivial)
    (List.pairwise_singleton _ _) ?_ ?_ i
  · -- the subdirectories of one directory have distinct names
    intro i cs _
    unfold Tree.subdirs
    split
    · rename_i a ch h
      split_ifs
      · exact List.Pairwise.nil
      · refine List.pairwise_map.mpr
          (((pairwise_byName (T.distinct cs a ch h)).filter _).imp fun hab heq => ?_)
        have : [_] = [_] := List.append_cancel_left heq
        exact hab.ne (congrArg FileName.val (List.singleton_inj.mp this))
    · exact List.Pairwise.nil
  · intro i cs ds _ _ hne x hx y hy hxy
    obtain ⟨-, -, c, rfl, -⟩ := mem_subdirs.mp hx
    obtain ⟨-, -, d, rfl, -⟩ := mem_subdirs.mp hy
    exact hne (List.append_inj_left' hxy rfl)

/-- In the listing a directory comes before another one of the same depth or a deeper one. -/
theorem pairwise_dirs : (T.dirs fails).Pairwise fun cs ds =>
    cs.length ≤ ds.length ∧ cs ≠ ds := by
  refine List.pairwise_flatMap.mpr ⟨fun i _ => ?_, ?_⟩
  · refine (nodup_level i).imp_of_mem fun {cs ds} hcs hds hne => ⟨?_, hne⟩
    rw [(level_isDir T fails i cs hcs).2, (level_isDir T fails i ds hds).2]
  · apply List.pairwise_lt_range.imp
    intro i j hij cs hcs ds hds
    have h1 := (level_isDir T fails i cs hcs).2
    have h2 := (level_isDir T fails j ds hds).2
    exact ⟨by omega, fun h => by rw [h] at h1; omega⟩

theorem pairwise_depth : (T.records fails).Pairwise fun r s => r.depth ≤ s.depth := by
  refine List.pairwise_flatMap.mpr ⟨fun cs _ => ?_, pairwise_dirs.imp fun {cs ds} h r hr s hs => ?_⟩
  · refine (pairwise_block cs).imp_of_mem fun {r s} hr hs _ => ?_
    obtain ⟨-, -, -, h1⟩ := exists_of_mem_block hr
    obtain ⟨-, -, -, h2⟩ := exists_of_mem_block hs
    rw [h1, h2]
  · obtain ⟨-, -, -, h1⟩ := exists_of_mem_block hr
    obtain ⟨-, -, -, h2⟩ := exists_of_mem_block hs
    have := h.1
    omega

theorem pairwise_path_ne : (T.records fails).Pairwise fun r s => r.path ≠ s.path := by
  refine List.pairwise_flatMap.mpr ⟨fun cs _ => ?_, pairwise_dirs.imp fun {cs ds} h r hr s hs => ?_⟩
  · exact (pairwise_block cs).imp fun h => h.ne
  · obtain ⟨m, hm, h1, -⟩ := exists_of_mem_block hr
    obtain ⟨n, hn, h2, -⟩ := exists_of_mem_block hs
    intro heq
    rw [h1, h2] at heq
    exact h.2 (dirPath_append_inj hm hn heq).1

theorem mem_records_iff {r : Record} :
    r ∈ T.records fails ↔
      (∃ cs a ch, T.Reached fails cs ∧ T.get cs = some (.dir a ch) ∧
        r = nodeRecord (dirPath cs) (.dir a ch)) ∨
      ∃ cs c node, T.Reached fails cs ∧ fails cs = false ∧ T.get (cs ++ [c]) = some node ∧
        r = nodeRecord (dirPath cs ++ c.val) node := by
  rw [Tree.records, List.mem_flatMap]
  constructor
  · rintro ⟨cs, hcs, hr⟩
    have hreach := mem_dirs_iff.mp hcs
    obtain ⟨a, ch, h⟩ := hreach.isDir
    rcases (mem_block_iff h).mp hr with rfl | ⟨hf, c, node, hget, rfl⟩
    · exact .inl ⟨cs, a, ch, hreach, h, rfl⟩
    · exact .inr ⟨cs, c, node, hreach, hf, hget, rfl⟩
  · rintro (⟨cs, a, ch, hreach, h, rfl⟩ | ⟨cs, c, node, hreach, hf, hget, rfl⟩)
    · exact ⟨cs, mem_dirs_iff.mpr hreach, (mem_block_iff h).mpr (.inl rfl)⟩
    · obtain ⟨a, ch, h⟩ := hreach.isDir
      exact ⟨cs, mem_dirs_iff.mpr hreach, (mem_block_iff h).mpr (.inr ⟨hf, c, node, hget, rfl⟩)⟩

theorem mem_block_of_path {cs : List FileName} {r : Record} (hr : r ∈ T.records fails) {n : Bytes}
    (hn : slash ∉ n) (hp : r.path = dirPath cs ++ n) : cs ∈ T.dirs fails ∧ r ∈ T.block fails cs := by
  obtain ⟨ds, hds, hr⟩ := List.mem_flatMap.mp hr
  obtain ⟨m, hm, h1, -⟩ := exists_of_mem_block hr
  obtain ⟨rfl, -⟩ := dirPath_append_inj hm hn (h1.symm.trans hp)
  exact ⟨hds, hr⟩

/-- A directory's records are contiguous, its own first and those of its entries by path. -/
theorem exists_block {cs : List FileName} (h : T.Reached fails cs) :
    ∃ before own entries after, T.records fails = before ++ (own :: entries) ++ after ∧
      own.path = dirPath cs ∧ (entries.map Record.path).Pairwise (· < ·) ∧
      ∀ r, r ∈ entries ↔ r ∈ T.records fails ∧ ∃ n, n ≠ [] ∧ slash ∉ n ∧ r.path = dirPath cs ++ n := by
  obtain ⟨a, ch, hget⟩ := h.isDir
  obtain ⟨l₁, l₂, hl⟩ := List.append_of_mem (mem_dirs_iff.mpr h)
  obtain ⟨own, entries, hblock, hown⟩ : ∃ own entries, T.block fails cs = own :: entries ∧
      own.path = dirPath cs := by
    simp only [Tree.block, hget]
    exact ⟨_, _, rfl, rfl⟩
  have hsorted : (T.block fails cs).Pairwise fun r s => r.path < s.path := pairwise_block cs
  rw [hblock] at hsorted
  have hrecords : T.records fails =
      l₁.flatMap (T.block fails) ++ (own :: entries) ++ l₂.flatMap (T.block fails) := by
    rw [Tree.records, hl, List.flatMap_append, List.flatMap_cons, hblock, List.append_assoc]
  refine ⟨_, own, entries, _, hrecords, hown,
    List.pairwise_map.mpr (List.pairwise_cons.mp hsorted).2, fun r => ⟨fun hr => ?_, ?_⟩⟩
  · have hmem : r ∈ T.block fails cs := hblock ▸ List.mem_cons_of_mem own hr
    obtain ⟨n, hn, hp, -⟩ := exists_of_mem_block hmem
    refine ⟨List.mem_flatMap.mpr ⟨cs, mem_dirs_iff.mpr h, hmem⟩, n, ?_, hn, hp⟩
    rintro rfl
    have hlt := (List.pairwise_cons.mp hsorted).1 r hr
    rw [hown, hp, List.append_nil] at hlt
    exact lt_irrefl _ hlt
  · rintro ⟨hr, n, hne, hn, hp⟩
    have hmem := (mem_block_of_path hr hn hp).2
    rw [hblock] at hmem
    rcases List.mem_cons.mp hmem with rfl | hmem
    · have hnil : n = [] := List.append_right_eq_self.mp (hp.symm.trans hown)
      exact absurd hnil hne
    · exact hmem

/-- A record whose path ends in a slash is the own record of its directory. -/
theorem eq_pathString_of_slash {cs : List FileName} {r : Record} (hr : r ∈ T.block fails cs)
    {p : Bytes} (h : r.path = p ++ [slash]) : p = pathString cs := by
  obtain ⟨n, hn, hpath, -⟩ := exists_of_mem_block hr
  rw [h] at hpath
  rcases List.eq_nil_or_concat n with rfl | ⟨m, b, rfl⟩
  · rw [List.append_nil, dirPath] at hpath
    exact List.append_cancel_right hpath
  · rw [List.concat_eq_append, ← List.append_assoc] at hpath
    have hb : [slash] = [b] := List.append_inj_right' hpath rfl
    exact absurd (by simp [List.singleton_inj.mp hb]) hn

theorem lt_of_depth_lt {i j : ℕ} (hi : i < (T.records fails).length)
    (hj : j < (T.records fails).length)
    (h : (T.records fails)[j].depth < (T.records fails)[i].depth) : j < i := by
  by_contra hij
  rcases Nat.lt_or_eq_of_le (not_lt.mp hij) with hij | rfl
  · have hle := List.pairwise_iff_getElem.mp pairwise_depth i j hi hj hij
    omega
  · omega

/-- Before a directory's own record there is the record of the directory as an entry. -/
theorem exists_entry_before {i : ℕ} (hi : i < (T.records fails).length) {p : Bytes} (hp : p ≠ [])
    (h : (T.records fails)[i].path = p ++ [slash]) :
    ∃ j, ∃ hj : j < i, (T.records fails)[j].path = p ∧ (T.records fails)[j].c = ch 'd' := by
  obtain ⟨cs, hcs, hr⟩ := List.mem_flatMap.mp (List.getElem_mem hi)
  obtain ⟨-, -, -, hdepth⟩ := exists_of_mem_block hr
  have hpcs := eq_pathString_of_slash hr h
  cases mem_dirs_iff.mp hcs with
  | root => exact absurd hpcs hp
  | @step cs c hreach hf hdir =>
    obtain ⟨a, ch, hget⟩ := hdir
    have hmem : nodeRecord (dirPath cs ++ c.val) (.dir a ch) ∈ T.records fails :=
      mem_records_iff.mpr (.inr ⟨cs, c, _, hreach, hf, hget, rfl⟩)
    obtain ⟨j, hj, hjr⟩ := List.getElem_of_mem hmem
    have hjd : (T.records fails)[j].depth = cs.length + 1 := by
      rw [hjr]
      exact findDepth_dirPath_append cs c.slash_notMem
    have hji : j < i := by
      apply lt_of_depth_lt hi hj
      rw [hdepth, hjd, List.length_append, List.length_singleton]
      push_cast
      omega
    refine ⟨j, hji, ?_, ?_⟩
    · rw [hjr, hpcs, pathString_concat]
      rfl
    · rw [hjr]
      rfl

/-- Nothing is listed behind a symbolic link. -/
theorem not_prefix_of_link {cs : List FileName} {a : Attr} {t : Target}
    (h : T.get cs = some (.link a t)) {r : Record} (hr : r ∈ T.records fails) :
    ¬ dirPath cs <+: r.path := by
  intro hpre
  obtain ⟨ds, hds, hr⟩ := List.mem_flatMap.mp hr
  obtain ⟨n, hn, hp, -⟩ := exists_of_mem_block hr
  obtain ⟨es, rfl⟩ := (dirPath_prefix_iff hn).mp (hp ▸ hpre)
  obtain ⟨a', ch', hget⟩ := mem_dirs hds
  rw [Tree.get, Node.get_append, ← Tree.get, h, Option.bind_some] at hget
  cases es with
  | nil => cases hget
  | cons e es => cases hget

/-- The records of the directories that are reached and of their entries, each once, in the order of
the levels. -/
structure CompleteListing (T : Tree) (fails : List FileName → Bool) (recs : List Record) : Prop where
  nodup : (recs.map Record.path).Nodup
  mem_iff : ∀ r, r ∈ recs ↔
    (∃ cs a ch, T.Reached fails cs ∧ T.get cs = some (.dir a ch) ∧
      r = nodeRecord (dirPath cs) (.dir a ch)) ∨
    ∃ cs c node, T.Reached fails cs ∧ fails cs = false ∧ T.get (cs ++ [c]) = some node ∧
      r = nodeRecord (dirPath cs ++ c.val) node
  depth_eq : ∀ r ∈ recs, r.depth = r.path.count slash
  depth_le : recs.Pairwise fun r s => r.depth ≤ s.depth
  contiguous : ∀ cs, T.Reached fails cs → ∃ before own entries after,
    recs = before ++ (own :: entries) ++ after ∧ own.path = dirPath cs ∧
    (entries.map Record.path).Pairwise (· < ·) ∧
    ∀ r, r ∈ entries ↔ r ∈ recs ∧ ∃ n, n ≠ [] ∧ slash ∉ n ∧ r.path = dirPath cs ++ n
  entry_before : ∀ i, ∀ hi : i < recs.length, ∀ p, p ≠ [] → recs[i].path = p ++ [slash] →
    ∃ j, ∃ hj : j < i, recs[j].path = p ∧ recs[j].c = ch 'd'
  link : ∀ cs a t, T.get cs = some (.link a t) → ∀ r ∈ recs, ¬ dirPath cs <+: r.path

theorem completeListing_records (T : Tree) (fails : List FileName → Bool) :
    CompleteListing T fails (T.records fails) where
  nodup := List.pairwise_map.mpr pairwise_path_ne
  mem_iff _ := mem_records_iff
  depth_eq := by
    intro r hr
    obtain ⟨cs, -, hr⟩ := List.mem_flatMap.mp hr
    obtain ⟨n, hn, hp, hd⟩ := exists_of_mem_block hr
    rw [hd, ← findDepth_dirPath_append cs hn, hp]
    apply findDepth_of_head?
    rw [List.head?_append, head?_dirPath]
    rfl
  depth_le := pairwise_depth
  contiguous _ h := exists_block h
  entry_before _ hi _ hp h := exists_entry_before hi hp h
  link _ _ _ h _ hr := not_prefix_of_link h hr

end CatalogFS
