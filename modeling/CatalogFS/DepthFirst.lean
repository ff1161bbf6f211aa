import CatalogFS.Messages

namespace CatalogFS

open CLib

variable {T : Tree} (fails : List FileName → Bool)

/-- The listing of everything below a directory, by recursion: its own record, those of its entries,
and then the listings of its subdirectories. -/
def Node.listing : List FileName → Node → List Record
  | cs, .dir a ch =>
    nodeRecord (dirPath cs) (.dir a ch) ::
      if fails cs then []
      else
        (byName ch).map (fun e => nodeRecord (dirPath cs ++ e.1.val) e.2) ++
          (byName ch).attach.flatMap fun ⟨e, _⟩ => Node.listing (cs ++ [e.1]) e.2
  | _, _ => []
termination_by _ n => sizeOf n
decreasing_by
  rename_i he
  have hmem := List.sizeOf_lt_of_mem (mem_byName.mp he)
  obtain ⟨c, n⟩ := e
  simp only [Prod.mk.sizeOf_spec] at hmem
  simp only [Node.dir.sizeOf_spec]
  omega

theorem Node.listing_of_not_isDir {n : Node} (h : n.isDir = false) (cs : List FileName) :
    n.listing fails cs = [] := by
  cases n with
  | leaf t a => simp [Node.listing]
  | link a t => simp [Node.listing]
  | dir a ch => cases h

theorem Node.listing_dir (a : Attr) (ch : List (FileName × Node)) (cs : List FileName) :
    (Node.dir a ch).listing fails cs = nodeRecord (dirPath cs) (.dir a ch) ::
      if fails cs then []
      else
        (byName ch).map (fun e => nodeRecord (dirPath cs ++ e.1.val) e.2) ++
          (byName ch).flatMap fun e => e.2.listing fails (cs ++ [e.1]) := by
  rw [Node.listing]
  congr 3
  conv_rhs => rw [← List.attach_map_subtype_val (byName ch), List.flatMap_map]

variable {fails}

theorem flatMap_filter_of_nil {α β : Type} {p : α → Bool} {f : α → List β} {l : List α}
    (h : ∀ a ∈ l, p a = false → f a = []) : (l.filter p).flatMap f = l.flatMap f := by
  induction l with
  | nil => rfl
  | cons a l ih =>
    have hl := ih fun b hb => h b (List.mem_cons_of_mem a hb)
    cases hp : p a with
    | true => rw [List.filter_cons_of_pos hp, List.flatMap_cons, List.flatMap_cons, hl]
    | false =>
      rw [List.filter_cons_of_neg (by simp [hp]), List.flatMap_cons, h a List.mem_cons_self hp, hl,
        List.nil_append]

theorem listing_eq_preorder (h : ℕ) {cs : List FileName} {a : Attr} {ch : List (FileName × Node)}
    (hget : T.get cs = some (.dir a ch)) (hsize : sizeOf (Node.dir a ch) ≤ h) :
    (Node.dir a ch).listing fails cs =
      (Worklist.preorder (T.subdirs fails) h cs).flatMap (T.block fails) := by
  induction h generalizing cs a ch with
  | zero => simp at hsize
  | succ h ih =>
    have hblock : T.block fails cs = nodeRecord (dirPath cs) (.dir a ch) ::
        if fails cs then [] else (byName ch).map fun e => nodeRecord (dirPath cs ++ e.1.val) e.2 := by
      simp only [Tree.block, hget]
    have hsub : T.subdirs fails cs = if fails cs then []
        else ((byName ch).filter fun e => e.2.isDir).map fun e => cs ++ [e.1] := by
      simp only [Tree.subdirs, hget]
    rw [Node.listing_dir, Worklist.preorder, List.flatMap_cons, List.flatMap_assoc, hblock, hsub]
    cases hf : fails cs with
    | true => simp
    | false =>
      simp only [Bool.false_eq_true, if_false, List.cons_append, List.flatMap_map]
      congr 2
      rw [← flatMap_filter_of_nil (p := fun e => e.2.isDir) fun e _ he =>
        Node.listing_of_not_isDir fails he _]
      refine List.flatMap_congr fun e he => ?_
      obtain ⟨hmem, hdir⟩ := List.mem_filter.mp he
      obtain ⟨c, n⟩ := e
      cases n with
      | leaf t b => cases hdir
      | link b t => cases hdir
      | dir b ch' =>
        have hchild := mem_byName.mp hmem
        refine ih ((mem_children_iff hget _).mp hchild) ?_
        have hlt := List.sizeOf_lt_of_mem hchild
        simp only [Prod.mk.sizeOf_spec, Node.dir.sizeOf_spec] at hlt hsize ⊢
        omega

theorem depth_of_mem_block {cs : List FileName} {r : Record} (h : r ∈ T.block fails cs) :
    r.depth = cs.length + 1 := by
  obtain ⟨n, -, -, hd⟩ := exists_of_mem_block h
  exact hd

theorem filter_flatMap_block (m : List (List FileName)) (k : ℤ) :
    (m.flatMap (T.block fails)).filter (fun r => r.depth = k) =
      (m.filter fun cs => (cs.length : ℤ) + 1 = k).flatMap (T.block fails) := by
  induction m with
  | nil => rfl
  | cons cs m ih =>
    rw [List.flatMap_cons, List.filter_append, ih]
    by_cases hk : (cs.length : ℤ) + 1 = k
    · rw [List.filter_cons_of_pos (by simpa using hk), List.flatMap_cons,
        List.filter_eq_self.mpr fun r hr => by simpa [depth_of_mem_block hr] using hk]
    · rw [List.filter_cons_of_neg (by simpa using hk),
        List.filter_eq_nil_iff.mpr fun r hr => by simpa [depth_of_mem_block hr] using hk,
        List.nil_append]

theorem flatMap_block_mergeSort (l : List (List FileName)) :
    (l.mergeSort fun cs ds => cs.length ≤ ds.length).flatMap (T.block fails) =
      (l.flatMap (T.block fails)).mergeSort fun r s => r.depth ≤ s.depth := by
  refine Worklist.eq_of_filter_rank Record.depth ?_
    (Worklist.pairwise_mergeSort_rank _ _) fun k => ?_
  · have hsorted := Worklist.pairwise_mergeSort_rank List.length l
    refine List.pairwise_flatMap.mpr ⟨fun cs _ => ?_, hsorted.imp fun hle r hr s hs => ?_⟩
    · refine List.pairwise_of_forall_mem_list fun r hr s hs => ?_
      rw [depth_of_mem_block hr, depth_of_mem_block hs]
    · rw [depth_of_mem_block hr, depth_of_mem_block hs]
      omega
  · have hlength : ∀ m : List (List FileName), (m.filter fun cs => (cs.length : ℤ) + 1 = k) =
        if 0 < k then m.filter fun cs => cs.length = (k - 1).toNat else [] := by
      intro m
      split_ifs with hk
      · refine List.filter_congr fun cs _ => decide_eq_decide.mpr ?_
        omega
      · refine List.filter_eq_nil_iff.mpr fun cs _ => ?_
        simp only [decide_eq_true_eq]
        omega
    rw [Worklist.filter_mergeSort_rank, filter_flatMap_block, filter_flatMap_block, hlength, hlength,
      Worklist.filter_mergeSort_rank]

theorem records_eq_mergeSort (T : Tree) (fails : List FileName → Bool) :
    T.records fails = (T.root.listing fails []).mergeSort fun r s => r.depth ≤ s.depth := by
  have hrank : ∀ cs, ∀ ds ∈ T.subdirs fails cs, ds.length = cs.length + 1 := by
    intro cs ds hds
    obtain ⟨-, -, c, rfl, -⟩ := mem_subdirs.mp hds
    simp
  have hroot : T.get [] = some (.dir T.attr T.children) := Node.get_nil _
  rw [Tree.records, Tree.dirs, Worklist.order_eq_mergeSort hrank, flatMap_block_mergeSort, Tree.root,
    listing_eq_preorder _ hroot le_rfl]

/-- The breadth-first run ends having written the recursive walk of the tree, stably sorted by the
depth field, unless a directory that cannot be scanned has a message that cannot be printed. -/
theorem writes_iff_mergeSort {host : Host} {inputDir : Bytes} (hne : inputDir ≠ [])
    (hshows : host.Shows inputDir T fails) {recs : List Record} :
    WritesReporting host inputDir recs ↔
      recs = ((T.root.listing fails []).mergeSort fun r s => r.depth ≤ s.depth) ∧
        ∀ cs, T.Reached fails cs → fails cs = true →
          Reportable (scandirError ++ (inputDir ++ pathString cs)) := by
  rw [writesReporting_iff hne hshows, records_eq_mergeSort]
  rfl

theorem writes_iff_mergeSort_smallTree :
    WritesReporting (treeHost [ch 'r'] smallTree noFailure) [ch 'r']
      ((smallTree.root.listing noFailure []).mergeSort fun r s => r.depth ≤ s.depth) :=
  (writes_iff_mergeSort (by decide) (treeHost_shows _ _ _)).mpr ⟨rfl, by rintro cs - ⟨⟩⟩

end CatalogFS
