import CatalogFS.Buffers
import CatalogFS.Messages
import CatalogFS.MountedView

namespace CatalogFS

open CLib

variable {T : Tree} {fails : List FileName → Bool}

/-- A file with what lies below it, where the directories that cannot be read are empty. -/
def Node.readable (fails : List FileName → Bool) : List FileName → Node → Node
  | cs, .dir a ch =>
    .dir a (if fails cs then []
      else ch.attach.map fun ⟨e, _⟩ => (e.1, Node.readable fails (cs ++ [e.1]) e.2))
  | _, n => n
termination_by _ n => sizeOf n
decreasing_by
  rename_i he
  have hmem := List.sizeOf_lt_of_mem he
  obtain ⟨c, n⟩ := e
  simp only [Prod.mk.sizeOf_spec] at hmem
  simp only [Node.dir.sizeOf_spec]
  omega

theorem Node.readable_dir (a : Attr) (ch : List (FileName × Node)) (cs : List FileName) :
    (Node.dir a ch).readable fails cs = .dir a (if fails cs then []
      else ch.map fun e => (e.1, e.2.readable fails (cs ++ [e.1]))) := by
  rw [Node.readable]
  congr 2
  conv_rhs => rw [← List.attach_map_subtype_val ch, List.map_map]
  rfl

theorem Node.readable_of_not_isDir {n : Node} (h : n.isDir = false) (cs : List FileName) :
    n.readable fails cs = n := by
  cases n with
  | leaf t a => simp [Node.readable]
  | link a t => simp [Node.readable]
  | dir a ch => cases h

theorem Node.readable_facts (n : Node) (fails : List FileName → Bool) (cs : List FileName) :
    (n.readable fails cs).type = n.type ∧ (n.readable fails cs).attr = n.attr ∧
      (n.readable fails cs).target = n.target := by
  cases n with
  | leaf t a => simp [Node.readable]
  | link a t => simp [Node.readable]
  | dir a ch =>
    rw [Node.readable_dir]
    exact ⟨rfl, rfl, rfl⟩

theorem lookup_map_snd {α β γ : Type} [BEq α] [LawfulBEq α] (f : α → β → γ) (l : List (α × β)) (c : α) :
    (l.map fun e => (e.1, f e.1 e.2)).lookup c = (l.lookup c).map (f c) := by
  induction l with
  | nil => rfl
  | cons e l ih =>
    obtain ⟨d, b⟩ := e
    simp only [List.map_cons, List.lookup_cons]
    cases h : c == d with
    | true => simp [eq_of_beq h]
    | false => exact ih

theorem Node.get_readable {n m' : Node} {cs ds : List FileName}
    (h : (n.readable fails cs).get ds = some m') :
    ∃ m, n.get ds = some m ∧ m' = m.readable fails (cs ++ ds) := by
  induction ds generalizing n cs with
  | nil =>
    rw [Node.get_nil] at h
    obtain rfl := Option.some.inj h
    exact ⟨n, Node.get_nil n, by rw [List.append_nil]⟩
  | cons d ds ih =>
    cases n with
    | leaf t a =>
      rw [Node.readable_of_not_isDir rfl] at h
      cases h
    | link a t =>
      rw [Node.readable_of_not_isDir rfl] at h
      cases h
    | dir a ch =>
      rw [Node.readable_dir, Node.get_dir_cons] at h
      cases hf : fails cs with
      | true =>
        rw [hf] at h
        cases h
      | false =>
        rw [hf, if_neg (by decide),
          lookup_map_snd (fun c (n : Node) => n.readable fails (cs ++ [c])) ch d,
          Option.bind_eq_some_iff] at h
        obtain ⟨n', hn', h⟩ := h
        obtain ⟨k, hk, rfl⟩ := Option.map_eq_some_iff.mp hn'
        obtain ⟨m, hm, rfl⟩ := ih h
        refine ⟨m, ?_, by simp⟩
        rw [Node.get_dir_cons, hk]
        exact hm

theorem Node.distinct_readable {n : Node} (h : n.Distinct) (fails : List FileName → Bool)
    (cs : List FileName) :
    (n.readable fails cs).Distinct := by
  intro ds a ch' hget
  obtain ⟨m, hm, heq⟩ := Node.get_readable hget
  cases m with
  | leaf t b =>
    rw [Node.readable_of_not_isDir rfl] at heq
    cases heq
  | link b t =>
    rw [Node.readable_of_not_isDir rfl] at heq
    cases heq
  | dir b ch =>
    rw [Node.readable_dir] at heq
    obtain ⟨rfl, rfl⟩ := Node.dir.inj heq
    split_ifs
    · exact List.nodup_nil
    · rw [List.map_map]
      exact h ds a ch hm

def Tree.readable (T : Tree) (fails : List FileName → Bool) : Tree where
  attr := T.attr
  children := if fails [] then [] else T.children.map fun e => (e.1, e.2.readable fails [e.1])
  distinct := by
    have h := Node.distinct_readable T.distinct fails []
    rwa [Node.readable_dir] at h

theorem Tree.root_readable (T : Tree) (fails : List FileName → Bool) :
    (T.readable fails).root = T.root.readable fails [] := by
  rw [Tree.root, Tree.root, Node.readable_dir]
  rfl

theorem Tree.get_readable {cs : List FileName} {node' : Node}
    (h : (T.readable fails).get cs = some node') :
    ∃ node, T.get cs = some node ∧ node' = node.readable fails cs := by
  rw [Tree.get, Tree.root_readable] at h
  exact Node.get_readable h

theorem Tree.get_readable_dir {cs : List FileName} {a : Attr} {ch' : List (FileName × Node)}
    (h : (T.readable fails).get cs = some (.dir a ch')) :
    ∃ ch, T.get cs = some (.dir a ch) ∧
      ch' = if fails cs then [] else ch.map fun e => (e.1, e.2.readable fails (cs ++ [e.1])) := by
  obtain ⟨node, hnode, heq⟩ := Tree.get_readable h
  cases node with
  | leaf t b =>
    rw [Node.readable_of_not_isDir rfl] at heq
    cases heq
  | link b t =>
    rw [Node.readable_of_not_isDir rfl] at heq
    cases heq
  | dir b ch =>
    rw [Node.readable_dir] at heq
    obtain ⟨rfl, rfl⟩ := Node.dir.inj heq
    exact ⟨ch, hnode, rfl⟩

theorem Tree.Clean.readable (h : T.Clean) : (T.readable fails).Clean := by
  constructor
  · intro cs c node' hget
    obtain ⟨node, hnode, -⟩ := Tree.get_readable hget
    exact h.name cs c node hnode
  · intro cs a t hget
    obtain ⟨node, hnode, heq⟩ := Tree.get_readable hget
    cases node with
    | leaf u b =>
      rw [Node.readable_of_not_isDir rfl] at heq
      cases heq
    | link b u =>
      rw [Node.readable_of_not_isDir rfl] at heq
      obtain ⟨rfl, rfl⟩ := Node.link.inj heq
      exact h.target cs a t hnode
    | dir b ch =>
      rw [Node.readable_dir] at heq
      cases heq

/-- The system shows the tree that is seen just as well. -/
theorem Host.Shows.readable {host : Host} {inputDir : Bytes} (h : host.Shows inputDir T fails) :
    host.Shows inputDir (T.readable fails) fails where
  lstat_dir cs a ch' hget := by
    obtain ⟨ch, hdir, -⟩ := Tree.get_readable_dir hget
    exact h.lstat_dir cs a ch hdir
  lstat_node cs node' hcs hget := by
    obtain ⟨node, hnode, rfl⟩ := Tree.get_readable hget
    obtain ⟨htype, hattr, -⟩ := node.readable_facts fails cs
    rw [h.lstat_node cs node hcs hnode, Node.stat, Node.stat, htype, hattr]
  readlink_link cs a t hget := by
    obtain ⟨node, hnode, heq⟩ := Tree.get_readable hget
    have hfacts := node.readable_facts fails cs
    rw [← heq] at hfacts
    obtain ⟨htype, -, htarget⟩ := hfacts
    cases node with
    | leaf u b => cases u <;> cases htype
    | link b u =>
      rw [h.readlink_link cs b u hnode]
      exact congrArg some htarget.symm
    | dir b ch => cases htype
  readdir_dir cs a ch' hget hf := by
    obtain ⟨ch, hdir, rfl⟩ := Tree.get_readable_dir hget
    obtain ⟨ents, hents, hperm⟩ := h.readdir_dir cs a ch hdir hf
    refine ⟨ents, hents, ?_⟩
    rw [hf, if_neg (by decide), List.map_map]
    have hent : ∀ e : FileName × Node,
        direntOf (e.1, e.2.readable fails (cs ++ [e.1])) = direntOf e := by
      intro e
      rw [direntOf, direntOf, (e.2.readable_facts fails _).1]
    simpa only [Function.comp_def, hent] using hperm
  readdir_fails cs a ch' hget hf := by
    obtain ⟨ch, hdir, -⟩ := Tree.get_readable_dir hget
    exact h.readdir_fails cs a ch hdir hf

/-- What is not read is not there. -/
theorem records_readable (T : Tree) (fails : List FileName → Bool) :
    T.records fails = (T.readable fails).records noFailure := by
  have hempty : ∀ cs a ch, (T.readable fails).get cs = some (.dir a ch) → fails cs = true → ch = [] := by
    intro cs a ch hget hf
    obtain ⟨_, -, rfl⟩ := Tree.get_readable_dir hget
    rw [if_pos hf]
  have hblock : (T.readable fails).block fails = (T.readable fails).block noFailure := by
    funext cs
    unfold Tree.block
    split
    · rename_i a ch hget
      cases hf : fails cs with
      | true => simp [hempty cs a ch hget hf, byName]
      | false => rfl
    · rfl
  have hsub : (T.readable fails).subdirs fails = (T.readable fails).subdirs noFailure := by
    funext cs
    unfold Tree.subdirs
    split
    · rename_i a ch hget
      cases hf : fails cs with
      | true => simp [hempty cs a ch hget hf, byName]
      | false => rfl
    · rfl
  have hshows := treeHost_shows [slash] T fails
  have hne : [slash] ≠ ([] : Bytes) := List.cons_ne_nil _ _
  have hrecords := (writes_iff hshows.readable hne).mp ((writes_iff hshows hne).mpr rfl)
  rw [hrecords, Tree.records, Tree.records, Tree.dirs, Tree.dirs, hblock, hsub]

/-- What is shown at a path is `-ENOENT` or the truth about the tree, where a directory is listed in a
block that has room behind its path. -/
structure NeverLies (room : Bytes → ℕ) (file : Bytes) (T : Tree) (probes : ℕ → Probe) (p : Bytes) :
    Prop where
  getattr : Returns probes (catalogGetattr (geometry file) p) (-ENOENT, Stat.zero) ∨
    ∃ cs node, T.get cs = some node ∧ p = nodePath cs ∧
      Returns probes (catalogGetattr (geometry file) p) (0, node.stat)
  readdir : HasRoom room p →
    Returns probes (catalogReaddirIn room (geometry file) roomy p) (-ENOENT, dots) ∨
    ∃ cs a ch, T.get cs = some (.dir a ch) ∧ p = nodePath cs ∧
      ∃ filled : List (FileName × Node), filled.Perm ch ∧
        Returns probes (catalogReaddirIn room (geometry file) roomy p)
          (0, dots ++ filled.map fun e => ⟨e.1.val, some e.2.stat⟩)

theorem neverLies {probes : ℕ → Probe} (hclean : T.Clean)
    (hsize : maxLen (catalogFile (T.records noFailure)) *
      (lines (catalogFile (T.records noFailure))).length < 2 ^ 31)
    (hserves : Serves probes (catalogFile (T.records noFailure))) (room : Bytes → ℕ) {p : Bytes}
    (hp : FusePath p) : NeverLies room (catalogFile (T.records noFailure)) T probes p := by
  refine ⟨returns_getattr_cases hclean hsize hserves hp, fun hroom => ?_⟩
  rcases returns_readdir_cases hclean hsize hserves hp.1 with h | ⟨cs, a, ch, hget, hcs, h⟩
  · exact .inl (returns_catalogReaddirIn_iff.mpr ⟨hroom, h⟩)
  · exact .inr ⟨cs, a, ch, hget, hcs, byName ch, List.perm_insertionSort _ ch,
      returns_catalogReaddirIn_iff.mpr ⟨hroom, h⟩⟩

/-- Whichever directories cannot be read, as long as the messages for them can be printed, the mount of
the catalog never shows anything but the tree with these directories empty, and shows all of it
exactly when no directory's name in it continues a sibling directory's with a byte below the slash and
the block of every directory's path has room for another slash. -/
theorem unreadable_mounted_iff {host : Host} {inputDir : Bytes} (hne : inputDir ≠ [])
    (hshows : host.Shows inputDir T fails) (hclean : T.Clean)
    (hspeaks : ∀ cs, T.Reached fails cs → fails cs = true →
      Reportable (scandirError ++ (inputDir ++ pathString cs))) :
    ∃ recs, WritesReporting host inputDir recs ∧
      ∀ catalogName stack, Mountable catalogName stack (catalogFile recs) →
        ∀ probes, Serves probes (catalogFile recs) → ∀ room,
          (∀ p, FusePath p → NeverLies room (catalogFile recs) (T.readable fails) probes p) ∧
          (ShowsTree room (catalogFile recs) (T.readable fails) probes ↔
            (T.readable fails).SlashOrdered ∧ (T.readable fails).Roomy room) := by
  refine ⟨(T.readable fails).records noFailure,
    (writesReporting_iff hne hshows).mpr ⟨(records_readable T fails).symm, hspeaks⟩,
    fun catalogName stack hm probes hserves room =>
      ⟨fun p hp => neverLies hclean.readable hm.size_lt hserves room hp, ?_, fun h => ?_⟩⟩
  · exact slashOrdered_of_showsTree hclean.readable hm.size_lt hserves
  · exact showsTree_of_slashOrdered hclean.readable hm.size_lt hserves h.1 h.2

/-- The first four records of the small tree are all when the directory `a` cannot be read. -/
theorem unreadable_mounted_iff_smallTree :
    ∃ recs, WritesReporting (treeHost [ch 'r'] smallTree fun cs => cs = [nameA]) [ch 'r'] recs ∧
      recs = smallRecords.take 4 ∧ ∀ probes, Serves probes (catalogFile recs) →
        NeverLies strdupRoom (catalogFile recs) (smallTree.readable fun cs => cs = [nameA]) probes
          [slash, ch 'a'] := by
  have hshows := treeHost_shows [ch 'r'] smallTree fun cs => cs = [nameA]
  have hspeaks : ∀ cs, smallTree.Reached (fun cs => decide (cs = [nameA])) cs →
      decide (cs = [nameA]) = true → Reportable (scandirError ++ ([ch 'r'] ++ pathString cs)) := by
    intro cs _ h
    rw [of_decide_eq_true h]
    decide
  obtain ⟨recs, hw, h⟩ := unreadable_mounted_iff (by decide) hshows smallTree_clean hspeaks
  have hrecs : recs = smallRecords.take 4 := by
    obtain ⟨hrecs, -⟩ := (writesReporting_iff (by decide) hshows).mp hw
    rw [hrecs]
    exact ((writes_iff hshows (by decide)).mp ⟨2, by decide⟩).symm
  subst hrecs
  have hmountable : Mountable [ch 'c'] 100 (catalogFile (smallRecords.take 4)) := by
    have hprintable : ∀ r ∈ smallRecords.take 4, r.Printable := fun r hr =>
      (smallRecords_printable r (List.mem_of_mem_take hr))
    refine ⟨by decide, by decide, ?_⟩
    rw [neverOverflows_catalogFile_iff (by decide) hprintable (by decide) (by decide)]
    decide
  exact ⟨_, hw, rfl, fun probes hserves =>
    (h _ _ hmountable probes hserves strdupRoom).1 _ (by unfold FusePath; decide)⟩

end CatalogFS
