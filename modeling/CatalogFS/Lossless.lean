import CatalogFS.MountedTree

namespace CatalogFS

open CLib

/-- All of the record stands in its line: no separator stands where one ends, and only links have a
target. -/
structure Record.Lossless (r : Record) : Prop extends r.Printable, r.Clean where
  getLast?_target : r.linkDest.getLast? ≠ some sep
  target : r.c ≠ ch 'l' → r.linkDest = []

theorem append_linkSep_inj {p q s t : Bytes} (hp : linkSep ∉ p) (hq : linkSep ∉ q)
    (h : p ++ linkSep :: s = q ++ linkSep :: t) : p = q ∧ s = t := by
  have hpq : p = q := by
    have htake := congrArg (List.takeWhile (· ≠ linkSep)) h
    rwa [takeWhile_ne_append, takeWhile_ne_append, takeWhile_ne_eq_self.mpr hp,
      takeWhile_ne_eq_self.mpr hq] at htake
  subst hpq
  exact ⟨rfl, (List.cons.inj (List.append_cancel_left h)).2⟩

/-- A string that does not end in the filler is told from it. -/
theorem append_replicate_inj {s t : Bytes} {b : Byte} {m n : ℕ} (hs : s.getLast? ≠ some b)
    (ht : t.getLast? ≠ some b) (h : s ++ List.replicate m b = t ++ List.replicate n b) : s = t := by
  induction m generalizing n with
  | zero =>
    cases n with
    | zero => simpa using h
    | succ n =>
      rw [List.replicate_zero, List.append_nil] at h
      exact absurd (by rw [h, List.replicate_succ', ← List.append_assoc]; simp) hs
  | succ m ih =>
    cases n with
    | zero =>
      rw [List.replicate_zero, List.append_nil] at h
      exact absurd (by rw [← h, List.replicate_succ', ← List.append_assoc]; simp) ht
    | succ n =>
      rw [List.replicate_succ', List.replicate_succ', ← List.append_assoc, ← List.append_assoc] at h
      exact ih (List.append_inj_left' h rfl)

theorem Record.Lossless.getLast?_body {r : Record} (h : r.Lossless) :
    r.body.getLast? ≠ some sep := by
  have hname : r.name ≠ [] ∧ r.name.getLast? ≠ some sep := by
    obtain ⟨s, hs⟩ := exists_name_eq_cons h.head_path
    refine ⟨by simp [hs], fun hlast => ?_⟩
    unfold Record.name at hlast
    split_ifs at hlast
    · cases hd : r.linkDest with
      | nil => simp [hd, linkSep, sep] at hlast
      | cons b t =>
        have ht := h.getLast?_target
        rw [hd] at hlast ht
        rw [List.getLast?_append_of_ne_nil _ (by simp), List.getLast?_cons_cons] at hlast
        exact ht hlast
    · exact h.path.1 (List.mem_of_getLast? hlast)
  obtain ⟨s, hs, -⟩ := exists_body_eq r
  rw [hs, ← List.cons_append, List.getLast?_append_of_ne_nil _ hname.1]
  exact hname.2

theorem Record.Lossless.exists_padLine_eq {r : Record} (h : r.Lossless) (w : ℕ) :
    ∃ n, padLine w r.text = r.body ++ List.replicate n sep ++ [newline] := by
  have h0 : 0 ∉ r.body ++ [sep] := by
    simp only [List.mem_append, not_or]
    exact ⟨nul_notMem_body h.toPrintable, by decide⟩
  have htext : r.text = (r.body ++ [sep]) ++ [newline] := by simp [Record.text]
  refine ⟨w - ((r.body ++ [sep]).length + 1) + 1, ?_⟩
  rw [htext, padLine_eq h0, List.replicate_succ]
  simp

theorem Record.Lossless.eq_of_padLine {r s : Record} (hr : r.Lossless) (hs : s.Lossless) {v w : ℕ}
    (h : padLine v r.text = padLine w s.text) : r = s := by
  have hitems : r.items = s.items := by
    rw [← sscanf_padLine hr.toPrintable v, ← sscanf_padLine hs.toPrintable w, h]
  simp only [Record.items, List.cons.injEq, Item.char.injEq, Item.num.injEq, Nat.cast_inj] at hitems
  obtain ⟨hc, hmode, hnlink, huid, hgid, hsize, hatime, hmtime, hctime, hdepth, -⟩ := hitems
  have hbody : r.body = s.body := by
    obtain ⟨m, hm⟩ := hr.exists_padLine_eq v
    obtain ⟨n, hn⟩ := hs.exists_padLine_eq w
    rw [hm, hn] at h
    exact append_replicate_inj hr.getLast?_body hs.getLast?_body (List.append_inj_left' h rfl)
  have hnumbers : r.numbers = s.numbers := by
    simp only [Record.numbers, hmode, hnlink, huid, hgid, hsize, hatime, hmtime, hctime, hdepth]
  have hname : r.name = s.name := by
    rw [Record.body, Record.body, hnumbers] at hbody
    have htail := List.append_cancel_left (List.cons.inj hbody).2
    exact (List.cons.inj (List.cons.inj htail).2).2
  have hpath : r.path = s.path ∧ r.linkDest = s.linkDest := by
    unfold Record.name at hname
    by_cases hl : r.c = ch 'l'
    · rw [if_pos hl, if_pos (hc ▸ hl)] at hname
      exact append_linkSep_inj (hr.link hl).1 (hs.link (hc ▸ hl)).1 hname
    · rw [if_neg hl, if_neg (hc ▸ hl)] at hname
      exact ⟨hname, (hr.target hl).trans (hs.target (hc ▸ hl)).symm⟩
  obtain ⟨c, mode, nlink, uid, gid, size, atime, mtime, ctime, depth, path, linkDest⟩ := r
  obtain ⟨hpath, hdest⟩ := hpath
  simp only at hc hmode hnlink huid hgid hsize hatime hmtime hctime hdepth hpath hdest
  subst hc hmode hnlink huid hgid hsize hatime hmtime hctime hdepth hpath hdest
  rfl

theorem lines_catalogFile {recs : List Record} (h : ∀ r ∈ recs, r.Lossless) :
    lines (catalogFile recs) =
      recs.map fun r => padLine (maxLen (recs.flatMap Record.text)) r.text := by
  have hprint : ∀ r ∈ recs, r.Printable := fun r hr => (h r hr).toPrintable
  have hnewline : ∀ r ∈ recs, newline ∉ r.name := fun r hr => newline_notMem_name (h r hr).toClean
  rw [catalogFile, lines_padEachLine (isTextLine_of_mem_lines hprint), lines_text hprint hnewline,
    List.map_map]
  rfl

/-- No two lists of records give the same catalog file. -/
theorem catalogFile_injective {recs recs' : List Record} (h : ∀ r ∈ recs, r.Lossless)
    (h' : ∀ r ∈ recs', r.Lossless) (heq : catalogFile recs = catalogFile recs') : recs = recs' := by
  have hlines := congrArg lines heq
  rw [lines_catalogFile h, lines_catalogFile h'] at hlines
  generalize maxLen (recs.flatMap Record.text) = v at hlines
  generalize maxLen (recs'.flatMap Record.text) = w at hlines
  clear heq
  induction recs generalizing recs' with
  | nil => exact (List.map_eq_nil_iff.mp hlines.symm).symm
  | cons r recs ih =>
    cases recs' with
    | nil => cases hlines
    | cons r' recs' =>
      rw [List.map_cons, List.map_cons, List.cons.injEq] at hlines
      rw [List.forall_mem_cons] at h h'
      rw [h.1.eq_of_padLine h'.1 hlines.1, ih h.2 h'.2 hlines.2]

def Node.facts (n : Node) : FileType × Attr × Bytes := (n.type, n.attr, n.target)

/-- Two trees have the same files with the same types, attributes and targets. The order in which the
entries of a directory are enumerated may differ. -/
def Tree.SameFiles (T T' : Tree) : Prop :=
  ∀ cs, (T.get cs).map Node.facts = (T'.get cs).map Node.facts

/-- No target is cut short in its record or runs into the filler behind it. -/
def Tree.TargetsFit (T : Tree) : Prop :=
  ∀ cs a t, T.get cs = some (.link a t) →
    t.val.getLast? ≠ some sep ∧ t.val.length < maxPathLen

theorem int_toUInt64_injective {x y : UInt64} (h : x.toInt64.toInt = y.toInt64.toInt) : x = y := by
  have hxy : x.toInt64 = y.toInt64 := Int64.toInt_inj.mp h
  rw [← UInt64.toUInt64_toInt64 x, ← UInt64.toUInt64_toInt64 y, hxy]

theorem recordOf_injective {t t' : FileType} {a a' : Attr} {p p' s s' : Bytes}
    (h : recordOf t a p s = recordOf t' a' p' s') : t = t' ∧ a = a' ∧ p = p' ∧ s = s' := by
  simp only [recordOf, Record.mk.injEq, Nat.cast_inj] at h
  obtain ⟨hc, hmode, hnlink, huid, hgid, hsize, hatime, hmtime, hctime, -, hpath, hdest⟩ := h
  refine ⟨FileType.letter_injective hc, ?_, hpath, hdest⟩
  obtain ⟨perm, nlink, uid, gid, size, atime, mtime, ctime⟩ := a
  obtain ⟨perm', nlink', uid', gid', size', atime', mtime', ctime'⟩ := a'
  obtain rfl : perm = perm' := BitVec.eq_of_toNat_eq hmode
  obtain rfl : nlink = nlink' := int_toUInt64_injective hnlink
  obtain rfl : uid = uid' := UInt32.toNat_inj.mp huid
  obtain rfl : gid = gid' := UInt32.toNat_inj.mp hgid
  obtain rfl : size = size' := Int64.toInt_inj.mp hsize
  obtain rfl : atime = atime' := Int64.toInt_inj.mp hatime
  obtain rfl : mtime = mtime' := Int64.toInt_inj.mp hmtime
  obtain rfl : ctime = ctime' := Int64.toInt_inj.mp hctime
  rfl

section Trees

variable {T T' : Tree}

theorem Tree.SameFiles.symm (h : T.SameFiles T') : T'.SameFiles T := fun cs => (h cs).symm

theorem Tree.TargetsFit.take_target (hfit : T.TargetsFit) {cs : List FileName} {node : Node}
    (h : T.get cs = some node) : node.target.take (maxPathLen - 1) = node.target := by
  apply List.take_of_length_le
  cases node with
  | leaf t a => simp [Node.target]
  | link a t => exact Nat.le_sub_one_of_lt (hfit cs a t h).2
  | dir a ch => simp [Node.target]

theorem records_lossless (hclean : T.Clean) (hfit : T.TargetsFit) :
    ∀ r ∈ T.records noFailure, r.Lossless := by
  intro r hr
  have hprint := records_printable T noFailure r hr
  have hrclean := records_clean hclean r hr
  obtain ⟨cs, node, p, hget, rfl, -, -⟩ := exists_of_mem_records hr
  have htake : (nodeRecord p node).linkDest = node.target := hfit.take_target hget
  refine ⟨hprint, hrclean, ?_, ?_⟩
  · rw [htake]
    cases node with
    | leaf t a => simp [Node.target]
    | link a t => exact (hfit cs a t hget).1
    | dir a ch => simp [Node.target]
  · intro hc
    rw [htake]
    cases node with
    | leaf t a => rfl
    | link a t => exact absurd rfl hc
    | dir a ch => rfl

theorem mem_map_direntOf {cs : List FileName} {a : Attr} {ch : List (FileName × Node)}
    (h : T.get cs = some (.dir a ch)) {d : Dirent} :
    d ∈ ch.map direntOf ↔ ∃ c f, (T.get (cs ++ [c])).map Node.facts = some f ∧
      d = ⟨c.val, f.1.dt⟩ := by
  simp only [List.mem_map, Option.map_eq_some_iff]
  constructor
  · rintro ⟨e, he, rfl⟩
    exact ⟨e.1, _, ⟨e.2, (mem_children_iff h e).mp he, rfl⟩, rfl⟩
  · rintro ⟨c, _, ⟨node, hnode, rfl⟩, rfl⟩
    exact ⟨(c, node), (mem_children_iff h (c, node)).mpr hnode, rfl⟩

theorem nodup_map_direntOf {cs : List FileName} {a : Attr} {ch : List (FileName × Node)}
    (h : T.get cs = some (.dir a ch)) : (ch.map direntOf).Nodup := by
  refine List.Nodup.of_map Dirent.dName ?_
  rw [List.map_map]
  have hval : Dirent.dName ∘ direntOf = FileName.val ∘ Prod.fst := rfl
  rw [hval, ← List.map_map]
  exact (T.distinct cs a ch h).map fun _ _ => FileName.ext

theorem Tree.SameFiles.exists_node (h : T.SameFiles T') {cs : List FileName} {node' : Node}
    (hget : T'.get cs = some node') :
    ∃ node, T.get cs = some node ∧ node.type = node'.type ∧ node.attr = node'.attr ∧
      node.target = node'.target := by
  have hcs := h cs
  rw [hget, Option.map_some, Option.map_eq_some_iff] at hcs
  obtain ⟨node, hnode, hfacts⟩ := hcs
  simp only [Node.facts, Prod.mk.injEq] at hfacts
  exact ⟨node, hnode, hfacts⟩

theorem Tree.SameFiles.exists_dir (h : T.SameFiles T') {cs : List FileName} {a : Attr}
    {ch' : List (FileName × Node)} (hget : T'.get cs = some (.dir a ch')) :
    ∃ ch, T.get cs = some (.dir a ch) := by
  obtain ⟨node, hnode, htype, hattr, -⟩ := h.exists_node hget
  cases node with
  | leaf t b => cases t <;> cases htype
  | link b t => cases htype
  | dir b ch =>
    obtain rfl : b = a := hattr
    exact ⟨ch, hnode⟩

/-- A host that shows one of the trees shows the other. -/
theorem Host.Shows.of_sameFiles {host : Host} {inputDir : Bytes} {fails : List FileName → Bool}
    (hshows : host.Shows inputDir T fails) (h : T.SameFiles T') :
    host.Shows inputDir T' fails where
  lstat_dir cs a ch' hget := by
    obtain ⟨ch, hdir⟩ := h.exists_dir hget
    exact hshows.lstat_dir cs a ch hdir
  lstat_node cs node' hcs hget := by
    obtain ⟨node, hnode, htype, hattr, -⟩ := h.exists_node hget
    rw [hshows.lstat_node cs node hcs hnode, Node.stat, Node.stat, htype, hattr]
  readlink_link cs a t hget := by
    obtain ⟨node, hnode, htype, -, htarget⟩ := h.exists_node hget
    cases node with
    | leaf u b => cases u <;> cases htype
    | link b u =>
      rw [hshows.readlink_link cs b u hnode]
      exact congrArg some htarget
    | dir b ch => cases htype
  readdir_dir cs a ch' hget hf := by
    obtain ⟨ch, hdir⟩ := h.exists_dir hget
    obtain ⟨ents, hents, hperm⟩ := hshows.readdir_dir cs a ch hdir hf
    have hentries : (ch.map direntOf).Perm (ch'.map direntOf) := by
      rw [List.perm_ext_iff_of_nodup (nodup_map_direntOf hdir) (nodup_map_direntOf hget)]
      intro d
      rw [mem_map_direntOf hdir, mem_map_direntOf hget]
      simp only [h _]
    exact ⟨ents, hents, hperm.trans (hentries.append_left _)⟩
  readdir_fails cs a ch' hget hf := by
    obtain ⟨ch, hdir⟩ := h.exists_dir hget
    exact hshows.readdir_fails cs a ch hdir hf

theorem records_eq_of_sameFiles (h : T.SameFiles T') (fails : List FileName → Bool) :
    T.records fails = T'.records fails := by
  have hshows := treeHost_shows [slash] T fails
  have hne : [slash] ≠ ([] : Bytes) := List.cons_ne_nil _ _
  exact (writes_iff (hshows.of_sameFiles h) hne).mp ((writes_iff hshows hne).mpr rfl)

theorem facts_of_records_eq (hfit : T.TargetsFit) (hfit' : T'.TargetsFit)
    (heq : T.records noFailure = T'.records noFailure) {cs : List FileName} {node : Node}
    (h : T.get cs = some node) : (T'.get cs).map Node.facts = some node.facts := by
  have hfacts : ∀ {ds node' p}, T'.get ds = some node' → nodeRecord p node = nodeRecord p node' →
      (T'.get ds).map Node.facts = some node.facts := by
    intro ds node' p hget hrec
    obtain ⟨htype, hattr, -, htarget⟩ := recordOf_injective hrec
    rw [hfit.take_target h, hfit'.take_target hget] at htarget
    rw [hget, Option.map_some, Node.facts, Node.facts, htype, hattr, htarget]
  rcases List.eq_nil_or_concat' cs with rfl | ⟨ds, c, rfl⟩
  · -- the first record is that of the root
    have hmem : nodeRecord (dirPath []) T.root ∈ T.records noFailure :=
      mem_records_iff.mpr (.inl ⟨[], T.attr, T.children, .root, Node.get_nil _, rfl⟩)
    obtain rfl : T.root = node := Option.some.inj h
    rw [heq] at hmem
    rcases mem_records_iff.mp hmem with ⟨es, a, ch, -, hget, hrec⟩ | ⟨es, c, node', -, -, -, hrec⟩
    · have hpath : dirPath [] ++ [] = dirPath es ++ [] := by
        rw [List.append_nil, List.append_nil]
        exact congrArg Record.path hrec
      obtain ⟨rfl, -⟩ := dirPath_append_inj (by simp) (by simp) hpath
      exact hfacts hget hrec
    · have hlast := getLast?_entry es c
      rw [← show dirPath [] = dirPath es ++ c.val from congrArg Record.path hrec] at hlast
      exact absurd (getLast?_dirPath []) hlast
  · have hmem : nodeRecord (dirPath ds ++ c.val) node ∈ T.records noFailure :=
      mem_records_iff.mpr (.inr ⟨ds, c, node, reached_of_isDir (isDir_of_get_concat h), rfl, h, rfl⟩)
    rw [heq] at hmem
    rcases mem_records_iff.mp hmem with ⟨es, a, ch, -, -, hrec⟩ | ⟨es, c', node', -, -, hget, hrec⟩
    · have hlast := getLast?_entry ds c
      rw [show dirPath ds ++ c.val = dirPath es from congrArg Record.path hrec] at hlast
      exact absurd (getLast?_dirPath es) hlast
    · obtain ⟨rfl, hval⟩ := dirPath_append_inj c.slash_notMem c'.slash_notMem
        (congrArg Record.path hrec)
      obtain rfl := FileName.ext hval
      exact hfacts hget hrec

theorem sameFiles_of_records_eq (hfit : T.TargetsFit) (hfit' : T'.TargetsFit)
    (heq : T.records noFailure = T'.records noFailure) : T.SameFiles T' := by
  intro cs
  cases h : T.get cs with
  | some node => exact (facts_of_records_eq hfit hfit' heq h).symm
  | none =>
    cases h' : T'.get cs with
    | none => rfl
    | some node' =>
      have hsome := facts_of_records_eq hfit' hfit heq.symm h'
      rw [h] at hsome
      cases hsome

end Trees

/-- Two runs leave the same bytes exactly when the trees have the same files with the same types,
attributes and targets. -/
theorem catalogFile_eq_iff {T T' : Tree} {host host' : Host} {inputDir inputDir' : Bytes}
    (hne : inputDir ≠ []) (hne' : inputDir' ≠ []) (hshows : host.Shows inputDir T noFailure)
    (hshows' : host'.Shows inputDir' T' noFailure) (hclean : T.Clean) (hclean' : T'.Clean)
    (hfit : T.TargetsFit) (hfit' : T'.TargetsFit) :
    ∃ recs recs', Writes host inputDir recs ∧ Writes host' inputDir' recs' ∧
      (catalogFile recs = catalogFile recs' ↔ T.SameFiles T') := by
  refine ⟨_, _, (writes_iff hshows hne).mpr rfl, (writes_iff hshows' hne').mpr rfl, ?_⟩
  constructor
  · intro heq
    exact sameFiles_of_records_eq hfit hfit' (catalogFile_injective (records_lossless hclean hfit)
      (records_lossless hclean' hfit') heq)
  · intro h
    rw [records_eq_of_sameFiles h]

theorem smallTree_targetsFit : smallTree.TargetsFit := fun cs a t hget =>
  smallTree_forall (P := fun _ n => ∀ a t, n = .link a t →
      t.val.getLast? ≠ some sep ∧ t.val.length < maxPathLen) (by simp [Tree.root])
    (by rintro a t ⟨⟩; decide) (by simp) (by simp) cs _ hget a t rfl

theorem siblingTree_clean : siblingTree.Clean :=
  ⟨siblingTree_namesClean, fun _ _ _ hlink => absurd hlink siblingTree_no_link⟩

theorem siblingTree_targetsFit : siblingTree.TargetsFit := fun _ _ _ hlink =>
  absurd hlink siblingTree_no_link

/-- The catalogs of the small tree and of the two sibling directories differ, since only the one tree
has the link. -/
theorem catalogFile_eq_iff_smallTree : ∃ recs recs',
    Writes (treeHost [ch 'r'] smallTree noFailure) [ch 'r'] recs ∧
      Writes (treeHost [ch 's'] siblingTree noFailure) [ch 's'] recs' ∧
      (catalogFile recs = catalogFile recs' ↔ smallTree.SameFiles siblingTree) ∧
      catalogFile recs ≠ catalogFile recs' := by
  obtain ⟨recs, recs', hw, hw', hiff⟩ := catalogFile_eq_iff (List.cons_ne_nil (ch 'r') [])
    (List.cons_ne_nil (ch 's') []) (treeHost_shows [ch 'r'] smallTree noFailure)
    (treeHost_shows [ch 's'] siblingTree noFailure) smallTree_clean siblingTree_clean
    smallTree_targetsFit siblingTree_targetsFit
  refine ⟨recs, recs', hw, hw', hiff, fun heq => ?_⟩
  have hlink := hiff.mp heq [nameL]
  exact absurd hlink (by decide)

end CatalogFS
