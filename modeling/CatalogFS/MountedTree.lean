import CatalogFS.Buffers
import CatalogFS.DirectoryTypes
import CatalogFS.Fuse

namespace CatalogFS

open CLib

variable {T : Tree}

/-- The mount hands on link targets and numbers of links: a target that is read ends at a `\1`, and a
number of links has 32 bits. -/
structure Tree.Carried (T : Tree) : Prop where
  target : ∀ cs a t, T.get cs = some (.link a t) → sep ∉ t.val
  nlink : ∀ cs node, T.get cs = some node → node.attr.nlink.toNat < 2 ^ 32

/-- The kernel takes the paths of all files of the tree below the mount point. -/
structure Tree.TakenAt (T : Tree) (mountPoint : Bytes) : Prop where
  file : ∀ cs node, T.get cs = some node → Takes (mountPoint ++ pathString cs) cs
  dir : ∀ cs, T.IsDir cs → Takes (mountPoint ++ dirPath cs) cs

theorem Node.convert_stat_iff (node : Node) :
    node.stat.convert = node.stat ↔ node.attr.nlink.toNat < 2 ^ 32 := by
  have hn : (node.attr.nlink.toUInt32.toUInt64).toNat = node.attr.nlink.toNat % 2 ^ 32 := by simp
  constructor
  · intro h
    have heq : node.attr.nlink.toUInt32.toUInt64 = node.attr.nlink := congrArg Stat.stNlink h
    rw [heq] at hn
    omega
  · intro h
    have heq : node.attr.nlink.toUInt32.toUInt64 = node.attr.nlink :=
      UInt64.toNat_inj.mp (hn.trans (Nat.mod_eq_of_lt h))
    exact congrArg (fun n => { node.stat with stNlink := n }) heq

section Library

variable {probes : ℕ → Probe} {g : Globals} {cs : List FileName}

theorem returns_fuseLibGetattr {err : ℤ} {st : Stat}
    (hfits : (pathString cs).length < fuseMaxPath)
    (h : Returns probes (catalogGetattr g (nodePath cs)) (err, st)) :
    Returns probes (fuseLibGetattr g (cs.map FileName.val))
      (if err ≠ 0 then none else some st.convert) := by
  rw [fuseLibGetattr, getPathName_map_val, if_pos hfits]
  apply h.bind
  dsimp only
  split_ifs <;> exact returns_pure _

theorem returns_fuseLibReaddir {room : Bytes → ℕ} {err : ℤ} {filled : List Filled}
    (hfits : (pathString cs).length < fuseMaxPath)
    (h : Returns probes (catalogReaddirIn room g roomy (nodePath cs)) (err, filled)) :
    Returns probes (fuseLibReaddir room g (cs.map FileName.val))
      (if err ≠ 0 then none else some (filled.map fillDir)) := by
  rw [fuseLibReaddir, getPathName_map_val, if_pos hfits]
  apply h.bind
  dsimp only
  split_ifs <;> exact returns_pure _

theorem returns_fuseLibReadlink {err : ℤ} {linkname buf : Bytes}
    (hfits : (pathString cs).length < fuseMaxPath)
    (h : Returns probes (catalogReadlink g (nodePath cs) linkname (pathMax + 1)) (err, buf)) :
    Returns probes (fuseLibReadlink g linkname (cs.map FileName.val))
      (if err ≠ 0 then none else some (cstr (buf.set pathMax 0))) := by
  rw [fuseLibReadlink, getPathName_map_val, if_pos hfits]
  apply h.bind
  dsimp only
  split_ifs <;> exact returns_pure _

/-- The array of the library has room for every target that a record can hold. -/
theorem cstr_set_strncpy {linkname t : Bytes} (hnul : 0 ∉ t) (hlen : t.length < pathMax) :
    cstr ((strncpy linkname t pathMax).set pathMax 0) = t := by
  obtain ⟨k, hk⟩ : ∃ k, pathMax - t.length = k + 1 := ⟨pathMax - t.length - 1, by omega⟩
  have hbuf : (strncpy linkname t pathMax).set pathMax 0 =
      t ++ 0 :: (List.replicate k 0 ++ (linkname.drop pathMax).set 0 0) := by
    rw [strncpy, List.take_of_length_le hlen.le, hk, List.replicate_succ,
      List.set_append_right _ _ (by simp; omega)]
    have hzero : pathMax - (t ++ 0 :: List.replicate k (0 : Byte)).length = 0 := by
      simp
      omega
    rw [hzero, List.append_assoc, List.cons_append]
  rw [hbuf, cstr, List.takeWhile_append_of_pos]
  · simp
  · intro b hb
    have hb0 : b ≠ 0 := fun h => hnul (h ▸ hb)
    simpa using hb0

theorem returns_mountLstat {names : List Bytes} {st : Stat} {o : Option Stat} {withSlash : Bool}
    (hwalk : Returns probes (walk g [] rootStat names) (.found st))
    (hdir : withSlash = true → st.isDir = true ∧ st.isLink = false)
    (hget : Returns probes (fuseLibGetattr g names) o) :
    Returns probes (mountLstat g names withSlash) (.ofOption o) := by
  apply hwalk.bind
  have h1 : (withSlash && st.isLink) = false := by
    cases withSlash with
    | false => rfl
    | true => simp [hdir rfl]
  have h2 : (withSlash && !st.isDir) = false := by
    cases withSlash with
    | false => rfl
    | true => simp [hdir rfl]
  simp only [h1, h2, Bool.false_eq_true, if_false]
  exact hget.bind (returns_pure _)

theorem returns_mountReaddir {room : Bytes → ℕ} {names : List Bytes} {st : Stat}
    {o : Option (List Dirent)}
    (hwalk : Returns probes (walk g [] rootStat names) (.found st)) (hdir : st.isDir = true)
    (hlink : st.isLink = false) (hget : Returns probes (fuseLibReaddir room g names) o) :
    Returns probes (mountReaddir room g names) (.ofOption o) := by
  apply hwalk.bind
  simp only [hdir, hlink, Bool.false_eq_true, Bool.not_true, if_false]
  exact hget.bind (returns_pure _)

theorem returns_mountReadlink {names : List Bytes} {linkname : Bytes} {st : Stat}
    {o : Option Bytes} (hwalk : Returns probes (walk g [] rootStat names) (.found st))
    (hlink : st.isLink = true) (hget : Returns probes (fuseLibReadlink g linkname names) o) :
    Returns probes (mountReadlink g linkname names) (.ofOption o) := by
  apply hwalk.bind
  simp only [hlink, if_true]
  exact hget.bind (returns_pure _)

/-- When each file of the tree is shown with its attributes or not at all, the kernel reaches a file of
the tree, or a directory before it or the file itself is not shown. -/
theorem returns_walk_cases
    (hgetattr : ∀ cs node, T.get cs = some node →
      Returns probes (fuseLibGetattr g (cs.map FileName.val)) (some node.stat.convert) ∨
        Returns probes (fuseLibGetattr g (cs.map FileName.val)) none)
    {ds : List FileName} {n node : Node} {st : Stat} (hds : T.get ds = some n)
    (hst : st.dt = n.type.dt) (hget : T.get (ds ++ cs) = some node) :
    (∃ st', st'.dt = node.type.dt ∧
      Returns probes (walk g (ds.map FileName.val) st (cs.map FileName.val)) (.found st')) ∨
    Returns probes (walk g (ds.map FileName.val) st (cs.map FileName.val)) .absent ∧
      ∃ es m, es <+: cs ∧ T.get (ds ++ es) = some m ∧
        Returns probes (fuseLibGetattr g ((ds ++ es).map FileName.val)) none := by
  induction cs generalizing ds n st with
  | nil =>
    rw [List.append_nil, hds] at hget
    obtain rfl := Option.some.inj hget
    exact .inl ⟨st, hst, returns_pure _⟩
  | cons c cs ih =>
    rw [List.append_cons] at hget
    have hm : ∃ m, T.get (ds ++ [c]) = some m := by
      rw [Tree.get, Node.get_append, ← Tree.get] at hget
      obtain ⟨m, hm, -⟩ := Option.bind_eq_some_iff.mp hget
      exact ⟨m, hm⟩
    obtain ⟨m, hm⟩ := hm
    obtain ⟨a, ch, hdir⟩ := isDir_of_get_concat hm
    obtain rfl := Option.some.inj (hds.symm.trans hdir)
    have hlink := Stat.isLink_of_dt hst
    have hisdir := Stat.isDir_of_dt hst
    have hmap : ds.map FileName.val ++ [c.val] = (ds ++ [c]).map FileName.val := by simp
    simp only [List.map_cons, walk, hlink, hisdir, Node.type, Node.isDir, reduceCtorEq, decide_false,
      Bool.false_eq_true, Bool.not_true, if_false, fuseLibLookup, hmap]
    rcases hgetattr _ m hm with hshown | hnone
    · have hdt : m.stat.convert.dt = m.type.dt := m.dt_stat
      rcases ih hm hdt hget with ⟨st', hst', hwalk⟩ | ⟨hwalk, es, m', hes, hm', hnone⟩
      · exact .inl ⟨st', hst', hshown.bind hwalk⟩
      · refine .inr ⟨hshown.bind hwalk, c :: es, m', List.cons_prefix_cons.mpr ⟨rfl, hes⟩, ?_, ?_⟩
        · rw [List.append_cons]
          exact hm'
        · rw [List.append_cons]
          exact hnone
    · exact .inr ⟨hnone.bind (returns_pure _), [c], m, List.cons_prefix_cons.mpr
        ⟨rfl, List.nil_prefix⟩, hm, hnone⟩

end Library

theorem target_takeWhile_iff {t : Bytes} :
    (t.take (maxPathLen - 1)).takeWhile (· ≠ sep) = t ↔ sep ∉ t ∧ t.length < maxPathLen := by
  constructor
  · intro h
    have hlen : t.length ≤ maxPathLen - 1 := by
      calc t.length = ((t.take (maxPathLen - 1)).takeWhile (· ≠ sep)).length := by rw [h]
        _ ≤ (t.take (maxPathLen - 1)).length := (List.takeWhile_prefix _).length_le
        _ ≤ maxPathLen - 1 := List.length_take_le _ _
    have hsep := notMem_takeWhile_ne sep (t.take (maxPathLen - 1))
    rw [h] at hsep
    exact ⟨hsep, by unfold maxPathLen at hlen ⊢; omega⟩
  · rintro ⟨hsep, hlen⟩
    rw [List.take_of_length_le (by omega), takeWhile_ne_eq_self]
    exact hsep

theorem exists_link_entry {cs : List FileName} {a : Attr} {t : Target}
    (h : T.get cs = some (.link a t)) : ∃ e ∈ T.entries, e.path = nodePath cs ∧
      e.target = some ((t.val.take (maxPathLen - 1)).takeWhile (· ≠ sep)) := by
  have hcs : cs ≠ [] := by
    rintro rfl
    cases h
  obtain ⟨ds, c, rfl⟩ := (List.eq_nil_or_concat' cs).resolve_left hcs
  refine ⟨_, List.mem_map_of_mem (mem_records_iff.mpr (.inr ⟨ds, c, _,
    reached_of_isDir (isDir_of_get_concat h), rfl, h, rfl⟩)), ?_, rfl⟩
  rw [nodePath, if_neg hcs, pathString_concat]
  rfl

section Mounted

variable {probes : ℕ → Probe} {host : Host} {mountPoint : Bytes} (hclean : T.Clean)
  (hsize : maxLen (catalogFile (T.records noFailure)) *
    (lines (catalogFile (T.records noFailure))).length < 2 ^ 31)
  (hserves : Serves probes (catalogFile (T.records noFailure)))
  (htaken : T.TakenAt mountPoint)

theorem Tree.TakenAt.fits (h : T.TakenAt mountPoint) {cs : List FileName} {node : Node}
    (hget : T.get cs = some node) : (pathString cs).length < fuseMaxPath := by
  have hlen := (h.file cs node hget).1
  rw [List.length_append] at hlen
  exact lt_of_le_of_lt (Nat.le_add_left _ _) hlen

include hclean hsize hserves htaken

theorem returns_fuseLibGetattr_cases {cs : List FileName} {node : Node}
    (h : T.get cs = some node) :
    Returns probes (fuseLibGetattr (geometry (catalogFile (T.records noFailure)))
        (cs.map FileName.val)) (some node.stat.convert) ∨
      Returns probes (fuseLibGetattr (geometry (catalogFile (T.records noFailure)))
        (cs.map FileName.val)) none := by
  have hcat := (isCatalog_tree hclean hsize).readable
  have hsorted := depthSorted_entries T
  have hfits := htaken.fits h
  by_cases hneg : locate T.entries (nodePath cs) = -1
  · exact .inr (returns_fuseLibGetattr hfits (returns_catalogGetattr_of_neg hserves hcat hsorted hneg))
  · exact .inl (returns_fuseLibGetattr hfits (returns_getattr_of_locate hclean hsize hserves h hneg))

theorem returns_walk_root_cases {cs : List FileName} {node : Node} (h : T.get cs = some node) :
    (∃ st, st.dt = node.type.dt ∧
      Returns probes (walk (geometry (catalogFile (T.records noFailure))) [] rootStat
        (cs.map FileName.val)) (.found st)) ∨
    Returns probes (walk (geometry (catalogFile (T.records noFailure))) [] rootStat
        (cs.map FileName.val)) .absent ∧
      ∃ es m, es <+: cs ∧ T.get es = some m ∧
        Returns probes (fuseLibGetattr (geometry (catalogFile (T.records noFailure)))
          (es.map FileName.val)) none := by
  have hroot : T.get [] = some T.root := Node.get_nil _
  exact returns_walk_cases (fun _ _ h => returns_fuseLibGetattr_cases hclean hsize hserves htaken h)
    hroot rfl h

section Shown

variable (hslash : T.SlashOrdered)

include hslash

theorem returns_getattr_of_slashOrdered {cs : List FileName} {node : Node}
    (h : T.get cs = some node) :
    Returns probes (fuseLibGetattr (geometry (catalogFile (T.records noFailure)))
      (cs.map FileName.val)) (some node.stat.convert) :=
  returns_fuseLibGetattr (htaken.fits h)
    (returns_getattr_of_locate hclean hsize hserves h (locate_nodePath_ne hslash h))

theorem returns_walk_of_slashOrdered {cs : List FileName} {node : Node}
    (h : T.get cs = some node) : ∃ st, st.dt = node.type.dt ∧
      Returns probes (walk (geometry (catalogFile (T.records noFailure))) [] rootStat
        (cs.map FileName.val)) (.found st) := by
  rcases returns_walk_root_cases hclean hsize hserves htaken h with hfound | ⟨-, es, m, -, hm, hnone⟩
  · exact hfound
  · have hsome := returns_getattr_of_slashOrdered hclean hsize hserves htaken hslash hm
    cases hsome.unique hnone

variable {stack : ℕ} {room : Bytes → ℕ}
  (hentry : EntryFits stack (geometry (catalogFile (T.records noFailure))))
  (hmount : host.MountedAt mountPoint stack room (geometry (catalogFile (T.records noFailure))) probes)

include hentry hmount

theorem lstat_mounted {cs : List FileName} {node : Node} (h : T.get cs = some node) :
    host.lstat (mountPoint ++ pathString cs) = some node.stat.convert := by
  obtain ⟨st, -, hwalk⟩ := returns_walk_of_slashOrdered hclean hsize hserves htaken hslash h
  exact hmount.lstat cs (.found _) (htaken.file cs node h) (returns_withEntry hentry
    (returns_mountLstat hwalk (fun hfalse => absurd hfalse (by decide))
      (returns_getattr_of_slashOrdered hclean hsize hserves htaken hslash h)))

theorem lstat_slash_mounted {cs : List FileName} {a : Attr} {ch : List (FileName × Node)}
    (h : T.get cs = some (.dir a ch)) :
    host.lstat (mountPoint ++ dirPath cs) = some (Node.dir a ch).stat.convert := by
  obtain ⟨st, hst, hwalk⟩ := returns_walk_of_slashOrdered hclean hsize hserves htaken hslash h
  exact hmount.lstat_slash cs (.found _) (htaken.dir cs ⟨a, ch, h⟩) (returns_withEntry hentry
    (returns_mountLstat hwalk (fun _ => ⟨Stat.isDir_of_dt hst, Stat.isLink_of_dt hst⟩)
      (returns_getattr_of_slashOrdered hclean hsize hserves htaken hslash h)))

theorem readlink_mounted {cs : List FileName} {a : Attr} {t : Target}
    (h : T.get cs = some (.link a t)) :
    host.readlink (mountPoint ++ pathString cs) =
      some ((t.val.take (maxPathLen - 1)).takeWhile (· ≠ sep)) := by
  obtain ⟨st, hst, hwalk⟩ := returns_walk_of_slashOrdered hclean hsize hserves htaken hslash h
  obtain ⟨e, he, hpath, htarget⟩ := exists_link_entry h
  obtain ⟨k, hk⟩ := List.mem_iff_getElem?.mp he
  have hloc := (locate_entries_iff T).mpr hslash k e hk
  refine hmount.readlink cs (.found _) (htaken.file cs _ h) fun linkname _ => ?_
  have hret := returns_catalogReadlink hserves (isCatalog_tree hclean hsize).readable
    (depthSorted_entries T) hloc hk htarget linkname (pathMax + 1)
  rw [hpath] at hret
  have hread := returns_fuseLibReadlink (htaken.fits h) hret
  have hnul : 0 ∉ (t.val.take (maxPathLen - 1)).takeWhile (· ≠ sep) := fun hmem =>
    t.nul_notMem (List.mem_of_mem_take ((List.takeWhile_prefix _).subset hmem))
  have hlen : ((t.val.take (maxPathLen - 1)).takeWhile (· ≠ sep)).length < pathMax :=
    calc _ ≤ (t.val.take (maxPathLen - 1)).length := (List.takeWhile_prefix _).length_le
      _ ≤ maxPathLen - 1 := List.length_take_le _ _
      _ < pathMax := by decide
  rw [Nat.add_sub_cancel, cstr_set_strncpy hnul hlen] at hread
  exact returns_withEntry hentry (returns_mountReadlink hwalk (Stat.isLink_of_dt hst) hread)

theorem readdir_mounted (hroom : T.Roomy room) {cs : List FileName} {a : Attr}
    {ch : List (FileName × Node)} (h : T.get cs = some (.dir a ch)) :
    ∃ filled : List (FileName × Node), filled.Perm ch ∧
      host.readdir (mountPoint ++ pathString cs) =
        some (dots.map fillDir ++ filled.map (direntBy noFailure cs)) := by
  obtain ⟨st, hst, hwalk⟩ := returns_walk_of_slashOrdered hclean hsize hserves htaken hslash h
  obtain ⟨filled, hperm, hret⟩ :=
    (showsTree_of_slashOrdered hclean hsize hserves hslash hroom).readdir cs a ch h
  refine ⟨filled, hperm, ?_⟩
  have hread := hmount.readdir cs (.found _) (htaken.file cs _ h) (returns_withEntry hentry
    (returns_mountReaddir hwalk (Stat.isDir_of_dt hst) (Stat.isLink_of_dt hst)
      (returns_fuseLibReaddir (htaken.fits h) hret)))
  have hmap : (dots ++ filled.map fun e => (⟨e.1.val, some e.2.stat⟩ : Filled)).map fillDir =
      dots.map fillDir ++ filled.map (direntBy noFailure cs) := by
    rw [List.map_append, List.map_map]
    congr 1
    apply List.map_congr_left
    intro e _
    simp [fillDir, direntBy, noFailure, Node.dt_stat]
  rw [hmap] at hread
  exact hread

/-- The mount shows the tree to system calls. -/
theorem shows_of_slashOrdered (hroom : T.Roomy room)
    (hlen : ∀ cs a t, T.get cs = some (.link a t) → sep ∉ t.val → t.val.length < maxPathLen)
    (hcarried : T.Carried) :
    host.ShowsFiles mountPoint T ∧ host.Lists mountPoint T noFailure noFailure := by
  have hconvert : ∀ cs node, T.get cs = some node → node.stat.convert = node.stat :=
    fun cs node h => node.convert_stat_iff.mpr (hcarried.nlink cs node h)
  refine ⟨⟨?_, ?_, ?_⟩, ?_, nofun⟩
  · intro cs a ch h
    rw [lstat_slash_mounted hclean hsize hserves htaken hslash hentry hmount h, hconvert cs _ h]
  · intro cs node _ h
    rw [lstat_mounted hclean hsize hserves htaken hslash hentry hmount h, hconvert cs _ h]
  · intro cs a t h
    have hsep := hcarried.target cs a t h
    rw [readlink_mounted hclean hsize hserves htaken hslash hentry hmount h,
      target_takeWhile_iff.mpr ⟨hsep, hlen cs a t h hsep⟩]
  · intro cs a ch h _
    obtain ⟨filled, hperm, hread⟩ :=
      readdir_mounted hclean hsize hserves htaken hslash hentry hmount hroom h
    exact ⟨_, dots.map fillDir, hread, rfl, (hperm.map _).append_left _⟩

end Shown

section Converse

variable {stack : ℕ} {room : Bytes → ℕ}
  (hentry : EntryFits stack (geometry (catalogFile (T.records noFailure))))
  (hmount : host.MountedAt mountPoint stack room (geometry (catalogFile (T.records noFailure))) probes)

include hentry hmount

/-- If system calls show the tree, the lookup finds every record. -/
theorem slashOrdered_of_shows (hlists : host.Lists mountPoint T noFailure noFailure)
    (hroom : T.Roomy room) : T.SlashOrdered := by
  have hcat := (isCatalog_tree hclean hsize).readable
  have hsorted := depthSorted_entries T
  apply (slashOrdered_iff_found T).mp
  rintro cs ⟨a, ch, hget⟩ - hneg
  -- a directory without its own record cannot be listed
  obtain ⟨ents, _, hents, -, -⟩ := hlists.readdir_dir cs a ch hget rfl
  have hl : locate T.entries (withSlash (nodePath cs)) = -1 := by
    rw [withSlash_nodePath]
    exact hneg
  have habsent : Returns probes (mountReaddir room (geometry (catalogFile (T.records noFailure)))
      (cs.map FileName.val)) .absent := by
    rcases returns_walk_root_cases hclean hsize hserves htaken hget with
      ⟨st, hst, hwalk⟩ | ⟨hwalk, -⟩
    · exact returns_mountReaddir hwalk (Stat.isDir_of_dt hst) (Stat.isLink_of_dt hst)
        (returns_fuseLibReaddir (htaken.fits hget) (returns_catalogReaddirIn_iff.mpr
          ⟨hroom cs ⟨a, ch, hget⟩, returns_catalogReaddir_of_neg hserves hcat hsorted roomy hl⟩))
    · exact hwalk.bind (returns_pure _)
  have hnone : host.readdir (mountPoint ++ pathString cs) = none :=
    hmount.readdir cs .absent (htaken.file cs _ hget) (returns_withEntry hentry habsent)
  rw [hnone] at hents
  cases hents

/-- If system calls show the tree, nothing was cut short on the way. -/
theorem carried_of_shows (hfiles : host.ShowsFiles mountPoint T) (hslash : T.SlashOrdered) :
    T.Carried := by
  constructor
  · intro cs a t h
    have hcut := readlink_mounted hclean hsize hserves htaken hslash hentry hmount h
    rw [hfiles.readlink_link cs a t h] at hcut
    exact (target_takeWhile_iff.mp (Option.some.inj hcut).symm).1
  · intro cs node h
    apply node.convert_stat_iff.mp
    apply Option.some.inj
    by_cases hcs : cs = []
    · -- the root is shown with a slash behind it
      subst hcs
      obtain rfl : T.root = node := Option.some.inj h
      rw [Tree.root, ← lstat_slash_mounted hclean hsize hserves htaken hslash hentry hmount h]
      exact hfiles.lstat_dir [] _ _ h
    · rw [← lstat_mounted hclean hsize hserves htaken hslash hentry hmount h]
      exact hfiles.lstat_node cs node hcs h

end Converse

end Mounted

theorem Mountable.length_target_lt {catalogName : Bytes} {stack : ℕ} (hclean : T.Clean)
    (hm : Mountable catalogName stack (catalogFile (T.records noFailure))) {cs : List FileName}
    {a : Attr} {t : Target} (h : T.get cs = some (.link a t)) (hsep : sep ∉ t.val) :
    t.val.length < maxPathLen := by
  have hp := records_printable T noFailure
  have hn : ∀ r ∈ T.records noFailure, newline ∉ r.name := fun r hr =>
    newline_notMem_name (records_clean hclean r hr)
  have hoffset : ∀ k < (T.records noFailure).length,
      maxLen (catalogFile (T.records noFailure)) * k < 2 ^ 31 := by
    intro k hk
    rw [← (length_lines_catalogFile_eq_iff hp).mpr hn] at hk
    exact (Nat.mul_le_mul_left _ hk.le).trans_lt hm.size_lt
  have hfits := ((neverOverflows_catalogFile_iff (records_ne_nil T noFailure) hp hn hoffset).mp
    hm.buffers).2
  obtain ⟨ds, c, rfl⟩ : ∃ ds c, cs = ds ++ [c] := by
    rcases List.eq_nil_or_concat' cs with rfl | hcs
    · cases h
    · exact hcs
  have hr : nodeRecord (dirPath ds ++ c.val) (.link a t) ∈ T.records noFailure :=
    mem_records_iff.mpr (.inr ⟨ds, c, _, reached_of_isDir (isDir_of_get_concat h), rfl, h, rfl⟩)
  have hpath := (records_clean hclean _ hr).path.1
  have hcut : sep ∉ t.val.take (maxPathLen - 1) := fun hmem => hsep (List.mem_of_mem_take hmem)
  have hname : (nodeRecord (dirPath ds ++ c.val) (.link a t)).name =
      (dirPath ds ++ c.val) ++ linkSep :: t.val.take (maxPathLen - 1) := rfl
  have hlen := hfits _ hr
  rw [hname, takeWhile_ne_eq_self.mpr (by
    simp only [List.mem_append, List.mem_cons, not_or]
    exact ⟨List.mem_append.not.mp hpath |> not_or.mp, by decide, hcut⟩)] at hlen
  simp only [List.length_append, List.length_cons, List.length_take] at hlen
  omega

section Regenerated

variable {source : Host} {inputDir mountPoint : Bytes} (hne : inputDir ≠ [])
  (hshows : source.Shows inputDir T noFailure) (hclean : T.Clean) (htaken : T.TakenAt mountPoint)

include hne hshows hclean htaken

/-- System calls below the mount point of a tree's catalog show the tree exactly when no directory's
name continues a sibling directory's with a byte below the slash, no target holds a `\1` and every
number of links has 32 bits. -/
theorem mounted_shows_iff : ∃ recs, Writes source inputDir recs ∧
    ∀ catalogName stack, Mountable catalogName stack (catalogFile recs) →
      ∀ probes, Serves probes (catalogFile recs) → ∀ room, T.Roomy room → ∀ host : Host,
        host.MountedAt mountPoint stack room (geometry (catalogFile recs)) probes →
          (host.ShowsFiles mountPoint T ∧ host.Lists mountPoint T noFailure noFailure ↔
            T.SlashOrdered ∧ T.Carried) := by
  refine ⟨_, (writes_iff hshows hne).mpr rfl, fun catalogName stack hm probes hserves room hroom host
    hmount => ⟨?_, ?_⟩⟩
  · rintro ⟨hfiles, hlists⟩
    have hslash := slashOrdered_of_shows hclean hm.size_lt hserves htaken hm.entry hmount hlists hroom
    exact ⟨hslash, carried_of_shows hclean hm.size_lt hserves htaken hm.entry hmount hfiles
      hslash⟩
  · rintro ⟨hslash, hcarried⟩
    exact shows_of_slashOrdered hclean hm.size_lt hserves htaken hslash hm.entry hmount hroom
      (fun _ _ _ h hsep => hm.length_target_lt hclean h hsep) hcarried

/-- Then `generate_catalog` on the mount point ends and writes the catalog that is mounted. -/
theorem regenerated_eq (hmp : mountPoint ≠ []) (hslash : T.SlashOrdered) (hcarried : T.Carried) :
    ∃ recs, Writes source inputDir recs ∧
      ∀ catalogName stack, Mountable catalogName stack (catalogFile recs) →
        ∀ probes, Serves probes (catalogFile recs) → ∀ room, T.Roomy room → ∀ host : Host,
          host.MountedAt mountPoint stack room (geometry (catalogFile recs)) probes →
            ∀ recs', Writes host mountPoint recs' ↔ recs' = recs := by
  refine ⟨_, (writes_iff hshows hne).mpr rfl, fun catalogName stack hm probes hserves room hroom host
    hmount recs' => ?_⟩
  obtain ⟨hfiles, hlists⟩ := shows_of_slashOrdered hclean hm.size_lt hserves htaken hslash hm.entry
    hmount hroom (fun _ _ _ h hsep => hm.length_target_lt hclean h hsep) hcarried
  rw [writes_iff_dirsBy hmp hfiles hlists, Tree.dirsBy, subdirsBy_noFailure]
  rfl

end Regenerated

def Answer.run {α : Type} (probes : ℕ → Probe) (x : M (Answer α)) : Option α :=
  match x probes ⟨0, 0, []⟩ with
  | some (.found a, _) => some a
  | _ => none

theorem Answer.gives_run {α : Type} {probes : ℕ → Probe} {x : M (Answer α)} {a : Answer α}
    (h : Returns probes x a) : a.Gives (Answer.run probes x) := by
  obtain ⟨w', hw'⟩ := h ⟨0, 0, []⟩
  rw [Answer.run, hw']
  cases a <;> simp [Answer.Gives]

def mountHost (mountPoint : Bytes) (stack : ℕ) (room : Bytes → ℕ) (g : Globals)
    (probes : ℕ → Probe) : Host :=
  let below {α : Type} (path : Bytes) (call : List Bytes → M (Answer α)) : Option α :=
    if mountPoint.isPrefixOf path then
      Answer.run probes (withEntry stack g (call (components (path.drop mountPoint.length))))
    else none
  { lstat := fun path => below path fun names =>
      mountLstat g names ((path.drop mountPoint.length).getLast? = some slash)
    readlink := fun path => below path (mountReadlink g (List.replicate (pathMax + 1) 0))
    readdir := fun path => below path (mountReaddir room g)
    staleStat := fun _ => Stat.zero
    staleLink := fun _ => [] }

theorem mountHost_mountedAt (mountPoint : Bytes) (stack : ℕ) (room : Bytes → ℕ) (g : Globals)
    (probes : ℕ → Probe) :
    (mountHost mountPoint stack room g probes).MountedAt mountPoint stack room g probes := by
  have hpath : ∀ cs, components (pathString cs) = cs.map FileName.val := by
    intro cs
    have hcs : components (pathString cs ++ []) = cs.map FileName.val ++ components [] :=
      components_pathString_append cs (by simp)
    rwa [List.append_nil, components, List.append_nil] at hcs
  have hdir : ∀ cs, components (dirPath cs) = cs.map FileName.val := by
    intro cs
    rw [dirPath, components_pathString_append cs (by simp), components_slash_cons, components,
      List.append_nil]
  constructor
  · intro cs a _ h
    have hrun := Answer.gives_run h
    simpa [mountHost, hpath, getLast?_pathString] using hrun
  · intro cs a _ h
    have hrun := Answer.gives_run h
    simpa [mountHost, hdir, getLast?_dirPath] using hrun
  · intro cs a _ h
    have hrun := Answer.gives_run h
    simpa [mountHost, hpath] using hrun
  · intro cs a _ h
    have hrun := Answer.gives_run (h (List.replicate (pathMax + 1) 0) (List.length_replicate ..))
    simpa [mountHost, hpath] using hrun

theorem smallTree_carried : smallTree.Carried :=
  ⟨fun cs a t hget => smallTree_forall (P := fun _ n => ∀ a t, n = .link a t → sep ∉ t.val)
      (by simp [Tree.root])
      (by rintro a t ⟨⟩; decide) (by simp) (by simp) cs _ hget a t rfl,
    smallTree_forall (by decide) (by decide) (by decide) (by decide)⟩

theorem smallTree_takenAt : smallTree.TakenAt [ch 'm'] := by
  have htakes : ∀ cs node, smallTree.get cs = some node → Takes ([ch 'm'] ++ dirPath cs) cs :=
    smallTree_forall (by unfold Takes; decide) (by unfold Takes; decide) (by unfold Takes; decide)
      (by unfold Takes; decide)
  refine ⟨fun cs node h => ⟨?_, (htakes cs node h).2⟩, fun cs ⟨a, ch, h⟩ => htakes cs _ h⟩
  have hlen := (htakes cs node h).1
  simp only [dirPath, List.length_append] at hlen ⊢
  omega

def smallMount : Host :=
  mountHost [ch 'm'] 100 strdupRoom (geometry (catalogFile smallRecords))
    (steady (catalogFile smallRecords))

theorem smallRecords_mountable : Mountable [ch 'c'] 100 (catalogFile smallRecords) := by
  refine ⟨by decide, by decide, ?_⟩
  rw [neverOverflows_catalogFile_iff (by decide) smallRecords_printable (by decide) (by decide)]
  decide

theorem smallTree_roomy : smallTree.Roomy strdupRoom := by
  intro cs hdir
  rcases smallTree_isDir hdir with rfl | rfl
  · exact hasRoom_slash
  · decide

theorem mounted_shows_iff_smallTree :
    smallMount.ShowsFiles [ch 'm'] smallTree ∧
        smallMount.Lists [ch 'm'] smallTree noFailure noFailure ↔
      smallTree.SlashOrdered ∧ smallTree.Carried := by
  have hshows := treeHost_shows [ch 'r'] smallTree noFailure
  obtain ⟨recs, hw, h⟩ := mounted_shows_iff (by decide) hshows smallTree_clean smallTree_takenAt
  obtain rfl := writes_unique hshows (by decide) hw writes_smallRecords
  exact h _ _ smallRecords_mountable _ (serves_steady _) _ smallTree_roomy _
    (mountHost_mountedAt _ _ _ _ _)

theorem regenerated_eq_smallTree : Writes smallMount [ch 'm'] smallRecords := by
  have hshows := treeHost_shows [ch 'r'] smallTree noFailure
  obtain ⟨recs, hw, h⟩ := regenerated_eq (by decide) hshows smallTree_clean smallTree_takenAt
    (by decide) smallTree_slashOrdered smallTree_carried
  obtain rfl := writes_unique hshows (by decide) hw writes_smallRecords
  exact (h _ _ smallRecords_mountable _ (serves_steady _) _ smallTree_roomy _
    (mountHost_mountedAt _ _ _ _ _) _).mpr rfl

end CatalogFS
