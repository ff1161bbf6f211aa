import CatalogFS.CLib.Strings

namespace CLib

inductive FileOp (Name : Type)
  | fopen (f : Name)
  | fputs (f : Name) (text : Bytes)
  | fflush (f : Name)
  | rename (old new : Name)

structure Streams (Name : Type) where
  file : Name → Option Bytes
  buffer : Name → Bytes

variable {Name : Type} [DecidableEq Name]

/-- A file that is renamed takes its stream along. -/
def FileOp.exec (s : Streams Name) : FileOp Name → Streams Name
  | .fopen f => ⟨Function.update s.file f (some []), Function.update s.buffer f []⟩
  | .fputs f text => { s with buffer := Function.update s.buffer f (s.buffer f ++ text) }
  | .fflush f =>
    ⟨Function.update s.file f ((s.file f).map (· ++ s.buffer f)), Function.update s.buffer f []⟩
  | .rename old new =>
    ⟨fun f => if f = new then s.file old else if f = old then none else s.file f,
      fun f => if f = new then s.buffer old else if f = old then [] else s.buffer f⟩

/-- The operations one after another, where the library writes only what it has to. -/
def runOps (ops : List (FileOp Name)) (s : Streams Name) : Streams Name := ops.foldl FileOp.exec s

/-- The library has moved the start of each buffer of the first state to its file. -/
def Drained (s s' : Streams Name) : Prop :=
  ∀ f, ∃ start, s.buffer f = start ++ s'.buffer f ∧ s'.file f = (s.file f).map (· ++ start)

/-- A process with operations left to do makes the next one, or the library writes. -/
inductive Step : List (FileOp Name) × Streams Name → List (FileOp Name) × Streams Name → Prop
  | op (o : FileOp Name) (ops : List (FileOp Name)) (s : Streams Name) :
      Step (o :: ops, s) (ops, o.exec s)
  | drain (ops : List (FileOp Name)) {s s' : Streams Name} : Drained s s' → Step (ops, s) (ops, s')

/-- Killing the process somewhere in these operations can leave these files. -/
def Killed (ops : List (FileOp Name)) (s : Streams Name) (file : Name → Option Bytes) : Prop :=
  ∃ ops' s', Relation.ReflTransGen Step (ops, s) (ops', s') ∧ s'.file = file

def Leaves (s : Streams Name) (file : Name → Option Bytes) : Prop :=
  ∀ f, ∃ start, start <+: s.buffer f ∧ file f = (s.file f).map (· ++ start)

section Reachable

variable {s s' s'' : Streams Name} {ops ops' : List (FileOp Name)} {file : Name → Option Bytes}

@[simp] theorem map_append_nil (b : Option Bytes) : b.map (· ++ []) = b := by
  cases b <;> simp

omit [DecidableEq Name] in
theorem Drained.refl (s : Streams Name) : Drained s s :=
  fun _ => ⟨[], rfl, (map_append_nil _).symm⟩

omit [DecidableEq Name] in
theorem Drained.trans (h : Drained s s') (h' : Drained s' s'') : Drained s s'' := by
  intro f
  obtain ⟨start, hbuffer, hfile⟩ := h f
  obtain ⟨start', hbuffer', hfile'⟩ := h' f
  refine ⟨start ++ start', by rw [hbuffer, hbuffer', List.append_assoc], ?_⟩
  rw [hfile', hfile, Option.map_map]
  simp [Function.comp_def]

/-- What the library has written early makes no other difference to an operation. -/
theorem Drained.exec (h : Drained s s') (o : FileOp Name) : Drained (o.exec s) (o.exec s') := by
  intro f
  obtain ⟨start, hbuffer, hfile⟩ := h f
  cases o with
  | fopen g =>
    by_cases hfg : f = g
    · subst hfg
      exact ⟨[], by simp [FileOp.exec]⟩
    · exact ⟨start, by simpa [FileOp.exec, hfg] using ⟨hbuffer, hfile⟩⟩
  | fputs g text =>
    by_cases hfg : f = g
    · subst hfg
      exact ⟨start, by simp [FileOp.exec, hbuffer, hfile]⟩
    · exact ⟨start, by simpa [FileOp.exec, hfg] using ⟨hbuffer, hfile⟩⟩
  | fflush g =>
    by_cases hfg : f = g
    · subst hfg
      refine ⟨[], by simp [FileOp.exec], ?_⟩
      simp [FileOp.exec, hbuffer, hfile, Function.comp_def]
    · exact ⟨start, by simpa [FileOp.exec, hfg] using ⟨hbuffer, hfile⟩⟩
  | rename old new =>
    by_cases hnew : f = new
    · obtain ⟨start', hbuffer', hfile'⟩ := h old
      exact ⟨start', by simpa [FileOp.exec, hnew] using ⟨hbuffer', hfile'⟩⟩
    · by_cases hold : f = old
      · exact ⟨[], by subst hold; simp [FileOp.exec, hnew]⟩
      · exact ⟨start, by simpa [FileOp.exec, hnew, hold] using ⟨hbuffer, hfile⟩⟩

theorem drained_fflush (s : Streams Name) (f : Name) : Drained s (FileOp.exec s (.fflush f)) := by
  intro g
  by_cases hg : g = f
  · subst hg
    exact ⟨s.buffer g, by simp [FileOp.exec]⟩
  · exact ⟨[], by simp [FileOp.exec, hg]⟩

/-- The states that are reached are those after some of the operations, with parts of the buffers
written. -/
theorem reachable_iff : Relation.ReflTransGen Step (ops, s) (ops', s') ↔
    ∃ made, ops = made ++ ops' ∧ Drained (runOps made s) s' := by
  constructor
  · intro h
    have hinv : ∀ p : List (FileOp Name) × Streams Name, Relation.ReflTransGen Step (ops, s) p →
        ∃ made, ops = made ++ p.1 ∧ Drained (runOps made s) p.2 := by
      intro p hp
      induction hp with
      | refl => exact ⟨[], rfl, Drained.refl s⟩
      | tail _ hstep ih =>
        obtain ⟨made, hops, hdrained⟩ := ih
        cases hstep with
        | op o rest t =>
          refine ⟨made ++ [o], by simpa using hops, ?_⟩
          rw [runOps, List.foldl_append]
          exact hdrained.exec o
        | drain rest hmore => exact ⟨made, hops, hdrained.trans hmore⟩
    exact hinv (ops', s') h
  · rintro ⟨made, rfl, hdrained⟩
    refine .tail ?_ (Step.drain ops' hdrained)
    clear hdrained
    induction made generalizing s with
    | nil => exact .refl
    | cons o made ih => exact .head (Step.op o (made ++ ops') s) ih

omit [DecidableEq Name] in
theorem leaves_iff : Leaves s file ↔ ∃ s', Drained s s' ∧ s'.file = file := by
  constructor
  · intro h
    choose start hstart hfile using h
    choose rest hrest using hstart
    exact ⟨⟨file, rest⟩, fun f => ⟨start f, (hrest f).symm, hfile f⟩, rfl⟩
  · rintro ⟨s', h, rfl⟩ f
    obtain ⟨start, hbuffer, hfile⟩ := h f
    exact ⟨start, ⟨s'.buffer f, hbuffer.symm⟩, hfile⟩

theorem killed_iff : Killed ops s file ↔ ∃ made, made <+: ops ∧ Leaves (runOps made s) file := by
  simp only [Killed, reachable_iff, leaves_iff]
  constructor
  · rintro ⟨ops', s', ⟨made, hops, hdrained⟩, hfile⟩
    exact ⟨made, ⟨ops', hops.symm⟩, s', hdrained, hfile⟩
  · rintro ⟨made, ⟨ops', hops⟩, s', hdrained, hfile⟩
    exact ⟨ops', s', ⟨made, hops.symm, hdrained⟩, hfile⟩

theorem killed_nil : Killed [] s file ↔ Leaves s file := by
  simp [killed_iff, runOps]

theorem killed_cons (o : FileOp Name) :
    Killed (o :: ops) s file ↔ Leaves s file ∨ Killed ops (o.exec s) file := by
  simp only [killed_iff, List.prefix_cons_iff]
  constructor
  · rintro ⟨made, rfl | ⟨made, rfl, hmade⟩, hleaves⟩
    · exact .inl hleaves
    · exact .inr ⟨made, hmade, hleaves⟩
  · rintro (hleaves | ⟨made, hmade, hleaves⟩)
    · exact ⟨[], .inl rfl, hleaves⟩
    · exact ⟨o :: made, .inr ⟨made, rfl, hmade⟩, hleaves⟩

@[simp] theorem runOps_nil (s : Streams Name) : runOps [] s = s := rfl

@[simp] theorem runOps_cons (o : FileOp Name) (ops : List (FileOp Name)) (s : Streams Name) :
    runOps (o :: ops) s = runOps ops (o.exec s) := rfl

@[simp] theorem runOps_append (ops ops' : List (FileOp Name)) (s : Streams Name) :
    runOps (ops ++ ops') s = runOps ops' (runOps ops s) :=
  List.foldl_append

theorem runOps_fputs (f : Name) (texts : List Bytes) (s : Streams Name) :
    runOps (texts.map (FileOp.fputs f)) s = FileOp.exec s (.fputs f texts.flatten) := by
  induction texts generalizing s with
  | nil => simp [FileOp.exec]
  | cons t texts ih =>
    rw [List.map_cons, runOps_cons, ih]
    simp [FileOp.exec]

theorem killed_append (made : List (FileOp Name)) :
    Killed (made ++ ops) s file ↔ Killed made s file ∨ Killed ops (runOps made s) file := by
  induction made generalizing s with
  | nil =>
    rw [List.nil_append, runOps_nil, killed_nil]
    exact ⟨.inr, fun h => h.elim (fun hleaves => killed_iff.mpr ⟨[], List.nil_prefix, hleaves⟩) id⟩
  | cons o made ih => rw [List.cons_append, killed_cons, ih, killed_cons, runOps_cons, or_assoc]

theorem Leaves.killed (h : Leaves (runOps ops s) file) : Killed ops s file :=
  killed_iff.mpr ⟨ops, List.prefix_rfl, h⟩

theorem killed_concat (o : FileOp Name) : Killed (ops ++ [o]) s file ↔
    Killed ops s file ∨ Leaves (o.exec (runOps ops s)) file := by
  rw [killed_append, killed_cons, killed_nil, ← or_assoc, or_iff_left_of_imp Leaves.killed]

theorem Leaves.of_fflush {f : Name} (h : Leaves (FileOp.exec s (.fflush f)) file) : Leaves s file := by
  obtain ⟨s', hdrained, hfile⟩ := leaves_iff.mp h
  exact leaves_iff.mpr ⟨s', (drained_fflush s f).trans hdrained, hfile⟩

theorem killed_concat_fflush (f : Name) :
    Killed (ops ++ [.fflush f]) s file ↔ Killed ops s file := by
  rw [killed_concat]
  exact or_iff_left_of_imp fun h => h.of_fflush.killed

theorem Leaves.fputs (h : Leaves s file) (f : Name) (text : Bytes) :
    Leaves (FileOp.exec s (.fputs f text)) file := by
  intro g
  obtain ⟨start, hstart, hfile⟩ := h g
  refine ⟨start, ?_, hfile⟩
  by_cases hg : g = f
  · subst hg
    simpa [FileOp.exec] using hstart.trans (List.prefix_append _ _)
  · simpa [FileOp.exec, hg] using hstart

/-- In a run of writes to one stream nothing can be left that cannot be left behind it. -/
theorem killed_fputs (f : Name) (texts : List Bytes) :
    Killed (texts.map (FileOp.fputs f)) s file ↔
      Leaves (FileOp.exec s (.fputs f texts.flatten)) file := by
  induction texts generalizing s with
  | nil => simp [killed_nil, FileOp.exec]
  | cons t texts ih =>
    have hexec : FileOp.exec (FileOp.exec s (.fputs f t)) (.fputs f texts.flatten) =
        FileOp.exec s (.fputs f (t :: texts).flatten) := by
      simp [FileOp.exec]
    rw [List.map_cons, killed_cons, ih, hexec]
    exact or_iff_right_of_imp fun h => h.fputs f _

end Reachable

end CLib
