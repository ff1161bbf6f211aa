import CatalogFS.Messages
import CatalogFS.Queue

namespace CatalogFS

open CLib LinkedList

variable {Addr : Type}

/-- The queue, how often `malloc` has been called for a node, the names for which it failed, and the
records written so far. -/
structure LinkedListing (Addr : Type) where
  memory : Memory Addr
  mallocs : ℕ
  lost : List Bytes
  catalog : List Record

/-- What `malloc` returns for a node when it is called for the `n`-th time. -/
abbrev Malloc (Addr : Type) := ℕ → Memory Addr → Option Addr

def LinkedListing.print (host : Host) (inputDir path : Bytes) (s : LinkedListing Addr) :
    Option (LinkedListing Addr) :=
  (printToCatalog host path inputDir).map fun r => { s with catalog := s.catalog ++ [r] }

section Operations

variable [DecidableEq Addr] (malloc : Malloc Addr)

def LinkedListing.insert (dirname : Bytes) (s : LinkedListing Addr) : Option (LinkedListing Addr) := do
  let (result, memory) ← s.memory.insertQueue (malloc s.mallocs s.memory) dirname
  return { s with
    memory
    mallocs := s.mallocs + 1
    lost := if result = -1 then s.lost ++ [dirname] else s.lost }

def linkedChild (host : Host) (inputDir currentDir : Bytes) (s : LinkedListing Addr) (ent : Dirent) :
    Option (LinkedListing Addr) := do
  let temp := currentDir ++ slash :: ent.dName
  let s ← s.print host inputDir temp
  if ent.dType = FileType.dir.dt then s.insert malloc temp else return s

def linkedDir (host : Host) (inputDir currentDir : Bytes) (s : LinkedListing Addr) :
    Option (LinkedListing Addr) := do
  let s ← s.print host inputDir (currentDir ++ [slash])
  match scandir host currentDir with
  | none => if Reportable (scandirError ++ currentDir) then return s else none
  | some namelist => namelist.foldlM (linkedChild malloc host inputDir currentDir) s

/-- The loop over the queue, with at most `fuel` iterations; it is also `none` when a pointer is
followed that does not point to a node. -/
def linkedLoop (host : Host) (inputDir : Bytes) : ℕ → LinkedListing Addr → Option (LinkedListing Addr)
  | fuel, s =>
    match s.memory.head, fuel with
    | none, _ => some s
    | some _, 0 => none
    | some _, fuel + 1 => do
      let (dirname, memory) ← s.memory.removeQueue
      let currentDir ← dirname
      let s ← linkedDir malloc host inputDir currentDir { s with memory }
      linkedLoop host inputDir fuel s

/-- `catalog_listing`, beginning in some memory. The calls of `malloc` for a name in `remove_queue` and
for attributes in `print_to_catalog`, whose failure the source does not survive, succeed. -/
def catalogListingLinked (host : Host) (inputDir : Bytes) (m : Memory Addr) (fuel : ℕ) :
    Option (LinkedListing Addr) := do
  let s ← LinkedListing.insert malloc inputDir ⟨m.initQueue, 0, [], []⟩
  linkedLoop malloc host inputDir fuel s

end Operations

/-- Memory that `malloc` returns is not in use. -/
def Malloc.Fresh (malloc : Malloc Addr) : Prop :=
  ∀ n m a, malloc n m = some a → m.heap a = none

/-- `malloc` finds memory as long as only finitely many nodes are in use. -/
def Malloc.Enough (malloc : Malloc Addr) : Prop :=
  ∀ n m, {a | m.heap a ≠ none}.Finite → malloc n m ≠ none

/-- The queue stands at the addresses `as`, which were not in use before the run, and the rest of the
memory is as it was. -/
structure Holds (heap : Addr → Option (BfQueue Addr)) (m : Memory Addr) (as : List Addr)
    (names : List Bytes) : Prop extends Represents m as names where
  unused : ∀ a ∈ as, heap a = none
  frame : ∀ a, a ∉ as → m.heap a = heap a

section Holds

variable {heap : Addr → Option (BfQueue Addr)} {m : Memory Addr} {as : List Addr}
  {names : List Bytes}

theorem Holds.finite (h : Holds heap m as names) (hfin : {a | heap a ≠ none}.Finite) :
    {a | m.heap a ≠ none}.Finite := by
  refine (hfin.union as.finite_toSet).subset fun a ha => ?_
  by_cases has : a ∈ as
  · exact .inr has
  · left
    change heap a ≠ none
    rw [← h.frame a has]
    exact ha

theorem Holds.drained (h : Holds heap m as []) : m.head = none ∧ m.heap = heap := by
  obtain rfl : as = [] := List.length_eq_zero_iff.mp h.length_eq
  exact ⟨h.follows, funext fun a => h.frame a (by simp)⟩

variable [DecidableEq Addr]

/-- An insert writes to the new node and to the last one only. -/
theorem Holds.insert (h : Holds heap m as names) {temp : Addr} (hfree : m.heap temp = none)
    (dirname : Bytes) : ∃ m', m.insertQueue (some temp) dirname = some (0, m') ∧
      Holds heap m' (as ++ [temp]) (names ++ [dirname]) := by
  obtain ⟨m', hm', hrep⟩ := h.toRepresents.insert hfree dirname
  have htemp : temp ∉ as := fun hmem => h.ne_of_unused hfree hmem rfl
  refine ⟨m', hm', hrep, ?_, ?_⟩
  · intro a ha
    rcases List.mem_append.mp ha with ha | ha
    · exact h.unused a ha
    · rw [List.mem_singleton.mp ha, ← h.frame temp htemp]
      exact hfree
  · intro a ha
    rw [List.mem_append, not_or, List.mem_singleton] at ha
    rw [← h.frame a ha.1]
    rcases List.eq_nil_or_concat' as with rfl | ⟨bs, tail, rfl⟩
    · have heq : m.insertQueue (some temp) dirname = _ := insertQueue_of_head_eq_none h.follows
      rw [hm'] at heq
      obtain rfl : m' = _ := congrArg Prod.snd (Option.some.inj heq)
      exact Function.update_of_ne ha.2 ..
    · obtain ⟨b, hhead⟩ : ∃ b, m.head = some b := by
        rw [h.follows.head_eq]
        cases bs <;> exact ⟨_, rfl⟩
      have htail : m.tail = some tail := by
        rw [h.tail_eq (by simp [hhead]), List.getLast?_concat]
      obtain ⟨node, hnode⟩ := h.follows.exists_cell (a := tail) (by simp)
      have heq : m.insertQueue (some temp) dirname = _ := insertQueue_of_head_eq_some hhead htail
        hnode (h.ne_of_unused hfree (a := tail) (by simp))
      rw [hm'] at heq
      obtain rfl : m' = _ := congrArg Prod.snd (Option.some.inj heq)
      have hat : a ≠ tail := fun hat => ha.1 (by simp [hat])
      change Function.update (Function.update m.heap temp _) tail _ a = m.heap a
      rw [Function.update_of_ne hat, Function.update_of_ne ha.2]

theorem Holds.remove {dirname : Bytes} (h : Holds heap m as (dirname :: names)) :
    ∃ m' as', m.head ≠ none ∧ m.removeQueue = some (some dirname, m') ∧ Holds heap m' as' names := by
  cases as with
  | nil => cases h.length_eq
  | cons a as =>
    obtain ⟨node, rest, hnode, hnames, -, -⟩ := h.toRepresents.exists_first
    obtain ⟨dirname', rest', m', hnames', hm', hrep, -, hfreed⟩ := h.toRepresents.remove_cons
    obtain ⟨rfl, rfl⟩ := List.cons.inj hnames'
    have hhead : m.head = some a := h.follows.1
    refine ⟨m', as, by simp [hhead], hm', hrep, fun x hx => h.unused x (List.mem_cons_of_mem a hx),
      ?_⟩
    intro x hx
    by_cases hxa : x = a
    · rw [hxa, hfreed, h.unused a List.mem_cons_self]
    · have heq : m.removeQueue = some (some node.dirname,
          ⟨Function.update m.heap a none, node.next, m.tail⟩) := by
        simp [Memory.removeQueue, hhead, hnode]
      rw [hm'] at heq
      obtain rfl : m' = _ := congrArg Prod.snd (Option.some.inj heq)
      change Function.update m.heap a none x = heap x
      rw [Function.update_of_ne hxa]
      exact h.frame x (by simp [hxa, hx])

end Holds

theorem rel_bind {α β γ δ : Type} {R : α → β → Prop} {S : γ → δ → Prop} {x : Option α} {y : Option β}
    {f : α → Option γ} {g : β → Option δ} (h : Option.Rel R x y)
    (hfg : ∀ a b, R a b → Option.Rel S (f a) (g b)) : Option.Rel S (x.bind f) (y.bind g) := by
  cases h with
  | some hab => exact hfg _ _ hab
  | none => exact .none

theorem rel_imp {α β : Type} {R S : α → β → Prop} {x : Option α} {y : Option β}
    (h : ∀ a b, R a b → S a b) (hxy : Option.Rel R x y) : Option.Rel S x y := by
  cases hxy with
  | some hab => exact .some (h _ _ hab)
  | none => exact .none

theorem exists_of_rel_some {α β : Type} {R : α → β → Prop} {x : Option α} {b : β}
    (h : Option.Rel R x (some b)) : ∃ a, x = some a ∧ R a b := by
  cases h with
  | some hab => exact ⟨_, rfl, hab⟩

theorem rel_foldlM {α β γ : Type} {R : α → β → Prop} {f : α → γ → Option α} {g : β → γ → Option β}
    (hfg : ∀ a b c, R a b → Option.Rel R (f a c) (g b c)) (l : List γ) {a : α} {b : β}
    (hab : R a b) : Option.Rel R (l.foldlM f a) (l.foldlM g b) := by
  induction l generalizing a b with
  | nil => exact .some hab
  | cons c l ih => exact rel_bind (hfg a b c hab) fun _ _ => ih

structure Refines (heap : Addr → Option (BfQueue Addr)) (s : LinkedListing Addr) (t : Listing) :
    Prop where
  holds : ∃ as, Holds heap s.memory as t.queue
  lost : s.lost = []
  catalog : s.catalog = t.catalog

section Refinement

variable [DecidableEq Addr] {malloc : Malloc Addr} {heap : Addr → Option (BfQueue Addr)}
  {s : LinkedListing Addr} {t : Listing} {as : List Addr} {names : List Bytes}

theorem LinkedListing.insert_cases (hfresh : malloc.Fresh) (h : Holds heap s.memory as names)
    (dirname : Bytes) :
    (malloc s.mallocs s.memory = none ∧ s.insert malloc dirname =
      some { s with mallocs := s.mallocs + 1, lost := s.lost ++ [dirname] }) ∨
    ∃ m' as', s.insert malloc dirname = some { s with memory := m', mallocs := s.mallocs + 1 } ∧
      Holds heap m' as' (names ++ [dirname]) := by
  unfold LinkedListing.insert
  cases htemp : malloc s.mallocs s.memory with
  | none => exact .inl ⟨rfl, rfl⟩
  | some temp =>
    obtain ⟨m', hm', hholds⟩ := h.insert (hfresh _ _ _ htemp) dirname
    rw [hm']
    exact .inr ⟨m', _, rfl, hholds⟩

variable {host : Host} {inputDir : Bytes}

theorem linkedLoop_drained (h : s.memory.head = none) (fuel : ℕ) :
    linkedLoop malloc host inputDir fuel s = some s := by
  unfold linkedLoop
  rw [h]

theorem linkedLoop_zero (h : s.memory.head ≠ none) : linkedLoop malloc host inputDir 0 s = none := by
  obtain ⟨a, ha⟩ := Option.ne_none_iff_exists'.mp h
  unfold linkedLoop
  rw [ha]

theorem linkedLoop_succ (h : s.memory.head ≠ none) (fuel : ℕ) :
    linkedLoop malloc host inputDir (fuel + 1) s =
      s.memory.removeQueue.bind fun r => r.1.bind fun dirname =>
        (linkedDir malloc host inputDir dirname { s with memory := r.2 }).bind
          (linkedLoop malloc host inputDir fuel) := by
  obtain ⟨a, ha⟩ := Option.ne_none_iff_exists'.mp h
  conv_lhs => unfold linkedLoop
  rw [ha]
  rfl

theorem linkedLoop_remove (h : s.memory.head ≠ none) {dirname : Bytes} {m' : Memory Addr}
    (hremove : s.memory.removeQueue = some (some dirname, m')) (fuel : ℕ) :
    linkedLoop malloc host inputDir (fuel + 1) s =
      (linkedDir malloc host inputDir dirname { s with memory := m' }).bind
        (linkedLoop malloc host inputDir fuel) := by
  rw [linkedLoop_succ h, hremove]
  rfl

theorem linkedLoop_mono {fuel : ℕ} {s' : LinkedListing Addr}
    (h : linkedLoop malloc host inputDir fuel s = some s') (k : ℕ) :
    linkedLoop malloc host inputDir (fuel + k) s = some s' := by
  induction fuel generalizing s with
  | zero =>
    by_cases hhead : s.memory.head = none
    · rw [linkedLoop_drained hhead] at h ⊢
      exact h
    · rw [linkedLoop_zero hhead] at h
      cases h
  | succ fuel ih =>
    by_cases hhead : s.memory.head = none
    · rw [linkedLoop_drained hhead] at h ⊢
      exact h
    · rw [linkedLoop_succ hhead] at h
      obtain ⟨r, hr, h⟩ := Option.bind_eq_some_iff.mp h
      obtain ⟨dirname, hname, h⟩ := Option.bind_eq_some_iff.mp h
      obtain ⟨s₁, hs₁, h⟩ := Option.bind_eq_some_iff.mp h
      rw [Nat.add_right_comm, linkedLoop_succ hhead, hr, Option.bind_some, hname, Option.bind_some,
        hs₁, Option.bind_some]
      exact ih h

variable (hfresh : malloc.Fresh) (henough : malloc.Enough) (hfin : {a | heap a ≠ none}.Finite)

omit [DecidableEq Addr] in
theorem Refines.print (h : Refines heap s t) (path : Bytes) :
    Option.Rel (Refines heap) (s.print host inputDir path) (t.print host inputDir path) := by
  unfold LinkedListing.print Listing.print
  cases printToCatalog host path inputDir with
  | none => exact .none
  | some r => exact .some ⟨h.holds, h.lost, by rw [h.catalog]⟩

include hfresh henough hfin

theorem Refines.insert (h : Refines heap s t) (dirname : Bytes) :
    Option.Rel (Refines heap) (s.insert malloc dirname)
      (some { t with queue := insertQueue t.queue dirname }) := by
  obtain ⟨as, hholds⟩ := h.holds
  rcases LinkedListing.insert_cases hfresh hholds dirname with ⟨hnone, -⟩ | ⟨m', as', hs, hholds'⟩
  · exact absurd hnone (henough _ _ (hholds.finite hfin))
  · rw [hs]
    exact .some ⟨⟨as', hholds'⟩, h.lost, h.catalog⟩

theorem Refines.child (h : Refines heap s t) (currentDir : Bytes) (ent : Dirent) :
    Option.Rel (Refines heap) (linkedChild malloc host inputDir currentDir s ent)
      (listChild host inputDir currentDir t ent) := by
  refine rel_bind (h.print _) fun s t hst => ?_
  split_ifs
  · exact hst.insert hfresh henough hfin _
  · exact .some hst

theorem Refines.dir (h : Refines heap s t) (currentDir : Bytes) :
    Option.Rel (Refines heap) (linkedDir malloc host inputDir currentDir s)
      (listDirReporting host inputDir currentDir t) := by
  refine rel_bind (h.print _) fun s t hst => ?_
  cases scandir host currentDir with
  | none =>
    dsimp only
    split_ifs
    · exact .some hst
    · exact .none
  | some namelist =>
    exact rel_foldlM (fun _ _ ent hst => hst.child hfresh henough hfin currentDir ent) namelist hst

variable (host inputDir) in
/-- Iteration for iteration the linked run does what the run with a list does. -/
theorem Refines.loop (fuel : ℕ) (h : Refines heap s t) :
    Option.Rel (fun s recs => Refines heap s ⟨[], recs⟩) (linkedLoop malloc host inputDir fuel s)
      (catalogListingReportingLoop host inputDir fuel t) := by
  induction fuel generalizing s t with
  | zero =>
    obtain ⟨queue, catalog⟩ := t
    obtain ⟨as, hholds⟩ := h.holds
    cases queue with
    | nil =>
      rw [linkedLoop_drained hholds.drained.1]
      exact .some h
    | cons dirname queue =>
      obtain ⟨m', as', hhead, -, -⟩ := hholds.remove
      rw [linkedLoop_zero hhead]
      exact .none
  | succ fuel ih =>
    obtain ⟨queue, catalog⟩ := t
    obtain ⟨as, hholds⟩ := h.holds
    cases queue with
    | nil =>
      rw [linkedLoop_drained hholds.drained.1]
      exact .some h
    | cons dirname queue =>
      obtain ⟨m', as', hhead, hremove, hholds'⟩ := hholds.remove
      rw [linkedLoop_remove hhead hremove]
      have hnext : Refines heap { s with memory := m' } ⟨queue, catalog⟩ :=
        ⟨⟨as', hholds'⟩, h.lost, h.catalog⟩
      exact rel_bind (hnext.dir hfresh henough hfin dirname) fun _ _ => ih

omit hfin in
/-- With enough memory for the nodes the run with the linked queue ends after as many iterations as the
run with a list, having written the same records, or both break off at the same message; no directory
is lost, and every node has been given back. -/
theorem linked_listing_refines (m : Memory Addr) (hused : {a | m.heap a ≠ none}.Finite) (host : Host)
    (inputDir : Bytes) (fuel : ℕ) :
    Option.Rel (fun s recs => s.catalog = recs ∧ s.lost = [] ∧ s.memory.head = none ∧
        s.memory.heap = m.heap)
      (catalogListingLinked malloc host inputDir m fuel)
      (catalogListingReporting host inputDir fuel) := by
  have hinit : Refines m.heap (⟨m.initQueue, 0, [], []⟩ : LinkedListing Addr) ⟨[], []⟩ :=
    ⟨⟨[], represents_init m, nofun, fun _ _ => rfl⟩, rfl, rfl⟩
  have hrun := rel_bind (hinit.insert hfresh henough hused inputDir) fun _ _ hst =>
    Refines.loop host inputDir hfresh henough hused fuel hst
  refine rel_imp (fun s recs h => ?_) hrun
  obtain ⟨as, hholds⟩ := h.holds
  exact ⟨h.catalog, h.lost, hholds.drained⟩

end Refinement

noncomputable def firstFree : Malloc ℕ := fun _ m =>
  open Classical in if h : ∃ a, m.heap a = none then some (Nat.find h) else none

theorem firstFree_fresh : Malloc.Fresh firstFree := by
  intro n m a h
  unfold firstFree at h
  split_ifs at h with hex
  rw [← Option.some.inj h]
  exact Nat.find_spec hex

theorem firstFree_enough : Malloc.Enough firstFree := by
  intro n m hfin
  obtain ⟨a, ha⟩ := hfin.exists_notMem
  have hex : ∃ a, m.heap a = none := ⟨a, not_not.mp ha⟩
  simp [firstFree, hex]

def noNodes : Memory ℕ := ⟨fun _ => none, none, none⟩

theorem linked_listing_refines_smallTree : ∃ fuel s,
    catalogListingLinked firstFree (treeHost [ch 'r'] smallTree noFailure) [ch 'r'] noNodes fuel =
        some s ∧
      WritesReporting (treeHost [ch 'r'] smallTree noFailure) [ch 'r'] s.catalog ∧
      s.memory.heap = noNodes.heap := by
  have hw := (writesReporting_iff (by decide) (treeHost_shows [ch 'r'] smallTree noFailure)).mpr
    ⟨rfl, by rintro cs - ⟨⟩⟩
  obtain ⟨fuel, hfuel⟩ := hw
  have hrel := linked_listing_refines firstFree_fresh firstFree_enough noNodes (by simp [noNodes])
    (treeHost [ch 'r'] smallTree noFailure) [ch 'r'] fuel
  rw [hfuel] at hrel
  obtain ⟨s, hs, hcat, -, -, hheap⟩ := exists_of_rel_some hrel
  exact ⟨fuel, s, hs, ⟨fuel, by rw [hcat, hfuel]⟩, hheap⟩

theorem kept_append {α : Type} (l₁ l₂ : List (α × Bool)) :
    Worklist.kept (l₁ ++ l₂) = Worklist.kept l₁ ++ Worklist.kept l₂ := by
  simp [Worklist.kept]

theorem dropped_append {α : Type} (l₁ l₂ : List (α × Bool)) :
    Worklist.dropped (l₁ ++ l₂) = Worklist.dropped l₁ ++ Worklist.dropped l₂ := by
  simp [Worklist.dropped]

section Losses

variable [DecidableEq Addr] {malloc : Malloc Addr} {heap : Addr → Option (BfQueue Addr)}
  {s : LinkedListing Addr} {as : List Addr} {names : List Bytes} {host : Host} {inputDir : Bytes}
  {T : Tree} {fails unknown : List FileName → Bool} {printed : Bytes → Record}
  (hfresh : malloc.Fresh)
  (hprinted : ∀ path, printToCatalog host (inputDir ++ path) inputDir = some (printed path))

include hfresh hprinted

theorem linkedChild_cases (unknown : List FileName → Bool) (h : Holds heap s.memory as names)
    (cs : List FileName) (e : FileName × Node) :
    ∃ marks : List (List FileName × Bool),
      marks.map Prod.fst = (if e.2.isDir && !unknown (cs ++ [e.1]) then [cs ++ [e.1]] else []) ∧
      ∃ s' as', linkedChild malloc host inputDir (inputDir ++ pathString cs) s (direntBy unknown cs e) =
          some s' ∧
        Holds heap s'.memory as'
          (names ++ (Worklist.kept marks).map fun ds => inputDir ++ pathString ds) ∧
        s'.lost = s.lost ++ (Worklist.dropped marks).map (fun ds => inputDir ++ pathString ds) ∧
        s'.catalog = s.catalog ++ [printed (dirPath cs ++ e.1.val)] := by
  have htemp : (inputDir ++ pathString cs) ++ slash :: (direntBy unknown cs e).dName =
      inputDir ++ pathString (cs ++ [e.1]) := by simp [direntBy, pathString_append]
  have hprint : printToCatalog host (inputDir ++ pathString (cs ++ [e.1])) inputDir =
      some (printed (dirPath cs ++ e.1.val)) := by
    rw [pathString_concat]
    exact hprinted _
  simp only [linkedChild, LinkedListing.print, htemp, hprint, dType_direntBy, Option.map_some,
    Option.bind_eq_bind, Option.bind_some]
  cases e.2.isDir && !unknown (cs ++ [e.1]) with
  | false => exact ⟨[], rfl, _, as, rfl, by simpa [Worklist.kept] using h,
      by simp [Worklist.dropped], rfl⟩
  | true =>
    rcases LinkedListing.insert_cases hfresh (s := { s with catalog := s.catalog ++ _ }) h
      (inputDir ++ pathString (cs ++ [e.1])) with ⟨-, hs⟩ | ⟨m', as', hs, hholds⟩
    · exact ⟨[(cs ++ [e.1], false)], rfl, _, as, hs, by simpa [Worklist.kept] using h,
        by simp [Worklist.dropped], rfl⟩
    · exact ⟨[(cs ++ [e.1], true)], rfl, _, as', hs, by simpa [Worklist.kept] using hholds,
        by simp [Worklist.dropped], rfl⟩

theorem foldlM_linkedChild (unknown : List FileName → Bool) (h : Holds heap s.memory as names)
    (cs : List FileName) (es : List (FileName × Node)) :
    ∃ marks : List (List FileName × Bool),
      marks.map Prod.fst =
        (es.filter fun e => e.2.isDir && !unknown (cs ++ [e.1])).map (fun e => cs ++ [e.1]) ∧
      ∃ s' as', (es.map (direntBy unknown cs)).foldlM
          (linkedChild malloc host inputDir (inputDir ++ pathString cs)) s = some s' ∧
        Holds heap s'.memory as'
          (names ++ (Worklist.kept marks).map fun ds => inputDir ++ pathString ds) ∧
        s'.lost = s.lost ++ (Worklist.dropped marks).map (fun ds => inputDir ++ pathString ds) ∧
        s'.catalog = s.catalog ++ es.map fun e => printed (dirPath cs ++ e.1.val) := by
  induction es generalizing s as names with
  | nil =>
    exact ⟨[], rfl, s, as, rfl, by simpa [Worklist.kept] using h, by simp [Worklist.dropped],
      by simp⟩
  | cons e es ih =>
    obtain ⟨marks, hmarks, s₁, as₁, hs₁, hholds₁, hlost₁, hcat₁⟩ :=
      linkedChild_cases hfresh hprinted unknown h cs e
    obtain ⟨marks', hmarks', s₂, as₂, hs₂, hholds₂, hlost₂, hcat₂⟩ := ih hholds₁
    refine ⟨marks ++ marks', ?_, s₂, as₂, ?_, ?_, ?_, ?_⟩
    · rw [List.map_append, hmarks, hmarks', List.filter_cons]
      split_ifs <;> simp
    · rw [List.map_cons, List.foldlM_cons, hs₁]
      exact hs₂
    · rw [kept_append, List.map_append, ← List.append_assoc]
      exact hholds₂
    · rw [hlost₂, hlost₁, dropped_append, List.map_append, List.append_assoc]
    · rw [hcat₂, hcat₁]
      simp

theorem linkedDir_cases (hlists : host.Lists inputDir T fails unknown)
    (h : Holds heap s.memory as names) {cs : List FileName} (hdir : T.IsDir cs)
    (hspeaks : Speaks inputDir fails cs) :
    ∃ marks : List (List FileName × Bool),
      marks.map Prod.fst = T.subdirsBy fails unknown cs ∧
      ∃ s' as', linkedDir malloc host inputDir (inputDir ++ pathString cs) s = some s' ∧
        Holds heap s'.memory as'
          (names ++ (Worklist.kept marks).map fun ds => inputDir ++ pathString ds) ∧
        s'.lost = s.lost ++ (Worklist.dropped marks).map (fun ds => inputDir ++ pathString ds) ∧
        s'.catalog = s.catalog ++ T.blockBy fails printed cs := by
  obtain ⟨a, ch, hget⟩ := hdir
  have hprint : printToCatalog host ((inputDir ++ pathString cs) ++ [slash]) inputDir =
      some (printed (dirPath cs)) := by
    rw [List.append_assoc]
    exact hprinted _
  simp only [linkedDir, LinkedListing.print, hprint, Option.map_some, Option.bind_eq_bind,
    Option.bind_some, Tree.subdirsBy, Tree.blockBy, hget]
  cases hf : fails cs with
  | true =>
    have hscan : scandir host (inputDir ++ pathString cs) = none := by
      rw [scandir, hlists.readdir_fails cs a ch hget hf]
      rfl
    rw [hscan]
    exact ⟨[], rfl, _, as, if_pos (hspeaks hf), by simpa [Worklist.kept] using h,
      by simp [Worklist.dropped], rfl⟩
  | false =>
    obtain ⟨ents, dots, hents, hdots, hperm⟩ := hlists.readdir_dir cs a ch hget hf
    have hscan := scandir_eq (f := direntBy unknown cs) (fun _ => rfl) hents hdots hperm
      (T.distinct cs a ch hget)
    rw [hscan]
    obtain ⟨marks, hmarks, s', as', hs', hholds, hlost, hcat⟩ :=
      foldlM_linkedChild hfresh hprinted unknown
        (s := { s with catalog := s.catalog ++ [printed (dirPath cs)] }) h cs (byName ch)
    refine ⟨marks, hmarks, s', as', hs', hholds, hlost, ?_⟩
    rw [hcat]
    simp

end Losses

theorem pathString_injective : Function.Injective pathString := by
  intro cs ds h
  have hdirs : dirPath cs ++ [] = dirPath ds ++ [] := by rw [dirPath, dirPath, h]
  exact (dirPath_append_inj (by simp) (by simp) hdirs).1

section Visited

variable {T : Tree} {fails unknown : List FileName → Bool}

theorem nodup_subdirsBy (cs : List FileName) : (T.subdirsBy fails unknown cs).Nodup := by
  unfold Tree.subdirsBy
  split
  · rename_i a ch h
    split_ifs
    · exact List.nodup_nil
    · refine List.pairwise_map.mpr
        (((pairwise_byName (T.distinct cs a ch h)).filter _).imp fun hab heq => ?_)
      have hname : [_] = [_] := List.append_cancel_left heq
      exact hab.ne (congrArg FileName.val (List.singleton_inj.mp hname))
  · exact List.nodup_nil

theorem forest_subdirsBy : Worklist.Forest (T.subdirsBy fails unknown) [[]] where
  roots_nodup := List.nodup_singleton _
  kids_nodup := nodup_subdirsBy
  notMem_roots := by
    intro cs ds hds hroot
    obtain ⟨-, -, c, rfl, -⟩ := mem_subdirsBy.mp hds
    simp at hroot
  parent_unique := by
    intro cs ds es hcs hds
    obtain ⟨-, -, c, rfl, -⟩ := mem_subdirsBy.mp hcs
    obtain ⟨-, -, d, hd, -⟩ := mem_subdirsBy.mp hds
    exact List.append_inj_left' hd rfl

theorem isDir_of_lossy {visited queue lost : List (List FileName)}
    (h : Worklist.Lossy (T.subdirsBy fails unknown) [[]] visited queue lost) :
    (∀ cs ∈ visited ++ queue, T.IsDir cs) ∧
      visited.length + queue.length ≤ (T.dirs noFailure).length := by
  have hmet := h.forall_met (P := T.IsDir) (by simpa using T.isDir_nil) fun cs _ ds hds => by
    obtain ⟨-, -, c, -, hdir, -⟩ := mem_subdirsBy.mp hds
    exact hdir
  have hdirs : ∀ cs ∈ visited ++ queue, T.IsDir cs := fun cs hcs =>
    hmet cs (List.mem_append_left _ hcs)
  refine ⟨hdirs, ?_⟩
  have hnodup := (h.nodup forest_subdirsBy).1
  rw [← List.length_append]
  apply ((List.nodup_append.mp hnodup).1.subperm ?_).length_le
  exact fun cs hcs => mem_dirs_iff.mpr (reached_of_isDir (hdirs cs hcs))

/-- Losing directories is not being told their types. -/
theorem subdirsBy_lost (lost : List (List FileName)) :
    T.subdirsBy fails (fun cs => unknown cs || decide (cs ∈ lost)) =
      fun cs => (T.subdirsBy fails unknown cs).filter (· ∉ lost) := by
  funext cs
  unfold Tree.subdirsBy
  split
  · split_ifs
    · rfl
    · rw [List.filter_map, List.filter_filter]
      congr 1
      apply List.filter_congr
      intro e _
      simp only [Function.comp_apply, Bool.not_or, decide_not]
      cases e.2.isDir <;> cases unknown (cs ++ [e.1]) <;> simp
  · rfl

end Visited

/-- Where a run is that has visited some directories, still has to visit others and has lost the
rest. -/
structure Tracks (heap : Addr → Option (BfQueue Addr)) (inputDir : Bytes)
    (block : List FileName → List Record) (s : LinkedListing Addr)
    (visited queue lost : List (List FileName)) : Prop where
  holds : ∃ as, Holds heap s.memory as (queue.map fun cs => inputDir ++ pathString cs)
  lost : s.lost = lost.map fun cs => inputDir ++ pathString cs
  catalog : s.catalog = visited.flatMap block

section Runs

variable [DecidableEq Addr] {malloc : Malloc Addr} {heap : Addr → Option (BfQueue Addr)}
  {s : LinkedListing Addr} {host : Host} {inputDir : Bytes} {T : Tree}
  {fails unknown : List FileName → Bool} {visited queue lost : List (List FileName)}

section Printed

variable {printed : Bytes → Record} (hfresh : malloc.Fresh)
  (hprinted : ∀ path, printToCatalog host (inputDir ++ path) inputDir = some (printed path))
  (hlists : host.Lists inputDir T fails unknown)
  (hspeaks : ∀ cs, T.IsDir cs → Speaks inputDir fails cs)

include hfresh hprinted hlists hspeaks

/-- An iteration visits the first directory and keeps or loses each one in it. -/
theorem Tracks.step {cs : List FileName}
    (h : Tracks heap inputDir (T.blockBy fails printed) s visited (cs :: queue) lost)
    (hdir : T.IsDir cs) :
    ∃ marks s', marks.map Prod.fst = T.subdirsBy fails unknown cs ∧ s.memory.head ≠ none ∧
      (∀ fuel, linkedLoop malloc host inputDir (fuel + 1) s = linkedLoop malloc host inputDir fuel s') ∧
      Tracks heap inputDir (T.blockBy fails printed) s' (visited ++ [cs])
        (queue ++ Worklist.kept marks) (lost ++ Worklist.dropped marks) := by
  obtain ⟨as, hholds⟩ := h.holds
  obtain ⟨m', as', hhead, hremove, hholds'⟩ := hholds.remove
  obtain ⟨marks, hmarks, s', as'', hs', hholds'', hlost, hcat⟩ :=
    linkedDir_cases (s := { s with memory := m' }) hfresh hprinted hlists hholds' hdir (hspeaks cs hdir)
  refine ⟨marks, s', hmarks, hhead, fun fuel => ?_, ⟨as'', ?_⟩, ?_, ?_⟩
  · rw [linkedLoop_remove hhead hremove, hs']
    rfl
  · rw [List.map_append]
    exact hholds''
  · rw [hlost, List.map_append, ← h.lost]
  · rw [hcat, List.flatMap_append, ← h.catalog]
    simp

/-- The loop drains the queue, or it visits a directory in each iteration and is not done. -/
theorem Tracks.loop (fuel : ℕ)
    (h : Tracks heap inputDir (T.blockBy fails printed) s visited queue lost)
    (hlossy : Worklist.Lossy (T.subdirsBy fails unknown) [[]] visited queue lost) :
    (∃ s' visited' lost', linkedLoop malloc host inputDir fuel s = some s' ∧
      Worklist.Lossy (T.subdirsBy fails unknown) [[]] visited' [] lost' ∧
      Tracks heap inputDir (T.blockBy fails printed) s' visited' [] lost') ∨
    ∃ visited' queue' lost', Worklist.Lossy (T.subdirsBy fails unknown) [[]] visited' queue' lost' ∧
      queue' ≠ [] ∧ visited'.length = visited.length + fuel := by
  induction fuel generalizing s visited queue lost with
  | zero =>
    cases queue with
    | nil =>
      obtain ⟨as, hholds⟩ := h.holds
      exact .inl ⟨s, visited, lost, linkedLoop_drained hholds.drained.1 0, hlossy, h⟩
    | cons cs queue => exact .inr ⟨visited, cs :: queue, lost, hlossy, by simp, rfl⟩
  | succ fuel ih =>
    cases queue with
    | nil =>
      obtain ⟨as, hholds⟩ := h.holds
      exact .inl ⟨s, visited, lost, linkedLoop_drained hholds.drained.1 _, hlossy, h⟩
    | cons cs queue =>
      have hdir := (isDir_of_lossy hlossy).1 cs (by simp)
      obtain ⟨marks, s', hmarks, -, hloop, htracks⟩ := h.step hfresh hprinted hlists hspeaks hdir
      rcases ih htracks (hlossy.step marks hmarks) with
        ⟨s'', visited', lost', hs'', hrest⟩ | ⟨visited', queue', lost', hlossy', hne, hlen⟩
      · exact .inl ⟨s'', visited', lost', by rw [hloop, hs''], hrest⟩
      · refine .inr ⟨visited', queue', lost', hlossy', hne, ?_⟩
        rw [hlen, List.length_append, List.length_singleton]
        omega

end Printed

/-- What a drained run has written: the records of the directories that are visited when the types of
the lost ones are not known. -/
theorem flatMap_visited {β : Type} (block : List FileName → List β)
    (h : Worklist.Lossy (T.subdirsBy fails unknown) [[]] visited [] lost) :
    visited.flatMap block =
      (T.dirsBy fails fun cs => unknown cs || decide (cs ∈ lost)).flatMap block := by
  have hrun : Worklist.run block
      (T.subdirsBy fails fun cs => unknown cs || decide (cs ∈ lost)) visited.length [[]] [] =
      some (visited.flatMap block) := by
    rw [subdirsBy_lost]
    convert h.run_eq_of_drained block forest_subdirsBy
  have horder := Worklist.run_eq_order block _ (level_eq_nil_by T fails fun cs =>
    unknown cs || decide (cs ∈ lost)) []
  rw [List.nil_append] at horder
  exact Worklist.run_unique block _ hrun horder

theorem exists_drained {printed : Bytes → Record} (hfresh : malloc.Fresh)
    (hprinted : ∀ path, printToCatalog host (inputDir ++ path) inputDir = some (printed path))
    (hlists : host.Lists inputDir T fails unknown)
    (hspeaks : ∀ cs, T.IsDir cs → Speaks inputDir fails cs)
    (h : Tracks heap inputDir (T.blockBy fails printed) s [] [[]] []) :
    ∃ s' visited lost, (∃ n, ∀ fuel ≥ n, linkedLoop malloc host inputDir fuel s = some s') ∧
      Worklist.Lossy (T.subdirsBy fails unknown) [[]] visited [] lost ∧
      Tracks heap inputDir (T.blockBy fails printed) s' visited [] lost := by
  rcases h.loop hfresh hprinted hlists hspeaks (T.dirs noFailure).length .start with
    ⟨s', visited, lost, hs', hrest⟩ | ⟨visited, queue, lost, hlossy, hne, hlen⟩
  · refine ⟨s', visited, lost, ⟨(T.dirs noFailure).length, fun fuel hfuel => ?_⟩, hrest⟩
    obtain ⟨k, rfl⟩ := Nat.exists_eq_add_of_le hfuel
    exact linkedLoop_mono hs' k
  · -- more directories than there are
    have hbound := (isDir_of_lossy hlossy).2
    have hpos := List.length_pos_iff.mpr hne
    rw [hlen, List.length_nil] at hbound
    omega

/-- Whenever there is no memory for a node, as long as the messages for directories that cannot be
scanned can be printed, the run ends, every node is given back, and what has been written is the
catalog of a system that does not report the types of the directories that were lost. Without a node
for the root nothing is written. -/
theorem linked_listing_loses (hfresh : malloc.Fresh) (hne : inputDir ≠ [])
    (hfiles : host.ShowsFiles inputDir T) (hlists : host.Lists inputDir T fails unknown)
    (hspeaks : ∀ cs, T.IsDir cs → fails cs = true →
      Reportable (scandirError ++ (inputDir ++ pathString cs)))
    (m : Memory Addr) :
    ∃ s, (∃ n, ∀ fuel ≥ n, catalogListingLinked malloc host inputDir m fuel = some s) ∧
      s.memory.head = none ∧ s.memory.heap = m.heap ∧
      s.catalog = if inputDir ∈ s.lost then [] else
        (T.dirsBy fails fun cs => unknown cs || decide (inputDir ++ pathString cs ∈ s.lost)).flatMap
          (T.block fails) := by
  obtain ⟨printed, hprinted⟩ := exists_printed host hne
  have hinit : Holds m.heap m.initQueue [] [] := ⟨represents_init m, nofun, fun _ _ => rfl⟩
  rcases LinkedListing.insert_cases hfresh (s := ⟨m.initQueue, 0, [], []⟩) hinit inputDir with
    ⟨-, hs⟩ | ⟨m', as', hs, hholds⟩
  · refine ⟨⟨m.initQueue, 1, [inputDir], []⟩, ⟨0, fun fuel _ => ?_⟩, rfl, rfl, ?_⟩
    · rw [catalogListingLinked, hs]
      exact linkedLoop_drained rfl fuel
    · rw [if_pos (by simp)]
  · have hstart : Tracks m.heap inputDir (T.blockBy fails printed)
        (⟨m', 1, [], []⟩ : LinkedListing Addr) [] [[]] [] :=
      ⟨⟨as', by simpa using hholds⟩, rfl, rfl⟩
    obtain ⟨s, visited, lost, ⟨n, hn⟩, hlossy, hend⟩ :=
      exists_drained hfresh hprinted hlists hspeaks hstart
    obtain ⟨as, hdrained⟩ := hend.holds
    have hlost : ∀ cs, inputDir ++ pathString cs ∈ s.lost ↔ cs ∈ lost := by
      intro cs
      rw [hend.lost]
      exact List.mem_map_of_injective fun _ _ h => pathString_injective (List.append_cancel_left h)
    have hroot : inputDir ∉ s.lost := by
      intro hmem
      have hnil : [] ∈ lost := (hlost []).mp (by simpa using hmem)
      have hvisited := hlossy.roots_met [] (by simp)
      exact (List.nodup_append.mp (hlossy.nodup forest_subdirsBy).1).2.2 [] hvisited [] hnil rfl
    refine ⟨s, ⟨n, fun fuel hfuel => ?_⟩, hdrained.drained.1, hdrained.drained.2, ?_⟩
    · rw [catalogListingLinked, hs]
      exact hn fuel hfuel
    · rw [if_neg hroot, hend.catalog, flatMap_visited _ hlossy, blockBy_eq hprinted hfiles hne]
      simp only [hlost]

end Runs

def failsOnce : Malloc ℕ := fun n m =>
  if n = 1 then none else if (m.heap n).isNone then some n else none

theorem failsOnce_fresh : Malloc.Fresh failsOnce := by
  intro n m a h
  unfold failsOnce at h
  split_ifs at h with h1 h2
  obtain rfl := Option.some.inj h
  exact Option.isNone_iff_eq_none.mp h2

theorem linked_listing_loses_smallTree : ∃ s, (∃ n, ∀ fuel ≥ n,
      catalogListingLinked failsOnce (treeHost [ch 'r'] smallTree noFailure) [ch 'r'] noNodes fuel =
        some s) ∧
    s.memory.heap = noNodes.heap ∧
    s.catalog = if [ch 'r'] ∈ s.lost then [] else (smallTree.dirsBy noFailure fun cs =>
      noFailure cs || decide ([ch 'r'] ++ pathString cs ∈ s.lost)).flatMap (smallTree.block noFailure) := by
  have hshows := treeHost_shows [ch 'r'] smallTree noFailure
  obtain ⟨s, hs, -, hheap, hcat⟩ :=
    linked_listing_loses failsOnce_fresh (by decide) hshows.files hshows.lists
      (by rintro cs - ⟨⟩) noNodes
  exact ⟨s, hs, hheap, hcat⟩

end CatalogFS
