import CatalogFS.Generate
import CatalogFS.LinkedList

namespace CatalogFS

open CLib LinkedList

structure BfQueue (Addr : Type) where
  dirname : Bytes
  next : Option Addr

/-- The nodes in memory, by address, and the two globals. A null pointer is `none`. -/
structure Memory (Addr : Type) where
  heap : Addr → Option (BfQueue Addr)
  head : Option Addr
  tail : Option Addr

variable {Addr : Type}

def Memory.initQueue (m : Memory Addr) : Memory Addr := { m with head := none, tail := none }

section Operations

variable [DecidableEq Addr]

/-- `insert_queue`, where `temp` is what `malloc` returns: the result and the memory. It is `none`
when a pointer that does not point to a node is followed. -/
def Memory.insertQueue (temp : Option Addr) (dirname : Bytes) (m : Memory Addr) :
    Option (ℤ × Memory Addr) :=
  match temp with
  | none => some (-1, m)
  | some temp =>
    let m := { m with heap := Function.update m.heap temp (some ⟨dirname, none⟩) }
    match m.head with
    | none => some (0, { m with head := some temp, tail := some temp })
    | some _ => do
      let tail ← m.tail
      let node ← m.heap tail
      let m := { m with heap := Function.update m.heap tail (some { node with next := some temp }) }
      let node ← m.heap tail
      return (0, { m with tail := node.next })

/-- `remove_queue`, when `malloc` succeeds for the name: the name, or `none` for a null pointer, and
the memory. -/
def Memory.removeQueue (m : Memory Addr) : Option (Option Bytes × Memory Addr) :=
  match m.head with
  | none => some (none, m)
  | some temp => do
    let node ← m.heap temp
    -- the name is copied before the node is freed
    return (some node.dirname,
      { m with head := node.next, heap := Function.update m.heap temp none })

end Operations

/-- An operation on the queue; an insert comes with what its `malloc` returns. -/
inductive QueueCall (Addr : Type)
  | insert (temp : Option Addr) (dirname : Bytes)
  | remove

inductive QueueReply
  | inserted (result : ℤ)
  | removed (dirname : Option Bytes)
  deriving DecidableEq

def QueueCall.Allowed (m : Memory Addr) : QueueCall Addr → Prop
  | .insert temp _ => ∀ a ∈ temp, m.heap a = none
  | .remove => True

def QueueCall.perform [DecidableEq Addr] (m : Memory Addr) : QueueCall Addr → Option (QueueReply × Memory Addr)
  | .insert temp dirname => (m.insertQueue temp dirname).map fun r => (.inserted r.1, r.2)
  | .remove => m.removeQueue.map fun r => (.removed r.1, r.2)

def QueueCall.spec (names : List Bytes) : QueueCall Addr → QueueReply × List Bytes
  | .insert none _ => (.inserted (-1), names)
  | .insert (some _) dirname => (.inserted 0, insertQueue names dirname)
  | .remove =>
    match removeQueue names with
    | none => (.removed none, names)
    | some (dirname, names) => (.removed (some dirname), names)

/-- Operations after `init_queue` and what they reply, beginning in some memory. -/
inductive QueueRun [DecidableEq Addr] : List (QueueCall Addr × QueueReply) → Memory Addr → Prop
  | init (m : Memory Addr) : QueueRun [] m.initQueue
  | step {hist : List (QueueCall Addr × QueueReply)} {m m' : Memory Addr} {c : QueueCall Addr}
      {r : QueueReply} : QueueRun hist m → c.Allowed m → c.perform m = some (r, m') →
      QueueRun (hist ++ [(c, r)]) m'

def inserted (hist : List (QueueCall Addr × QueueReply)) : List Bytes :=
  hist.filterMap fun
    | (.insert _ dirname, .inserted 0) => some dirname
    | _ => none

def removed (hist : List (QueueCall Addr × QueueReply)) : List Bytes :=
  hist.filterMap fun
    | (.remove, .removed (some dirname)) => some dirname
    | _ => none

/-- From `head` on there are nodes at the addresses `as` with these names. Only while there is one
does `tail` matter: it is the last. -/
structure Represents (m : Memory Addr) (as : List Addr) (names : List Bytes) : Prop where
  follows : Follows BfQueue.next m.heap m.head as
  names_eq : contents BfQueue.dirname m.heap as = names.map some
  tail_eq : m.head ≠ none → m.tail = as.getLast?

section Represents

variable {m : Memory Addr} {as : List Addr} {names : List Bytes}

theorem represents_init (m : Memory Addr) : Represents m.initQueue [] [] where
  follows := rfl
  names_eq := rfl
  tail_eq h := absurd rfl h

theorem Represents.length_eq (h : Represents m as names) : as.length = names.length := by
  simpa [contents] using congrArg List.length h.names_eq

theorem Represents.exists_first {a : Addr} {bs : List Addr} (h : Represents m (a :: bs) names) :
    ∃ node rest, m.heap a = some node ∧ names = node.dirname :: rest ∧
      Follows BfQueue.next m.heap node.next bs ∧
      contents BfQueue.dirname m.heap bs = rest.map some := by
  obtain ⟨-, node, hnode, hrest⟩ := h.follows
  have hnames := h.names_eq
  rw [contents, List.map_cons, hnode, Option.map_some] at hnames
  cases names with
  | nil => cases hnames
  | cons name rest =>
    rw [List.map_cons, List.cons.injEq, Option.some.injEq] at hnames
    exact ⟨node, rest, hnode, by rw [hnames.1], hrest, hnames.2⟩

theorem Represents.ne_of_unused (h : Represents m as names) {temp : Addr} (hfree : m.heap temp = none)
    {a : Addr} (ha : a ∈ as) : a ≠ temp := by
  rintro rfl
  obtain ⟨node, hnode⟩ := h.follows.exists_cell ha
  rw [hfree] at hnode
  cases hnode

end Represents

section Refinement

variable [DecidableEq Addr] {m : Memory Addr} {as : List Addr} {names : List Bytes} {temp : Addr}
  {dirname : Bytes}

theorem insertQueue_of_head_eq_none (h : m.head = none) :
    m.insertQueue (some temp) dirname = some (0,
      ⟨Function.update m.heap temp (some ⟨dirname, none⟩), some temp, some temp⟩) := by
  simp only [Memory.insertQueue, h]

theorem insertQueue_of_head_eq_some {a tail : Addr} {node : BfQueue Addr} (h : m.head = some a)
    (htail : m.tail = some tail) (hnode : m.heap tail = some node) (hne : tail ≠ temp) :
    m.insertQueue (some temp) dirname = some (0,
      ⟨Function.update (Function.update m.heap temp (some ⟨dirname, none⟩)) tail
        (some { node with next := some temp }), some a, some temp⟩) := by
  simp [Memory.insertQueue, h, htail, hnode, hne]

/-- An insert into an empty queue: whatever `tail` was, it is now the new node. -/
theorem Represents.insert_nil (h : Represents m [] names) (dirname : Bytes) :
    ∃ m', m.insertQueue (some temp) dirname = some (0, m') ∧
      Represents m' [temp] (insertQueue names dirname) := by
  obtain rfl : names = [] := List.length_eq_zero_iff.mp h.length_eq.symm
  refine ⟨_, insertQueue_of_head_eq_none h.follows, ?_⟩
  constructor
  · exact ⟨rfl, ⟨dirname, none⟩, Function.update_self .., rfl⟩
  · simp [contents, insertQueue]
  · exact fun _ => rfl

/-- An insert behind a last node: it is linked to the new one, and nothing else changes. -/
theorem Represents.insert_concat {bs : List Addr} {tail : Addr}
    (h : Represents m (bs ++ [tail]) names) (hfree : m.heap temp = none) (dirname : Bytes) :
    ∃ m', m.insertQueue (some temp) dirname = some (0, m') ∧
      Represents m' (bs ++ [tail, temp]) (insertQueue names dirname) := by
  obtain ⟨a, hhead⟩ : ∃ a, m.head = some a := by
    rw [h.follows.head_eq]
    cases bs <;> exact ⟨_, rfl⟩
  have htail : m.tail = some tail := by
    rw [h.tail_eq (by simp [hhead]), List.getLast?_concat]
  obtain ⟨node, hnode⟩ := h.follows.exists_cell (a := tail) (by simp)
  have hne : tail ≠ temp := h.ne_of_unused hfree (by simp)
  have hbs : ∀ x ∈ bs, x ≠ tail ∧ x ≠ temp := by
    intro x hx
    have hnodup := List.nodup_append.mp h.follows.nodup
    exact ⟨hnodup.2.2 x hx tail (by simp), h.ne_of_unused hfree (by simp [hx])⟩
  refine ⟨_, insertQueue_of_head_eq_some hhead htail hnode hne, ?_⟩
  have hsame : ∀ x ∈ bs, Function.update (Function.update m.heap temp (some ⟨dirname, none⟩)) tail
      (some { node with next := some temp }) x = m.heap x := by
    intro x hx
    rw [Function.update_of_ne (hbs x hx).1, Function.update_of_ne (hbs x hx).2]
  constructor
  · rw [← hhead]
    apply h.follows.splice hsame
    refine ⟨rfl, { node with next := some temp }, Function.update_self .., rfl, ⟨dirname, none⟩, ?_,
      rfl⟩
    rw [Function.update_of_ne hne.symm, Function.update_self]
  · rw [insertQueue, List.map_append, ← h.names_eq, contents_append, contents_append,
      contents_congr hsame]
    simp [contents, hnode, Function.update_of_ne hne.symm]
  · intro _
    simp

theorem Represents.insert (h : Represents m as names) (hfree : m.heap temp = none) (dirname : Bytes) :
    ∃ m', m.insertQueue (some temp) dirname = some (0, m') ∧
      Represents m' (as ++ [temp]) (insertQueue names dirname) := by
  rcases List.eq_nil_or_concat' as with rfl | ⟨bs, tail, rfl⟩
  · exact h.insert_nil dirname
  · rw [List.append_assoc]
    exact h.insert_concat hfree dirname

theorem Represents.remove_cons {a : Addr} (h : Represents m (a :: as) names) :
    ∃ dirname rest m', names = dirname :: rest ∧ m.removeQueue = some (some dirname, m') ∧
      Represents m' as rest ∧ m'.tail = m.tail ∧ m'.heap a = none := by
  obtain ⟨node, rest, hnode, rfl, hfollows, hrest⟩ := h.exists_first
  have hhead : m.head = some a := h.follows.1
  have hsame : ∀ x ∈ as, Function.update m.heap a none x = m.heap x := by
    intro x hx
    apply Function.update_of_ne
    rintro rfl
    exact (List.nodup_cons.mp h.follows.nodup).1 hx
  refine ⟨node.dirname, rest, ⟨Function.update m.heap a none, node.next, m.tail⟩, rfl, ?_, ?_, rfl,
    Function.update_self ..⟩
  · simp [Memory.removeQueue, hhead, hnode]
  constructor
  · exact hfollows.congr hsame
  · exact (contents_congr hsame).trans hrest
  · intro hne
    change m.tail = as.getLast?
    change node.next ≠ none at hne
    rw [h.tail_eq (by simp [hhead])]
    cases as with
    | nil => exact absurd hfollows hne
    | cons b bs => exact List.getLast?_cons_cons

theorem Represents.remove_nil (h : Represents m [] names) : m.removeQueue = some (none, m) := by
  have hhead : m.head = none := h.follows
  simp only [Memory.removeQueue, hhead]

theorem Represents.perform {c : QueueCall Addr} (h : Represents m as names) (hc : c.Allowed m) :
    ∃ m' as', c.perform m = some ((c.spec names).1, m') ∧ Represents m' as' (c.spec names).2 := by
  cases c with
  | insert temp dirname =>
    cases temp with
    | none => exact ⟨m, as, rfl, h⟩
    | some temp =>
      obtain ⟨m', hm', hrep⟩ := h.insert (hc temp rfl) dirname
      exact ⟨m', _, by rw [QueueCall.perform, hm']; rfl, hrep⟩
  | remove =>
    cases as with
    | nil =>
      obtain rfl : names = [] := List.length_eq_zero_iff.mp h.length_eq.symm
      exact ⟨m, [], by rw [QueueCall.perform, h.remove_nil]; rfl, h⟩
    | cons a as =>
      obtain ⟨dirname, rest, m', rfl, hm', hrep, -⟩ := h.remove_cons
      exact ⟨m', as, by rw [QueueCall.perform, hm']; rfl, hrep⟩

end Refinement

section Runs

variable {hist : List (QueueCall Addr × QueueReply)} {m : Memory Addr}

theorem inserted_eq_spec {names : List Bytes} (c : QueueCall Addr)
    (h : inserted hist = removed hist ++ names) :
    inserted (hist ++ [(c, (c.spec names).1)]) =
      removed (hist ++ [(c, (c.spec names).1)]) ++ (c.spec names).2 := by
  simp only [inserted, removed, List.filterMap_append] at h ⊢
  rw [h]
  cases c with
  | insert temp dirname => cases temp <;> simp [QueueCall.spec, insertQueue]
  | remove => cases names <;> simp [QueueCall.spec, removeQueue]

variable [DecidableEq Addr]

/-- In every memory that is reached the queue holds the names inserted and not yet removed. -/
theorem QueueRun.represents (h : QueueRun hist m) :
    ∃ as names, Represents m as names ∧ inserted hist = removed hist ++ names := by
  induction h with
  | init m => exact ⟨[], [], represents_init m, rfl⟩
  | step _ hc hperform ih =>
    obtain ⟨as, names, hrep, hnames⟩ := ih
    obtain ⟨m', as', hm', hrep'⟩ := hrep.perform hc
    rw [hperform, Option.some.injEq, Prod.mk.injEq] at hm'
    obtain ⟨rfl, rfl⟩ := hm'
    exact ⟨as', _, hrep', inserted_eq_spec _ hnames⟩

/-- The linked queue refines a first-in first-out list, over every sequence of operations and
whatever `malloc` returns: the nodes that `head` leads to hold the names inserted and not yet
removed, in order, and `tail` is the last of them. An insert without memory changes nothing, and a
removal gives the oldest name, or a null pointer when there is none. When it takes the last node,
`tail` is left pointing to freed memory. -/
theorem linked_queue_refines_fifo (h : QueueRun hist m) :
    ∃ as names, inserted hist = removed hist ++ names ∧
      Follows BfQueue.next m.heap m.head as ∧
      (∀ a, Reachable BfQueue.next m.heap m.head a ↔ a ∈ as) ∧
      contents BfQueue.dirname m.heap as = names.map some ∧
      (m.head ≠ none → m.tail = as.getLast?) ∧
      (∀ dirname, m.insertQueue none dirname = some (-1, m)) ∧
      (∀ dirname temp, m.heap temp = none → ∃ m', m.insertQueue (some temp) dirname = some (0, m')) ∧
      ∃ m', m.removeQueue = some (names.head?, m') ∧
        (names.length = 1 → m'.head = none ∧ ∃ a ∈ as, m'.tail = some a ∧ m'.heap a = none) := by
  obtain ⟨as, names, hrep, hnames⟩ := h.represents
  refine ⟨as, names, hnames, hrep.follows, hrep.follows.reachable_iff, hrep.names_eq, hrep.tail_eq,
    fun _ => rfl, ?_, ?_⟩
  · intro dirname temp hfree
    obtain ⟨m', hm', -⟩ := hrep.insert hfree dirname
    exact ⟨m', hm'⟩
  · cases as with
    | nil =>
      obtain rfl : names = [] := List.length_eq_zero_iff.mp hrep.length_eq.symm
      exact ⟨m, hrep.remove_nil, nofun⟩
    | cons a bs =>
      obtain ⟨dirname, rest, m', rfl, hm', hrep', htail, hfreed⟩ := hrep.remove_cons
      refine ⟨m', hm', ?_⟩
      intro hone
      -- the only node was the last one
      have hlen : bs.length = 0 := hrep'.length_eq.trans (Nat.succ.inj hone)
      obtain rfl : bs = [] := List.length_eq_zero_iff.mp hlen
      refine ⟨hrep'.follows, a, List.mem_cons_self, ?_, hfreed⟩
      rw [htail, hrep.tail_eq (by simp [hrep.follows.1])]
      rfl

def reuse : List (QueueCall ℕ × QueueReply) :=
  [(.insert (some 0) [ch 'a'], .inserted 0), (.remove, .removed (some [ch 'a'])),
    (.insert (some 0) [ch 'b'], .inserted 0), (.insert none [ch 'c'], .inserted (-1)),
    (.insert (some 1) [ch 'd'], .inserted 0)]

theorem exists_reuse : ∃ m, QueueRun reuse m := by
  have h0 := QueueRun.init (⟨fun _ => none, none, some 7⟩ : Memory ℕ)
  have h1 := h0.step (c := .insert (some 0) [ch 'a']) (by simp [QueueCall.Allowed, Memory.initQueue]) rfl
  have h2 := h1.step (c := .remove) trivial rfl
  have h3 := h2.step (c := .insert (some 0) [ch 'b']) (by simp [QueueCall.Allowed]) rfl
  have h4 := h3.step (c := .insert none [ch 'c']) (by simp [QueueCall.Allowed]) rfl
  have h5 := h4.step (c := .insert (some 1) [ch 'd'])
    (by simp [QueueCall.Allowed, Memory.initQueue]) rfl
  exact ⟨_, h5⟩

theorem linked_queue_refines_fifo_reuse :
    ∃ m, QueueRun reuse m ∧ ∃ as, Follows BfQueue.next m.heap m.head as ∧
      contents BfQueue.dirname m.heap as = [some [ch 'b'], some [ch 'd']] := by
  obtain ⟨m, hm⟩ := exists_reuse
  obtain ⟨as, names, hnames, hfollows, -, hcontents, -⟩ := linked_queue_refines_fifo hm
  obtain rfl : [[ch 'b'], [ch 'd']] = names := List.cons.inj hnames |>.2
  exact ⟨m, hm, as, hfollows, hcontents⟩

end Runs

end CatalogFS
