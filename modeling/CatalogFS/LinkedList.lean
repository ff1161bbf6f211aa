import Mathlib

namespace LinkedList

variable {Addr Cell V : Type*} (next : Cell → Option Addr) {heap heap' : Addr → Option Cell}
  {p : Option Addr} {a b : Addr} {as bs : List Addr}

/-- From this pointer one meets cells at these addresses and then a null pointer. -/
def Follows (heap : Addr → Option Cell) : Option Addr → List Addr → Prop
  | p, [] => p = none
  | p, a :: as => p = some a ∧ ∃ c, heap a = some c ∧ Follows heap (next c) as

inductive Reachable (heap : Addr → Option Cell) (p : Option Addr) : Addr → Prop
  | here {a : Addr} : p = some a → Reachable heap p a
  | next {a b : Addr} {c : Cell} :
    Reachable heap p a → heap a = some c → next c = some b → Reachable heap p b

def contents (val : Cell → V) (heap : Addr → Option Cell) (as : List Addr) : List (Option V) :=
  as.map fun a => (heap a).map val

variable {next}

theorem Follows.head_eq (h : Follows next heap p as) : p = as.head? := by
  cases as with
  | nil => exact h
  | cons a as => exact h.1

theorem Follows.unique (h : Follows next heap p as) (h' : Follows next heap p bs) : as = bs := by
  induction as generalizing p bs with
  | nil =>
    cases bs with
    | nil => rfl
    | cons b bs => cases h.symm.trans h'.1
  | cons a as ih =>
    cases bs with
    | nil => cases h.1.symm.trans h'
    | cons b bs =>
      obtain ⟨rfl, c, hc, hrest⟩ := h
      obtain ⟨hab, c', hc', hrest'⟩ := h'
      obtain rfl := Option.some.inj hab
      obtain rfl := Option.some.inj (hc.symm.trans hc')
      rw [ih hrest hrest']

theorem Follows.drop_until (h : Follows next heap p (as ++ a :: bs)) :
    Follows next heap (some a) (a :: bs) := by
  induction as generalizing p with
  | nil =>
    obtain ⟨rfl, hrest⟩ := h
    exact ⟨rfl, hrest⟩
  | cons x as ih =>
    obtain ⟨-, c, -, hrest⟩ := h
    exact ih hrest

theorem Follows.exists_cell (h : Follows next heap p as) (ha : a ∈ as) : ∃ c, heap a = some c := by
  obtain ⟨l, r, rfl⟩ := List.append_of_mem ha
  obtain ⟨-, c, hc, -⟩ := h.drop_until
  exact ⟨c, hc⟩

/-- There is no way back: the list behind an address would begin again behind itself. -/
theorem Follows.nodup (h : Follows next heap p as) : as.Nodup := by
  induction as generalizing p with
  | nil => exact List.nodup_nil
  | cons a as ih =>
    obtain ⟨rfl, c, hc, hrest⟩ := h
    apply List.nodup_cons.mpr
    refine ⟨?_, ih hrest⟩
    intro ha
    obtain ⟨l, r, hlr⟩ := List.append_of_mem ha
    have hsame : Follows next heap (some a) (a :: r) := by
      rw [hlr] at hrest
      exact hrest.drop_until
    have hlong : Follows next heap (some a) (a :: as) := ⟨rfl, c, hc, hrest⟩
    have hlen := congrArg List.length (hlong.unique hsame)
    rw [hlr] at hlen
    simp at hlen
    omega

theorem Follows.reachable_iff (h : Follows next heap p as) (a : Addr) :
    Reachable next heap p a ↔ a ∈ as := by
  constructor
  · intro hreach
    induction hreach with
    | here hp =>
      cases as with
      | nil => cases hp.symm.trans h
      | cons b bs =>
        obtain rfl := Option.some.inj (hp.symm.trans h.1)
        exact List.mem_cons_self
    | next _ hc hnext ih =>
      -- what follows a cell of the list is in the list
      obtain ⟨l, r, rfl⟩ := List.append_of_mem ih
      obtain ⟨-, c', hc', hrest⟩ := h.drop_until
      obtain rfl := Option.some.inj (hc'.symm.trans hc)
      rw [hnext] at hrest
      cases r with
      | nil => cases hrest
      | cons b r =>
        obtain rfl := Option.some.inj hrest.1
        simp
  · intro ha
    obtain ⟨l, r, rfl⟩ := List.append_of_mem ha
    clear ha
    induction l using List.reverseRecOn generalizing a r with
    | nil => exact .here h.1
    | append_singleton l b ih =>
      rw [List.append_assoc] at h
      obtain ⟨-, c, hc, hrest⟩ := h.drop_until
      exact .next (ih b _ h) hc hrest.1

theorem Follows.congr (h : Follows next heap p as) (hsame : ∀ x ∈ as, heap' x = heap x) :
    Follows next heap' p as := by
  induction as generalizing p with
  | nil => exact h
  | cons a as ih =>
    obtain ⟨hp, c, hc, hrest⟩ := h
    exact ⟨hp, c, (hsame a List.mem_cons_self).trans hc,
      ih hrest fun x hx => hsame x (List.mem_cons_of_mem a hx)⟩

/-- Behind cells that are not touched the list may go on differently. -/
theorem Follows.splice {r : List Addr} (h : Follows next heap p (as ++ a :: r))
    (hsame : ∀ x ∈ as, heap' x = heap x) (htail : Follows next heap' (some a) (a :: bs)) :
    Follows next heap' p (as ++ a :: bs) := by
  induction as generalizing p with
  | nil =>
    obtain ⟨rfl, -⟩ := h
    exact htail
  | cons x as ih =>
    obtain ⟨hp, c, hc, hrest⟩ := h
    exact ⟨hp, c, (hsame x List.mem_cons_self).trans hc,
      ih hrest fun y hy => hsame y (List.mem_cons_of_mem x hy)⟩

theorem contents_append (val : Cell → V) (heap : Addr → Option Cell) (as bs : List Addr) :
    contents val heap (as ++ bs) = contents val heap as ++ contents val heap bs :=
  List.map_append

theorem contents_congr {val : Cell → V} (hsame : ∀ x ∈ as, heap' x = heap x) :
    contents val heap' as = contents val heap as :=
  List.map_congr_left fun x hx => by rw [hsame x hx]

end LinkedList
