import Mathlib

namespace Worklist

variable {α β : Type*} (visit : α → List β) (kids : α → List α)

/-- The loop, with at most `n` iterations; `none` if they do not suffice. -/
def run : ℕ → List α → List β → Option (List β)
  | _, [], out => some out
  | 0, _ :: _, _ => none
  | n + 1, a :: queue, out => run n (queue ++ kids a) (out ++ visit a)

/-- The queue after `i` levels. -/
def level (queue : List α) : ℕ → List α
  | 0 => queue
  | i + 1 => (level queue i).flatMap kids

def order (queue : List α) (h : ℕ) : List α := (List.range h).flatMap (level kids queue)

theorem run_append (n : ℕ) (queue rest : List α) (out : List β) :
    run visit kids (n + queue.length) (queue ++ rest) out =
      run visit kids n (rest ++ queue.flatMap kids) (out ++ queue.flatMap visit) := by
  -- the children of what has been processed stand behind `rest`
  induction queue generalizing rest out with
  | nil => simp
  | cons a queue ih =>
    have hlen : n + (a :: queue).length = (n + queue.length) + 1 := by
      rw [List.length_cons, Nat.add_assoc]
    rw [hlen, List.cons_append, run, List.append_assoc, ih]
    simp

/-- One level is processed in as many iterations as it has elements. -/
theorem run_level (n : ℕ) (queue : List α) (out : List β) :
    run visit kids (n + queue.length) queue out =
      run visit kids n (queue.flatMap kids) (out ++ queue.flatMap visit) := by
  simpa using run_append visit kids n queue [] out

theorem level_flatMap (queue : List α) (i : ℕ) :
    level kids (queue.flatMap kids) i = level kids queue (i + 1) := by
  induction i with
  | zero => rfl
  | succ i ih => rw [level, ih]; rfl

theorem order_succ (queue : List α) (h : ℕ) :
    order kids queue (h + 1) = queue ++ order kids (queue.flatMap kids) h := by
  have hlevel : level kids (queue.flatMap kids) = fun i => level kids queue (i + 1) :=
    funext (level_flatMap kids queue)
  rw [order, order, hlevel, List.range_succ_eq_map, List.flatMap_cons, List.flatMap_map]
  rfl

/-- If level `h` is empty, the loop ends and its output is that of the levels before it. -/
theorem run_eq_order {queue : List α} {h : ℕ} (hh : level kids queue h = []) (out : List β) :
    run visit kids (order kids queue h).length queue out =
      some (out ++ (order kids queue h).flatMap visit) := by
  induction h generalizing queue out with
  | zero =>
    obtain rfl : queue = [] := hh
    simp [order, run]
  | succ h ih =>
    rw [order_succ, List.length_append, Nat.add_comm, run_level,
      ih (by rw [level_flatMap]; exact hh)]
    simp

theorem level_eq_nil_of_le {queue : List α} {h k : ℕ} (hh : level kids queue h = []) (hk : h ≤ k) :
    level kids queue k = [] := by
  induction k, hk using Nat.le_induction with
  | base => exact hh
  | succ k _ ih => rw [level, ih]; rfl

theorem order_eq_of_le {queue : List α} {h k : ℕ} (hh : level kids queue h = []) (hk : h ≤ k) :
    order kids queue k = order kids queue h := by
  obtain ⟨d, rfl⟩ := Nat.exists_eq_add_of_le hk
  have hnil : ∀ i ∈ (List.range d).map (h + ·), level kids queue i = [] := by
    intro i hi
    obtain ⟨j, -, rfl⟩ := List.mem_map.mp hi
    exact level_eq_nil_of_le kids hh (Nat.le_add_right h j)
  rw [order, order, List.range_add, List.flatMap_append, List.flatMap_eq_nil_iff.mpr hnil,
    List.append_nil]

/-- More iterations change nothing once the loop has ended. -/
theorem run_mono {n : ℕ} {queue : List α} {out res : List β}
    (h : run visit kids n queue out = some res) (k : ℕ) : run visit kids (n + k) queue out = some res := by
  induction n generalizing queue out with
  | zero =>
    cases queue with
    | nil => simpa [run] using h
    | cons a queue => simp [run] at h
  | succ n ih =>
    cases queue with
    | nil => simpa [run] using h
    | cons a queue =>
      rw [Nat.add_right_comm]
      exact ih h

theorem run_unique {n m : ℕ} {queue : List α} {out r s : List β}
    (hr : run visit kids n queue out = some r) (hs : run visit kids m queue out = some s) : r = s := by
  have h1 := run_mono visit kids hr m
  have h2 := run_mono visit kids hs n
  rw [Nat.add_comm, h1] at h2
  exact Option.some.inj h2

theorem level_eq_flatMap (queue : List α) (i : ℕ) :
    level kids queue i = queue.flatMap fun a => level kids [a] i := by
  induction i with
  | zero => simp [level]
  | succ i ih =>
    rw [level, ih, List.flatMap_assoc]
    rfl

theorem mem_order_iff {queue : List α} {h : ℕ} (hh : level kids queue h = []) {x : α} :
    x ∈ order kids queue h ↔ ∃ i, x ∈ level kids queue i := by
  rw [order, List.mem_flatMap]
  constructor
  · rintro ⟨i, -, hi⟩
    exact ⟨i, hi⟩
  · rintro ⟨i, hi⟩
    refine ⟨i, List.mem_range.mpr (Nat.lt_of_not_le fun hle => ?_), hi⟩
    rw [level_eq_nil_of_le kids hh hle] at hi
    cases hi

/-- What holds on all levels holds of the head, and on the levels of the queue that is left. -/
theorem forall_level_cons {P : α → Prop} {a : α} {queue : List α} :
    (∀ i, ∀ x ∈ level kids (a :: queue) i, P x) ↔
      P a ∧ ∀ i, ∀ x ∈ level kids (queue ++ kids a) i, P x := by
  have hcons : ∀ i, level kids (a :: queue) i = level kids [a] i ++ level kids queue i := by
    intro i
    rw [level_eq_flatMap, List.flatMap_cons, ← level_eq_flatMap kids queue]
  have happend : ∀ i, level kids (queue ++ kids a) i = level kids queue i ++ level kids [a] (i + 1) := by
    intro i
    rw [level_eq_flatMap, List.flatMap_append, ← level_eq_flatMap kids queue,
      ← level_eq_flatMap kids (kids a), ← level_flatMap, List.flatMap_singleton]
  simp only [hcons, happend, List.mem_append]
  constructor
  · intro h
    refine ⟨h 0 a (.inl (List.mem_singleton_self a)), fun i x hx => ?_⟩
    rcases hx with hx | hx
    · exact h i x (.inr hx)
    · exact h (i + 1) x (.inl hx)
  · rintro ⟨ha, h⟩ i x (hx | hx)
    · cases i with
      | zero => exact List.mem_singleton.mp hx ▸ ha
      | succ i => exact h i x (.inr hx)
    · exact h i x (.inl hx)

section Guarded

variable (ok : α → Prop) [DecidablePred ok]

def runGuarded : ℕ → List α → List β → Option (List β)
  | _, [], out => some out
  | 0, _ :: _, _ => none
  | n + 1, a :: queue, out => if ok a then runGuarded n (queue ++ kids a) (out ++ visit a) else none

/-- It ends when the loop does and everything on all levels is `ok`. -/
theorem runGuarded_eq_some_iff {n : ℕ} {queue : List α} {out res : List β} :
    runGuarded visit kids ok n queue out = some res ↔
      run visit kids n queue out = some res ∧ ∀ i, ∀ x ∈ level kids queue i, ok x := by
  have hnil : ∀ i, level kids [] i = [] := fun i => level_eq_nil_of_le kids rfl (Nat.zero_le i)
  induction n generalizing queue out with
  | zero =>
    cases queue with
    | nil => simp [runGuarded, run, hnil]
    | cons a queue => simp [runGuarded, run]
  | succ n ih =>
    cases queue with
    | nil => simp [runGuarded, run, hnil]
    | cons a queue =>
      rw [runGuarded, run, forall_level_cons]
      split_ifs with ha
      · simp [ha, ih]
      · simp [ha]

end Guarded

variable {kids}

theorem level_induction {P : ℕ → α → Prop} {queue : List α} (h0 : ∀ a ∈ queue, P 0 a)
    (hs : ∀ i a, P i a → ∀ b ∈ kids a, P (i + 1) b) : ∀ i, ∀ a ∈ level kids queue i, P i a
  | 0 => h0
  | i + 1 => fun b hb => by
    obtain ⟨a, ha, hab⟩ := List.mem_flatMap.mp hb
    exact hs i a (level_induction h0 hs i a ha) b hab

/-- A relation that holds along the queue, among the children of one element and between the
children of related elements holds along every level. -/
theorem pairwise_level {R : α → α → Prop} {P : ℕ → α → Prop} {queue : List α}
    (hP : ∀ i, ∀ a ∈ level kids queue i, P i a) (h0 : queue.Pairwise R)
    (hkids : ∀ i a, P i a → (kids a).Pairwise R)
    (hcross : ∀ i a b, P i a → P i b → R a b → ∀ x ∈ kids a, ∀ y ∈ kids b, R x y) :
    ∀ i, (level kids queue i).Pairwise R
  | 0 => h0
  | i + 1 => by
    refine List.pairwise_flatMap.mpr ⟨fun a ha => hkids i a (hP i a ha), ?_⟩
    apply (pairwise_level hP h0 hkids hcross i).imp_of_mem
    intro a b ha hb hab
    exact hcross i _ _ (hP i _ ha) (hP i _ hb) hab

/-- Filtering the elements commutes with taking the next level when an element is kept exactly
when all its children are and dropped exactly when all its children are. -/
theorem filter_flatMap_kids {p : α → Bool} {l : List α}
    (h : ∀ a ∈ l, ∀ b ∈ kids a, p b = p a) :
    (l.flatMap kids).filter p = (l.filter p).flatMap kids := by
  induction l with
  | nil => rfl
  | cons a l ih =>
    have ha : ∀ b ∈ kids a, p b = p a := h a List.mem_cons_self
    rw [List.flatMap_cons, List.filter_append, ih fun x hx => h x (List.mem_cons_of_mem a hx)]
    cases hp : p a with
    | true =>
      rw [List.filter_cons_of_pos hp, List.flatMap_cons,
        List.filter_eq_self.mpr fun b hb => (ha b hb).trans hp]
    | false =>
      rw [List.filter_cons_of_neg (by simp [hp]),
        List.filter_eq_nil_iff.mpr fun b hb => by simp [ha b hb, hp], List.nil_append]

/-- What is put into the queue and what is lost, when it is marked whether a child is kept. -/
def kept (marks : List (α × Bool)) : List α := (marks.filter fun m => m.2).map Prod.fst

def dropped (marks : List (α × Bool)) : List α := (marks.filter fun m => !m.2).map Prod.fst

/-- Runs of the loop in which children may be lost: the elements visited, the queue and the elements
lost. -/
inductive Lossy (kids : α → List α) (roots : List α) : List α → List α → List α → Prop
  | start : Lossy kids roots [] roots []
  | step {visited queue lost : List α} {a : α} (marks : List (α × Bool)) :
    Lossy kids roots visited (a :: queue) lost → marks.map Prod.fst = kids a →
      Lossy kids roots (visited ++ [a]) (queue ++ kept marks) (lost ++ dropped marks)

/-- No element is a child of two elements, or a child twice, or a child and a root. -/
structure Forest (kids : α → List α) (roots : List α) : Prop where
  roots_nodup : roots.Nodup
  kids_nodup : ∀ a, (kids a).Nodup
  notMem_roots : ∀ a, ∀ x ∈ kids a, x ∉ roots
  parent_unique : ∀ a b x, x ∈ kids a → x ∈ kids b → a = b

section Lossy

variable {roots visited queue lost : List α}

theorem kept_append_dropped (marks : List (α × Bool)) :
    (kept marks ++ dropped marks).Perm (marks.map Prod.fst) := by
  rw [kept, dropped, ← List.map_append]
  exact (List.filter_append_perm _ marks).map _

theorem mem_kept {marks : List (α × Bool)} {x : α} : x ∈ kept marks ↔ (x, true) ∈ marks := by
  simp [kept]

theorem mem_dropped {marks : List (α × Bool)} {x : α} : x ∈ dropped marks ↔ (x, false) ∈ marks := by
  simp [dropped]

theorem step_perm (visited queue lost : List α) {marks : List (α × Bool)} {a : α}
    (h : marks.map Prod.fst = kids a) :
    ((visited ++ [a]) ++ (queue ++ kept marks) ++ (lost ++ dropped marks)).Perm
      ((visited ++ (a :: queue) ++ lost) ++ kids a) := by
  rw [← h]
  have hmarks := kept_append_dropped marks
  have hswap : (kept marks ++ (lost ++ dropped marks)).Perm (lost ++ (kept marks ++ dropped marks)) := by
    rw [← List.append_assoc, ← List.append_assoc]
    exact List.perm_append_comm.append_right _
  have hrest := hswap.trans (hmarks.append_left lost)
  simpa using (hrest.append_left queue).append_left (visited ++ [a])

/-- Everything met is a root or the child of an element that has been visited, and nothing is met
twice. -/
theorem Lossy.nodup (hforest : Forest kids roots) (h : Lossy kids roots visited queue lost) :
    (visited ++ queue ++ lost).Nodup ∧
      ∀ x ∈ visited ++ queue ++ lost, x ∈ roots ∨ ∃ a ∈ visited, x ∈ kids a := by
  induction h with
  | start => simpa using hforest.roots_nodup
  | @step visited queue lost a marks _ hmarks ih =>
    obtain ⟨hnodup, hmet⟩ := ih
    have hperm := step_perm visited queue lost hmarks
    constructor
    · rw [hperm.nodup_iff]
      refine List.nodup_append.mpr ⟨hnodup, hforest.kids_nodup a, ?_⟩
      rintro x hx y hy rfl
      -- its parent would have been visited before
      rcases hmet x hx with hroot | ⟨b, hb, hxb⟩
      · exact hforest.notMem_roots a x hy hroot
      · obtain rfl := hforest.parent_unique a b x hy hxb
        rw [List.append_assoc] at hnodup
        exact (List.nodup_append.mp hnodup).2.2 a hb a (by simp) rfl
    · intro x hx
      rcases List.mem_append.mp (hperm.mem_iff.mp hx) with hx | hx
      · rcases hmet x hx with hroot | ⟨b, hb, hxb⟩
        · exact .inl hroot
        · exact .inr ⟨b, by simp [hb], hxb⟩
      · exact .inr ⟨a, by simp, hx⟩

theorem Lossy.forall_met {P : α → Prop} (h : Lossy kids roots visited queue lost)
    (hroots : ∀ a ∈ roots, P a) (hkids : ∀ a, P a → ∀ b ∈ kids a, P b) :
    ∀ x ∈ visited ++ queue ++ lost, P x := by
  induction h with
  | start => simpa using hroots
  | @step visited queue lost a marks _ hmarks ih =>
    intro x hx
    have hperm := step_perm visited queue lost hmarks
    rcases List.mem_append.mp (hperm.mem_iff.mp hx) with hx | hx
    · exact ih x hx
    · exact hkids a (ih a (by simp)) x hx

theorem Lossy.roots_met (h : Lossy kids roots visited queue lost) :
    ∀ x ∈ roots, x ∈ visited ++ queue := by
  induction h with
  | start => simp
  | step marks _ _ ih =>
    intro x hx
    have hmet := ih x hx
    simp only [List.mem_append, List.mem_cons] at hmet ⊢
    tauto

variable [DecidableEq α]

theorem Lossy.run_eq (h : Lossy kids roots visited queue lost) {gone : List α} (hlost : lost ⊆ gone)
    (hgone : ∀ x ∈ visited ++ queue, x ∉ gone) (n : ℕ) :
    run visit (fun a => (kids a).filter (· ∉ gone)) (visited.length + n) roots [] =
      run visit (fun a => (kids a).filter (· ∉ gone)) n queue (visited.flatMap visit) := by
  induction h generalizing n with
  | start => simp
  | @step visited queue lost a marks _ hmarks ih =>
    have hkids : (kids a).filter (· ∉ gone) = kept marks := by
      rw [← hmarks, List.filter_map, kept]
      congr 1
      apply List.filter_congr
      rintro ⟨x, keep⟩ hx
      cases keep with
      | true =>
        have hnot : x ∉ gone := hgone x (by simp [mem_kept.mpr hx])
        simpa using hnot
      | false =>
        have hin : x ∈ gone := hlost (List.mem_append_right _ (mem_dropped.mpr hx))
        simpa using hin
    have hbefore := ih (List.append_subset.mp hlost).1 (fun x hx => hgone x (by
      simp only [List.mem_append, List.mem_cons] at hx ⊢
      tauto)) (n + 1)
    rw [List.length_append, List.length_singleton, Nat.add_assoc, Nat.add_comm 1 n, hbefore, run,
      hkids, List.flatMap_append]
    simp

/-- When the queue is drained, what has been visited are the elements of the loop without the
children that were lost. -/
theorem Lossy.run_eq_of_drained (hforest : Forest kids roots) (h : Lossy kids roots visited [] lost) :
    run visit (fun a => (kids a).filter (· ∉ lost)) visited.length roots [] =
      some (visited.flatMap visit) := by
  obtain ⟨hnodup, -⟩ := h.nodup hforest
  have hrun := h.run_eq visit (List.Subset.refl lost) (fun x hx hxl =>
    (List.nodup_append.mp hnodup).2.2 x hx x hxl rfl) 0
  rw [Nat.add_zero] at hrun
  rw [hrun, run]

end Lossy

/-- Runs of the loop in which the children of an element are decided when it is visited: the elements
visited and the queue. -/
inductive Growing (isKid : α → α → Prop) (root : α) : List α → List α → Prop
  | start : Growing isKid root [] [root]
  | step {visited queue : List α} {a : α} (new : List α) : Growing isKid root visited (a :: queue) →
      new.Nodup → (∀ x ∈ new, isKid a x) → Growing isKid root (visited ++ [a]) (queue ++ new)

section Growing

variable {isKid : α → α → Prop} {root : α} {visited queue : List α}

/-- Nothing is met twice when an element is a child of one element only and the root of none. -/
theorem Growing.nodup (hparent : ∀ a b x, isKid a x → isKid b x → a = b)
    (hroot : ∀ a, ¬ isKid a root) (h : Growing isKid root visited queue) :
    (visited ++ queue).Nodup ∧ ∀ x ∈ visited ++ queue, x = root ∨ ∃ a ∈ visited, isKid a x := by
  induction h with
  | start => simp
  | @step visited queue a new _ hnew hkid ih =>
    obtain ⟨hnodup, hmet⟩ := ih
    have hassoc : (visited ++ [a]) ++ (queue ++ new) = (visited ++ a :: queue) ++ new := by simp
    rw [hassoc]
    constructor
    · refine List.nodup_append.mpr ⟨hnodup, hnew, ?_⟩
      rintro x hx y hy rfl
      -- its parent would have been visited before
      rcases hmet x hx with rfl | ⟨b, hb, hbx⟩
      · exact hroot a (hkid x hy)
      · obtain rfl := hparent b a x hbx (hkid x hy)
        exact (List.nodup_append.mp hnodup).2.2 b hb b (by simp) rfl
    · intro x hx
      rcases List.mem_append.mp hx with hx | hx
      · rcases hmet x hx with hroot | ⟨b, hb, hbx⟩
        · exact .inl hroot
        · exact .inr ⟨b, by simp [hb], hbx⟩
      · exact .inr ⟨a, by simp, hkid x hx⟩

theorem Growing.root_met (h : Growing isKid root visited queue) : root ∈ visited ++ queue := by
  induction h with
  | start => simp
  | step new _ _ _ ih =>
    simp only [List.mem_append, List.mem_cons] at ih ⊢
    tauto

/-- Elements are met in the order of their distance from the root. -/
theorem Growing.pairwise_rank (rank : α → ℕ) (hrank : ∀ a x, isKid a x → rank x = rank a + 1)
    (h : Growing isKid root visited queue) :
    (visited ++ queue).Pairwise (fun x y => rank x ≤ rank y) ∧
      ∀ x ∈ queue, ∀ y ∈ queue, rank x ≤ rank y + 1 := by
  induction h with
  | start => simp
  | @step visited queue a new _ _ hkid ih =>
    obtain ⟨hpair, hspread⟩ := ih
    have hbehind := List.pairwise_append.mp hpair
    have hqueue := List.pairwise_cons.mp hbehind.2.1
    have hnew : ∀ x ∈ new, rank x = rank a + 1 := fun x hx => hrank a x (hkid x hx)
    have hassoc : (visited ++ [a]) ++ (queue ++ new) = (visited ++ a :: queue) ++ new := by simp
    rw [hassoc]
    constructor
    · refine List.pairwise_append.mpr ⟨hpair, ?_, fun x hx y hy => ?_⟩
      · refine List.pairwise_of_forall_mem_list fun x hx y hy => ?_
        rw [hnew x hx, hnew y hy]
      · rw [hnew y hy]
        rcases List.mem_append.mp hx with hx | hx
        · exact Nat.le_succ_of_le (hbehind.2.2 x hx a (by simp))
        · exact hspread x hx a (by simp)
    · intro x hx y hy
      have hle : rank x ≤ rank a + 1 := by
        rcases List.mem_append.mp hx with hx | hx
        · exact hspread x (by simp [hx]) a (by simp)
        · exact (hnew x hx).le
      have hge : rank a ≤ rank y := by
        rcases List.mem_append.mp hy with hy | hy
        · exact hqueue.1 y hy
        · exact (Nat.le_succ _).trans_eq (hnew y hy).symm
      omega

end Growing

/-- What lies less than `h` steps below an element, each element before its children and these one
after another. -/
def preorder (kids : α → List α) : ℕ → α → List α
  | 0, _ => []
  | h + 1, a => a :: (kids a).flatMap (preorder kids h)

section Sorting

variable {γ : Type*} [LinearOrder γ] {rank : α → γ}

/-- Lists that ascend by rank and have the same elements of each rank in the same order are equal. -/
theorem eq_of_filter_rank (rank : α → γ) {l l' : List α} (hl : l.Pairwise fun a b => rank a ≤ rank b)
    (hl' : l'.Pairwise fun a b => rank a ≤ rank b)
    (h : ∀ k, l.filter (fun a => rank a = k) = l'.filter fun a => rank a = k) : l = l' := by
  have hmem : ∀ a, a ∈ l ↔ a ∈ l' := by
    intro a
    have ha : a ∈ l.filter (fun b => rank b = rank a) ↔ a ∈ l'.filter fun b => rank b = rank a := by
      rw [h]
    simpa using ha
  induction l generalizing l' with
  | nil => exact (List.eq_nil_iff_forall_not_mem.mpr fun a ha => by simpa using (hmem a).mpr ha).symm
  | cons a l ih =>
    obtain ⟨b, l', rfl⟩ := List.exists_cons_of_ne_nil (List.ne_nil_of_mem ((hmem a).mp (by simp)))
    rw [List.pairwise_cons] at hl hl'
    have hrank : rank a = rank b := by
      apply le_antisymm
      · rcases List.mem_cons.mp ((hmem b).mpr (by simp)) with rfl | hb
        · exact le_rfl
        · exact hl.1 b hb
      · rcases List.mem_cons.mp ((hmem a).mp (by simp)) with rfl | ha
        · exact le_rfl
        · exact hl'.1 a ha
    have hab : a = b := by
      have hk := h (rank a)
      rw [List.filter_cons_of_pos (by simp), List.filter_cons_of_pos (by simp [hrank])] at hk
      exact (List.cons.inj hk).1
    subst hab
    have htail : ∀ k, l.filter (fun x => rank x = k) = l'.filter fun x => rank x = k := by
      intro k
      have hk := h k
      by_cases hak : rank a = k
      · rw [List.filter_cons_of_pos (by simpa using hak),
          List.filter_cons_of_pos (by simpa using hak)] at hk
        exact (List.cons.inj hk).2
      · rwa [List.filter_cons_of_neg (by simpa using hak),
          List.filter_cons_of_neg (by simpa using hak)] at hk
    rw [ih hl.2 hl'.2 htail fun x => ?_]
    have hx : x ∈ l.filter (fun y => rank y = rank x) ↔ x ∈ l'.filter fun y => rank y = rank x := by
      rw [htail]
    simpa using hx

theorem pairwise_mergeSort_rank (rank : α → γ) (l : List α) :
    (l.mergeSort fun a b => rank a ≤ rank b).Pairwise fun a b => rank a ≤ rank b := by
  have hsorted : (l.mergeSort fun a b => rank a ≤ rank b).Pairwise
      fun a b => (decide (rank a ≤ rank b) : Bool) = true :=
    List.pairwise_mergeSort (fun a b c => by simpa using le_trans)
      (fun a b => by simpa using le_total _ _) l
  exact hsorted.imp fun h => by simpa using h

theorem filter_mergeSort_rank (l : List α) (k : γ) :
    (l.mergeSort fun a b => rank a ≤ rank b).filter (fun a => rank a = k) =
      l.filter fun a => rank a = k := by
  have hequal : (l.filter fun a => rank a = k).Pairwise
      fun a b => (decide (rank a ≤ rank b) : Bool) = true := by
    refine List.pairwise_of_forall_mem_list fun a ha b hb => ?_
    have ha' : rank a = k := by simpa using (List.mem_filter.mp ha).2
    have hb' : rank b = k := by simpa using (List.mem_filter.mp hb).2
    simp [ha', hb']
  have hsorted : (l.filter fun a => rank a = k).Sublist (l.mergeSort fun a b => rank a ≤ rank b) :=
    List.sublist_mergeSort (fun a b c => by simpa using le_trans)
      (fun a b => by simpa using le_total _ _) hequal List.filter_sublist
  have hsub := hsorted.filter fun a => rank a = k
  rw [List.filter_filter] at hsub
  simp only [Bool.and_self] at hsub
  refine (hsub.eq_of_length ?_).symm
  exact ((List.mergeSort_perm l _).filter _).length_eq.symm

end Sorting

section Rank

variable {kids : α → List α} {rank : α → ℕ} (hrank : ∀ a, ∀ b ∈ kids a, rank b = rank a + 1)

include hrank

theorem rank_le_of_mem_preorder {h : ℕ} {a x : α} (hx : x ∈ preorder kids h a) :
    rank a ≤ rank x := by
  induction h generalizing a with
  | zero => cases hx
  | succ h ih =>
    rcases List.mem_cons.mp hx with rfl | hx
    · exact le_rfl
    · obtain ⟨b, hb, hx⟩ := List.mem_flatMap.mp hx
      have hab := hrank a b hb
      have hbx := ih hx
      omega

/-- What lies `i` steps below an element stands in the same order as on level `i`. -/
theorem filter_preorder (h i : ℕ) (a : α) :
    (preorder kids h a).filter (fun x => rank x = rank a + i) =
      if i < h then level kids [a] i else [] := by
  induction h generalizing i a with
  | zero => rfl
  | succ h ih =>
    cases i with
    | zero =>
      have hbelow : ((kids a).flatMap (preorder kids h)).filter (fun x => rank x = rank a) = [] := by
        refine List.filter_eq_nil_iff.mpr fun x hx => ?_
        obtain ⟨b, hb, hx⟩ := List.mem_flatMap.mp hx
        have hab := hrank a b hb
        have hbx := rank_le_of_mem_preorder hrank hx
        simp only [decide_eq_true_eq]
        omega
      rw [Nat.add_zero, preorder, List.filter_cons_of_pos (by simp), hbelow, if_pos (Nat.succ_pos h)]
      rfl
    | succ i =>
      have hkid : ∀ b ∈ kids a, (preorder kids h b).filter (fun x => rank x = rank a + (i + 1)) =
          if i < h then level kids [b] i else [] := by
        intro b hb
        rw [← ih, hrank a b hb, Nat.add_assoc, Nat.add_comm 1 i]
      have hlevel : level kids [a] (i + 1) = (kids a).flatMap fun b => level kids [b] i := by
        rw [← level_flatMap, ← level_eq_flatMap]
        simp
      rw [preorder, List.filter_cons_of_neg (by simp), List.filter_flatMap,
        List.flatMap_congr hkid, hlevel]
      simp only [Nat.add_lt_add_iff_right]
      split_ifs
      · rfl
      · simp

theorem rank_of_mem_level {a x : α} {i : ℕ} (hx : x ∈ level kids [a] i) : rank x = rank a + i := by
  refine level_induction (P := fun i x => rank x = rank a + i) ?_ ?_ i x hx
  · simp
  · intro i x hx b hb
    rw [hrank x b hb, hx, Nat.add_assoc]

theorem filter_order (h i : ℕ) (a : α) :
    (order kids [a] h).filter (fun x => rank x = rank a + i) =
      if i < h then level kids [a] i else [] := by
  induction h with
  | zero => rfl
  | succ h ih =>
    have hlast : (level kids [a] h).filter (fun x => rank x = rank a + i) =
        if i = h then level kids [a] h else [] := by
      split_ifs with hih
      · refine List.filter_eq_self.mpr fun x hx => ?_
        simp [rank_of_mem_level hrank hx, hih]
      · refine List.filter_eq_nil_iff.mpr fun x hx => ?_
        simp only [rank_of_mem_level hrank hx, decide_eq_true_eq, Nat.add_left_cancel_iff]
        exact fun h => hih h.symm
    have hsucc : order kids [a] (h + 1) = order kids [a] h ++ level kids [a] h := by
      simp [order, List.range_succ]
    rw [hsucc, List.filter_append, ih, hlast]
    rcases lt_trichotomy i h with hlt | rfl | hgt
    · rw [if_pos hlt, if_neg hlt.ne, if_pos (Nat.lt_succ_of_lt hlt), List.append_nil]
    · rw [if_neg (lt_irrefl i), if_pos rfl, if_pos (Nat.lt_succ_self i), List.nil_append]
    · rw [if_neg hgt.not_gt, if_neg hgt.ne', if_neg (by omega), List.append_nil]

theorem pairwise_order (h : ℕ) (a : α) :
    (order kids [a] h).Pairwise fun x y => rank x ≤ rank y := by
  refine List.pairwise_flatMap.mpr ⟨fun i _ => ?_, List.pairwise_lt_range.imp ?_⟩
  · refine List.pairwise_of_forall_mem_list fun x hx y hy => ?_
    rw [rank_of_mem_level hrank hx, rank_of_mem_level hrank hy]
  · intro i j hij x hx y hy
    rw [rank_of_mem_level hrank hx, rank_of_mem_level hrank hy]
    omega

/-- Level by level is depth first, sorted by rank. -/
theorem order_eq_mergeSort (h : ℕ) (a : α) :
    order kids [a] h = (preorder kids h a).mergeSort fun x y => rank x ≤ rank y := by
  refine eq_of_filter_rank _ (pairwise_order hrank h a) (pairwise_mergeSort_rank _ _) fun k => ?_
  rw [filter_mergeSort_rank]
  by_cases hk : rank a ≤ k
  · obtain ⟨i, rfl⟩ := Nat.exists_eq_add_of_le hk
    rw [filter_order hrank, filter_preorder hrank]
  · have hnone : ∀ x ∈ preorder kids h a, rank x ≠ k := fun x hx heq =>
      hk (heq ▸ rank_le_of_mem_preorder hrank hx)
    have hnone' : ∀ x ∈ order kids [a] h, rank x ≠ k := by
      intro x hx heq
      obtain ⟨i, -, hx⟩ := List.mem_flatMap.mp hx
      have hxa := rank_of_mem_level hrank hx
      omega
    rw [List.filter_eq_nil_iff.mpr fun x hx => by simpa using hnone' x hx,
      List.filter_eq_nil_iff.mpr fun x hx => by simpa using hnone x hx]

end Rank

end Worklist
