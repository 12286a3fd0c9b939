import VcmallocBench.DataStructures.OrderedLinkedList
import VcmallocBench.DataStructures.DoublyLinkedList
import Mathlib.Data.Multiset.Sort

/-! # The two sorted lists side by side

The same calls on an ordered list and on a doubly linked list leave both with the
sorted sequence of one multiset.
-/

namespace VcmallocBench

variable {α : Type} [LinearOrder α]

/-- A call on both lists. A node that it makes has one address in each of them. -/
inductive SortedCall (α : Type)
  | insert (item : α) (ordered doubly : ℕ)
  | deleteNode (item : α)
  | search (item : α)

/-- Calls on both lists from the empty ones, the objects after them, and the multiset that the same
insertions and deletions give. -/
inductive SortedRun (fuel : ℕ) : List (SortedCall α) → LinkedObject (LinkedListNodeType α) →
    LinkedObject (DoublyLinkedListNodeType α) → Multiset α → Prop
  | empty : SortedRun fuel [] (.empty _) (.empty _) 0
  | insert {calls s d m s' d'} {x : α} {a b : ℕ} : SortedRun fuel calls s d m →
      s.heap a = none → d.heap b = none → OrderedLinkedList.insert fuel x a s = .ok () s' →
      DoublyLinkedList.insert fuel x b d = .ok () d' →
      SortedRun fuel (calls ++ [.insert x a b]) s' d' (x ::ₘ m)
  | deleteNode {calls s d m s' d'} {x : α} : SortedRun fuel calls s d m →
      OrderedLinkedList.deleteNode fuel x s = .ok () s' →
      DoublyLinkedList.deleteNode fuel x d = .ok () d' →
      SortedRun fuel (calls ++ [.deleteNode x]) s' d' (m.erase x)
  | search {calls s d m s' d'} {x : α} {v w : Bool} : SortedRun fuel calls s d m →
      OrderedLinkedList.search fuel x s = .ok v s' → DoublyLinkedList.search fuel x d = .ok w d' →
      SortedRun fuel (calls ++ [.search x]) s' d' m

/-- Both lists hold the sorted sequence of a multiset. The counts are the numbers of nodes, the last
pointers denote the last nodes, and the back pointers of the doubly linked list are the inverse of
the next pointers. -/
def SameSorted (s : LinkedObject (LinkedListNodeType α))
    (d : LinkedObject (DoublyLinkedListNodeType α)) (m : Multiset α) : Prop :=
  ∃ l l' : Cells α,
    (Segment (links LinkedListNodeType.cell s.heap) s.first l none ∧ DistinctAddresses l ∧
      l.map Prod.snd = m.sort (· ≤ ·) ∧ s.count = l.length ∧ s.last = lastPtr none l) ∧
    (Segment (links DoublyLinkedListNodeType.nextCell d.heap) d.first l' none ∧
      DistinctAddresses l' ∧ l'.map Prod.snd = m.sort (· ≤ ·) ∧ d.count = l'.length ∧
      d.last = lastPtr none l') ∧
    Segment (links DoublyLinkedListNodeType.backCell d.heap) d.last l'.reverse none ∧
    (∀ e ∈ l', ∀ f ∈ l', (∃ n, d.heap e.1 = some n ∧ n.next = some f.1) ↔
      ∃ n, d.heap f.1 = some n ∧ n.back = some e.1) ∧
    ∀ a n, d.first = some a → d.heap a = some n → n.back = none

theorem eq_sort {l : List α} {m : Multiset α} (hs : l.Pairwise (· ≤ ·)) (hm : (l : Multiset α) = m) :
    l = m.sort (· ≤ ·) := by
  refine List.Perm.eq_of_pairwise' hs (Multiset.pairwise_sort _ _) ?_
  rw [← Multiset.coe_eq_coe, Multiset.sort_eq, hm]

theorem orderedInsert_sort (m : Multiset α) (x : α) :
    (m.sort (· ≤ ·)).orderedInsert (· ≤ ·) x = (x ::ₘ m).sort (· ≤ ·) := by
  apply eq_sort
  · exact (Multiset.pairwise_sort m _).orderedInsert x _
  · rw [Multiset.coe_eq_coe.mpr (List.perm_orderedInsert _ x _), ← Multiset.cons_coe,
      Multiset.sort_eq]

theorem erase_sort (m : Multiset α) (x : α) :
    (m.sort (· ≤ ·)).erase x = (m.erase x).sort (· ≤ ·) := by
  apply eq_sort
  · exact (Multiset.pairwise_sort m _).erase x
  · rw [← Multiset.coe_erase, Multiset.sort_eq]

omit [LinearOrder α] in
/-- In a doubly linked list back is the inverse of next. -/
theorem DoublyHolding.inverse {d : LinkedObject (DoublyLinkedListNodeType α)} {l : Cells α}
    (h : DoublyHolding d l) : ∀ e ∈ l, ∀ f ∈ l, (∃ n, d.heap e.1 = some n ∧ n.next = some f.1) ↔
      ∃ n, d.heap f.1 = some n ∧ n.back = some e.1 := by
  rintro e he f hf
  constructor
  · rintro ⟨n, hn, hnext⟩
    obtain ⟨pre, post, rfl⟩ := List.append_of_mem he
    obtain rfl := Option.some.inj (h.node_eq.symm.trans hn)
    cases post with
    | nil => cases hnext
    | cons g post =>
      have hg : g.1 = f.1 := Option.some.inj hnext
      have hlist : pre ++ e :: g :: post = (pre ++ [e]) ++ g :: post := by simp
      have hgn := (hlist ▸ h).node_eq
      rw [lastPtr_append, hg] at hgn
      exact ⟨_, hgn, rfl⟩
  · rintro ⟨n, hn, hback⟩
    obtain ⟨pre, post, rfl⟩ := List.append_of_mem hf
    obtain rfl := Option.some.inj (h.node_eq.symm.trans hn)
    rcases List.eq_nil_or_concat pre with rfl | ⟨pre, g, rfl⟩
    · cases hback
    · rw [List.concat_eq_append] at *
      rw [lastPtr_append] at hback
      have hg : g.1 = e.1 := Option.some.inj hback
      rw [List.append_assoc, List.singleton_append] at h
      have hgn := h.node_eq
      rw [hg] at hgn
      exact ⟨_, hgn, rfl⟩

namespace SortedRun

variable {fuel : ℕ} {calls : List (SortedCall α)} {s : LinkedObject (LinkedListNodeType α)}
  {d : LinkedObject (DoublyLinkedListNodeType α)} {m : Multiset α}

theorem card_le (h : SortedRun fuel calls s d m) : m.card ≤ calls.length := by
  induction h with
  | empty => exact le_rfl
  | insert _ _ _ _ _ ih =>
    rw [Multiset.card_cons, List.length_append, List.length_singleton]
    exact Nat.succ_le_succ ih
  | deleteNode _ _ _ ih =>
    rw [List.length_append, List.length_singleton]
    exact ((Multiset.card_le_card (Multiset.erase_le _ _)).trans ih).trans (Nat.le_succ _)
  | search _ _ _ ih =>
    rw [List.length_append, List.length_singleton]
    exact ih.trans (Nat.le_succ _)

theorem length_le (h : SortedRun fuel calls s d m) {l : Cells α}
    (hl : l.map Prod.snd = m.sort (· ≤ ·)) (hf : calls.length ≤ fuel) : l.length ≤ fuel := by
  have hc := congrArg List.length hl
  rw [List.length_map, Multiset.length_sort] at hc
  rw [hc]
  exact h.card_le.trans hf

/-- A call on both lists that return keeps them sorted and alike. -/
theorem holding (h : SortedRun fuel calls s d m) (hf : calls.length ≤ fuel) :
    ∃ l l', Holding s l ∧ DoublyHolding d l' ∧ l.map Prod.snd = m.sort (· ≤ ·) ∧
      l'.map Prod.snd = m.sort (· ≤ ·) := by
  induction h with
  | empty => exact ⟨[], [], .empty, .empty, by simp, by simp⟩
  | @insert calls s d m s' d' x a b hr ha hb hs hd ih =>
    rw [List.length_append, List.length_singleton] at hf
    obtain ⟨l, l', hl, hl', he, he'⟩ := ih (Nat.le_of_succ_le hf)
    obtain ⟨k, hk, hki, -⟩ := (hl.meets_insert (E := fun _ _ => True) ha (hr.length_le he (Nat.le_of_succ_le hf))).of_ok hs
    obtain ⟨k', hk', hki', -⟩ := (hl'.meets_insert (E := fun _ _ => True) hb (hr.length_le he' (Nat.le_of_succ_le hf))).of_ok hd
    rw [he, orderedInsert_sort] at hki
    rw [he', orderedInsert_sort] at hki'
    exact ⟨k, k', hk, hk', hki, hki'⟩
  | @deleteNode calls s d m s' d' x hr hs hd ih =>
    rw [List.length_append, List.length_singleton] at hf
    obtain ⟨l, l', hl, hl', he, he'⟩ := ih (Nat.le_of_succ_le hf)
    have hsort : (m.sort (· ≤ ·)).Pairwise (· ≤ ·) := Multiset.pairwise_sort m _
    obtain ⟨k, hk, hki⟩ := (hl.meets_deleteSorted (E := fun _ _ => True) (he ▸ hsort)
      (hr.length_le he (Nat.le_of_succ_le hf))).of_ok hs
    obtain ⟨k', hk', hki'⟩ := (hl'.meets_deleteNode (E := fun _ _ => True) (he' ▸ hsort)
      (hr.length_le he' (Nat.le_of_succ_le hf))).of_ok hd
    rw [he, erase_sort] at hki
    rw [he', erase_sort] at hki'
    exact ⟨k, k', hk, hk', hki, hki'⟩
  | @search calls s d m s' d' x v w hr hs hd ih =>
    rw [List.length_append, List.length_singleton] at hf
    obtain ⟨l, l', hl, hl', he, he'⟩ := ih (Nat.le_of_succ_le hf)
    obtain ⟨-, rfl⟩ := (meets_searchNodes (E := fun _ _ => True) hl (hr.length_le he (Nat.le_of_succ_le hf))).of_ok hs
    obtain ⟨-, rfl⟩ := (hl'.meets_search (E := fun _ _ => True) (hr.length_le he' (Nat.le_of_succ_le hf))).of_ok hd
    exact ⟨l, l', hl, hl', he, he'⟩

theorem sameSorted {l l' : Cells α} (hl : Holding s l) (hl' : DoublyHolding d l')
    (he : l.map Prod.snd = m.sort (· ≤ ·)) (he' : l'.map Prod.snd = m.sort (· ≤ ·)) :
    SameSorted s d m := by
  refine ⟨l, l', ⟨hl.chain, hl.distinct, he, hl.count, hl.last⟩, ⟨hl'.next, hl'.distinct, he',
    hl'.count, hl'.last_eq⟩, hl'.back, hl'.inverse, fun a n ha hn => ?_⟩
  have hfirst := hl'.next.head_eq
  rw [ha] at hfirst
  cases l' with
  | nil => cases hfirst
  | cons e l' =>
    obtain rfl := Option.some.inj hfirst
    obtain rfl := Option.some.inj (hl'.front_eq.symm.trans hn)
    rfl

/-- Whatever the calls were, both lists hold the sorted multiset, both searches answer by its members
and change nothing, and every further call returns. -/
theorem same (h : SortedRun fuel calls s d m) (hf : calls.length ≤ fuel) :
    SameSorted s d m ∧
      (∀ x, OrderedLinkedList.search fuel x s = .ok (decide (x ∈ m)) s ∧
        DoublyLinkedList.search fuel x d = .ok (decide (x ∈ m)) d) ∧
      (∀ x a b, s.heap a = none → d.heap b = none →
        ∃ s' d', OrderedLinkedList.insert fuel x a s = .ok () s' ∧
          DoublyLinkedList.insert fuel x b d = .ok () d') ∧
      ∀ x, ∃ s' d', OrderedLinkedList.deleteNode fuel x s = .ok () s' ∧
        DoublyLinkedList.deleteNode fuel x d = .ok () d' := by
  obtain ⟨l, l', hl, hl', he, he'⟩ := h.holding hf
  have hlen : l.length ≤ fuel := h.length_le he hf
  have hlen' : l'.length ≤ fuel := h.length_le he' hf
  have hsort : (m.sort (· ≤ ·)).Pairwise (· ≤ ·) := Multiset.pairwise_sort m _
  have hmem : ∀ x, x ∈ m.sort (· ≤ ·) ↔ x ∈ m := fun x => Multiset.mem_sort _
  refine ⟨sameSorted hl hl' he he', fun x => ⟨?_, ?_⟩, fun x a b ha hb => ?_, fun x => ?_⟩
  · obtain ⟨v, t, ht, hv, rfl⟩ := (meets_searchNodes (x := x) (E := fun _ _ => False) hl hlen).returns
      fun _ he => he
    rw [he, hmem] at hv
    rw [OrderedLinkedList.search, ht, ← Bool.eq_iff_iff.mpr (hv.trans decide_eq_true_iff.symm)]
  · obtain ⟨v, t, ht, hv, rfl⟩ := (hl'.meets_search (x := x) (E := fun _ _ => False) hlen').returns
      fun _ he => he
    rw [he', hmem] at hv
    rw [ht, ← Bool.eq_iff_iff.mpr (hv.trans decide_eq_true_iff.symm)]
  · obtain ⟨_, s', hs, -⟩ := (hl.meets_insert (x := x) (E := fun _ _ => False) ha hlen).returns
      fun _ he => he
    obtain ⟨_, d', hd, -⟩ := (hl'.meets_insert (x := x) (E := fun _ _ => False) hb hlen').returns
      fun _ he => he
    exact ⟨s', d', hs, hd⟩
  · obtain ⟨_, s', hs, -⟩ := (hl.meets_deleteSorted (x := x) (E := fun _ _ => False) (he ▸ hsort)
      hlen).returns fun _ he => he
    obtain ⟨_, d', hd, -⟩ := (hl'.meets_deleteNode (x := x) (E := fun _ _ => False) (he' ▸ hsort)
      hlen').returns fun _ he => he
    exact ⟨s', d', hs, hd⟩

theorem same_two : ∃ s d, SortedRun 3 [.insert (7 : ℤ) 16 160, .insert 5 32 128, .deleteNode 7] s d
    ((5 ::ₘ 7 ::ₘ 0 : Multiset ℤ).erase 7) ∧ SameSorted s d ((5 ::ₘ 7 ::ₘ 0 : Multiset ℤ).erase 7) := by
  let s₁ := endState (OrderedLinkedList.insert 3 (7 : ℤ) 16 (.empty _))
  let d₁ := endState (DoublyLinkedList.insert 3 (7 : ℤ) 160 (.empty _))
  let s₂ := endState (OrderedLinkedList.insert 3 (5 : ℤ) 32 s₁)
  let d₂ := endState (DoublyLinkedList.insert 3 (5 : ℤ) 128 d₁)
  let s₃ := endState (OrderedLinkedList.deleteNode 3 (7 : ℤ) s₂)
  let d₃ := endState (DoublyLinkedList.deleteNode 3 (7 : ℤ) d₂)
  have h₁ : SortedRun 3 [.insert (7 : ℤ) 16 160] s₁ d₁ (7 ::ₘ 0) :=
    .insert .empty rfl rfl (eq_ok_of_returned (by decide)) (eq_ok_of_returned (by decide))
  have h₂ : SortedRun 3 [.insert (7 : ℤ) 16 160, .insert 5 32 128] s₂ d₂ (5 ::ₘ 7 ::ₘ 0) :=
    .insert h₁ rfl rfl (eq_ok_of_returned (by decide)) (eq_ok_of_returned (by decide))
  have h₃ : SortedRun 3 [.insert (7 : ℤ) 16 160, .insert 5 32 128, .deleteNode 7] s₃ d₃
      ((5 ::ₘ 7 ::ₘ 0 : Multiset ℤ).erase 7) :=
    .deleteNode h₂ (eq_ok_of_returned (by decide)) (eq_ok_of_returned (by decide))
  exact ⟨s₃, d₃, h₃, (same h₃ le_rfl).1⟩

end SortedRun

end VcmallocBench
