import VcmallocBench.DataStructures.UnorderedLinkedList
import VcmallocBench.DataStructures.DoublyLinkedList

/-! # Lists whose container has moved

`update` is called when the nodes of a list, contiguous and in order, have been
copied to another address. Both forms of it take the node behind the last one for
the last one.
-/

namespace VcmallocBench

variable {α : Type}

namespace UnorderedLinkedList

def update (sizeofNode newHead : ℕ) : LinkedOp α Unit := do
  setFirst (some newHead)
  let s ← get
  let seeker ← (List.range' 0 s.count.toNat).foldlM (fun seeker _ => do
    assign (some seeker) ({ · with link := some (seeker + sizeofNode) })
    return seeker + sizeofNode) newHead
  assign (some seeker) ({ · with link := none })
  setLast (some seeker)

end UnorderedLinkedList

namespace DoublyLinkedList

/-- The nodes are `sizeofNode` bytes apart. A back pointer that is null stays null, where the
subtraction of the source is undefined. -/
def update (sizeofNode addr : ℕ) : DoublyOp α Unit := do
  setFirst (some addr)
  assign (some addr) ({ · with next := some (addr + sizeofNode) })
  let s ← get
  let n := s.count.toNat
  setLast (some (addr + n * sizeofNode))
  assign (some (addr + n * sizeofNode)) fun m => { m with back := m.back.map (· - sizeofNode) }
  (List.range' 1 (n - 2)).forM fun i => do
    assign (some (addr + i * sizeofNode)) ({ · with back := some (addr + i * sizeofNode - sizeofNode) })
    assign (some (addr + i * sizeofNode)) ({ · with next := some (addr + i * sizeofNode + sizeofNode) })

end DoublyLinkedList

def block (base size : ℕ) : List α → Cells α
  | [] => []
  | x :: l => (base, x) :: block (base + size) size l

def LinkedObject.only {N : Type} (s : LinkedObject N) (l : Cells α) : LinkedObject N :=
  { s with heap := fun a => if a ∈ l.map Prod.fst then s.heap a else none }

structure Moved {N : Type} (s t : LinkedObject N) (old new size n : ℕ) : Prop where
  nodes : ∀ i < n, t.heap (new + i * size) = s.heap (old + i * size)
  first : t.first = s.first
  last : t.last = s.last
  count : t.count = s.count

/-- `update` gives the list back at the new address, and it needs no other node for that. -/
def UnorderedLinkedList.Rebuilds (size newHead : ℕ) (items : List α)
    (s : LinkedObject (LinkedListNodeType α)) : Prop :=
  (∃ t, update size newHead s = .ok () t ∧
    Segment (links LinkedListNodeType.cell t.heap) t.first (block newHead size items) none ∧
    t.last = lastPtr none (block newHead size items)) ∧
  returned (update size newHead (s.only (block newHead size items))) = true

/-- `update` gives the list back in both directions, and it needs no other node for that. -/
def DoublyLinkedList.Rebuilds (size addr : ℕ) (items : List α)
    (s : LinkedObject (DoublyLinkedListNodeType α)) : Prop :=
  (∃ t, update size addr s = .ok () t ∧
    Segment (links DoublyLinkedListNodeType.nextCell t.heap) t.first (block addr size items) none ∧
    t.last = lastPtr none (block addr size items) ∧
    Segment (links DoublyLinkedListNodeType.backCell t.heap) t.last
      (block addr size items).reverse none) ∧
  returned (update size addr (s.only (block addr size items))) = true

theorem lastPtr_block {base size : ℕ} {items : List α} (h : items ≠ []) :
    lastPtr none (block base size items) = some (base + (items.length - 1) * size) := by
  obtain ⟨x, l, rfl⟩ := List.exists_cons_of_ne_nil h
  rw [block, lastPtr, List.length_cons, Nat.add_sub_cancel]
  clear h
  induction l generalizing base with
  | nil => rw [block, lastPtr, List.length_nil, Nat.zero_mul, Nat.add_zero]
  | cons y l ih =>
    rw [block, lastPtr, ih, List.length_cons, Nat.succ_mul, Nat.add_assoc, Nat.add_comm size]

section Assign

variable {N : Type} {s : LinkedObject N}

theorem assign_keeps (p : Ptr) (f : N → N) : Meets (assign p f) s
    (fun _ t => t.first = s.first ∧ t.last = s.last ∧ t.count = s.count) fun _ _ => True := by
  unfold Meets assign
  cases p with
  | none => exact True.intro
  | some a =>
    dsimp only
    cases s.heap a with
    | none => exact True.intro
    | some n => exact ⟨rfl, rfl, rfl⟩

end Assign

/-- The last pointer that `update` sets is one node too far. -/
theorem UnorderedLinkedList.update_last (size newHead : ℕ)
    (s : LinkedObject (LinkedListNodeType α)) : Meets (update size newHead) s
      (fun _ t => t.last = some (newHead + s.count.toNat * size)) fun _ _ => True := by
  rw [update, meets_bind, meets_setFirst, meets_bind, meets_get, meets_bind]
  have hloop := meets_foldlM_range (ε := Fault) (E := fun _ _ => True)
    (σ := LinkedObject (LinkedListNodeType α))
    (f := fun seeker (_ : ℕ) => do
      assign (some seeker) ({ · with link := some (seeker + size) })
      return seeker + size)
    (I := fun j seeker _ => seeker = newHead + j * size) s.count.toNat 0 newHead
    { s with first := some newHead } (by rw [Nat.zero_mul, Nat.add_zero])
    fun j seeker t _ _ hj => (assign_keeps _ _).bind fun _ u _ => (meets_pure _).mpr (by
      rw [hj, Nat.succ_mul, Nat.add_assoc])
  rw [Nat.zero_add] at hloop
  refine hloop.imp fun seeker t hs => ?_
  subst hs
  refine (assign_keeps _ _).bind fun _ u _ => ?_
  rw [meets_setLast]

theorem DoublyLinkedList.update_last (size addr : ℕ)
    (s : LinkedObject (DoublyLinkedListNodeType α)) : Meets (update size addr) s
      (fun _ t => t.last = some (addr + s.count.toNat * size)) fun _ _ => True := by
  rw [update, meets_bind, meets_setFirst]
  refine (assign_keeps _ _).bind fun _ t ht => ?_
  rw [meets_bind, meets_get, meets_bind, meets_setLast]
  refine (assign_keeps _ _).bind fun _ u hu => ?_
  have hlast : u.last = some (addr + s.count.toNat * size) := by
    rw [hu.2.1, ht.2.2]
  refine (meets_forM_range (I := fun _ v => v.last = some (addr + s.count.toNat * size)) _ _ _ hlast
    fun j v _ _ hv => ?_).imp fun _ v hv => hv
  refine (assign_keeps _ _).bind fun _ w hw => (assign_keeps _ _).imp fun _ w' hw' => ?_
  rw [hw'.2.1, hw.2.1, hv]

theorem block_length (base size : ℕ) (items : List α) : (block base size items).length = items.length := by
  induction items generalizing base with
  | nil => rfl
  | cons x l ih => rw [block, List.length_cons, List.length_cons, ih]

theorem one_too_far {base size : ℕ} {items : List α} (h : items ≠ []) (hs : 0 < size) :
    some (base + items.length * size) ≠ lastPtr none (block base size items) := by
  rw [lastPtr_block h]
  intro hc
  have hn := List.length_pos_iff.mpr h
  have hlt : (items.length - 1) * size < items.length * size := Nat.mul_lt_mul_of_pos_right (by omega) hs
  have := Option.some.inj hc
  omega

/-- No list that has moved is rebuilt, of either class. -/
theorem not_rebuilds :
    (∀ {s t : LinkedObject (LinkedListNodeType α)} {items : List α} {old new size : ℕ}, items ≠ [] →
      0 < size → Holding s (block old size items) → Moved s t old new size items.length →
        ¬ UnorderedLinkedList.Rebuilds size new items t) ∧
    ∀ {s t : LinkedObject (DoublyLinkedListNodeType α)} {items : List α} {old new size : ℕ},
      items ≠ [] → 0 < size → DoublyHolding s (block old size items) →
        Moved s t old new size items.length → ¬ DoublyLinkedList.Rebuilds size new items t := by
  constructor
  · rintro s t items old new size hne hs h hm ⟨⟨u, hu, -, hlast⟩, -⟩
    have hfar := (UnorderedLinkedList.update_last size new t).of_ok hu
    rw [hm.count, h.count, block_length, Int.toNat_natCast] at hfar
    exact one_too_far hne hs (hfar.symm.trans hlast)
  · rintro s t items old new size hne hs h hm ⟨⟨u, hu, -, hlast, -⟩, -⟩
    have hfar := (DoublyLinkedList.update_last size new t).of_ok hu
    rw [hm.count, h.count, block_length, Int.toNat_natCast] at hfar
    exact one_too_far hne hs (hfar.symm.trans hlast)

/-- Two nodes of each class. -/
theorem not_rebuilds_pair :
    (∃ t : LinkedObject (LinkedListNodeType ℤ), ¬ UnorderedLinkedList.Rebuilds 16 160 [5, 7] t) ∧
      ∃ t : LinkedObject (DoublyLinkedListNodeType ℤ), ¬ DoublyLinkedList.Rebuilds 24 160 [5, 7] t := by
  constructor
  · let s : LinkedObject (LinkedListNodeType ℤ) :=
      { heap := fun a => if a = 16 then some ⟨5, some 32⟩ else if a = 32 then some ⟨7, none⟩ else none
        first := some 16, last := some 32, count := 2, output := [] }
    let t : LinkedObject (LinkedListNodeType ℤ) :=
      { s with heap := fun a =>
          if a = 160 then some ⟨5, some 32⟩ else if a = 176 then some ⟨7, none⟩ else none }
    have hs : Holding s (block 16 16 [5, 7]) :=
      ⟨⟨rfl, _, rfl, rfl, _, rfl, rfl⟩, by simp [DistinctAddresses, block], rfl, rfl⟩
    have hm : Moved s t 16 160 16 2 := by
      refine ⟨fun i hi => ?_, rfl, rfl, rfl⟩
      interval_cases i <;> rfl
    exact ⟨t, not_rebuilds.1 (List.cons_ne_nil _ _) (by decide) hs hm⟩
  · let s : LinkedObject (DoublyLinkedListNodeType ℤ) :=
      { heap := fun a =>
          if a = 16 then some ⟨5, some 40, none⟩ else if a = 40 then some ⟨7, none, some 16⟩ else none
        first := some 16, last := some 40, count := 2, output := [] }
    let t : LinkedObject (DoublyLinkedListNodeType ℤ) :=
      { s with heap := fun a => if a = 160 then some ⟨5, some 40, none⟩
          else if a = 184 then some ⟨7, none, some 16⟩ else none }
    have hs : DoublyHolding s (block 16 24 [5, 7]) := by
      refine ⟨⟨rfl, _, rfl, rfl, _, rfl, rfl⟩, ?_, by simp [DistinctAddresses, block], rfl⟩
      exact ⟨rfl, _, rfl, rfl, _, rfl, rfl⟩
    have hm : Moved s t 16 160 24 2 := by
      refine ⟨fun i hi => ?_, rfl, rfl, rfl⟩
      interval_cases i <;> rfl
    exact ⟨t, not_rebuilds.2 (List.cons_ne_nil _ _) (by decide) hs hm⟩

/-- Two nodes are moved in front of a third one, which then counts as the last. -/
theorem not_rebuilds_two : ¬ ∀ (s t : LinkedObject (LinkedListNodeType ℤ)) (items : List ℤ)
    (old new size : ℕ), items ≠ [] → 0 < size → Holding s (block old size items) →
      Moved s t old new size items.length → UnorderedLinkedList.Rebuilds size new items t := by
  rintro h
  let s : LinkedObject (LinkedListNodeType ℤ) :=
    { heap := fun a => if a = 16 then some ⟨5, some 32⟩ else if a = 32 then some ⟨7, none⟩ else none
      first := some 16, last := some 32, count := 2, output := [] }
  let t : LinkedObject (LinkedListNodeType ℤ) :=
    { heap := fun a => if a = 160 then some ⟨5, some 32⟩ else if a = 176 then some ⟨7, none⟩
        else if a = 192 then some ⟨9, none⟩ else none
      first := some 16, last := some 32, count := 2, output := [] }
  have hs : Holding s (block 16 16 [5, 7]) :=
    ⟨⟨rfl, _, rfl, rfl, _, rfl, rfl⟩, by simp [DistinctAddresses, block], rfl, rfl⟩
  have hm : Moved s t 16 160 16 2 := by
    refine ⟨fun i hi => ?_, rfl, rfl, rfl⟩
    interval_cases i <;> rfl
  obtain ⟨⟨u, hu, -, hlast⟩, -⟩ := h s t [5, 7] 16 160 16 (by decide) (by decide) hs hm
  have hfar : (endState (UnorderedLinkedList.update 16 160 t)).last = some 192 := by decide
  rw [hu] at hfar
  exact absurd (hfar.symm.trans hlast) (by decide)

end VcmallocBench
