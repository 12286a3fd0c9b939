import VcmallocBench.DataStructures.LinkedList

/-! # The unordered list and the stack derived from it

Items are inserted at both ends and deleted by their value. The stack inherits
the list and pops its first node, without the count and the last pointer, so
that only its runs without `pop` hold what the operations give.
-/

namespace VcmallocBench

variable {α : Type}

namespace UnorderedLinkedList

def insertFirst (newItem : α) (newNode : ℕ) : LinkedOp α Unit := do
  let s ← get
  create newNode { info := newItem, link := s.first }
  setFirst (some newNode)
  addCount 1
  if s.last = none then setLast (some newNode) else pure ()

def insertLast (newItem : α) (newNode : ℕ) : LinkedOp α Unit := do
  let s ← get
  create newNode { info := newItem, link := none }
  if s.first = none then do
    setFirst (some newNode)
    setLast (some newNode)
    addCount 1
  else do
    assign s.last ({ · with link := some newNode })
    setLast (some newNode)
    addCount 1

theorem creates_insertFirst {x : α} {a : ℕ} : Creates a (insertFirst x a) :=
  Leads.get.bind fun _ => creates_create.bind fun _ => creates_setFirst.bind fun _ =>
    creates_addCount.bind fun _ => .ite creates_setLast (.pure _)

theorem creates_insertLast {x : α} {a : ℕ} : Creates a (insertLast x a) := by
  refine Leads.get.bind fun s => creates_create.bind fun _ => .ite ?_ ?_
  · exact creates_setFirst.bind fun _ => creates_setLast.bind fun _ => creates_addCount
  · exact creates_assign.bind fun _ => creates_setLast.bind fun _ => creates_addCount

variable [DecidableEq α]

/-- Deletes the first node with the item. The loop visits at most `fuel` nodes. -/
def deleteNode (fuel : ℕ) (deleteItem : α) : LinkedOp α Unit := do
  let s ← get
  if s.first = none then print "Cannot delete from an empty list.\n"
  else do
    let head ← node s.first
    if head.info = deleteItem then do
      setFirst head.link
      addCount (-1)
      if head.link = none then setLast none else pure ()
      delete s.first
    else do
      let (trailCurrent, current) ←
        seek followLink .diverge (decide <| · = deleteItem) fuel s.first head.link
      if current = none then print "The item to be deleted is not in the list.\n"
      else do
        let found ← node current
        assign trailCurrent ({ · with link := found.link })
        addCount (-1)
        if s.last = current then setLast trailCurrent else pure ()
        delete current

end UnorderedLinkedList

namespace StackUnorderedLinkedList

def push (newElement : α) (newNode : ℕ) : LinkedOp α Unit :=
  UnorderedLinkedList.insertFirst newElement newNode

def pop : LinkedOp α Unit := do
  let s ← get
  let head ← node s.first
  setFirst head.link
  delete s.first

end StackUnorderedLinkedList

namespace Holding

variable {s : LinkedObject (LinkedListNodeType α)} {l : Cells α} {a b : ℕ} {x y : α}
  {E : Fault → LinkedObject (LinkedListNodeType α) → Prop}

theorem meets_insertFirst (h : Holding s l) (ha : s.heap a = none) :
    Meets (UnorderedLinkedList.insertFirst x a) s (fun _ t => Holding t ((a, x) :: l)) E := by
  rw [UnorderedLinkedList.insertFirst, meets_bind, meets_get, meets_bind, meets_create, meets_bind,
    meets_setFirst, meets_bind, meets_addCount]
  refine meets_ite (fun hlast => ?_) fun hlast => (meets_pure _).mpr ?_
  · rw [meets_setLast]
    exact h.cons ha rfl rfl (if_pos hlast).symm rfl
  · exact h.cons ha rfl rfl (if_neg hlast).symm rfl

theorem meets_insertLast (h : Holding s l) (ha : s.heap a = none) :
    Meets (UnorderedLinkedList.insertLast x a) s (fun _ t => Holding t (l ++ [(a, x)])) E := by
  rw [UnorderedLinkedList.insertLast, meets_bind, meets_get, meets_bind, meets_create]
  refine meets_ite (fun hfirst => ?_) fun hfirst => ?_
  · obtain rfl := h.first_none_iff.mp hfirst
    rw [meets_bind, meets_setFirst, meets_bind, meets_setLast, meets_addCount]
    refine h.cons ha ?_ rfl (if_pos h.last).symm rfl
    rw [hfirst]
  · rcases h.last_live with ⟨-, rfl⟩ | ⟨pre, ⟨b, y⟩, rfl, hlast, hb⟩
    · exact absurd h.chain hfirst
    have hba : b ≠ a := by
      rintro rfl
      rw [ha] at hb
      cases hb
    rw [hlast, meets_bind, meets_assign (by rw [s.update_heap_of_ne _ hba]; exact hb), meets_bind,
      meets_setLast, meets_addCount, List.append_assoc]
    refine h.insert ha ?_ ?_ (fun c hca hcb => ?_) rfl rfl rfl
    · exact ((s.update a _).update_heap_of_ne _ hba.symm).trans (s.update_heap_self _ _)
    · exact (s.update a _).update_heap_self _ _
    · exact ((s.update a _).update_heap_of_ne _ hcb).trans (s.update_heap_of_ne _ hca)

theorem meets_unlink {pre post : Cells α} (h : Holding s (pre ++ (b, y) :: (a, x) :: post)) :
    Meets (do
      let found ← node (some a)
      assign (some b) ({ · with link := found.link })
      addCount (-1)
      if s.last = some a then setLast (some b) else pure ()
      delete (some a)) s (fun _ u => Holding u (pre ++ (b, y) :: post)) E := by
  have hlist : pre ++ (b, y) :: (a, x) :: post = (pre ++ [(b, y)]) ++ (a, x) :: post := by simp
  have h' := hlist ▸ h
  have hab : a ≠ b := (DistinctAddresses.ne h.distinct).2.1 (a, x) List.mem_cons_self
  rw [meets_bind, meets_node h'.node_eq, meets_bind, meets_assign h.node_eq, meets_bind,
    meets_addCount]
  have hlive := (s.update_heap_of_ne (some ⟨y, headPtr post none⟩) hab).trans h'.node_eq
  have hgone : ∀ c, c ≠ a → c ≠ b →
      ((s.update b (some ⟨y, headPtr post none⟩)).update a none).heap c = s.heap c :=
    fun c hca hcb => (LinkedObject.update_heap_of_ne _ _ hca).trans (s.update_heap_of_ne _ hcb)
  have hb : ((s.update b (some ⟨y, headPtr post none⟩)).update a none).heap b =
      some ⟨y, headPtr post none⟩ :=
    (LinkedObject.update_heap_of_ne _ _ hab.symm).trans (s.update_heap_self _ _)
  refine meets_ite (fun hlast => ?_) fun hlast => ?_
  · obtain rfl := h'.last_eq_iff.mp hlast
    rw [meets_bind, meets_setLast]
    exact (meets_delete (by exact hlive)).mpr (h.remove hb hgone rfl rfl rfl)
  · have hpost : post ≠ [] := fun hp => hlast (h'.last_eq_iff.mpr hp)
    refine (meets_delete (by exact hlive)).mpr (h.remove hb hgone rfl ?_ rfl)
    exact h'.last_eq.trans (lastPtr_of_ne_nil _ _ hpost)

variable [DecidableEq α]

theorem meets_deleteNode {fuel : ℕ} (h : Holding s l) (hf : l.length ≤ fuel) :
    Meets (UnorderedLinkedList.deleteNode fuel x) s (fun _ t => ∃ l', Holding t l' ∧
      l'.map Prod.snd = (l.map Prod.snd).erase x) E := by
  rw [UnorderedLinkedList.deleteNode, meets_bind, meets_get]
  refine meets_ite (fun hfirst => ?_) fun hfirst => ?_
  · obtain rfl := h.first_none_iff.mp hfirst
    rw [meets_print]
    exact ⟨[], ⟨h.chain, h.distinct, h.last, h.count⟩, rfl⟩
  cases l with
  | nil => exact absurd h.chain hfirst
  | cons e l =>
    obtain ⟨b, y⟩ := e
    obtain ⟨hb, r, hr, hl⟩ := id h.chain
    obtain rfl := hl.head_eq
    have hn := heap_of_link hr
    rw [hb, meets_bind, meets_node hn]
    refine meets_ite (fun hxy => ?_) fun hxy => ?_
    · -- the first node
      obtain rfl : y = x := hxy
      have herase : l.map Prod.snd = (((b, y) :: l).map Prod.snd).erase y := by simp
      have hgone : ∀ c, c ≠ b → (s.update b none).heap c = s.heap c :=
        fun c => s.update_heap_of_ne none
      rw [meets_bind, meets_setFirst, meets_bind, meets_addCount]
      refine meets_ite (fun hnone => ?_) fun hnone => ?_
      · obtain rfl : l = [] := by
          cases l with
          | nil => rfl
          | cons e l => cases hnone
        rw [meets_bind, meets_setLast]
        exact (meets_delete (by exact hn)).mpr ⟨[], h.tail hgone rfl rfl rfl, herase⟩
      · refine (meets_delete (by exact hn)).mpr ⟨l, h.tail hgone rfl ?_ rfl, herase⟩
        cases l with
        | nil => exact absurd rfl hnone
        | cons e l => exact h.last
    · -- the nodes behind the first one are searched
      obtain ⟨hw, hd⟩ := exists_stop (decide <| · = x) l
      refine (meets_seek (fun _ _ _ h' => meets_followLink h') l fuel (some b) _ hl
        (Nat.le_of_succ_le hf)).bind fun v t hv => ?_
      obtain ⟨rfl, rfl⟩ := hv
      have hsplit : (l.takeWhile fun e => !decide (e.2 = x)) ++
          (l.dropWhile fun e => !decide (e.2 = x)) = l := List.takeWhile_append_dropWhile
      dsimp only
      generalize (l.takeWhile fun e => !decide (e.2 = x)) = pre at hw hsplit ⊢
      have hw' : ∀ e ∈ (b, y) :: pre, e.2 ≠ x := by
        rintro e he
        rcases List.mem_cons.mp he with rfl | he
        · exact hxy
        · exact of_decide_eq_false (hw e he)
      rcases hd with hd | ⟨a, z, post, hd, hz⟩
      · rw [hd, List.append_nil] at hsplit
        subst hsplit
        rw [hd, headPtr, if_pos rfl, meets_print]
        exact ⟨(b, y) :: pre, ⟨h.chain, h.distinct, h.last, h.count⟩, (List.erase_of_not_mem (not_mem_items hw')).symm⟩
      · obtain rfl := of_decide_eq_true hz
        rw [hd] at hsplit
        subst hsplit
        rw [hd, headPtr, if_neg (Option.some_ne_none a)]
        rcases List.eq_nil_or_concat ((b, y) :: pre) with hnil | ⟨pre', ⟨c, w⟩, hpre⟩
        · cases hnil
        rw [List.concat_eq_append] at hpre
        have htrail : lastPtr (some b) pre = some c := by
          change lastPtr none ((b, y) :: pre) = some c
          rw [hpre, lastPtr_append]
        have hlist : (b, y) :: (pre ++ (a, z) :: post) = pre' ++ (c, w) :: (a, z) :: post := by
          rw [← List.cons_append, hpre, List.append_assoc, List.singleton_append]
        rw [htrail]
        refine (meets_unlink (hlist ▸ h)).imp fun _ u hu => ⟨_, hu, ?_⟩
        rw [← List.cons_append, erase_split hw', hpre, List.append_assoc, List.singleton_append]

end Holding

/-- The calls on a stack. The two forms of a call that makes a node differ in where its address
comes from. -/
inductive StackOp (α : Type)
  | push (newElement : α) (newNode : ℕ)
  | insertFirst (newItem : α) (newNode : ℕ)
  | insertLast (newItem : α) (newNode : ℕ)
  | deleteNode (deleteItem : α)
  | pop

namespace StackOp

variable [DecidableEq α]

def call (fuel : ℕ) : StackOp α → LinkedOp α Unit
  | push x a => StackUnorderedLinkedList.push x a
  | insertFirst x a => UnorderedLinkedList.insertFirst x a
  | insertLast x a => UnorderedLinkedList.insertLast x a
  | deleteNode x => UnorderedLinkedList.deleteNode fuel x
  | pop => StackUnorderedLinkedList.pop

def apply : StackOp α → List α → List α
  | push x _, l => x :: l
  | insertFirst x _, l => x :: l
  | insertLast x _, l => l ++ [x]
  | deleteNode x, l => l.erase x
  | pop, l => l.tail

omit [DecidableEq α] in
/-- New nodes are at fresh addresses, and only a list with a node is popped. -/
def Allowed (s : LinkedObject (LinkedListNodeType α)) : StackOp α → Prop
  | push _ a => s.heap a = none
  | insertFirst _ a => s.heap a = none
  | insertLast _ a => s.heap a = none
  | deleteNode _ => True
  | pop => s.first ≠ none

theorem apply_length_le {op : StackOp α} {l : List α} : (op.apply l).length ≤ l.length + 1 := by
  cases op with
  | push x a => exact le_rfl
  | insertFirst x a => exact le_rfl
  | insertLast x a => rw [apply, List.length_append, List.length_singleton]
  | deleteNode x => exact (List.length_erase_le ..).trans (Nat.le_succ _)
  | pop =>
    rw [apply, List.length_tail]
    omega

/-- A call other than `pop` gives what the abstract one gives. -/
theorem meets_call {s : LinkedObject (LinkedListNodeType α)} {l : Cells α} {fuel : ℕ}
    {op : StackOp α} {E : Fault → LinkedObject (LinkedListNodeType α) → Prop} (h : Holding s l)
    (ha : op.Allowed s) (hp : op ≠ pop) (hf : l.length ≤ fuel) :
    Meets (op.call fuel) s (fun _ t => ∃ l', Holding t l' ∧
      l'.map Prod.snd = op.apply (l.map Prod.snd)) E := by
  cases op with
  | push x a => exact (h.meets_insertFirst ha).imp fun _ t ht => ⟨_, ht, rfl⟩
  | insertFirst x a => exact (h.meets_insertFirst ha).imp fun _ t ht => ⟨_, ht, rfl⟩
  | insertLast x a =>
    refine (h.meets_insertLast ha).imp fun _ t ht => ⟨_, ht, ?_⟩
    rw [List.map_append, List.map_singleton, apply]
  | deleteNode x => exact h.meets_deleteNode hf
  | pop => exact absurd rfl hp

end StackOp

/-- Calls on a stack from the empty list, the object after them, and the items that the calls on the
abstract list give. -/
inductive StackRun [DecidableEq α] (fuel : ℕ) :
    List (StackOp α) → LinkedObject (LinkedListNodeType α) → List α → Prop
  | empty : StackRun fuel [] (.empty _) []
  | step {ops : List (StackOp α)} {s t : LinkedObject (LinkedListNodeType α)} {l : List α}
      {op : StackOp α} : StackRun fuel ops s l → op.Allowed s → op.call fuel s = .ok () t →
      StackRun fuel (ops ++ [op]) t (op.apply l)

/-- The list object agrees with itself and with the items: `length()` is the number of nodes that are
reachable from the first one, the last pointer denotes the last of them, which is not deleted, and
the nodes hold the items. -/
def Represents (s : LinkedObject (LinkedListNodeType α)) (items : List α) : Prop :=
  ∃ l : Cells α, Segment (links LinkedListNodeType.cell s.heap) s.first l none ∧
    DistinctAddresses l ∧ length s = .ok l.length s ∧ s.last = lastPtr none l ∧
    (∀ a, s.last = some a → s.heap a ≠ none) ∧ l.map Prod.snd = items

theorem Holding.toRepresents {s : LinkedObject (LinkedListNodeType α)} {l : Cells α}
    (h : Holding s l) : Represents s (l.map Prod.snd) := by
  refine ⟨l, h.chain, h.distinct, ?_, h.last, fun a ha hn => ?_, rfl⟩
  · rw [← h.count]
    rfl
  · rcases h.last_live with ⟨hl, -⟩ | ⟨pre, e, -, hl, he⟩
    · rw [hl] at ha
      cases ha
    · obtain rfl := Option.some.inj (hl.symm.trans ha)
      rw [hn] at he
      cases he

namespace StackRun

variable [DecidableEq α] {fuel : ℕ} {ops : List (StackOp α)}
  {s : LinkedObject (LinkedListNodeType α)} {l : List α}

theorem length_le (h : StackRun fuel ops s l) : l.length ≤ ops.length := by
  induction h with
  | empty => exact le_rfl
  | step _ _ _ ih =>
    rw [List.length_append, List.length_singleton]
    exact StackOp.apply_length_le.trans (Nat.succ_le_succ ih)

theorem holding (h : StackRun fuel ops s l) (hp : StackOp.pop ∉ ops) (hf : ops.length ≤ fuel) :
    ∃ cells, Holding s cells ∧ cells.map Prod.snd = l := by
  induction h with
  | empty => exact ⟨[], Holding.empty, rfl⟩
  | @step ops s t l op hr ha hc ih =>
    rw [List.length_append, List.length_singleton] at hf
    rw [List.mem_append, List.mem_singleton, not_or] at hp
    obtain ⟨cells, hs, rfl⟩ := ih hp.1 (Nat.le_of_succ_le hf)
    have hlen : cells.length ≤ fuel := by
      have := hr.length_le
      rw [List.length_map] at this
      omega
    exact (StackOp.meets_call (E := fun _ _ => True) hs ha (Ne.symm hp.2) hlen).of_ok hc

/-- As long as nothing is popped the object represents the items, and every further call returns. -/
theorem represents (h : StackRun fuel ops s l) (hp : StackOp.pop ∉ ops) (hf : ops.length ≤ fuel) :
    Represents s l ∧ ∀ op : StackOp α, op.Allowed s → op ≠ .pop →
      ∃ t, op.call fuel s = .ok () t := by
  obtain ⟨cells, hs, rfl⟩ := h.holding hp hf
  refine ⟨hs.toRepresents, fun op ha hop => ?_⟩
  have hlen : cells.length ≤ fuel := by
    have := h.length_le
    rw [List.length_map] at this
    exact this.trans hf
  obtain ⟨_, t, ht, -⟩ := (StackOp.meets_call (E := fun _ _ => False) hs ha hop hlen).returns
    fun _ he => he
  exact ⟨t, ht⟩

theorem represents_three : ∃ s, StackRun 3 [.push (5 : ℤ) 16, .insertLast 7 32, .deleteNode 5] s [7] ∧
    Represents s [7] := by
  let s₁ := endState ((StackOp.push (5 : ℤ) 16).call 3 (.empty _))
  let s₂ := endState ((StackOp.insertLast (7 : ℤ) 32).call 3 s₁)
  let s₃ := endState ((StackOp.deleteNode (5 : ℤ)).call 3 s₂)
  have h₁ : StackRun 3 [.push (5 : ℤ) 16] s₁ [5] :=
    .step .empty rfl (eq_ok_of_returned (by decide))
  have h₂ : StackRun 3 [.push (5 : ℤ) 16, .insertLast 7 32] s₂ [5, 7] :=
    .step h₁ rfl (eq_ok_of_returned (by decide))
  have h₃ : StackRun 3 [.push (5 : ℤ) 16, .insertLast 7 32, .deleteNode 5] s₃ [7] :=
    .step h₂ True.intro (eq_ok_of_returned (by decide))
  exact ⟨s₃, h₃, (represents h₃ (by simp) le_rfl).1⟩

/-- After a push and a pop the count is one and the last pointer denotes the deleted node. -/
theorem not_represents_popped : ¬ ∀ (ops : List (StackOp ℤ)) s l, StackRun 2 ops s l →
    Represents s l := by
  rintro h
  let s₁ := endState ((StackOp.push (5 : ℤ) 16).call 2 (.empty _))
  let s₂ := endState ((StackOp.pop (α := ℤ)).call 2 s₁)
  have h₁ : StackRun 2 [.push (5 : ℤ) 16] s₁ [5] :=
    .step .empty rfl (eq_ok_of_returned (by decide))
  have h₂ : StackRun 2 [.push (5 : ℤ) 16, .pop] s₂ [] :=
    .step h₁ (Option.some_ne_none 16) (eq_ok_of_returned (by decide))
  obtain ⟨cells, -, -, -, hl, hlive, hi⟩ := h _ _ _ h₂
  have hlast : s₂.last = some 16 := by decide
  exact hlive 16 hlast (by decide)

end StackRun

end VcmallocBench
