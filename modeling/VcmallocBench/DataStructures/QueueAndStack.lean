import VcmallocBench.DataStructures.LinkedObject

/-! # The linked queue and the linked stack

Both have nodes of their own type with an item and a link. The queue keeps
pointers to its front and its rear, the stack one to its top, and neither counts
its nodes.
-/

namespace VcmallocBench

structure LinkedQueuesNodeType (α : Type) where
  info : α
  link : Ptr

structure LinkedStackNodeType (α : Type) where
  info : α
  link : Ptr

variable {α : Type}

def LinkedQueuesNodeType.cell (n : LinkedQueuesNodeType α) : α × Ptr := (n.info, n.link)

def LinkedStackNodeType.cell (n : LinkedStackNodeType α) : α × Ptr := (n.info, n.link)

/-- Both forms of `addQueue`. The front is the first pointer of the object and the rear the last. -/
def LinkedQueueType.addQueue (newElement : α) (newNode : ℕ) :
    ListOp (LinkedQueuesNodeType α) Unit := do
  let s ← get
  create newNode { info := newElement, link := none }
  if s.first = none then do
    setFirst (some newNode)
    setLast (some newNode)
  else do
    assign s.last ({ · with link := some newNode })
    let rear ← node s.last
    setLast rear.link

/-- Both forms of `push`. The top is the first pointer of the object. -/
def LinkedStackType.push (newElement : α) (newNode : ℕ) :
    ListOp (LinkedStackNodeType α) Unit := do
  let s ← get
  create newNode { info := newElement, link := s.first }
  setFirst (some newNode)

theorem LinkedQueueType.creates_addQueue {x : α} {a : ℕ} :
    Creates a (LinkedQueueType.addQueue x a) := by
  refine Leads.get.bind fun s => creates_create.bind fun _ => .ite ?_ ?_
  · exact creates_setFirst.bind fun _ => creates_setLast
  · exact creates_assign.bind fun _ => creates_node.bind fun _ => creates_setLast

theorem LinkedStackType.creates_push {x : α} {a : ℕ} : Creates a (LinkedStackType.push x a) :=
  Leads.get.bind fun _ => creates_create.bind fun _ => creates_setFirst

structure Queued (s : LinkedObject (LinkedQueuesNodeType α)) (l : Cells α) : Prop where
  chain : Segment (links LinkedQueuesNodeType.cell s.heap) s.first l none
  distinct : DistinctAddresses l
  rear : s.last = lastPtr none l

structure Stacked (s : LinkedObject (LinkedStackNodeType α)) (l : Cells α) : Prop where
  chain : Segment (links LinkedStackNodeType.cell s.heap) s.first l none
  distinct : DistinctAddresses l

theorem Queued.meets_addQueue {s : LinkedObject (LinkedQueuesNodeType α)} {l : Cells α} {a : ℕ}
    {x : α} {E : Fault → LinkedObject (LinkedQueuesNodeType α) → Prop} (h : Queued s l)
    (ha : s.heap a = none) :
    Meets (LinkedQueueType.addQueue x a) s (fun _ t => Queued t (l ++ [(a, x)])) E := by
  have hne := h.chain.ne_fresh ha
  have hhead := h.chain.head_eq
  rw [LinkedQueueType.addQueue, meets_bind, meets_get, meets_bind, meets_create]
  refine meets_ite (fun hfirst => ?_) fun hfirst => ?_
  · obtain rfl := headPtr_eq_none_iff.mp (hhead.symm.trans hfirst)
    rw [meets_bind, meets_setFirst, meets_setLast]
    exact ⟨⟨rfl, none, links_eq (s.update_heap_self _ _), rfl⟩, List.nodup_singleton a, rfl⟩
  rcases List.eq_nil_or_concat l with rfl | ⟨pre, ⟨b, y⟩, rfl⟩
  · exact absurd hhead hfirst
  rw [List.concat_eq_append] at *
  have hrear : s.last = some b := by rw [h.rear, lastPtr_append]
  have hba : b ≠ a := hne (b, y) (List.mem_append_right _ (List.mem_singleton_self _))
  obtain ⟨n, hn, hv⟩ := exists_node_of_links h.chain.link_eq
  obtain ⟨rfl, -⟩ := Prod.mk.inj hv
  obtain ⟨hpre, -, -⟩ := DistinctAddresses.ne h.distinct
  have hlive := (s.update_heap_of_ne (some ⟨x, none⟩) hba).trans hn
  rw [hrear, meets_bind, meets_assign hlive, meets_bind, meets_node (LinkedObject.update_heap_self _ _ _),
    meets_setLast, List.append_assoc]
  refine ⟨?_, ?_, ?_⟩
  · refine h.chain.insert ?_ ?_ (fun e he => ?_) fun e he => absurd he List.not_mem_nil
    · exact links_eq (LinkedObject.update_heap_self _ _ _)
    · exact links_eq ((LinkedObject.update_heap_of_ne _ _ hba.symm).trans (s.update_heap_self _ _))
    · exact links_congr ((LinkedObject.update_heap_of_ne _ _ (hpre e he)).trans
        (s.update_heap_of_ne _ (hne e (List.mem_append_left _ he))))
  · have hd := h.distinct
    have hnew : DistinctAddresses ((pre ++ [(b, n.info)]) ++ (a, x) :: []) :=
      DistinctAddresses.insert (by rw [List.append_nil]; exact hd) (by rw [List.append_nil]; exact hne)
    simpa using hnew
  · rw [List.singleton_append, lastPtr_append_cons]
    rfl

theorem Stacked.meets_push {s : LinkedObject (LinkedStackNodeType α)} {l : Cells α} {a : ℕ}
    {x : α} {E : Fault → LinkedObject (LinkedStackNodeType α) → Prop} (h : Stacked s l)
    (ha : s.heap a = none) :
    Meets (LinkedStackType.push x a) s (fun _ t => Stacked t ((a, x) :: l)) E := by
  have hne := h.chain.ne_fresh ha
  rw [LinkedStackType.push, meets_bind, meets_get, meets_bind, meets_create, meets_setFirst]
  exact ⟨⟨rfl, s.first, links_eq (s.update_heap_self _ _),
    h.chain.congr fun e he => links_congr (s.update_heap_of_ne _ (hne e he))⟩,
    h.distinct.insert_front hne⟩

end VcmallocBench
