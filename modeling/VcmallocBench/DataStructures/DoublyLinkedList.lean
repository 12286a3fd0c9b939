import VcmallocBench.DataStructures.LinkedObject

/-! # The doubly linked list

The nodes are a chain along the next pointers from the first one and, backwards,
a chain along the back pointers from the last one. Insertion and deletion change
the neighbours of one node in both.
-/

namespace VcmallocBench

structure DoublyLinkedListNodeType (α : Type) where
  info : α
  next : Ptr
  back : Ptr

variable {α : Type}

abbrev DoublyOp (α : Type) := ListOp (DoublyLinkedListNodeType α)

namespace DoublyLinkedListNodeType

def nextCell (n : DoublyLinkedListNodeType α) : α × Ptr := (n.info, n.next)

def backCell (n : DoublyLinkedListNodeType α) : α × Ptr := (n.info, n.back)

end DoublyLinkedListNodeType

def followNext (current : ℕ) : DoublyOp α (α × Ptr) := do
  let n ← node (some current)
  return n.nextCell

theorem creates_followNext {a b : ℕ} : Creates a (followNext (α := α) b) :=
  creates_node.bind fun _ => .pure _

namespace DoublyLinkedList

variable [LinearOrder α]

/-- The loop visits at most `fuel` nodes. -/
def search (fuel : ℕ) (searchItem : α) : DoublyOp α Bool := do
  let s ← get
  let (_, current) ← seek followNext .diverge (decide <| · = searchItem) fuel none s.first
  return current.isSome

/-- Both forms of `insert`. The loop visits at most `fuel` nodes. -/
def insert (fuel : ℕ) (insertItem : α) (newNode : ℕ) : DoublyOp α Unit := do
  let s ← get
  create newNode { info := insertItem, next := none, back := none }
  if s.first = none then do
    setFirst (some newNode)
    setLast (some newNode)
    addCount 1
  else do
    let (trailCurrent, current) ←
      seek followNext .diverge (decide <| insertItem ≤ ·) fuel none s.first
    if current = s.first then do
      assign s.first ({ · with back := some newNode })
      assign (some newNode) ({ · with next := s.first })
      setFirst (some newNode)
      addCount 1
    else do
      if current ≠ none then do
        assign trailCurrent ({ · with next := some newNode })
        assign (some newNode) ({ · with back := trailCurrent })
        assign (some newNode) ({ · with next := current })
        assign current ({ · with back := some newNode })
      else do
        assign trailCurrent ({ · with next := some newNode })
        assign (some newNode) ({ · with back := trailCurrent })
        setLast (some newNode)
      addCount 1

theorem creates_insert {fuel : ℕ} {x : α} {a : ℕ} : Creates a (insert fuel x a) := by
  refine Leads.get.bind fun s => creates_create.bind fun _ => .ite ?_ ?_
  · exact creates_setFirst.bind fun _ => creates_setLast.bind fun _ => creates_addCount
  refine (leads_seek (fun _ => creates_followNext) _ _ _).bind fun v => .ite ?_ (.ite ?_ ?_)
  · exact creates_assign.bind fun _ => creates_assign.bind fun _ => creates_setFirst.bind fun _ =>
      creates_addCount
  · exact creates_assign.bind fun _ => creates_assign.bind fun _ => creates_assign.bind fun _ =>
      creates_assign.bind fun _ => creates_addCount
  · exact creates_assign.bind fun _ => creates_assign.bind fun _ => creates_setLast.bind fun _ =>
      creates_addCount

/-- Deletes the first node with the item. The loop visits at most `fuel` nodes. -/
def deleteNode (fuel : ℕ) (deleteItem : α) : DoublyOp α Unit := do
  let s ← get
  if s.first = none then print "Cannot delete from an empty list.\n"
  else do
    let head ← node s.first
    if head.info = deleteItem then do
      setFirst head.next
      if head.next ≠ none then assign head.next ({ · with back := none }) else setLast none
      addCount (-1)
      delete s.first
    else do
      let (_, current) ← seek followNext .diverge (decide <| deleteItem ≤ ·) fuel none s.first
      if current = none then print "The item to be deleted is not in the list.\n"
      else do
        let found ← node current
        if found.info = deleteItem then do
          assign found.back ({ · with next := found.next })
          if found.next ≠ none then assign found.next ({ · with back := found.back }) else pure ()
          if current = s.last then setLast found.back else pure ()
          addCount (-1)
          delete current
        else print "The item to be deleted is not in list.\n"

end DoublyLinkedList

/-- The nodes are a chain in both directions, and the count is their number. -/
structure DoublyHolding (s : LinkedObject (DoublyLinkedListNodeType α)) (l : Cells α) : Prop where
  next : Segment (links DoublyLinkedListNodeType.nextCell s.heap) s.first l none
  back : Segment (links DoublyLinkedListNodeType.backCell s.heap) s.last l.reverse none
  distinct : DistinctAddresses l
  count : s.count = l.length

theorem meets_followNext {s : LinkedObject (DoublyLinkedListNodeType α)} {a : ℕ} {v : α × Ptr}
    {E : Fault → LinkedObject (DoublyLinkedListNodeType α) → Prop}
    (h : links DoublyLinkedListNodeType.nextCell s.heap a = some v) :
    Meets (followNext a) s (fun w t => w = v ∧ t = s) E := by
  obtain ⟨n, hn, rfl⟩ := exists_node_of_links h
  rw [followNext, meets_bind, meets_node hn]
  exact (meets_pure _).mpr ⟨rfl, rfl⟩

namespace DoublyHolding

variable {s t : LinkedObject (DoublyLinkedListNodeType α)} {l pre post : Cells α} {a : ℕ} {x : α}

theorem empty : DoublyHolding (.empty (DoublyLinkedListNodeType α)) [] :=
  ⟨rfl, rfl, List.nodup_nil, rfl⟩

theorem last_eq (h : DoublyHolding s l) : s.last = lastPtr none l := by
  rw [h.back.head_eq, headPtr_reverse]

theorem node_eq (h : DoublyHolding s (pre ++ (a, x) :: post)) :
    s.heap a = some ⟨x, headPtr post none, lastPtr none pre⟩ := by
  obtain ⟨⟨y, n, b⟩, hn, he⟩ := exists_node_of_links h.next.link_eq
  obtain ⟨rfl, rfl⟩ := Prod.mk.inj he
  have hback := h.back
  rw [List.reverse_append, List.reverse_cons, List.append_assoc, List.singleton_append] at hback
  obtain ⟨m, hm, he⟩ := exists_node_of_links hback.link_eq
  obtain rfl := Option.some.inj (hn.symm.trans hm)
  obtain ⟨-, rfl⟩ := Prod.mk.inj he
  rw [headPtr_reverse] at hn
  exact hn

theorem front_eq (h : DoublyHolding s ((a, x) :: post)) :
    s.heap a = some ⟨x, headPtr post none, none⟩ := by
  have h' : DoublyHolding s ([] ++ (a, x) :: post) := h
  exact h'.node_eq

theorem insert (h : DoublyHolding s (pre ++ post)) (ha : s.heap a = none)
    (hta : t.heap a = some ⟨x, headPtr post none, lastPtr none pre⟩)
    (hpre : ∀ b n, lastPtr none pre = some b → s.heap b = some n →
      t.heap b = some { n with next := some a })
    (hpost : ∀ b n, headPtr post none = some b → s.heap b = some n →
      t.heap b = some { n with back := some a })
    (ht : ∀ c, c ≠ a → some c ≠ lastPtr none pre → some c ≠ headPtr post none →
      t.heap c = s.heap c)
    (hfirst : t.first = headPtr (pre ++ (a, x) :: post) none)
    (hlast : t.last = lastPtr none (pre ++ (a, x) :: post)) (hcount : t.count = s.count + 1) :
    DoublyHolding t (pre ++ (a, x) :: post) := by
  have hd := h.distinct
  have hback := h.back
  have hrev := hd.reverse
  rw [List.reverse_append] at hback hrev
  have hne := h.next.ne_fresh ha
  refine ⟨?_, ?_, hd.insert hne, ?_⟩
  · rw [hfirst]
    refine h.next.insert_between hd.left (links_eq hta) (fun b y r hb hr => ?_) (fun e he hel => ?_)
      hd.ne_lastPtr
    · obtain ⟨n, hn, hv⟩ := exists_node_of_links hr
      obtain ⟨rfl, -⟩ := Prod.mk.inj hv
      exact links_eq (hpre b n hb hn)
    · by_cases hc : some e.1 = headPtr post none
      · obtain ⟨r, hr⟩ := h.next.mem he
        obtain ⟨n, hn, hv⟩ := exists_node_of_links hr
        rw [links_eq hn, links_eq (hpost e.1 n hc.symm hn)]
        rfl
      · exact links_congr (ht _ (hne e he) hel hc)
  · have hlist : (pre ++ (a, x) :: post).reverse = post.reverse ++ (a, x) :: pre.reverse := by simp
    have hl : t.last = headPtr (post.reverse ++ (a, x) :: pre.reverse) none := by
      rw [hlast, ← hlist, headPtr_reverse]
    rw [hl, hlist]
    refine hback.insert_between hrev.left ?_ (fun b y r hb hr => ?_) (fun e he hel => ?_)
      hrev.ne_lastPtr
    · rw [headPtr_reverse]
      exact links_eq hta
    · rw [lastPtr_reverse] at hb
      obtain ⟨n, hn, hv⟩ := exists_node_of_links hr
      obtain ⟨rfl, -⟩ := Prod.mk.inj hv
      exact links_eq (hpost b n hb hn)
    · rw [lastPtr_reverse] at hel
      have he' : e ∈ pre ++ post := by
        rw [← List.mem_reverse, List.reverse_append]
        exact he
      by_cases hc : some e.1 = lastPtr none pre
      · obtain ⟨r, hr⟩ := h.next.mem he'
        obtain ⟨n, hn, hv⟩ := exists_node_of_links hr
        rw [links_eq hn, links_eq (hpre e.1 n hc.symm hn)]
        rfl
      · exact links_congr (ht _ (hne e he') hc hel)
  · rw [hcount, h.count]
    simp only [List.length_append, List.length_cons]
    push_cast
    ring

theorem remove (h : DoublyHolding s (pre ++ (a, x) :: post))
    (hpre : ∀ b n, lastPtr none pre = some b → s.heap b = some n →
      t.heap b = some { n with next := headPtr post none })
    (hpost : ∀ b n, headPtr post none = some b → s.heap b = some n →
      t.heap b = some { n with back := lastPtr none pre })
    (ht : ∀ c, c ≠ a → some c ≠ lastPtr none pre → some c ≠ headPtr post none →
      t.heap c = s.heap c)
    (hfirst : t.first = headPtr (pre ++ post) none) (hlast : t.last = lastPtr none (pre ++ post))
    (hcount : t.count = s.count - 1) : DoublyHolding t (pre ++ post) := by
  obtain ⟨hapre, hapost, hd⟩ := DistinctAddresses.ne h.distinct
  have hne : ∀ e ∈ pre ++ post, e.1 ≠ a := by
    rintro e he
    rcases List.mem_append.mp he with he | he
    · exact hapre e he
    · exact hapost e he
  have hmem : ∀ e ∈ pre ++ post, e ∈ pre ++ (a, x) :: post := by
    rintro e he
    rcases List.mem_append.mp he with he | he
    · exact List.mem_append_left _ he
    · exact List.mem_append_right _ (List.mem_cons_of_mem _ he)
  have hback := h.back
  have hrev := hd.reverse
  have hlist : (pre ++ (a, x) :: post).reverse = post.reverse ++ (a, x) :: pre.reverse := by simp
  rw [hlist] at hback
  rw [List.reverse_append] at hrev
  refine ⟨?_, ?_, hd, ?_⟩
  · rw [hfirst]
    refine h.next.remove_between hd.left (fun b y r hb hr => ?_) (fun e he hel => ?_) hd.ne_lastPtr
    · obtain ⟨n, hn, hv⟩ := exists_node_of_links hr
      obtain ⟨rfl, -⟩ := Prod.mk.inj hv
      exact links_eq (hpre b n hb hn)
    · by_cases hc : some e.1 = headPtr post none
      · obtain ⟨r, hr⟩ := h.next.mem (hmem e he)
        obtain ⟨n, hn, hv⟩ := exists_node_of_links hr
        rw [links_eq hn, links_eq (hpost e.1 n hc.symm hn)]
        rfl
      · exact links_congr (ht _ (hne e he) hel hc)
  · have hl : t.last = headPtr (post.reverse ++ pre.reverse) none := by
      rw [hlast, ← List.reverse_append, headPtr_reverse]
    rw [hl, List.reverse_append]
    refine hback.remove_between hrev.left (fun b y r hb hr => ?_) (fun e he hel => ?_)
      hrev.ne_lastPtr
    · rw [lastPtr_reverse] at hb
      rw [headPtr_reverse]
      obtain ⟨n, hn, hv⟩ := exists_node_of_links hr
      obtain ⟨rfl, -⟩ := Prod.mk.inj hv
      exact links_eq (hpost b n hb hn)
    · rw [lastPtr_reverse] at hel
      have he' : e ∈ pre ++ post := by
        rw [← List.mem_reverse, List.reverse_append]
        exact he
      by_cases hc : some e.1 = lastPtr none pre
      · obtain ⟨r, hr⟩ := h.next.mem (hmem e he')
        obtain ⟨n, hn, hv⟩ := exists_node_of_links hr
        rw [links_eq hn, links_eq (hpre e.1 n hc.symm hn)]
        rfl
      · exact links_congr (ht _ (hne e he') hc hel)
  · rw [hcount, h.count]
    simp only [List.length_append, List.length_cons]
    push_cast
    ring

theorem remove_front (h : DoublyHolding s ((a, x) :: post))
    (hpost : ∀ b n, headPtr post none = some b → s.heap b = some n →
      t.heap b = some { n with back := none })
    (ht : ∀ c, c ≠ a → some c ≠ headPtr post none → t.heap c = s.heap c)
    (hfirst : t.first = headPtr post none) (hlast : t.last = lastPtr none post)
    (hcount : t.count = s.count - 1) : DoublyHolding t post := by
  have h' : DoublyHolding s ([] ++ (a, x) :: post) := h
  exact h'.remove (fun b n hb => absurd hb.symm (Option.some_ne_none b)) hpost
    (fun c hca _ hc => ht c hca hc) hfirst hlast hcount

theorem first_none_iff (h : DoublyHolding s l) : s.first = none ↔ l = [] := by
  rw [h.next.head_eq]
  exact headPtr_eq_none_iff

variable {E : Fault → LinkedObject (DoublyLinkedListNodeType α) → Prop}

section Splices

variable {b c d : ℕ} {w y z : α}

theorem meets_insertFront (h : DoublyHolding s ((c, z) :: post)) (ha : s.heap a = none) :
    Meets (do
      assign (some c) ({ · with back := some a })
      assign (some a) ({ · with next := some c })
      setFirst (some a)
      addCount 1) (s.update a (some ⟨x, none, none⟩))
      (fun _ t => DoublyHolding t ((a, x) :: (c, z) :: post)) E := by
  have hc : s.heap c = some ⟨z, headPtr post none, none⟩ := h.front_eq
  have hca : c ≠ a := h.next.ne_fresh ha (c, z) List.mem_cons_self
  have hnew := (LinkedObject.update_heap_of_ne (s.update a (some ⟨x, none, none⟩))
    (some ⟨z, headPtr post none, some a⟩) hca.symm).trans (s.update_heap_self _ _)
  have h' : DoublyHolding s ([] ++ (c, z) :: post) := h
  rw [meets_bind, meets_assign ((s.update_heap_of_ne _ hca).trans hc), meets_bind,
    meets_assign hnew, meets_bind, meets_setFirst, meets_addCount]
  refine h'.insert ha (LinkedObject.update_heap_self _ _ _) (fun b n hb => ?_)
    (fun b n hb hn => ?_) (fun d hda _ hd => ?_) rfl ?_ rfl
  · cases hb
  · obtain rfl := Option.some.inj hb
    obtain rfl := Option.some.inj (hc.symm.trans hn)
    rw [LinkedObject.update_heap_of_ne _ _ hca, LinkedObject.update_heap_self]
  · have hdc : d ≠ c := fun hdc => hd (congrArg some hdc)
    rw [LinkedObject.update_heap_of_ne _ _ hda, LinkedObject.update_heap_of_ne _ _ hdc,
      LinkedObject.update_heap_of_ne _ _ hda]
  · exact h.last_eq

theorem node_behind (h : DoublyHolding s (pre ++ [(b, y)] ++ post)) :
    s.heap b = some ⟨y, headPtr post none, lastPtr none pre⟩ := by
  rw [List.append_assoc, List.singleton_append] at h
  exact h.node_eq

theorem first_behind (h : DoublyHolding s (pre ++ [(b, y)] ++ post)) (post' : Cells α) :
    s.first = headPtr (pre ++ [(b, y)] ++ post') none := by
  rw [h.next.head_eq]
  cases pre <;> rfl

theorem meets_insertLast (h : DoublyHolding s (pre ++ [(b, y)])) (ha : s.heap a = none) :
    Meets (do
      assign (some b) ({ · with next := some a })
      assign (some a) ({ · with back := some b })
      setLast (some a)
      addCount 1) (s.update a (some ⟨x, none, none⟩))
      (fun _ t => DoublyHolding t (pre ++ [(b, y)] ++ [(a, x)])) E := by
  have h' : DoublyHolding s (pre ++ [(b, y)] ++ []) := by rwa [List.append_nil]
  have hb : s.heap b = some ⟨y, none, lastPtr none pre⟩ := h'.node_behind
  have hba : b ≠ a := h.next.ne_fresh ha (b, y) (by simp)
  have hlive := (s.update_heap_of_ne (some ⟨x, none, none⟩) hba).trans hb
  have hnew := (LinkedObject.update_heap_of_ne (s.update a (some ⟨x, none, none⟩))
    (some ⟨y, some a, lastPtr none pre⟩) hba.symm).trans (s.update_heap_self _ _)
  rw [meets_bind, meets_assign hlive, meets_bind, meets_assign hnew, meets_bind, meets_setLast,
    meets_addCount]
  refine h'.insert ha ?_ (fun d n hd hn => ?_) (fun d n hd => ?_) (fun d hda hdb _ => ?_)
    (h'.first_behind _) ?_ rfl
  · rw [lastPtr_append]
    exact LinkedObject.update_heap_self _ _ _
  · rw [lastPtr_append] at hd
    obtain rfl := Option.some.inj hd
    obtain rfl := Option.some.inj (hb.symm.trans hn)
    rw [LinkedObject.update_heap_of_ne _ _ hba, LinkedObject.update_heap_self]
  · cases hd
  · rw [lastPtr_append] at hdb
    have hdb' : d ≠ b := fun h => hdb (congrArg some h)
    rw [LinkedObject.update_heap_of_ne _ _ hda, LinkedObject.update_heap_of_ne _ _ hdb',
      LinkedObject.update_heap_of_ne _ _ hda]
  · rw [lastPtr_append_cons]
    rfl

theorem meets_insertBetween (h : DoublyHolding s (pre ++ [(b, y)] ++ (c, z) :: post))
    (ha : s.heap a = none) :
    Meets (do
      assign (some b) ({ · with next := some a })
      assign (some a) ({ · with back := some b })
      assign (some a) ({ · with next := some c })
      assign (some c) ({ · with back := some a })
      addCount 1) (s.update a (some ⟨x, none, none⟩))
      (fun _ t => DoublyHolding t (pre ++ [(b, y)] ++ (a, x) :: (c, z) :: post)) E := by
  have hne := h.next.ne_fresh ha
  have hb : s.heap b = some ⟨y, some c, lastPtr none pre⟩ := h.node_behind
  have hc : s.heap c = some ⟨z, headPtr post none, some b⟩ := by
    have hc := h.node_eq
    rwa [lastPtr_append] at hc
  have hba : b ≠ a := hne (b, y) (by simp)
  have hca : c ≠ a := hne (c, z) (by simp)
  have hcb : c ≠ b := by
    have hcb := h.distinct.ne_lastPtr (c, z) List.mem_cons_self
    rw [lastPtr_append] at hcb
    exact fun h => hcb (congrArg some h)
  have hlive := (s.update_heap_of_ne (some ⟨x, none, none⟩) hba).trans hb
  have hnew := (LinkedObject.update_heap_of_ne (s.update a (some ⟨x, none, none⟩))
    (some ⟨y, some a, lastPtr none pre⟩) hba.symm).trans (s.update_heap_self _ _)
  have hnext : ((((s.update a (some ⟨x, none, none⟩)).update b
      (some ⟨y, some a, lastPtr none pre⟩)).update a (some ⟨x, none, some b⟩)).update a
        (some ⟨x, some c, some b⟩)).heap c = some ⟨z, headPtr post none, some b⟩ := by
    rw [LinkedObject.update_heap_of_ne _ _ hca, LinkedObject.update_heap_of_ne _ _ hca,
      LinkedObject.update_heap_of_ne _ _ hcb, LinkedObject.update_heap_of_ne _ _ hca, hc]
  rw [meets_bind, meets_assign hlive, meets_bind, meets_assign hnew, meets_bind,
    meets_assign (LinkedObject.update_heap_self _ _ _), meets_bind, meets_assign hnext, meets_addCount]
  refine h.insert ha ?_ (fun d n hd hn => ?_) (fun d n hd hn => ?_) (fun d hda hdb hdc => ?_)
    (h.first_behind _) ?_ rfl
  · rw [lastPtr_append, LinkedObject.update_heap_of_ne _ _ hca.symm, LinkedObject.update_heap_self]
    rfl
  · rw [lastPtr_append] at hd
    obtain rfl := Option.some.inj hd
    obtain rfl := Option.some.inj (hb.symm.trans hn)
    rw [LinkedObject.update_heap_of_ne _ _ hcb.symm, LinkedObject.update_heap_of_ne _ _ hba,
      LinkedObject.update_heap_of_ne _ _ hba, LinkedObject.update_heap_self]
  · obtain rfl := Option.some.inj hd
    obtain rfl := Option.some.inj (hc.symm.trans hn)
    rw [LinkedObject.update_heap_self]
  · rw [lastPtr_append] at hdb
    have hdb' : d ≠ b := fun h => hdb (congrArg some h)
    have hdc' : d ≠ c := fun h => hdc (congrArg some h)
    rw [LinkedObject.update_heap_of_ne _ _ hdc', LinkedObject.update_heap_of_ne _ _ hda,
      LinkedObject.update_heap_of_ne _ _ hda, LinkedObject.update_heap_of_ne _ _ hdb',
      LinkedObject.update_heap_of_ne _ _ hda]
  · have hl := h.last_eq
    rw [lastPtr_append_cons] at hl ⊢
    exact hl

theorem meets_deleteFirst (h : DoublyHolding s ((b, y) :: post)) :
    Meets (do
      setFirst (headPtr post none)
      if headPtr post none ≠ none then assign (headPtr post none) ({ · with back := none })
      else setLast none
      addCount (-1)
      delete (some b)) s (fun _ t => DoublyHolding t post) E := by
  have hn : s.heap b = some ⟨y, headPtr post none, none⟩ := h.front_eq
  rw [meets_bind, meets_setFirst]
  cases post with
  | nil =>
    refine meets_ite (fun hc => absurd rfl hc) fun _ => ?_
    rw [meets_bind, meets_setLast, meets_bind, meets_addCount]
    refine (meets_delete (by exact hn)).mpr (h.remove_front (fun d n hd => ?_)
      (fun d hd _ => s.update_heap_of_ne none hd) rfl rfl rfl)
    cases hd
  | cons e post =>
    obtain ⟨c, z⟩ := e
    have h' : DoublyHolding s ([(b, y)] ++ (c, z) :: post) := h
    have hc : s.heap c = some ⟨z, headPtr post none, some b⟩ := h'.node_eq
    have hcb : c ≠ b := (DistinctAddresses.ne_front h.distinct).2.1 (c, z) List.mem_cons_self
    have hlive := (s.update_heap_of_ne (some ⟨z, headPtr post none, none⟩) hcb.symm).trans hn
    refine meets_ite (fun _ => ?_) fun hc => absurd (Option.some_ne_none c) hc
    rw [meets_bind]
    refine (meets_assign (by exact hc)).mpr ?_
    rw [meets_bind, meets_addCount]
    refine (meets_delete (by exact hlive)).mpr (h.remove_front (fun d n hd hm => ?_)
      (fun d hdb hd => ?_) rfl ?_ rfl)
    · obtain rfl := Option.some.inj hd
      obtain rfl := Option.some.inj (hc.symm.trans hm)
      exact (LinkedObject.update_heap_of_ne _ _ hcb).trans (s.update_heap_self _ _)
    · have hdc : d ≠ c := fun h => hd (congrArg some h)
      exact (LinkedObject.update_heap_of_ne _ _ hdb).trans (s.update_heap_of_ne _ hdc)
    · exact h.last_eq

theorem meets_deleteLast (h : DoublyHolding s (pre ++ [(d, w)] ++ [(a, z)])) :
    Meets (do
      assign (some d) ({ · with next := none })
      setLast (some d)
      addCount (-1)
      delete (some a)) s (fun _ t => DoublyHolding t (pre ++ [(d, w)])) E := by
  have hnd : s.heap d = some ⟨w, some a, lastPtr none pre⟩ := h.node_behind
  have hna := h.node_eq
  have had : a ≠ d := by
    have had := h.distinct.ne_lastPtr (a, z) List.mem_cons_self
    rw [lastPtr_append] at had
    exact fun h => had (congrArg some h)
  rw [lastPtr_append] at hna
  have hlive := (s.update_heap_of_ne (some ⟨w, none, lastPtr none pre⟩) had).trans hna
  rw [meets_bind, meets_assign hnd, meets_bind, meets_setLast, meets_bind, meets_addCount]
  rw [← List.append_nil (pre ++ [(d, w)])]
  refine (meets_delete (by exact hlive)).mpr (h.remove (fun c n hc hn => ?_)
    (fun c n hc => ?_) (fun c hca hcd _ => ?_) (h.first_behind _) ?_ rfl)
  · rw [lastPtr_append] at hc
    obtain rfl := Option.some.inj hc
    obtain rfl := Option.some.inj (hnd.symm.trans hn)
    exact (LinkedObject.update_heap_of_ne _ _ had.symm).trans (s.update_heap_self _ _)
  · cases hc
  · rw [lastPtr_append] at hcd
    have hcd' : c ≠ d := fun h => hcd (congrArg some h)
    exact (LinkedObject.update_heap_of_ne _ _ hca).trans (s.update_heap_of_ne _ hcd')
  · rw [List.append_nil, lastPtr_append]
    rfl

theorem meets_deleteBetween (h : DoublyHolding s (pre ++ [(d, w)] ++ (a, z) :: (c, y) :: post)) :
    Meets (do
      assign (some d) ({ · with next := some c })
      assign (some c) ({ · with back := some d })
      addCount (-1)
      delete (some a)) s (fun _ t => DoublyHolding t (pre ++ [(d, w)] ++ (c, y) :: post)) E := by
  have hnd : s.heap d = some ⟨w, some a, lastPtr none pre⟩ := h.node_behind
  have hna := h.node_eq
  have hnc : s.heap c = some ⟨y, headPtr post none, some a⟩ := by
    have hlist : pre ++ [(d, w)] ++ (a, z) :: (c, y) :: post =
        (pre ++ [(d, w)] ++ [(a, z)]) ++ (c, y) :: post := by simp
    have hnc := (hlist ▸ h).node_eq
    rwa [lastPtr_append] at hnc
  obtain ⟨-, hpost, -⟩ := DistinctAddresses.ne h.distinct
  have hne := h.distinct.ne_lastPtr
  rw [lastPtr_append] at hna hne
  have had : a ≠ d := fun h => hne (a, z) List.mem_cons_self (congrArg some h)
  have hcd : c ≠ d := fun h => hne (c, y) (by simp) (congrArg some h)
  have hca : c ≠ a := hpost (c, y) List.mem_cons_self
  have hnext := (s.update_heap_of_ne (some ⟨w, some c, lastPtr none pre⟩) hcd).trans hnc
  have hlive := ((s.update d (some ⟨w, some c, lastPtr none pre⟩)).update_heap_of_ne
    (some ⟨y, headPtr post none, some d⟩) hca.symm).trans ((s.update_heap_of_ne _ had).trans hna)
  rw [meets_bind, meets_assign hnd, meets_bind]
  refine (meets_assign (by exact hnext)).mpr ?_
  rw [meets_bind, meets_addCount]
  refine (meets_delete (by exact hlive)).mpr (h.remove (fun b n hb hn => ?_)
    (fun b n hb hn => ?_) (fun b hba hbd hbc => ?_) (h.first_behind _) ?_ rfl)
  · rw [lastPtr_append] at hb
    obtain rfl := Option.some.inj hb
    obtain rfl := Option.some.inj (hnd.symm.trans hn)
    exact (LinkedObject.update_heap_of_ne _ _ had.symm).trans
      ((LinkedObject.update_heap_of_ne _ _ hcd.symm).trans (s.update_heap_self _ _))
  · obtain rfl := Option.some.inj hb
    obtain rfl := Option.some.inj (hnc.symm.trans hn)
    rw [lastPtr_append]
    exact (LinkedObject.update_heap_of_ne _ _ hca).trans (LinkedObject.update_heap_self _ _ _)
  · rw [lastPtr_append] at hbd
    have hbd' : b ≠ d := fun h => hbd (congrArg some h)
    have hbc' : b ≠ c := fun h => hbc (congrArg some h)
    exact (LinkedObject.update_heap_of_ne _ _ hba).trans
      ((LinkedObject.update_heap_of_ne _ _ hbc').trans (s.update_heap_of_ne _ hbd'))
  · have hl := h.last_eq
    rw [lastPtr_append_cons] at hl ⊢
    exact hl

end Splices

variable [LinearOrder α] {fuel : ℕ}

theorem meets_search (h : DoublyHolding s l) (hf : l.length ≤ fuel) :
    Meets (DoublyLinkedList.search fuel x) s
      (fun v t => (v = true ↔ x ∈ l.map Prod.snd) ∧ t = s) E := by
  rw [DoublyLinkedList.search, meets_bind, meets_get]
  refine (meets_seek (fun _ _ _ h' => meets_followNext h') l fuel none _ h.next hf).bind
    fun v t hv => ?_
  obtain ⟨rfl, rfl⟩ := hv
  exact (meets_pure _).mpr ⟨isSome_stop_iff l x, rfl⟩

theorem meets_insert (h : DoublyHolding s l) (ha : s.heap a = none) (hf : l.length ≤ fuel) :
    Meets (DoublyLinkedList.insert fuel x a) s (fun _ t => ∃ l', DoublyHolding t l' ∧
      l'.map Prod.snd = (l.map Prod.snd).orderedInsert (· ≤ ·) x ∧ l'.Perm ((a, x) :: l)) E := by
  rw [DoublyLinkedList.insert, meets_bind, meets_get, meets_bind, meets_create]
  have hne := h.next.ne_fresh ha
  refine meets_ite (fun hfirst => ?_) fun hfirst => ?_
  · obtain rfl := h.first_none_iff.mp hfirst
    rw [meets_bind, meets_setFirst, meets_bind, meets_setLast, meets_addCount]
    have hta := s.update_heap_self a (some ⟨x, none, none⟩)
    exact ⟨[(a, x)], ⟨⟨rfl, none, links_eq hta, rfl⟩, ⟨rfl, none, links_eq hta, rfl⟩,
      List.nodup_singleton a, congrArg (· + 1) h.count⟩, rfl, .refl _⟩
  have hchain : Segment (links DoublyLinkedListNodeType.nextCell
      (s.update a (some ⟨x, none, none⟩)).heap) s.first l none :=
    h.next.congr fun e he => links_congr (s.update_heap_of_ne _ (hne e he))
  refine (meets_seek (fun _ _ _ h' => meets_followNext h') l fuel none _ hchain hf).bind
    fun v t hv => ?_
  obtain ⟨rfl, rfl⟩ := hv
  have hitems := orderedInsert_split l a x
  have hsplit : (l.takeWhile fun e => !decide (x ≤ e.2)) ++
      (l.dropWhile fun e => !decide (x ≤ e.2)) = l := List.takeWhile_append_dropWhile
  dsimp only
  generalize (l.map Prod.snd).orderedInsert (· ≤ ·) x = items at hitems ⊢
  generalize (l.takeWhile fun e => !decide (x ≤ e.2)) = pre at hitems hsplit ⊢
  generalize (l.dropWhile fun e => !decide (x ≤ e.2)) = post at hitems hsplit ⊢
  subst hsplit
  have hperm : (pre ++ (a, x) :: post).Perm ((a, x) :: (pre ++ post)) := List.perm_middle
  rcases List.eq_nil_or_concat pre with rfl | ⟨pre, ⟨b, y⟩, rfl⟩
  · have hhead : s.first = headPtr post none := h.next.head_eq
    rw [if_pos hhead.symm]
    cases post with
    | nil => exact absurd hhead hfirst
    | cons e post =>
      rw [hhead]
      exact (h.meets_insertFront ha).imp fun _ t ht => ⟨_, ht, hitems, hperm⟩
  · rw [List.concat_eq_append] at *
    have hcur : headPtr post none ≠ s.first := by
      rw [h.next.head_eq]
      exact DistinctAddresses.headPtr_ne h.distinct (by simp)
    rw [if_neg hcur, lastPtr_append]
    cases post with
    | nil =>
      rw [headPtr, if_neg (not_not.mpr rfl)]
      rw [List.append_nil] at h
      exact (h.meets_insertLast ha).imp fun _ t ht => ⟨_, ht, hitems, hperm⟩
    | cons e post =>
      rw [headPtr, if_pos (Option.some_ne_none _)]
      exact (h.meets_insertBetween ha).imp fun _ t ht => ⟨_, ht, hitems, hperm⟩

theorem meets_deleteNode (h : DoublyHolding s l) (hs : (l.map Prod.snd).Pairwise (· ≤ ·))
    (hf : l.length ≤ fuel) :
    Meets (DoublyLinkedList.deleteNode fuel x) s (fun _ t => ∃ l', DoublyHolding t l' ∧
      l'.map Prod.snd = (l.map Prod.snd).erase x) E := by
  rw [DoublyLinkedList.deleteNode, meets_bind, meets_get]
  refine meets_ite (fun hfirst => ?_) fun hfirst => ?_
  · obtain rfl := h.first_none_iff.mp hfirst
    rw [meets_print]
    exact ⟨[], ⟨h.next, h.back, h.distinct, h.count⟩, rfl⟩
  cases l with
  | nil => exact absurd h.next hfirst
  | cons e l =>
    obtain ⟨b, y⟩ := e
    have hb : s.first = some b := h.next.head_eq
    have hn : s.heap b = some ⟨y, headPtr l none, none⟩ := h.front_eq
    rw [hb, meets_bind, meets_node hn]
    refine meets_ite (fun hyx => ?_) fun hyx => ?_
    · obtain rfl : y = x := hyx
      exact h.meets_deleteFirst.imp fun _ t ht => ⟨l, ht, by simp⟩
    · -- the nodes are searched from the first one
      refine (meets_seek (fun _ _ _ h' => meets_followNext h') _ fuel none _ (hb ▸ h.next) hf).bind
        fun v t hv => ?_
      obtain ⟨ht, rfl⟩ := hv
      rw [ht]
      generalize hl : (b, y) :: l = cells at *
      obtain ⟨hw, hd⟩ := exists_stop (decide <| x ≤ ·) cells
      have hsplit : (cells.takeWhile fun e => !decide (x ≤ e.2)) ++
          (cells.dropWhile fun e => !decide (x ≤ e.2)) = cells := List.takeWhile_append_dropWhile
      dsimp only
      generalize (cells.takeWhile fun e => !decide (x ≤ e.2)) = pre at hw hsplit ⊢
      have hw' : ∀ e ∈ pre, ¬ x ≤ e.2 := fun e he => of_decide_eq_false (hw e he)
      have hne : ∀ e ∈ pre, e.2 ≠ x := fun e he hx => hw' e he hx.ge
      rcases hd with hd | ⟨a, z, post, hd, hz⟩
      · -- every item is below
        rw [hd, List.append_nil] at hsplit
        subst hsplit
        rw [hd, headPtr, if_pos rfl, meets_print]
        exact ⟨pre, ⟨h.next, h.back, h.distinct, h.count⟩,
          (List.erase_of_not_mem (not_mem_items hne)).symm⟩
      rw [hd] at hsplit
      have hna := (hsplit ▸ h).node_eq
      rw [hd, headPtr, if_neg (Option.some_ne_none a), meets_bind, meets_node hna]
      refine meets_ite (fun hzx => ?_) fun hzx => ?_
      · obtain rfl : z = x := hzx
        have herase : (pre ++ post).map Prod.snd = (cells.map Prod.snd).erase z := by
          rw [← hsplit, erase_split hne]
        generalize (cells.map Prod.snd).erase z = items at herase ⊢
        subst hsplit
        rcases List.eq_nil_or_concat pre with rfl | ⟨pre, ⟨d, w⟩, rfl⟩
        · exact absurd (congrArg Prod.snd (List.cons.inj hl).1) hyx
        rw [List.concat_eq_append] at *
        have hlast : s.last = lastPtr (some a) post := by rw [h.last_eq, lastPtr_append_cons]
        rw [lastPtr_append]
        cases post with
        | nil =>
          have hback : some a = s.last := hlast.symm
          dsimp only
          rw [headPtr, if_neg (not_not.mpr rfl), if_pos hback]
          rw [List.append_nil] at herase
          exact h.meets_deleteLast.imp fun _ t ht => ⟨_, ht, herase⟩
        | cons e post =>
          have hback : some a ≠ s.last := fun hc =>
            lastPtr_ne _ (List.cons_ne_nil _ _) (DistinctAddresses.ne h.distinct).2.1 (hlast ▸ hc).symm
          dsimp only
          rw [headPtr, if_pos (Option.some_ne_none _), if_neg hback]
          exact h.meets_deleteBetween.imp fun _ t ht => ⟨_, ht, herase⟩
      · rw [meets_print]
        exact ⟨cells, ⟨h.next, h.back, h.distinct, h.count⟩, (List.erase_of_not_mem
          (not_mem_items (ne_of_stop hs hsplit hw' (of_decide_eq_true hz) hzx))).symm⟩

end DoublyHolding

end VcmallocBench
