import VcmallocBench.DataStructures.LinkedList

/-! # The ordered list

Items are inserted in front of the first one that is not below the new one, and a
search for the item to be deleted stops at the same place. A list that is sorted
stays sorted.
-/

namespace VcmallocBench

variable {α : Type} [LinearOrder α]

namespace OrderedLinkedList

def search (fuel : ℕ) (searchItem : α) : LinkedOp α Bool := searchNodes fuel searchItem

/-- Both forms of `insert`. The loop visits at most `fuel` nodes. -/
def insert (fuel : ℕ) (newItem : α) (newNode : ℕ) : LinkedOp α Unit := do
  let s ← get
  create newNode { info := newItem, link := none }
  if s.first = none then do
    setFirst (some newNode)
    setLast (some newNode)
    addCount 1
  else do
    let (trailCurrent, current) ←
      seek followLink .diverge (decide <| newItem ≤ ·) fuel none s.first
    if current = s.first then do
      assign (some newNode) ({ · with link := s.first })
      setFirst (some newNode)
      addCount 1
    else do
      assign trailCurrent ({ · with link := some newNode })
      assign (some newNode) ({ · with link := current })
      if current = none then setLast (some newNode) else pure ()
      addCount 1

/-- Deletes the first node with the item. The loop visits at most `fuel` nodes. -/
def deleteNode (fuel : ℕ) (deleteItem : α) : LinkedOp α Unit := do
  let s ← get
  if s.first = none then print "Cannot delete from an empty list.\n"
  else do
    let (trailCurrent, current) ←
      seek followLink .diverge (decide <| deleteItem ≤ ·) fuel none s.first
    if current = none then print "The item to be deleted is not in the list.\n"
    else do
      let found ← node current
      if found.info = deleteItem then do
        if s.first = current then do
          setFirst found.link
          if found.link = none then setLast none else pure ()
          delete current
        else do
          assign trailCurrent ({ · with link := found.link })
          if current = s.last then setLast trailCurrent else pure ()
          delete current
        addCount (-1)
      else print "The item to be deleted is not in the list.\n"

theorem creates_insert {fuel : ℕ} {x : α} {a : ℕ} : Creates a (insert fuel x a) := by
  refine Leads.get.bind fun s => creates_create.bind fun _ => .ite ?_ ?_
  · exact creates_setFirst.bind fun _ => creates_setLast.bind fun _ => creates_addCount
  refine (leads_seek (fun _ => creates_followLink) _ _ _).bind fun v => .ite ?_ ?_
  · exact creates_assign.bind fun _ => creates_setFirst.bind fun _ => creates_addCount
  · refine creates_assign.bind fun _ => creates_assign.bind fun _ => .ite ?_ ?_
    · exact creates_setLast.bind fun _ => creates_addCount
    · exact creates_addCount

end OrderedLinkedList

namespace Holding

variable {s : LinkedObject (LinkedListNodeType α)} {l : Cells α} {a : ℕ} {x : α} {fuel : ℕ}
  {E : Fault → LinkedObject (LinkedListNodeType α) → Prop}

theorem meets_insert (h : Holding s l) (ha : s.heap a = none) (hf : l.length ≤ fuel) :
    Meets (OrderedLinkedList.insert fuel x a) s (fun _ t => ∃ l', Holding t l' ∧
      l'.map Prod.snd = (l.map Prod.snd).orderedInsert (· ≤ ·) x ∧ l'.Perm ((a, x) :: l)) E := by
  rw [OrderedLinkedList.insert, meets_bind, meets_get, meets_bind, meets_create]
  refine meets_ite (fun hfirst => ?_) fun hfirst => ?_
  · obtain rfl := h.first_none_iff.mp hfirst
    rw [meets_bind, meets_setFirst, meets_bind, meets_setLast, meets_addCount]
    refine ⟨[(a, x)], h.cons ha ?_ rfl (if_pos h.last).symm rfl, rfl, .refl _⟩
    rw [hfirst]
  have hne := h.chain.ne_fresh ha
  have hchain : Segment (links LinkedListNodeType.cell (s.update a (some ⟨x, none⟩)).heap) s.first l
      none := h.chain.congr fun e he => links_congr (s.update_heap_of_ne _ (hne e he))
  refine (meets_seek (fun _ _ _ h' => meets_followLink h') l fuel none _ hchain hf).bind
    fun v t hv => ?_
  obtain ⟨rfl, rfl⟩ := hv
  have hitems := orderedInsert_split l a x
  have hsplit : (l.takeWhile fun e => !decide (x ≤ e.2)) ++
      (l.dropWhile fun e => !decide (x ≤ e.2)) = l := List.takeWhile_append_dropWhile
  dsimp only
  generalize (l.map Prod.snd).orderedInsert (· ≤ ·) x = items at hitems ⊢
  generalize (l.takeWhile fun e => !decide (x ≤ e.2)) = pre at hitems hsplit ⊢
  generalize (l.dropWhile fun e => !decide (x ≤ e.2)) = post at hitems hsplit ⊢
  subst hsplit
  have hperm : (pre ++ (a, x) :: post).Perm ((a, x) :: (pre ++ post)) := List.perm_middle
  rcases List.eq_nil_or_concat pre with rfl | ⟨pre, ⟨b, y⟩, rfl⟩
  · -- in front of the first node
    rw [List.nil_append] at h hitems
    rw [if_pos h.chain.head_eq.symm, meets_bind, meets_assign (s.update_heap_self _ _), meets_bind,
      meets_setFirst, meets_addCount]
    refine ⟨(a, x) :: post, h.cons ha ?_ rfl ?_ rfl, hitems, hperm⟩
    · rw [LinkedObject.update_idem]
    · exact (if_neg fun hl => hfirst (h.first_none_iff.mpr (h.last_none_iff.mp hl))).symm
  · -- behind a node
    rw [List.concat_eq_append, List.append_assoc, List.singleton_append] at *
    have hb := h.node_eq
    have hba : b ≠ a := hne (b, y) (List.mem_append_right _ List.mem_cons_self)
    have hcur : headPtr post none ≠ s.first := by
      have hlist : pre ++ (b, y) :: post = (pre ++ [(b, y)]) ++ post := by simp
      rw [h.chain.head_eq, hlist]
      exact DistinctAddresses.headPtr_ne (hlist ▸ h.distinct) (by simp)
    have hlive := ((s.update_heap_of_ne (some ⟨x, none⟩) hba).trans hb)
    have hnew := (LinkedObject.update_heap_of_ne (s.update a (some ⟨x, none⟩))
      (some ⟨y, some a⟩) hba.symm).trans (s.update_heap_self _ _)
    rw [if_neg hcur, lastPtr_append, meets_bind, meets_assign hlive, meets_bind, meets_assign hnew]
    have hta := ((s.update a (some ⟨x, none⟩)).update b (some ⟨y, some a⟩)).update_heap_self a
      (some ⟨x, headPtr post none⟩)
    have htb := (((s.update a (some ⟨x, none⟩)).update b (some ⟨y, some a⟩)).update_heap_of_ne
      (some ⟨x, headPtr post none⟩) hba).trans (LinkedObject.update_heap_self _ _ _)
    have ht : ∀ c, c ≠ a → c ≠ b → (((s.update a (some ⟨x, none⟩)).update b
        (some ⟨y, some a⟩)).update a (some ⟨x, headPtr post none⟩)).heap c = s.heap c := by
      intro c hca hcb
      rw [LinkedObject.update_heap_of_ne _ _ hca, LinkedObject.update_heap_of_ne _ _ hcb,
        LinkedObject.update_heap_of_ne _ _ hca]
    refine meets_ite (fun hend => ?_) fun hend => ?_
    · obtain rfl := headPtr_eq_none_iff.mp hend
      rw [meets_bind, meets_setLast, meets_addCount]
      exact ⟨_, h.insert ha hta htb ht rfl rfl rfl, hitems, by simpa using hperm⟩
    · have hpost : post ≠ [] := fun hp => hend (headPtr_eq_none_iff.mpr hp)
      rw [meets_addCount]
      exact ⟨_, h.insert ha hta htb ht rfl (h.last_eq.trans (lastPtr_of_ne_nil _ _ hpost)) rfl, hitems, by simpa using hperm⟩

theorem meets_deleteSorted (h : Holding s l) (hs : (l.map Prod.snd).Pairwise (· ≤ ·))
    (hf : l.length ≤ fuel) :
    Meets (OrderedLinkedList.deleteNode fuel x) s (fun _ t => ∃ l', Holding t l' ∧
      l'.map Prod.snd = (l.map Prod.snd).erase x) E := by
  rw [OrderedLinkedList.deleteNode, meets_bind, meets_get]
  refine meets_ite (fun hfirst => ?_) fun hfirst => ?_
  · obtain rfl := h.first_none_iff.mp hfirst
    rw [meets_print]
    exact ⟨[], ⟨h.chain, h.distinct, h.last, h.count⟩, rfl⟩
  refine (meets_seek (fun _ _ _ h' => meets_followLink h') l fuel none _ h.chain hf).bind
    fun v t hv => ?_
  obtain ⟨ht, rfl⟩ := hv
  rw [ht]
  obtain ⟨hw, hd⟩ := exists_stop (decide <| x ≤ ·) l
  have hsplit : (l.takeWhile fun e => !decide (x ≤ e.2)) ++
      (l.dropWhile fun e => !decide (x ≤ e.2)) = l := List.takeWhile_append_dropWhile
  dsimp only
  generalize (l.takeWhile fun e => !decide (x ≤ e.2)) = pre at hw hsplit ⊢
  have hw' : ∀ e ∈ pre, ¬ x ≤ e.2 := fun e he => of_decide_eq_false (hw e he)
  have hne : ∀ e ∈ pre, e.2 ≠ x := fun e he hx => hw' e he hx.ge
  rcases hd with hd | ⟨a, z, post, hd, hz⟩
  · -- every item is below
    rw [hd, List.append_nil] at hsplit
    subst hsplit
    rw [hd, headPtr, if_pos rfl, meets_print]
    exact ⟨pre, ⟨h.chain, h.distinct, h.last, h.count⟩,
      (List.erase_of_not_mem (not_mem_items hne)).symm⟩
  rw [hd] at hsplit
  rw [hd, headPtr, if_neg (Option.some_ne_none a), meets_bind, meets_node (hsplit ▸ h).node_eq]
  refine meets_ite (fun hzx => ?_) fun hzx => ?_
  · obtain rfl : z = x := hzx
    have herase : (pre ++ post).map Prod.snd = (l.map Prod.snd).erase z := by
      rw [← hsplit, erase_split hne]
    generalize (l.map Prod.snd).erase z = items at herase ⊢
    subst hsplit
    rcases List.eq_nil_or_concat pre with rfl | ⟨pre, ⟨b, y⟩, rfl⟩
    · -- the first node
      have hgone : ∀ c, c ≠ a → (s.update a none).heap c = s.heap c := fun c => s.update_heap_of_ne none
      have hn := h.node_eq
      have hend := h.last_eq
      rw [List.nil_append] at h
      rw [if_pos h.chain.1, meets_bind, meets_setFirst]
      refine meets_ite (fun hnone => ?_) fun hnone => ?_
      · obtain rfl := headPtr_eq_none_iff.mp hnone
        rw [meets_bind, meets_setLast, meets_bind]
        refine (meets_delete (by exact hn)).mpr ?_
        rw [meets_addCount]
        exact ⟨[], h.tail hgone rfl rfl rfl, herase⟩
      · rw [meets_bind]
        refine (meets_delete (by exact hn)).mpr ?_
        have hpost : post ≠ [] := fun hp => hnone (headPtr_eq_none_iff.mpr hp)
        rw [meets_addCount]
        exact ⟨post, h.tail hgone rfl (hend.trans (lastPtr_of_ne_nil _ _ hpost)) rfl, herase⟩
    · -- a node behind another one
      rw [List.concat_eq_append] at *
      have hlast := h.last_eq_iff
      have hend := h.last_eq
      have hn := h.node_eq
      rw [List.append_assoc, List.singleton_append] at h herase
      have hb := h.node_eq
      have hab : a ≠ b := (DistinctAddresses.ne h.distinct).2.1 (a, z) List.mem_cons_self
      have hfirst : s.first ≠ some a := by
        have hlist : pre ++ (b, y) :: (a, z) :: post = (pre ++ [(b, y)]) ++ (a, z) :: post := by simp
        rw [h.chain.head_eq, hlist]
        exact (DistinctAddresses.headPtr_ne (hlist ▸ h.distinct) (by simp)).symm
      have hlive := (s.update_heap_of_ne (some ⟨y, headPtr post none⟩) hab).trans hn
      have hgone : ∀ c, c ≠ a → c ≠ b →
          ((s.update b (some ⟨y, headPtr post none⟩)).update a none).heap c = s.heap c :=
        fun c hca hcb => (LinkedObject.update_heap_of_ne _ _ hca).trans (s.update_heap_of_ne _ hcb)
      have htb : ((s.update b (some ⟨y, headPtr post none⟩)).update a none).heap b =
          some ⟨y, headPtr post none⟩ :=
        (LinkedObject.update_heap_of_ne _ _ hab.symm).trans (s.update_heap_self _ _)
      rw [if_neg hfirst, lastPtr_append, meets_bind, meets_assign hb]
      refine meets_ite (fun hc => ?_) fun hc => ?_
      · obtain rfl := hlast.mp hc.symm
        rw [meets_bind, meets_setLast, meets_bind]
        refine (meets_delete (by exact hlive)).mpr ?_
        rw [meets_addCount]
        exact ⟨_, h.remove htb hgone rfl rfl rfl, herase⟩
      · have hpost : post ≠ [] := fun hp => hc (hlast.mpr hp).symm
        rw [meets_bind]
        refine (meets_delete (by exact hlive)).mpr ?_
        rw [meets_addCount]
        exact ⟨_, h.remove htb hgone rfl (hend.trans (lastPtr_of_ne_nil _ _ hpost)) rfl, herase⟩
  · rw [meets_print]
    exact ⟨l, ⟨h.chain, h.distinct, h.last, h.count⟩, (List.erase_of_not_mem
      (not_mem_items (ne_of_stop hs hsplit hw' (of_decide_eq_true hz) hzx))).symm⟩

end Holding

end VcmallocBench
