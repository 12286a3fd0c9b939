import VcmallocBench.DataStructures.BinaryTree

/-! # The binary search tree

Searching goes down from the root and ends at the node with the item or at the
pointer where it would be. Insertion stores a new node there. Deletion takes the
node out of the pointer that leads to it, or copies the item of its predecessor
and takes out that one.
-/

namespace VcmallocBench

open TreeContext

variable {α : Type} [LinearOrder α]

namespace BSearchTreeType

/-- `while (current != nullptr && !found)`: the pointer behind the current one and the current one.
The loop visits at most `fuel` nodes. -/
def descend (item : α) : ℕ → Ptr → Ptr → TreeOp α (Ptr × Ptr)
  | _, trailCurrent, none => pure (trailCurrent, none)
  | 0, _, some _ => throw .diverge
  | fuel + 1, trailCurrent, some a => do
    let current ← treeNode (some a)
    if current.info = item then pure (trailCurrent, some a)
    else if item < current.info then descend item fuel (some a) current.lLink
    else descend item fuel (some a) current.rLink

def search (fuel : ℕ) (searchItem : α) : TreeOp α Bool := do
  let s ← get
  if s.root = none then do
    printTree (.message "Cannot search an empty tree.\n")
    return false
  else do
    let (_, current) ← descend searchItem fuel none s.root
    return current.isSome

/-- Both forms of `insert`. -/
def insert (fuel : ℕ) (insertItem : α) (newNode : ℕ) : TreeOp α Unit := do
  let s ← get
  createNode newNode { info := insertItem, rLink := none, lLink := none }
  if s.root = none then writeSlot .root (some newNode)
  else do
    let (trailCurrent, current) ← descend insertItem fuel none s.root
    if current ≠ none then
      printTree (.message
        "The item to be inserted is already in the tree -- duplicates are not allowed.\n")
    else do
      let trail ← treeNode trailCurrent
      if insertItem < trail.info then
        assignNode trailCurrent ({ · with lLink := some newNode })
      else
        assignNode trailCurrent ({ · with rLink := some newNode })

theorem createsNode_descend {x : α} {a : ℕ} :
    ∀ (fuel : ℕ) (trailCurrent current : Ptr), CreatesNode a (descend x fuel trailCurrent current)
  | fuel, trailCurrent, none => by
    rw [descend]
    exact .pure _
  | 0, trailCurrent, some b => by
    rw [descend]
    exact .throw _
  | fuel + 1, trailCurrent, some b => by
    rw [descend]
    exact createsNode_treeNode.bind fun n => .ite (.pure _)
      (.ite (createsNode_descend fuel _ _) (createsNode_descend fuel _ _))

theorem createsNode_insert {fuel : ℕ} {x : α} {a : ℕ} : CreatesNode a (insert fuel x a) := by
  refine Leads.get.bind fun s => createsNode_createNode.bind fun _ => .ite ?_ ?_
  · exact .modify fun _ => onlyNew_of_eq rfl
  refine (createsNode_descend _ _ _).bind fun v => .ite createsNode_printTree ?_
  exact createsNode_treeNode.bind fun n => .ite createsNode_assignNode createsNode_assignNode

omit [LinearOrder α] in
/-- `while (current->rLink != nullptr)`. The loop visits at most `fuel` nodes. -/
def rightmost : ℕ → Ptr → Ptr → TreeOp α (Ptr × Ptr)
  | 0, _, _ => throw .diverge
  | fuel + 1, trailCurrent, current => do
    let n ← treeNode current
    if n.rLink ≠ none then rightmost fuel current n.rLink
    else pure (trailCurrent, current)

omit [LinearOrder α] in
/-- Deletes the node that the pointer in a slot leads to. -/
def deleteFromTree (fuel : ℕ) (slot : Slot) : TreeOp α Unit := do
  let p ← readSlot slot
  if p = none then printTree (.message "Error: The node to be deleted does not exist.\n")
  else do
    let n ← treeNode p
    if n.lLink = none ∧ n.rLink = none then do
      writeSlot slot none
      freeNode p
    else if n.lLink = none then do
      writeSlot slot n.rLink
      freeNode p
    else if n.rLink = none then do
      writeSlot slot n.lLink
      freeNode p
    else do
      let (trailCurrent, current) ← rightmost fuel none n.lLink
      let c ← treeNode current
      assignNode p ({ · with info := c.info })
      if trailCurrent = none then assignNode p ({ · with lLink := c.lLink })
      else assignNode trailCurrent ({ · with rLink := c.lLink })
      freeNode current

def deleteNode (fuel : ℕ) (deleteItem : α) : TreeOp α Unit := do
  let s ← get
  if s.root = none then printTree (.message "Cannot delete from an empty tree.\n")
  else do
    let (trailCurrent, current) ← descend deleteItem fuel s.root s.root
    if current = none then
      printTree (.message "The item to be deleted is not in the tree.\n")
    else if current = s.root then deleteFromTree fuel .root
    else do
      let trail ← treeNode trailCurrent
      match trailCurrent with
      | none => throw .segv
      | some a =>
        if deleteItem < trail.info then deleteFromTree fuel (.lLink a)
        else deleteFromTree fuel (.rLink a)

end BSearchTreeType

section Slots

omit [LinearOrder α]

def slotOf : TreeContext α → Slot
  | [] => .root
  | .left a _ _ :: _ => .lLink a
  | .right a _ _ :: _ => .rLink a

/-- What an operation on the nodes of the tree leaves alone in the object. -/
def Kept (s u : TreeObject α) : Prop :=
  u.baseRoot = s.baseRoot ∧ u.output = s.output ∧ u.deleted = s.deleted

variable {s : TreeObject α} {c : TreeContext α} {p q : Ptr} {E : Fault → TreeObject α → Prop}

theorem meets_readSlot (h : Reaches (branches s.heap) s.root c p) :
    Meets (readSlot (slotOf c)) s (fun v u => v = p ∧ u = s) E := by
  cases c with
  | nil =>
    rw [slotOf, readSlot, meets_bind, meets_get]
    exact (meets_pure _).mpr ⟨h, rfl⟩
  | cons f c =>
    cases f with
    | left a x r =>
      obtain ⟨rp, ha, -, -⟩ := h
      rw [slotOf, readSlot, meets_bind, meets_treeNode (heap_of_branches ha)]
      exact (meets_pure _).mpr ⟨rfl, rfl⟩
    | right a x l =>
      obtain ⟨lp, ha, -, -⟩ := h
      rw [slotOf, readSlot, meets_bind, meets_treeNode (heap_of_branches ha)]
      exact (meets_pure _).mpr ⟨rfl, rfl⟩

theorem meets_writeSlot (h : Reaches (branches s.heap) s.root c p)
    (hd : DistinctAddresses (before c ++ after c)) :
    Meets (writeSlot (slotOf c) q) s (fun _ u => Reaches (branches u.heap) u.root c q ∧
      (∀ b, (∀ e ∈ before c ++ after c, e.1 ≠ b) → u.heap b = s.heap b) ∧ Kept s u) E := by
  cases c with
  | nil =>
    rw [slotOf, writeSlot, meets_modify]
    exact ⟨rfl, fun _ _ => rfl, rfl, rfl, rfl⟩
  | cons f c =>
    cases f with
    | left a x r =>
      obtain ⟨rp, ha, hr, hc⟩ := h
      rw [before, after, List.cons_append] at hd
      obtain ⟨hpre, hpost, -⟩ := DistinctAddresses.ne hd
      rw [slotOf, writeSlot, meets_assignNode (heap_of_branches ha)]
      refine ⟨⟨rp, branches_eq (s.update_heap_self _ _), hr.congr fun e he => branches_congr ?_,
        hc.congr (fun e he => branches_congr ?_) fun e he => branches_congr ?_⟩,
        fun b hb => s.update_heap_of_ne _ ?_, rfl, rfl, rfl⟩
      · exact s.update_heap_of_ne _ (hpost e (List.mem_append_left _ he))
      · exact s.update_heap_of_ne _ (hpre e he)
      · exact s.update_heap_of_ne _ (hpost e (List.mem_append_right _ he))
      · exact (hb (a, x) (List.mem_append_right _ List.mem_cons_self)).symm
    | right a x l =>
      obtain ⟨lp, ha, hl, hc⟩ := h
      rw [before, after, List.append_assoc, List.singleton_append] at hd
      obtain ⟨hpre, hpost, -⟩ := DistinctAddresses.ne hd
      rw [slotOf, writeSlot, meets_assignNode (heap_of_branches ha)]
      refine ⟨⟨lp, branches_eq (s.update_heap_self _ _), hl.congr fun e he => branches_congr ?_,
        hc.congr (fun e he => branches_congr ?_) fun e he => branches_congr ?_⟩,
        fun b hb => s.update_heap_of_ne _ ?_, rfl, rfl, rfl⟩
      · exact s.update_heap_of_ne _ (hpre e (List.mem_append_right _ he))
      · exact s.update_heap_of_ne _ (hpre e (List.mem_append_left _ he))
      · exact s.update_heap_of_ne _ (hpost e he)
      · refine (hb (a, x) (List.mem_append_left _ (List.mem_append_right _ ?_))).symm
        exact List.mem_singleton_self _

end Slots

section Loops

variable {s : TreeObject α} {E : Fault → TreeObject α → Prop}

/-- The search from a pointer ends where the search in its tree ends. -/
theorem meets_descend (x : α) {q : Ptr} {t : Tree α} : ∀ {fuel : ℕ} {c : TreeContext α} {p : Ptr},
    IsTree (branches s.heap) p t → t.height ≤ fuel →
    Meets (BSearchTreeType.descend x fuel (trail q c) p) s
      (fun v u => u = s ∧ v = (trail q (Tree.focus x t c).1, (Tree.focus x t c).2.rootPtr)) E := by
  induction t with
  | leaf =>
    rintro fuel c p h _
    obtain rfl := IsTree.leaf_iff.mp h
    rw [BSearchTreeType.descend]
    exact (meets_pure _).mpr ⟨rfl, rfl⟩
  | node a y l r ihl ihr =>
    rintro (_ | fuel) c p h hf
    · rw [Tree.height] at hf
      omega
    obtain ⟨rfl, lp, rp, ha, hl, hr⟩ := h
    rw [Tree.height] at hf
    rw [BSearchTreeType.descend, meets_bind, meets_treeNode (heap_of_branches ha), Tree.focus]
    refine meets_ite (fun hyx => ?_) fun hyx => meets_ite (fun hlt => ?_) fun hlt => ?_
    · rw [if_pos hyx]
      exact (meets_pure _).mpr ⟨rfl, rfl⟩
    · rw [if_neg hyx, if_pos hlt]
      exact ihl (c := .left a y r :: c) hl (by omega)
    · rw [if_neg hyx, if_neg hlt]
      exact ihr (c := .right a y l :: c) hr (by omega)

omit [LinearOrder α] in
theorem meets_rightmost {q : Ptr} {r : Tree α} : ∀ {fuel : ℕ} {c : TreeContext α} {a : ℕ} {x : α}
    {l : Tree α}, IsTree (branches s.heap) (some a) (.node a x l r) → r.height < fuel →
    Meets (BSearchTreeType.rightmost fuel (trail q c) (some a)) s
      (fun v u => u = s ∧ v = (trail q (Tree.rightmost a x l r c).1,
        some (Tree.rightmost a x l r c).2.1)) E := by
  induction r with
  | leaf =>
    rintro (_ | fuel) c a x l h hf
    · exact absurd hf (Nat.not_lt_zero _)
    obtain ⟨-, lp, rp, ha, hl, hr⟩ := h
    obtain rfl := IsTree.leaf_iff.mp hr
    rw [BSearchTreeType.rightmost, meets_bind, meets_treeNode (heap_of_branches ha),
      if_neg (not_not.mpr rfl)]
    exact (meets_pure _).mpr ⟨rfl, rfl⟩
  | node b y l' r' _ ihr =>
    rintro (_ | fuel) c a x l h hf
    · exact absurd hf (Nat.not_lt_zero _)
    obtain ⟨-, lp, rp, ha, hl, hr⟩ := h
    have hb := hr.eq_rootPtr
    subst hb
    rw [Tree.height] at hf
    rw [BSearchTreeType.rightmost, meets_bind, meets_treeNode (heap_of_branches ha), Tree.rightmost]
    refine meets_ite (fun _ => ?_) fun hb => absurd (Option.some_ne_none b) hb
    exact ihr (c := .right a x l :: c) hr (by omega)

end Loops

structure Rooted (s : TreeObject α) (t : Tree α) : Prop where
  tree : IsTree (branches s.heap) s.root t
  ordered : t.Ordered
  distinct : DistinctAddresses t.cells

namespace Rooted

variable {s u : TreeObject α} {t : Tree α} {a : ℕ} {x : α} {fuel : ℕ}
  {E : Fault → TreeObject α → Prop}

theorem empty : Rooted (.empty α) .leaf := ⟨rfl, True.intro, List.nodup_nil⟩

theorem ne_fresh (h : Rooted s t) (ha : s.heap a = none) : ∀ e ∈ t.cells, e.1 ≠ a := by
  rintro e he rfl
  obtain ⟨v, hv⟩ := h.tree.mem he
  rw [branches, ha] at hv
  cases hv

theorem root_none_iff (h : Rooted s t) : s.root = none ↔ t = .leaf := h.tree.none_iff

theorem grow {c : TreeContext α} (hs : (plug c .leaf).Ordered)
    (hd : DistinctAddresses (plug c .leaf).cells) (hx : Brackets x c)
    (hne : ∀ e ∈ (plug c .leaf).cells, e.1 ≠ a) (hu : Reaches (branches u.heap) u.root c (some a))
    (ha : u.heap a = some ⟨x, none, none⟩) : Rooted u (plug c (.node a x .leaf .leaf)) := by
  refine ⟨isTree_plug.mpr ⟨some a, hu, rfl, none, none, branches_eq ha, rfl, rfl⟩,
    ordered_plug_node a hs hx, ?_⟩
  rw [cells_plug, Tree.cells_leaf, List.append_nil] at hd hne
  rw [cells_plug, Tree.cells_node, Tree.cells_leaf, List.nil_append, List.append_assoc]
  exact hd.insert hne

theorem meets_attach {c : TreeContext α} (hs : (plug c .leaf).Ordered)
    (hd : DistinctAddresses (plug c .leaf).cells) (hx : Brackets x c)
    (hne : ∀ e ∈ (plug c .leaf).cells, e.1 ≠ a) {p : Ptr} (hl : Reaches (branches s.heap) s.root c p)
    (ha : s.heap a = some ⟨x, none, none⟩) :
    Meets (writeSlot (slotOf c) (some a)) s (fun _ u =>
      Rooted u (plug c (.node a x .leaf .leaf)) ∧ Kept s u) E := by
  have hcells : (plug c .leaf).cells = before c ++ after c := by
    rw [cells_plug, Tree.cells_leaf, List.append_nil]
  refine (meets_writeSlot hl (hcells ▸ hd)).imp fun _ u hu => ⟨?_, hu.2.2⟩
  refine grow hs hd hx hne hu.1 ?_
  rw [hu.2.1 a (hcells ▸ hne), ha]

theorem meets_insert (h : Rooted s t) (ha : s.heap a = none) (hf : t.height ≤ fuel) :
    Meets (BSearchTreeType.insert fuel x a) s (fun _ u => u.baseRoot = s.baseRoot ∧
      u.deleted = s.deleted ∧ ((x ∈ t.items ∧ Rooted u t) ∨
        x ∉ t.items ∧ Rooted u (t.grown a x))) E := by
  have hne := h.ne_fresh ha
  have hnew := s.update_heap_self a (some ⟨x, none, none⟩)
  have htree : IsTree (branches (s.update a (some ⟨x, none, none⟩)).heap) s.root t :=
    h.tree.congr fun e he => branches_congr (s.update_heap_of_ne _ (hne e he))
  have hbr : Brackets x (Tree.focus x t []).1 := Tree.brackets_focus h.ordered
    ⟨fun e he => absurd he List.not_mem_nil, fun e he => absurd he List.not_mem_nil⟩
  have hplug : plug (Tree.focus x t []).1 (Tree.focus x t []).2 = t := Tree.plug_focus
  have hcases := Tree.focus_cases (x := x) (t := t) (c := [])
  rw [BSearchTreeType.insert, meets_bind, meets_get, meets_bind, meets_createNode]
  refine meets_ite (fun hroot => ?_) fun hroot => ?_
  · -- the first node of the tree
    obtain rfl := h.root_none_iff.mp hroot
    refine (meets_attach (s := s.update a (some ⟨x, none, none⟩)) (c := []) h.ordered h.distinct hbr hne htree hnew).imp fun _ u hu => ?_
    exact ⟨hu.2.1, hu.2.2.2, Or.inr ⟨List.not_mem_nil, hu.1⟩⟩
  refine (meets_descend x (q := none) (c := []) htree hf).bind fun v u hu => ?_
  obtain ⟨rfl, rfl⟩ := hu
  have hgrown : t.grown a x = plug (Tree.focus x t []).1 (.node a x .leaf .leaf) := rfl
  generalize (Tree.focus x t []).1 = c at hbr hplug hgrown ⊢
  rcases hcases with hleaf | ⟨b, l, r, hnode⟩
  · rw [hleaf] at hplug ⊢
    refine meets_ite (fun hc => absurd rfl hc) fun _ => ?_
    rw [← hplug] at htree
    obtain ⟨p, hl, -⟩ := isTree_plug.mp htree
    have hmem : x ∉ t.items := by
      rw [← hplug, items_plug, Tree.items, Tree.cells_leaf, List.map_nil, List.append_nil,
        List.mem_append, not_or]
      exact hbr.not_mem
    have hattach := (meets_attach (s := s.update a (some ⟨x, none, none⟩)) (E := E) (hplug ▸ h.ordered) (hplug ▸ h.distinct) hbr
      (hplug ▸ hne) hl hnew).imp fun _ u hu =>
        (⟨hu.2.1, hu.2.2.2, Or.inr ⟨hmem, hgrown ▸ hu.1⟩⟩ :
          u.baseRoot = s.baseRoot ∧ u.deleted = s.deleted ∧ ((x ∈ t.items ∧ Rooted u t) ∨
            x ∉ t.items ∧ Rooted u (t.grown a x)))
    cases c with
    | nil =>
      obtain rfl : Tree.leaf = t := hplug
      exact absurd (h.root_none_iff.mpr rfl) hroot
    | cons f c =>
      cases f with
      | left b y r =>
        obtain ⟨rp, hb, -, -⟩ := hl
        have hxy : x < y := hbr.2 (b, y) List.mem_cons_self
        rw [trail, meets_bind, meets_treeNode (heap_of_branches hb), if_pos hxy]
        exact hattach
      | right b y l =>
        obtain ⟨lp, hb, -, -⟩ := hl
        have hyx : y < x := hbr.1 (b, y) (List.mem_append_right _ (List.mem_singleton_self _))
        rw [trail, meets_bind, meets_treeNode (heap_of_branches hb), if_neg hyx.not_gt]
        exact hattach
  · rw [hnode] at hplug ⊢
    refine meets_ite (fun _ => ?_) fun hc => absurd (Option.some_ne_none b) hc
    rw [meets_printTree]
    refine ⟨rfl, rfl, Or.inl ⟨?_, htree, h.ordered, h.distinct⟩⟩
    rw [← hplug, items_plug, Tree.items, Tree.cells_node]
    simp

/-- One node of the tree, and no other one, has been taken out and deleted, and the item is gone. -/
def Takes (x : α) (s : TreeObject α) (t : Tree α) (u : TreeObject α) : Prop :=
  ∃ t' b, Rooted u t' ∧ (∀ y, y ∈ t'.items ↔ y ≠ x ∧ y ∈ t.items) ∧
    (b :: t'.addresses).Perm t.addresses ∧ u.heap b = none ∧ u.deleted = s.deleted ++ [b] ∧
    u.baseRoot = s.baseRoot

theorem takes (h : Rooted s t) (t' : Tree α) {b : ℕ} {l r : List α} (hi : t.items = l ++ x :: r)
    (hi' : t'.items = l ++ r) (haddr : (b :: t'.addresses).Perm t.addresses)
    (htree : IsTree (branches u.heap) u.root t') (hb : u.heap b = none)
    (hdel : u.deleted = s.deleted ++ [b]) (hbase : u.baseRoot = s.baseRoot) : Takes x s t u := by
  have hord := (Tree.ordered_iff t).mp h.ordered
  rw [hi] at hord
  have hsub : (l ++ r).Sublist (l ++ x :: r) := (List.Sublist.refl l).append (List.sublist_cons_self x r)
  refine ⟨t', b, ⟨htree, ?_, ?_⟩, fun y => ?_, haddr, hb, hdel, hbase⟩
  · rw [Tree.ordered_iff, hi']
    exact hord.sublist hsub
  · exact (List.nodup_cons.mp (haddr.nodup_iff.mpr h.distinct)).2
  · rw [hi, hi']
    constructor
    · intro hy
      refine ⟨?_, hsub.subset hy⟩
      rintro rfl
      rw [List.pairwise_append, List.pairwise_cons] at hord
      rcases List.mem_append.mp hy with hy | hy
      · exact lt_irrefl _ (hord.2.2 y hy y List.mem_cons_self)
      · exact lt_irrefl _ (hord.2.1.1 y hy)
    · rintro ⟨hyx, hy⟩
      rcases List.mem_append.mp hy with hy | hy
      · exact List.mem_append_left _ hy
      · rcases List.mem_cons.mp hy with rfl | hy
        · exact absurd rfl hyx
        · exact List.mem_append_right _ hy

theorem meets_bypass {c : TreeContext α} {l r t' : Tree α} {q : Ptr}
    (h : Rooted s (plug c (.node a x l r))) (hq : IsTree (branches s.heap) q t')
    (ht : t'.cells = l.cells ++ r.cells) :
    Meets (do
      writeSlot (slotOf c) q
      freeNode (some a)) s (fun _ u => Takes x s (plug c (.node a x l r)) u) E := by
  obtain ⟨p, hl, hp⟩ := isTree_plug.mp h.tree
  obtain ⟨-, lp, rp, ha, -, -⟩ := hp
  have hd := h.distinct
  rw [cells_plug, Tree.cells_node] at hd
  have hd' : DistinctAddresses ((before c ++ l.cells) ++ (a, x) :: (r.cells ++ after c)) := by
    simpa using hd
  obtain ⟨hpre, hpost, hrest⟩ := DistinctAddresses.ne hd'
  have hcells : DistinctAddresses (before c ++ t'.cells ++ after c) := by
    rw [ht]
    simpa using hrest
  obtain ⟨hout, hin⟩ := hcells.around
  have hnode : ∀ e ∈ before c ++ after c, e.1 ≠ a := by
    rintro e he
    rcases List.mem_append.mp he with he | he
    · exact hpre e (List.mem_append_left _ he)
    · exact hpost e (List.mem_append_right _ he)
  have hsub : ∀ e ∈ t'.cells, e.1 ≠ a := by
    rw [ht]
    rintro e he
    rcases List.mem_append.mp he with he | he
    · exact hpre e (List.mem_append_right _ he)
    · exact hpost e (List.mem_append_left _ he)
  refine (meets_writeSlot hl hout).bind fun _ u hu => ?_
  obtain ⟨hu, hkept, hbase, -, hdel⟩ := hu
  have hlive : u.heap a = some ⟨x, rp, lp⟩ := by
    rw [hkept a hnode]
    exact heap_of_branches ha
  rw [meets_freeNode hlive]
  have hgone : ∀ e : ℕ × α, e.1 ≠ a → branches (u.update a none).heap e.1 = branches u.heap e.1 :=
    fun e he => branches_congr (u.update_heap_of_ne none he)
  refine h.takes (plug c t') (b := a) (l := (before c).map Prod.snd ++ l.items)
    (r := r.items ++ (after c).map Prod.snd) ?_ ?_ ?_ (isTree_plug.mpr ⟨q, ?_, ?_⟩)
    (u.update_heap_self a none) (congrArg (· ++ [a]) hdel) hbase
  · rw [items_plug, Tree.items, Tree.items, Tree.items, Tree.cells_node]
    simp
  · rw [items_plug, Tree.items, ht, Tree.items, Tree.items]
    simp
  · rw [addresses_plug, addresses_plug, Tree.addresses, Tree.addresses, ht, Tree.cells_node]
    have hp : ((before c ++ l.cells).map Prod.fst ++ a :: (r.cells ++ after c).map Prod.fst).Perm
        (a :: ((before c ++ l.cells).map Prod.fst ++ (r.cells ++ after c).map Prod.fst)) :=
      List.perm_middle
    simpa using hp.symm
  · exact hu.congr (fun e he => hgone e (hnode e (List.mem_append_left _ he)))
      fun e he => hgone e (hnode e (List.mem_append_right _ he))
  · refine (hq.congr fun e he => branches_congr ?_).congr fun e he => hgone e (hsub e he)
    exact hkept e.1 fun d hd => hin d hd e he

/-- The item of the predecessor replaces that of a node, and the node of the predecessor, whose place
its left subtree takes, is deleted. -/
theorem meets_splice {c d : TreeContext α} {l' r : Tree α} {b : ℕ} {z : α}
    (h : Rooted s (plug c (.node a x (plug d (.node b z l' .leaf)) r))) (hd : after d = []) {q lp : Ptr}
    {rp : Ptr} (ha : s.heap a = some ⟨x, rp, q⟩) (hb : s.heap b = some ⟨z, none, lp⟩)
    (hq : IsTree (branches s.heap) q (plug d (.node b z l' .leaf)))
    (hc : Reaches (branches s.heap) s.root c (some a)) (hr : IsTree (branches s.heap) rp r) :
    Meets (do
      assignNode (some a) ({ · with info := z })
      writeSlot (slotOf (d ++ .left a z r :: c)) lp
      freeNode (some b)) s
      (fun _ u => Takes x s (plug c (.node a x (plug d (.node b z l' .leaf)) r)) u) E := by
  obtain ⟨p', hdl, rfl, lp', rp', hb', hl', -⟩ := isTree_plug.mp hq
  obtain ⟨-, hlp⟩ := Prod.mk.inj (Option.some.inj ((branches_eq hb).symm.trans hb'))
  obtain ⟨rfl, -⟩ := Prod.mk.inj hlp
  -- the context of the predecessor, with its item in the place of the other one
  have hbefore : before (d ++ .left a z r :: c) = before c ++ before d := before_append
  have hafter : after (d ++ .left a z r :: c) = (a, z) :: (r.cells ++ after c) := by
    rw [after_append, hd, List.nil_append, after, List.cons_append]
  have hcells : DistinctAddresses (before (d ++ .left a z r :: c) ++ (l'.cells ++ [(b, z)]) ++
      after (d ++ .left a z r :: c)) := by
    have hdist := h.distinct
    rw [cells_plug, Tree.cells_node, cells_plug, hd] at hdist
    rw [hbefore, hafter]
    simpa [DistinctAddresses] using hdist
  obtain ⟨hout, hin⟩ := hcells.around
  have hbl : ∀ e ∈ l'.cells, e.1 ≠ b := by
    have hmid := hcells
    rw [List.append_assoc, DistinctAddresses, List.map_append, List.nodup_append] at hmid
    have hpart : DistinctAddresses (l'.cells ++ (b, z) :: []) :=
      DistinctAddresses.left (show DistinctAddresses ((l'.cells ++ [(b, z)]) ++ _) from hmid.2.1)
    exact (DistinctAddresses.ne hpart).1
  have hanode : (a, z) ∈ before (d ++ .left a z r :: c) ++ after (d ++ .left a z r :: c) := by
    rw [hafter]
    exact List.mem_append_right _ List.mem_cons_self
  have hab : a ≠ b := hin _ hanode (b, z) (List.mem_append_right _ (List.mem_singleton_self _))
  have hal : ∀ e ∈ l'.cells, e.1 ≠ a := fun e he => (hin _ hanode e (List.mem_append_left _ he)).symm
  have haout := hout
  rw [hbefore, hafter] at haout
  obtain ⟨hpre, hpost, -⟩ := DistinctAddresses.ne haout
  have hcopied : ∀ e : ℕ × α, e.1 ≠ a →
      branches (s.update a (some ⟨z, rp, q⟩)).heap e.1 = branches s.heap e.1 :=
    fun e he => branches_congr (s.update_heap_of_ne _ he)
  have hlead : Reaches (branches (s.update a (some ⟨z, rp, q⟩)).heap) s.root (d ++ .left a z r :: c)
      (some b) := by
    refine leads_append.mpr ⟨q, ⟨rp, branches_eq (s.update_heap_self _ _),
      hr.congr fun e he => hcopied e (hpost e (List.mem_append_left _ he)),
      hc.congr (fun e he => hcopied e (hpre e (List.mem_append_left _ he))) fun e he =>
        hcopied e (hpost e (List.mem_append_right _ he))⟩,
      hdl.congr (fun e he => hcopied e (hpre e (List.mem_append_right _ he))) fun e he => ?_⟩
    rw [hd] at he
    exact absurd he List.not_mem_nil
  rw [meets_bind, meets_assignNode ha]
  refine (meets_writeSlot (s := s.update a (some ⟨z, rp, q⟩)) hlead hout).bind fun _ u hu => ?_
  obtain ⟨hu, hkept, hbase, -, hdel⟩ := hu
  have hkeptl : ∀ e ∈ l'.cells ++ [(b, z)], e.1 ≠ a → u.heap e.1 = s.heap e.1 := fun e he hea =>
    (hkept e.1 fun f hf => hin f hf e he).trans (s.update_heap_of_ne _ hea)
  have hlive : u.heap b = some ⟨z, none, lp⟩ :=
    (hkeptl (b, z) (List.mem_append_right _ (List.mem_singleton_self _)) hab.symm).trans hb
  have hgone : ∀ e : ℕ × α, e.1 ≠ b → branches (u.update b none).heap e.1 = branches u.heap e.1 :=
    fun e he => branches_congr (u.update_heap_of_ne none he)
  have hbout : ∀ e ∈ before (d ++ .left a z r :: c) ++ after (d ++ .left a z r :: c), e.1 ≠ b :=
    fun e he => hin e he (b, z) (List.mem_append_right _ (List.mem_singleton_self _))
  rw [meets_freeNode hlive]
  refine h.takes (plug (d ++ .left a z r :: c) l') (b := b)
    (l := (before c ++ before d ++ l'.cells ++ [(b, z)]).map Prod.snd)
    (r := (r.cells ++ after c).map Prod.snd) ?_ ?_ ?_ (isTree_plug.mpr ⟨lp, ?_, ?_⟩)
    (u.update_heap_self b none) (congrArg (· ++ [b]) hdel) hbase
  · rw [Tree.items, cells_plug, Tree.cells_node, cells_plug, hd, Tree.cells_node, Tree.cells_leaf]
    simp
  · rw [Tree.items, cells_plug, hbefore, hafter]
    simp
  · rw [Tree.addresses, Tree.addresses, cells_plug, cells_plug, Tree.cells_node, cells_plug, hd,
      Tree.cells_node, Tree.cells_leaf, hbefore, hafter]
    have hp : ((before c ++ before d ++ l'.cells).map Prod.fst ++
        b :: a :: (r.cells ++ after c).map Prod.fst).Perm
        (b :: ((before c ++ before d ++ l'.cells).map Prod.fst ++
          a :: (r.cells ++ after c).map Prod.fst)) := List.perm_middle
    simpa using hp.symm
  · exact hu.congr (fun e he => hgone e (hbout e (List.mem_append_left _ he)))
      fun e he => hgone e (hbout e (List.mem_append_right _ he))
  · refine (hl'.congr fun e he => branches_congr ?_).congr fun e he => hgone e (hbl e he)
    exact hkeptl e (List.mem_append_left _ he) (hal e he)

theorem meets_deleteFromTree {c : TreeContext α} {l r : Tree α}
    (h : Rooted s (plug c (.node a x l r))) (hf : l.height ≤ fuel) :
    Meets (BSearchTreeType.deleteFromTree fuel (slotOf c)) s
      (fun _ u => Takes x s (plug c (.node a x l r)) u) E := by
  obtain ⟨p, hl, hp⟩ := isTree_plug.mp h.tree
  obtain ⟨rfl, lp, rp, ha, hlt, hrt⟩ := hp
  have hn := heap_of_branches ha
  rw [BSearchTreeType.deleteFromTree]
  refine (meets_readSlot hl).bind fun v t hv => ?_
  obtain ⟨rfl, rfl⟩ := hv
  rw [if_neg (Option.some_ne_none a), meets_bind, meets_treeNode hn]
  refine meets_ite (fun hnone => ?_) fun hnone => meets_ite (fun hleft => ?_) fun hleft =>
    meets_ite (fun hright => ?_) fun hright => ?_
  · obtain ⟨h₁, h₂⟩ := hnone
    obtain rfl := hlt.none_iff.mp h₁
    obtain rfl := hrt.none_iff.mp h₂
    have hleaf : IsTree (branches t.heap) none .leaf := rfl
    exact h.meets_bypass hleaf rfl
  · obtain rfl := hlt.none_iff.mp hleft
    exact h.meets_bypass hrt rfl
  · obtain rfl := hrt.none_iff.mp hright
    exact h.meets_bypass hlt (List.append_nil _).symm
  · cases l with
    | leaf => exact absurd hlt hleft
    | node la lx ll lr =>
      obtain rfl := hlt.eq_rootPtr
      have hplug : plug (Tree.rightmost la lx ll lr []).1 (.node (Tree.rightmost la lx ll lr []).2.1
        (Tree.rightmost la lx ll lr []).2.2.1 (Tree.rightmost la lx ll lr []).2.2.2 .leaf) =
          .node la lx ll lr := Tree.plug_rightmost
      have hafter : after (Tree.rightmost la lx ll lr []).1 = [] := Tree.after_rightmost
      have hcases := Tree.rightmost_cases (a := la) (x := lx) (l := ll) (r := lr) (c := [])
      rw [Tree.height] at hf
      refine (meets_rightmost (q := none) (c := []) hlt (by omega)).bind fun v u hu => ?_
      obtain ⟨rfl, rfl⟩ := hu
      generalize Tree.rightmost la lx ll lr [] = m at *
      obtain ⟨d, b, z, l'⟩ := m
      dsimp only at hplug hafter hcases ⊢
      have hq : IsTree (branches u.heap) (Tree.node la lx ll lr).rootPtr
          (plug d (.node b z l' .leaf)) := by
        rw [hplug]
        exact hlt
      rw [← hplug] at h ⊢
      obtain ⟨p', hd, hb⟩ := isTree_plug.mp hq
      obtain ⟨rfl, lp', rp', hb, -, hr'⟩ := hb
      obtain rfl := IsTree.leaf_iff.mp hr'
      have hnb := heap_of_branches hb
      have hsplice := h.meets_splice (E := E) hafter hn hnb hq hl hrt
      rw [meets_bind, meets_treeNode hnb]
      rcases hcases with rfl | ⟨t, y, k, d', rfl⟩
      · exact hsplice
      · exact hsplice

/-- A search that ends at a leaf has not met the item, and one that ends at a node has. -/
theorem mem_focus (h : t.Ordered) : x ∈ t.items ↔ ∃ b l r, (Tree.focus x t []).2 = .node b x l r := by
  have hplug : plug (Tree.focus x t []).1 (Tree.focus x t []).2 = t := Tree.plug_focus
  have hbr : Brackets x (Tree.focus x t []).1 := Tree.brackets_focus h
    ⟨fun e he => absurd he List.not_mem_nil, fun e he => absurd he List.not_mem_nil⟩
  rcases Tree.focus_cases (x := x) (t := t) (c := []) with hleaf | ⟨b, l, r, hnode⟩
  · rw [hleaf] at hplug
    refine iff_of_false ?_ ?_
    · rw [← hplug, items_plug, Tree.items, Tree.cells_leaf, List.map_nil, List.append_nil,
        List.mem_append, not_or]
      exact hbr.not_mem
    · rintro ⟨b, l, r, hnode⟩
      rw [hleaf] at hnode
      cases hnode
  · rw [hnode] at hplug
    refine iff_of_true ?_ ⟨b, l, r, hnode⟩
    rw [← hplug, items_plug, Tree.items, Tree.cells_node]
    simp

theorem meets_search (h : Rooted s t) (hf : t.height ≤ fuel) :
    Meets (BSearchTreeType.search fuel x) s (fun v u => (v = true ↔ x ∈ t.items) ∧
      u.heap = s.heap ∧ u.root = s.root) E := by
  rw [BSearchTreeType.search, meets_bind, meets_get]
  refine meets_ite (fun hroot => ?_) fun hroot => ?_
  · obtain rfl := h.root_none_iff.mp hroot
    rw [meets_bind, meets_printTree]
    exact (meets_pure _).mpr ⟨iff_of_false Bool.false_ne_true List.not_mem_nil, rfl, rfl⟩
  · refine (meets_descend x (q := none) (c := []) h.tree hf).bind fun v u hu => ?_
    obtain ⟨rfl, rfl⟩ := hu
    refine (meets_pure _).mpr ⟨?_, rfl, rfl⟩
    rw [mem_focus h.ordered]
    rcases Tree.focus_cases (x := x) (t := t) (c := []) with hleaf | ⟨b, l, r, hnode⟩
    · rw [hleaf]
      refine iff_of_false Bool.false_ne_true ?_
      rintro ⟨b, l, r, hnode⟩
      cases hnode
    · rw [hnode]
      exact iff_of_true rfl ⟨b, l, r, rfl⟩

theorem meets_deleteNode (h : Rooted s t) (hf : t.height ≤ fuel) :
    Meets (BSearchTreeType.deleteNode fuel x) s (fun _ u => (x ∈ t.items ∧ Takes x s t u) ∨
      x ∉ t.items ∧ Rooted u t ∧ u.heap = s.heap ∧ u.deleted = s.deleted ∧
        u.baseRoot = s.baseRoot) E := by
  rw [BSearchTreeType.deleteNode, meets_bind, meets_get]
  refine meets_ite (fun hroot => ?_) fun hroot => ?_
  · obtain rfl := h.root_none_iff.mp hroot
    rw [meets_printTree]
    exact Or.inr ⟨List.not_mem_nil, ⟨h.tree, h.ordered, h.distinct⟩, rfl, rfl, rfl⟩
  have hmem := mem_focus (x := x) h.ordered
  have hplug : plug (Tree.focus x t []).1 (Tree.focus x t []).2 = t := Tree.plug_focus
  have hbr : Brackets x (Tree.focus x t []).1 := Tree.brackets_focus h.ordered
    ⟨fun e he => absurd he List.not_mem_nil, fun e he => absurd he List.not_mem_nil⟩
  have hcases := Tree.focus_cases (x := x) (t := t) (c := [])
  refine (meets_descend x (q := s.root) (c := []) h.tree hf).bind fun v u hu => ?_
  obtain ⟨hu, rfl⟩ := hu
  rw [hu]
  generalize (Tree.focus x t []).1 = c at hbr hplug ⊢
  rcases hcases with hleaf | ⟨b, l, r, hnode⟩
  · rw [hleaf] at hmem ⊢
    refine meets_ite (fun _ => ?_) fun hc => absurd rfl hc
    rw [meets_printTree]
    refine Or.inr ⟨fun hx => ?_, ⟨h.tree, h.ordered, h.distinct⟩, rfl, rfl, rfl⟩
    obtain ⟨b, l, r, hnode⟩ := hmem.mp hx
    cases hnode
  · rw [hnode] at hplug hmem ⊢
    have hx : x ∈ t.items := hmem.mpr ⟨b, l, r, rfl⟩
    refine meets_ite (fun hc => absurd hc (Option.some_ne_none b)) fun _ => ?_
    have hheight : l.height ≤ fuel := by
      have hle := height_le_plug c (.node b x l r)
      rw [hplug, Tree.height] at hle
      omega
    have hdel := ((hplug ▸ h).meets_deleteFromTree (E := E) (c := c) hheight).imp
      fun _ u hu => (Or.inl ⟨hx, hplug ▸ hu⟩ : (x ∈ t.items ∧ Takes x s t u) ∨
        x ∉ t.items ∧ Rooted u t ∧ u.heap = s.heap ∧ u.deleted = s.deleted ∧
          u.baseRoot = s.baseRoot)
    obtain ⟨p, hl, hp⟩ := isTree_plug.mp (hplug ▸ h.tree)
    refine meets_ite (fun hc => ?_) fun hc => ?_
    · -- the root
      cases c with
      | nil => exact hdel
      | cons f c =>
        obtain ⟨e, he, hre⟩ := hl.root_mem (List.cons_ne_nil _ _)
        have hdist := h.distinct
        rw [← hplug, cells_plug] at hdist
        have hne := hdist.around.2 e he (b, x) (List.mem_append_right _ List.mem_cons_self)
        exact absurd (Option.some.inj (hc.trans hre)).symm hne
    · cases c with
      | nil => exact absurd (hl.trans hp.1).symm hc
      | cons f c =>
        cases f with
        | left a y k =>
          obtain ⟨rp, ha, -, -⟩ := hl
          have hxy : x < y := hbr.2 (a, y) List.mem_cons_self
          rw [trail, meets_bind, meets_treeNode (heap_of_branches ha)]
          dsimp only
          rw [if_pos hxy]
          exact hdel
        | right a y k =>
          obtain ⟨lp, ha, -, -⟩ := hl
          have hyx : y < x := hbr.1 (a, y) (List.mem_append_right _ (List.mem_singleton_self _))
          rw [trail, meets_bind, meets_treeNode (heap_of_branches ha)]
          dsimp only
          rw [if_neg hyx.not_gt]
          exact hdel

end Rooted

end VcmallocBench
