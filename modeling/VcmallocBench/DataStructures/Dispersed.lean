import VcmallocBench.DataStructures.UnorderedLinkedList
import VcmallocBench.DataStructures.OrderedLinkedList
import VcmallocBench.DataStructures.DoublyLinkedList
import VcmallocBench.DataStructures.QueueAndStack
import VcmallocBench.DataStructures.BinarySearchTree

/-! # The free loop of the dispersed benchmarks

One loop frees the nodes of seven structures: it follows the pointer that lies
eight bytes into a node. After increasing keys have been appended, these pointers
are a chain of all nodes.
-/

namespace VcmallocBench

/-- A field of a node: its item or a pointer. Each takes eight bytes. -/
inductive Field (α : Type)
  | info (x : α)
  | pointer (p : Ptr)

def pointerAt {α : Type} (offset : ℕ) (fields : List (Field α)) : Option Ptr :=
  match fields[offset / 8]? with
  | some (.pointer p) => some p
  | _ => none

/-- A structure of the benchmark: its nodes with their fields in declaration order, its objects, and
the calls that the benchmark makes. -/
structure Dispersed (α : Type) where
  NodeType : Type
  HeadType : Type
  fields : NodeType → List (Field α)
  nodes : HeadType → ℕ → Option NodeType
  new : HeadType
  perTypeAppend : ℕ → α → ℕ → EStateM Fault HeadType Unit
  returnFirst : HeadType → Ptr

namespace Dispersed

section Structures

variable {α : Type} [LinearOrder α]

def unorderedLinkedList : Dispersed α where
  NodeType := LinkedListNodeType α
  HeadType := LinkedObject (LinkedListNodeType α)
  fields n := [.info n.info, .pointer n.link]
  nodes := LinkedObject.heap
  new := .empty _
  perTypeAppend _ newItem addr := UnorderedLinkedList.insertLast newItem addr
  returnFirst := LinkedObject.first

def stackUnorderedLinkedList : Dispersed α where
  NodeType := LinkedListNodeType α
  HeadType := LinkedObject (LinkedListNodeType α)
  fields n := [.info n.info, .pointer n.link]
  nodes := LinkedObject.heap
  new := .empty _
  perTypeAppend _ newItem addr := StackUnorderedLinkedList.push newItem addr
  returnFirst := LinkedObject.first

def linkedQueueType : Dispersed α where
  NodeType := LinkedQueuesNodeType α
  HeadType := LinkedObject (LinkedQueuesNodeType α)
  fields n := [.info n.info, .pointer n.link]
  nodes := LinkedObject.heap
  new := .empty _
  perTypeAppend _ queueElement addr := LinkedQueueType.addQueue queueElement addr
  returnFirst := LinkedObject.first

def linkedStackType : Dispersed α where
  NodeType := LinkedStackNodeType α
  HeadType := LinkedObject (LinkedStackNodeType α)
  fields n := [.info n.info, .pointer n.link]
  nodes := LinkedObject.heap
  new := .empty _
  perTypeAppend _ newItem addr := LinkedStackType.push newItem addr
  returnFirst := LinkedObject.first

def orderedLinkedList : Dispersed α where
  NodeType := LinkedListNodeType α
  HeadType := LinkedObject (LinkedListNodeType α)
  fields n := [.info n.info, .pointer n.link]
  nodes := LinkedObject.heap
  new := .empty _
  perTypeAppend fuel newItem addr := OrderedLinkedList.insert fuel newItem addr
  returnFirst := LinkedObject.first

def doublyLinkedList : Dispersed α where
  NodeType := DoublyLinkedListNodeType α
  HeadType := LinkedObject (DoublyLinkedListNodeType α)
  fields n := [.info n.info, .pointer n.next, .pointer n.back]
  nodes := LinkedObject.heap
  new := .empty _
  perTypeAppend fuel insertItem addr := DoublyLinkedList.insert fuel insertItem addr
  returnFirst := LinkedObject.first

def bSearchTreeType : Dispersed α where
  NodeType := BinaryTreeNodeType α
  HeadType := TreeObject α
  fields n := [.info n.info, .pointer n.rLink, .pointer n.lLink]
  nodes := TreeObject.heap
  new := .empty α
  perTypeAppend fuel insertItem addr := BSearchTreeType.insert fuel insertItem addr
  returnFirst := TreeObject.root

def all : List (Dispersed α) :=
  [unorderedLinkedList, stackUnorderedLinkedList, linkedQueueType, linkedStackType,
    orderedLinkedList, doublyLinkedList, bSearchTreeType]

end Structures

/-- An access of the free loop to a node. -/
inductive Access
  | follow (node : ℕ)
  | free (node : ℕ)

structure Freeing (N : Type) where
  nodes : ℕ → Option N
  accesses : List Access

variable {α : Type} (d : Dispersed α)

/-- Appends the nodes, each with a key and an address, to a new object. -/
def build (fuel : ℕ) (keys : List (α × ℕ)) : EStateM Fault d.HeadType Unit :=
  keys.forM fun k => d.perTypeAppend fuel k.1 k.2

/-- `*(NodeType**)(((int*)to_delete) + 2)`. -/
def follow (toDelete : ℕ) : EStateM Fault (Freeing d.NodeType) Ptr := fun s =>
  match (s.nodes toDelete).bind fun n => pointerAt 8 (d.fields n) with
  | some p => .ok p { s with accesses := s.accesses ++ [.follow toDelete] }
  | none => .error .segv s

def free (toDelete : ℕ) : EStateM Fault (Freeing d.NodeType) Unit := fun s =>
  match s.nodes toDelete with
  | some _ => .ok () ⟨Function.update s.nodes toDelete none, s.accesses ++ [.free toDelete]⟩
  | none => .error .segv s

/-- `while (to_delete)`. The loop visits at most `fuel` nodes. -/
def freeLoop : ℕ → Ptr → EStateM Fault (Freeing d.NodeType) Unit
  | _, none => pure ()
  | 0, some _ => throw .diverge
  | fuel + 1, some toDelete => do
    let temp ← d.follow toDelete
    d.free toDelete
    freeLoop fuel temp

/-- The loop over the object that has been built follows and frees each node, in this order and once,
until it reaches null. -/
def FreesOnce (fuel : ℕ) (keys : List (α × ℕ)) : Prop :=
  ∃ s, ∃ order : List ℕ, ∃ t, d.build fuel keys d.new = .ok () s ∧
    order.Perm (keys.map Prod.snd) ∧ d.freeLoop fuel (d.returnFirst s) ⟨d.nodes s, []⟩ = .ok () t ∧
    t.accesses = order.flatMap (fun a => [.follow a, .free a]) ∧ ∀ k ∈ keys, t.nodes k.2 = none

variable {d}

theorem meets_freeLoop {view : d.NodeType → α × Ptr}
    (hview : ∀ n, pointerAt 8 (d.fields n) = some (view n).2)
    {E : Fault → Freeing d.NodeType → Prop} : ∀ {l : Cells α} {fuel : ℕ} {p : Ptr}
    {s : Freeing d.NodeType}, Segment (links view s.nodes) p l none → DistinctAddresses l →
    l.length ≤ fuel → Meets (d.freeLoop fuel p) s (fun _ t =>
      t.accesses = s.accesses ++ (l.map Prod.fst).flatMap (fun a => [.follow a, .free a]) ∧
      (∀ e ∈ l, t.nodes e.1 = none) ∧
      ∀ b, (∀ e ∈ l, e.1 ≠ b) → t.nodes b = s.nodes b) E := by
  intro l
  induction l with
  | nil =>
    rintro fuel p s h _ _
    obtain rfl := Segment.nil_iff.mp h
    rw [freeLoop]
    refine (meets_pure _).mpr ⟨?_, fun e he => absurd he List.not_mem_nil, fun b _ => rfl⟩
    simp
  | cons e l ih =>
    obtain ⟨a, x⟩ := e
    rintro (_ | fuel) p s h hd hf
    · exact absurd hf (Nat.not_succ_le_zero _)
    obtain ⟨rfl, r, hr, hl⟩ := h
    obtain ⟨n, hn, hv⟩ := exists_node_of_links hr
    obtain ⟨-, hne, hd'⟩ := hd.ne_front
    have hfollow : d.follow a s = .ok r { s with accesses := s.accesses ++ [.follow a] } := by
      unfold follow
      rw [hn, Option.bind_some, hview, hv]
    have hfree : d.free a { s with accesses := s.accesses ++ [.follow a] } =
        .ok () ⟨Function.update s.nodes a none, s.accesses ++ [.follow a] ++ [.free a]⟩ := by
      unfold free
      rw [hn]
    rw [freeLoop, meets_bind]
    refine meets_of_ok hfollow ?_
    rw [meets_bind]
    refine meets_of_ok hfree ?_
    have hkept : ∀ b, b ≠ a → Function.update s.nodes a none b = s.nodes b :=
      fun b hb => Function.update_of_ne hb ..
    refine (ih (s := ⟨Function.update s.nodes a none, s.accesses ++ [.follow a] ++ [.free a]⟩)
      (hl.congr fun e he => links_congr (hkept e.1 (hne e he))) hd' (Nat.le_of_succ_le_succ hf)).imp
        fun _ t ht => ?_
    obtain ⟨hacc, hgone, hout⟩ := ht
    refine ⟨?_, fun e he => ?_, fun b hb => ?_⟩
    · rw [hacc]
      simp
    · rcases List.mem_cons.mp he with rfl | he
      · exact (hout a hne).trans (Function.update_self ..)
      · exact hgone e he
    · rw [hout b fun e he => hb e (List.mem_cons_of_mem _ he)]
      exact hkept b (hb (a, x) List.mem_cons_self).symm

/-- What the appends of a structure keep: cells that the pointers at the offset of the loop chain
together. `Holds` relates an object to its cells. -/
structure Chained (d : Dispersed α) [LT α] (fuel : ℕ) (view : d.NodeType → α × Ptr)
    (Holds : d.HeadType → Cells α → Prop) : Prop where
  pointer : ∀ n, pointerAt 8 (d.fields n) = some (view n).2
  fresh : ∀ a, d.nodes d.new a = none
  new : Holds d.new []
  chain : ∀ {s l}, Holds s l → Segment (links view (d.nodes s)) (d.returnFirst s) l none
  append : ∀ {s l x a}, Holds s l → d.nodes s a = none → (∀ e ∈ l, e.2 < x) → l.length ≤ fuel →
    Meets (d.perTypeAppend fuel x a) s (fun _ t => ∃ l', Holds t l' ∧ l'.Perm ((a, x) :: l))
      fun _ _ => False
  creates : ∀ {x a}, Leads (OnlyNew d.nodes a) (d.perTypeAppend fuel x a)

namespace Chained

variable [Preorder α] {fuel : ℕ} {view : d.NodeType → α × Ptr}
  {Holds : d.HeadType → Cells α → Prop}

theorem meets_build (h : d.Chained fuel view Holds) : ∀ {keys : List (α × ℕ)} {s : d.HeadType}
    {l : Cells α}, Holds s l → (∀ k ∈ keys, d.nodes s k.2 = none) →
    (∀ k ∈ keys, ∀ e ∈ l, e.2 < k.1) → (keys.map Prod.fst).Pairwise (· < ·) →
    (keys.map Prod.snd).Nodup → l.length + keys.length ≤ fuel →
    Meets (d.build fuel keys) s (fun _ t => ∃ l', Holds t l' ∧
      l'.Perm (keys.map Prod.swap ++ l)) fun _ _ => False := by
  intro keys
  induction keys with
  | nil => exact fun hs _ _ _ _ _ => (meets_pure _).mpr ⟨_, hs, .refl _⟩
  | cons k keys ih =>
    obtain ⟨x, a⟩ := k
    intro s l hs hnew hlt hk ha hf
    rw [List.map_cons, List.pairwise_cons] at hk
    rw [List.map_cons, List.nodup_cons] at ha
    rw [List.length_cons] at hf
    have hstep := (h.append hs (hnew _ List.mem_cons_self) (hlt _ List.mem_cons_self)
      (Nat.le_of_add_right_le hf)).and (h.creates s)
    have hstep' : Meets (d.perTypeAppend fuel x a) s (fun _ t => (∃ l', Holds t l' ∧
        l'.Perm ((a, x) :: l)) ∧ OnlyNew d.nodes a s t) fun _ _ => False :=
      hstep.mono (fun _ _ ht => ht) fun _ _ he => he.1
    refine hstep'.bind fun _ t ht => ?_
    obtain ⟨⟨l', hl', hperm⟩, honly⟩ := ht
    have hlen : l'.length = l.length + 1 := hperm.length_eq
    refine (ih hl' (fun k hm => ?_) (fun k hm e he => ?_) hk.2 ha.2 (by omega)).imp
      fun _ u hu => ?_
    · refine honly k.2 ?_ (hnew k (List.mem_cons_of_mem _ hm))
      rintro rfl
      exact ha.1 (List.mem_map.mpr ⟨k, hm, rfl⟩)
    · rcases List.mem_cons.mp (hperm.mem_iff.mp he) with rfl | he
      · exact hk.1 _ (List.mem_map_of_mem hm)
      · exact hlt k (List.mem_cons_of_mem _ hm) e he
    · obtain ⟨l'', hl'', hperm'⟩ := hu
      refine ⟨l'', hl'', hperm'.trans ?_⟩
      exact (List.Perm.append_left _ hperm).trans List.perm_middle

theorem freesOnce (h : d.Chained fuel view Holds) {keys : List (α × ℕ)}
    (hk : (keys.map Prod.fst).Pairwise (· < ·)) (ha : (keys.map Prod.snd).Nodup)
    (hf : keys.length ≤ fuel) : d.FreesOnce fuel keys := by
  obtain ⟨_, s, hs, l, hl, hperm⟩ := (h.meets_build h.new (fun k _ => h.fresh k.2)
    (fun k _ e he => absurd he List.not_mem_nil) hk ha (by simpa using hf)).returns fun _ he => he
  rw [List.append_nil] at hperm
  have haddr : (l.map Prod.fst).Perm (keys.map Prod.snd) := by
    have hmap := hperm.map Prod.fst
    rwa [List.map_map] at hmap
  have hd : DistinctAddresses l := haddr.nodup_iff.mpr ha
  have hlen : l.length ≤ fuel := by
    have hmap := hperm.length_eq
    rw [List.length_map] at hmap
    exact hmap.trans_le hf
  obtain ⟨_, t, ht, hacc, hgone, -⟩ := (meets_freeLoop h.pointer (E := fun _ _ => False)
    (s := ⟨d.nodes s, []⟩) (h.chain hl) hd hlen).returns fun _ he => he
  refine ⟨s, l.map Prod.fst, t, hs, haddr, ht, hacc, fun k hm => ?_⟩
  obtain ⟨e, he, hek⟩ := List.mem_map.mp (haddr.mem_iff.mpr (List.mem_map_of_mem hm))
  rw [← hek]
  exact hgone e he

end Chained

section Instances

variable {α : Type} [LinearOrder α] (fuel : ℕ)

theorem chained_unorderedLinkedList :
    (unorderedLinkedList (α := α)).Chained fuel LinkedListNodeType.cell Holding where
  pointer _ := rfl
  fresh _ := rfl
  new := .empty
  chain h := h.chain
  append h ha _ _ := (h.meets_insertLast ha).imp fun _ _ ht => ⟨_, ht, List.perm_append_singleton _ _⟩
  creates := UnorderedLinkedList.creates_insertLast

theorem chained_stackUnorderedLinkedList :
    (stackUnorderedLinkedList (α := α)).Chained fuel LinkedListNodeType.cell Holding where
  pointer _ := rfl
  fresh _ := rfl
  new := .empty
  chain h := h.chain
  append h ha _ _ := (h.meets_insertFirst ha).imp fun _ _ ht => ⟨_, ht, .refl _⟩
  creates := UnorderedLinkedList.creates_insertFirst

theorem chained_linkedQueueType :
    (linkedQueueType (α := α)).Chained fuel LinkedQueuesNodeType.cell Queued where
  pointer _ := rfl
  fresh _ := rfl
  new := ⟨rfl, List.nodup_nil, rfl⟩
  chain h := h.chain
  append h ha _ _ := (h.meets_addQueue ha).imp fun _ _ ht => ⟨_, ht, List.perm_append_singleton _ _⟩
  creates := LinkedQueueType.creates_addQueue

theorem chained_linkedStackType :
    (linkedStackType (α := α)).Chained fuel LinkedStackNodeType.cell Stacked where
  pointer _ := rfl
  fresh _ := rfl
  new := ⟨rfl, List.nodup_nil⟩
  chain h := h.chain
  append h ha _ _ := (h.meets_push ha).imp fun _ _ ht => ⟨_, ht, .refl _⟩
  creates := LinkedStackType.creates_push

theorem chained_orderedLinkedList :
    (orderedLinkedList (α := α)).Chained fuel LinkedListNodeType.cell Holding where
  pointer _ := rfl
  fresh _ := rfl
  new := .empty
  chain h := h.chain
  append h ha _ hf := (h.meets_insert ha hf).imp fun _ _ ht => by
    obtain ⟨l', hl', -, hperm⟩ := ht
    exact ⟨l', hl', hperm⟩
  creates := OrderedLinkedList.creates_insert

theorem chained_doublyLinkedList : (doublyLinkedList (α := α)).Chained fuel
    DoublyLinkedListNodeType.nextCell DoublyHolding where
  pointer _ := rfl
  fresh _ := rfl
  new := .empty
  chain h := h.next
  append h ha _ hf := (h.meets_insert ha hf).imp fun _ _ ht => by
    obtain ⟨l', hl', -, hperm⟩ := ht
    exact ⟨l', hl', hperm⟩
  creates := DoublyLinkedList.creates_insert

def rightCell (n : BinaryTreeNodeType α) : α × Ptr := (n.info, n.rLink)

omit [LinearOrder α] in
theorem segment_of_spine {heap : ℕ → Option (BinaryTreeNodeType α)} {p : Ptr} {l : Cells α}
    (h : IsTree (branches heap) p (.spine l)) : Segment (links rightCell heap) p l none := by
  induction l generalizing p with
  | nil => exact h
  | cons e l ih =>
    obtain ⟨a, x⟩ := e
    obtain ⟨rfl, lp, rp, ha, -, hr⟩ := h
    exact ⟨rfl, rp, links_eq (heap_of_branches ha), ih hr⟩

theorem chained_bSearchTreeType : (bSearchTreeType (α := α)).Chained fuel rightCell
    fun s l => Rooted s (.spine l) where
  pointer _ := rfl
  fresh _ := rfl
  new := .empty
  chain h := segment_of_spine h.tree
  append {s l x a} h ha hlt hf := by
    have hitems : ∀ y ∈ (Tree.spine l).items, y < x := by
      intro y hy
      rw [Tree.items, Tree.cells_spine] at hy
      obtain ⟨e, he, rfl⟩ := List.mem_map.mp hy
      exact hlt e he
    have hheight : (Tree.spine l).height ≤ fuel := by
      refine (Tree.height_le_length _).trans ?_
      rw [Tree.addresses, Tree.cells_spine, List.length_map]
      exact hf
    refine (h.meets_insert ha hheight).imp fun _ t ht => ?_
    obtain ⟨-, -, ⟨hx, -⟩ | ⟨-, ht⟩⟩ := ht
    · exact absurd (hitems x hx) (lt_irrefl x)
    · rw [Tree.grown_of_lt a hitems, Tree.snoc_spine] at ht
      exact ⟨_, ht, List.perm_append_singleton _ _⟩
  creates := BSearchTreeType.createsNode_insert

end Instances

/-- After increasing keys have been appended at distinct addresses, the loop follows and frees every
node of each structure once. -/
theorem frees_appended [LinearOrder α] {fuel : ℕ} {keys : List (α × ℕ)}
    (hk : (keys.map Prod.fst).Pairwise (· < ·)) (ha : (keys.map Prod.snd).Nodup)
    (hf : keys.length ≤ fuel) : ∀ d ∈ all (α := α), d.FreesOnce fuel keys := by
  rw [all]
  simp only [List.forall_mem_cons]
  refine ⟨?_, ?_, ?_, ?_, ?_, ?_, ?_, fun _ hd => absurd hd List.not_mem_nil⟩
  · exact (chained_unorderedLinkedList fuel).freesOnce hk ha hf
  · exact (chained_stackUnorderedLinkedList fuel).freesOnce hk ha hf
  · exact (chained_linkedQueueType fuel).freesOnce hk ha hf
  · exact (chained_linkedStackType fuel).freesOnce hk ha hf
  · exact (chained_orderedLinkedList fuel).freesOnce hk ha hf
  · exact (chained_doublyLinkedList fuel).freesOnce hk ha hf
  · exact (chained_bSearchTreeType fuel).freesOnce hk ha hf

theorem frees_appended_three :
    (all (α := ℤ)).Forall (FreesOnce · 3 [(10, 100), (20, 300), (30, 200)]) :=
  List.forall_iff_forall_mem.2 (frees_appended (by decide) (by decide) (by decide))

end Dispersed

end VcmallocBench
