import VcmallocBench.DataStructures.BinarySearchTree

/-! # Runs of a search tree

From a null root, insertions and deletions leave a search tree of the keys that
the same operations on a finite set give. The base class has its own root, which
no operation of the search tree writes.
-/

namespace VcmallocBench

variable {α : Type} [LinearOrder α]

/-- A call on a tree. The two forms of `insert` differ in where the address comes from. -/
inductive TreeCall (α : Type)
  | insert (item : α) (newNode : ℕ)
  | deleteNode (item : α)

/-- Calls on a tree from the value-initialised one, the object after them, the set that the same
insertions and deletions give, and the addresses of the nodes that have been put into the tree. -/
inductive TreeRun (fuel : ℕ) : List (TreeCall α) → TreeObject α → Finset α → List ℕ → Prop
  | empty : TreeRun fuel [] (.empty α) ∅ []
  | insert {calls s keys linked u} {x : α} {a : ℕ} : TreeRun fuel calls s keys linked →
      s.heap a = none → BSearchTreeType.insert fuel x a s = .ok () u →
      TreeRun fuel (calls ++ [.insert x a]) u (insert x keys)
        (if x ∈ keys then linked else linked ++ [a])
  | deleteNode {calls s keys linked u} {x : α} : TreeRun fuel calls s keys linked →
      BSearchTreeType.deleteNode fuel x s = .ok () u →
      TreeRun fuel (calls ++ [.deleteNode x]) u (keys.erase x) linked

namespace TreeRun

variable {fuel : ℕ} {calls : List (TreeCall α)} {s : TreeObject α} {keys : Finset α}
  {linked : List ℕ}

/-- The tree of a run has the keys of the run, every node that was put into it is in it or has been
deleted once, and the root of the base class is null. -/
theorem rooted (h : TreeRun fuel calls s keys linked) (hf : calls.length ≤ fuel) :
    ∃ t, Rooted s t ∧ (∀ x, x ∈ t.items ↔ x ∈ keys) ∧
      (∀ a, linked.count a = s.deleted.count a + t.addresses.count a) ∧
      t.addresses.length ≤ calls.length ∧ s.baseRoot = none := by
  induction h with
  | empty =>
    exact ⟨.leaf, .empty, fun x => iff_of_false List.not_mem_nil (Finset.notMem_empty x),
      fun a => rfl, le_rfl, rfl⟩
  | @insert calls s keys linked u x a hr ha hu ih =>
    rw [List.length_append, List.length_singleton] at hf ⊢
    obtain ⟨t, ht, hk, hc, hlen, hb⟩ := ih (Nat.le_of_succ_le hf)
    have hheight : t.height ≤ fuel := t.height_le_length.trans (hlen.trans (Nat.le_of_succ_le hf))
    obtain ⟨hbase, hdel, hcase⟩ := (ht.meets_insert (E := fun _ _ => True) ha hheight).of_ok hu
    rcases hcase with ⟨hx, hut⟩ | ⟨hx, hut⟩
    · have hx' := (hk x).mp hx
      rw [if_pos hx', Finset.insert_eq_of_mem hx']
      refine ⟨t, hut, hk, fun b => ?_, Nat.le_succ_of_le hlen, hbase.trans hb⟩
      rw [hdel]
      exact hc b
    · rw [if_neg fun hx' => hx ((hk x).mpr hx')]
      obtain ⟨hit, hat⟩ := Tree.grown_items a hx
      refine ⟨_, hut, fun y => ?_, fun b => ?_, ?_, hbase.trans hb⟩
      · rw [hit, hk, Finset.mem_insert]
      · rw [hdel, hat.count_eq, List.count_append, hc, List.count_cons, List.count_cons]
        rw [List.count_nil]
        omega
      · rw [hat.length_eq, List.length_cons]
        exact Nat.succ_le_succ hlen
  | @deleteNode calls s keys linked u x hr hu ih =>
    rw [List.length_append, List.length_singleton] at hf ⊢
    obtain ⟨t, ht, hk, hc, hlen, hb⟩ := ih (Nat.le_of_succ_le hf)
    have hheight : t.height ≤ fuel := t.height_le_length.trans (hlen.trans (Nat.le_of_succ_le hf))
    rcases (ht.meets_deleteNode (E := fun _ _ => True) hheight).of_ok hu with
      ⟨-, t', b, hut, hit, hat, -, hdel, hbase⟩ | ⟨hx, hut, -, hdel, hbase⟩
    · refine ⟨t', hut, fun y => ?_, fun c => ?_, ?_, hbase.trans hb⟩
      · rw [hit, hk, Finset.mem_erase]
      · have hcount := hat.count_eq c
        rw [List.count_cons] at hcount
        rw [hdel, List.count_append, List.count_singleton, hc]
        omega
      · have hl := hat.length_eq
        rw [List.length_cons] at hl
        omega
    · rw [Finset.erase_eq_of_notMem fun hx' => hx ((hk x).mpr hx')]
      refine ⟨t, hut, hk, fun c => ?_, Nat.le_succ_of_le hlen, hbase.trans hb⟩
      rw [hdel]
      exact hc c

/-- The tree is a finite set. The root leads to a search tree of the keys. A node that was put into
the tree is in it or has been deleted, once. A search finds the members, an insertion returns, and a
deletion returns after it has taken out and deleted one node of the tree when the key is a member
and none otherwise. -/
theorem implements (h : TreeRun fuel calls s keys linked) (hf : calls.length ≤ fuel) :
    ∃ t, (IsTree (branches s.heap) s.root t ∧ t.Ordered ∧ DistinctAddresses t.cells ∧
        (∀ x, x ∈ t.items ↔ x ∈ keys) ∧
        ∀ a, linked.count a = s.deleted.count a + if a ∈ t.addresses then 1 else 0) ∧
      (∀ x, ∃ u, BSearchTreeType.search fuel x s = .ok (decide (x ∈ keys)) u ∧
        u.heap = s.heap ∧ u.root = s.root) ∧
      (∀ x a, s.heap a = none → ∃ u, BSearchTreeType.insert fuel x a s = .ok () u) ∧
      ∀ x, ∃ u, BSearchTreeType.deleteNode fuel x s = .ok () u ∧
        (x ∈ keys → ∃ t' b, IsTree (branches u.heap) u.root t' ∧
          (b :: t'.addresses).Perm t.addresses ∧ u.heap b = none ∧
          u.deleted = s.deleted ++ [b]) ∧
        (x ∉ keys → u.heap = s.heap ∧ u.deleted = s.deleted) := by
  obtain ⟨t, ht, hk, hc, hlen, -⟩ := h.rooted hf
  have hheight : t.height ≤ fuel := t.height_le_length.trans (hlen.trans hf)
  refine ⟨t, ⟨ht.tree, ht.ordered, ht.distinct, hk, fun a => ?_⟩, fun x => ?_, fun x a ha => ?_,
    fun x => ?_⟩
  · have hcount : t.addresses.count a = if a ∈ t.addresses then 1 else 0 :=
      List.Nodup.count ht.distinct
    rw [hc, hcount]
  · obtain ⟨v, u, hu, hv, hheap, hroot⟩ :=
      (ht.meets_search (x := x) (E := fun _ _ => False) hheight).returns fun _ he => he
    rw [hk] at hv
    refine ⟨u, ?_, hheap, hroot⟩
    rw [hu, ← Bool.eq_iff_iff.mpr (hv.trans decide_eq_true_iff.symm)]
  · obtain ⟨_, u, hu, -⟩ :=
      (ht.meets_insert (x := x) (E := fun _ _ => False) ha hheight).returns fun _ he => he
    exact ⟨u, hu⟩
  · obtain ⟨_, u, hu, hcase⟩ :=
      (ht.meets_deleteNode (x := x) (E := fun _ _ => False) hheight).returns fun _ he => he
    refine ⟨u, hu, fun hx => ?_, fun hx => ?_⟩
    · rcases hcase with ⟨-, t', b, hut, -, hat, hb, hdel, -⟩ | ⟨hx', -⟩
      · exact ⟨t', b, hut.tree, hat, hb, hdel⟩
      · exact absurd ((hk x).mpr hx) hx'
    · rcases hcase with ⟨hx', -⟩ | ⟨-, -, hheap, hdel, -⟩
      · exact absurd ((hk x).mp hx') hx
      · exact ⟨hheap, hdel⟩

theorem implements_two : ∃ s, TreeRun 3 [.insert (5 : ℤ) 16, .insert 7 32, .deleteNode 5] s
      ((Insert.insert 7 (Insert.insert 5 ∅) : Finset ℤ).erase 5) [16, 32] ∧
    ∃ t, IsTree (branches s.heap) s.root t ∧ t.Ordered ∧ s.deleted = [16] := by
  let s₁ := endState (BSearchTreeType.insert 3 (5 : ℤ) 16 (.empty ℤ))
  let s₂ := endState (BSearchTreeType.insert 3 (7 : ℤ) 32 s₁)
  let s₃ := endState (BSearchTreeType.deleteNode 3 (5 : ℤ) s₂)
  have h₁ : TreeRun 3 [.insert (5 : ℤ) 16] s₁ (Insert.insert 5 ∅) [16] :=
    .insert .empty rfl (eq_ok_of_returned (by decide))
  have h₂ : TreeRun 3 [.insert (5 : ℤ) 16, .insert 7 32] s₂ (Insert.insert 7 (Insert.insert 5 ∅)) [16, 32] :=
    .insert h₁ rfl (eq_ok_of_returned (by decide))
  have h₃ : TreeRun 3 [.insert (5 : ℤ) 16, .insert 7 32, .deleteNode 5] s₃
      ((Insert.insert 7 (Insert.insert 5 ∅) : Finset ℤ).erase 5) [16, 32] :=
    .deleteNode h₂ (eq_ok_of_returned (by decide))
  obtain ⟨t, ⟨ht, hord, -⟩, -⟩ := implements h₃ le_rfl
  exact ⟨s₃, h₃, t, ht, hord, by decide⟩

end TreeRun

/-- What the base class does on the object agrees with the tree and its keys: `isEmpty` tells whether
there are keys, the traversal prints them in increasing order, the height is that of the tree, and
the destructor deletes each of its nodes once. -/
structure BaseAgrees (fuel : ℕ) (s : TreeObject α) (keys : Finset α) : Prop where
  isEmpty : BinaryTreeType.isEmpty s = .ok (decide (keys = ∅)) s
  inorder : ∃ u, BinaryTreeType.inorderTraversal fuel s = .ok () u ∧
    u.output = s.output ++ (keys.sort (· ≤ ·)).map .item
  height : ∃ t, IsTree (branches s.heap) s.root t ∧
    BinaryTreeType.treeHeight fuel s = .ok t.height s
  destructor : ∃ t u deleted, IsTree (branches s.heap) s.root t ∧
    BinaryTreeType.destructor fuel s = .ok () u ∧ u.deleted = s.deleted ++ deleted ∧
    deleted.Perm t.addresses

namespace TreeRun

variable {fuel : ℕ} {calls : List (TreeCall α)} {s : TreeObject α} {keys : Finset α}
  {linked : List ℕ}

/-- The base class agrees with the tree exactly as long as it is empty. -/
theorem baseAgrees_iff (h : TreeRun fuel calls s keys linked) (hf : calls.length < fuel) :
    BaseAgrees fuel s keys ↔ keys = ∅ := by
  obtain ⟨t, ht, hk, -, -, hb⟩ := h.rooted hf.le
  obtain ⟨fuel, rfl⟩ : ∃ n, fuel = n + 1 := ⟨fuel - 1, by omega⟩
  have hempty : BinaryTreeType.isEmpty s = .ok true s := by
    change EStateM.Result.ok s.baseRoot.isNone s = _
    rw [hb, Option.isNone_none]
  constructor
  · rintro ⟨hdec, -, -, -⟩
    rw [hempty] at hdec
    injection hdec with hdec
    exact of_decide_eq_true hdec.symm
  · rintro rfl
    have hleaf : t = .leaf := by
      cases t with
      | leaf => rfl
      | node a x l r =>
        refine absurd ((hk x).mp ?_) (Finset.notMem_empty x)
        simp [Tree.items]
    subst hleaf
    have hbase : IsTree (branches s.heap) s.baseRoot .leaf := hb
    refine ⟨?_, ?_, ⟨.leaf, ht.tree, ?_⟩, ?_⟩
    · rw [hempty, decide_eq_true rfl]
    · obtain ⟨_, u, hu, rfl⟩ := (meets_inorder (E := fun _ _ => False) hbase
        (Nat.succ_pos fuel)).returns fun _ he => he
      refine ⟨_, hu, ?_⟩
      rw [Finset.sort_empty]
      rfl
    · obtain ⟨_, u, hu, rfl, rfl⟩ := (meets_height (E := fun _ _ => False) hbase
        (Nat.succ_pos fuel)).returns fun _ he => he
      exact hu
    · have hslot : Slot.Holds s s.baseRoot .baseRoot := rfl
      obtain ⟨_, u, hu, -, -, l, hdel, hperm⟩ := (meets_destroy (E := fun _ _ => False) hslot hbase
        List.nodup_nil (fun _ he => absurd he List.not_mem_nil)
          (Nat.succ_pos fuel)).returns fun _ he => he
      exact ⟨.leaf, u, l, ht.tree, hu, hdel, hperm⟩

theorem baseAgrees_two : ∃ s, TreeRun 3 [.insert (5 : ℤ) 16, .deleteNode 5] s
    ((Insert.insert 5 ∅ : Finset ℤ).erase 5) [16] ∧
      BaseAgrees 3 s ((Insert.insert 5 ∅ : Finset ℤ).erase 5) := by
  let s₁ := endState (BSearchTreeType.insert 3 (5 : ℤ) 16 (.empty ℤ))
  let s₂ := endState (BSearchTreeType.deleteNode 3 (5 : ℤ) s₁)
  have h₁ : TreeRun 3 [.insert (5 : ℤ) 16] s₁ (Insert.insert 5 ∅) [16] :=
    .insert .empty rfl (eq_ok_of_returned (by decide))
  have h₂ : TreeRun 3 [.insert (5 : ℤ) 16, .deleteNode 5] s₂
      ((Insert.insert 5 ∅ : Finset ℤ).erase 5) [16] :=
    .deleteNode h₁ (eq_ok_of_returned (by decide))
  exact ⟨s₂, h₂, (baseAgrees_iff h₂ (by decide)).mpr (by decide)⟩

/-- After one insertion the base class still says that the tree is empty. -/
theorem not_baseAgrees_one : ¬ ∀ (calls : List (TreeCall ℤ)) s keys linked,
    TreeRun 3 calls s keys linked → calls.length < 3 → BaseAgrees 3 s keys := by
  rintro h
  let s₁ := endState (BSearchTreeType.insert 3 (5 : ℤ) 16 (.empty ℤ))
  have h₁ : TreeRun 3 [.insert (5 : ℤ) 16] s₁ (Insert.insert 5 ∅) [16] :=
    .insert .empty rfl (eq_ok_of_returned (by decide))
  have hempty := (h _ _ _ _ h₁ (by decide)).isEmpty
  have htrue : value? (BinaryTreeType.isEmpty s₁) = some true := by decide
  rw [hempty] at htrue
  exact absurd htrue (by decide)

end TreeRun

end VcmallocBench
