import VcmallocBench.Library.Trees
import VcmallocBench.DataStructures.LinkedObject

/-! # The base class of the binary trees

The base class has a root pointer of its own, and its traversals, its height and
its destructor start there. Each of them visits the tree that the pointer leads
to.
-/

namespace VcmallocBench

structure BinaryTreeNodeType (α : Type) where
  info : α
  rLink : Ptr
  lLink : Ptr

/-- What a tree prints: a message, or an item followed by a blank. -/
inductive Printed (α : Type)
  | message (text : String)
  | item (info : α)

/-- An object of the search tree class with the nodes that exist, what has been printed and the
addresses that have been deleted. The class and its base class both declare a root. -/
structure TreeObject (α : Type) where
  heap : ℕ → Option (BinaryTreeNodeType α)
  root : Ptr
  baseRoot : Ptr
  output : List (Printed α)
  deleted : List ℕ

abbrev TreeOp (α : Type) := EStateM Fault (TreeObject α)

def TreeObject.empty (α : Type) : TreeObject α where
  heap _ := none
  root := none
  baseRoot := none
  output := []
  deleted := []

/-- Where a pointer that is passed by reference is stored. -/
inductive Slot
  | root
  | baseRoot
  | lLink (node : ℕ)
  | rLink (node : ℕ)

variable {α : Type}

namespace TreeObject

def update (s : TreeObject α) (a : ℕ) (n : Option (BinaryTreeNodeType α)) : TreeObject α :=
  { s with heap := Function.update s.heap a n }

@[simp] theorem update_heap_self (s : TreeObject α) (a : ℕ) (n : Option (BinaryTreeNodeType α)) :
    (s.update a n).heap a = n := Function.update_self ..

theorem update_heap_of_ne (s : TreeObject α) {a b : ℕ} (n : Option (BinaryTreeNodeType α))
    (h : b ≠ a) : (s.update a n).heap b = s.heap b := Function.update_of_ne h ..

end TreeObject

def branches (heap : ℕ → Option (BinaryTreeNodeType α)) : Branches α :=
  fun a => (heap a).map fun n => (n.info, n.lLink, n.rLink)

theorem branches_eq {heap : ℕ → Option (BinaryTreeNodeType α)} {a : ℕ} {n : BinaryTreeNodeType α}
    (h : heap a = some n) : branches heap a = some (n.info, n.lLink, n.rLink) := by
  rw [branches, h, Option.map_some]

theorem heap_of_branches {heap : ℕ → Option (BinaryTreeNodeType α)} {a : ℕ} {x : α} {lp rp : Ptr}
    (h : branches heap a = some (x, lp, rp)) : heap a = some ⟨x, rp, lp⟩ := by
  obtain ⟨n, hn, he⟩ := Option.map_eq_some_iff.mp h
  cases he
  exact hn

theorem branches_congr {heap heap' : ℕ → Option (BinaryTreeNodeType α)} {a : ℕ}
    (h : heap' a = heap a) : branches heap' a = branches heap a := by
  rw [branches, branches, h]

section Primitives

def treeNode (p : Ptr) : TreeOp α (BinaryTreeNodeType α) := fun s =>
  match p.bind s.heap with
  | some n => .ok n s
  | none => .error .segv s

def createNode (a : ℕ) (n : BinaryTreeNodeType α) : TreeOp α Unit :=
  modify fun s => s.update a (some n)

def assignNode (p : Ptr) (f : BinaryTreeNodeType α → BinaryTreeNodeType α) : TreeOp α Unit := do
  let n ← treeNode p
  match p with
  | none => pure ()
  | some a => modify fun s => s.update a (some (f n))

/-- `delete` of a node that exists. -/
def freeNode (p : Ptr) : TreeOp α Unit := do
  match p with
  | none => pure ()
  | some a => do
    let _ ← treeNode p
    modify fun s => { s.update a none with deleted := s.deleted ++ [a] }

def printTree (p : Printed α) : TreeOp α Unit :=
  modify fun s => { s with output := s.output ++ [p] }

def readSlot : Slot → TreeOp α Ptr
  | .root => return (← get).root
  | .baseRoot => return (← get).baseRoot
  | .lLink a => return (← treeNode (some a)).lLink
  | .rLink a => return (← treeNode (some a)).rLink

def writeSlot (slot : Slot) (p : Ptr) : TreeOp α Unit :=
  match slot with
  | .root => modify ({ · with root := p })
  | .baseRoot => modify ({ · with baseRoot := p })
  | .lLink a => assignNode (some a) ({ · with lLink := p })
  | .rLink a => assignNode (some a) ({ · with rLink := p })

end Primitives

section Rules

variable {s : TreeObject α} {a : ℕ} {n : BinaryTreeNodeType α} {p : Ptr}
  {Q : BinaryTreeNodeType α → TreeObject α → Prop} {R : Unit → TreeObject α → Prop}
  {E : Fault → TreeObject α → Prop}

theorem meets_treeNode (h : s.heap a = some n) : Meets (treeNode (some a)) s Q E ↔ Q n s := by
  unfold Meets treeNode; rw [Option.bind_some, h]

@[simp] theorem meets_createNode :
    Meets (createNode a n) s R E ↔ R () (s.update a (some n)) := by
  rw [createNode, meets_modify]

theorem meets_assignNode {f : BinaryTreeNodeType α → BinaryTreeNodeType α} (h : s.heap a = some n) :
    Meets (assignNode (some a) f) s R E ↔ R () (s.update a (some (f n))) := by
  rw [assignNode, meets_bind, meets_treeNode h, meets_modify]

theorem meets_freeNode (h : s.heap a = some n) : Meets (freeNode (some a)) s R E ↔
    R () { s.update a none with deleted := s.deleted ++ [a] } := by
  rw [freeNode, meets_bind, meets_treeNode h, meets_modify]

@[simp] theorem meets_printTree {m : Printed α} :
    Meets (printTree m) s R E ↔ R () { s with output := s.output ++ [m] } := by
  rw [printTree, meets_modify]

end Rules

section Creates

variable {a : ℕ} {n : BinaryTreeNodeType α} {p : Ptr}

/-- An operation creates a node at one address only. -/
abbrev CreatesNode {β : Type} (a : ℕ) (p : TreeOp α β) : Prop := Leads (OnlyNew TreeObject.heap a) p

theorem createsNode_treeNode : CreatesNode a (treeNode (α := α) p) := by
  intro s
  unfold Meets treeNode
  split
  · rename_i h
    split at h <;> cases h
    exact refl_of (OnlyNew TreeObject.heap a) s
  · rename_i h
    split at h <;> cases h
    exact refl_of (OnlyNew TreeObject.heap a) s

theorem createsNode_createNode : CreatesNode a (createNode a n) :=
  .modify fun _ => onlyNew_update (fun h => absurd rfl h) rfl

theorem createsNode_assignNode {f : BinaryTreeNodeType α → BinaryTreeNodeType α} :
    CreatesNode a (assignNode p f) := by
  intro s
  cases p with
  | none => exact (meets_throw Fault.segv).mpr (refl_of (OnlyNew TreeObject.heap a) s)
  | some b =>
    cases hb : s.heap b with
    | none =>
      have herr : assignNode (some b) f s = .error .segv s := by
        rw [assignNode]
        show EStateM.bind _ _ _ = _
        unfold EStateM.bind treeNode
        rw [Option.bind_some, hb]
      unfold Meets
      rw [herr]
      exact refl_of (OnlyNew TreeObject.heap a) s
    | some n =>
      rw [meets_assignNode hb]
      refine onlyNew_update (fun _ hnone => ?_) rfl
      rw [hb] at hnone
      cases hnone

theorem createsNode_printTree {m : Printed α} : CreatesNode a (printTree m) :=
  .modify fun _ => onlyNew_of_eq rfl

end Creates

namespace BinaryTreeType

def isEmpty : TreeOp α Bool := return (← get).baseRoot.isNone

/-- The recursion goes at most `fuel` calls deep. -/
def inorder : ℕ → Ptr → TreeOp α Unit
  | 0, _ => throw .diverge
  | _ + 1, none => pure ()
  | fuel + 1, some a => do
    let n ← treeNode (some a)
    inorder fuel n.lLink
    printTree (.item n.info)
    inorder fuel n.rLink

def inorderTraversal (fuel : ℕ) : TreeOp α Unit := do
  inorder fuel (← get).baseRoot

/-- The recursion goes at most `fuel` calls deep. -/
def height : ℕ → Ptr → TreeOp α ℕ
  | 0, _ => throw .diverge
  | _ + 1, none => pure 0
  | fuel + 1, some a => do
    let n ← treeNode (some a)
    let l ← height fuel n.lLink
    let r ← height fuel n.rLink
    return 1 + max l r

def treeHeight (fuel : ℕ) : TreeOp α ℕ := do
  height fuel (← get).baseRoot

/-- The recursion goes at most `fuel` calls deep. -/
def destroy : ℕ → Slot → TreeOp α Unit
  | 0, _ => throw .diverge
  | fuel + 1, slot => do
    match ← readSlot slot with
    | none => pure ()
    | some a => do
      destroy fuel (.lLink a)
      destroy fuel (.rLink a)
      freeNode (some a)
      writeSlot slot none

def destructor (fuel : ℕ) : TreeOp α Unit := destroy fuel .baseRoot

end BinaryTreeType

section Traversals

variable {E : Fault → TreeObject α → Prop}

theorem meets_inorder {t : Tree α} : ∀ {fuel : ℕ} {p : Ptr} {s : TreeObject α},
    IsTree (branches s.heap) p t → t.height < fuel →
    Meets (BinaryTreeType.inorder fuel p) s
      (fun _ u => u = { s with output := s.output ++ t.items.map .item }) E := by
  induction t with
  | leaf =>
    rintro (_ | fuel) p s h hf
    · exact absurd hf (Nat.not_lt_zero _)
    obtain rfl := IsTree.leaf_iff.mp h
    rw [BinaryTreeType.inorder]
    refine (meets_pure _).mpr ?_
    simp [Tree.items]
  | node a x l r ihl ihr =>
    rintro (_ | fuel) p s h hf
    · exact absurd hf (Nat.not_lt_zero _)
    obtain ⟨rfl, lp, rp, ha, hl, hr⟩ := h
    rw [Tree.height] at hf
    rw [BinaryTreeType.inorder, meets_bind, meets_treeNode (heap_of_branches ha)]
    refine (ihl hl (by omega)).bind fun _ u hu => ?_
    subst hu
    rw [meets_bind, meets_printTree]
    refine (ihr (by exact hr) (by omega)).imp fun _ u hu => ?_
    subst hu
    simp [Tree.items]

theorem meets_height {t : Tree α} {s : TreeObject α} : ∀ {fuel : ℕ} {p : Ptr},
    IsTree (branches s.heap) p t → t.height < fuel →
    Meets (BinaryTreeType.height fuel p) s (fun v u => v = t.height ∧ u = s) E := by
  induction t with
  | leaf =>
    rintro (_ | fuel) p h hf
    · exact absurd hf (Nat.not_lt_zero _)
    obtain rfl := IsTree.leaf_iff.mp h
    rw [BinaryTreeType.height]
    exact (meets_pure _).mpr ⟨rfl, rfl⟩
  | node a x l r ihl ihr =>
    rintro (_ | fuel) p h hf
    · exact absurd hf (Nat.not_lt_zero _)
    obtain ⟨rfl, lp, rp, ha, hl, hr⟩ := h
    rw [Tree.height] at hf
    rw [BinaryTreeType.height, meets_bind, meets_treeNode (heap_of_branches ha)]
    refine (ihl hl (by omega)).bind fun _ u hu => ?_
    obtain ⟨rfl, rfl⟩ := hu
    refine (ihr hr (by omega)).bind fun _ u hu => ?_
    obtain ⟨rfl, rfl⟩ := hu
    exact (meets_pure _).mpr ⟨rfl, rfl⟩

end Traversals

section Destroy

variable {E : Fault → TreeObject α → Prop}

/-- The pointer that a slot holds; a link has a node. -/
def Slot.Holds (s : TreeObject α) (p : Ptr) : Slot → Prop
  | .root => s.root = p
  | .baseRoot => s.baseRoot = p
  | .lLink a => ∃ n, s.heap a = some n ∧ n.lLink = p
  | .rLink a => ∃ n, s.heap a = some n ∧ n.rLink = p

def Slot.owner : Slot → Option ℕ
  | .root => none
  | .baseRoot => none
  | .lLink a => some a
  | .rLink a => some a

def Slot.cleared (heap : ℕ → Option (BinaryTreeNodeType α)) : Slot → ℕ → Option (BinaryTreeNodeType α)
  | .root => heap
  | .baseRoot => heap
  | .lLink a => Function.update heap a ((heap a).map ({ · with lLink := none }))
  | .rLink a => Function.update heap a ((heap a).map ({ · with rLink := none }))

theorem Slot.cleared_of_ne {heap : ℕ → Option (BinaryTreeNodeType α)} {slot : Slot} {b : ℕ}
    (h : slot.owner ≠ some b) : slot.cleared heap b = heap b := by
  cases slot with
  | root => rfl
  | baseRoot => rfl
  | lLink a => exact Function.update_of_ne (fun hb => h (congrArg some hb.symm)) ..
  | rLink a => exact Function.update_of_ne (fun hb => h (congrArg some hb.symm)) ..

theorem meets_readSlot_holds {s : TreeObject α} {slot : Slot} {p : Ptr} (h : slot.Holds s p) :
    Meets (readSlot slot) s (fun v u => v = p ∧ u = s) E := by
  cases slot with
  | root =>
    rw [readSlot, meets_bind, meets_get]
    exact (meets_pure _).mpr ⟨h, rfl⟩
  | baseRoot =>
    rw [readSlot, meets_bind, meets_get]
    exact (meets_pure _).mpr ⟨h, rfl⟩
  | lLink a =>
    obtain ⟨n, hn, rfl⟩ := h
    rw [readSlot, meets_bind, meets_treeNode hn]
    exact (meets_pure _).mpr ⟨rfl, rfl⟩
  | rLink a =>
    obtain ⟨n, hn, rfl⟩ := h
    rw [readSlot, meets_bind, meets_treeNode hn]
    exact (meets_pure _).mpr ⟨rfl, rfl⟩

theorem Slot.cleared_congr {heap heap' : ℕ → Option (BinaryTreeNodeType α)} {slot : Slot} {b : ℕ}
    (h : heap' b = heap b) : slot.cleared heap' b = slot.cleared heap b := by
  cases slot with
  | root => exact h
  | baseRoot => exact h
  | lLink a =>
    rw [cleared, cleared, Function.update_apply, Function.update_apply]
    split
    case isTrue hb => rw [← hb, h]
    case isFalse => exact h
  | rLink a =>
    rw [cleared, cleared, Function.update_apply, Function.update_apply]
    split
    case isTrue hb => rw [← hb, h]
    case isFalse => exact h

theorem Slot.cleared_of_none {s : TreeObject α} {slot : Slot} (h : slot.Holds s none) :
    slot.cleared s.heap = s.heap := by
  cases slot with
  | root => rfl
  | baseRoot => rfl
  | lLink a =>
    obtain ⟨⟨x, rp, lp⟩, hn, rfl⟩ := h
    rw [cleared, hn, Option.map_some, ← hn, Function.update_eq_self]
  | rLink a =>
    obtain ⟨⟨x, rp, lp⟩, hn, rfl⟩ := h
    rw [cleared, hn, Option.map_some, ← hn, Function.update_eq_self]

theorem Slot.Holds.live {s : TreeObject α} {slot : Slot} {p : Ptr} (h : slot.Holds s p) :
    ∀ b, slot.owner = some b → s.heap b ≠ none := by
  cases slot with
  | root => exact fun b hb => absurd hb.symm (Option.some_ne_none b)
  | baseRoot => exact fun b hb => absurd hb.symm (Option.some_ne_none b)
  | lLink a =>
    obtain ⟨n, hn, -⟩ := h
    rintro b hb
    obtain rfl := Option.some.inj hb
    rw [hn]
    exact Option.some_ne_none n
  | rLink a =>
    obtain ⟨n, hn, -⟩ := h
    rintro b hb
    obtain rfl := Option.some.inj hb
    rw [hn]
    exact Option.some_ne_none n

theorem meets_clear {s : TreeObject α} {slot : Slot}
    (h : ∀ b, slot.owner = some b → s.heap b ≠ none) : Meets (writeSlot slot none) s
      (fun _ u => u.heap = slot.cleared s.heap ∧ u.deleted = s.deleted) E := by
  cases slot with
  | root =>
    rw [writeSlot, meets_modify]
    exact ⟨rfl, rfl⟩
  | baseRoot =>
    rw [writeSlot, meets_modify]
    exact ⟨rfl, rfl⟩
  | lLink a =>
    obtain ⟨n, hn⟩ := Option.ne_none_iff_exists'.mp (h a rfl)
    rw [writeSlot, meets_assignNode hn, Slot.cleared, hn]
    exact ⟨rfl, rfl⟩
  | rLink a =>
    obtain ⟨n, hn⟩ := Option.ne_none_iff_exists'.mp (h a rfl)
    rw [writeSlot, meets_assignNode hn, Slot.cleared, hn]
    exact ⟨rfl, rfl⟩

/-- Every node of the tree is deleted, once, and the slot becomes null. -/
theorem meets_destroy {t : Tree α} : ∀ {fuel : ℕ} {slot : Slot} {p : Ptr} {s : TreeObject α},
    slot.Holds s p → IsTree (branches s.heap) p t → DistinctAddresses t.cells →
    (∀ e ∈ t.cells, slot.owner ≠ some e.1) → t.height < fuel →
    Meets (BinaryTreeType.destroy fuel slot) s (fun _ u =>
      (∀ e ∈ t.cells, u.heap e.1 = none) ∧
      (∀ b, (∀ e ∈ t.cells, e.1 ≠ b) → u.heap b = slot.cleared s.heap b) ∧
      ∃ l, u.deleted = s.deleted ++ l ∧ l.Perm t.addresses) E := by
  induction t with
  | leaf =>
    rintro (_ | fuel) slot p s hp h _ _ hf
    · exact absurd hf (Nat.not_lt_zero _)
    obtain rfl := IsTree.leaf_iff.mp h
    rw [BinaryTreeType.destroy]
    refine (meets_readSlot_holds hp).bind fun v u hv => ?_
    obtain ⟨rfl, rfl⟩ := hv
    refine (meets_pure _).mpr ⟨fun e he => absurd he List.not_mem_nil, fun b _ => ?_, [], ?_, .nil⟩
    · rw [Slot.cleared_of_none hp]
    · rw [List.append_nil]
  | node a x l r ihl ihr =>
    rintro (_ | fuel) slot p s hp h hd hslot hf
    · exact absurd hf (Nat.not_lt_zero _)
    obtain ⟨rfl, lp, rp, ha, hl, hr⟩ := h
    have hn := heap_of_branches ha
    rw [Tree.height] at hf
    rw [Tree.cells_node] at hd hslot
    obtain ⟨hla, hra, hlr⟩ := DistinctAddresses.ne hd
    have hrl : ∀ e ∈ r.cells, ∀ d ∈ l.cells, d.1 ≠ e.1 := by
      rintro e he d hd hde
      rw [DistinctAddresses, List.map_append, List.nodup_append] at hlr
      exact hlr.2.2 _ (List.mem_map_of_mem hd) _ (List.mem_map_of_mem he) hde
    have hdr : DistinctAddresses r.cells := by
      rw [DistinctAddresses, List.map_append, List.nodup_append] at hlr
      exact hlr.2.1
    rw [BinaryTreeType.destroy]
    refine (meets_readSlot_holds hp).bind fun v u hv => ?_
    obtain ⟨rfl, hu⟩ := hv
    rw [hu]
    -- the left subtree
    have hleft : Slot.Holds s lp (.lLink a) := ⟨_, hn, rfl⟩
    refine (ihl hleft hl hlr.left
      (fun e he hc => hla e he (Option.some.inj hc).symm) (by omega)).bind fun _ u₁ hu₁ => ?_
    obtain ⟨hgone₁, hkept₁, l₁, hdel₁, hperm₁⟩ := hu₁
    have hout₁ : ∀ b, (∀ e ∈ l.cells, e.1 ≠ b) → b ≠ a → u₁.heap b = s.heap b := fun b hb hba =>
      (hkept₁ b hb).trans (Slot.cleared_of_ne fun hc => hba (Option.some.inj hc).symm)
    have hn₁ : u₁.heap a = some ⟨x, rp, none⟩ := by
      rw [hkept₁ a hla, Slot.cleared, Function.update_self, hn]
      rfl
    have hr₁ : IsTree (branches u₁.heap) rp r :=
      hr.congr fun e he => branches_congr (hout₁ e.1 (hrl e he) (hra e he))
    -- the right subtree
    have hright : Slot.Holds u₁ rp (.rLink a) := ⟨_, hn₁, rfl⟩
    refine (ihr hright hr₁ hdr
      (fun e he hc => hra e he (Option.some.inj hc).symm) (by omega)).bind fun _ u₂ hu₂ => ?_
    obtain ⟨hgone₂, hkept₂, l₂, hdel₂, hperm₂⟩ := hu₂
    have hout₂ : ∀ b, (∀ e ∈ r.cells, e.1 ≠ b) → b ≠ a → u₂.heap b = u₁.heap b := fun b hb hba =>
      (hkept₂ b hb).trans (Slot.cleared_of_ne fun hc => hba (Option.some.inj hc).symm)
    have hn₂ : u₂.heap a = some ⟨x, none, none⟩ := by
      rw [hkept₂ a hra, Slot.cleared, Function.update_self, hn₁]
      rfl
    have hout : ∀ b, (∀ e ∈ l.cells ++ (a, x) :: r.cells, e.1 ≠ b) →
        (u₂.update a none).heap b = s.heap b := by
      intro b hb
      have hba : b ≠ a := (hb (a, x) (List.mem_append_right _ List.mem_cons_self)).symm
      rw [u₂.update_heap_of_ne none hba, hout₂ b (fun e he => hb e (List.mem_append_right _
        (List.mem_cons_of_mem _ he))) hba, hout₁ b (fun e he => hb e (List.mem_append_left _ he)) hba]
    rw [meets_bind, meets_freeNode hn₂]
    refine (meets_clear fun b hb => ?_).imp fun _ u₃ hu₃ => ?_
    · have hbt : ∀ e ∈ l.cells ++ (a, x) :: r.cells, e.1 ≠ b := by
        rintro e he rfl
        exact hslot e he hb
      exact (hout b hbt).trans_ne (hp.live b hb)
    obtain ⟨hheap, hdel⟩ := hu₃
    have hcleared : ∀ b, u₃.heap b = slot.cleared (u₂.update a none).heap b := fun b => congrFun hheap b
    refine ⟨fun e he => ?_, fun b hb => ?_, l₁ ++ l₂ ++ [a], ?_, ?_⟩
    · rw [hcleared, Slot.cleared_of_ne (hslot e he)]
      rcases List.mem_append.mp he with he | he
      · rw [u₂.update_heap_of_ne none (hla e he), hout₂ e.1 (fun d hd hc => hrl d hd e he hc.symm)
          (hla e he), hgone₁ e he]
      rcases List.mem_cons.mp he with rfl | he
      · exact u₂.update_heap_self a none
      · rw [u₂.update_heap_of_ne none (hra e he), hgone₂ e he]
    · rw [hcleared]
      exact Slot.cleared_congr (hout b hb)
    · rw [hdel, hdel₂, hdel₁]
      simp
    · rw [Tree.addresses, Tree.cells_node, List.map_append, List.map_cons]
      refine (List.perm_append_singleton a (l₁ ++ l₂)).trans ?_
      exact (List.Perm.cons a (hperm₁.append hperm₂)).trans List.perm_middle.symm

end Destroy

end VcmallocBench
