import VcmallocBench.Library.Chains
import VcmallocBench.HyperContainer.Search

/-! # Linked objects

The list classes keep their nodes at addresses of the heap and, in the object,
pointers to the first and the last one and a count. An access through a null
pointer or to a deleted node fails. A new node is created at the address that
`new` returns, or at the one passed to the placement form.
-/

namespace VcmallocBench

/-- A pointer to a node, which may be null. -/
abbrev Ptr := Option ℕ

/-- A list object with the nodes that exist and what has been printed. The count is an `int` in the
source; more than `2 ^ 31 - 1` nodes are not covered. -/
structure LinkedObject (N : Type) where
  heap : ℕ → Option N
  first : Ptr
  last : Ptr
  count : ℤ
  output : List String

/-- An operation of a list class. -/
abbrev ListOp (N : Type) := EStateM Fault (LinkedObject N)

def LinkedObject.empty (N : Type) : LinkedObject N where
  heap _ := none
  first := none
  last := none
  count := 0
  output := []

namespace LinkedObject

variable {N : Type}

def update (s : LinkedObject N) (a : ℕ) (n : Option N) : LinkedObject N :=
  { s with heap := Function.update s.heap a n }

@[simp] theorem update_heap_self (s : LinkedObject N) (a : ℕ) (n : Option N) :
    (s.update a n).heap a = n := Function.update_self ..

theorem update_heap_of_ne (s : LinkedObject N) {a b : ℕ} (n : Option N) (h : b ≠ a) :
    (s.update a n).heap b = s.heap b := Function.update_of_ne h ..

@[simp] theorem update_idem (s : LinkedObject N) (a : ℕ) (n m : Option N) :
    (s.update a n).update a m = s.update a m := by
  rw [update, update, update, Function.update_idem]

end LinkedObject

section Links

variable {N α : Type} {view : N → α × Ptr} {heap heap' : ℕ → Option N} {a : ℕ} {n : N}

/-- What the nodes of a heap show through a view of an item and a pointer. -/
def links (view : N → α × Ptr) (heap : ℕ → Option N) : Links α := fun a => (heap a).map view

theorem links_eq (h : heap a = some n) : links view heap a = some (view n) := by
  rw [links, h, Option.map_some]

theorem exists_node_of_links {v : α × Ptr} (h : links view heap a = some v) :
    ∃ n, heap a = some n ∧ view n = v := Option.map_eq_some_iff.mp h

theorem links_congr (h : heap' a = heap a) : links view heap' a = links view heap a := by
  rw [links, links, h]

/-- The nodes of a chain exist, so that a new one is none of them. -/
theorem Segment.ne_fresh {p q : Ptr} {l : Cells α} (h : Segment (links view heap) p l q)
    (ha : heap a = none) : ∀ e ∈ l, e.1 ≠ a := by
  rintro e he rfl
  obtain ⟨r, hr⟩ := h.mem he
  obtain ⟨n, hn, -⟩ := exists_node_of_links hr
  rw [ha] at hn
  cases hn

end Links

section Primitives

variable {N : Type}

def node (p : Ptr) : ListOp N N := fun s =>
  match p.bind s.heap with
  | some n => .ok n s
  | none => .error .segv s

def create (a : ℕ) (n : N) : ListOp N Unit := modify fun s => s.update a (some n)

def assign (p : Ptr) (f : N → N) : ListOp N Unit := fun s =>
  match p with
  | none => .error .segv s
  | some a =>
    match s.heap a with
    | none => .error .segv s
    | some n => .ok () (s.update a (some (f n)))

def delete (p : Ptr) : ListOp N Unit := fun s =>
  match p with
  | none => .ok () s
  | some a =>
    match s.heap a with
    | none => .error .segv s
    | some _ => .ok () (s.update a none)

def print (message : String) : ListOp N Unit :=
  modify fun s => { s with output := s.output ++ [message] }

def setFirst (p : Ptr) : ListOp N Unit := modify ({ · with first := p })

def setLast (p : Ptr) : ListOp N Unit := modify ({ · with last := p })

def addCount (n : ℤ) : ListOp N Unit := modify fun s => { s with count := s.count + n }

end Primitives

section Rules

variable {N : Type} {s : LinkedObject N} {a : ℕ} {n : N} {Q : N → LinkedObject N → Prop}
  {R : Unit → LinkedObject N → Prop} {E : Fault → LinkedObject N → Prop}

theorem meets_node (h : s.heap a = some n) : Meets (node (some a)) s Q E ↔ Q n s := by
  unfold Meets node; rw [Option.bind_some, h]

@[simp] theorem meets_create : Meets (create a n) s R E ↔ R () (s.update a (some n)) := by
  rw [create, meets_modify]

theorem meets_assign {f : N → N} (h : s.heap a = some n) :
    Meets (assign (some a) f) s R E ↔ R () (s.update a (some (f n))) := by
  unfold Meets assign; dsimp only; rw [h]

theorem meets_delete (h : s.heap a = some n) :
    Meets (delete (some a)) s R E ↔ R () (s.update a none) := by
  unfold Meets delete; dsimp only; rw [h]

@[simp] theorem meets_print {message : String} :
    Meets (print message) s R E ↔ R () { s with output := s.output ++ [message] } := by
  rw [print, meets_modify]

@[simp] theorem meets_setFirst {p : Ptr} : Meets (setFirst p) s R E ↔ R () { s with first := p } := by
  rw [setFirst, meets_modify]

@[simp] theorem meets_setLast {p : Ptr} : Meets (setLast p) s R E ↔ R () { s with last := p } := by
  rw [setLast, meets_modify]

@[simp] theorem meets_addCount {k : ℤ} :
    Meets (addCount k) s R E ↔ R () { s with count := s.count + k } := by
  rw [addCount, meets_modify]

end Rules

section OnlyNew

variable {σ N : Type} {heap : σ → ℕ → Option N} {a : ℕ}

/-- No node is created at another address. -/
def OnlyNew (heap : σ → ℕ → Option N) (a : ℕ) (s t : σ) : Prop :=
  ∀ b, b ≠ a → heap s b = none → heap t b = none

instance : Std.Refl (OnlyNew heap a) := ⟨fun _ _ _ h => h⟩

instance : IsTrans σ (OnlyNew heap a) := ⟨fun _ _ _ h h' b hb hs => h' b hb (h b hb hs)⟩

/-- Changing nodes that exist creates none. -/
theorem onlyNew_update {s t : σ} {b : ℕ} {n : Option N} (hs : b ≠ a → heap s b ≠ none)
    (ht : heap t = Function.update (heap s) b n) : OnlyNew heap a s t := by
  intro c hc hnone
  have hcb : c ≠ b := by
    rintro rfl
    exact hs hc hnone
  rw [ht, Function.update_of_ne hcb, hnone]

theorem onlyNew_of_eq {s t : σ} (h : heap t = heap s) : OnlyNew heap a s t := by
  intro b _ hb
  rw [h, hb]

end OnlyNew

section Creates

variable {N : Type} {a b : ℕ} {n : N} {p : Ptr}

/-- An operation creates a node at one address only. -/
abbrev Creates {β : Type} (a : ℕ) (p : ListOp N β) : Prop := Leads (OnlyNew LinkedObject.heap a) p

theorem creates_node : Creates a (node (N := N) p) := by
  intro s
  unfold Meets node
  split
  · rename_i h
    split at h <;> cases h
    exact refl_of (OnlyNew LinkedObject.heap a) s
  · rename_i h
    split at h <;> cases h
    exact refl_of (OnlyNew LinkedObject.heap a) s

theorem creates_create : Creates a (create a n) :=
  .modify fun _ => onlyNew_update (fun h => absurd rfl h) rfl

theorem creates_assign {f : N → N} : Creates a (assign p f) := by
  intro s
  cases p with
  | none => exact (meets_throw _).mpr (refl_of (OnlyNew LinkedObject.heap a) s)
  | some b =>
    cases hb : s.heap b with
    | none =>
      unfold Meets assign
      dsimp only
      rw [hb]
      exact refl_of (OnlyNew LinkedObject.heap a) s
    | some n =>
      rw [meets_assign hb]
      refine onlyNew_update (fun _ hnone => ?_) rfl
      rw [hb] at hnone
      cases hnone

theorem creates_setFirst : Creates a (setFirst (N := N) p) := .modify fun _ => onlyNew_of_eq rfl

theorem creates_setLast : Creates a (setLast (N := N) p) := .modify fun _ => onlyNew_of_eq rfl

theorem creates_addCount {k : ℤ} : Creates a (addCount (N := N) k) :=
  .modify fun _ => onlyNew_of_eq rfl

end Creates

end VcmallocBench
