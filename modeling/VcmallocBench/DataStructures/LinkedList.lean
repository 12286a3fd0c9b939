import VcmallocBench.DataStructures.LinkedObject

/-! # The base class of the singly linked lists

A list holds items when its nodes, followed from the first one, are a chain of
them that ends with the last one. What an operation does to the chain is said by
the nodes it changes: one is put in front, put behind another one, or taken out.
-/

namespace VcmallocBench

structure LinkedListNodeType (α : Type) where
  info : α
  link : Ptr

variable {α : Type}

/-- An operation of a class derived from `linkedListType`. -/
abbrev LinkedOp (α : Type) := ListOp (LinkedListNodeType α)

def LinkedListNodeType.cell (n : LinkedListNodeType α) : α × Ptr := (n.info, n.link)

def followLink (current : ℕ) : LinkedOp α (α × Ptr) := do
  let n ← node (some current)
  return n.cell

def length : LinkedOp α ℤ := do
  return (← get).count

/-- `search` as both derived classes have it. The loop visits at most `fuel` nodes. -/
def searchNodes [DecidableEq α] (fuel : ℕ) (searchItem : α) : LinkedOp α Bool := do
  let s ← get
  let (_, current) ← seek followLink .diverge (decide <| · = searchItem) fuel none s.first
  return current.isSome

/-- The nodes reachable from the first one are the listed ones, the last one is the last of them, and
the count is their number. -/
structure Holding (s : LinkedObject (LinkedListNodeType α)) (l : Cells α) : Prop where
  chain : Segment (links LinkedListNodeType.cell s.heap) s.first l none
  distinct : DistinctAddresses l
  last : s.last = lastPtr none l
  count : s.count = l.length

theorem heap_of_link {heap : ℕ → Option (LinkedListNodeType α)} {a : ℕ} {x : α} {r : Ptr}
    (h : links LinkedListNodeType.cell heap a = some (x, r)) : heap a = some ⟨x, r⟩ := by
  obtain ⟨n, hn, he⟩ := exists_node_of_links h
  cases he
  exact hn

theorem meets_followLink {s : LinkedObject (LinkedListNodeType α)} {a : ℕ} {v : α × Ptr}
    {E : Fault → LinkedObject (LinkedListNodeType α) → Prop}
    (h : links LinkedListNodeType.cell s.heap a = some v) :
    Meets (followLink a) s (fun w t => w = v ∧ t = s) E := by
  obtain ⟨n, hn, rfl⟩ := exists_node_of_links h
  rw [followLink, meets_bind, meets_node hn]
  exact (meets_pure _).mpr ⟨rfl, rfl⟩

theorem creates_followLink {a b : ℕ} : Creates a (followLink (α := α) b) :=
  creates_node.bind fun _ => .pure _

namespace Holding

variable {s t : LinkedObject (LinkedListNodeType α)} {l pre post : Cells α} {a b : ℕ} {x y : α}

theorem empty : Holding (.empty (LinkedListNodeType α)) [] := ⟨rfl, List.nodup_nil, rfl, rfl⟩

theorem first_none_iff (h : Holding s l) : s.first = none ↔ l = [] := by
  rw [h.chain.head_eq]
  cases l <;> simp [headPtr]

theorem last_eq (h : Holding s (pre ++ (a, x) :: post)) : s.last = lastPtr (some a) post := by
  rw [h.last, lastPtr_append_cons]

theorem last_live (h : Holding s l) : s.last = none ∧ l = [] ∨
    ∃ pre e, l = pre ++ [e] ∧ s.last = some e.1 ∧ s.heap e.1 = some ⟨e.2, none⟩ := by
  rcases List.eq_nil_or_concat l with rfl | ⟨pre, ⟨a, x⟩, rfl⟩
  · exact Or.inl ⟨h.last, rfl⟩
  · rw [List.concat_eq_append] at *
    exact Or.inr ⟨pre, (a, x), rfl, h.last_eq, heap_of_link h.chain.link_eq⟩

theorem last_none_iff (h : Holding s l) : s.last = none ↔ l = [] := by
  rcases h.last_live with ⟨hs, hl⟩ | ⟨pre, e, rfl, hs, -⟩
  · exact iff_of_true hs hl
  · simp [hs]

theorem last_eq_iff (h : Holding s (pre ++ (a, x) :: post)) : s.last = some a ↔ post = [] := by
  rw [h.last_eq]
  rcases List.eq_nil_or_concat post with rfl | ⟨post, e, rfl⟩
  · exact iff_of_true rfl rfl
  · obtain ⟨-, hne, -⟩ := DistinctAddresses.ne h.distinct
    rw [List.concat_eq_append] at *
    have hea := hne e (List.mem_append_right _ (List.mem_singleton_self e))
    rw [lastPtr_append]
    simp [hea]

theorem node_eq (h : Holding s (pre ++ (a, x) :: post)) : s.heap a = some ⟨x, headPtr post none⟩ :=
  heap_of_link h.chain.link_eq

theorem cons (h : Holding s l) (ha : s.heap a = none) (hheap : t.heap = (s.update a (some ⟨x, s.first⟩)).heap)
    (hfirst : t.first = some a) (hlast : t.last = if s.last = none then some a else s.last)
    (hcount : t.count = s.count + 1) : Holding t ((a, x) :: l) := by
  have hne := h.chain.ne_fresh ha
  refine ⟨?_, DistinctAddresses.insert_front h.distinct hne, ?_, ?_⟩
  · refine ⟨hfirst, s.first, ?_, h.chain.congr fun e he => links_congr ?_⟩
    · rw [hheap]
      exact links_eq (s.update_heap_self _ _)
    · rw [hheap]
      exact s.update_heap_of_ne _ (hne e he)
  · rw [hlast]
    split
    case isTrue hnone =>
      obtain rfl := h.last_none_iff.mp hnone
      rfl
    case isFalse hsome =>
      rw [h.last]
      exact lastPtr_of_ne_nil _ _ fun hl => hsome (h.last_none_iff.mpr hl)
  · rw [hcount, h.count, List.length_cons, Nat.cast_succ]

theorem insert (h : Holding s (pre ++ (b, y) :: post)) (ha : s.heap a = none)
    (hta : t.heap a = some ⟨x, headPtr post none⟩) (htb : t.heap b = some ⟨y, some a⟩)
    (ht : ∀ c, c ≠ a → c ≠ b → t.heap c = s.heap c) (hfirst : t.first = s.first)
    (hlast : t.last = lastPtr (some a) post) (hcount : t.count = s.count + 1) :
    Holding t (pre ++ (b, y) :: (a, x) :: post) := by
  have hne := h.chain.ne_fresh ha
  obtain ⟨hpre, hpost, -⟩ := DistinctAddresses.ne h.distinct
  have hlist : pre ++ (b, y) :: (a, x) :: post = (pre ++ [(b, y)]) ++ (a, x) :: post := by simp
  refine ⟨?_, ?_, ?_, ?_⟩
  · rw [hfirst]
    refine h.chain.insert (links_eq htb) (links_eq hta) (fun e he => links_congr ?_)
      fun e he => links_congr ?_
    · exact ht _ (hne e (List.mem_append_left _ he)) (hpre e he)
    · exact ht _ (hne e (List.mem_append_right _ (List.mem_cons_of_mem _ he))) (hpost e he)
  · rw [hlist]
    exact DistinctAddresses.insert (by simpa using h.distinct) (by simpa using hne)
  · rw [hlast, hlist, lastPtr_append_cons]
  · rw [hcount, h.count]
    simp only [List.length_append, List.length_cons]
    push_cast
    ring

theorem tail (h : Holding s ((a, x) :: l)) (ht : ∀ c, c ≠ a → t.heap c = s.heap c)
    (hfirst : t.first = headPtr l none) (hlast : t.last = lastPtr none l)
    (hcount : t.count = s.count - 1) : Holding t l := by
  obtain ⟨-, r, -, hl⟩ := h.chain
  obtain ⟨-, hne, hd⟩ := DistinctAddresses.ne_front h.distinct
  refine ⟨?_, hd, hlast, ?_⟩
  · rw [hfirst, ← hl.head_eq]
    exact hl.congr fun e he => links_congr (ht _ (hne e he))
  · rw [hcount, h.count, List.length_cons, Nat.cast_succ, add_sub_cancel_right]

theorem remove (h : Holding s (pre ++ (b, y) :: (a, x) :: post))
    (htb : t.heap b = some ⟨y, headPtr post none⟩)
    (ht : ∀ c, c ≠ a → c ≠ b → t.heap c = s.heap c) (hfirst : t.first = s.first)
    (hlast : t.last = lastPtr (some b) post) (hcount : t.count = s.count - 1) :
    Holding t (pre ++ (b, y) :: post) := by
  have hlist : pre ++ (b, y) :: (a, x) :: post = (pre ++ [(b, y)]) ++ (a, x) :: post := by simp
  obtain ⟨hpre, hpost, -⟩ := DistinctAddresses.ne h.distinct
  obtain ⟨hpre', hpost', hd⟩ := DistinctAddresses.ne (hlist ▸ h.distinct)
  refine ⟨?_, ?_, ?_, ?_⟩
  · rw [hfirst]
    refine h.chain.remove (links_eq htb) (fun e he => links_congr ?_) fun e he => links_congr ?_
    · exact ht _ (hpre' e (List.mem_append_left _ he)) (hpre e he)
    · exact ht _ (hpost' e he) (hpost e (List.mem_cons_of_mem _ he))
  · simpa using hd
  · rw [hlast, lastPtr_append_cons]
  · rw [hcount, h.count]
    simp only [List.length_append, List.length_cons]
    push_cast
    ring

end Holding

section Search

variable [DecidableEq α] {s : LinkedObject (LinkedListNodeType α)} {l : Cells α}
  {E : Fault → LinkedObject (LinkedListNodeType α) → Prop}

theorem meets_searchNodes {fuel : ℕ} {x : α} (h : Holding s l) (hf : l.length ≤ fuel) :
    Meets (searchNodes fuel x) s
      (fun v t => (v = true ↔ x ∈ l.map Prod.snd) ∧ t = s) E := by
  rw [searchNodes, meets_bind, meets_get]
  refine (meets_seek (fun _ _ _ h' => meets_followLink h') l fuel none _ h.chain hf).bind
    fun v t hv => ?_
  obtain ⟨rfl, rfl⟩ := hv
  exact (meets_pure _).mpr ⟨isSome_stop_iff l x, rfl⟩

end Search

end VcmallocBench
