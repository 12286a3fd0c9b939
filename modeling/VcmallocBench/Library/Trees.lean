import VcmallocBench.Library.Chains

/-! # Binary trees of cells

Cells at addresses, each with an item and the addresses of a left and a right
subtree. A context is a tree with a hole, from the hole to the root: what an
operation does at one pointer is a change of the tree in the hole.
-/

namespace VcmallocBench

universe u

variable {α : Type u}

abbrev Branches (α : Type u) := ℕ → Option (α × Option ℕ × Option ℕ)

inductive Tree (α : Type u)
  | leaf
  | node (address : ℕ) (item : α) (left right : Tree α)

namespace Tree

def cells : Tree α → Cells α
  | leaf => []
  | node a x l r => l.cells ++ (a, x) :: r.cells

def items (t : Tree α) : List α := t.cells.map Prod.snd

def addresses (t : Tree α) : List ℕ := t.cells.map Prod.fst

def height : Tree α → ℕ
  | leaf => 0
  | node _ _ l r => 1 + max l.height r.height

def rootPtr : Tree α → Option ℕ
  | leaf => none
  | node a _ _ _ => some a

@[simp] theorem cells_leaf : (leaf : Tree α).cells = [] := rfl

@[simp] theorem cells_node (a : ℕ) (x : α) (l r : Tree α) :
    (node a x l r).cells = l.cells ++ (a, x) :: r.cells := rfl

theorem height_le_length (t : Tree α) : t.height ≤ t.addresses.length := by
  induction t with
  | leaf => exact le_rfl
  | node a x l r ihl ihr =>
    simp only [addresses, List.length_map] at *
    rw [height, cells, List.length_append, List.length_cons]
    omega

/-- Smaller items are on the left of each node and larger ones on the right. -/
def Ordered [LT α] : Tree α → Prop
  | leaf => True
  | node _ x l r => l.Ordered ∧ r.Ordered ∧ (∀ y ∈ l.items, y < x) ∧ ∀ y ∈ r.items, x < y

theorem ordered_iff [Preorder α] (t : Tree α) : t.Ordered ↔ t.items.Pairwise (· < ·) := by
  induction t with
  | leaf => exact iff_of_true True.intro List.Pairwise.nil
  | node a x l r ihl ihr =>
    simp only [Ordered, ihl, ihr, items, cells_node, List.map_append, List.map_cons,
      List.pairwise_append, List.pairwise_cons, List.mem_cons]
    constructor
    · rintro ⟨hl, hr, hlx, hxr⟩
      refine ⟨hl, ⟨hxr, hr⟩, ?_⟩
      rintro y hy z (rfl | hz)
      · exact hlx y hy
      · exact (hlx y hy).trans (hxr z hz)
    · rintro ⟨hl, ⟨hxr, hr⟩, h⟩
      exact ⟨hl, hr, fun y hy => h y hy x (Or.inl rfl), hxr⟩

end Tree

def IsTree (s : Branches α) : Option ℕ → Tree α → Prop
  | p, .leaf => p = none
  | p, .node a x l r => p = some a ∧ ∃ lp rp, s a = some (x, lp, rp) ∧ IsTree s lp l ∧ IsTree s rp r

namespace IsTree

variable {s s' : Branches α} {p q : Option ℕ} {t t' : Tree α}

@[simp] theorem leaf_iff : IsTree s p .leaf ↔ p = none := Iff.rfl

theorem congr (h : IsTree s p t) (hs : ∀ e ∈ t.cells, s' e.1 = s e.1) : IsTree s' p t := by
  induction t generalizing p with
  | leaf => exact h
  | node a x l r ihl ihr =>
    obtain ⟨hp, lp, rp, ha, hl, hr⟩ := h
    rw [Tree.cells_node] at hs
    refine ⟨hp, lp, rp, ?_, ihl hl fun e he => hs e (List.mem_append_left _ he),
      ihr hr fun e he => hs e (List.mem_append_right _ (List.mem_cons_of_mem _ he))⟩
    rw [hs (a, x) (List.mem_append_right _ List.mem_cons_self), ha]

theorem mem (h : IsTree s p t) {e : ℕ × α} (he : e ∈ t.cells) : ∃ v, s e.1 = some (e.2, v) := by
  induction t generalizing p with
  | leaf => cases he
  | node a x l r ihl ihr =>
    obtain ⟨-, lp, rp, ha, hl, hr⟩ := h
    rcases List.mem_append.mp he with he | he
    · exact ihl hl he
    rcases List.mem_cons.mp he with rfl | he
    · exact ⟨_, ha⟩
    · exact ihr hr he

theorem eq_rootPtr (h : IsTree s p t) : p = t.rootPtr := by
  cases t with
  | leaf => exact h
  | node a x l r => exact h.1

theorem none_iff (h : IsTree s p t) : p = none ↔ t = .leaf := by
  cases t with
  | leaf => exact iff_of_true h rfl
  | node a x l r =>
    obtain ⟨rfl, -⟩ := h
    simp

end IsTree

inductive TreeFrame (α : Type u)
  | left (address : ℕ) (item : α) (right : Tree α)
  | right (address : ℕ) (item : α) (left : Tree α)

abbrev TreeContext (α : Type u) := List (TreeFrame α)

namespace TreeContext

def plug : TreeContext α → Tree α → Tree α
  | [], t => t
  | .left a x r :: c, t => plug c (.node a x t r)
  | .right a x l :: c, t => plug c (.node a x l t)

def before : TreeContext α → Cells α
  | [] => []
  | .left _ _ _ :: c => before c
  | .right a x l :: c => before c ++ l.cells ++ [(a, x)]

def after : TreeContext α → Cells α
  | [] => []
  | .left a x r :: c => (a, x) :: r.cells ++ after c
  | .right _ _ _ :: c => after c

theorem cells_plug (c : TreeContext α) (t : Tree α) :
    (plug c t).cells = before c ++ t.cells ++ after c := by
  induction c generalizing t with
  | nil => rw [plug, before, after, List.nil_append, List.append_nil]
  | cons f c ih =>
    cases f with
    | left a x r => rw [plug, ih, before, after, Tree.cells_node]; simp
    | right a x l => rw [plug, ih, before, after, Tree.cells_node]; simp

def Reaches (s : Branches α) (root : Option ℕ) : TreeContext α → Option ℕ → Prop
  | [], p => root = p
  | .left a x r :: c, p =>
    ∃ rp, s a = some (x, p, rp) ∧ IsTree s rp r ∧ Reaches s root c (some a)
  | .right a x l :: c, p =>
    ∃ lp, s a = some (x, lp, p) ∧ IsTree s lp l ∧ Reaches s root c (some a)

variable {s s' : Branches α} {root root' p q : Option ℕ} {c d : TreeContext α} {t : Tree α}

theorem isTree_plug : IsTree s root (plug c t) ↔ ∃ p, Reaches s root c p ∧ IsTree s p t := by
  induction c generalizing t with
  | nil => simp [plug, Reaches]
  | cons f c ih =>
    cases f with
    | left a x r =>
      rw [plug, ih]
      constructor
      · rintro ⟨_, hc, rfl, lp, rp, ha, hl, hr⟩
        exact ⟨lp, ⟨rp, ha, hr, hc⟩, hl⟩
      · rintro ⟨lp, ⟨rp, ha, hr, hc⟩, hl⟩
        exact ⟨some a, hc, rfl, lp, rp, ha, hl, hr⟩
    | right a x l =>
      rw [plug, ih]
      constructor
      · rintro ⟨_, hc, rfl, lp, rp, ha, hl, hr⟩
        exact ⟨rp, ⟨lp, ha, hl, hc⟩, hr⟩
      · rintro ⟨rp, ⟨lp, ha, hl, hc⟩, hr⟩
        exact ⟨some a, hc, rfl, lp, rp, ha, hl, hr⟩

theorem leads_append : Reaches s root (c ++ d) p ↔ ∃ q, Reaches s root d q ∧ Reaches s q c p := by
  induction c generalizing p with
  | nil => simp [Reaches]
  | cons f c ih =>
    cases f with
    | left a x r => simp only [List.cons_append, Reaches, ih]; tauto
    | right a x l => simp only [List.cons_append, Reaches, ih]; tauto

theorem Reaches.congr (h : Reaches s root c p) (hb : ∀ e ∈ before c, s' e.1 = s e.1)
    (ha : ∀ e ∈ after c, s' e.1 = s e.1) : Reaches s' root c p := by
  induction c generalizing p with
  | nil => exact h
  | cons f c ih =>
    cases f with
    | left a x r =>
      obtain ⟨rp, hn, hr, hc⟩ := h
      rw [after] at ha
      refine ⟨rp, ?_, hr.congr fun e he => ha e ?_, ih hc hb fun e he => ha e ?_⟩
      · rw [ha (a, x) List.mem_cons_self, hn]
      · exact List.mem_cons_of_mem _ (List.mem_append_left _ he)
      · exact List.mem_append_right _ he
    | right a x l =>
      obtain ⟨lp, hn, hl, hc⟩ := h
      rw [before] at hb
      refine ⟨lp, ?_, hl.congr fun e he => hb e ?_, ih hc (fun e he => hb e ?_) ha⟩
      · rw [hb (a, x) (List.mem_append_right _ (List.mem_singleton_self _)), hn]
      · exact List.mem_append_left _ (List.mem_append_right _ he)
      · exact List.mem_append_left _ (List.mem_append_left _ he)

/-- The address of the node above the hole, or `q` when the hole is the root. -/
def trail (q : Option ℕ) : TreeContext α → Option ℕ
  | [] => q
  | .left a _ _ :: _ => some a
  | .right a _ _ :: _ => some a

/-- Items in front of the hole are smaller than `x`, and those behind it are larger. -/
def Brackets [LT α] (x : α) (c : TreeContext α) : Prop :=
  (∀ e ∈ before c, e.2 < x) ∧ ∀ e ∈ after c, x < e.2

theorem height_le_plug (c : TreeContext α) (t : Tree α) : t.height ≤ (plug c t).height := by
  induction c generalizing t with
  | nil => exact le_rfl
  | cons f c ih =>
    cases f with
    | left a x r =>
      refine le_trans ?_ (ih (.node a x t r))
      rw [Tree.height]
      omega
    | right a x l =>
      refine le_trans ?_ (ih (.node a x l t))
      rw [Tree.height]
      omega

theorem Reaches.root_mem (h : Reaches s root c p) (hc : c ≠ []) :
    ∃ e ∈ before c ++ after c, root = some e.1 := by
  induction c generalizing p with
  | nil => exact absurd rfl hc
  | cons f c ih =>
    have hup : ∀ a : ℕ, Reaches s root c (some a) → root = some a ∨
        ∃ e ∈ before c ++ after c, root = some e.1 := by
      intro a ha
      cases c with
      | nil => exact Or.inl ha
      | cons g c => exact Or.inr (ih ha (List.cons_ne_nil _ _))
    cases f with
    | left a x r =>
      obtain ⟨rp, -, -, hl⟩ := h
      rcases hup a hl with hr | ⟨e, he, hr⟩
      · exact ⟨(a, x), List.mem_append_right _ List.mem_cons_self, hr⟩
      · refine ⟨e, ?_, hr⟩
        rcases List.mem_append.mp he with he | he
        · exact List.mem_append_left _ he
        · exact List.mem_append_right _ (List.mem_cons_of_mem _ (List.mem_append_right _ he))
    | right a x l =>
      obtain ⟨lp, -, -, hl⟩ := h
      rcases hup a hl with hr | ⟨e, he, hr⟩
      · exact ⟨(a, x), List.mem_append_left _ (List.mem_append_right _ (List.mem_singleton_self _)), hr⟩
      · refine ⟨e, ?_, hr⟩
        rcases List.mem_append.mp he with he | he
        · exact List.mem_append_left _ (List.mem_append_left _ (List.mem_append_left _ he))
        · exact List.mem_append_right _ he

theorem before_append : before (c ++ d) = before d ++ before c := by
  induction c with
  | nil => exact (List.append_nil _).symm
  | cons f c ih =>
    cases f with
    | left a x r => exact ih
    | right a x l => simp only [List.cons_append, before, ih, List.append_assoc]

theorem after_append : after (c ++ d) = after c ++ after d := by
  induction c with
  | nil => rfl
  | cons f c ih =>
    cases f with
    | left a x r => simp only [List.cons_append, after, ih, List.append_assoc]
    | right a x l => exact ih

theorem items_plug (c : TreeContext α) (t : Tree α) : (plug c t).items =
    (before c).map Prod.snd ++ t.items ++ (after c).map Prod.snd := by
  rw [Tree.items, cells_plug, List.map_append, List.map_append, Tree.items]

theorem addresses_plug (c : TreeContext α) (t : Tree α) : (plug c t).addresses =
    (before c).map Prod.fst ++ t.addresses ++ (after c).map Prod.fst := by
  rw [Tree.addresses, cells_plug, List.map_append, List.map_append, Tree.addresses]

theorem Brackets.not_mem [Preorder α] {x : α} (h : Brackets x c) :
    x ∉ (before c).map Prod.snd ∧ x ∉ (after c).map Prod.snd := by
  constructor
  · exact not_mem_items fun e he => (h.1 e he).ne
  · exact not_mem_items fun e he => (h.2 e he).ne'

theorem ordered_plug_node [Preorder α] {x : α} (a : ℕ) (h : (plug c .leaf).Ordered)
    (hx : Brackets x c) : (plug c (.node a x .leaf .leaf)).Ordered := by
  rw [Tree.ordered_iff, items_plug] at *
  simp only [Tree.items, Tree.cells_leaf, Tree.cells_node, List.map_nil, List.append_nil,
    List.nil_append, List.map_cons, List.pairwise_append, List.pairwise_cons, List.mem_append,
    List.mem_cons, List.not_mem_nil, or_false] at *
  obtain ⟨hb, ha, hba⟩ := h
  have hbx : ∀ y ∈ (before c).map Prod.snd, y < x := by
    rintro y hy
    obtain ⟨e, he, rfl⟩ := List.mem_map.mp hy
    exact hx.1 e he
  have hxa : ∀ y ∈ (after c).map Prod.snd, x < y := by
    rintro y hy
    obtain ⟨e, he, rfl⟩ := List.mem_map.mp hy
    exact hx.2 e he
  refine ⟨⟨hb, ⟨fun y hy => absurd hy id, List.Pairwise.nil⟩, ?_⟩, ha, ?_⟩
  · rintro y hy z rfl
    exact hbx y hy
  · rintro y (hy | rfl) z hz
    · exact hba y hy z hz
    · exact hxa z hz

end TreeContext

namespace Tree

open TreeContext

section Focus

variable [LinearOrder α] {x : α} {t : Tree α} {c : TreeContext α}

/-- Where a search for an item ends: at its node or at the leaf where it would be. -/
def focus (x : α) : Tree α → TreeContext α → TreeContext α × Tree α
  | leaf, c => (c, leaf)
  | node a y l r, c =>
    if y = x then (c, node a y l r)
    else if x < y then focus x l (.left a y r :: c)
    else focus x r (.right a y l :: c)

theorem plug_focus : plug (focus x t c).1 (focus x t c).2 = plug c t := by
  induction t generalizing c with
  | leaf => rfl
  | node a y l r ihl ihr =>
    rw [focus]
    split
    · rfl
    split
    · rw [ihl, plug]
    · rw [ihr, plug]

theorem focus_cases : (focus x t c).2 = leaf ∨ ∃ a l r, (focus x t c).2 = node a x l r := by
  induction t generalizing c with
  | leaf => exact Or.inl rfl
  | node a y l r ihl ihr =>
    rw [focus]
    split
    case isTrue h =>
      subst h
      exact Or.inr ⟨a, l, r, rfl⟩
    split
    · exact ihl
    · exact ihr

/-- A search in a search tree leaves smaller items on the left and larger ones on the right. -/
theorem brackets_focus (ht : t.Ordered) (hc : Brackets x c) : Brackets x (focus x t c).1 := by
  induction t generalizing c with
  | leaf => exact hc
  | node a y l r ihl ihr =>
    obtain ⟨hl, hr, hly, hyr⟩ := ht
    rw [focus]
    split
    · exact hc
    split
    case isFalse.isTrue hne hlt =>
      refine ihl hl ⟨hc.1, ?_⟩
      rw [after]
      rintro e he
      rcases List.mem_append.mp he with he | he
      · rcases List.mem_cons.mp he with rfl | he
        · exact hlt
        · exact hlt.trans (hyr _ (List.mem_map_of_mem he))
      · exact hc.2 e he
    case isFalse.isFalse hne hlt =>
      have hyx : y < x := lt_of_le_of_ne (not_lt.mp hlt) hne
      refine ihr hr ⟨?_, hc.2⟩
      rw [before]
      rintro e he
      rcases List.mem_append.mp he with he | he
      · rcases List.mem_append.mp he with he | he
        · exact hc.1 e he
        · exact (hly _ (List.mem_map_of_mem he)).trans hyx
      · obtain rfl := List.mem_singleton.mp he
        exact hyx

theorem focus_leaf_of_not_mem (hx : x ∉ t.items) : (focus x t []).2 = leaf := by
  rcases focus_cases (x := x) (t := t) (c := []) with hleaf | ⟨a, l, r, hnode⟩
  · exact hleaf
  · have hplug : plug (focus x t []).1 (focus x t []).2 = t := plug_focus
    rw [hnode] at hplug
    refine absurd ?_ hx
    rw [← hplug, items_plug, items, cells_node]
    simp

/-- The tree with a new node where a search for its item ends. -/
def grown (a : ℕ) (x : α) (t : Tree α) : Tree α := plug (focus x t []).1 (node a x leaf leaf)

theorem grown_items (a : ℕ) (hx : x ∉ t.items) :
    (∀ y, y ∈ (t.grown a x).items ↔ y = x ∨ y ∈ t.items) ∧
      (t.grown a x).addresses.Perm (a :: t.addresses) := by
  have hplug : plug (focus x t []).1 (focus x t []).2 = t := plug_focus
  rw [focus_leaf_of_not_mem hx] at hplug
  rw [grown]
  generalize (focus x t []).1 = c at hplug
  subst hplug
  constructor
  · intro y
    rw [items_plug, items_plug]
    simp only [items, cells_node, cells_leaf, List.map_cons, List.map_nil, List.nil_append,
      List.append_nil, List.mem_append, List.mem_singleton]
    tauto
  · rw [addresses_plug, addresses_plug]
    simp only [addresses, cells_node, cells_leaf, List.map_cons, List.map_nil, List.nil_append,
      List.append_nil, List.append_assoc, List.singleton_append]
    exact List.perm_middle

def snoc (a : ℕ) (x : α) : Tree α → Tree α
  | leaf => node a x leaf leaf
  | node b y l r => node b y l (snoc a x r)

theorem plug_focus_of_lt (a : ℕ) (hx : ∀ y ∈ t.items, y < x) :
    plug (focus x t c).1 (node a x leaf leaf) = plug c (t.snoc a x) := by
  induction t generalizing c with
  | leaf => rfl
  | node b y l r _ ihr =>
    simp only [items, cells_node, List.map_append, List.map_cons, List.mem_append,
      List.mem_cons] at hx
    have hy : y < x := hx y (Or.inr (Or.inl rfl))
    rw [focus, if_neg hy.ne, if_neg hy.not_gt, ihr fun z hz => hx z (Or.inr (Or.inr hz)), plug, snoc]

theorem grown_of_lt (a : ℕ) (hx : ∀ y ∈ t.items, y < x) : t.grown a x = t.snoc a x :=
  plug_focus_of_lt a hx

end Focus

def spine : Cells α → Tree α
  | [] => leaf
  | (a, x) :: l => node a x leaf (spine l)

@[simp] theorem cells_spine : ∀ l : Cells α, (spine l).cells = l
  | [] => rfl
  | (a, x) :: l => congrArg ((a, x) :: ·) (cells_spine l)

theorem snoc_spine (a : ℕ) (x : α) : ∀ l : Cells α, (spine l).snoc a x = spine (l ++ [(a, x)])
  | [] => rfl
  | (b, y) :: l => congrArg (node b y leaf) (snoc_spine a x l)

/-- The rightmost node of a tree that is given by its root: the nodes above it, its address, its item
and its left subtree. -/
def rightmost (a : ℕ) (x : α) (l : Tree α) : Tree α → TreeContext α → TreeContext α × ℕ × α × Tree α
  | leaf, c => (c, a, x, l)
  | node b y l' r', c => rightmost b y l' r' (.right a x l :: c)

section Rightmost

variable {a : ℕ} {x : α} {l r : Tree α} {c : TreeContext α}

theorem plug_rightmost : ∀ {a x l r} {c : TreeContext α},
    plug (rightmost a x l r c).1 (node (rightmost a x l r c).2.1 (rightmost a x l r c).2.2.1
      (rightmost a x l r c).2.2.2 leaf) = plug c (node a x l r)
  | _, _, _, leaf, _ => rfl
  | _, _, _, node _ _ _ r, _ => plug_rightmost (r := r)

theorem after_rightmost : ∀ {a x l r} {c : TreeContext α}, after (rightmost a x l r c).1 = after c
  | _, _, _, leaf, _ => rfl
  | _, _, _, node _ _ _ r, _ => after_rightmost (r := r)

theorem rightmost_cases : ∀ {a x l r} {c : TreeContext α}, (rightmost a x l r c).1 = c ∨
    ∃ b y k d, (rightmost a x l r c).1 = .right b y k :: d
  | _, _, _, leaf, _ => Or.inl rfl
  | a, x, l, node b y l' r, c => by
    rcases rightmost_cases (a := b) (x := y) (l := l') (r := r) (c := .right a x l :: c) with h | h
    · exact Or.inr ⟨a, x, l, c, h⟩
    · exact Or.inr h

end Rightmost

end Tree

end VcmallocBench
