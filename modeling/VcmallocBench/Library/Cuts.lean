import Mathlib
import VcmallocBench.Library.Blocks

/-! # Cutting a block into pieces

A block is read in consecutive pieces of given lengths. Each piece is cut in two,
or joined with elements taken from the end of a stock. Nothing is lost or doubled.
-/

namespace VcmallocBench

def sumTo (p : ℕ → ℕ) (i : ℕ) : ℕ := ∑ j ∈ Finset.range i, p j

/-- The first `i` pieces of a block, one behind the other. -/
def pieces {α : Type*} (l : List α) (position len : ℕ → ℕ) (i : ℕ) : List α :=
  (List.range i).flatMap fun j => slice l (position j) (len j)

section Before

variable {p q : ℕ → ℕ}

@[simp] theorem sumTo_zero (p : ℕ → ℕ) : sumTo p 0 = 0 := rfl

theorem sumTo_succ (p : ℕ → ℕ) (i : ℕ) : sumTo p (i + 1) = sumTo p i + p i :=
  Finset.sum_range_succ p i

theorem sumTo_mono (p : ℕ → ℕ) {i j : ℕ} (h : i ≤ j) : sumTo p i ≤ sumTo p j := by
  induction h with
  | refl => exact le_rfl
  | step _ ih => exact ih.trans (by rw [sumTo_succ]; exact Nat.le_add_right _ _)

theorem sumTo_le (p : ℕ → ℕ) {i j : ℕ} (h : i < j) : sumTo p i + p i ≤ sumTo p j := by
  rw [← sumTo_succ]
  exact sumTo_mono p h

theorem sumTo_le_sumTo {i : ℕ} (h : ∀ j < i, p j ≤ q j) : sumTo p i ≤ sumTo q i :=
  Finset.sum_le_sum fun j hj => h j (Finset.mem_range.mp hj)

theorem sumTo_congr {i : ℕ} (h : ∀ j < i, p j = q j) : sumTo p i = sumTo q i :=
  Finset.sum_congr rfl fun j hj => h j (Finset.mem_range.mp hj)

theorem sumTo_add (p q : ℕ → ℕ) (i : ℕ) : sumTo (fun j => p j + q j) i = sumTo p i + sumTo q i :=
  Finset.sum_add_distrib

theorem sumTo_add_sub {i : ℕ} (h : ∀ j < i, p j ≤ q j) :
    sumTo p i + sumTo (fun j => q j - p j) i = sumTo q i := by
  rw [← sumTo_add]
  exact sumTo_congr fun j hj => Nat.add_sub_cancel' (h j hj)

end Before

section Pieces

variable {α : Type*} {l : List α} {position len : ℕ → ℕ} {i : ℕ}

@[simp] theorem pieces_zero : pieces l position len 0 = [] := rfl

theorem pieces_succ (l : List α) (position len : ℕ → ℕ) (i : ℕ) :
    pieces l position len (i + 1) = pieces l position len i ++ slice l (position i) (len i) := by
  rw [pieces, List.range_succ, List.flatMap_append, List.flatMap_singleton, pieces]

theorem length_pieces (h : ∀ j < i, position j + len j ≤ l.length) :
    (pieces l position len i).length = sumTo len i := by
  induction i with
  | zero => rfl
  | succ i ih =>
    rw [pieces_succ, List.length_append, ih fun j hj => h j (Nat.lt_succ_of_lt hj),
      length_slice (h i (Nat.lt_succ_self i)), sumTo_succ]

theorem slice_append_right (l₁ l₂ : List α) (i n : ℕ) :
    slice (l₁ ++ l₂) (l₁.length + i) n = slice l₂ i n := by
  rw [slice, slice, List.drop_append, List.drop_eq_nil_of_le (Nat.le_add_right _ _), List.nil_append,
    Nat.add_sub_cancel_left]

theorem slice_pieces (h : ∀ j < i, position j + len j ≤ l.length) {j : ℕ} (hj : j < i) :
    slice (pieces l position len i) (sumTo len j) (len j) = slice l (position j) (len j) := by
  induction i with
  | zero => exact absurd hj (Nat.not_lt_zero j)
  | succ i ih =>
    have h' : ∀ k < i, position k + len k ≤ l.length := fun k hk => h k (Nat.lt_succ_of_lt hk)
    have hlen := length_pieces h'
    rw [pieces_succ]
    rcases Nat.lt_succ_iff_lt_or_eq.mp hj with hlt | rfl
    · have hle := sumTo_le len hlt
      rw [slice_append_left (by omega), ih h' hlt]
    · have hs := length_slice (h j (Nat.lt_succ_self j))
      rw [← hlen, ← add_zero (pieces l position len j).length, slice_append_right, slice, List.drop_zero,
        List.take_of_length_le hs.le]

theorem pieces_consecutive (l : List α) (a : ℕ) (p : ℕ → ℕ) (i : ℕ) :
    pieces l (fun j => a + sumTo p j) p i = slice l a (sumTo p i) := by
  induction i with
  | zero => rw [pieces_zero, sumTo_zero, slice_zero]
  | succ i ih => rw [pieces_succ, ih, sumTo_succ, slice_append_slice]

theorem pieces_cut (l : List α) (a : ℕ) {p r : ℕ → ℕ} (h : ∀ j < i, r j ≤ p j) :
    (pieces l (fun j => a + sumTo p j) r i ++
      pieces l (fun j => a + sumTo p j + r j) (fun j => p j - r j) i).Perm
        (slice l a (sumTo p i)) := by
  rw [← pieces_consecutive]
  refine (List.flatMap_append_perm _ _ _).trans (List.Perm.of_eq ?_)
  refine List.flatMap_congr fun j hj => ?_
  rw [slice_append_slice, Nat.add_sub_cancel' (h j (List.mem_range.mp hj))]

theorem pieces_stock (l : List α) (g : ℕ → ℕ) {n : ℕ} (h : sumTo g i ≤ n) :
    (pieces l (fun j => n - sumTo g (j + 1)) g i).Perm (slice l (n - sumTo g i) (sumTo g i)) := by
  induction i with
  | zero => rw [pieces_zero, sumTo_zero, slice_zero]
  | succ i ih =>
    have hs := sumTo_succ g i
    rw [pieces_succ]
    refine ((ih (by omega)).append_right _).trans (List.perm_append_comm.trans (List.Perm.of_eq ?_))
    have he := slice_append_slice l (n - sumTo g (i + 1)) (g i) (sumTo g i)
    rwa [show n - sumTo g (i + 1) + g i = n - sumTo g i by omega,
      show g i + sumTo g i = sumTo g (i + 1) by omega] at he

/-- Pieces of two blocks, in turns. -/
def joined (l l' : List α) (position len position' len' : ℕ → ℕ) (i : ℕ) : List α :=
  (List.range i).flatMap fun j => slice l (position j) (len j) ++ slice l' (position' j) (len' j)

variable {l' : List α} {position' len' : ℕ → ℕ}

theorem joined_succ : joined l l' position len position' len' (i + 1) =
    joined l l' position len position' len' i ++
      (slice l (position i) (len i) ++ slice l' (position' i) (len' i)) := by
  rw [joined, List.range_succ, List.flatMap_append, List.flatMap_singleton, joined]

theorem joined_congr {l₁ : List α} (h : ∀ j < i, slice l (position j) (len j) =
    slice l₁ (position j) (len j)) :
    joined l l' position len position' len' i = joined l₁ l' position len position' len' i :=
  List.flatMap_congr fun j hj => by rw [h j (List.mem_range.mp hj)]

theorem joined_congr_right {l₁ : List α} (h : ∀ j < i, slice l' (position' j) (len' j) =
    slice l₁ (position' j) (len' j)) :
    joined l l' position len position' len' i = joined l l₁ position len position' len' i :=
  List.flatMap_congr fun j hj => by rw [h j (List.mem_range.mp hj)]

theorem joined_eq_pieces (h : ∀ j < i, len' j = 0) :
    joined l l' position len position' len' i = pieces l position len i :=
  List.flatMap_congr fun j hj => by rw [h j (List.mem_range.mp hj), slice_zero, List.append_nil]

theorem pieces_congr {l₁ : List α} (h : ∀ j < i, slice l (position j) (len j) =
    slice l₁ (position j) (len j)) : pieces l position len i = pieces l₁ position len i :=
  List.flatMap_congr fun j hj => h j (List.mem_range.mp hj)

variable {j m : ℕ}

theorem length_joined (h : ∀ j < i, position j + len j ≤ l.length)
    (h' : ∀ j < i, position' j + len' j ≤ l'.length) :
    (joined l l' position len position' len' i).length = sumTo (fun j => len j + len' j) i := by
  induction i with
  | zero => rfl
  | succ i ih =>
    rw [joined_succ, List.length_append, List.length_append, length_slice (h i (Nat.lt_succ_self i)),
      length_slice (h' i (Nat.lt_succ_self i)), sumTo_succ,
      ih (fun j hj => h j (Nat.lt_succ_of_lt hj)) fun j hj => h' j (Nat.lt_succ_of_lt hj)]

theorem joined_prefix (hj : j ≤ i) : joined l l' position len position' len' j <+:
    joined l l' position len position' len' i := by
  induction hj with
  | refl => exact List.prefix_rfl
  | step _ ih => exact ih.trans (by rw [joined_succ]; exact List.prefix_append _ _)

/-- A piece is found again behind the earlier ones, with the other one behind it. -/
theorem getElem?_joined (h : ∀ j < i, position j + len j ≤ l.length)
    (h' : ∀ j < i, position' j + len' j ≤ l'.length) (hj : j < i) (hm : m < len j + len' j) :
    (joined l l' position len position' len' i)[sumTo (fun j => len j + len' j) j + m]? =
      if m < len j then l[position j + m]? else l'[position' j + (m - len j)]? := by
  obtain ⟨rest, hrest⟩ : joined l l' position len position' len' (j + 1) <+:
      joined l l' position len position' len' i := joined_prefix hj
  have hlen : (joined l l' position len position' len' j).length =
      sumTo (fun j => len j + len' j) j :=
    length_joined (fun k hk => h k (hk.trans hj)) fun k hk => h' k (hk.trans hj)
  have hs := length_slice (h j hj)
  have hs' := length_slice (h' j hj)
  rw [← hrest, joined_succ, List.getElem?_append_left (by simp only [List.length_append]; omega),
    List.getElem?_append_right (by omega), hlen, Nat.add_sub_cancel_left]
  split
  · rw [List.getElem?_append_left (by omega), getElem?_slice, if_pos (by omega)]
  · rw [List.getElem?_append_right (by omega), hs, getElem?_slice, if_pos (by omega)]

theorem joined_perm : (joined l l' position len position' len' i).Perm
    (pieces l position len i ++ pieces l' position' len' i) :=
  (List.flatMap_append_perm _ _ _).symm

end Pieces

/-- The first `n` elements from position `start` on replaced, each by what `f` makes of it. -/
def passOver {α : Type*} (start n : ℕ) (f : ℕ → α → α) (l : List α) : List α :=
  l.mapIdx fun j a => if start ≤ j ∧ j < start + n then f (j - start) a else a

section Passes

variable {α : Type*} {start n : ℕ} {f : ℕ → α → α} {l : List α} {a : α}

theorem getElem?_passOver (j : ℕ) : (passOver start n f l)[j]? =
    l[j]?.map fun a => if start ≤ j ∧ j < start + n then f (j - start) a else a :=
  List.getElem?_mapIdx

@[simp] theorem length_passOver : (passOver start n f l).length = l.length := List.length_mapIdx

@[simp] theorem passOver_zero : passOver start 0 f l = l := by
  refine List.ext_getElem? fun j => ?_
  rw [getElem?_passOver]
  cases l[j]? with
  | none => rfl
  | some a => rw [Option.map_some, if_neg (by omega)]

theorem getElem?_passOver_next : (passOver start n f l)[start + n]? = l[start + n]? := by
  rw [getElem?_passOver]
  cases l[start + n]? with
  | none => rfl
  | some a => rw [Option.map_some, if_neg (by omega)]

theorem passOver_succ (hl : l[start + n]? = some a) :
    (passOver start n f l).set (start + n) (f n a) = passOver start (n + 1) f l := by
  refine List.ext_getElem? fun j => ?_
  rw [List.getElem?_set, length_passOver, getElem?_passOver, getElem?_passOver]
  by_cases hj : start + n = j
  · subst hj
    rw [if_pos rfl, if_pos (List.getElem?_eq_some_iff.mp hl).1, hl, Option.map_some,
      if_pos (by omega), Nat.add_sub_cancel_left]
  · rw [if_neg hj]
    cases l[j]? with
    | none => rfl
    | some d =>
      rw [Option.map_some, Option.map_some]
      by_cases h : start ≤ j ∧ j < start + n
      · rw [if_pos h, if_pos (by omega)]
      · rw [if_neg h, if_neg (by omega)]

end Passes

section Blocks

variable {α : Type*} {src dst : List α} {i j n : ℕ}

theorem blit_behind (hs : i + n ≤ src.length) (hd : j + n ≤ dst.length) :
    ∃ l, blit src i dst j n = some l ∧ l.length = dst.length ∧
      l.take (j + n) = dst.take j ++ slice src i n := by
  have hlen : (slice src i n).length = n := length_slice hs
  refine ⟨_, blit_eq hs hd, length_overwrite (by omega), ?_⟩
  rw [take_overwrite (by omega) (by omega)]

end Blocks

end VcmallocBench
