import Mathlib

/-! # Block moves

Slices of lists and the copying of a slice into another list, with the bounds
that the copy needs.
-/

namespace VcmallocBench

variable {α : Type*}

def slice (l : List α) (i n : ℕ) : List α := (l.drop i).take n

def overwrite (l : List α) (i : ℕ) (xs : List α) : List α :=
  l.take i ++ xs ++ l.drop (i + xs.length)

/-- Replace `n` elements from position `i` by `m`: the first of them stay, and `new` are added. -/
def splice (l : List α) (i n m : ℕ) (new : List α) : List α :=
  l.take (i + min n m) ++ new ++ l.drop (i + n)

/-- Copy `n` elements of `src` at `i` to `dst` at `j`, or fail out of bounds. An empty copy touches
neither list. -/
def blit (src : List α) (i : ℕ) (dst : List α) (j n : ℕ) : Option (List α) :=
  if n = 0 then some dst
  else if i + n ≤ src.length ∧ j + n ≤ dst.length then some (overwrite dst j (slice src i n))
  else none

def readSlice (l : List α) (i n : ℕ) : Option (List α) :=
  if n = 0 then some []
  else if i + n ≤ l.length then some (slice l i n)
  else none

theorem length_slice {l : List α} {i n : ℕ} (h : i + n ≤ l.length) : (slice l i n).length = n := by
  simp only [slice, List.length_take, List.length_drop]; omega

@[simp] theorem slice_zero (l : List α) (i : ℕ) : slice l i 0 = [] := by simp [slice]

theorem getElem?_slice (l : List α) (i n k : ℕ) :
    (slice l i n)[k]? = if k < n then l[i + k]? else none := by
  simp [slice, List.getElem?_take, List.getElem?_drop]

theorem mem_of_mem_slice {l : List α} {i n : ℕ} {a : α} (h : a ∈ slice l i n) : a ∈ l :=
  List.mem_of_mem_drop (List.mem_of_mem_take h)

theorem slice_append_slice (l : List α) (i m n : ℕ) :
    slice l i m ++ slice l (i + m) n = slice l i (m + n) := by
  rw [slice, slice, slice, List.take_add, List.drop_drop]

theorem take_append_slice (l : List α) (i n : ℕ) : l.take i ++ slice l i n = l.take (i + n) := by
  rw [slice, List.take_add]

theorem slice_take {l : List α} {i n m : ℕ} (h : i + n ≤ m) : slice (l.take m) i n = slice l i n := by
  rw [slice, slice, List.drop_take, List.take_take, Nat.min_eq_left (by omega)]

theorem slice_append_left {l r : List α} {i n : ℕ} (h : i + n ≤ l.length) :
    slice (l ++ r) i n = slice l i n := by
  rw [← slice_take (l := l ++ r) h, List.take_left]

@[simp] theorem overwrite_nil (l : List α) (i : ℕ) : overwrite l i [] = l := by
  simp [overwrite]

theorem length_overwrite {l xs : List α} {i : ℕ} (h : i + xs.length ≤ l.length) :
    (overwrite l i xs).length = l.length := by
  simp only [overwrite, List.length_append, List.length_take, List.length_drop]; omega

theorem take_overwrite {l xs : List α} {i n : ℕ} (h : i + xs.length ≤ l.length)
    (hn : n = i + xs.length) : (overwrite l i xs).take n = l.take i ++ xs := by
  have hl : (l.take i ++ xs).length = n := by
    simp only [List.length_append, List.length_take]; omega
  rw [overwrite, ← hl, List.take_left]

theorem take_overwrite_of_le {l xs : List α} {i n : ℕ} (h : n ≤ i) (hi : i ≤ l.length) :
    (overwrite l i xs).take n = l.take n := by
  have hl : n ≤ (l.take i).length := by simp only [List.length_take]; omega
  rw [overwrite, List.append_assoc, List.take_append_of_le_length hl, List.take_take,
    Nat.min_eq_left h]

theorem getElem?_overwrite {l xs : List α} {i : ℕ} (h : i + xs.length ≤ l.length) (k : ℕ) :
    (overwrite l i xs)[k]? = if i ≤ k ∧ k < i + xs.length then xs[k - i]? else l[k]? := by
  have hl : (l.take i).length = i := by simp only [List.length_take]; omega
  rw [overwrite]
  rcases lt_or_ge k i with hk | hk
  · rw [List.append_assoc, List.getElem?_append_left (by omega), if_neg (by omega),
      List.getElem?_take_of_lt hk]
  · rcases lt_or_ge k (i + xs.length) with hk' | hk'
    · rw [List.append_assoc, List.getElem?_append_right (by omega),
        List.getElem?_append_left (by omega), if_pos ⟨hk, hk'⟩, hl]
    · rw [List.getElem?_append_right (by simp only [List.length_append]; omega),
        if_neg (by omega), List.getElem?_drop]
      congr 1
      simp only [List.length_append]
      omega

theorem slice_overwrite {l xs : List α} {i n : ℕ} (h : i + xs.length ≤ l.length)
    (hn : xs.length = n) : slice (overwrite l i xs) i n = xs := by
  subst hn
  refine List.ext_getElem? fun k => ?_
  rw [getElem?_slice]
  split
  · rw [getElem?_overwrite h, if_pos (by omega), Nat.add_sub_cancel_left]
  · rw [List.getElem?_eq_none (by omega)]

theorem blit_eq {src dst : List α} {i j n : ℕ} (hs : i + n ≤ src.length) (hd : j + n ≤ dst.length) :
    blit src i dst j n = some (overwrite dst j (slice src i n)) := by
  by_cases h : n = 0
  · simp [blit, h]
  · rw [blit, if_neg h, if_pos ⟨hs, hd⟩]

theorem readSlice_eq {l : List α} {i n : ℕ} (h : i + n ≤ l.length) :
    readSlice l i n = some (slice l i n) := by
  by_cases h₀ : n = 0
  · simp [readSlice, h₀]
  · rw [readSlice, if_neg h₀, if_pos h]

theorem blit_some {src dst l : List α} {i j n : ℕ} (h : blit src i dst j n = some l) :
    l.length = dst.length ∧ (0 < n → i + n ≤ src.length ∧ j + n ≤ dst.length) ∧
      ∀ k, l[k]? = if j ≤ k ∧ k < j + n then src[i + (k - j)]? else dst[k]? := by
  rw [blit] at h
  split at h
  · rename_i hn
    obtain rfl := Option.some.inj h
    exact ⟨rfl, by omega, fun k => by rw [if_neg (by omega)]⟩
  · split at h
    · rename_i hb
      obtain rfl := Option.some.inj h
      have hlen : (slice src i n).length = n := length_slice hb.1
      have hfit : j + (slice src i n).length ≤ dst.length := by rw [hlen]; exact hb.2
      refine ⟨length_overwrite hfit, fun _ => hb, fun k => ?_⟩
      rw [getElem?_overwrite hfit, hlen]
      split
      · rw [getElem?_slice, if_pos (by omega)]
      · rfl
    · cases h

theorem filter_not_mem_nil [DecidableEq α] (o : Option α) :
    o.filter (fun a => decide (a ∉ ([] : List α))) = o := by
  cases o with
  | none => rfl
  | some a => rw [Option.filter_some, if_pos (by simp)]

section Splice

variable {l new : List α} {i n m : ℕ}

theorem length_splice (h : i + n ≤ l.length) (hn : new.length = m - n) :
    (splice l i n m new).length + n = l.length + m := by
  simp only [splice, List.length_append, List.length_take, List.length_drop]; omega

theorem getElem?_splice_low (h : i + n ≤ l.length) {j : ℕ} (hj : j < i + min n m) :
    (splice l i n m new)[j]? = l[j]? := by
  rw [splice, List.append_assoc,
    List.getElem?_append_left (by simp only [List.length_take]; omega), List.getElem?_take_of_lt hj]

theorem getElem?_splice_keep (h : i + n ≤ l.length) (hm : n ≤ m) {j : ℕ} (hj : j < i + n) :
    (splice l i n m new)[j]? = l[j]? :=
  getElem?_splice_low h (by rwa [Nat.min_eq_left hm])

theorem getElem?_splice_new (h : i + n ≤ l.length) (hn : new.length = m - n) {j : ℕ}
    (hj : i + n ≤ j) (hm : j < i + m) : (splice l i n m new)[j]? = new[j - (i + n)]? := by
  have hl : (l.take (i + min n m)).length = i + n := by simp only [List.length_take]; omega
  rw [splice, List.append_assoc, List.getElem?_append_right (by omega), hl,
    List.getElem?_append_left (by omega)]

theorem getElem?_splice_high (h : i + n ≤ l.length) (hn : new.length = m - n) {j : ℕ}
    (hj : i + n ≤ j) : (splice l i n m new)[j + m - n]? = l[j]? := by
  have hl : (l.take (i + min n m) ++ new).length = i + m := by
    simp only [List.length_append, List.length_take]; omega
  rw [splice, List.getElem?_append_right (by omega), hl, List.getElem?_drop]
  congr 1
  omega

theorem mem_slice {a : α} : a ∈ slice l i n ↔ ∃ j, i ≤ j ∧ j < i + n ∧ l[j]? = some a := by
  rw [List.mem_iff_getElem?]
  constructor
  · rintro ⟨x, hx⟩
    rw [getElem?_slice] at hx
    split at hx
    · exact ⟨i + x, by omega, by omega, hx⟩
    · exact absurd hx (by simp)
  · rintro ⟨j, h₁, h₂, hj⟩
    refine ⟨j - i, ?_⟩
    rw [getElem?_slice, if_pos (by omega), Nat.add_sub_cancel' h₁, hj]

theorem not_mem_slice (h : l.Nodup) {a : α} {j : ℕ} (hj : l[j]? = some a)
    (hout : j < i ∨ i + n ≤ j) : a ∉ slice l i n := by
  rintro hs
  obtain ⟨x, h₁, h₂, hx⟩ := mem_slice.mp hs
  have := (List.getElem?_inj (List.getElem?_eq_some_iff.mp hj).1 h).mp (hj.trans hx.symm)
  omega

theorem mem_splice_of_nodup (h : l.Nodup) {a : α} (ha : a ∈ splice l i n m new) :
    a ∈ new ∨ a ∈ l ∧ a ∉ slice l (i + m) (n - m) := by
  simp only [splice, List.mem_append] at ha
  rcases ha with (ha | ha) | ha
  · obtain ⟨j, hj⟩ := List.mem_iff_getElem?.mp ha
    rw [List.getElem?_take] at hj
    split at hj
    · exact Or.inr ⟨List.mem_of_getElem? hj, not_mem_slice h hj (Or.inl (by omega))⟩
    · exact absurd hj (by simp)
  · exact Or.inl ha
  · obtain ⟨j, hj⟩ := List.mem_iff_getElem?.mp ha
    rw [List.getElem?_drop] at hj
    exact Or.inr ⟨List.mem_of_getElem? hj, not_mem_slice h hj (by omega)⟩

theorem nodup_splice (h : l.Nodup) (hn : new.Nodup) (hd : ∀ a ∈ new, a ∉ l) :
    (splice l i n m new).Nodup := by
  have hs : (l.take (i + min n m) ++ l.drop (i + n)).Nodup := by
    have hsub : (l.take (i + min n m) ++ l.drop (i + n)).Sublist l := by
      conv_rhs => rw [← List.take_append_drop (i + min n m) l]
      refine (List.Sublist.refl _).append ?_
      rw [show i + n = i + min n m + (n - min n m) by omega, ← List.drop_drop]
      exact List.drop_sublist _ _
    exact h.sublist hsub
  have hp : (splice l i n m new).Perm (new ++ (l.take (i + min n m) ++ l.drop (i + n))) := by
    rw [splice, ← List.append_assoc]
    exact List.perm_append_comm.append_right _
  refine hp.nodup_iff.mpr (List.nodup_append.mpr ⟨hn, hs, fun a ha b hb => ?_⟩)
  rintro rfl
  rcases List.mem_append.mp hb with hb | hb
  · exact hd a ha (List.mem_of_mem_take hb)
  · exact hd a ha (List.mem_of_mem_drop hb)

theorem take_moveDown {N : ℕ} (hm : m ≤ n) (h : i + n ≤ N) (hN : N ≤ l.length) :
    (overwrite l (i + m) (slice l (i + n) (N - i - n))).take (N + m - n) =
      splice (l.take N) i n m [] := by
  have hlen : (slice l (i + n) (N - i - n)).length = N - i - n := length_slice (by omega)
  have h₁ : N + m - n = i + m + (slice l (i + n) (N - i - n)).length := by omega
  have h₂ : i + min n m = i + m := by omega
  have h₃ : N - (i + n) = N - i - n := by omega
  rw [take_overwrite (by omega) h₁, splice, h₂, List.take_take, List.append_nil, List.drop_take, h₃,
    slice, Nat.min_eq_left (by omega)]

theorem take_moveUp {N : ℕ} (hn : new.length = m - n) (hm : n ≤ m) (h : i + n ≤ N)
    (hN : N + (m - n) ≤ l.length) :
    (overwrite (overwrite l (i + m) (slice l (i + n) (N - i - n))) (i + n) new).take (N + (m - n)) =
      splice (l.take N) i n m new := by
  have hlen : (slice l (i + n) (N - i - n)).length = N - i - n := length_slice (by omega)
  have hlen' : (overwrite l (i + m) (slice l (i + n) (N - i - n))).length = l.length :=
    length_overwrite (by omega)
  have htake : (l.take N).length = N := by rw [List.length_take, Nat.min_eq_left (by omega)]
  have hsl := length_splice (l := l.take N) (i := i) (m := m) (by omega) hn
  refine List.ext_getElem? fun j => ?_
  rcases Nat.lt_or_ge j (N + (m - n)) with hj | hj
  · rw [List.getElem?_take_of_lt hj, getElem?_overwrite (by omega), getElem?_overwrite (by omega),
      hlen, getElem?_slice]
    rcases Nat.lt_or_ge j (i + n) with hlo | hlo
    · rw [if_neg (by omega), if_neg (by omega), getElem?_splice_low (by omega) (by omega),
        List.getElem?_take_of_lt (by omega)]
    · rcases Nat.lt_or_ge j (i + m) with hmi | hmi
      · rw [if_pos (by omega), getElem?_splice_new (by omega) hn hlo hmi]
      · have hhigh := getElem?_splice_high (l := l.take N) (i := i) (m := m) (by omega) hn
          (j := j + n - m) (by omega)
        rw [show j + n - m + m - n = j by omega] at hhigh
        rw [if_neg (by omega), if_pos (by omega), if_pos (by omega), hhigh,
          List.getElem?_take_of_lt (by omega)]
        congr 1
        omega
  · rw [List.getElem?_eq_none (by rw [List.length_take]; omega), List.getElem?_eq_none (by omega)]

/-- When a gap is opened in the first `N` cells of a block and partly filled, they are as before only
if nothing was moved or written over them. -/
theorem take_openGap_iff {st l₁ l₂ : List α} {N : ℕ} (hN : N ≤ st.length) (hnd : (st.take N).Nodup)
    (hl : ∀ k < N, k < l.length → l[k]? = st[k]?) (h : i + n ≤ N) (hm : n < m)
    (h₁ : blit l (i + n) l (i + m) (N - i - n) = some l₁)
    (h₂ : blit new 0 l₁ (i + n) new.length = some l₂) (hnew : ∀ a ∈ new, a ∉ st.take N) :
    l₂.take N = st.take N ↔ N ≤ l.length ∧ N ≤ i + m ∧ (new = [] ∨ N = i + n) := by
  obtain ⟨hlen₁, -, hget₁⟩ := blit_some h₁
  obtain ⟨hlen₂, -, hget₂⟩ := blit_some h₂
  have hsame : ∀ {k}, k < N → l₂.take N = st.take N → l₂[k]? = st[k]? := fun hk he => by
    rw [← List.getElem?_take_of_lt hk, he, List.getElem?_take_of_lt hk]
  constructor
  · intro he
    have hlen : N ≤ l.length := by
      have := congrArg List.length he
      rw [List.length_take, List.length_take, hlen₂, hlen₁] at this
      omega
    have hfill : new = [] ∨ N = i + n := by
      by_contra hne
      obtain ⟨hne, hN'⟩ := not_or.mp hne
      have hpos := List.length_pos_of_ne_nil hne
      have hk := hsame (k := i + n) (by omega) he
      rw [hget₂, if_pos (by omega), zero_add, Nat.sub_self, List.getElem?_eq_getElem hpos] at hk
      refine hnew _ (List.getElem_mem hpos) (List.mem_of_getElem? (i := i + n) ?_)
      rw [List.getElem?_take_of_lt (by omega), hk]
    refine ⟨hlen, ?_, hfill⟩
    rcases hfill with rfl | rfl
    · -- the first cell moved would occur twice
      by_contra hlt
      have hk := hsame (k := i + m) (by omega) he
      rw [hget₂, if_neg (by simp), hget₁, if_pos (by omega), Nat.sub_self, add_zero,
        hl _ (by omega) (by omega)] at hk
      have hne : i + n ≠ i + m := by omega
      refine hne ((List.getElem?_inj (by rw [List.length_take]; omega) hnd).mp ?_)
      rw [List.getElem?_take_of_lt (by omega), List.getElem?_take_of_lt (by omega), hk]
    · omega
  · rintro ⟨hlen, hle, hfill⟩
    refine List.ext_getElem? fun k => ?_
    rcases Nat.lt_or_ge k N with hk | hk
    · rw [List.getElem?_take_of_lt hk, List.getElem?_take_of_lt hk, hget₂, if_neg, hget₁,
        if_neg (by omega), hl k hk (by omega)]
      rcases hfill with rfl | rfl
      · simp
      · omega
    · rw [List.getElem?_eq_none (by rw [List.length_take]; omega),
        List.getElem?_eq_none (by rw [List.length_take]; omega)]

end Splice

end VcmallocBench
