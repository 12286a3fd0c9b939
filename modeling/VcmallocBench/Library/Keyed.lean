import Mathlib

/-! # Lists of keyed entries

A list of entries with distinct keys stands for a finite map. Appending an entry,
taking one out, and replacing one are updates of the map.
-/

namespace VcmallocBench

universe u v

variable {κ : Type u} {α : Type v}

def Lists (map : κ → Option α) (l : List (κ × α)) : Prop := ∀ k a, map k = some a ↔ (k, a) ∈ l

def DistinctKeys (l : List (κ × α)) : Prop := l.Pairwise fun a b => a.1 ≠ b.1

variable {map : κ → Option α} {l : List (κ × α)} {k : κ} {a b : α} {i : ℕ}

theorem DistinctKeys.index_eq (h : DistinctKeys l) {j : ℕ} (hi : l[i]? = some (k, a))
    (hj : l[j]? = some (k, b)) : i = j := by
  obtain ⟨hil, hi⟩ := List.getElem?_eq_some_iff.mp hi
  obtain ⟨hjl, hj⟩ := List.getElem?_eq_some_iff.mp hj
  have hlt := List.pairwise_iff_getElem.mp h
  rcases Nat.lt_trichotomy i j with hij | hij | hij
  · exact absurd (by rw [hi, hj]) (hlt i j hil hjl hij)
  · exact hij
  · exact absurd (by rw [hi, hj]) (hlt j i hjl hil hij)

namespace Lists

theorem nil : Lists (fun _ : κ => none) ([] : List (κ × α)) := by simp [Lists]

theorem get (h : Lists map l) (hi : l[i]? = some (k, a)) : map k = some a :=
  (h k a).mpr (List.mem_of_getElem? hi)

theorem fresh (h : Lists map l) (hk : ∀ e ∈ l, e.1 ≠ k) : map k = none := by
  cases hm : map k with
  | none => rfl
  | some a => exact absurd rfl (hk _ ((h k a).mp hm))

variable [DecidableEq κ]

theorem append (h : Lists map l) (hk : ∀ e ∈ l, e.1 ≠ k) :
    Lists (Function.update map k (some a)) (l ++ [(k, a)]) := by
  intro k' b
  rw [List.mem_append, List.mem_singleton, Prod.mk.injEq]
  by_cases hkk : k' = k
  · subst hkk
    rw [Function.update_self]
    constructor
    · rintro ⟨⟩
      exact Or.inr ⟨rfl, rfl⟩
    · rintro (hm | ⟨-, rfl⟩)
      · exact absurd rfl (hk _ hm)
      · rfl
  · rw [Function.update_of_ne hkk, h]
    exact ⟨Or.inl, fun hm => hm.resolve_right fun hc => hkk hc.1⟩

theorem eraseIdx (h : Lists map l) (hl : DistinctKeys l) (hi : l[i]? = some (k, a)) :
    Lists (Function.update map k none) (l.eraseIdx i) := by
  intro k' b
  rw [List.mem_eraseIdx_iff_getElem?]
  by_cases hkk : k' = k
  · subst hkk
    rw [Function.update_self]
    constructor
    · intro hc
      cases hc
    · rintro ⟨j, hne, hj⟩
      exact absurd (hl.index_eq hj hi) hne
  · rw [Function.update_of_ne hkk, h, List.mem_iff_getElem?]
    constructor
    · rintro ⟨j, hj⟩
      refine ⟨j, ?_, hj⟩
      rintro rfl
      exact hkk (Prod.mk.inj (Option.some.inj (hj.symm.trans hi))).1
    · rintro ⟨j, -, hj⟩
      exact ⟨j, hj⟩

theorem set (h : Lists map l) (hl : DistinctKeys l) (hi : l[i]? = some (k, a)) :
    Lists (Function.update map k (some b)) (l.set i (k, b)) := by
  obtain ⟨hil, -⟩ := List.getElem?_eq_some_iff.mp hi
  intro k' c
  rw [List.mem_iff_getElem?]
  by_cases hkk : k' = k
  · subst hkk
    rw [Function.update_self]
    constructor
    · rintro ⟨⟩
      exact ⟨i, List.getElem?_set_self hil⟩
    · rintro ⟨j, hj⟩
      by_cases hij : i = j
      · subst hij
        rw [List.getElem?_set_self hil] at hj
        cases hj
        rfl
      · rw [List.getElem?_set_ne hij] at hj
        exact absurd (hl.index_eq hi hj) hij
  · rw [Function.update_of_ne hkk, h, List.mem_iff_getElem?]
    have hsame : ∀ j : ℕ, l[j]? = some (k', c) ↔ (l.set i (k, b))[j]? = some (k', c) := by
      intro j
      by_cases hij : i = j
      · subst hij
        rw [List.getElem?_set_self hil, hi]
        constructor
        · rintro ⟨⟩
          exact absurd rfl hkk
        · rintro ⟨⟩
          exact absurd rfl hkk
      · rw [List.getElem?_set_ne hij]
    exact exists_congr hsame

end Lists

end VcmallocBench
