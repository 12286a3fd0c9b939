import Mathlib

/-! # Shares of a stock

Several holders share a stock of elements, each of which is held once and by one
of them. A holder may give elements back and take new ones, and holders may come
and go with their shares.
-/

namespace VcmallocBench

variable {α : Type*}

/-- The shares of all holders are the stock, and no element occurs twice. -/
structure Shared (stock : List α) (shares : List (List α)) : Prop where
  nodup : stock.Nodup
  perm : shares.flatten.Perm stock

section Flatten

variable {shares : List (List α)} {share : List α} {i : ℕ}

theorem flatten_perm (hi : shares[i]? = some share) :
    shares.flatten.Perm (share ++ (shares.eraseIdx i).flatten) := by
  obtain ⟨hlt, rfl⟩ := List.getElem?_eq_some_iff.mp hi
  rw [← List.flatten_cons]
  exact (List.getElem_cons_eraseIdx_perm hlt).symm.flatten

theorem flatten_set_perm (hi : i < shares.length) (share : List α) :
    (shares.set i share).flatten.Perm (share ++ (shares.eraseIdx i).flatten) := by
  have h := flatten_perm (List.getElem?_set_self (a := share) hi)
  rwa [List.eraseIdx_set_eq] at h

end Flatten

namespace Shared

variable {stock : List α} {shares : List (List α)} {old share freed new : List α} {i : ℕ}

theorem nil : Shared ([] : List α) [] := ⟨List.nodup_nil, List.Perm.nil⟩

theorem join (h : Shared stock shares) : Shared stock (shares ++ [[]]) :=
  ⟨h.nodup, by simpa using h.perm⟩

section Holder

variable (h : Shared stock shares) (hi : shares[i]? = some old)

include h hi

theorem perm_split : (old ++ (shares.eraseIdx i).flatten).Perm stock :=
  (flatten_perm hi).symm.trans h.perm

theorem share_nodup : old.Nodup :=
  (List.nodup_append.mp ((h.perm_split hi).nodup_iff.mpr h.nodup)).1

theorem mem_stock : ∀ a ∈ old, a ∈ stock := fun _ ha =>
  (h.perm_split hi).subset (List.mem_append_left _ ha)

theorem not_mem_rest : ∀ a ∈ old, a ∉ (shares.eraseIdx i).flatten := fun a ha hr =>
  (List.nodup_append.mp ((h.perm_split hi).nodup_iff.mpr h.nodup)).2.2 a ha a hr rfl

theorem apart {j : ℕ} {other : List α} (hj : shares[j]? = some other) (hne : j ≠ i) :
    ∀ a ∈ old, a ∉ other := by
  intro a ha ho
  refine h.not_mem_rest hi a ha (List.mem_flatten.mpr ⟨other, ?_, ho⟩)
  exact List.mem_eraseIdx_iff_getElem?.mpr ⟨j, hne, hj⟩

end Holder

variable [DecidableEq α]

/-- A holder that gives some elements back has the others left, and what is new. -/
theorem exchange_perm (hfreed : ∀ a ∈ freed, a ∈ old) (hnd : (old ++ new).Nodup)
    (hp : (share ++ freed).Perm (old ++ new)) :
    share.Perm (new ++ old.filter (· ∉ freed)) := by
  have hdis := (List.nodup_append.mp (hp.nodup_iff.mpr hnd)).2.2
  have hnew := (List.nodup_append.mp hnd).2.2
  have h₁ : share.filter (· ∉ freed) = share :=
    List.filter_eq_self.mpr fun a ha => by simpa using fun hf => hdis a ha a hf rfl
  have h₂ : freed.filter (· ∉ freed) = [] := List.filter_eq_nil_iff.mpr fun a ha => by simpa using ha
  have h₃ : new.filter (· ∉ freed) = new :=
    List.filter_eq_self.mpr fun a ha => by simpa using fun hf => hnew a (hfreed a hf) a ha rfl
  have hf := hp.filter (· ∉ freed)
  rw [List.filter_append, List.filter_append, h₁, h₂, h₃, List.append_nil] at hf
  exact hf.trans List.perm_append_comm

theorem exchange (h : Shared stock shares) (hi : shares[i]? = some old)
    (hfreed : ∀ a ∈ freed, a ∈ old) (hnew : new.Nodup) (hfresh : ∀ a ∈ new, a ∉ stock)
    (hp : (share ++ freed).Perm (old ++ new)) :
    Shared (new ++ stock.filter (· ∉ freed)) (shares.set i share) := by
  have hrest : (shares.eraseIdx i).flatten.filter (· ∉ freed) = (shares.eraseIdx i).flatten :=
    List.filter_eq_self.mpr fun a ha => by
      simpa using fun hf => h.not_mem_rest hi a (hfreed a hf) ha
  have hnd : (old ++ new).Nodup := List.nodup_append.mpr
    ⟨h.share_nodup hi, hnew, fun a ha b hb hab => hfresh b hb (hab ▸ h.mem_stock hi a ha)⟩
  constructor
  case nodup =>
    refine List.nodup_append.mpr ⟨hnew, h.nodup.filter _, fun a ha b hb hab => ?_⟩
    exact hfresh a ha (hab ▸ List.mem_of_mem_filter hb)
  case perm =>
    have hstock := (h.perm_split hi).filter (· ∉ freed)
    rw [List.filter_append, hrest] at hstock
    refine (flatten_set_perm (List.getElem?_eq_some_iff.mp hi).1 share).trans ?_
    refine ((exchange_perm hfreed hnd hp).append_right _).trans ?_
    rw [List.append_assoc]
    exact hstock.append_left new

theorem leave (h : Shared stock shares) (hi : shares[i]? = some old) :
    Shared (stock.filter (· ∉ old)) (shares.eraseIdx i) := by
  constructor
  case nodup => exact h.nodup.filter _
  case perm =>
    have hold : old.filter (· ∉ old) = [] := List.filter_eq_nil_iff.mpr fun a ha => by simpa using ha
    have hrest : (shares.eraseIdx i).flatten.filter (· ∉ old) = (shares.eraseIdx i).flatten :=
      List.filter_eq_self.mpr fun a ha => by simpa using fun hf => h.not_mem_rest hi a hf ha
    have hstock := (h.perm_split hi).filter (· ∉ old)
    rwa [List.filter_append, hold, hrest, List.nil_append] at hstock

end Shared

end VcmallocBench
