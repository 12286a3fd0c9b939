import VcmallocBench.Library.Meets

/-! # What a program may do to its state

`Leads R p` says that every run of `p`, returned or failed, ends in a state that
`R` relates to the one it started in. For a preorder `R` the rules follow the
program text. With equality for `R`, the program only reads.
-/

namespace VcmallocBench

universe u

variable {ε σ α β γ : Type u}

/-- Every run of `p` ends in a state related to its first one. -/
def Leads (R : σ → σ → Prop) (p : EStateM ε σ α) : Prop :=
  ∀ s, Meets p s (fun _ => R s) fun _ => R s

theorem meets_same_iff {p : EStateM ε σ α} {s : σ} {P : σ → Prop} :
    Meets p s (fun _ => P) (fun _ => P) ↔ P (endState (p s)) := by
  constructor
  · intro h
    cases hp : p s with
    | ok a t => exact h.of_ok hp
    | error e t => exact h.of_error hp
  · intro h
    unfold Meets
    cases hp : p s with
    | ok a t => rwa [hp] at h
    | error e t => rwa [hp] at h

namespace Leads

variable {R R' : σ → σ → Prop} {p q : EStateM ε σ α} {s : σ}

theorem mono (h : Leads R p) (hR : ∀ s t, R s t → R' s t) : Leads R' p :=
  fun s => (h s).mono (fun _ t => hR s t) fun _ t => hR s t

theorem endState (h : Leads R p) (s : σ) : R s (endState (p s)) := meets_same_iff.mp (h s)

theorem ite {c : Prop} [Decidable c] (hp : Leads R p) (hq : Leads R q) :
    Leads R (if c then p else q) := by
  split
  · exact hp
  · exact hq

theorem modifyGet {f : σ → α × σ} (h : ∀ s, R s (f s).2) :
    Leads R (modifyGet f : EStateM ε σ α) := fun s => (meets_modifyGet f).mpr (h s)

theorem modify {f : σ → σ} (h : ∀ s, R s (f s)) :
    Leads R (modify f : EStateM ε σ PUnit) := fun s => (meets_modify f).mpr (h s)

theorem meets_read (h : Leads Eq p) :
    Meets p s (fun a t => s = t ∧ value? (p s) = some a) fun _ t => s = t := by
  have hs := h s
  unfold Meets at *
  cases hp : p s with
  | ok a t =>
    rw [hp] at hs
    exact ⟨hs, rfl⟩
  | error e t =>
    rw [hp] at hs
    exact hs

section Reflexive

variable [Std.Refl R]

theorem of_eq (h : Leads Eq p) : Leads R p := h.mono fun s _ he => he ▸ refl_of R s

theorem pure (a : α) : Leads R (pure a : EStateM ε σ α) := fun s => (meets_pure a).mpr (refl_of R s)

theorem throw (e : ε) : Leads R (throw e : EStateM ε σ α) :=
  fun s => (meets_throw e).mpr (refl_of R s)

theorem get : Leads R (get : EStateM ε σ σ) := fun s => meets_get.mpr (refl_of R s)

end Reflexive

section Transitive

variable [IsTrans σ R]

theorem bind {f : β → EStateM ε σ α} {p : EStateM ε σ β} (hp : Leads R p)
    (hf : ∀ b, Leads R (f b)) : Leads R (p >>= f) := fun s =>
  (VcmallocBench.meets_bind p f).mpr ((hp s).imp fun b t ht =>
    (hf b t).mono (fun _ _ hu => trans_of R ht hu) fun _ _ hu => trans_of R ht hu)

/-- From one state on: the rest may use how the first part has changed the state. -/
theorem meets_bind {Q : β → σ → Prop} {f : β → EStateM ε σ α} {p : EStateM ε σ β}
    (hp : Meets p s (fun b t => R s t ∧ Q b t) fun _ => R s)
    (hf : ∀ b t, R s t → Q b t → Meets (f b) t (fun _ => R t) fun _ => R t) :
    Meets (p >>= f) s (fun _ => R s) fun _ => R s :=
  (VcmallocBench.meets_bind p f).mpr (hp.imp fun b t ht =>
    (hf b t ht.1 ht.2).mono (fun _ _ hu => trans_of R ht.1 hu) fun _ _ hu => trans_of R ht.1 hu)

theorem meets_then {f : β → EStateM ε σ α} {p : EStateM ε σ β} (hp : Leads R p)
    (hf : ∀ b t, R s t → Meets (f b) t (fun _ => R t) fun _ => R t) :
    Meets (p >>= f) s (fun _ => R s) fun _ => R s :=
  meets_bind (Q := fun _ _ => True) ((hp s).imp fun _ _ ht => ⟨ht, trivial⟩) fun b t ht _ => hf b t ht

variable [Std.Refl R]

theorem foldlM {f : β → γ → EStateM ε σ β} (h : ∀ b x, Leads R (f b x)) (l : List γ) (b : β) :
    Leads R (l.foldlM f b) := by
  induction l generalizing b with
  | nil => exact pure b
  | cons x l ih =>
    rw [List.foldlM_cons]
    exact (h b x).bind ih

theorem forM {f : γ → EStateM ε σ PUnit} (h : ∀ x, Leads R (f x)) (l : List γ) :
    Leads R (l.forM f) := by
  induction l with
  | nil => exact pure _
  | cons x l ih => exact (h x).bind fun _ => ih

end Transitive

end Leads

end VcmallocBench
