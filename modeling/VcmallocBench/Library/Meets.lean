import Mathlib

/-! # Programs with a state and errors

`Meets p s Q E` says that the program `p`, run from the state `s`, returns in
`Q` or fails in `E`. The state survives a failure, so both outcomes are judged
by the state they leave. The rules follow the program text; loops over a list
carry an invariant indexed by the part already processed.
-/

namespace VcmallocBench

universe u

variable {ε σ α β γ : Type u}

/-- The outcome of `p` from `s` satisfies `Q` if it returns and `E` if it fails. -/
def Meets (p : EStateM ε σ α) (s : σ) (Q : α → σ → Prop) (E : ε → σ → Prop) : Prop :=
  match p s with
  | .ok a t => Q a t
  | .error e t => E e t

def endState : EStateM.Result ε σ α → σ
  | .ok _ t => t
  | .error _ t => t

def returned : EStateM.Result ε σ α → Bool
  | .ok _ _ => true
  | .error _ _ => false

def value? : EStateM.Result ε σ α → Option α
  | .ok a _ => some a
  | .error _ _ => none

def fault? : EStateM.Result ε σ α → Option ε
  | .ok _ _ => none
  | .error e _ => some e

variable {p : EStateM ε σ α} {s : σ} {Q R : α → σ → Prop} {E F : ε → σ → Prop}

@[simp] theorem meets_pure (a : α) : Meets (pure a : EStateM ε σ α) s Q E ↔ Q a s := Iff.rfl

@[simp] theorem meets_bind (p : EStateM ε σ β) (f : β → EStateM ε σ α) :
    Meets (p >>= f) s Q E ↔ Meets p s (fun b t => Meets (f b) t Q E) E := by
  unfold Meets
  simp only [bind, EStateM.bind]
  cases p s <;> rfl

@[simp] theorem meets_get {Q : σ → σ → Prop} :
    Meets (get : EStateM ε σ σ) s Q E ↔ Q s s := Iff.rfl

@[simp] theorem meets_modify {Q : PUnit → σ → Prop} (f : σ → σ) :
    Meets (modify f : EStateM ε σ PUnit) s Q E ↔ Q ⟨⟩ (f s) := Iff.rfl

@[simp] theorem meets_modifyGet (f : σ → α × σ) :
    Meets (modifyGet f : EStateM ε σ α) s Q E ↔ Q (f s).1 (f s).2 := Iff.rfl

@[simp] theorem meets_throw (e : ε) : Meets (throw e : EStateM ε σ α) s Q E ↔ E e s := Iff.rfl

-- programs are reasoned about by the rules from here on, never run
attribute [irreducible] Meets

theorem Meets.mono (h : Meets p s Q E) (hQ : ∀ a t, Q a t → R a t) (hE : ∀ e t, E e t → F e t) :
    Meets p s R F := by
  unfold Meets at *
  split at h
  · exact hQ _ _ h
  · exact hE _ _ h

theorem Meets.imp (h : Meets p s Q E) (hQ : ∀ a t, Q a t → R a t) : Meets p s R E :=
  h.mono hQ fun _ _ he => he

theorem Meets.bind {f : α → EStateM ε σ β} {R : β → σ → Prop} (h : Meets p s Q E)
    (hf : ∀ a t, Q a t → Meets (f a) t R E) : Meets (p >>= f) s R E :=
  (meets_bind p f).mpr (h.imp hf)

theorem Meets.and (h : Meets p s Q E) (h' : Meets p s R F) :
    Meets p s (fun a t => Q a t ∧ R a t) (fun e t => E e t ∧ F e t) := by
  unfold Meets at *
  split at h <;> exact ⟨h, by simp_all⟩

theorem Meets.of_ok {a : α} {t : σ} (h : Meets p s Q E) (hp : p s = .ok a t) : Q a t := by
  unfold Meets at h
  rwa [hp] at h

theorem Meets.of_error {e : ε} {t : σ} (h : Meets p s Q E) (hp : p s = .error e t) : E e t := by
  unfold Meets at h
  rwa [hp] at h

theorem Meets.returns (h : Meets p s Q E) (hE : ∀ e, ¬ E e (endState (p s))) :
    ∃ a t, p s = .ok a t ∧ Q a t := by
  unfold Meets at h
  cases hp : p s with
  | ok a t => rw [hp] at h; exact ⟨a, t, rfl, h⟩
  | error e t => rw [hp] at h hE; exact absurd h (hE e)

theorem Meets.of_value {a : α} (h : Meets p s Q E) (hp : value? (p s) = some a) :
    Q a (endState (p s)) := by
  unfold Meets at h
  cases hr : p s with
  | ok b t =>
    rw [hr] at h hp
    obtain rfl := Option.some.inj hp
    exact h
  | error e t =>
    rw [hr] at hp
    cases hp

theorem Meets.trivial : Meets p s (fun _ _ => True) fun _ _ => True := by
  unfold Meets
  split <;> exact True.intro

theorem meets_of_ok {a : α} {t : σ} (hp : p s = .ok a t) (h : Q a t) : Meets p s Q E := by
  unfold Meets; rw [hp]; exact h

theorem meets_of_returns (h : ∀ a t, p s = .ok a t → Q a t) : Meets p s Q fun _ _ => True := by
  unfold Meets
  cases hp : p s with
  | ok a t => exact h a t hp
  | error e t => exact True.intro

theorem eq_ok_of_returned {r : EStateM.Result ε σ PUnit} (h : returned r = true) :
    r = .ok ⟨⟩ (endState r) := by
  cases r with
  | ok a t => rfl
  | error e t => exact absurd h (by simp [returned])

theorem eq_ok_of_value {r : EStateM.Result ε σ α} {a : α} (h : value? r = some a) :
    r = .ok a (endState r) := by
  cases r with
  | ok b t =>
    cases h
    rfl
  | error e t => cases h

theorem eq_error_of_fault {r : EStateM.Result ε σ α} {e : ε} (h : fault? r = some e) :
    r = .error e (endState r) := by
  cases r with
  | ok a t => cases h
  | error e' t => rw [Option.some.inj h]; rfl

theorem meets_ite {c : Prop} [Decidable c] {q : EStateM ε σ α}
    (ht : c → Meets p s Q E) (hf : ¬ c → Meets q s Q E) :
    Meets (if c then p else q) s Q E := by
  split
  · exact ht ‹_›
  · exact hf ‹_›

/-- An accumulating loop keeps an invariant of the elements it has processed. -/
theorem meets_foldlM {f : β → γ → EStateM ε σ β} {I : List γ → β → σ → Prop} (l : List γ) (b : β)
    (h₀ : I [] b s)
    (hs : ∀ pre x post, l = pre ++ x :: post → ∀ b s, I pre b s →
      Meets (f b x) s (I (pre ++ [x])) E) :
    Meets (l.foldlM f b) s (I l) E := by
  suffices h : ∀ post pre, l = pre ++ post → ∀ b s, I pre b s →
      Meets (post.foldlM f b) s (I l) E from h l [] rfl b s h₀
  intro post
  induction post with
  | nil =>
    intro pre hl b s hi
    rw [hl, List.append_nil]
    exact (meets_pure b).mpr hi
  | cons x post ih =>
    intro pre hl b s hi
    rw [List.foldlM_cons, meets_bind]
    refine (hs pre x post hl b s hi).imp fun b' s' hi' => ih (pre ++ [x]) ?_ b' s' hi'
    rw [hl, List.append_assoc, List.singleton_append]

theorem meets_foldlM_range {ε σ β : Type} {E : ε → σ → Prop} {f : β → ℕ → EStateM ε σ β}
    {I : ℕ → β → σ → Prop} : ∀ (n start : ℕ) (b : β) (s : σ), I start b s →
    (∀ j b s, start ≤ j → j < start + n → I j b s → Meets (f b j) s (I (j + 1)) E) →
    Meets ((List.range' start n).foldlM f b) s (I (start + n)) E
  | 0, _, b, _, h₀, _ => (meets_pure b).mpr h₀
  | n + 1, start, b, s, h₀, hs => by
    rw [List.range'_succ, List.foldlM_cons, meets_bind]
    refine (hs start b s le_rfl (by omega) h₀).imp fun b' s' hi => ?_
    rw [show start + (n + 1) = start + 1 + n by omega]
    exact meets_foldlM_range n (start + 1) b' s' hi fun j b s h₁ h₂ hj =>
      hs j b s (by omega) (by omega) hj

theorem meets_forM_range {ε σ : Type} {E : ε → σ → Prop} {f : ℕ → EStateM ε σ PUnit}
    {I : ℕ → σ → Prop} : ∀ (n start : ℕ) (s : σ), I start s →
    (∀ j s, start ≤ j → j < start + n → I j s → Meets (f j) s (fun _ => I (j + 1)) E) →
    Meets ((List.range' start n).forM f) s (fun _ => I (start + n)) E
  | 0, _, _, h₀, _ => (meets_pure _).mpr h₀
  | n + 1, start, s, h₀, hs => by
    rw [List.range'_succ, List.forM, meets_bind]
    refine (hs start s le_rfl (by omega) h₀).imp fun _ s' hi => ?_
    rw [show start + (n + 1) = start + 1 + n by omega]
    exact meets_forM_range n (start + 1) s' hi fun j s h₁ h₂ hj => hs j s (by omega) (by omega) hj

end VcmallocBench
