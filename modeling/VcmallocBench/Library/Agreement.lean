import VcmallocBench.Library.Meets

/-! # Programs that agree

Two programs agree on an invariant when they do the same from every state of it,
return, and keep it. Programs that are built from agreeing parts in the same way
agree, so that a loop may read its data in two ways.
-/

namespace VcmallocBench

universe u

variable {ε σ α β γ : Type u}

/-- From every state of the invariant both programs do the same, and return in the invariant. -/
def Agrees (I : σ → Prop) (p q : EStateM ε σ α) : Prop :=
  ∀ s, I s → p s = q s ∧ Meets p s (fun _ => I) fun _ _ => False

namespace Agrees

variable {I : σ → Prop} {p q : EStateM ε σ α}

theorem returns (h : Agrees I p q) {s : σ} (hs : I s) : ∃ a t, p s = .ok a t ∧ q s = .ok a t ∧ I t := by
  obtain ⟨heq, hm⟩ := h s hs
  obtain ⟨a, t, hp, ht⟩ := hm.returns fun _ he => he
  exact ⟨a, t, hp, heq ▸ hp, ht⟩

theorem of_meets (h : ∀ s, I s → Meets p s (fun _ => I) fun _ _ => False) : Agrees I p p :=
  fun s hs => ⟨rfl, h s hs⟩

theorem symm (h : Agrees I p q) : Agrees I q p := by
  intro s hs
  obtain ⟨a, t, hp, hq, ht⟩ := h.returns hs
  exact ⟨hq.trans hp.symm, meets_of_ok hq ht⟩

theorem pure (a : α) : Agrees I (pure a : EStateM ε σ α) (pure a) := of_meets fun _ hs => (meets_pure a).mpr hs

theorem bind {p q : EStateM ε σ β} {f g : β → EStateM ε σ α} (h : Agrees I p q)
    (hf : ∀ b, Agrees I (f b) (g b)) : Agrees I (p >>= f) (q >>= g) := by
  intro s hs
  obtain ⟨b, t, hp, hq, ht⟩ := h.returns hs
  obtain ⟨heq, hm⟩ := hf b t ht
  have hpf : (p >>= f) s = f b t := by simp only [Bind.bind, EStateM.bind, hp]
  have hqg : (q >>= g) s = g b t := by simp only [Bind.bind, EStateM.bind, hq]
  exact ⟨hpf.trans (heq.trans hqg.symm), (meets_bind p f).mpr (meets_of_ok hp hm)⟩

theorem of_value {p : EStateM ε σ β} {f : β → EStateM ε σ α} {b : β} (hp : ∀ s, I s → p s = .ok b s)
    (h : Agrees I (f b) q) : Agrees I (p >>= f) q := by
  intro s hs
  obtain ⟨heq, hm⟩ := h s hs
  have hpf : (p >>= f) s = f b s := by simp only [Bind.bind, EStateM.bind, hp s hs]
  exact ⟨hpf.trans heq, (meets_bind p f).mpr (meets_of_ok (hp s hs) hm)⟩

theorem foldlM {f g : β → γ → EStateM ε σ β} {l : List γ}
    (h : ∀ b, ∀ x ∈ l, Agrees I (f b x) (g b x)) (b : β) :
    Agrees I (l.foldlM f b) (l.foldlM g b) := by
  induction l generalizing b with
  | nil => exact .pure b
  | cons x l ih =>
    rw [List.foldlM_cons, List.foldlM_cons]
    exact (h b x List.mem_cons_self).bind (ih fun b y hy => h b y (List.mem_cons_of_mem _ hy))

theorem forM {f g : γ → EStateM ε σ PUnit} {l : List γ} (h : ∀ x ∈ l, Agrees I (f x) (g x)) :
    Agrees I (l.forM f) (l.forM g) := by
  induction l with
  | nil => exact .pure _
  | cons x l ih =>
    exact (h x List.mem_cons_self).bind fun _ => ih fun y hy => h y (List.mem_cons_of_mem _ hy)

end Agrees

end VcmallocBench
