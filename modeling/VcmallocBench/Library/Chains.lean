import VcmallocBench.Library.Leads

/-! # Chains of cells

Cells at addresses, each with an item and the address of the next one. A segment
is the part of a chain between two pointers. Loops that follow the links walk a
segment, and a link that is redirected joins a segment to another one.
-/

namespace VcmallocBench

universe u

abbrev Links (α : Type u) := ℕ → Option (α × Option ℕ)

/-- Cells with their addresses, in the order in which the links visit them. -/
abbrev Cells (α : Type u) := List (ℕ × α)

variable {α : Type u}

/-- From the pointer `p` the links visit the listed cells and come to `q`. -/
def Segment (s : Links α) : Option ℕ → Cells α → Option ℕ → Prop
  | p, [], q => p = q
  | p, (a, x) :: l, q => p = some a ∧ ∃ r, s a = some (x, r) ∧ Segment s r l q

def headPtr : Cells α → Option ℕ → Option ℕ
  | [], q => q
  | (a, _) :: _, _ => some a

def lastPtr (p : Option ℕ) : Cells α → Option ℕ
  | [] => p
  | (a, _) :: l => lastPtr (some a) l

@[simp] theorem lastPtr_append (p : Option ℕ) (l : Cells α) (e : ℕ × α) :
    lastPtr p (l ++ [e]) = some e.1 := by
  induction l generalizing p with
  | nil => rfl
  | cons _ l ih => exact ih _

theorem lastPtr_append_cons (p : Option ℕ) (l l' : Cells α) (a : ℕ) (x : α) :
    lastPtr p (l ++ (a, x) :: l') = lastPtr (some a) l' := by
  induction l generalizing p with
  | nil => rfl
  | cons _ l ih => exact ih _

theorem lastPtr_of_ne_nil {l : Cells α} (p q : Option ℕ) (h : l ≠ []) : lastPtr p l = lastPtr q l := by
  cases l with
  | nil => exact absurd rfl h
  | cons _ l => rfl

theorem lastPtr_ne {l : Cells α} {a : ℕ} (p : Option ℕ) (hl : l ≠ []) (h : ∀ e ∈ l, e.1 ≠ a) :
    lastPtr p l ≠ some a := by
  rcases List.eq_nil_or_concat l with rfl | ⟨l, e, rfl⟩
  · exact absurd rfl hl
  · rw [List.concat_eq_append] at *
    rw [lastPtr_append]
    exact fun hc => h e (List.mem_append_right _ (List.mem_singleton_self e)) (Option.some.inj hc)

theorem headPtr_reverse (l : Cells α) (p : Option ℕ) : headPtr l.reverse p = lastPtr p l := by
  induction l using List.reverseRecOn with
  | nil => rfl
  | append_singleton l e _ =>
    rw [List.reverse_append, lastPtr_append]
    rfl

theorem lastPtr_reverse (l : Cells α) (p : Option ℕ) : lastPtr p l.reverse = headPtr l p := by
  rw [← headPtr_reverse, List.reverse_reverse]

namespace Segment

variable {s s' : Links α} {p q r : Option ℕ} {l l' : Cells α} {a : ℕ} {x : α}

@[simp] theorem nil_iff : Segment s p [] q ↔ p = q := Iff.rfl

@[simp] theorem cons_iff : Segment s p ((a, x) :: l) q ↔
    p = some a ∧ ∃ r, s a = some (x, r) ∧ Segment s r l q := Iff.rfl

theorem append : Segment s p (l ++ l') q ↔ ∃ r, Segment s p l r ∧ Segment s r l' q := by
  induction l generalizing p with
  | nil => simp
  | cons e l ih =>
    obtain ⟨a, x⟩ := e
    simp only [List.cons_append, cons_iff, ih]
    constructor
    · rintro ⟨rfl, r, hr, r', h, h'⟩
      exact ⟨r', ⟨rfl, r, hr, h⟩, h'⟩
    · rintro ⟨r', ⟨rfl, r, hr, h⟩, h'⟩
      exact ⟨rfl, r, hr, r', h, h'⟩

theorem head_eq (h : Segment s p l q) : p = headPtr l q := by
  cases l with
  | nil => exact h
  | cons e l => exact h.1

theorem mem (h : Segment s p l q) {e : ℕ × α} (he : e ∈ l) : ∃ r, s e.1 = some (e.2, r) := by
  induction l generalizing p with
  | nil => cases he
  | cons c l ih =>
    obtain ⟨-, r, hr, hl⟩ := h
    rcases List.mem_cons.mp he with rfl | he
    · exact ⟨r, hr⟩
    · exact ih hl he

theorem congr (h : Segment s p l q) (hs : ∀ e ∈ l, s' e.1 = s e.1) : Segment s' p l q := by
  induction l generalizing p with
  | nil => exact h
  | cons e l ih =>
    obtain ⟨hp, r, hr, hl⟩ := h
    refine ⟨hp, r, ?_, ih hl fun e he => hs e (List.mem_cons_of_mem _ he)⟩
    rw [hs _ List.mem_cons_self, hr]

theorem insert {pre post : Cells α} {t : ℕ} {y : α}
    (h : Segment s p (pre ++ (t, y) :: post) q) (ht : s' t = some (y, some a))
    (ha : s' a = some (x, headPtr post q)) (hpre : ∀ e ∈ pre, s' e.1 = s e.1)
    (hpost : ∀ e ∈ post, s' e.1 = s e.1) :
    Segment s' p (pre ++ (t, y) :: (a, x) :: post) q := by
  obtain ⟨r, h₁, rfl, c, -, h₂⟩ := append.mp h
  have hc := h₂.head_eq
  subst hc
  exact append.mpr ⟨some t, h₁.congr hpre, rfl, some a, ht, rfl, _, ha, h₂.congr hpost⟩

theorem remove {pre post : Cells α} {t : ℕ} {y : α}
    (h : Segment s p (pre ++ (t, y) :: (a, x) :: post) q) (ht : s' t = some (y, headPtr post q))
    (hpre : ∀ e ∈ pre, s' e.1 = s e.1) (hpost : ∀ e ∈ post, s' e.1 = s e.1) :
    Segment s' p (pre ++ (t, y) :: post) q := by
  obtain ⟨r, h₁, rfl, c, -, -, d, -, h₂⟩ := append.mp h
  have hd := h₂.head_eq
  subst hd
  exact append.mpr ⟨some t, h₁.congr hpre, rfl, _, ht, h₂.congr hpost⟩

theorem link_eq {pre post : Cells α} (h : Segment s p (pre ++ (a, x) :: post) q) :
    s a = some (x, headPtr post q) := by
  obtain ⟨r, -, -, c, hc, h₂⟩ := append.mp h
  rw [hc, h₂.head_eq]

theorem insert_between {pre post : Cells α} (h : Segment s p (pre ++ post) q)
    (hd : (pre.map Prod.fst).Nodup) (ha : s' a = some (x, headPtr post q))
    (hpre : ∀ b y r, lastPtr none pre = some b → s b = some (y, r) → s' b = some (y, some a))
    (hs : ∀ e ∈ pre ++ post, some e.1 ≠ lastPtr none pre → s' e.1 = s e.1)
    (hpost : ∀ e ∈ post, some e.1 ≠ lastPtr none pre) :
    Segment s' (headPtr (pre ++ (a, x) :: post) q) (pre ++ (a, x) :: post) q := by
  rcases List.eq_nil_or_concat pre with rfl | ⟨pre, ⟨b, y⟩, rfl⟩
  · obtain rfl := h.head_eq
    exact ⟨rfl, _, ha, h.congr fun e he => hs e he (hpost e he)⟩
  · rw [List.concat_eq_append, lastPtr_append] at *
    rw [List.append_assoc, List.singleton_append] at h ⊢
    have hb := hpre b y _ rfl h.link_eq
    have hne : ∀ e ∈ pre, some e.1 ≠ some b := by
      rintro e he hc
      rw [List.map_append, List.nodup_append] at hd
      exact hd.2.2 _ (List.mem_map_of_mem he) b (List.mem_singleton_self b) (Option.some.inj hc)
    have hp : p = headPtr (pre ++ (b, y) :: (a, x) :: post) q := by
      rw [h.head_eq]
      cases pre <;> rfl
    rw [← hp]
    refine h.insert hb ha (fun e he => hs e ?_ (hne e he)) fun e he => hs e ?_ (hpost e he)
    · exact List.mem_append_left _ (List.mem_append_left _ he)
    · exact List.mem_append_right _ he

theorem remove_between {pre post : Cells α} (h : Segment s p (pre ++ (a, x) :: post) q)
    (hd : (pre.map Prod.fst).Nodup)
    (hpre : ∀ b y r, lastPtr none pre = some b → s b = some (y, r) →
      s' b = some (y, headPtr post q))
    (hs : ∀ e ∈ pre ++ post, some e.1 ≠ lastPtr none pre → s' e.1 = s e.1)
    (hpost : ∀ e ∈ post, some e.1 ≠ lastPtr none pre) :
    Segment s' (headPtr (pre ++ post) q) (pre ++ post) q := by
  rcases List.eq_nil_or_concat pre with rfl | ⟨pre, ⟨b, y⟩, rfl⟩
  · obtain ⟨-, r, -, hl⟩ := h
    obtain rfl := hl.head_eq
    exact hl.congr fun e he => hs e he (hpost e he)
  · rw [List.concat_eq_append, lastPtr_append] at *
    rw [List.append_assoc, List.singleton_append] at h ⊢
    have hb := hpre b y _ rfl h.link_eq
    have hne : ∀ e ∈ pre, some e.1 ≠ some b := by
      rintro e he hc
      rw [List.map_append, List.nodup_append] at hd
      exact hd.2.2 _ (List.mem_map_of_mem he) b (List.mem_singleton_self b) (Option.some.inj hc)
    have hp : p = headPtr (pre ++ (b, y) :: post) q := by
      rw [h.head_eq]
      cases pre <;> rfl
    rw [← hp]
    refine h.remove hb (fun e he => hs e ?_ (hne e he)) fun e he => hs e ?_ (hpost e he)
    · exact List.mem_append_left _ (List.mem_append_left _ he)
    · exact List.mem_append_right _ he

end Segment

def DistinctAddresses (l : Cells α) : Prop := (l.map Prod.fst).Nodup

theorem DistinctAddresses.ne {pre post : Cells α} {e : ℕ × α}
    (h : DistinctAddresses (pre ++ e :: post)) :
    (∀ d ∈ pre, d.1 ≠ e.1) ∧ (∀ d ∈ post, d.1 ≠ e.1) ∧ DistinctAddresses (pre ++ post) := by
  simp only [DistinctAddresses, List.map_append, List.map_cons, List.nodup_append, List.nodup_cons,
    List.mem_cons, List.mem_map] at *
  refine ⟨fun d hd => h.2.2 _ ⟨d, hd, rfl⟩ _ (Or.inl rfl), fun d hd hc => h.2.1.1 ⟨d, hd, hc⟩,
    h.1, h.2.1.2, fun a ha b hb => h.2.2 a ha b (Or.inr hb)⟩

theorem DistinctAddresses.insert {pre post : Cells α} {a : ℕ} {x : α}
    (h : DistinctAddresses (pre ++ post)) (ha : ∀ d ∈ pre ++ post, d.1 ≠ a) :
    DistinctAddresses (pre ++ (a, x) :: post) := by
  have hp : (pre ++ (a, x) :: post).Perm ((a, x) :: (pre ++ post)) := List.perm_middle
  refine (hp.map Prod.fst).nodup_iff.mpr (List.nodup_cons.mpr ⟨?_, h⟩)
  rintro hm
  obtain ⟨d, hd, hda⟩ := List.mem_map.mp hm
  exact ha d hd hda

theorem DistinctAddresses.reverse {l : Cells α} (h : DistinctAddresses l) :
    DistinctAddresses l.reverse := by
  rw [DistinctAddresses, List.map_reverse, List.nodup_reverse]
  exact h

theorem DistinctAddresses.left {pre post : Cells α} (h : DistinctAddresses (pre ++ post)) :
    DistinctAddresses pre := by
  rw [DistinctAddresses, List.map_append, List.nodup_append] at h
  exact h.1

theorem DistinctAddresses.around {pre l post : Cells α} (h : DistinctAddresses (pre ++ l ++ post)) :
    DistinctAddresses (pre ++ post) ∧ ∀ d ∈ pre ++ post, ∀ e ∈ l, d.1 ≠ e.1 := by
  simp only [DistinctAddresses, List.map_append, List.nodup_append, List.mem_append,
    List.mem_map] at *
  obtain ⟨⟨hpre, -, hpl⟩, hpost, hall⟩ := h
  refine ⟨⟨hpre, hpost, fun a ha b hb => hall a (Or.inl ha) b hb⟩, fun d hd e he => ?_⟩
  rcases hd with hd | hd
  · exact hpl _ ⟨d, hd, rfl⟩ _ ⟨e, he, rfl⟩
  · exact (hall _ (Or.inr ⟨e, he, rfl⟩) _ ⟨d, hd, rfl⟩).symm

theorem DistinctAddresses.ne_lastPtr {pre post : Cells α} (h : DistinctAddresses (pre ++ post)) :
    ∀ e ∈ post, some e.1 ≠ lastPtr none pre := by
  rintro e he
  rcases List.eq_nil_or_concat pre with rfl | ⟨pre, d, rfl⟩
  · exact Option.some_ne_none _
  · rw [List.concat_eq_append] at *
    rw [DistinctAddresses, List.map_append, List.nodup_append] at h
    rw [lastPtr_append]
    rintro hc
    exact h.2.2 d.1 (List.mem_map_of_mem (List.mem_append_right _ (List.mem_singleton_self d))) e.1
      (List.mem_map_of_mem he) (Option.some.inj hc).symm

theorem headPtr_eq_none_iff {l : Cells α} : headPtr l none = none ↔ l = [] := by
  cases l <;> simp [headPtr]

theorem DistinctAddresses.headPtr_ne {pre post : Cells α} (h : DistinctAddresses (pre ++ post))
    (hp : pre ≠ []) : headPtr post none ≠ headPtr (pre ++ post) none := by
  cases pre with
  | nil => exact absurd rfl hp
  | cons d pre =>
    cases post with
    | nil => exact (Option.some_ne_none _).symm
    | cons e post =>
      rw [DistinctAddresses, List.cons_append, List.map_cons, List.nodup_cons] at h
      rintro hc
      have he : e.1 = d.1 := Option.some.inj hc
      exact h.1 (he ▸ List.mem_map_of_mem (List.mem_append_right _ List.mem_cons_self))

theorem DistinctAddresses.ne_front {l : Cells α} {e : ℕ × α} (h : DistinctAddresses (e :: l)) :
    (∀ d ∈ ([] : Cells α), d.1 ≠ e.1) ∧ (∀ d ∈ l, d.1 ≠ e.1) ∧ DistinctAddresses l :=
  @DistinctAddresses.ne _ [] l e h

theorem DistinctAddresses.insert_front {l : Cells α} {a : ℕ} {x : α} (h : DistinctAddresses l)
    (ha : ∀ d ∈ l, d.1 ≠ a) : DistinctAddresses ((a, x) :: l) :=
  @DistinctAddresses.insert _ [] l a x h ha

section Seek

variable {α ε σ : Type} (next : ℕ → EStateM ε σ (α × Option ℕ)) (out : ε) (stop : α → Bool)

/-- Follow the links until an item stops the search: the pointer before the current one and the
current one. The bound is on the number of cells visited. -/
def seek : ℕ → Option ℕ → Option ℕ → EStateM ε σ (Option ℕ × Option ℕ)
  | _, trail, none => pure (trail, none)
  | 0, _, some _ => throw out
  | fuel + 1, trail, some a => do
    let (x, r) ← next a
    if stop x then pure (trail, some a) else seek fuel (some a) r

variable {next out stop} {s : σ} {links : Links α} {E : ε → σ → Prop}

/-- A search in a chain ends at the first cell that stops it, or behind the last one. -/
theorem meets_seek (hnext : ∀ a x r, links a = some (x, r) →
      Meets (next a) s (fun v t => v = (x, r) ∧ t = s) E) :
    ∀ (l : Cells α) (fuel : ℕ) (trail current : Option ℕ), Segment links current l none →
      l.length ≤ fuel →
      Meets (seek next out stop fuel trail current) s (fun v t => t = s ∧
        v = (lastPtr trail (l.takeWhile fun e => !stop e.2),
          headPtr (l.dropWhile fun e => !stop e.2) none)) E := by
  intro l
  induction l with
  | nil =>
    intro fuel trail current h _
    obtain rfl := Segment.nil_iff.mp h
    rw [seek]
    exact (meets_pure _).mpr ⟨rfl, rfl⟩
  | cons e l ih =>
    obtain ⟨a, x⟩ := e
    rintro (_ | fuel) trail _ ⟨rfl, r, hr, hl⟩ hf
    · exact absurd hf (Nat.not_succ_le_zero _)
    rw [seek]
    refine (hnext a x r hr).bind fun v t hv => ?_
    obtain ⟨rfl, rfl⟩ := hv
    dsimp only
    by_cases hs : stop x = true
    · rw [if_pos hs, List.takeWhile_cons_of_neg (by simpa using hs),
        List.dropWhile_cons_of_neg (by simpa using hs)]
      exact (meets_pure _).mpr ⟨rfl, rfl⟩
    · rw [if_neg hs, List.takeWhile_cons_of_pos (by simpa using hs),
        List.dropWhile_cons_of_pos (by simpa using hs)]
      exact ih fuel (some a) r hl (Nat.le_of_succ_le_succ hf)

theorem leads_seek {R : σ → σ → Prop} [Std.Refl R] [IsTrans σ R] (h : ∀ a, Leads R (next a)) :
    ∀ (fuel : ℕ) (trail current : Option ℕ), Leads R (seek next out stop fuel trail current)
  | fuel, trail, none => by
    rw [seek]
    exact .pure _
  | 0, trail, some a => by
    rw [seek]
    exact .throw _
  | fuel + 1, trail, some a => by
    rw [seek]
    exact (h a).bind fun v => .ite (.pure _) (leads_seek h fuel (some a) v.2)

end Seek

section Stop

variable {l pre post : Cells α} {a : ℕ} {x : α}

theorem exists_stop (stop : α → Bool) (l : Cells α) :
    (∀ e ∈ l.takeWhile fun e => !stop e.2, stop e.2 = false) ∧
      (l.dropWhile (fun e => !stop e.2) = [] ∨ ∃ a x post,
        l.dropWhile (fun e => !stop e.2) = (a, x) :: post ∧ stop x = true) := by
  refine ⟨fun e he => by simpa using List.mem_takeWhile_imp he, ?_⟩
  cases hd : l.dropWhile fun e => !stop e.2 with
  | nil => exact Or.inl rfl
  | cons e post =>
    obtain ⟨a, y⟩ := e
    have hy := List.head?_dropWhile_not (fun e : ℕ × α => !stop e.2) l
    rw [hd] at hy
    exact Or.inr ⟨a, y, post, rfl, by simpa using hy⟩

theorem not_mem_items (hl : ∀ e ∈ l, e.2 ≠ x) : x ∉ l.map Prod.snd := by
  rintro hm
  obtain ⟨e, he, hex⟩ := List.mem_map.mp hm
  exact hl e he hex

theorem isSome_stop_iff [DecidableEq α] (l : Cells α) (x : α) :
    (headPtr (l.dropWhile fun e => !decide (e.2 = x)) none).isSome = true ↔ x ∈ l.map Prod.snd := by
  obtain ⟨hw, hd⟩ := exists_stop (decide <| · = x) l
  have hsplit : (l.takeWhile fun e => !decide (e.2 = x)) ++
      (l.dropWhile fun e => !decide (e.2 = x)) = l := List.takeWhile_append_dropWhile
  rcases hd with hd | ⟨a, y, post, hd, hy⟩
  · rw [hd, List.append_nil] at hsplit
    rw [hd, headPtr, Option.isSome_none]
    refine iff_of_false Bool.false_ne_true (not_mem_items fun e he => ?_)
    exact of_decide_eq_false (hw e (by rw [hsplit]; exact he))
  · obtain rfl := of_decide_eq_true hy
    rw [hd] at hsplit
    rw [hd, headPtr, Option.isSome_some, ← hsplit]
    exact iff_of_true rfl (by simp)

theorem erase_split [DecidableEq α] (hpre : ∀ e ∈ pre, e.2 ≠ x) :
    ((pre ++ (a, x) :: post).map Prod.snd).erase x = (pre ++ post).map Prod.snd := by
  rw [List.map_append, List.erase_append_right _ (not_mem_items hpre), List.map_cons,
    List.erase_cons_head, List.map_append]

variable [LinearOrder α]

theorem orderedInsert_split (l : Cells α) (a : ℕ) (x : α) :
    ((l.takeWhile fun e => !decide (x ≤ e.2)) ++
      (a, x) :: l.dropWhile fun e => !decide (x ≤ e.2)).map Prod.snd =
      (l.map Prod.snd).orderedInsert (· ≤ ·) x := by
  rw [List.orderedInsert_eq_take_drop, List.takeWhile_map, List.dropWhile_map, List.map_append,
    List.map_cons]
  simp only [decide_not]
  rfl

theorem ne_of_stop (hs : (l.map Prod.snd).Pairwise (· ≤ ·)) (hl : pre ++ (a, x) :: post = l)
    {y : α} (hpre : ∀ e ∈ pre, ¬ y ≤ e.2) (hx : y ≤ x) (hne : x ≠ y) : ∀ e ∈ l, e.2 ≠ y := by
  subst hl
  rw [List.map_append, List.pairwise_append, List.map_cons, List.pairwise_cons] at hs
  rintro e he rfl
  rcases List.mem_append.mp he with he | he
  · exact hpre e he le_rfl
  rcases List.mem_cons.mp he with rfl | he
  · exact hne rfl
  · exact hne (le_antisymm (hs.2.1.1 _ (List.mem_map_of_mem he)) hx)

end Stop

end VcmallocBench
