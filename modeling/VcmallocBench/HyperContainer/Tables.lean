import VcmallocBench.HyperContainer.References

/-! # Tables

Growing the frame table and the container table, the position of a container in
the frame table, and the lookup of a container by its reference.
-/

namespace VcmallocBench

/-- A call that frees only frames that are held, each once. -/
def OsCall.Legal : OsCall → Prop
  | .free frames held _ _ => frames.Nodup ∧ ∀ f ∈ frames, f ∈ held
  | _ => True

instance : DecidablePred OsCall.Legal := fun c => by
  unfold OsCall.Legal
  split <;> infer_instance

/-- Successful calls were made that changed nothing. -/
structure Machine.Quiet (m m' : Machine) : Prop where
  eq : m' = { m with calls := m'.calls }
  failures : m'.failures = m.failures
  legal : ∀ c ∈ m'.calls, c ∈ m.calls ∨ c.Legal

theorem Machine.Quiet.refl (m : Machine) : m.Quiet m := ⟨rfl, rfl, fun _ h => Or.inl h⟩

theorem Machine.Quiet.heapCall {os : OS} {m : Machine} {bytes : ℕ} (h : m.reply os = true) :
    m.Quiet (m.heapCall os bytes).2 where
  eq := rfl
  failures := by rw [failures_heapCall, h, if_pos rfl, add_zero]
  legal c hc := by
    rcases List.mem_cons.mp hc with rfl | hc
    · exact Or.inr trivial
    · exact Or.inl hc

section Loops

/-- A loop that raises its variable to a bound ends, at most one step beyond it. -/
theorem whileLoop_spec {next : ℕ → ℕ} {needed : ℕ} {I : ℕ → Prop}
    (hstep : ∀ x, I x → x < needed → x < next x ∧ I (next x)) :
    ∀ fuel x, I x → needed ≤ x + fuel → ∃ y, whileLoop (· < needed) next (fuel + 1) x = some y ∧
      needed ≤ y ∧ I y ∧ (y = x ∨ ∃ z, z < needed ∧ I z ∧ y = next z)
  | 0, x, hx, hle => ⟨x, by rw [whileLoop, if_neg (by simpa using hle)], hle, hx, Or.inl rfl⟩
  | fuel + 1, x, hx, hle => by
    rcases Nat.lt_or_ge x needed with hlt | hge
    · obtain ⟨h₁, h₂⟩ := hstep x hx hlt
      obtain ⟨y, hy, hn, hI, hc⟩ := whileLoop_spec hstep fuel (next x) h₂ (by omega)
      refine ⟨y, ?_, hn, hI, Or.inr ?_⟩
      · rw [whileLoop, if_pos (by simpa using hlt), hy]
      · rcases hc with rfl | hz
        · exact ⟨x, hlt, hx, rfl⟩
        · exact hz
    · exact ⟨x, by rw [whileLoop, if_neg (by simpa using hge)], hge, hx, Or.inl rfl⟩

theorem whileLoop_last {next : ℕ → ℕ} {needed : ℕ} : ∀ fuel x y,
    whileLoop (· < needed) next fuel x = some y → x < needed →
      needed ≤ y ∧ ∃ z, z < needed ∧ y = next z
  | 0, _, _, h, _ => by cases h
  | fuel + 1, x, y, h, hx => by
    rw [whileLoop, if_pos (by simpa using hx)] at h
    rcases Nat.lt_or_ge (next x) needed with hlt | hge
    · exact whileLoop_last fuel (next x) y h hlt
    · cases fuel with
      | zero => cases h
      | succ fuel =>
        rw [whileLoop, if_neg (by simpa using hge)] at h
        obtain rfl := Option.some.inj h
        exact ⟨hge, x, hx, rfl⟩

theorem fuel_eq : ∃ fuel, 2 ^ 64 = fuel + 1 ∧ 2 ^ 64 ≤ fuel + 1 := ⟨2 ^ 64 - 1, by norm_num⟩

theorem doubledMax_spec {x needed : ℕ} (hx : 0 < x) (hlt : x < needed) (hn : 2 * needed ≤ 2 ^ 64) :
    ∃ y, doubledMax x needed = some y ∧ needed ≤ y ∧ y < 2 * needed := by
  obtain ⟨fuel, hf, hle⟩ := fuel_eq
  have hstep : ∀ x, 0 < x → x < needed → x < u64 (x * 2) ∧ 0 < u64 (x * 2) := by
    intro x h₁ h₂
    rw [u64_of_lt (by omega)]
    omega
  obtain ⟨y, hy, hge, -, hc⟩ := whileLoop_spec hstep fuel x hx (by omega)
  rw [doubledMax, hf]
  refine ⟨y, hy, hge, ?_⟩
  rcases hc with rfl | ⟨z, hz, hpos, rfl⟩
  · omega
  · rw [u64_of_lt (by omega)]
    omega

theorem doubledMax_bounds {x needed n : ℕ} (h : doubledMax x needed = some n) (hx : x < needed) :
    needed ≤ n ∧ n < 2 * needed := by
  obtain ⟨hge, z, hz, rfl⟩ := whileLoop_last _ _ _ h hx
  have : u64 (z * 2) ≤ z * 2 := Nat.mod_le _ _
  exact ⟨hge, by omega⟩

theorem whileLoop_none {cond : ℕ → Bool} {next : ℕ → ℕ} {x : ℕ} (hc : cond x) (hn : next x = x) :
    ∀ fuel, whileLoop cond next fuel x = none
  | 0 => rfl
  | fuel + 1 => by rw [whileLoop, if_pos hc, hn]; exact whileLoop_none hc hn fuel

theorem doubledMax_zero {needed : ℕ} (h : 0 < needed) : doubledMax 0 needed = none :=
  whileLoop_none (by simpa using h) (by decide) _

theorem steppedMax_spec {x needed step : ℕ} (hs : 0 < step) (hlt : x < needed)
    (hn : needed + step ≤ 2 ^ 64) :
    ∃ y, steppedMax x needed step = some y ∧ needed ≤ y ∧ y < needed + step := by
  obtain ⟨fuel, hf, hle⟩ := fuel_eq
  have hstep : ∀ x, True → x < needed → x < u64 (x + step) ∧ True := by
    intro x _ h₂
    rw [u64_of_lt (by omega)]
    exact ⟨by omega, trivial⟩
  obtain ⟨y, hy, hge, -, hc⟩ := whileLoop_spec hstep fuel x trivial (by omega)
  rw [steppedMax, hf]
  refine ⟨y, hy, hge, ?_⟩
  rcases hc with rfl | ⟨z, hz, -, rfl⟩
  · omega
  · rw [u64_of_lt (by omega)]
    omega

theorem steppedMax_zero {x needed : ℕ} (h : x < needed) (hx : x < 2 ^ 64) :
    steppedMax x needed 0 = none :=
  whileLoop_none (by simpa using h) (by rw [add_zero, u64_of_lt hx]) _

end Loops

section Growth

variable {os : OS} {s : State} {E : Fault → State → Prop} {R : Unit → State → Prop}

theorem length_resize (os : OS) (block : List Frame) (n : ℕ) : (resize os block n).length = n := by
  simp only [resize, List.length_take, List.length_append, List.length_map, List.length_range]
  omega

theorem take_resize (os : OS) {block : List Frame} {n k : ℕ} (hk : k ≤ block.length) (hn : k ≤ n) :
    (resize os block n).take k = block.take k := by
  rw [resize, List.take_take, Nat.min_eq_left hn, List.take_append_of_le_length hk]

/-- Making room in the frame table: there is room, or a call to the heap is made, or the doubling
loop never ends. The sum and the bytes asked for may wrap. -/
theorem meets_AssertPfnsStorage_words {add : ℕ} {st : List Frame}
    (hst : s.ctx.pfns_storage_ = some st)
    (h₀ : u64 (s.ctx.pfns_num_ + add) ≤ s.ctx.pfns_max_ → R () s)
    (hd : s.ctx.pfns_max_ < u64 (s.ctx.pfns_num_ + add) →
      doubledMax s.ctx.pfns_max_ (u64 (s.ctx.pfns_num_ + add)) = none → E .diverge s)
    (h₁ : ∀ n, s.ctx.pfns_max_ < u64 (s.ctx.pfns_num_ + add) →
      doubledMax s.ctx.pfns_max_ (u64 (s.ctx.pfns_num_ + add)) = some n →
      s.mach.reply os = true → R ()
        ⟨(s.mach.heapCall os (u64 (n * sizeofFrame))).2, { s.ctx with
          pfns_storage_ := some (resize os st (u64 (n * sizeofFrame) / sizeofFrame)), pfns_max_ := n }⟩)
    (h₂ : ∀ n, s.ctx.pfns_max_ < u64 (s.ctx.pfns_num_ + add) → s.mach.reply os = false → E
      (.thrown "vcmalloc : Couldn't allocate space for Container's aPFNs array")
        ⟨(s.mach.heapCall os (u64 (n * sizeofFrame))).2, { s.ctx with pfns_storage_ := none }⟩) :
    Meets (AssertPfnsStorage os add) s R E := by
  rw [AssertPfnsStorage, meets_bind, meets_getCtx]
  refine meets_ite (fun hlt => ?_) fun hge => (meets_pure _).mpr (h₀ (not_lt.mp hge))
  cases hn : doubledMax s.ctx.pfns_max_ (u64 (s.ctx.pfns_num_ + add)) with
  | none =>
    have hf : (fun _ : State => (none : Option ℕ)) s = none := rfl
    rw [meets_bind, meets_fetch_none hf]
    exact hd hlt hn
  | some n =>
    have hf : (fun _ : State => some n) s = some n := rfl
    rw [meets_bind, meets_fetch hf, frames_of_storage hst]
    cases hr : s.mach.reply os with
    | true =>
      have h := h₁ n hlt hn hr
      simp only [HeapReAlloc, meets_bind, meets_osCall, meets_pure, meets_modifyCtx, Machine.heapCall,
        hr, if_true, Option.isSome_some, ensure]
      simpa only [Machine.heapCall, hr] using h
    | false =>
      have h := h₂ n hlt hr
      simp only [HeapReAlloc, meets_bind, meets_osCall, meets_pure, meets_modifyCtx, Machine.heapCall,
        hr, if_false, Option.isSome_none, ensure, meets_throw, Bool.false_eq_true]
      simpa only [Machine.heapCall, hr] using h

theorem meets_AssertPfnsStorage {add : ℕ} {st : List Frame}
    (hst : s.ctx.pfns_storage_ = some st) (hov : 16 * (s.ctx.pfns_num_ + add) < 2 ^ 64)
    (h₀ : s.ctx.pfns_num_ + add ≤ s.ctx.pfns_max_ → R () s)
    (hd : s.ctx.pfns_max_ < s.ctx.pfns_num_ + add → s.ctx.pfns_max_ = 0 → E .diverge s)
    (h₁ : ∀ n, s.ctx.pfns_max_ < s.ctx.pfns_num_ + add → s.ctx.pfns_num_ + add ≤ n →
      8 * n < 2 ^ 64 → s.mach.reply os = true → R ()
        ⟨(s.mach.heapCall os (n * sizeofFrame)).2,
          { s.ctx with pfns_storage_ := some (resize os st n), pfns_max_ := n }⟩)
    (h₂ : ∀ n, s.ctx.pfns_max_ < s.ctx.pfns_num_ + add → s.mach.reply os = false → E
      (.thrown "vcmalloc : Couldn't allocate space for Container's aPFNs array")
        ⟨(s.mach.heapCall os n).2, { s.ctx with pfns_storage_ := none }⟩) :
    Meets (AssertPfnsStorage os add) s R E := by
  have hu : u64 (s.ctx.pfns_num_ + add) = s.ctx.pfns_num_ + add := u64_of_lt (by omega)
  refine meets_AssertPfnsStorage_words hst ?_ ?_ ?_ ?_
  · rw [hu]
    exact h₀
  · rw [hu]
    intro hlt hnone
    refine hd hlt (Nat.eq_zero_of_not_pos fun hpos => ?_)
    obtain ⟨n, hn, -⟩ := doubledMax_spec hpos hlt (by omega)
    rw [hnone] at hn
    cases hn
  · rw [hu]
    intro n hlt hn hr
    have hpos : 0 < s.ctx.pfns_max_ := by
      by_contra hz
      rw [Nat.eq_zero_of_not_pos hz, doubledMax_zero (by omega)] at hn
      cases hn
    obtain ⟨n', hn', hge, hlt'⟩ := doubledMax_spec hpos hlt (by omega)
    obtain rfl := Option.some.inj (hn.symm.trans hn')
    have hb : u64 (n * sizeofFrame) = n * sizeofFrame := by
      rw [sizeofFrame]; exact u64_of_lt (by omega)
    rw [hb, Nat.mul_div_cancel _ (by decide)]
    exact h₁ n hlt hge (by omega) hr
  · rw [hu]
    exact fun n hlt hr => h₂ _ hlt hr

theorem meets_AssertPfnsStorage_quiet {add : ℕ} {st : List Frame}
    (hst : s.ctx.pfns_storage_ = some st) (hlen : st.length = s.ctx.pfns_max_)
    (hmax : 8 * st.length < 2 ^ 64) (hov : 16 * (s.ctx.pfns_num_ + add) < 2 ^ 64)
    (hnum : s.ctx.pfns_num_ ≤ st.length)
    (hR : ∀ m' st', s.mach.Quiet m' → s.ctx.pfns_num_ + add ≤ st'.length → 8 * st'.length < 2 ^ 64 →
      st'.take s.ctx.pfns_num_ = st.take s.ctx.pfns_num_ →
      R () ⟨m', { s.ctx with pfns_storage_ := some st', pfns_max_ := st'.length }⟩)
    (hE : ∀ e t, e ≠ .bounds → (0 < s.ctx.pfns_max_ → s.mach.failures < t.mach.failures) → E e t) :
    Meets (AssertPfnsStorage os add) s R E := by
  refine meets_AssertPfnsStorage hst hov (fun h => ?_) (fun _ hz => ?_)
    (fun n hlt h₁ h₂ hr => ?_) fun n _ hr => ?_
  · have := hR s.mach st (.refl _) (by omega) hmax rfl
    rw [hlen, ← hst] at this
    exact this
  · exact hE _ _ (by decide) fun hpos => absurd hz hpos.ne'
  · have hq : s.mach.Quiet (s.mach.heapCall os (n * sizeofFrame)).2 := .heapCall hr
    have := hR _ (resize os st n) hq
      (by rw [length_resize]; exact h₁) (by rw [length_resize]; exact h₂)
      (take_resize os hnum (by omega))
    rwa [length_resize] at this
  · refine hE _ _ (by decide) fun _ => ?_
    dsimp only
    rw [Machine.failures_heapCall, hr]
    exact Nat.lt_succ_self _

theorem meets_AssertContainerContextStorage {add : ℕ} {cs : List ContainerContext} {room : ℕ}
    (hcs : s.ctx.containercontext_storage_ = some ⟨cs, room⟩)
    (hov : s.ctx.containers_num_ + add + os.page_size ≤ 2 ^ 64)
    (hmax : s.ctx.containers_max_ < 2 ^ 64)
    (h₀ : s.ctx.containers_num_ + add ≤ s.ctx.containers_max_ → R () s)
    (hd : s.ctx.containers_max_ < s.ctx.containers_num_ + add → os.page_size < sizeofContainerContext →
      E .diverge s)
    (h₁ : ∀ n bytes, s.ctx.containers_max_ < s.ctx.containers_num_ + add →
      s.ctx.containers_num_ + add ≤ n → n < s.ctx.containers_num_ + add + os.page_size →
      bytes = u64 (n * sizeofContainerContext) → s.mach.reply os = true → R ()
        ⟨(s.mach.heapCall os bytes).2, { s.ctx with
          containercontext_storage_ := some
            ⟨cs.take (bytes / sizeofContainerContext), bytes / sizeofContainerContext⟩
          containers_max_ := n }⟩)
    (h₂ : ∀ bytes, s.ctx.containers_max_ < s.ctx.containers_num_ + add → s.mach.reply os = false → E
      (.thrown "vcmalloc :: Unable to extend ContainerContextStorage")
        ⟨(s.mach.heapCall os bytes).2, { s.ctx with containercontext_storage_ := none }⟩) :
    Meets (AssertContainerContextStorage os add) s R E := by
  have hPpos := os.page_size_pos
  have hu : u64 (s.ctx.containers_num_ + add) = s.ctx.containers_num_ + add := u64_of_lt (by omega)
  have hc : s.ctx.containers = cs := by rw [HyperContainerContext.containers, hcs]; rfl
  rw [AssertContainerContextStorage, meets_bind, meets_getCtx, hu]
  refine meets_ite (fun hlt => ?_) fun hge => (meets_pure _).mpr (h₀ (not_lt.mp hge))
  rcases Nat.eq_zero_or_pos (os.page_size / sizeofContainerContext) with hz | hpos
  · have hn : steppedMax s.ctx.containers_max_ (s.ctx.containers_num_ + add)
        (os.page_size / sizeofContainerContext) = none := by
      rw [hz]; exact steppedMax_zero hlt hmax
    rw [meets_bind, meets_fetch_none hn]
    refine hd hlt ?_
    by_contra hp
    exact absurd hz (Nat.div_pos (not_lt.mp hp) (by decide)).ne'
  · have hdp := Nat.div_le_self os.page_size sizeofContainerContext
    obtain ⟨n, hn, hge, hlt'⟩ := steppedMax_spec hpos hlt (by omega)
    rw [meets_bind, meets_fetch hn]
    cases hr : s.mach.reply os with
    | true =>
      have h := h₁ n _ hlt hge (by omega) rfl hr
      simp only [meets_bind, meets_osCall, meets_modifyCtx, Machine.heapCall, hr, if_true, ensure,
        meets_pure, hc]
      simpa only [Machine.heapCall, hr] using h
    | false =>
      have h := h₂ (u64 (n * sizeofContainerContext)) hlt hr
      simp only [meets_bind, meets_osCall, meets_modifyCtx, Machine.heapCall, hr, if_false, ensure,
        meets_throw, Bool.false_eq_true]
      simpa only [Machine.heapCall, hr] using h

end Growth

section Positions

variable {os : OS} {s : State} {E : Fault → State → Prop} {lo hi : ℕ} {L : List Container}

def pagesOf (os : OS) (L : List Container) : ℕ := (L.map (·.nbrOfPages os)).sum

@[simp] theorem pagesOf_nil (os : OS) : pagesOf os [] = 0 := rfl

@[simp] theorem pagesOf_cons (os : OS) (l : Container) (L : List Container) :
    pagesOf os (l :: L) = l.nbrOfPages os + pagesOf os L := by
  simp [pagesOf]

@[simp] theorem pagesOf_append (os : OS) (L L' : List Container) :
    pagesOf os (L ++ L') = pagesOf os L + pagesOf os L' := by
  simp [pagesOf]

theorem pagesOf_take_succ {j : ℕ} {l : Container} (h : L[j]? = some l) :
    pagesOf os (L.take (j + 1)) = pagesOf os (L.take j) + l.nbrOfPages os := by
  rw [List.take_add_one, h, Option.toList_some, pagesOf_append, pagesOf_cons, pagesOf_nil, add_zero]

theorem pagesOf_take_add_drop (k : ℕ) :
    pagesOf os (L.take k) + pagesOf os (L.drop k) = pagesOf os L := by
  rw [← pagesOf_append, List.take_append_drop]

theorem pagesOf_take_le (os : OS) (L : List Container) {i j : ℕ} (h : i ≤ j) :
    pagesOf os (L.take i) ≤ pagesOf os (L.take j) := by
  have := @pagesOf_take_add_drop os (L.take j) i
  rw [List.take_take, Nat.min_eq_left h] at this
  omega

theorem pagesOf_eq {k : ℕ} {l : Container} (h : L[k]? = some l) :
    pagesOf os L = pagesOf os (L.take k) + l.nbrOfPages os + pagesOf os (L.drop (k + 1)) := by
  rw [← pagesOf_take_succ h, pagesOf_take_add_drop]

def State.Reads (os : OS) (s : State) (L : List Container) : Prop :=
  s.ctx.containers.map (·.resolve os s.mach) = L.map some

instance (os : OS) (s : State) (L : List Container) : Decidable (s.Reads os L) :=
  inferInstanceAs (Decidable (_ = _))

theorem Views.reads (h : Views os s.mach lo hi s.ctx.containers L) : s.Reads os L := by
  refine List.ext_getElem? fun j => ?_
  rw [List.getElem?_map, List.getElem?_map]
  cases hj : s.ctx.containers[j]? with
  | none =>
    have hnone : L[j]? = none := by
      rw [List.getElem?_eq_none_iff] at hj ⊢
      rwa [← h.length_eq]
    rw [hnone, Option.map_none, Option.map_none]
  | some c =>
    obtain ⟨l, hl, hres⟩ := h.get_left hj
    rw [hl, Option.map_some, Option.map_some, hres]

namespace State.Reads

variable (h : s.Reads os L) {k : ℕ} {l : Container}

include h

theorem length_eq : s.ctx.containers.length = L.length := by
  simpa using congrArg List.length h

theorem get (hl : L[k]? = some l) :
    ∃ c, s.ctx.containers[k]? = some c ∧ c.resolve os s.mach = some l := by
  have hk := congrArg (·[k]?) h
  simp only [List.getElem?_map, hl, Option.map_some, Option.map_eq_some_iff] at hk
  exact hk

/-- The position of a container in the frame table. -/
theorem meets_getPFNsPosition (hk : k ≤ L.length) (hsum : pagesOf os L < 2 ^ 64)
    {Q : ℕ → State → Prop} (hQ : Q (pagesOf os (L.take k)) s) :
    Meets (getPFNsPosition os 0 k) s Q E := by
  let I : ℕ → ℕ → State → Prop := fun j position t => t = s ∧ position = pagesOf os (L.take j)
  have hl := meets_foldlM_range (I := I) (E := E) (k - 0) 0 0 s ⟨rfl, rfl⟩
    (f := fun position k => do
      let c ← containerAt os k
      return u64 (position + c.nbrOfPages os)) fun j position t _ hj hI => by
    obtain ⟨rfl, rfl⟩ := hI
    obtain ⟨l, hLj⟩ : ∃ l, L[j]? = some l := ⟨_, List.getElem?_eq_getElem (by omega)⟩
    obtain ⟨c, hc, hres⟩ := h.get hLj
    rw [meets_bind, meets_containerAt hc hres, meets_pure]
    refine ⟨rfl, ?_⟩
    have hle := pagesOf_take_le os L (show j + 1 ≤ L.length by omega)
    rw [List.take_length, pagesOf_take_succ hLj] at hle
    rw [u64_of_lt (by omega), pagesOf_take_succ hLj]
  refine hl.imp fun position t ht => ?_
  obtain ⟨rfl, rfl⟩ := ht
  rwa [show 0 + (k - 0) = k by omega]

end State.Reads

/-- References that never decrease. -/
def Ascending (L : List Container) : Prop :=
  ∀ (i j : ℕ) l l', i ≤ j → L[i]? = some l → L[j]? = some l' → l.reference_ ≤ l'.reference_

theorem Views.sorted (h : Views os s.mach lo hi s.ctx.containers L) (hlen : L.length ≤ 2 ^ 63)
    (hasc : Ascending L) (hlt : ∀ l ∈ L, l.reference_ < 2 ^ 63) {t : ℕ} (ht : t < L.length) :
    Search.Sorted
      (fun k => s.ctx.containers[k]?.bind fun c => s.mach.load os c.reference_)
      (fun k => (L[k]?.map (·.reference_)).getD 0) L.length t where
  read_eq i hi := by
    have hl := List.getElem?_eq_getElem hi
    obtain ⟨c, hc, -⟩ := h.get hl
    obtain ⟨-, -, hr⟩ := h.sizes hc hl
    rw [hc, Option.bind_some, hr, hl, Option.map_some, Option.getD_some]
  mono i j hij hj := by
    have hl := List.getElem?_eq_getElem (show i < L.length by omega)
    have hl' := List.getElem?_eq_getElem hj
    rw [hl, hl']
    exact hasc i j _ _ hij hl hl'
  lt_word i hi := by
    have := hlt _ (List.getElem_mem hi)
    rw [List.getElem?_eq_getElem hi, Option.map_some, Option.getD_some]
    omega
  near i hi := by
    have h₁ := hlt _ (List.getElem_mem hi)
    have h₂ := hlt _ (List.getElem_mem ht)
    rw [List.getElem?_eq_getElem hi, List.getElem?_eq_getElem ht, Option.map_some, Option.map_some,
      Option.getD_some, Option.getD_some]
    omega
  target_lt := ht
  length_lt := hlen

def State.container? (os : OS) (s : State) (j : ℕ) : Option Container :=
  s.ctx.containers[j]?.bind (·.resolve os s.mach)

theorem State.Reads.container?_eq (h : s.Reads os L) (j : ℕ) : s.container? os j = L[j]? := by
  cases hl : L[j]? with
  | none =>
    have hj : s.ctx.containers[j]? = none := by
      rw [List.getElem?_eq_none_iff] at hl ⊢
      rwa [h.length_eq]
    rw [State.container?, hj, Option.bind_none]
  | some l =>
    obtain ⟨c, hc, hres⟩ := h.get hl
    rw [State.container?, hc, Option.bind_some, hres]

def State.find (os : OS) (s : State) (elem : ℕ) : Except Fault (Option ℕ) :=
  Search.binarySearch (fun k => s.ctx.containers[k]?.bind fun c => s.mach.load os c.reference_)
    s.ctx.containers_num_ elem

theorem meets_lookup_eq {elem : ℕ} {Q : Option ℕ → State → Prop} :
    Meets (lookup os elem) s Q E ↔ Meets (ofSearch (s.find os elem)) s Q E := by
  rw [lookup, meets_bind, meets_get, State.find]

theorem Views.find_spec (h : Views os s.mach lo hi s.ctx.containers L)
    (hn : s.ctx.containers_num_ = L.length) (hlen : L.length ≤ 2 ^ 63) (hasc : Ascending L)
    (hlt : ∀ l ∈ L, l.reference_ < 2 ^ 63) {t : ℕ} {l : Container} (hl : L[t]? = some l) :
    ∃ k l', s.find os l.reference_ = .ok (some k) ∧ L[k]? = some l' ∧
      l'.reference_ = l.reference_ := by
  have hs := h.sorted hlen hasc hlt (List.getElem?_eq_some_iff.mp hl).1
  obtain ⟨k, hk, hb, he⟩ := hs.binarySearch_found
  have hk' := List.getElem?_eq_getElem hk
  simp only [hl, hk', Option.map_some, Option.getD_some] at he hb
  rw [← hn] at hb
  exact ⟨k, L[k], hb, hk', he⟩

theorem Views.meets_lookup (h : Views os s.mach lo hi s.ctx.containers L)
    (hn : s.ctx.containers_num_ = L.length) (hlen : L.length ≤ 2 ^ 63) (hasc : Ascending L)
    (hlt : ∀ l ∈ L, l.reference_ < 2 ^ 63) {t : ℕ} {l : Container} (hl : L[t]? = some l)
    {Q : Option ℕ → State → Prop}
    (hQ : ∀ (k : ℕ) l', s.find os l.reference_ = .ok (some k) → L[k]? = some l' →
      l'.reference_ = l.reference_ → Q (some k) s) :
    Meets (lookup os l.reference_) s Q E := by
  obtain ⟨k, l', hb, hk, he⟩ := h.find_spec hn hlen hasc hlt hl
  rw [meets_lookup_eq, hb]
  exact (meets_pure _).mpr (hQ k l' hb hk he)

end Positions

end VcmallocBench
