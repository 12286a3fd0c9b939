import VcmallocBench.HyperContainer.Operations

/-! # Rules for the primitives

How the primitive operations meet a postcondition, what each system call leaves
unchanged, and the tables of a context as lists of values. A call that did not
do all it was asked to do raises the number of failures of the machine.
-/

namespace VcmallocBench

variable {os : OS} {s t : State} {E : Fault → State → Prop}

section Primitives

variable {α : Type} {Q : α → State → Prop} {R : Unit → State → Prop}

theorem meets_fetch {f : State → Option α} {e : Fault} {a : α} (h : f s = some a) :
    Meets (fetch f e) s Q E ↔ Q a s := by
  unfold Meets fetch; rw [h]

theorem meets_fetch_none {f : State → Option α} {e : Fault} (h : f s = none) :
    Meets (fetch f e) s Q E ↔ E e s := by
  unfold Meets fetch; rw [h]

theorem meets_onMachine {f : Machine → Option Machine} {e : Fault} {m : Machine}
    (h : f s.mach = some m) : Meets (onMachine f e) s R E ↔ R () { s with mach := m } := by
  unfold Meets onMachine; rw [h]

theorem meets_onMachine_none {f : Machine → Option Machine} {e : Fault} (h : f s.mach = none) :
    Meets (onMachine f e) s R E ↔ E e s := by
  unfold Meets onMachine; rw [h]

@[simp] theorem meets_osCall (f : Machine → α × Machine) :
    Meets (osCall f) s Q E ↔ Q (f s.mach).1 { s with mach := (f s.mach).2 } := by
  rw [osCall, meets_modifyGet]

theorem meets_ensure {ok : Bool} {message : String} (h : ok = true → R () s)
    (h' : ok = false → E (.thrown message) s) : Meets (ensure ok message) s R E := by
  cases ok
  · exact (meets_throw _).mpr (h' rfl)
  · exact (meets_pure _).mpr (h rfl)

theorem meets_onlyIf {c : Prop} [Decidable c] {p : Op Unit} (h : c → Meets p s R E)
    (h' : ¬ c → R () s) : Meets (onlyIf c p) s R E :=
  meets_ite h fun hc => (meets_pure _).mpr (h' hc)

@[simp] theorem meets_modifyCtx (f : HyperContainerContext → HyperContainerContext) :
    Meets (modifyCtx f) s R E ↔ R () { s with ctx := f s.ctx } := by
  rw [modifyCtx, meets_modify]

@[simp] theorem meets_getCtx {Q : HyperContainerContext → State → Prop} :
    Meets getCtx s Q E ↔ Q s.ctx s := by
  rw [getCtx, meets_bind, meets_get, meets_pure]

theorem meets_contextAt {k : ℕ} {c : ContainerContext} {Q : ContainerContext → State → Prop}
    (h : s.ctx.containers[k]? = some c) : Meets (contextAt k) s Q E ↔ Q c s :=
  meets_fetch h

theorem meets_containerAt {k : ℕ} {c : ContainerContext} {l : Container}
    {Q : Container → State → Prop} (h : s.ctx.containers[k]? = some c)
    (hl : c.resolve os s.mach = some l) : Meets (containerAt os k) s Q E ↔ Q l s := by
  rw [containerAt, meets_bind, meets_contextAt h, meets_fetch hl]

theorem meets_containerAt_mk {k : ℕ} {c : ContainerContext} {l : Container} {m : Machine}
    {ctx : HyperContainerContext} {Q : Container → State → Prop} (h : ctx.containers[k]? = some c)
    (hl : c.resolve os m = some l) : Meets (containerAt os k) ⟨m, ctx⟩ Q E ↔ Q l ⟨m, ctx⟩ :=
  meets_containerAt h hl

theorem meets_loadPtr {l : PtrLoc} {v : ℕ} {Q : ℕ → State → Prop}
    (h : s.mach.load os l = some v) : Meets (loadPtr os l) s Q E ↔ Q v s := meets_fetch h

theorem meets_storePtr {l : PtrLoc} {v : ℕ} {m : Machine} (h : s.mach.assign os l v = some m) :
    Meets (storePtr os l v) s R E ↔ R () { s with mach := m } :=
  meets_onMachine (f := (·.assign os l v)) h

theorem meets_storePtr_none {l : PtrLoc} {v : ℕ} (h : s.mach.assign os l v = none) :
    Meets (storePtr os l v) s R E ↔ E .segv s :=
  meets_onMachine_none (f := (·.assign os l v)) h

theorem meets_readPFNs {i n : ℕ} {Q : List Frame → State → Prop}
    (h : i + n ≤ s.ctx.frames.length) :
    Meets (readPFNs i n) s Q E ↔ Q (slice s.ctx.frames i n) s :=
  meets_fetch (readSlice_eq h)

theorem frames_of_storage {ctx : HyperContainerContext} {st : List Frame}
    (h : ctx.pfns_storage_ = some st) : ctx.frames = st := by
  rw [HyperContainerContext.frames, h, Option.getD_some]

theorem meets_writePFNs {i : ℕ} {fs st : List Frame} (hs : s.ctx.pfns_storage_ = some st)
    (h : i + fs.length ≤ st.length) :
    Meets (writePFNs i fs) s R E ↔
      R () { s with ctx := { s.ctx with pfns_storage_ := some (overwrite st i fs) } } := by
  have hb : blit fs 0 s.ctx.frames i fs.length = some (overwrite st i fs) := by
    rw [frames_of_storage hs, blit_eq (by omega) h, slice, List.drop_zero, List.take_length]
  rw [writePFNs, meets_bind, meets_fetch hb, meets_modifyCtx, hs, Option.map_some]

theorem meets_movePFNs {dst src n : ℕ} {st : List Frame} (hs : s.ctx.pfns_storage_ = some st)
    (hsrc : src + n ≤ st.length) (hdst : dst + n ≤ st.length) :
    Meets (movePFNs dst src n) s R E ↔
      R () { s with ctx := { s.ctx with
        pfns_storage_ := some (overwrite st dst (slice st src n)) } } := by
  have hb : blit s.ctx.frames src s.ctx.frames dst n = some (overwrite st dst (slice st src n)) := by
    rw [frames_of_storage hs, blit_eq hsrc hdst]
  rw [movePFNs, meets_bind, meets_fetch hb, meets_modifyCtx, hs, Option.map_some]

theorem meets_setElements {k n : ℕ} {cells : List ContainerContext} {room : ℕ}
    {c : ContainerContext} (hs : s.ctx.containercontext_storage_ = some ⟨cells, room⟩)
    (hr : cells.length ≤ room) (hc : cells[k]? = some c) :
    Meets (setElements k n) s R E ↔
      R () { s with ctx := { s.ctx with
        containercontext_storage_ := some ⟨cells.set k { c with elements_num_ := n }, room⟩ } } := by
  obtain ⟨hk, -⟩ := List.getElem?_eq_some_iff.mp hc
  have hcs : s.ctx.containers = cells := by simp [HyperContainerContext.containers, hs]
  rw [setElements, meets_bind, meets_contextAt (hcs ▸ hc)]
  unfold Meets writeContext
  rw [hs]
  dsimp only
  rw [if_pos ⟨by omega, hk.le⟩, List.set_eq_take_append_cons_drop, if_pos hk]

theorem meets_writeContext_append {cells : List ContainerContext} {room : ℕ} {c : ContainerContext}
    (hs : s.ctx.containercontext_storage_ = some ⟨cells, room⟩) (hr : cells.length < room) :
    Meets (writeContext cells.length c) s R E ↔
      R () { s with ctx := { s.ctx with
        containercontext_storage_ := some ⟨cells ++ [c], room⟩ } } := by
  unfold Meets writeContext
  rw [hs]
  dsimp only
  rw [if_pos ⟨hr, le_rfl⟩, List.take_length, List.drop_eq_nil_of_le (by omega)]

theorem meets_writeContext_out {k room : ℕ} {cells : List ContainerContext} {c : ContainerContext}
    (hs : s.ctx.containercontext_storage_ = some ⟨cells, room⟩) (hr : room ≤ k) :
    Meets (writeContext k c) s R E ↔ E .bounds s := by
  unfold Meets writeContext
  rw [hs]
  dsimp only
  rw [if_neg (by omega)]

end Primitives

namespace Machine

variable (os : OS) (m : Machine)

theorem failures_cons (m : Machine) (c : OsCall) :
    failures { m with calls := c :: m.calls } = m.failures + if c.success then 0 else 1 := by
  cases h : c.success <;> simp [failures, h]

theorem failures_of_calls {m m' : Machine} {c : OsCall} (h : m'.calls = c :: m.calls) :
    m'.failures = m.failures + if c.success then 0 else 1 := by
  rw [← failures_cons, failures, h]; rfl

@[simp] theorem failures_heapCall (bytes : ℕ) :
    (m.heapCall os bytes).2.failures = m.failures + if m.reply os then 0 else 1 :=
  failures_cons m (.heap bytes (m.reply os))

@[simp] theorem failures_heapFreeCall :
    (m.heapFreeCall os).2.failures = m.failures + if m.reply os then 0 else 1 :=
  failures_cons m (.heapFree (m.reply os))

@[simp] theorem failures_mapCall (a n : ℕ) (fs : Option (List Frame)) :
    (m.mapCall os a n fs).2.failures = m.failures + if m.mapReply os a n then 0 else 1 :=
  failures_cons m (.map a n (m.mapReply os a n))

theorem failures_lt_mapCall {os : OS} {m : Machine} {a n F : ℕ} {fs : Option (List Frame)}
    (h : (m.mapCall os a n fs).1 = false) (hF : F ≤ m.failures) :
    F < (m.mapCall os a n fs).2.failures := by
  have hr : m.mapReply os a n = false := h
  rw [failures_mapCall, hr]
  exact Nat.lt_succ_of_le hF

@[simp] theorem failures_freeCall (fs : List Frame) :
    (m.freeCall os fs).2.failures = m.failures +
      if (m.freeCall os fs).1.1 && (m.freeCall os fs).1.2 == fs.length then 0 else 1 :=
  failures_cons m (.free fs m.allocated _ _)

@[simp] theorem failures_allocateCall (n : ℕ) :
    (m.allocateCall os n).2.failures = m.failures +
      if (m.allocateCall os n).1.1 && (m.allocateCall os n).1.2.length == n then 0 else 1 := by
  unfold allocateCall
  dsimp only
  split
  · exact failures_cons m (.allocate n _ true)
  · exact failures_cons m (.allocate n [] false)

theorem length_allocateCall (os : OS) (m : Machine) (n : ℕ) :
    (m.allocateCall os n).1.2.length ≤ n := by
  unfold allocateCall
  dsimp only
  split
  · exact os.pick_le _ _ _
  · exact Nat.zero_le _

theorem failures_lt_allocateCall {os : OS} {m : Machine} {n F : ℕ}
    (h : (m.allocateCall os n).1.1 = false ∨ (m.allocateCall os n).1.2.length ≠ n)
    (hF : F ≤ m.failures) : F < (m.allocateCall os n).2.failures := by
  have hf : ((m.allocateCall os n).1.1 && (m.allocateCall os n).1.2.length == n) = false := by
    rcases h with h | h
    · rw [h, Bool.false_and]
    · rw [beq_false_of_ne h, Bool.and_false]
  rw [failures_allocateCall, hf]
  exact Nat.lt_succ_of_le hF

theorem failures_lt_freeCall {os : OS} {m : Machine} {F : ℕ} {fs : List Frame}
    (h : (m.freeCall os fs).1.1 = false ∨ (m.freeCall os fs).1.2 ≠ fs.length)
    (hF : F ≤ m.failures) : F < (m.freeCall os fs).2.failures := by
  have hf : ((m.freeCall os fs).1.1 && (m.freeCall os fs).1.2 == fs.length) = false := by
    rcases h with h | h
    · rw [h, Bool.false_and]
    · rw [beq_false_of_ne h, Bool.and_false]
  rw [failures_freeCall, hf]
  exact Nat.lt_succ_of_le hF

@[simp] theorem failures_releaseCall (a : ℕ) :
    (m.releaseCall os a).2.failures = m.failures + if m.reply os then 0 else 1 :=
  failures_cons m (.release a (m.reply os))

end Machine

end VcmallocBench
