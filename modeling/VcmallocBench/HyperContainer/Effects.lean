import VcmallocBench.Library.Leads
import VcmallocBench.HyperContainer.Tables

/-! # Effects of the operations

What the operations may change, for any relation between states that their
single steps respect. Lookups and positions only read.
-/

namespace VcmallocBench

section Reads

variable (os : OS)

theorem leads_fetch {α : Type} (f : State → Option α) (e : Fault) : Leads Eq (fetch f e) := by
  intro s
  cases h : f s with
  | none => rw [meets_fetch_none h]
  | some a => rw [meets_fetch h]

theorem leads_getCtx : Leads Eq getCtx := fun s => by rw [meets_getCtx]

theorem leads_ensure (ok : Bool) (message : String) : Leads Eq (ensure ok message) :=
  fun _ => meets_ensure (fun _ => rfl) fun _ => rfl

theorem leads_loadPtr (l : PtrLoc) : Leads Eq (loadPtr os l) := leads_fetch _ _

theorem leads_contextAt (k : ℕ) : Leads Eq (contextAt k) := leads_fetch _ _

theorem leads_containerAt (k : ℕ) : Leads Eq (containerAt os k) :=
  (leads_contextAt k).bind fun _ => leads_fetch _ _

theorem leads_readPFNs (i n : ℕ) : Leads Eq (readPFNs i n) := leads_fetch _ _

theorem leads_getPFNsPosition (start stop : ℕ) : Leads Eq (getPFNsPosition os start stop) :=
  Leads.foldlM (fun _ _ => (leads_containerAt os _).bind fun _ => .pure _) _ _

theorem leads_lookup (elem : ℕ) : Leads Eq (lookup os elem) := by
  refine Leads.get.bind fun s => ?_
  cases Search.binarySearch (fun k => s.ctx.containers[k]?.bind fun c =>
    s.mach.load os c.reference_) s.ctx.containers_num_ elem with
  | ok a => exact .pure a
  | error e => exact .throw e

theorem leads_nextSlot (base : ℕ) : Leads Eq (nextSlot os base) :=
  leads_getCtx.bind fun _ => .ite (.pure _) ((leads_containerAt os _).bind fun _ => .pure _)

end Reads

section Cases

variable {os : OS} {s : State} {α : Type} {E : Fault → State → Prop}

theorem meets_fetch_cases {f : State → Option α} {e : Fault} {Q : α → State → Prop}
    (h : ∀ a, f s = some a → Q a s) (h' : E e s) : Meets (fetch f e) s Q E := by
  cases hf : f s with
  | none => exact (meets_fetch_none hf).mpr h'
  | some a => exact (meets_fetch hf).mpr (h a hf)

theorem meets_containerAt_cases {k : ℕ} {Q : Container → State → Prop}
    (h : ∀ l, s.container? os k = some l → Q l s) (h' : ∀ e, E e s) :
    Meets (containerAt os k) s Q E := by
  rw [containerAt, meets_bind, contextAt]
  refine meets_fetch_cases (fun c hc => meets_fetch_cases (fun l hl => h l ?_) (h' _)) (h' _)
  rw [State.container?, hc, Option.bind_some, hl]

theorem meets_lookup_cases {elem : ℕ} {Q : Option ℕ → State → Prop}
    (h : ∀ r, s.find os elem = .ok r → Q r s) (h' : ∀ e, E e s) : Meets (lookup os elem) s Q E := by
  rw [meets_lookup_eq]
  cases hf : s.find os elem with
  | ok r => exact (meets_pure _).mpr (h r hf)
  | error e => exact (meets_throw _).mpr (h' e)

theorem meets_getPFNsPosition_cases {start stop : ℕ} {Q : ℕ → State → Prop}
    (h : ∀ a, value? (getPFNsPosition os start stop s) = some a → a < 2 ^ 64 → Q a s)
    (h' : ∀ e, E e s) : Meets (getPFNsPosition os start stop) s Q E := by
  have hword : Meets (getPFNsPosition os start stop) s (fun a _ => a < 2 ^ 64) fun _ _ => True := by
    refine meets_foldlM (I := fun _ a _ => a < 2 ^ 64) _ _ (by decide) fun _ x _ _ a t _ => ?_
    rw [meets_bind]
    exact Meets.trivial.imp fun _ _ _ => (meets_pure _).mpr (u64_lt _)
  refine ((leads_getPFNsPosition os start stop).meets_read.and hword).mono (fun a t ht => ?_)
    fun e t ht => ?_
  · obtain ⟨⟨rfl, ha⟩, hlt⟩ := ht
    exact h a ha hlt
  · obtain ⟨rfl, -⟩ := ht
    exact h' e

end Cases

section Writes

variable {R : State → State → Prop}

theorem leads_onMachine {f : Machine → Option Machine} [Std.Refl R] (e : Fault)
    (h : ∀ s m, f s.mach = some m → R s { s with mach := m }) : Leads R (onMachine f e) := by
  intro s
  cases hf : f s.mach with
  | none => exact (meets_onMachine_none hf).mpr (refl_of R s)
  | some m => exact (meets_onMachine hf).mpr (h s m hf)

theorem leads_osCall {α : Type} {f : Machine → α × Machine}
    (h : ∀ s, R s { s with mach := (f s.mach).2 }) : Leads R (osCall f) := .modifyGet h

theorem leads_modifyCtx {f : HyperContainerContext → HyperContainerContext}
    (h : ∀ s, R s { s with ctx := f s.ctx }) : Leads R (modifyCtx f) := .modify h

theorem leads_onlyIf {c : Prop} [Decidable c] [Std.Refl R] {p : Op Unit} (h : c → Leads R p) :
    Leads R (onlyIf c p) := by
  rw [onlyIf]
  split
  · exact h ‹_›
  · exact .pure _

theorem leads_writeContext [Std.Refl R] (k : ℕ) (c : ContainerContext)
    (h : ∀ s table, R s { s with ctx := { s.ctx with containercontext_storage_ := table } }) :
    Leads R (writeContext k c) := by
  intro s
  unfold Meets writeContext
  cases hs : s.ctx.containercontext_storage_ with
  | none => exact refl_of R s
  | some table =>
    by_cases hk : k < table.room ∧ k ≤ table.cells.length
    · simp only [if_pos hk]
      exact h s _
    · simp only [if_neg hk]
      exact refl_of R s

end Writes

end VcmallocBench
