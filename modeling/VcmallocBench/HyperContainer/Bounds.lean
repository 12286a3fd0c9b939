import VcmallocBench.HyperContainer.Accounts

/-! # Accesses to the tables

The counters of a hypercontainer stay within its two tables, and no call reads or
writes outside of them, or outside the blocks that a batch allocates.
-/

namespace VcmallocBench

open Paging

/-- The counters lie within the tables, and the tables are as long as recorded. -/
structure WithinTables (ctx : HyperContainerContext) : Prop where
  containers : ctx.containers_num_ ≤ ctx.containers_max_
  pfns : ctx.pfns_num_ ≤ ctx.pfns_max_
  containers_table : ctx.containercontext_storage_.map (·.room) = some ctx.containers_max_
  pfns_table : ctx.pfns_storage_.map List.length = some ctx.pfns_max_

/-- An accounted call. An allocation asks for fewer pages than an `int` counts, and neither table
wraps. -/
def Contained (os : OS) (base : ℕ) (s : State) (call : Call) : Prop :=
  Accounted os base s call ∧ match call with
    | .vcmalloc _ sizeofT n => s.ctx.containers_num_ < 2 ^ 59 ∧ s.ctx.pfns_num_ < 2 ^ 59 ∧
        sizeofT * n ≤ (2 ^ 31 - 1) * os.page_size
    | _ => True

section Bounds

variable {os : OS} {s₀ s s' t : State} {base h R lo : ℕ} {cs : List ContainerContext}
  {st : List Frame} {L : List Container} {calls : List Call} {call : Call} {e : Fault}

theorem intCast_ceilPages_le {n : ℕ} (h : n ≤ (2 ^ 31 - 1) * os.page_size) :
    intCast (ceilPages os n) ≤ 2 ^ 31 - 1 := by
  have hle : ceilPages os n ≤ 2 ^ 31 - 1 := by
    refine (ceil_le_iff os.page_size_pos).mpr (toDouble_le_of_dvd h ?_ (Nat.dvd_mul_left ..))
    rw [pow_add]
    exact Nat.mul_lt_mul_of_pos_right (by decide) os.page_size_pos
  rw [intCast, if_pos (by omega)]
  exact hle

theorem Core.withinTables {ctx : HyperContainerContext} (hc : Core ctx cs st) : WithinTables ctx where
  containers := hc.containers_num ▸ hc.containers_le
  pfns := hc.max ▸ hc.num
  containers_table := by rw [hc.cells, Option.map_some]
  pfns_table := by rw [hc.table, Option.map_some, hc.max]

/-- A call accesses no table out of bounds, unless one of its calls to the heap or to the system
fails. -/
theorem Counted.meets_call (hc : Counted os s lo lo cs st L) (hreg : s.mach.Reserved os)
    (hbase : os.page_size ∣ base) (hok : Contained os base s call) :
    Meets (call.run os base) s (fun _ _ => True) fun e t =>
      t.mach.failures = s.mach.failures → e ≠ .bounds := by
  have hblames : ∀ e t, Blames False s.mach.failures e t →
      t.mach.failures = s.mach.failures → e ≠ .bounds :=
    fun e t he hfail => (he.resolve_left (by rw [hfail]; exact lt_irrefl _)).2
  cases call with
  | vcmalloc user sizeofT n =>
    obtain ⟨⟨⟨⟨x, rfl⟩, hx⟩, L', hL', hov⟩, hcontainers, hpfns, hbytes⟩ := hok
    obtain rfl := hc.reads_eq hL'
    rw [hc.core.containers_eq] at hx
    rw [hc.core.containers_num] at hcontainers
    refine (hc.meets_vcmalloc hreg hbase hx hov).mono (fun _ _ _ => trivial)
      fun e t hne _ => hne hcontainers ?_
    have hle : u64 (sizeofT * n) - gap os.page_size (endOf base L') ≤ (2 ^ 31 - 1) * os.page_size := by
      have : u64 (sizeofT * n) ≤ sizeofT * n := Nat.mod_le _ _
      omega
    have := intCast_ceilPages_le hle
    omega
  | vcrealloc user sizeofT n =>
    obtain ⟨⟨k, c, l, hr, hfind, hu⟩, -⟩ := hok
    obtain ⟨hk, hl, hs⟩ := hr.get hc
    obtain rfl := hr.reference
    exact (hc.meets_vcrealloc hk hl hfind hs hu).mono (fun _ _ _ => trivial) hblames
  | vcrealloc2 user sizeofT array =>
    obtain ⟨⟨k, c, l, L', hr, hfind, hL', hb⟩, -⟩ := hok
    obtain rfl := hc.reads_eq hL'
    obtain ⟨hk, hl, -⟩ := hr.get hc
    obtain rfl := hr.reference
    exact (hc.meets_vcrealloc2 hk hl hfind hb).mono (fun _ _ _ => trivial) hblames

end Bounds

end VcmallocBench
