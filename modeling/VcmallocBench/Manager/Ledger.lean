import VcmallocBench.HyperContainer.Accounts
import VcmallocBench.Manager.Heaps

/-! # The ledger of frames

The hypercontainers of a process share the frames that it holds. Every frame is in
the frame table of one hypercontainer, once, whatever the program has allocated,
resized and freed; and no frame is freed that is not held.
-/

namespace VcmallocBench

open Paging

/-- The calls made in between have neither allocated nor freed a frame, and have changed no variable. -/
structure Machine.Idle (os : OS) (m m' : Machine) : Prop where
  vars : m'.vars = m.vars
  allocated : m'.allocated = m.allocated
  reserved : m.Reserved os → m'.Reserved os
  legal : ∀ c ∈ m'.calls, c ∈ m.calls ∨ c.Legal

def Idles (os : OS) (s t : Process) : Prop := s.mach.Idle os t.mach

section Idle

variable {os : OS} {m m' m'' : Machine}

theorem Machine.Idle.refl (os : OS) (m : Machine) : m.Idle os m :=
  ⟨rfl, rfl, id, fun _ hc => Or.inl hc⟩

theorem Machine.Idle.trans (h : m.Idle os m') (h' : m'.Idle os m'') : m.Idle os m'' where
  vars := h'.vars.trans h.vars
  allocated := h'.allocated.trans h.allocated
  reserved hr := h'.reserved (h.reserved hr)
  legal c hc := (h'.legal c hc).elim (h.legal c) Or.inr

instance : Std.Refl (Idles os) := ⟨fun s => .refl os s.mach⟩

instance : IsTrans Process (Idles os) := ⟨fun _ _ _ h₁ h₂ => h₁.trans h₂⟩

theorem Machine.Idle.logged {c : OsCall} (hc : c.Legal) : m.Idle os { m with calls := c :: m.calls } where
  vars := rfl
  allocated := rfl
  reserved := id
  legal d hd := by
    rcases List.mem_cons.mp hd with rfl | hd
    · exact Or.inr hc
    · exact Or.inl hd

theorem Machine.idle_reserveCall (os : OS) (m : Machine) (a n : ℕ) :
    m.Idle os (m.reserveCall os a n).2 := by
  rw [Machine.reserveCall]
  cases hp : os.place m.calls.length m.regions a (n ⌈/⌉ os.page_size * os.page_size) with
  | none => exact .logged trivial
  | some b =>
    obtain ⟨-, -, -, hend, -⟩ := os.place_spec _ _ _ _ _ hp
    refine ⟨rfl, rfl, fun hr g hg => ?_, fun c hc => ?_⟩
    · rcases List.mem_cons.mp hg with rfl | hg
      · exact hend
      · exact hr g hg
    · rcases List.mem_cons.mp hc with rfl | hc
      · exact Or.inr trivial
      · exact Or.inl hc

theorem Machine.idle_releaseCall (os : OS) (m : Machine) (a : ℕ) :
    m.Idle os (m.releaseCall os a).2 := by
  refine ⟨rfl, rfl, fun hr g hg => ?_, fun c hc => ?_⟩
  · rw [Machine.releaseCall] at hg
    dsimp only at hg
    split at hg
    · exact hr g (List.mem_of_mem_filter hg)
    · exact hr g hg
  · rcases List.mem_cons.mp hc with rfl | hc
    · exact Or.inr trivial
    · exact Or.inl hc

end Idle

namespace Process

section Idles

variable {os : OS}

theorem heaps_idles (os : OS) : Heaps os (Idles os) where
  set s _ := .refl os s.mach
  heapCall _ _ := .logged trivial
  heapFreeCall s := Machine.Idle.logged (c := .heapFree (s.mach.reply os)) trivial

theorem idles_osCall {α : Type} {f : Machine → α × Machine}
    (h : ∀ m : Machine, m.Idle os (f m).2) :
    Leads (Idles os) (osCall f) := .modifyGet fun s => h s.mach

theorem idles_reserve (dwSize : ℕ) : ∀ attempts r : ℕ, Leads (Idles os) (reserve os dwSize attempts r)
  | 0, _ => .throw _
  | attempts + 1, r => by
    refine (idles_osCall fun m => Machine.idle_reserveCall os m r dwSize).bind fun b => ?_
    cases b with
    | none => exact idles_reserve dwSize attempts _
    | some b => exact .pure _

theorem idles_vccalloc (attempts dwSize : ℕ) : Leads (Idles os) (vccalloc os attempts dwSize) := by
  refine leads_requestedAddress.bind fun requested => (idles_reserve _ _ _).bind fun b => ?_
  exact ((heaps_idles os).leads_insert _ _).bind fun _ => .pure _

end Idles

structure Released (os : OS) (m m' : Machine) (fs : List Frame) : Prop where
  vars : m'.vars = m.vars
  allocated : m'.allocated = m.allocated.filter (· ∉ fs)
  reserved : m.Reserved os → m'.Reserved os
  legal : fs.Nodup → (∀ f ∈ fs, f ∈ m.allocated) → ∀ c ∈ m'.calls, c ∈ m.calls ∨ c.Legal

section Free

variable {os : OS} {s : Process}

theorem Released.trans {m m' m'' : Machine} {fs : List Frame} (h : Released os m m' fs)
    (h' : m'.Idle os m'') : Released os m m'' fs where
  vars := h'.vars.trans h.vars
  allocated := h'.allocated.trans h.allocated
  reserved hr := h'.reserved (h.reserved hr)
  legal hnd hheld c hc := (h'.legal c hc).elim (h.legal hnd hheld c) Or.inr

theorem meets_freeFrames (ctx : HyperContainerContext) (hroom : ctx.pfns_num_ ≤ ctx.frames.length) :
    Meets (freeFrames os ctx) s (fun n t => n = ctx.pfns_num_ → Released os s.mach t.mach ctx.listed)
      fun _ _ => True := by
  rw [freeFrames]
  refine meets_ite (fun hne => ?_) fun hz => (meets_pure _).mpr fun _ => ?_
  · have hread : readSlice ctx.frames 0 ctx.pfns_num_ = some ctx.listed := by
      rw [readSlice_eq (by omega), slice, List.drop_zero]
      rfl
    rw [meets_bind]
    refine (meets_fetch hread).mpr ?_
    rw [meets_bind, meets_osCall, meets_bind]
    refine meets_ensure (fun hok => (meets_pure _).mpr fun hn => ?_) fun _ => trivial
    have hlen : ctx.listed.length = ctx.pfns_num_ := by
      rw [HyperContainerContext.listed, List.length_take, Nat.min_eq_left hroom]
    have heq := Machine.freeCall_eq hok (hn.trans hlen.symm)
    rw [heq]
    refine ⟨rfl, rfl, id, fun hnd hheld c hc => ?_⟩
    rcases List.mem_cons.mp hc with rfl | hc
    · exact Or.inr ⟨hnd, hheld⟩
    · exact Or.inl hc
  · have hnil : ctx.listed = [] := by
      rw [HyperContainerContext.listed, not_not.mp hz, List.take_zero]
    rw [hnil]
    refine ⟨rfl, ?_, id, fun _ _ c hc => Or.inl hc⟩
    rw [List.filter_eq_self.mpr fun _ _ => by simp]

theorem meets_HyperContainerFree_frames {b i : ℕ} {ctx : HyperContainerContext}
    (hfind : s.manager.find b = .ok (some i)) (hctx : s.manager.contexts[i]? = some ctx)
    (hroom : ctx.pfns_num_ ≤ ctx.frames.length) :
    Meets (HyperContainerFree os b) s (fun _ t => Released os s.mach t.mach ctx.listed)
      fun _ _ => True := by
  rw [HyperContainerFree, meets_bind]
  refine meets_search (fun r hr => ?_) fun _ _ => trivial
  obtain rfl := Except.ok.inj (hfind.symm.trans hr)
  dsimp only
  rw [meets_bind]
  refine (meets_fetch hctx).mpr ?_
  refine (meets_freeFrames ctx hroom).bind fun n t ht => ?_
  rw [meets_bind]
  refine meets_ensure (fun hn => ?_) fun _ => trivial
  have hfreed := ht (beq_iff_eq.mp hn)
  have hrest : Leads (Idles os) (do
      let ok ← osCall (·.releaseCall os b)
      ensure ok "vcfree: couldn't free hypercontainer's virtual space"
      let _ ← osCall (·.heapFreeCall os)
      let _ ← osCall (·.heapFreeCall os)
      remove i) := by
    refine (idles_osCall fun m => Machine.idle_releaseCall os m b).bind fun _ => ?_
    refine (leads_ensure _ _).bind fun _ => (heaps_idles os).leads_heapFreeCall.bind fun _ => ?_
    exact (heaps_idles os).leads_heapFreeCall.bind fun _ => (heaps_idles os).leads_remove i
  exact (hrest t).mono (fun _ u hu => hfreed.trans hu) fun _ _ _ => trivial

theorem meets_call_returned {b : ℕ} {c : Call} : Meets (call os b c) s (fun _ t => ∃ i ctx u,
    s.manager.find b = .ok (some i) ∧ s.manager.contexts[i]? = some ctx ∧
      c.run os b ⟨s.mach, ctx⟩ = .ok () u ∧ t = ⟨u.mach, s.manager.setContext i u.ctx⟩)
    fun _ _ => True := by
  rw [call, meets_bind]
  refine meets_search (fun r hr => ?_) fun _ _ => trivial
  cases r with
  | none => exact (meets_throw _).mpr trivial
  | some i =>
    dsimp only
    cases hctx : s.manager.contexts[i]? with
    | none =>
      rw [Meets, onContext, hctx]
      trivial
    | some ctx =>
      refine (meets_onContext hctx).mpr ?_
      cases hp : c.run os b ⟨s.mach, ctx⟩ with
      | ok a u => exact meets_of_ok hp ⟨i, ctx, u, hr, hctx, hp, rfl⟩
      | error e u =>
        rw [Meets, hp]
        trivial

end Free

end Process

/-- The contexts of the hypercontainers in use. -/
def HyperContainerManager.inUse (manager : HyperContainerManager) : List HyperContainerContext :=
  manager.contexts.take manager.hypercontainers_num_

/-- The program writes to its memory and its variables, but not to those of a container. -/
structure Process.Between (os : OS) (s : Process) (m : Machine) : Prop where
  pageTable : m.pageTable = s.mach.pageTable
  regions : m.regions = s.mach.regions
  allocated : m.allocated = s.mach.allocated
  calls : m.calls = s.mach.calls
  kept : ∀ ctx ∈ s.manager.inUse, ∀ c ∈ ctx.containers,
    m.load os c.reference_ = s.mach.load os c.reference_

/-- A call that no sum or product of its counts and addresses wraps in. A variable for a new container
is the one of no other container, in any hypercontainer. -/
def Process.Accounted (os : OS) (s : Process) (b : ℕ) (c : Call) : Prop :=
  (∀ i ctx, s.manager.find b = .ok (some i) → s.manager.contexts[i]? = some ctx →
    VcmallocBench.Accounted os b ⟨s.mach, ctx⟩ c) ∧
  ∀ user sizeofT n, c = .vcmalloc user sizeofT n →
    ∀ ctx ∈ s.manager.inUse, ∀ d ∈ ctx.containers, d.reference_ ≠ user

/-- Calls of the program that return, after it has written to memory. No call to the heap or to the
system has failed in them, but for attempts to reserve an address range. -/
inductive Accounts (os : OS) : Process → Request → Process → Prop
  | vccalloc {s t : Process} {m : Machine} {attempts dwSize b : ℕ} (hm : s.Between os m)
      (hfit : attempts * os.granularity ≤ 2 ^ 63)
      (hrun : Process.vccalloc os attempts dwSize ⟨m, s.manager⟩ = .ok b t)
      (hheap : ∀ c ∈ t.mach.calls, c.heapOk = true) : Accounts os s (.vccalloc attempts dwSize) t
  | vccfree {s t : Process} {m : Machine} {b : ℕ} (hm : s.Between os m) (hb : b < 2 ^ 64)
      (hrun : Process.HyperContainerFree os b ⟨m, s.manager⟩ = .ok () t) : Accounts os s (.vccfree b) t
  | call {s t : Process} {m : Machine} {b : ℕ} {c : Call} (hm : s.Between os m) (hb : b < 2 ^ 64)
      (hok : Process.Accounted os ⟨m, s.manager⟩ b c)
      (hrun : Process.call os b c ⟨m, s.manager⟩ = .ok () t)
      (hfail : t.mach.failures = m.failures) : Accounts os s (.call b c) t

theorem Process.Between.refl (os : OS) (s : Process) : s.Between os s.mach :=
  ⟨rfl, rfl, rfl, rfl, fun _ _ _ _ => rfl⟩

theorem Accounts.of_returned (os : OS) (s : Process) (b i : ℕ) (c : Call) (hb : b < 2 ^ 64)
    (hfind : s.manager.find b = .ok (some i))
    (hok : Accounted os b ⟨s.mach, (s.manager.contexts[i]?).getD (.new os 0 true true)⟩ c)
    (hnew : ∀ user sizeofT n, c = .vcmalloc user sizeofT n →
      ∀ ctx ∈ s.manager.inUse, ∀ d ∈ ctx.containers, d.reference_ ≠ user)
    (hrun : returned (Process.call os b c s) = true)
    (hfail : (endState (Process.call os b c s)).mach.failures = s.mach.failures) :
    Accounts os s (.call b c) (endState (Process.call os b c s)) := by
  refine .call (.refl os s) hb ⟨fun j ctx hj hctx => ?_, hnew⟩ (eq_ok_of_returned hrun) hfail
  obtain rfl := Option.some.inj (Except.ok.inj (hfind.symm.trans hj))
  rw [hctx] at hok
  exact hok

/-- The hypercontainers in use share the frames held, no call has freed a frame that was not held,
and all counters stay within the tables. -/
structure Process.Ledger (s : Process) : Prop where
  shared : Shared s.mach.allocated (s.manager.inUse.map (·.listed))
  legal : ∀ c ∈ s.mach.calls, c.Legal
  room : ∀ ctx ∈ s.manager.inUse, ctx.pfns_num_ ≤ ctx.pfns_max_ ∧ ctx.pfns_max_ = ctx.frames.length ∧
    ctx.containers_num_ ≤ ctx.containers_max_ ∧ ctx.containers_num_ = ctx.containers.length

section Ledgers

variable {os : OS} {s t : Process} {m : Machine} {live : Entries} {i b : ℕ}
  {ctx : HyperContainerContext}

/-- What every call keeps. The containers of each hypercontainer have no more pages than it lists
frames, and no variable is the one of two containers. -/
structure Booked (os : OS) (s : Process) (live : Entries) : Prop where
  ordered : ∃ registry, Ordered os s.manager registry live
  books : ∀ e ∈ live, ∃ cs st L, Counted os ⟨s.mach, e.2⟩ 0 0 cs st L
  shared : Shared s.mach.allocated (live.map fun e => e.2.listed)
  users : ∃ vs, Shared vs (live.map fun e => e.2.containers.map (·.reference_))
  reserved : s.mach.Reserved os
  legal : ∀ c ∈ s.mach.calls, c.Legal

theorem Booked.keeps_live (h : Booked os s live) : s.manager.Keeps live := by
  obtain ⟨registry, ho⟩ := h.ordered
  exact ho.keeps

theorem Booked.inUse_eq (h : Booked os s live) : s.manager.inUse = live.map Prod.snd := by
  rw [HyperContainerManager.inUse, h.keeps_live.num, h.keeps_live.contexts]

theorem Booked.balanced (h : Booked os s live) : s.Ledger where
  shared := by
    rw [h.inUse_eq, List.map_map]
    exact h.shared
  legal := h.legal
  room ctx hctx := by
    rw [h.inUse_eq, List.mem_map] at hctx
    obtain ⟨e, he, rfl⟩ := hctx
    obtain ⟨cs, st, L, hc⟩ := h.books e he
    have hcore := hc.core
    have hframes : e.2.frames = st := frames_of_storage hcore.table
    have hcontainers : e.2.containers = cs := hcore.containers_eq
    rw [hframes, hcontainers]
    exact ⟨hcore.num.trans hcore.max.le, hcore.max.symm, hcore.containers_num.le.trans
      hcore.containers_le, hcore.containers_num⟩

theorem Counted.of_vars {s t : State} {cs : List ContainerContext} {st : List Frame}
    {L : List Container} (hc : Counted os s 0 0 cs st L) (hctx : t.ctx = s.ctx)
    (hv : ∀ c ∈ cs, ∀ x, c.reference_ = .var x → t.mach.vars x = s.mach.vars x) :
    Counted os t 0 0 cs st L where
  core := hctx ▸ hc.core
  views := hc.views.congr hv fun a _ h => absurd h (Nat.not_lt_zero a)
  fits := hc.fits
  pages := hctx ▸ hc.pages

theorem Booked.between (h : Booked os s live) (hm : s.Between os m) : Booked os ⟨m, s.manager⟩ live where
  ordered := h.ordered
  books e he := by
    obtain ⟨cs, st, L, hc⟩ := h.books e he
    refine ⟨cs, st, L, hc.of_vars rfl fun c hmem x hx => ?_⟩
    have hin : e.2 ∈ s.manager.inUse := by
      rw [h.inUse_eq]
      exact List.mem_map_of_mem he
    have hload := hm.kept e.2 hin c (by
      have hcontainers : e.2.containers = cs := hc.core.containers_eq
      rwa [hcontainers])
    rw [hx, Machine.load_var, Machine.load_var] at hload
    exact Option.some.inj hload
  shared := hm.allocated ▸ h.shared
  users := h.users
  reserved g hg := h.reserved g (hm.regions ▸ hg)
  legal := hm.calls ▸ h.legal

/-- Calls that touch no frame keep the books of the hypercontainers there are. -/
theorem Booked.idle_books (h : Booked os s live) (hm : s.mach.Idle os m) :
    ∀ e ∈ live, ∃ cs st L, Counted os ⟨m, e.2⟩ 0 0 cs st L := by
  intro e he
  obtain ⟨cs, st, L, hc⟩ := h.books e he
  exact ⟨cs, st, L, hc.of_vars rfl fun _ _ x _ => by rw [hm.vars]⟩

theorem core_new (os : OS) (size : ℕ) : Core (.new os size true true) []
    ((List.range (os.page_size / sizeofFrame)).map os.uninit) := by
  have hlt := os.page_size_lt
  have h₁ := Nat.div_le_self os.page_size sizeofContainerContext
  have h₂ := Nat.div_le_self os.page_size sizeofFrame
  constructor
  case cells => rfl
  case containers_num => rfl
  case containers_le => exact Nat.zero_le _
  case containers_words =>
    simp only [HyperContainerContext.new, sizeofContainerContext] at *
    omega
  case table => rfl
  case max => rw [List.length_map, List.length_range]; rfl
  case words =>
    rw [List.length_map, List.length_range]
    omega
  case num => exact Nat.zero_le _

theorem counted_new (os : OS) (m : Machine) (size : ℕ) :
    Counted os ⟨m, .new os size true true⟩ 0 0 []
      ((List.range (os.page_size / sizeofFrame)).map os.uninit) [] where
  core := core_new os size
  views := ⟨rfl, fun j c hc => by simp at hc, by simp, List.Pairwise.nil⟩
  fits := by simp
  pages := Nat.zero_le _

theorem Booked.vccalloc (h : Booked os s live) {size : ℕ} (hidle : Idles os s t)
    (hk : t.manager.Keeps (live ++ [(b, .new os size true true)]))
    (hw : Whole os (b, .new os size true true))
    (hbelow : ∀ e ∈ live, e.1 + e.2.hypercontainer_size_ ≤ b) :
    Booked os t (live ++ [(b, .new os size true true)]) where
  ordered := by
    obtain ⟨registry, ho⟩ := h.ordered
    exact ⟨_, ho.append hk hw hbelow⟩
  books e he := by
    rcases List.mem_append.mp he with he | he
    · exact h.idle_books hidle e he
    · obtain rfl := List.mem_singleton.mp he
      exact ⟨_, _, _, counted_new os t.mach size⟩
  shared := by
    rw [List.map_append, hidle.allocated]
    exact h.shared.join
  users := by
    obtain ⟨vs, hvs⟩ := h.users
    rw [List.map_append]
    exact ⟨vs, hvs.join⟩
  reserved := hidle.reserved h.reserved
  legal c hc := (hidle.legal c hc).elim (h.legal c) id

theorem Booked.vccfree (h : Booked os s live) (hi : live[i]? = some (b, ctx))
    (hk : t.manager.Keeps (live.eraseIdx i))
    (hfreed : Process.Released os s.mach t.mach ctx.listed) : Booked os t (live.eraseIdx i) where
  ordered := by
    obtain ⟨registry, ho⟩ := h.ordered
    exact ⟨_, ho.erase hi hk⟩
  books e he := by
    obtain ⟨cs, st, L, hc⟩ := h.books e (List.mem_of_mem_eraseIdx he)
    exact ⟨cs, st, L, hc.of_vars rfl fun _ _ x _ => by rw [hfreed.vars]⟩
  shared := by
    have hi' : (live.map fun e => e.2.listed)[i]? = some ctx.listed := by
      rw [List.getElem?_map, hi, Option.map_some]
    have hleave := h.shared.leave hi'
    rwa [List.eraseIdx_map, ← hfreed.allocated] at hleave
  users := by
    obtain ⟨vs, hvs⟩ := h.users
    have hi' : (live.map fun e => e.2.containers.map (·.reference_))[i]? =
        some (ctx.containers.map (·.reference_)) := by
      rw [List.getElem?_map, hi, Option.map_some]
    have hleave := hvs.leave hi'
    rw [List.eraseIdx_map] at hleave
    exact ⟨_, hleave⟩
  reserved := hfreed.reserved h.reserved
  legal c hc := by
    have hi' : (live.map fun e => e.2.listed)[i]? = some ctx.listed := by
      rw [List.getElem?_map, hi, Option.map_some]
    exact (hfreed.legal (h.shared.share_nodup hi') (h.shared.mem_stock hi') c hc).elim (h.legal c) id

theorem Booked.call (h : Booked os s live) (hi : live[i]? = some (b, ctx)) {c : Call} {t : State}
    (hok : Accounted os b ⟨s.mach, ctx⟩ c)
    (hnew : ∀ user sizeofT n, c = .vcmalloc user sizeofT n →
      ∀ ctx ∈ s.manager.inUse, ∀ d ∈ ctx.containers, d.reference_ ≠ user)
    (hrun : c.run os b ⟨s.mach, ctx⟩ = .ok () t) (hfail : t.mach.failures = s.mach.failures) :
    Booked os ⟨t.mach, s.manager.setContext i t.ctx⟩ (live.set i (b, t.ctx)) := by
  have hmem := List.mem_of_getElem? hi
  have hil := (List.getElem?_eq_some_iff.mp hi).1
  have hshare : (live.map fun e => e.2.listed)[i]? = some ctx.listed := by
    rw [List.getElem?_map, hi, Option.map_some]
  have huser : (live.map fun e => e.2.containers.map (·.reference_))[i]? =
      some (ctx.containers.map (·.reference_)) := by
    rw [List.getElem?_map, hi, Option.map_some]
  obtain ⟨registry, ho⟩ := h.ordered
  obtain ⟨cs, st, L, hc⟩ := h.books _ hmem
  have hbase : os.page_size ∣ b := os.page_dvd_granularity.trans (ho.whole _ hmem).aligned
  obtain ⟨cs', st', L', freed, new, hcount, hrefs, hex⟩ := hc.step h.reserved hbase hok hrun hfail
  have hcs : ctx.containers = cs := hc.core.containers_eq
  have hcs' : t.ctx.containers = cs' := hcount.core.containers_eq
  -- a new variable is the one of no container yet
  have husers : ∃ vs, Shared vs ((live.map fun e => e.2.containers.map (·.reference_)).set i
      (cs'.map (·.reference_))) := by
    obtain ⟨vs, hvs⟩ := h.users
    rw [hrefs, ← hcs]
    have hnone : ∀ x ∈ ([] : List PtrLoc), x ∈ ctx.containers.map (·.reference_) := by simp
    have hsame : ∃ vs, Shared vs ((live.map fun e => e.2.containers.map (·.reference_)).set i
        (ctx.containers.map (·.reference_))) :=
      ⟨_, hvs.exchange huser hnone List.nodup_nil (by simp) (List.Perm.refl _)⟩
    cases c with
    | vcrealloc user sizeofT n => exact hsame
    | vcrealloc2 user sizeofT array => exact hsame
    | vcmalloc user sizeofT n =>
      refine ⟨_, hvs.exchange huser hnone (List.nodup_singleton user) (fun x hx hmem => ?_)
        (List.Perm.of_eq (List.append_nil _))⟩
      obtain rfl := List.mem_singleton.mp hx
      obtain ⟨l, hl, hxl⟩ := List.mem_flatten.mp (hvs.perm.symm.subset hmem)
      obtain ⟨e, he, rfl⟩ := List.mem_map.mp hl
      obtain ⟨d, hd, hdx⟩ := List.mem_map.mp hxl
      refine hnew _ _ _ rfl e.2 ?_ d hd hdx
      rw [h.inUse_eq]
      exact List.mem_map_of_mem he
  constructor
  case ordered =>
    exact ⟨_, ho.set hi ((continues_run os b c ⟨s.mach, ctx⟩).of_ok hrun).size⟩
  case books =>
    intro e he
    obtain ⟨j, hj⟩ := List.mem_iff_getElem?.mp he
    rcases eq_or_ne j i with rfl | hne
    · rw [List.getElem?_set_self hil, Option.some_inj] at hj
      subst hj
      exact ⟨cs', st', L', hcount⟩
    · -- the variables of another hypercontainer are not those of this one
      rw [List.getElem?_set_ne hne.symm] at hj
      obtain ⟨cs₁, st₁, L₁, hc₁⟩ := h.books e (List.mem_of_getElem? hj)
      have hcs₁ : e.2.containers = cs₁ := hc₁.core.containers_eq
      obtain ⟨vs, hvs⟩ := husers
      have hthis : ((live.map fun e => e.2.containers.map (·.reference_)).set i
          (cs'.map (·.reference_)))[i]? = some (cs'.map (·.reference_)) :=
        List.getElem?_set_self (by rwa [List.length_map])
      have hother : ((live.map fun e => e.2.containers.map (·.reference_)).set i
          (cs'.map (·.reference_)))[j]? = some (e.2.containers.map (·.reference_)) := by
        rw [List.getElem?_set_ne hne.symm, List.getElem?_map, hj, Option.map_some]
      refine ⟨cs₁, st₁, L₁, hc₁.of_vars rfl fun d hd x hx => hex.vars x fun hin => ?_⟩
      refine hvs.apart hthis hother hne _ hin (List.mem_map.mpr ⟨d, ?_, hx⟩)
      rwa [hcs₁]
  case shared =>
    have hexchange := h.shared.exchange hshare
      (hex.freed_listed (h.shared.share_nodup hshare)) hex.new_nodup hex.new_fresh hex.listed
    rw [← hex.allocated] at hexchange
    rw [List.map_set]
    exact hexchange
  case users =>
    obtain ⟨vs, hvs⟩ := husers
    refine ⟨vs, ?_⟩
    rw [List.map_set]
    dsimp only
    rwa [hcs']
  case reserved => exact fun g hg => h.reserved g (hex.regions g hg)
  case legal =>
    intro call hcall
    exact (hex.legal (h.shared.share_nodup hshare) (h.shared.mem_stock hshare) call hcall).elim
      (h.legal call) id

theorem Booked.start {m₀ : Machine} (h₀ : m₀.allocated = []) (hr : m₀.Reserved os)
    (hc : ∀ c ∈ m₀.calls, c.Legal) : Booked os ⟨m₀, .new os true true⟩ [] where
  ordered := ⟨_, .start os⟩
  books := by simp
  shared := h₀ ▸ Shared.nil
  users := ⟨[], Shared.nil⟩
  reserved := hr
  legal := hc

theorem Booked.step {request : Request} (h : Booked os s live) (ha : Accounts os s request t) :
    ∃ live', Booked os t live' := by
  obtain ⟨registry, ho⟩ := h.ordered
  cases ha with
  | @vccalloc _ m attempts dwSize b hm hfit hrun hheap =>
    have hb := h.between hm
    have hvcc := @Process.meets_vccalloc os ⟨m, s.manager⟩ live dwSize attempts ho.keeps
      ho.successive ho.whole hfit
    obtain ⟨pfns, containers, ⟨_, h₁⟩, ⟨_, h₂⟩, hk, hplaced, hbelow⟩ := hvcc.of_ok hrun
    obtain rfl := heapOk_of_mem hheap h₁
    obtain rfl := heapOk_of_mem hheap h₂
    have hidle := (@Process.idles_vccalloc os attempts dwSize ⟨m, s.manager⟩).of_ok hrun
    exact ⟨_, hb.vccalloc hidle hk (hplaced.whole true true) hbelow⟩
  | @vccfree _ m b hm hb hrun =>
    have hbook := h.between hm
    have hfree := @Process.meets_HyperContainerFree os ⟨m, s.manager⟩ live b ho.keeps ho.whole hb
    obtain ⟨i, ctx, hi, hk⟩ := hfree.of_ok hrun
    have hfind := ho.keeps.find_eq ho.successive ho.whole hi
    obtain ⟨cs, st, L, hc⟩ := hbook.books _ (List.mem_of_getElem? hi)
    have hroom : ctx.pfns_num_ ≤ ctx.frames.length := by
      have hframes : ctx.frames = st := frames_of_storage hc.core.table
      rw [hframes]
      exact hc.core.num
    have hfreed := @Process.meets_HyperContainerFree_frames os ⟨m, s.manager⟩ b i ctx hfind
      (ho.keeps.context_eq hi) hroom
    exact ⟨_, hbook.vccfree hi hk (hfreed.of_ok hrun)⟩
  | @call _ m b c hm hb hok hrun hfail =>
    have hbook := h.between hm
    obtain ⟨i, ctx, u, hfind, hctx, hu, rfl⟩ :=
      (@Process.meets_call_returned os ⟨m, s.manager⟩ b c).of_ok hrun
    obtain ⟨ctx', hi⟩ := ho.keeps.of_find ho.whole hb hfind
    obtain rfl := Option.some.inj ((ho.keeps.context_eq hi).symm.trans hctx)
    exact ⟨_, hbook.call hi (hok.1 i _ hfind hctx) hok.2 hu hfail⟩

end Ledgers

end VcmallocBench
