import VcmallocBench.Library.Shares
import VcmallocBench.HyperContainer.BatchRequests

/-! # Accounts of frames

A call on a hypercontainer exchanges frames: it frees some of those in the frame
table, and lists others that it has allocated. Whether the containers lie next to
one another does not matter.
-/

namespace VcmallocBench

open Paging

def HyperContainerContext.listed (ctx : HyperContainerContext) : List Frame :=
  ctx.frames.take ctx.pfns_num_

/-- The frames `freed` were listed and have been released, and the frames `new` have been allocated and
are listed now. No variable has changed but those in `refs`. -/
structure Exchanged (s t : State) (refs : List PtrLoc) (freed new : List Frame) : Prop where
  freed_listed : s.ctx.listed.Nodup → ∀ f ∈ freed, f ∈ s.ctx.listed
  new_nodup : new.Nodup
  new_fresh : ∀ f ∈ new, f ∉ s.mach.allocated
  allocated : t.mach.allocated = new ++ s.mach.allocated.filter (· ∉ freed)
  listed : (t.ctx.listed ++ freed).Perm (s.ctx.listed ++ new)
  vars : ∀ x, .var x ∉ refs → t.mach.vars x = s.mach.vars x
  regions : ∀ g ∈ t.mach.regions, g ∈ s.mach.regions
  legal : s.ctx.listed.Nodup → (∀ f ∈ s.ctx.listed, f ∈ s.mach.allocated) →
    ∀ call ∈ t.mach.calls, call ∈ s.mach.calls ∨ call.Legal

theorem Exchanged.refl (s : State) (refs : List PtrLoc) : Exchanged s s refs [] [] where
  freed_listed _ f hf := absurd hf List.not_mem_nil
  new_nodup := List.nodup_nil
  new_fresh _ hf := absurd hf List.not_mem_nil
  allocated := by
    rw [List.nil_append, List.filter_eq_self.mpr fun _ _ => by simp]
  listed := List.Perm.refl _
  vars _ _ := rfl
  regions _ hg := hg
  legal _ _ _ hcall := Or.inl hcall

section Exchanges

variable {os : OS} {s t : State} {a h hi k lo n req sizeofT start : ℕ} {user : PtrLoc}
  {c : ContainerContext} {l : Container} {cs : List ContainerContext} {st st' new : List Frame}
  {L : List Container} {array : List ℕ}

theorem Core.listed_eq (hc : Core s.ctx cs st) : s.ctx.listed = st.take s.ctx.pfns_num_ := by
  rw [HyperContainerContext.listed, frames_of_storage hc.table]

theorem splice_perm {α : Type*} {l new : List α} {i n m : ℕ} :
    (splice l i n m new ++ slice l (i + m) (n - m)).Perm (l ++ new) := by
  have hcut : l = l.take (i + min n m) ++ slice l (i + m) (n - m) ++ l.drop (i + n) := by
    rcases Nat.le_total n m with hle | hle
    · rw [Nat.sub_eq_zero_of_le hle, slice_zero, Nat.min_eq_left hle, List.append_nil,
        List.take_append_drop]
    · rw [Nat.min_eq_right hle, take_append_slice, show i + m + (n - m) = i + n by omega,
        List.take_append_drop]
  have hrest : (new ++ l.drop (i + n) ++ slice l (i + m) (n - m)).Perm
      (slice l (i + m) (n - m) ++ l.drop (i + n) ++ new) := by
    refine List.perm_append_comm.trans ?_
    rw [List.append_assoc]
    exact List.perm_append_comm.append_left _
  conv_rhs => rw [hcut]
  rw [splice, List.append_assoc, List.append_assoc, List.append_assoc, List.append_assoc]
  refine List.Perm.append_left _ ?_
  rw [← List.append_assoc, ← List.append_assoc]
  exact hrest

theorem Appended.exchanged {x : ℕ} (ha : Appended os s t a (.var x) sizeofT n cs st st' new)
    (hc : Core s.ctx cs st) {refs : List PtrLoc} (hr : .var x ∈ refs) :
    Exchanged s t refs [] new := by
  obtain ⟨m, m₁, hm, hassign, hext⟩ := ha.mach
  obtain ⟨-, hregions, halloc, hcalls⟩ := assign_fields hassign
  have hheld : m₁.allocated = s.mach.allocated := by rw [halloc, hm.eq]
  constructor
  case freed_listed => exact fun _ f hf => absurd hf List.not_mem_nil
  case new_nodup => exact hext.nodup
  case new_fresh => exact hheld ▸ hext.fresh
  case allocated =>
    rw [hext.allocated, hheld, List.filter_eq_self.mpr fun _ _ => by simp]
  case listed =>
    rw [List.append_nil, ha.core.listed_eq, hc.listed_eq, ha.frames]
  case vars =>
    intro y hy
    have hne : y ≠ x := fun he => hy (he ▸ hr)
    have hvars : m₁.vars = Function.update m.vars x a := by rw [← Option.some.inj hassign]
    rw [hext.vars, hvars, Function.update_of_ne hne, hm.eq]
  case regions =>
    intro g hg
    rw [hext.regions, hregions, hm.eq] at hg
    exact hg
  case legal =>
    intro _ _ call hcall
    rcases hext.legal call hcall with hc | hc
    · exact hm.legal call (hcalls ▸ hc)
    · exact Or.inr hc

theorem Reallocated.exchanged {G : Prop} (hr : Reallocated os G s t h hi k req sizeofT c l cs st L st' new)
    (hc : Core s.ctx cs st) : Exchanged s t (cs.map (·.reference_))
      (slice (st.take s.ctx.pfns_num_) (pagesOf os (L.take k) + req) (l.nbrOfPages os - req)) new := by
  have hs := hc.listed_eq
  constructor
  case freed_listed =>
    intro _ f hf
    rw [hs]
    exact List.mem_of_mem_drop (List.mem_of_mem_take hf)
  case new_nodup => exact hr.new_nodup
  case new_fresh => exact hr.new_fresh
  case allocated => exact hr.allocated
  case listed =>
    rw [hr.core.listed_eq, hs, hr.frames]
    exact splice_perm
  case vars => exact hr.vars
  case regions =>
    rw [hr.regions]
    exact fun _ hg => hg
  case legal =>
    rw [hs]
    exact hr.legal

/-- Every frame is kept by its container, given to another one, or left over. -/
theorem batchFrames_perm {fs : List Frame} {S N : ℕ} {p r : ℕ → ℕ} (hle : S + sumTo p n ≤ N)
    (hlen : fs.length = N)
    (hnew : new.length = sumTo (fun j => r j - p j) n - sumTo (fun j => p j - r j) n) :
    (fs.take S ++ batchFrames fs new S N n p r ++ surplusFrames fs S n p r).Perm (fs ++ new) := by
  have hlost := length_lostFrames (r := r) (hle.trans hlen.ge)
  have hspare : (spareFrames fs new S n p r).length = sumTo (fun j => r j - p j) n := by
    rw [spareFrames, List.length_append, List.length_take, hlost, hnew]
    omega
  have hstock := pieces_stock (spareFrames fs new S n p r) (fun j => r j - p j)
    (le_refl (sumTo (fun j => r j - p j) n))
  rw [Nat.sub_self, slice, List.drop_zero, List.take_of_length_le hspare.le] at hstock
  refine List.Perm.trans ?_ ((keptFrames_perm (r := r) hle hlen).append_right new)
  rw [batchFrames, keptFrames, surplusFrames]
  refine List.perm_iff_count.mpr fun f => ?_
  have hjoined := (joined_perm.trans (hstock.append_left (pieces fs (fun j => S + sumTo p j)
    (fun j => min (p j) (r j)) n))).count_eq f
  have hsplit : (lostFrames fs S n p r).count f =
      ((lostFrames fs S n p r).take (sumTo (fun j => r j - p j) n)).count f +
        ((lostFrames fs S n p r).drop (sumTo (fun j => r j - p j) n)).count f := by
    rw [← List.count_append, List.take_append_drop]
  simp only [List.count_append, spareFrames] at hjoined ⊢
  omega

theorem Batched.exchanged {refs : List PtrLoc} {S : ℕ} {p r : ℕ → ℕ}
    (h : Batched os s t refs st L sizeofT start S l n p r new) (hc : Core s.ctx cs st)
    (hle : S + sumTo p n ≤ s.ctx.pfns_num_) :
    Exchanged s t refs (surplusFrames (st.take s.ctx.pfns_num_) S n p r) new := by
  have hs := hc.listed_eq
  have hlen : (st.take s.ctx.pfns_num_).length = s.ctx.pfns_num_ := by
    rw [List.length_take, Nat.min_eq_left hc.num]
  obtain ⟨st', ⟨cs', hcore, -, -⟩, htake⟩ := h.tabled
  constructor
  case freed_listed =>
    intro hnd
    rw [hs] at hnd ⊢
    exact (surplusFrames_spec hle hlen hnd).2.1
  case new_nodup => exact h.new_nodup
  case new_fresh => exact h.new_fresh
  case allocated => exact h.allocated
  case listed =>
    have hperm := batchFrames_perm hle hlen h.new_length
    rw [List.take_take, Nat.min_eq_left (by omega)] at hperm
    rw [hcore.listed_eq, hs, htake]
    exact hperm
  case vars => exact h.vars
  case regions => exact h.regions
  case legal =>
    rw [hs]
    exact h.legal

end Exchanges

/-- Allocations of new variables, and resizes and batches from the container found for a variable.
Neither counts nor addresses wrap, and no array is longer than the containers from that one on. -/
def Accounted (os : OS) (base : ℕ) (s : State) : Call → Prop
  | .vcmalloc user sizeofT n => NewVariable s user ∧
      ∃ L, s.Reads os L ∧ endOf base L + sizeofT * n + 2 * os.page_size ≤ 2 ^ 64
  | .vcrealloc user sizeofT n => ∃ k c l, Refers os s user sizeofT k c l ∧
      s.find os l.reference_ = .ok (some k) ∧ Unwrapped os s l sizeofT n
  | .vcrealloc2 user sizeofT array => ∃ k c l L, Refers os s user sizeofT k c l ∧
      s.find os l.reference_ = .ok (some k) ∧ s.Reads os L ∧ Batchable os s L sizeofT k array

/-- A call that returns, none of its calls to the heap or to the system having failed. -/
def Succeeds (os : OS) (base : ℕ) (s : State) (call : Call) (t : State) : Prop :=
  call.run os base s = .ok () t ∧ t.mach.failures = s.mach.failures

def Call.references (refs : List PtrLoc) : Call → List PtrLoc
  | .vcmalloc user _ _ => refs ++ [user]
  | _ => refs

section Steps

variable {os : OS} {s t : State} {base lo hi k n sizeofT : ℕ} {user : PtrLoc} {c : ContainerContext}
  {l : Container} {cs : List ContainerContext} {st : List Frame} {L L' : List Container}
  {array : List ℕ} {call : Call}

theorem Counted.reads_eq (hc : Counted os s lo hi cs st L) (hr : s.Reads os L') : L' = L :=
  List.map_injective_iff.mpr (Option.some_injective _) (hr.symm.trans hc.views'.reads)

theorem Counted.outside (hc : Counted os s lo lo cs st L) (a : ℕ) : Counted os s a a cs st L :=
  ⟨hc.core, hc.views.outside a, hc.fits, hc.pages⟩

section Calls

variable (hc : Counted os s lo lo cs st L) {Q : Unit → State → Prop}

include hc

theorem Counted.meets_vcmalloc {x : ℕ} (hreg : s.mach.Reserved os) (hbase : os.page_size ∣ base)
    (hx : ∀ c ∈ cs, c.reference_ ≠ .var x)
    (hov : endOf base L + sizeofT * n + 2 * os.page_size ≤ 2 ^ 64) :
    Meets (ContainerAlloc os base (.var x) sizeofT n) s (fun _ t => ∃ st' new,
      Counted os t lo lo (cs ++ [⟨.var x, sizeofT, n⟩]) st'
        (L ++ [⟨endOf base L, sizeofT, n⟩]) ∧
      Exchanged s t ((cs ++ [(⟨.var x, sizeofT, n⟩ : ContainerContext)]).map (·.reference_)) [] new)
      fun e _ => cs.length < 2 ^ 59 → 16 * (s.ctx.pfns_num_ + intCast (ceilPages os
        (u64 (sizeofT * n) - gap os.page_size (endOf base L)))) < 2 ^ 64 → e ≠ .bounds := by
  have hP := os.page_size_pos
  have hceil := ceil_mul_lt hP (endOf base L)
  refine meets_ContainerAlloc hc.core hreg (fun Q E hQ => hc.meets_nextSlot hbase (by omega) hQ)
    (fun t st' new ha => ?_) fun e t _ hne => hne
  have hfit : Container.Fits os ⟨endOf base L, sizeofT, n⟩ := by
    constructor
    · dsimp only
      omega
    · rw [Container.bytes]
      dsimp only
      omega
  exact ⟨st', new, ((hc.outside (0 * os.page_size)).append hx (by omega) ha hfit).outside lo,
    ha.exchanged hc.core (by simp)⟩

theorem Counted.meets_vcrealloc (hk : cs[k]? = some c) (hl : L[k]? = some l)
    (hfind : s.find os l.reference_ = .ok (some k)) (hs : sizeofT = l.type_size_)
    (hu : Unwrapped os s l sizeofT n) :
    Meets (ContainerRealloc os c.reference_ sizeofT n) s (fun _ t => ∃ cs' st' L' freed new,
      Counted os t lo lo cs' st' L' ∧ cs'.map (·.reference_) = cs.map (·.reference_) ∧
      Exchanged s t (cs.map (·.reference_)) freed new) (Blames False s.mach.failures) := by
  have hc₀ := hc.outside (0 * os.page_size)
  have hf := hc.fits l (List.mem_of_getElem? hl)
  rw [ContainerRealloc, meets_bind]
  refine (meets_loadPtr (hc.views.sizes hk hl).2.2).mpr ?_
  rw [meets_bind, meets_lookup_eq, hfind]
  refine (meets_pure _).mpr ?_
  refine (hc₀.meets_ContainerReallocAt (G := False) (fun hG => hG.elim) hk hl
    (Or.inr (hc.views.var (List.mem_of_getElem? hk))) (Or.inl rfl) hu.bytes hu.table
    (fun hG => hG.elim) (fun hG => hG.elim) le_rfl).imp fun _ t ht => ?_
  rcases ht with ⟨-, rfl⟩ | ⟨-, st', new, hr⟩
  · exact ⟨cs, st, L, [], [], hc, rfl, .refl _ _⟩
  · obtain ⟨hfit, hpages⟩ := resized_fits hf (hu.guest_le hf) (hu.capacity_le hf)
      (hu.resized_le hf hs)
    exact ⟨_, st', _, _, new, (hr.counted hc₀ hl hfit hpages).outside lo, map_reference_set hk _,
      hr.exchanged hc.core⟩

theorem Counted.meets_vcrealloc2 (hk : cs[k]? = some c) (hl : L[k]? = some l)
    (hfind : s.find os l.reference_ = .ok (some k)) (hb : Batchable os s L sizeofT k array) :
    Meets (ContainerRealloc2 os c.reference_ sizeofT array) s (fun _ t =>
      s.mach.failures < t.mach.failures ∨ ∃ cs' st' L' freed new, Counted os t lo lo cs' st' L' ∧
        cs'.map (·.reference_) = cs.map (·.reference_) ∧
        Exchanged s t (cs.map (·.reference_)) freed new) (Blames False s.mach.failures) := by
  refine (hc.meets_ContainerRealloc2 hb hk hl hfind (fun hG => hG.elim) (fun hG => hG.elim)
    (fun hG => hG.elim) le_rfl).imp fun _ t ht => ht.imp_right ?_
  rintro ⟨new, hbat⟩
  obtain ⟨cs', st', hrefs, hcount, -⟩ := hbat.counted hb hc
  exact ⟨cs', st', _, _, new, hcount, hrefs, hbat.exchanged hc.core (hb.listed hc).end_le⟩

end Calls

theorem Counted.step (hc : Counted os s lo lo cs st L) (hreg : s.mach.Reserved os)
    (hbase : os.page_size ∣ base) (hok : Accounted os base s call)
    (hrun : call.run os base s = .ok () t) (hfail : t.mach.failures = s.mach.failures) :
    ∃ cs' st' L' freed new, Counted os t lo lo cs' st' L' ∧
      cs'.map (·.reference_) = call.references (cs.map (·.reference_)) ∧
      Exchanged s t (cs'.map (·.reference_)) freed new := by
  cases call with
  | vcmalloc user sizeofT n =>
    obtain ⟨⟨⟨x, rfl⟩, hx⟩, L', hL', hov⟩ := hok
    obtain rfl := hc.reads_eq hL'
    rw [hc.core.containers_eq] at hx
    obtain ⟨st', new, hcount, hex⟩ := (hc.meets_vcmalloc hreg hbase hx hov).of_ok hrun
    refine ⟨_, st', _, [], new, hcount, ?_, hex⟩
    rw [List.map_append]
    rfl
  | vcrealloc user sizeofT n =>
    obtain ⟨k, c, l, hr, hfind, hu⟩ := hok
    obtain ⟨hk, hl, hs⟩ := hr.get hc
    obtain rfl := hr.reference
    obtain ⟨cs', st', L', freed, new, hcount, hrefs, hex⟩ :=
      (hc.meets_vcrealloc hk hl hfind hs hu).of_ok hrun
    exact ⟨cs', st', L', freed, new, hcount, hrefs, hrefs ▸ hex⟩
  | vcrealloc2 user sizeofT array =>
    obtain ⟨k, c, l, L', hr, hfind, hL', hb⟩ := hok
    obtain rfl := hc.reads_eq hL'
    obtain ⟨hk, hl, -⟩ := hr.get hc
    obtain rfl := hr.reference
    rcases (hc.meets_vcrealloc2 hk hl hfind hb).of_ok hrun with hlt |
      ⟨cs', st', L', freed, new, hcount, hrefs, hex⟩
    · omega
    · exact ⟨cs', st', L', freed, new, hcount, hrefs, hrefs ▸ hex⟩

/-- In a run of calls that return, the containers own no more pages than there are frames. -/
theorem Run.counted {s₀ : State} {h R : ℕ} {ok : State → Call → Prop} {calls : List Call}
    (hf : Fresh os s₀ h R)
    (hok : ∀ s call, ok s call → Accounted os (h * os.page_size) s call)
    (hrun : Run (Calling os ok (Succeeds os (h * os.page_size))) s₀ calls s) :
    (∃ cs st L, Counted os s (h * os.page_size) (h * os.page_size) cs st L) ∧ s.mach.Reserved os := by
  refine hrun.invariant (I := fun s =>
    (∃ cs st L, Counted os s (h * os.page_size) (h * os.page_size) cs st L) ∧ s.mach.Reserved os)
    ?_ ?_
  · obtain ⟨st, hb⟩ := hf.laid
    exact ⟨⟨[], st, [], hb.counted⟩, hb.hosts.reserved⟩
  · rintro s call t ⟨⟨cs, st, L, hc⟩, hreg⟩ ⟨s', hbetween, hacc, hcall, hfail⟩
    have hreg' : s'.mach.Reserved os := fun g hg => hreg g (hbetween.regions ▸ hg)
    obtain ⟨cs', st', L', freed, new, hc', -, hex⟩ :=
      (hc.between hbetween).step hreg' (Nat.dvd_mul_left ..) (hok _ _ hacc) hcall hfail
    exact ⟨⟨cs', st', L', hc'⟩, fun g hg => hreg' g (hex.regions g hg)⟩

end Steps

end VcmallocBench
