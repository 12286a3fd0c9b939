import VcmallocBench.HyperContainer.BatchRequests
import VcmallocBench.HyperContainer.Confluence

/-! # One request after the other

A batch and single requests in the order of the array give each container the
same count. They move each reference by the same pages exactly when no listed
container that keeps or loses pages lies behind one that grows.
-/

namespace VcmallocBench

open Paging

/-- `ContainerRealloc` of each variable in turn, for the counts that are not to be kept. -/
def ContainerReallocEach (os : OS) (users : List PtrLoc) (sizeofT : ℕ) (array : List ℕ) : Op Unit :=
  (List.range' 0 array.length).forM fun j =>
    match users[j]?, array[j]? with
    | some user, some n => if n = keepEntry then pure () else ContainerRealloc os user sizeofT n
    | _, _ => pure ()

/-- Two states with the same containers, references included, and as many frames. -/
structure Coincides (os : OS) (t u : State) : Prop where
  containers : ∀ k, t.container? os k = u.container? os k
  pfns_num : t.ctx.pfns_num_ = u.ctx.pfns_num_

def Occupied (L : List Container) : Prop := ∀ l ∈ L, 0 < l.bytes

/-- An array of counts for containers of one element size, none of which is zero. -/
structure Uniform (os : OS) (s : State) (L : List Container) (sizeofT start : ℕ)
    (array : List ℕ) : Prop where
  dvd : sizeofT ∣ os.page_size
  length_le : start + array.length ≤ L.length
  asked : ∀ j l a, L[start + j]? = some l → array[j]? = some a → a ≠ keepEntry →
    0 < a ∧ sizeofT = l.type_size_ ∧ a * sizeofT + l.guestBytes os < 2 ^ 63
  words : s.ctx.pfns_num_ + sumTo (fun j => pagesAsked os L start sizeofT array j -
    pagesFrom os L start j) array.length < 2 ^ 59

/-- A listed container after the requests up to its own: it moves by the pages cut and added before
it. -/
def Container.shifted (os : OS) (sizeofT p r D T : ℕ) (l : Container) : Container :=
  (if r = p then l else l.resized os r sizeofT).moved (batchWord os D T)

def eachList (os : OS) (sizeofT start i : ℕ) (p r : ℕ → ℕ) (L : List Container) : List Container :=
  moveFrom (start + i) (batchWord os (sumTo (fun k => p k - r k) i) (sumTo (fun k => r k - p k) i))
    (passOver start i (fun j => Container.shifted os sizeofT (p j) (r j)
      (sumTo (fun k => p k - r k) j) (sumTo (fun k => r k - p k) j)) L)

section Entries

variable {os : OS} {sizeofT start i j k D T a b pages req : ℕ} {p r : ℕ → ℕ} {L : List Container}
  {l : Container}

theorem Container.moved_congr (h : u64 a = u64 b) : l.moved a = l.moved b := by
  simp [Container.ext_iff, Container.moved_reference_eq, ← u64_add_u64 l.reference_, h]

theorem u64_batchWord_add (os : OS) (D T pages req : ℕ) :
    u64 (batchWord os D T + shiftWord os pages req) =
      u64 (batchWord os (D + (pages - req)) (T + (req - pages))) := by
  have h₁ : (D + (pages - req)) * os.page_size =
      D * os.page_size + (pages * os.page_size - req * os.page_size) := by
    rw [Nat.add_mul, Nat.sub_mul]
  have h₂ : (T + (req - pages)) * os.page_size =
      T * os.page_size + (req * os.page_size - pages * os.page_size) := by
    rw [Nat.add_mul, Nat.sub_mul]
  rw [batchWord, batchWord, backWord, backWord, shiftWord, h₁, h₂]
  generalize D * os.page_size = x
  generalize T * os.page_size = y
  unfold u64 sub64
  rcases le_total pages req with h | h
  · have := Nat.mul_le_mul_right os.page_size h
    omega
  · have := Nat.mul_le_mul_right os.page_size h
    omega

theorem batchWord_zero (os : OS) : batchWord os 0 0 = 0 := by
  simp [batchWord, backWord_zero, u64]

theorem getElem?_eachList_lt (hk : k < start) : (eachList os sizeofT start i p r L)[k]? = L[k]? := by
  rw [eachList, getElem?_moveFrom, if_neg (by omega), getElem?_passOver]
  cases L[k]? with
  | none => rfl
  | some l => simp [hk.not_ge]

theorem getElem?_eachList (hj : j < i) : (eachList os sizeofT start i p r L)[start + j]? =
    L[start + j]?.map (Container.shifted os sizeofT (p j) (r j) (sumTo (fun k => p k - r k) j)
      (sumTo (fun k => r k - p k) j)) := by
  rw [eachList, getElem?_moveFrom, if_neg (by omega), getElem?_passOver]
  cases L[start + j]? with
  | none => rfl
  | some l => simp [hj]

theorem getElem?_eachList_ge (hk : start + i ≤ k) : (eachList os sizeofT start i p r L)[k]? =
    L[k]?.map (·.moved (batchWord os (sumTo (fun k => p k - r k) i)
      (sumTo (fun k => r k - p k) i))) := by
  rw [eachList, getElem?_moveFrom, if_pos hk, getElem?_passOver]
  cases L[k]? with
  | none => rfl
  | some l => simp [hk.not_gt]

theorem eachList_zero (hf : ∀ l ∈ L, l.Fits os) : eachList os sizeofT start 0 p r L = L := by
  ext1 k
  rcases Nat.lt_or_ge k start with hk | hk
  · exact getElem?_eachList_lt hk
  · rw [getElem?_eachList_ge (by omega)]
    cases hl : L[k]? with
    | none => rfl
    | some l =>
      simp [batchWord_zero, Container.moved_zero (hf l (List.mem_of_getElem? hl)).reference_lt]

theorem resizedList_eachList (hf : ∀ l ∈ L, l.Fits os) (hl : L[start + i]? = some l)
    (hp : p i = l.nbrOfPages os) (hne : r i ≠ p i) :
    resizedList os (eachList os sizeofT start i p r L) (start + i)
      (l.moved (batchWord os (sumTo (fun k => p k - r k) i) (sumTo (fun k => r k - p k) i))) (r i)
      sizeofT = eachList os sizeofT start (i + 1) p r L := by
  have hfit := hf l (List.mem_of_getElem? hl)
  have hdvd := dvd_batchWord os (sumTo (fun k => p k - r k) i) (sumTo (fun k => r k - p k) i)
  have hget : (eachList os sizeofT start i p r L)[start + i]? = some (l.moved (batchWord os
      (sumTo (fun k => p k - r k) i) (sumTo (fun k => r k - p k) i))) := by
    rw [getElem?_eachList_ge le_rfl, hl, Option.map_some]
  ext1 k
  rcases Nat.lt_trichotomy k (start + i) with hk | rfl | hk
  · rw [getElem?_resizedList_lt hk]
    rcases Nat.lt_or_ge k start with hlt | hge
    · rw [getElem?_eachList_lt hlt, getElem?_eachList_lt hlt]
    · obtain ⟨j, rfl⟩ := Nat.exists_eq_add_of_le hge
      rw [getElem?_eachList (by omega), getElem?_eachList (by omega)]
  · rw [getElem?_resizedList_self hget, getElem?_eachList (Nat.lt_succ_self i), hl, Option.map_some,
      Container.shifted, if_neg hne, Container.resized_moved hfit hdvd]
  · rw [getElem?_resizedList_gt hk, getElem?_eachList_ge hk.le, getElem?_eachList_ge (by omega),
      Option.map_map]
    refine congrArg (fun f => L[k]?.map f) (funext fun d => ?_)
    rw [Function.comp_apply, Container.moved_moved, (Container.moved_counts hfit hdvd).1, ← hp]
    refine Container.moved_congr ?_
    rw [u64_batchWord_add, sumTo_succ, sumTo_succ]

theorem eachList_keep (hl : L[start + i]? = some l) (he : r i = p i) :
    eachList os sizeofT start i p r L = eachList os sizeofT start (i + 1) p r L := by
  ext1 k
  rcases Nat.lt_trichotomy k (start + i) with hk | rfl | hk
  · rcases Nat.lt_or_ge k start with hlt | hge
    · rw [getElem?_eachList_lt hlt, getElem?_eachList_lt hlt]
    · obtain ⟨j, rfl⟩ := Nat.exists_eq_add_of_le hge
      rw [getElem?_eachList (by omega), getElem?_eachList (by omega)]
  · rw [getElem?_eachList_ge le_rfl, getElem?_eachList (Nat.lt_succ_self i), hl]
    simp [Container.shifted, he]
  · rw [getElem?_eachList_ge hk.le, getElem?_eachList_ge (by omega), sumTo_succ, sumTo_succ]
    simp [he]

end Entries

section Requests

variable {os : OS} {s t : State} {h R sizeofT start i k n : ℕ} {cs cs' : List ContainerContext}
  {st st' : List Frame} {L : List Container} {c : ContainerContext} {l : Container} {array : List ℕ}

/-- A lookup finds the container that the variable was given for, as no two start at one address. -/
theorem Laid.find_eq (hb : Laid os s h R cs st L) (ho : Occupied L) (hl : L[k]? = some l) :
    s.find os l.reference_ = .ok (some k) := by
  have hc := hb.counted
  obtain ⟨k', l', hfind, hl', he⟩ := hc.views'.find_spec hc.num_eq hc.length_le
    hb.placed.tiled.ascending (hb.placed.reference_lt hc) hl
  obtain rfl := hb.placed.tiled.spaced.index_eq ho hl' hl he
  exact hfind

theorem Laid.meets_request (hb : Laid os s h R cs st L) (ho : Occupied L) (hk : cs[k]? = some c)
    (hl : L[k]? = some l) (hs : sizeofT = l.type_size_) (hd : sizeofT ∣ os.page_size)
    (hu : Unwrapped os s l sizeofT n) :
    Meets (ContainerRealloc os c.reference_ sizeofT n) s (fun _ t => ∃ cs' st',
      cs'.map (·.reference_) = cs.map (·.reference_) ∧
        Laid os t h R cs' st' (reallocList os L k l sizeofT n)) fun _ _ => True := by
  refine (hb.meets_ContainerRealloc hk hl fun k' l' hf hl' he => ?_).mono (fun _ t ht => ?_)
    fun _ _ _ => trivial
  · obtain rfl := hb.placed.tiled.spaced.index_eq ho hl' hl he
    obtain rfl := Option.some.inj (hl'.symm.trans hl)
    exact ⟨hs, hu, Or.inr (Exact.of_dvd (hb.counted.fits l' (List.mem_of_getElem? hl)) hu hs hd)⟩
  · obtain ⟨k', l', cs', st', hl', he, hrefs, hb'⟩ := ht
    obtain rfl := hb.placed.tiled.spaced.index_eq ho hl' hl he
    obtain rfl := Option.some.inj (hl'.symm.trans hl)
    exact ⟨cs', st', hrefs, hb'⟩

theorem Occupied.realloc (ho : Occupied L) (hf : ∀ d ∈ L, d.Fits os) (hl : L[k]? = some l)
    (hs : sizeofT = l.type_size_) (hd : sizeofT ∣ os.page_size) (hu : Unwrapped os s l sizeofT n)
    (hn : 0 < n) : Occupied (reallocList os L k l sizeofT n) := by
  intro d' hd'
  have hmem := List.mem_of_getElem? hl
  obtain ⟨j, hj⟩ := List.mem_iff_getElem?.mp hd'
  have hjL : j < L.length := by
    have := (List.getElem?_eq_some_iff.mp hj).1
    rwa [length_reallocList] at this
  obtain ⟨e, he, hshape⟩ := reallocList_entry hl hf hu hs hd (List.getElem?_eq_getElem hjL)
  obtain rfl := Option.some.inj (he.symm.trans hj)
  rw [hshape.bytes]
  split
  · exact hu.capacity_pos (hf l hmem) (hs ▸ Nat.pos_of_mul_pos_right (ho l hmem)) hn
  · exact ho _ (List.getElem_mem hjL)

theorem Uniform.batchable (hu : Uniform os s L sizeofT start array) :
    Batchable os s L sizeofT start array where
  dvd := hu.dvd
  length_le := hu.length_le
  asked j l a hl ha hne := by
    have hkeep : a ≠ keepEntry := by
      rintro rfl
      simp [Container.wanted] at hne
    exact (hu.asked j l a hl ha hkeep).2
  words := hu.words

theorem Uniform.requested (hu : Uniform os s L sizeofT start array) (hb : Laid os s h R cs st L)
    (hl : L[start + i]? = some l) (ha : array[i]? = some n) (hkeep : n ≠ keepEntry) :
    l.requestedPages os sizeofT n = pagesAsked os L start sizeofT array i := by
  rw [pagesAsked_eq hl ha, Container.wanted]
  split
  · rename_i hown
    obtain rfl := hown.resolve_right hkeep
    have hend := hb.end_le
    have hpages := @pagesOf_eq os _ _ _ hl
    have hsum := hb.placed.pages
    have hle := Nat.mul_le_mul_right os.page_size
      (show l.nbrOfPages os ≤ h + s.ctx.pfns_num_ by omega)
    exact requestedPages_self (hb.counted.fits l (List.mem_of_getElem? hl)) (by omega)
      (hu.asked i l _ hl ha hkeep).2.1
  · rfl

/-- The containers and the table after the requests for the first `i` of those listed. -/
def Requested (os : OS) (h R sizeofT start : ℕ) (cs : List ContainerContext) (L : List Container)
    (array : List ℕ) (i : ℕ) (t : State) : Prop :=
  ∃ cs' st', cs'.map (·.reference_) = cs.map (·.reference_) ∧
    Laid os t h R cs' st' (eachList os sizeofT start i (pagesFrom os L start)
      (pagesAsked os L start sizeofT array) L) ∧
    Occupied (eachList os sizeofT start i (pagesFrom os L start)
      (pagesAsked os L start sizeofT array) L)

theorem Requested.meets_ContainerRealloc {user : PtrLoc}
    (hr : Requested os h R sizeofT start cs L array i t) (hu : Uniform os s L sizeofT start array)
    (hb : Laid os s h R cs st L) (hi : i < array.length) (hn : array[i]? = some n)
    (hkeep : n ≠ keepEntry) (huser : ((cs.drop start).map (·.reference_))[i]? = some user) :
    Meets (ContainerRealloc os user sizeofT n) t
      (fun _ => Requested os h R sizeofT start cs L array (i + 1)) fun _ _ => True := by
  obtain ⟨cs', st', hrefs, hb', ho'⟩ := hr
  obtain ⟨l, hl⟩ : ∃ l, L[start + i]? = some l :=
    ⟨_, List.getElem?_eq_getElem (show start + i < L.length by have := hu.length_le; omega)⟩
  have hfit := hb.counted.fits l (List.mem_of_getElem? hl)
  -- it has moved by whole pages so far
  obtain ⟨w, hw⟩ : ∃ w, w = batchWord os
    (sumTo (fun k => pagesFrom os L start k - pagesAsked os L start sizeofT array k) i)
    (sumTo (fun k => pagesAsked os L start sizeofT array k - pagesFrom os L start k) i) := ⟨_, rfl⟩
  have hdvd : os.page_size ∣ w := hw ▸ dvd_batchWord os _ _
  have hget : (eachList os sizeofT start i (pagesFrom os L start)
      (pagesAsked os L start sizeofT array) L)[start + i]? = some (l.moved w) := by
    rw [getElem?_eachList_ge le_rfl, hl, Option.map_some, hw]
  obtain ⟨hpos, hs, hbytes⟩ := hu.asked i l n hl hn hkeep
  obtain ⟨hpages, hguest, hprior⟩ := Container.moved_counts hfit hdvd
  have hreq : (l.moved w).requestedPages os sizeofT n = pagesAsked os L start sizeofT array i :=
    (requestedPages_congr hprior hguest).trans (hu.requested hb hl hn hkeep)
  -- the variable is the one of the same container as at the start
  obtain ⟨c', hc', -⟩ := hb'.counted.views.get hget
  have hc'user : c'.reference_ = user := by
    have h₁ : (cs'.map (·.reference_))[start + i]? = some c'.reference_ := by
      rw [List.getElem?_map, hc', Option.map_some]
    rw [List.getElem?_map, List.getElem?_drop, ← List.getElem?_map, ← hrefs, h₁] at huser
    exact Option.some.inj huser
  subst hc'user
  have hun : Unwrapped os t (l.moved w) sizeofT n := by
    constructor
    · rwa [hguest]
    · have hend := hb'.end_le
      have hp := os.page_size_pos
      have hle := Nat.le_mul_of_pos_right (h + t.ctx.pfns_num_) hp
      have hwords := hu.words
      have hgrow := sumTo_le (fun k => pagesAsked os L start sizeofT array k - pagesFrom os L start k) hi
      have hown := @pagesOf_eq os _ _ _ hl
      have hsum := hb.placed.pages
      rw [pagesFrom_eq hl] at hgrow
      rw [hreq]
      omega
  refine (hb'.meets_request ho' hc' hget (by rw [Container.moved_type_size, hs]) hu.dvd hun).imp
    fun _ u hu' => ?_
  obtain ⟨cs'', st'', hrefs', hb''⟩ := hu'
  have ho'' := ho'.realloc hb'.counted.fits hget (by rw [Container.moved_type_size, hs]) hu.dvd hun
    hpos
  have hnext : reallocList os (eachList os sizeofT start i (pagesFrom os L start)
      (pagesAsked os L start sizeofT array) L) (start + i) (l.moved w) sizeofT n =
      eachList os sizeofT start (i + 1) (pagesFrom os L start)
        (pagesAsked os L start sizeofT array) L := by
    rw [reallocList, hreq, hpages]
    split
    · rename_i he
      exact eachList_keep hl (he.trans (pagesFrom_eq hl).symm)
    · rename_i hne
      subst hw
      refine resizedList_eachList hb.counted.fits hl (pagesFrom_eq hl) ?_
      rwa [pagesFrom_eq hl]
  rw [hnext] at hb'' ho''
  exact ⟨cs'', st'', hrefs'.trans hrefs, hb'', ho''⟩

theorem Laid.meets_ContainerReallocEach (hb : Laid os s h R cs st L) (ho : Occupied L)
    (hu : Uniform os s L sizeofT start array) :
    Meets (ContainerReallocEach os ((cs.drop start).map (·.reference_)) sizeofT array) s
      (fun _ => Requested os h R sizeofT start cs L array array.length) fun _ _ => True := by
  have hstart : Requested os h R sizeofT start cs L array 0 s := by
    refine ⟨cs, st, rfl, ?_⟩
    rw [eachList_zero hb.counted.fits]
    exact ⟨hb, ho⟩
  rw [ContainerReallocEach]
  refine (meets_forM_range (I := Requested os h R sizeofT start cs L array) array.length 0 s hstart
    fun i t _ hi hr => ?_).imp fun _ u hr => by rwa [zero_add] at hr
  have hn := List.getElem?_eq_getElem (show i < array.length by omega)
  have hlen : start + i < cs.length := by
    have := hu.length_le
    rw [hb.counted.views.length_eq]
    omega
  have huser : ((cs.drop start).map (·.reference_))[i]? = some cs[start + i].reference_ := by
    rw [List.getElem?_map, List.getElem?_drop, List.getElem?_eq_getElem hlen, Option.map_some]
  rw [huser, hn]
  dsimp only
  refine meets_ite (fun hkeep => ?_) fun hkeep => ?_
  · have hl := List.getElem?_eq_getElem (show start + i < L.length by have := hu.length_le; omega)
    obtain ⟨cs', st', hrefs, hb', ho'⟩ := hr
    have he : pagesAsked os L start sizeofT array i = pagesFrom os L start i := by
      rw [pagesAsked_eq hl hn, pagesFrom_eq hl, Container.wanted, if_pos (Or.inr hkeep)]
    rw [eachList_keep hl he] at hb' ho'
    exact (meets_pure _).mpr ⟨cs', st', hrefs, hb', ho'⟩
  · exact hr.meets_ContainerRealloc hu hb (by omega) hn hkeep huser

end Requests

section Agreement

variable {os : OS} {s t u : State} {h R sizeofT start n p r D T : ℕ} {cs : List ContainerContext}
  {st : List Frame} {L : List Container} {c : ContainerContext} {l : Container} {array : List ℕ}

theorem Container.shifted_pages (hf : l.Fits os) (hp : p = l.nbrOfPages os)
    (hr : r ≠ p → (l.resized os r sizeofT).Fits os ∧ (l.resized os r sizeofT).nbrOfPages os = r) :
    (l.shifted os sizeofT p r D T).nbrOfPages os = r := by
  rw [Container.shifted]
  split
  · rename_i he
    rw [(Container.moved_counts hf (dvd_batchWord os D T)).1, he, hp]
  · rename_i hne
    rw [(Container.moved_counts (hr hne).1 (dvd_batchWord os D T)).1, (hr hne).2]

theorem Container.batched_eq_shifted (hT : p < r ∨ T = 0) :
    l.batched os sizeofT p r D T = l.shifted os sizeofT p r D T := by
  rw [Container.batched, Container.shifted]
  split
  · rfl
  · rename_i hle
    rw [hT.resolve_left hle]
    simp [batchWord, backWord_zero, u64]

/-- Moving down by pages and moving up by them lead to different addresses. -/
theorem Container.batched_ne_shifted (hr : r ≤ p) (hT : 0 < T) (hlt : T * os.page_size < 2 ^ 63) :
    l.batched os sizeofT p r D T ≠ l.shifted os sizeofT p r D T := by
  have hpos := Nat.mul_pos hT os.page_size_pos
  intro he
  have href := congrArg Container.reference_ he
  rw [Container.batched, Container.shifted, if_neg hr.not_gt, Container.moved_reference_eq,
    Container.moved_reference_eq, batchWord, backWord, backWord] at href
  unfold u64 sub64 at href
  omega

/-- A batch leaves the containers where single requests do, unless one that does not grow lies behind
one that does. -/
theorem batchList_eq_iff {p r : ℕ → ℕ} (hf : ∀ l ∈ L, l.Fits os) (hlen : start + n ≤ L.length)
    (hlt : sumTo (fun j => r j - p j) n * os.page_size < 2 ^ 63) :
    batchList os sizeofT start n p r L = eachList os sizeofT start n p r L ↔
      ∀ i j, i < j → j < n → p i < r i → p j < r j := by
  constructor
  · intro he i j hij hj hi
    by_contra hle
    have hl := List.getElem?_eq_getElem (show start + j < L.length by omega)
    have hentry := congrArg (·[start + j]?) he
    rw [getElem?_batchList hf hj, getElem?_eachList hj, hl, Option.map_some, Option.map_some] at hentry
    have hT := sumTo_le (fun j => r j - p j) hij
    have hmono := Nat.mul_le_mul_right os.page_size (sumTo_mono (fun j => r j - p j) hj.le)
    exact Container.batched_ne_shifted (by omega) (by omega) (by omega) (Option.some.inj hentry)
  · intro hgrow
    ext1 k
    rcases Nat.lt_or_ge k start with hk | hk
    · rw [getElem?_batchList_lt hk, getElem?_eachList_lt hk]
    · obtain ⟨j, rfl⟩ := Nat.exists_eq_add_of_le hk
      rcases Nat.lt_or_ge j n with hj | hj
      · rw [getElem?_batchList hf hj, getElem?_eachList hj]
        refine congrArg (fun f => L[start + j]?.map f) (funext fun d => ?_)
        refine Container.batched_eq_shifted (or_iff_not_imp_left.mpr fun hle => ?_)
        exact Finset.sum_eq_zero fun i hi => Nat.sub_eq_zero_of_le
          (not_lt.mp fun hlt => hle (hgrow i j (Finset.mem_range.mp hi) hj hlt))
      · rw [getElem?_batchList_ge (by omega), getElem?_eachList_ge (by omega)]

theorem Batchable.pagesOf_eachList {lo hi : ℕ} (hb : Batchable os s L sizeofT start array)
    (hc : Counted os s lo hi cs st L) :
    pagesOf os (eachList os sizeofT start array.length (pagesFrom os L start)
      (pagesAsked os L start sizeofT array) L) =
    pagesOf os (batchList os sizeofT start array.length (pagesFrom os L start)
      (pagesAsked os L start sizeofT array) L) := by
  rw [pagesOf, pagesOf]
  congr 1
  ext1 k
  rw [List.getElem?_map, List.getElem?_map]
  rcases Nat.lt_or_ge k start with hk | hk
  · rw [getElem?_batchList_lt hk, getElem?_eachList_lt hk]
  · obtain ⟨j, rfl⟩ := Nat.exists_eq_add_of_le hk
    rcases Nat.lt_or_ge j array.length with hj | hj
    · have hl := List.getElem?_eq_getElem (show start + j < L.length by have := hb.length_le; omega)
      have hfit := hc.fits _ (List.mem_of_getElem? hl)
      have hres := fun hne => (hb.resized hc hl hj hne).imp_right And.left
      rw [getElem?_batchList hc.fits hj, getElem?_eachList hj, hl]
      simp only [Option.map_some]
      rw [Container.batched_pages hfit (pagesFrom_eq hl) hres,
        Container.shifted_pages hfit (pagesFrom_eq hl) hres]
    · rw [getElem?_batchList_ge (by omega), getElem?_eachList_ge (by omega)]

end Agreement

end VcmallocBench
