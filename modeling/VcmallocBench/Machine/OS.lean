import VcmallocBench.Library.Paging

/-! # The operating system

The calls the allocator makes to Windows and to the C heap. How each call is
answered is a parameter: the `n`-th call made succeeds or fails as the `OS`
says, and the fields of `OS` state what the documentation promises about the
answers. A `Machine` is what the calls act on, with the calls made so far.
-/

namespace VcmallocBench

abbrev Frame := ℕ

abbrev Byte := UInt8

structure Region where
  base : ℕ
  size : ℕ

/-- The calls made to the heap and to the system, with their answers. -/
inductive OsCall where
  /-- `HeapAlloc`, `HeapReAlloc`, `malloc` and `realloc`. -/
  | heap (bytes : ℕ) (ok : Bool)
  | heapFree (ok : Bool)
  /-- `AllocateUserPhysicalPages` with the frames it delivered. -/
  | allocate (asked : ℕ) (given : List Frame) (ok : Bool)
  /-- `FreeUserPhysicalPages` with the frames passed, those allocated at that moment and the
  number actually released. -/
  | free (frames held : List Frame) (released : ℕ) (ok : Bool)
  | map (address pages : ℕ) (ok : Bool)
  /-- `VirtualAlloc` and `VirtualFree`. -/
  | reserve (size : ℕ) (ok : Bool)
  | release (address : ℕ) (ok : Bool)

def OsCall.success : OsCall → Bool
  | .heap _ ok => ok
  | .heapFree ok => ok
  | .allocate asked given ok => ok && given.length == asked
  | .free frames _ released ok => ok && released == frames.length
  | .map _ _ ok => ok
  | .reserve _ ok => ok
  | .release _ ok => ok

/-- A page size and the answers to all calls, with what is documented about them. -/
structure OS where
  /-- `dwPageSize` is a 32-bit power of two. -/
  pageShift : ℕ
  pageShift_lt : pageShift < 32
  /-- `dwAllocationGranularity`. -/
  granularity : ℕ
  granularity_pos : 0 < granularity
  page_dvd_granularity : 2 ^ pageShift ∣ granularity
  /-- The answer to the call with the given number. -/
  ok : ℕ → Bool
  /-- Whether a request to map no page at all succeeds. -/
  emptyMap : Bool
  /-- The frames delivered when some are held and a number is asked for. -/
  pick : ℕ → List Frame → ℕ → List Frame
  pick_nodup : ∀ t held n, (pick t held n).Nodup
  pick_fresh : ∀ t held n, ∀ f ∈ pick t held n, f ∉ held
  pick_le : ∀ t held n, (pick t held n).length ≤ n
  /-- What a delivered frame holds. -/
  contents : ℕ → Frame → ℕ → Byte
  /-- How many of the frames passed are released. -/
  released : ℕ → ℕ → ℕ
  released_le : ∀ t n, released t n ≤ n
  /-- The end of the user address space. -/
  addressLimit : ℕ
  addressLimit_le : addressLimit ≤ 2 ^ 47
  /-- The address reserved for a number of bytes, at the requested address if that is not null. -/
  place : ℕ → List Region → ℕ → ℕ → Option ℕ
  place_spec : ∀ t rs requested n b, place t rs requested n = some b →
    0 < b ∧ 0 < n ∧ granularity ∣ b ∧ b + n ≤ addressLimit ∧
      (∀ r ∈ rs, b + n ≤ r.base ∨ r.base + r.size ≤ b) ∧ (requested ≠ 0 → granularity ∣ requested → b = requested)
  /-- What a fresh heap block holds. -/
  uninit : ℕ → Frame

namespace OS

variable (os : OS)

def page_size : ℕ := 2 ^ os.pageShift

theorem page_size_pos : 0 < os.page_size := Nat.two_pow_pos _

theorem page_size_lt : os.page_size < 2 ^ 32 := Nat.pow_lt_pow_right (by decide) os.pageShift_lt

theorem page_size_dvd : os.page_size ∣ 2 ^ 64 :=
  pow_dvd_pow 2 (by have := os.pageShift_lt; omega)

/-- The requested address, or the first one behind all reservations. -/
def firstFree (granularity : ℕ) (rs : List Region) (requested : ℕ) : ℕ :=
  if requested = 0 then
    rs.foldr (fun r a => max a ((r.base + r.size) ⌈/⌉ granularity * granularity)) granularity
  else requested

/-- A system that answers as `ok` says: it delivers the frames above all held ones, releases all
frames, and reserves the first free range behind all others. -/
def plain (pageShift : ℕ) (h : pageShift < 32) (ok : ℕ → Bool) : OS where
  pageShift := pageShift
  pageShift_lt := h
  granularity := 2 ^ pageShift * 16
  granularity_pos := Nat.mul_pos (Nat.two_pow_pos _) (by decide)
  page_dvd_granularity := Nat.dvd_mul_right ..
  ok := ok
  emptyMap := true
  pick _ held n := List.range' (held.foldr max 0 + 1) n
  pick_nodup _ _ _ := List.nodup_range'
  pick_fresh _ held n f hf hh := by
    have hle : ∀ l : List ℕ, f ∈ l → f ≤ l.foldr max 0 := by
      intro l
      induction l with
      | nil => simp
      | cons a l ih =>
        intro hm
        rcases List.mem_cons.mp hm with rfl | hm
        · exact le_max_left _ _
        · exact (ih hm).trans (le_max_right _ _)
    exact absurd (hle held hh) (not_le.mpr (List.mem_range'_1.mp hf).1)
  pick_le _ _ _ := by rw [List.length_range']
  contents _ _ _ := 0
  released _ n := n
  released_le _ _ := le_rfl
  addressLimit := 2 ^ 47
  addressLimit_le := le_rfl
  place t rs requested n :=
    let b := firstFree (2 ^ pageShift * 16) rs requested
    if ok t ∧ 0 < b ∧ 0 < n ∧ 2 ^ pageShift * 16 ∣ b ∧ b + n ≤ 2 ^ 47 ∧
        (∀ r ∈ rs, b + n ≤ r.base ∨ r.base + r.size ≤ b) then some b else none
  place_spec t rs requested n b h := by
    dsimp only at h
    split at h
    · rename_i hc
      obtain rfl := Option.some.inj h
      exact ⟨hc.2.1, hc.2.2.1, hc.2.2.2.1, hc.2.2.2.2.1, hc.2.2.2.2.2, fun hr _ => if_neg hr⟩
    · exact absurd h (by simp)
  uninit _ := 0

/-- The same system, with other contents of the frames that it delivers. -/
def delivering (contents : ℕ → Frame → ℕ → Byte) : OS := { os with contents := contents }

end OS

structure Machine where
  /-- The pointer variables of the program. -/
  vars : ℕ → ℕ
  /-- The frame each virtual page is mapped to. -/
  pageTable : ℕ → Option Frame
  frameData : Frame → ℕ → Byte
  regions : List Region
  /-- The frames delivered and not yet released. -/
  allocated : List Frame
  /-- The calls made so far, the last one first. -/
  calls : List OsCall

def Machine.initial : Machine where
  vars _ := 0
  pageTable _ := none
  frameData _ _ := 0
  regions := []
  allocated := []
  calls := []

namespace Machine

variable (os : OS) (m : Machine)

/-- The number of calls that did not do all they were asked to do. -/
def failures : ℕ := m.calls.countP fun c => !c.success

def reply : Bool := os.ok m.calls.length

def heapCall (bytes : ℕ) : Bool × Machine :=
  (m.reply os, { m with calls := .heap bytes (m.reply os) :: m.calls })

def heapFreeCall : Bool × Machine :=
  (m.reply os, { m with calls := .heapFree (m.reply os) :: m.calls })

/-- `AllocateUserPhysicalPages` for `n` frames: a failed call delivers none. -/
def allocateCall (n : ℕ) : (Bool × List Frame) × Machine :=
  let t := m.calls.length
  if os.ok t then
    let fs := os.pick t m.allocated n
    ((true, fs),
      { m with
        allocated := fs ++ m.allocated
        frameData := fun f => if f ∈ fs then os.contents t f else m.frameData f
        calls := .allocate n fs true :: m.calls })
  else ((false, []), { m with calls := .allocate n [] false :: m.calls })

/-- `FreeUserPhysicalPages`: a released frame is unmapped wherever it was mapped. -/
def freeCall (fs : List Frame) : (Bool × ℕ) × Machine :=
  let n := os.released m.calls.length fs.length
  let gone := fs.take n
  ((m.reply os, n),
    { m with
      allocated := m.allocated.filter (· ∉ gone)
      pageTable := fun p => (m.pageTable p).filter (· ∉ gone)
      calls := .free fs m.allocated n (m.reply os) :: m.calls })

def inRegion (address pages : ℕ) : Bool :=
  m.regions.any fun r =>
    decide (r.base ≤ address ∧ address + pages * os.page_size ≤ r.base + r.size)

def mapReply (address pages : ℕ) : Bool :=
  m.reply os && if pages = 0 then os.emptyMap else m.inRegion os address pages

/-- `MapUserPhysicalPages`: the range is mapped to the given frames, or unmapped when there are
none. A failed call changes no mapping. -/
def mapCall (address pages : ℕ) (frames : Option (List Frame)) : Bool × Machine :=
  let ok := m.mapReply os address pages
  let first := address / os.page_size
  (ok,
    { m with
      pageTable := if ok then fun p =>
          if first ≤ p ∧ p < first + pages then frames.bind (·[p - first]?) else m.pageTable p
        else m.pageTable
      calls := .map address pages ok :: m.calls })

def reserveCall (requested size : ℕ) : Option ℕ × Machine :=
  let bytes := size ⌈/⌉ os.page_size * os.page_size
  match os.place m.calls.length m.regions requested bytes with
  | some b => (some b,
      { m with regions := ⟨b, bytes⟩ :: m.regions, calls := .reserve size true :: m.calls })
  | none => (none, { m with calls := .reserve size false :: m.calls })

/-- `VirtualFree` of a whole reservation: its pages are unmapped. -/
def releaseCall (address : ℕ) : Bool × Machine :=
  let ok := m.reply os
  let gone := fun p : ℕ => m.regions.any fun r =>
    r.base == address && decide (address ≤ p * os.page_size ∧ p * os.page_size < address + r.size)
  (ok,
    { m with
      pageTable := if ok then fun p => if gone p then none else m.pageTable p else m.pageTable
      regions := if ok then m.regions.filter (·.base != address) else m.regions
      calls := .release address ok :: m.calls })

end Machine

end VcmallocBench
