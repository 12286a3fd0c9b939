import VcmallocBench.Library.Leads

/-! # The tables of the plots

The script reads result files and builds one table for each scenario, datatype,
test and result, with a row for each size and a column for each allocator. The
column of an allocator is filled from the sizes that it has been measured at,
and the column of the sizes from those of the last allocator.
-/

namespace VcmallocBench

namespace ReadAndPlot

abbrev Object (β : Type) := List (String × β)

/-- The values of one result by the number of the run. -/
abbrev Measurements := Object ℚ

/-- A result file: scenario, allocator, datatype, size, test, result. The sizes are numerals. -/
abbrev File := Object (Object (Object (List (ℕ × Object (Object Measurements)))))

/-- An entry of the list of sizes: a numeral from a file, or a number. -/
inductive Size where
  | numeral (n : ℕ)
  | int (n : ℕ)
  deriving DecidableEq

/-- `int(i)`. -/
def Size.toInt : Size → ℕ
  | numeral n => n
  | int n => n

/-- The lists that the script fills from the files. -/
structure Lists where
  scenarios : List String
  allocators : List String
  datatypes : List String
  sizes : List Size
  tests : List String
  results : List String

def Lists.empty : Lists := ⟨[], [], [], [], [], []⟩

/-- `list(dict.fromkeys(l))`: the first occurrences. -/
def fromkeys {β : Type} [DecidableEq β] (l : List β) : List β := l.reverse.dedup.reverse

/-- Extraction: every key is appended at each of its occurrences. -/
def Lists.extract (v : Lists) (json_value : File) : Lists :=
  let allocators := json_value.flatMap Prod.snd
  let datatypes := allocators.flatMap Prod.snd
  let sizes := datatypes.flatMap Prod.snd
  let tests := sizes.flatMap Prod.snd
  let results := tests.flatMap Prod.snd
  { scenarios := v.scenarios ++ json_value.map Prod.fst
    allocators := v.allocators ++ allocators.map Prod.fst
    datatypes := v.datatypes ++ datatypes.map Prod.fst
    sizes := v.sizes ++ sizes.map fun s => .numeral s.1
    tests := v.tests ++ tests.map Prod.fst
    results := v.results ++ results.map Prod.fst }

/-- Duplications are removed and the sizes are sorted. -/
def Lists.clean (v : Lists) : Lists where
  scenarios := fromkeys v.scenarios
  allocators := fromkeys v.allocators
  datatypes := fromkeys v.datatypes
  sizes := (((fromkeys v.sizes).map Size.toInt).insertionSort (· ≤ ·)).map .int
  tests := fromkeys v.tests
  results := fromkeys v.results

def Lists.read (v : Lists) (json_value : File) : Lists := (v.extract json_value).clean

structure Group where
  scenario : String
  datatype : String
  test : String
  result : String

def File.get (f : File) (g : Group) (allocator : String) (size : ℕ) : Option Measurements :=
  let allocators := (f.lookup g.scenario).getD []
  let datatypes := (allocators.lookup allocator).getD []
  let sizes := (datatypes.lookup g.datatype).getD []
  let tests := (sizes.lookup size).getD []
  let results := (tests.lookup g.test).getD []
  results.lookup g.result

def File.value (f : File) (g : Group) (allocator : String) (size : ℕ) : Option Measurements :=
  (f.get g allocator size).filter fun value => !value.isEmpty

def average (value : Measurements) : ℚ :=
  let sum := value.foldl (fun c i => (c.1 + 1, c.2 + i.2)) ((0, 0) : ℕ × ℚ)
  sum.2 / sum.1

/-- The exceptions that end the script. -/
inductive PyError where
  | overflowError
  | valueError
  | keyError
  | plotting

section Tables

-- `int(log2(size))`, or nothing when the conversion fails
variable (log2 : ℕ → Option ℕ)

def entry (scenario : String) (size : ℕ) : Except PyError ℕ :=
  if scenario = "Matrix Multiplication" then .ok (size * 100)
  else if scenario = "CUDA" then .ok size
  else
    match log2 size with
    | some n => .ok n
    | none => .error .overflowError

/-- The loop over the sizes: the entries of the sizes and the averages of one allocator. -/
def fetch (f : File) (g : Group) (allocator : String) (sizes : List ℕ) :
    Except PyError (List ℕ × List ℚ) :=
  sizes.foldlM (fun c size =>
    match f.value g allocator size with
    | none => .ok c
    | some value => do
      let x ← entry log2 g.scenario size
      return (c.1 ++ [x], c.2 ++ [average value])) ([], [])

def assign {β : Type} (d : Object β) (key : String) (value : β) : Object β :=
  if d.any (·.1 == key) then d.map fun c => if c.1 = key then (key, value) else c
  else d ++ [(key, value)]

def columns (f : File) (g : Group) (allocators : List String) (sizes : List ℕ) :
    Except PyError (Object (List ℚ)) :=
  allocators.foldlM (fun df_dict allocator => do
    let (xs, ys) ← fetch log2 f g allocator sizes
    if ys = [] then return df_dict
    else return assign (assign df_dict allocator ys) "sizes" (xs.map (↑))) []

/-- How many of the last entries of each column are kept. -/
def kept (scenario : String) : ℕ :=
  if scenario = "Linked Data Structures" then 6
  else if scenario = "Matrix Multiplication" then 5
  else if scenario = "2D Matrix" then 9
  else 10

/-- A table that has been built, with the file and the lists that it was built from. -/
structure Table where
  file : File
  lists : Lists
  group : Group
  columns : Object (List ℚ)

structure Script where
  lists : Lists
  tables : List Table

variable (draws : Table → Bool)

/-- One table and its figure. Whether the figure is drawn without an exception depends on the table
only. -/
def plot (json_file : File) (g : Group) : EStateM PyError Script Unit := do
  let s ← get
  match columns log2 json_file g s.lists.allocators (s.lists.sizes.map Size.toInt) with
  | .error e => throw e
  | .ok df_dict =>
    if df_dict = [] then pure ()
    else
      let df := df_dict.map fun c => (c.1, c.2.rtake (kept g.scenario))
      if ∀ c ∈ df, ∀ d ∈ df, c.2.length = d.2.length then do
        let table : Table := ⟨json_file, s.lists, g, df⟩
        modify fun s => { s with tables := s.tables ++ [table] }
        -- the ratio to malloc
        if (df.any fun c => c.1 != "sizes" && c.1 != "m") && !df.any fun c => c.1 == "m" then
          throw .keyError
        if draws table then pure () else throw .plotting
      else throw .valueError

/-- The loop over the files. The file of a table is the one that has just been read. -/
def script (files : List File) : EStateM PyError Script Unit :=
  files.forM fun json_file => do
    modify fun s => { s with lists := s.lists.read json_file }
    let s ← get
    s.lists.datatypes.forM fun datatype => s.lists.tests.forM fun test =>
      s.lists.results.forM fun result => s.lists.scenarios.forM fun scenario =>
        plot log2 draws json_file ⟨scenario, datatype, test, result⟩

/-- The tables that are built before the script ends or fails. -/
def tables (files : List File) : List Table :=
  (endState (script log2 draws files ⟨.empty, []⟩)).tables

end Tables

def mean (value : Measurements) : ℚ := (value.map Prod.snd).sum / value.length

/-- The size that an entry of the column of the sizes shows. -/
def Shows (scenario : String) (e : ℚ) (size : ℕ) : Prop :=
  if scenario = "Matrix Multiplication" then e = size * 100
  else if scenario = "CUDA" then e = size
  else ∃ n : ℕ, e = n ∧ size = 2 ^ n

/-- No size is shown twice, and in each row the value of every allocator is the mean of what has been
measured for it at the size shown. -/
def Table.Like (T : Table) : Prop :=
  ∃ sizes, T.columns.lookup "sizes" = some sizes ∧ sizes.Nodup ∧
    ∀ (r : ℕ) e, sizes[r]? = some e → ∃ size, Shows T.group.scenario e size ∧
      ∀ allocator ys, allocator ≠ "sizes" → T.columns.lookup allocator = some ys →
        ∃ value, T.file.value T.group allocator size = some value ∧ ys[r]? = some (mean value)

section Columns

variable {log2 : ℕ → Option ℕ} {f : File} {g : Group} {a : String} {allocators : List String}
  {sizes : List ℕ} {d : Object (List ℚ)}

theorem lookup_assign_self {β : Type} (d : Object β) (k : String) (v : β) :
    (assign d k v).lookup k = some v := by
  rw [assign]
  split
  case isTrue hany =>
    induction d with
    | nil => cases hany
    | cons c d ih =>
      rw [List.map_cons]
      by_cases hc : c.1 = k
      · rw [if_pos hc, List.lookup_cons_self]
      · have hd : (d.any (·.1 == k)) = true := by simpa [hc] using hany
        rw [if_neg hc, List.lookup_cons, beq_false_of_ne (Ne.symm hc), ih hd]
  case isFalse hany =>
    have hnone : d.lookup k = none := by
      rw [List.lookup_eq_none_iff]
      refine fun c hc => bne_iff_ne.mpr fun he => hany (List.any_eq_true.mpr ⟨c, hc, ?_⟩)
      exact beq_iff_eq.mpr he.symm
    rw [List.lookup_append, hnone, List.lookup_cons_self]
    rfl

theorem lookup_assign_of_ne {β : Type} (d : Object β) {k key : String} (v : β) (h : key ≠ k) :
    (assign d k v).lookup key = d.lookup key := by
  have hk : (key == k) = false := beq_false_of_ne h
  rw [assign]
  split
  · clear * - hk
    induction d with
    | nil => rfl
    | cons c d ih =>
      rw [List.map_cons, List.lookup_cons, List.lookup_cons, ih]
      by_cases hc : c.1 = k
      · rw [if_pos hc, hc, hk]
      · rw [if_neg hc]
  · rw [List.lookup_append, List.lookup_cons, hk, List.lookup_nil, Option.or_none]

theorem lookup_map {β γ : Type} (d : Object β) (h : β → γ) (key : String) :
    (d.map fun c => (c.1, h c.2)).lookup key = (d.lookup key).map h := by
  induction d with
  | nil => rfl
  | cons c d ih =>
    rw [List.map_cons, List.lookup_cons, List.lookup_cons, ih]
    cases key == c.1 <;> rfl

theorem average_eq (value : Measurements) : average value = mean value := by
  have hfold : ∀ (l : Measurements) (c : ℕ × ℚ),
      l.foldl (fun c i => (c.1 + 1, c.2 + i.2)) c = (c.1 + l.length, c.2 + (l.map Prod.snd).sum) := by
    intro l
    induction l with
    | nil => simp
    | cons i l ih =>
      intro c
      rw [List.foldl_cons, ih, List.length_cons, List.map_cons, List.sum_cons]
      refine Prod.ext ?_ ?_
      · dsimp only
        omega
      · dsimp only
        ring
  rw [average, mean, hfold]
  simp

def measured (f : File) (g : Group) (allocator : String) (sizes : List ℕ) : List ℕ :=
  sizes.filter fun size => (f.value g allocator size).isSome

theorem measured_cons_none {size : ℕ} (h : f.value g a size = none) :
    measured f g a (size :: sizes) = measured f g a sizes :=
  List.filter_cons_of_neg (by rw [h]; decide)

theorem measured_cons_some {size : ℕ} {value : Measurements} (h : f.value g a size = some value) :
    measured f g a (size :: sizes) = size :: measured f g a sizes :=
  List.filter_cons_of_pos (by rw [h]; rfl)

def meanAt (f : File) (g : Group) (allocator : String) (size : ℕ) : ℚ :=
  ((f.value g allocator size).map mean).getD 0

def entryOf (log2 : ℕ → Option ℕ) (scenario : String) (size : ℕ) : ℕ :=
  match entry log2 scenario size with
  | .ok n => n
  | .error _ => 0

theorem fetch_eq {c : List ℕ × List ℚ} (h : fetch log2 f g a sizes = .ok c) :
    c = ((measured f g a sizes).map (entryOf log2 g.scenario),
      (measured f g a sizes).map (meanAt f g a)) := by
  have hfold : ∀ (sizes : List ℕ) (c d : List ℕ × List ℚ), sizes.foldlM (fun c size =>
      match f.value g a size with
      | none => .ok c
      | some value => do
        let x ← entry log2 g.scenario size
        return (c.1 ++ [x], c.2 ++ [average value])) c = (.ok d : Except PyError _) →
      d = (c.1 ++ (measured f g a sizes).map (entryOf log2 g.scenario),
        c.2 ++ (measured f g a sizes).map (meanAt f g a)) := by
    intro sizes
    induction sizes with
    | nil =>
      intro c d h
      cases h
      simp [measured]
    | cons size sizes ih =>
      intro c d h
      rw [List.foldlM_cons] at h
      cases hv : f.value g a size with
      | none =>
        rw [hv] at h
        rw [ih c d h, measured_cons_none hv]
      | some value =>
        rw [hv] at h
        cases hx : entry log2 g.scenario size with
        | error e =>
          rw [hx] at h
          cases h
        | ok x =>
          rw [hx] at h
          have hentry : entryOf log2 g.scenario size = x := by rw [entryOf, hx]
          have hmean : meanAt f g a size = average value := by
            rw [meanAt, hv, average_eq]
            rfl
          rw [ih _ d h, measured_cons_some hv, List.map_cons, List.map_cons, hentry, hmean]
          simp
  simpa using hfold sizes ([], []) c h

def present (f : File) (g : Group) (allocators : List String) (sizes : List ℕ) : List String :=
  allocators.filter fun a => measured f g a sizes != []

/-- The columns of a dictionary after the loop over some of the allocators. -/
structure Filled (log2 : ℕ → Option ℕ) (f : File) (g : Group) (sizes : List ℕ)
    (allocators : List String) (d₀ d : Object (List ℚ)) : Prop where
  means : ∀ a, a ≠ "sizes" → d.lookup a = if a ∈ present f g allocators sizes then
    some ((measured f g a sizes).map (meanAt f g a)) else d₀.lookup a
  entries : d.lookup "sizes" = match (present f g allocators sizes).getLast? with
    | some a => some ((measured f g a sizes).map fun size => (entryOf log2 g.scenario size : ℚ))
    | none => d₀.lookup "sizes"
  same : present f g allocators sizes = [] → d = d₀

theorem filled_of_columns (h : columns log2 f g allocators sizes = .ok d) :
    Filled log2 f g sizes allocators [] d := by
  suffices hloop : ∀ (allocators : List String) (d₀ d : Object (List ℚ)),
      allocators.foldlM (fun df_dict allocator => do
        let (xs, ys) ← fetch log2 f g allocator sizes
        if ys = [] then return df_dict
        else return assign (assign df_dict allocator ys) "sizes" (xs.map (↑))) d₀ =
        (.ok d : Except PyError _) → Filled log2 f g sizes allocators d₀ d from
    hloop allocators [] d h
  intro allocators
  induction allocators with
  | nil =>
    intro d₀ d h
    cases h
    exact ⟨fun _ _ => rfl, rfl, fun _ => rfl⟩
  | cons b allocators ih =>
    intro d₀ d h
    rw [List.foldlM_cons] at h
    cases hc : fetch log2 f g b sizes with
    | error e =>
      rw [hc] at h
      cases h
    | ok c =>
      rw [hc] at h
      obtain rfl := fetch_eq hc
      by_cases hb : measured f g b sizes = []
      · have hpresent : present f g (b :: allocators) sizes = present f g allocators sizes :=
          List.filter_cons_of_neg (by simp [hb])
        simp only [hb, List.map_nil] at h
        have hd := ih d₀ d h
        exact ⟨hpresent ▸ hd.means, hpresent ▸ hd.entries, hpresent ▸ hd.same⟩
      · have hpresent : present f g (b :: allocators) sizes = b :: present f g allocators sizes :=
          List.filter_cons_of_pos (by simp [hb])
        have hmeans : (measured f g b sizes).map (meanAt f g b) ≠ [] := by simpa using hb
        change ((if (measured f g b sizes).map (meanAt f g b) = [] then pure d₀ else _) >>= _) = _ at h
        rw [if_neg hmeans] at h
        have hd := ih _ d h
        refine ⟨fun a ha => ?_, ?_, fun hnil => absurd (hpresent.symm.trans hnil) (List.cons_ne_nil _ _)⟩
        · rw [hd.means a ha, hpresent, lookup_assign_of_ne _ _ ha]
          by_cases hab : a = b
          · subst hab
            rw [lookup_assign_self, if_pos List.mem_cons_self, ite_self]
          · rw [lookup_assign_of_ne _ _ hab]
            simp only [List.mem_cons, hab, false_or]
        · rw [hd.entries, hpresent, lookup_assign_self, List.map_map]
          cases hl : present f g allocators sizes with
          | nil => rfl
          | cons a l =>
            rw [List.getLast?_cons_cons, List.getLast?_cons]

end Columns

namespace Table

variable {log2 : ℕ → Option ℕ} (T : Table)

def sizes : List ℕ := T.lists.sizes.map Size.toInt

def present : List String := ReadAndPlot.present T.file T.group T.lists.allocators T.sizes

/-- The last sizes that an allocator has been measured at, as many as the table keeps. -/
def window (allocator : String) : List ℕ :=
  (measured T.file T.group allocator T.sizes).rtake (kept T.group.scenario)

def rows : List ℕ := ((T.present.getLast?).map T.window).getD []

/-- The table comes from its file and its lists, and its columns have the same length. -/
def Built (log2 : ℕ → Option ℕ) : Prop :=
  ∃ d, ReadAndPlot.columns log2 T.file T.group T.lists.allocators T.sizes = .ok d ∧ d ≠ [] ∧
    T.columns = (d.map fun c => (c.1, c.2.rtake (kept T.group.scenario))) ∧
    ∀ c ∈ T.columns, ∀ d ∈ T.columns, c.2.length = d.2.length

/-- The rows are about the sizes that they show. No entry of the sizes occurs twice, and in each row
every allocator was measured at the size shown, which is also the size of its own value in this row
or one at which its mean is the same. -/
structure Aligned (log2 : ℕ → Option ℕ) : Prop where
  distinct : (T.rows.map (entryOf log2 T.group.scenario)).Nodup
  shown : ∀ (r : ℕ) s, T.rows[r]? = some s → ∃ size,
    Shows T.group.scenario (entryOf log2 T.group.scenario s) size ∧
    ∀ a ∈ T.present, a ≠ "sizes" → ∀ own, (T.window a)[r]? = some own → own = size ∨
      ∃ v v', T.file.value T.group a size = some v ∧ T.file.value T.group a own = some v' ∧
        mean v = mean v'

variable {T}

theorem rtake_map {β γ : Type} (h : β → γ) (l : List β) (n : ℕ) :
    (l.map h).rtake n = (l.rtake n).map h := by
  rw [List.rtake, List.rtake, List.length_map, List.map_drop]

theorem lookup_columns (hT : T.Built log2) {a : String} (ha : a ≠ "sizes") :
    T.columns.lookup a = if a ∈ T.present then
      some ((T.window a).map (meanAt T.file T.group a)) else none := by
  obtain ⟨d, hd, -, hcol, -⟩ := hT
  rw [hcol, lookup_map d (·.rtake (kept T.group.scenario)), (filled_of_columns hd).means a ha]
  by_cases hp : a ∈ T.present
  · rw [if_pos hp, if_pos (by exact hp), Option.map_some, rtake_map]
    rfl
  · rw [if_neg hp, if_neg (by exact hp)]
    rfl

theorem lookup_sizes (hT : T.Built log2) : T.columns.lookup "sizes" =
    some (T.rows.map fun size => (entryOf log2 T.group.scenario size : ℚ)) := by
  obtain ⟨d, hd, hne, hcol, -⟩ := hT
  have hf := filled_of_columns hd
  rw [hcol, lookup_map d (·.rtake (kept T.group.scenario)), hf.entries, rows, present]
  cases hl : (ReadAndPlot.present T.file T.group T.lists.allocators T.sizes).getLast? with
  | none => exact absurd (hf.same (List.getLast?_eq_none_iff.mp hl)) hne
  | some a =>
    dsimp only
    rw [Option.map_some, rtake_map]
    rfl

theorem mem_of_lookup {β : Type} {d : Object β} {a : String} {v : β} (h : d.lookup a = some v) :
    (a, v) ∈ d := by
  obtain ⟨l, l', rfl, -⟩ := List.lookup_eq_some_iff.mp h
  exact List.mem_append_right _ List.mem_cons_self

theorem length_window (hT : T.Built log2) {a : String} (ha : a ∈ T.present) (hs : a ≠ "sizes") :
    (T.window a).length = T.rows.length := by
  have hcol := mem_of_lookup ((lookup_columns hT hs).trans (if_pos ha))
  have hsizes := mem_of_lookup (lookup_sizes hT)
  obtain ⟨d, -, -, -, hlen⟩ := hT
  have h := hlen _ hcol _ hsizes
  rwa [List.length_map, List.length_map] at h

theorem value_of_window {a : String} {r own : ℕ} (h : (T.window a)[r]? = some own) :
    ∃ v, T.file.value T.group a own = some v ∧ meanAt T.file T.group a own = mean v := by
  have hm : own ∈ measured T.file T.group a T.sizes := List.mem_of_mem_drop (List.mem_of_getElem? h)
  obtain ⟨v, hv⟩ := Option.isSome_iff_exists.mp (List.mem_filter.mp hm).2
  refine ⟨v, hv, ?_⟩
  rw [meanAt, hv]
  rfl

theorem like_iff (hT : T.Built log2) : T.Like ↔ T.Aligned log2 := by
  have hnodup : (T.rows.map fun size => (entryOf log2 T.group.scenario size : ℚ)).Nodup ↔
      (T.rows.map (entryOf log2 T.group.scenario)).Nodup := by
    rw [← List.nodup_map_iff (f := ((↑) : ℕ → ℚ)) Nat.cast_injective, List.map_map]
    rfl
  constructor
  · rintro ⟨sizes, hsizes, hd, hrow⟩
    obtain rfl := Option.some.inj (hsizes.symm.trans (lookup_sizes hT))
    refine ⟨hnodup.mp hd, fun r s hs => ?_⟩
    obtain ⟨size, hshow, hval⟩ := hrow r _ (by rw [List.getElem?_map, hs]; rfl)
    refine ⟨size, hshow, fun a ha hne own hown => Or.inr ?_⟩
    obtain ⟨v, hv, hmean⟩ := hval a _ hne ((lookup_columns hT hne).trans (if_pos ha))
    obtain ⟨v', hv', hmean'⟩ := value_of_window hown
    rw [List.getElem?_map, hown, Option.map_some, Option.some_inj] at hmean
    exact ⟨v, v', hv, hv', hmean.symm.trans hmean'⟩
  · rintro ⟨hd, hshown⟩
    refine ⟨_, lookup_sizes hT, hnodup.mpr hd, fun r e he => ?_⟩
    rw [List.getElem?_map, Option.map_eq_some_iff] at he
    obtain ⟨s, hs, rfl⟩ := he
    obtain ⟨size, hshow, hval⟩ := hshown r s hs
    refine ⟨size, hshow, fun a ys hne hys => ?_⟩
    rw [lookup_columns hT hne] at hys
    split at hys
    case isFalse => cases hys
    case isTrue ha =>
      obtain rfl := Option.some.inj hys
      obtain ⟨hr, -⟩ := List.getElem?_eq_some_iff.mp hs
      have hown := List.getElem?_eq_getElem (l := T.window a) (i := r)
        (by rw [length_window hT ha hne]; exact hr)
      obtain ⟨v', hv', hmean'⟩ := value_of_window hown
      rw [List.getElem?_map, hown, Option.map_some, hmean']
      rcases hval a ha hne _ hown with rfl | ⟨v, v'', hv, hv'', hmean⟩
      · exact ⟨v', hv', rfl⟩
      · obtain rfl := Option.some.inj (hv'.symm.trans hv'')
        exact ⟨v, hv, congrArg some hmean.symm⟩

end Table

section Script

variable {log2 : ℕ → Option ℕ} {draws : Table → Bool} {json_file : File} {g : Group}

def Plots (log2 : ℕ → Option ℕ) (json_file : File) (s t : Script) : Prop :=
  t.lists = s.lists ∧ ∀ T ∈ t.tables, T ∈ s.tables ∨
    T.file = json_file ∧ T.lists = s.lists ∧ T.Built log2

instance : Std.Refl (Plots log2 json_file) := ⟨fun _ => ⟨rfl, fun _ h => Or.inl h⟩⟩

instance : IsTrans Script (Plots log2 json_file) := by
  refine ⟨fun s t u h h' => ⟨h'.1.trans h.1, fun T hT => ?_⟩⟩
  rcases h'.2 T hT with ht | ⟨hf, hl, hb⟩
  · exact h.2 T ht
  · exact Or.inr ⟨hf, hl.trans h.1, hb⟩

theorem leads_plot : Leads (Plots log2 json_file) (plot log2 draws json_file g) := by
  intro s
  have hrefl : Plots log2 json_file s s := refl_of _ s
  rw [plot, meets_bind, meets_get]
  cases hd : columns log2 json_file g s.lists.allocators (s.lists.sizes.map Size.toInt) with
  | error e => exact (meets_throw e).mpr hrefl
  | ok d =>
    refine meets_ite (fun _ => (meets_pure _).mpr hrefl) fun hne => ?_
    refine meets_ite (fun hlen => ?_) fun _ => (meets_throw _).mpr hrefl
    have hadd : Plots log2 json_file s { s with tables := s.tables ++
        [⟨json_file, s.lists, g, d.map fun c => (c.1, c.2.rtake (kept g.scenario))⟩] } := by
      refine ⟨rfl, fun T hT => ?_⟩
      rcases List.mem_append.mp hT with hT | hT
      · exact Or.inl hT
      · obtain rfl := List.mem_singleton.mp hT
        exact Or.inr ⟨rfl, rfl, d, hd, hne, rfl, hlen⟩
    rw [meets_bind, meets_modify]
    refine meets_ite (fun _ => (meets_throw _).mpr hadd) fun _ => ?_
    exact meets_ite (fun _ => (meets_pure _).mpr hadd) fun _ => (meets_throw _).mpr hadd

/-- The file of a table is one of the files, and its lists are those of the files up to it. -/
def Table.From (T : Table) (files : List File) : Prop :=
  ∃ pre post, files = pre ++ T.file :: post ∧ T.lists = (pre ++ [T.file]).foldl Lists.read .empty

theorem meets_script (log2 : ℕ → Option ℕ) (draws : Table → Bool) : ∀ (post pre : List File) (s : Script),
    s.lists = pre.foldl Lists.read .empty →
    (∀ T ∈ s.tables, T.From (pre ++ post) ∧ T.Built log2) →
    Meets (script log2 draws post) s
      (fun _ t => ∀ T ∈ t.tables, T.From (pre ++ post) ∧ T.Built log2)
      (fun _ t => ∀ T ∈ t.tables, T.From (pre ++ post) ∧ T.Built log2) := by
  intro post
  induction post with
  | nil => exact fun _ s _ hs => (meets_pure _).mpr hs
  | cons f post ih =>
    intro pre s hl hs
    have hlists : s.lists.read f = (pre ++ [f]).foldl Lists.read .empty := by
      rw [List.foldl_append, ← hl]
      rfl
    have hloops : ∀ v : Lists, Leads (Plots log2 f) (v.datatypes.forM fun datatype =>
        v.tests.forM fun test => v.results.forM fun result => v.scenarios.forM fun scenario =>
          plot log2 draws f ⟨scenario, datatype, test, result⟩) := fun v =>
      .forM (fun _ => .forM (fun _ => .forM (fun _ => .forM (fun _ => leads_plot) _) _) _) _
    have hkept : ∀ t, Plots log2 f { s with lists := s.lists.read f } t →
        ∀ T ∈ t.tables, T.From (pre ++ f :: post) ∧ T.Built log2 := by
      rintro t ht T hT
      rcases ht.2 T hT with hT | ⟨rfl, hTl, hb⟩
      · exact hs T hT
      · exact ⟨⟨pre, post, rfl, hTl.trans hlists⟩, hb⟩
    rw [script, List.forM, meets_bind, meets_bind, meets_modify, meets_bind, meets_get]
    refine (hloops _ _).mono (fun _ t ht => ?_) fun _ t ht => hkept t ht
    have h := ih (pre ++ [f]) t (ht.1.trans hlists) (by
      rw [List.append_assoc]
      exact hkept t ht)
    rw [List.append_assoc] at h
    exact h

theorem built_of_mem {files : List File} {T : Table} (hT : T ∈ tables log2 draws files) :
    T.From files ∧ T.Built log2 := by
  have h := meets_script log2 draws files [] ⟨.empty, []⟩ rfl
    fun T hT => absurd hT List.not_mem_nil
  exact meets_same_iff.mp h T hT

/-- Each table is built from one of the files and the lists of the files up to it. Every table compares
like with like exactly when in each the rows are about the sizes that they show. -/
theorem tables_like_iff (log2 : ℕ → Option ℕ) (draws : Table → Bool) (files : List File) :
    (∀ T ∈ tables log2 draws files, T.From files) ∧
    ((∀ T ∈ tables log2 draws files, T.Like) ↔ ∀ T ∈ tables log2 draws files, T.Aligned log2) :=
  ⟨fun _ hT => (built_of_mem hT).1, forall₂_congr fun _ hT => Table.like_iff (built_of_mem hT).2⟩

/-- The matrix multiplications of two sizes, as the benchmarks record them: `malloc_matmult` records a
hundred times the size of the others. -/
def matmultResults : File :=
  let run (value : ℚ) : Object (Object Measurements) := [("Multiplication", [("Cycles", [("1", value)])])]
  [("Matrix Multiplication", [("m", [("d", [(600, run 30), (700, run 50)])]),
    ("vcm_affarr", [("d", [(6, run 20), (7, run 40)])])])]

theorem not_like_matmult :
    ∃ T ∈ tables (fun n => if n = 0 then none else some n.log2) (fun _ => true) [matmultResults],
      ¬ T.Like := by
  have hrun : (tables (fun n => if n = 0 then none else some n.log2) (fun _ => true)
      [matmultResults]).map (fun T => (T.columns, T.group.scenario, T.file.value T.group "m" 6)) =
      [([("m", [30, 50]), ("sizes", [600, 700]), ("vcm_affarr", [20, 40])],
        "Matrix Multiplication", none)] := by decide +kernel
  obtain ⟨T, hT, hcol⟩ := List.mem_map.mp (hrun ▸ List.mem_singleton_self _)
  obtain ⟨hcol, hrest⟩ := Prod.mk.inj hcol
  obtain ⟨hscenario, hvalue⟩ := Prod.mk.inj hrest
  refine ⟨T, hT, ?_⟩
  rintro ⟨sizes, hsizes, -, hrow⟩
  rw [hcol] at hsizes hrow
  obtain rfl : [600, 700] = sizes := Option.some.inj hsizes
  -- the row of 600 shows the size 6, at which `m` has not been measured
  obtain ⟨size, hshow, hval⟩ := hrow 0 600 rfl
  rw [Shows, if_pos hscenario] at hshow
  have hsix : size = 6 := by
    have : (size : ℚ) = 6 := by linarith
    exact_mod_cast this
  obtain ⟨v, hv, -⟩ := hval "m" [30, 50] (by decide) rfl
  rw [hsix, hvalue] at hv
  cases hv

end Script

end ReadAndPlot

end VcmallocBench
