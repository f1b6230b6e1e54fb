import Mathlib.Data.Set.List
import QuilControl.Readout.Register
import QuilControl.Traverse

/-!
# Stacking columns

Columns stack to a matrix if they have one length and one kind. Entry `[s][i]` of the matrix is then
value `s` of column `i` (`of_stackColumns_eq_ok`), and a matrix is determined by its shape, its kind and
its entries (`RegisterMatrix.ext_get?`). Columns that do not stack are jagged, or else of mixed kinds
(`stackColumns_eq_error_iff`).
-/

namespace QuilControl

variable {α β : Type}

/-! ## Entries of grids -/

namespace Grid

def get? (g : Grid α) (row column : Nat) : Option α := g.lists[row]?.bind (·[column]?)

theorem pieces_flatten {columns : Nat} {lists : List (List α)} (h : ∀ l ∈ lists, l.length = columns) :
    pieces columns lists.length lists.flatten = lists := by
  induction lists with
  | nil => rfl
  | cons l rest ih =>
    have hl : l.length = columns := h l List.mem_cons_self
    have hrest := ih fun l' hl' => h l' (List.mem_cons_of_mem _ hl')
    rw [List.length_cons, List.flatten_cons, pieces, List.take_left' hl, List.drop_left' hl, hrest]

theorem flatten_pieces {columns : Nat} : ∀ {rows : Nat} {entries : List α},
    entries.length = rows * columns → (pieces columns rows entries).flatten = entries
  | 0, entries, h => by
    rw [Nat.zero_mul] at h
    rw [pieces, List.flatten_nil, List.eq_nil_of_length_eq_zero h]
  | rows + 1, entries, h => by
    have hdrop : (entries.drop columns).length = rows * columns := by
      rw [List.length_drop, h, Nat.succ_mul, Nat.add_sub_cancel]
    rw [pieces, List.flatten_cons, flatten_pieces hdrop, List.take_append_drop]

theorem length_pieces (columns rows : Nat) (entries : List α) :
    (pieces columns rows entries).length = rows := by
  induction rows generalizing entries with
  | zero => rfl
  | succ rows ih => exact congrArg Nat.succ (ih _)

theorem length_lists (g : Grid α) : g.lists.length = g.rows := length_pieces ..

theorem flatten_lists (g : Grid α) : g.lists.flatten = g.entries := flatten_pieces g.length_entries

/-- Grids of one shape with the same entries everywhere are equal. -/
theorem ext_get? {g h : Grid α} (rows : g.rows = h.rows) (columns : g.columns = h.columns)
    (entries : ∀ row column, g.get? row column = h.get? row column) : g = h := by
  have hlists : g.lists = h.lists := by
    refine List.ext_getElem (by rw [length_lists, length_lists, rows]) fun row hg hh => ?_
    refine List.ext_getElem? fun column => ?_
    have hentry := entries row column
    rwa [get?, get?, List.getElem?_eq_getElem hg, List.getElem?_eq_getElem hh] at hentry
  refine ext rows columns ?_
  rw [← flatten_lists g, ← flatten_lists h, hlists]

/-- Columns end where the shape says. -/
theorem get?_eq_none {g : Grid α} {column : Nat} (h : g.columns ≤ column) (row : Nat) :
    g.get? row column = none := by
  have hpieces : ∀ (rows : Nat) (entries : List α), ∀ l ∈ pieces g.columns rows entries, l.length ≤ g.columns := by
    intro rows
    induction rows with
    | zero => intro entries l hl; cases hl
    | succ rows ih =>
      intro entries l hl
      rcases List.mem_cons.1 hl with rfl | hl
      · exact List.length_take_le ..
      · exact ih _ l hl
  cases hrow : g.lists[row]? with
  | none => rw [get?, hrow, Option.bind_none]
  | some l =>
    have hl : l.length ≤ g.columns := hpieces _ _ l (List.mem_of_getElem? hrow)
    rw [get?, hrow, Option.bind_some, List.getElem?_eq_none (hl.trans h)]

theorem getElem?_filterMap_of_isSome {f : α → Option β} {xs : List α} (h : ∀ x ∈ xs, (f x).isSome)
    (i : Nat) : (xs.filterMap f)[i]? = xs[i]?.bind f := by
  induction xs generalizing i with
  | nil => rfl
  | cons x rest ih =>
    obtain ⟨y, hy⟩ := Option.isSome_iff_exists.1 (h x List.mem_cons_self)
    rw [List.filterMap_cons_some hy]
    cases i with
    | zero => exact hy.symm
    | succ i => simpa using ih (fun x' hx' => h x' (List.mem_cons_of_mem _ hx')) i

/-- Transposing exchanges the places of an entry. The induction takes the first entry of every list,
so it runs along the rows of the result. -/
theorem getElem?_transpose {n : Nat} {lists : List (List α)} (h : ∀ l ∈ lists, l.length = n)
    (s i : Nat) : (transpose n lists)[s]?.bind (·[i]?) = lists[i]?.bind (·[s]?) := by
  induction n generalizing lists s with
  | zero =>
    cases hi : lists[i]? with
    | none => rfl
    | some l =>
      have hl : l = [] := List.eq_nil_of_length_eq_zero (h l (List.mem_of_getElem? hi))
      simp [transpose, hl]
  | succ n ih =>
    cases s with
    | zero =>
      have hhead : ∀ l ∈ lists, l.head?.isSome := by
        intro l hl
        rw [List.isSome_head?]
        rintro rfl
        simpa using h [] hl
      have hfirst : (lists.filterMap List.head?)[i]? = lists[i]?.bind List.head? :=
        getElem?_filterMap_of_isSome hhead i
      rw [transpose, List.getElem?_cons_zero, Option.bind_some, hfirst]
      exact congrArg _ (funext fun l => List.head?_eq_getElem?)
    | succ s =>
      have htail : ∀ l ∈ lists.map List.tail, l.length = n := by
        intro l hl
        obtain ⟨l', hl', rfl⟩ := List.mem_map.1 hl
        rw [List.length_tail, h l' hl', Nat.add_sub_cancel]
      rw [transpose, List.getElem?_cons_succ, ih htail, List.getElem?_map]
      cases lists[i]? <;> simp

/-- A grid of columns: its shape is the common length by the number of columns, and the entry in row
`s` and column `i` is entry `s` of column `i`. -/
theorem ofColumns?_eq_some {n : Nat} {lists : List (List α)} (h : ∀ l ∈ lists, l.length = n) :
    ∃ g, ofColumns? lists = some g ∧ g.columns = lists.length ∧ (∀ l ∈ lists, g.rows = l.length) ∧
      ∀ s i, g.get? s i = lists[i]?.bind (·[s]?) := by
  have hwidth : ∀ l ∈ lists, l.length = width lists := by
    intro l hl
    cases lists with
    | nil => cases hl
    | cons first rest => rw [h l hl, width, h first List.mem_cons_self]
  refine ⟨_, dif_pos hwidth, rfl, fun l hl => (hwidth l hl).symm, fun s i => ?_⟩
  have hrows := pieces_flatten (length_of_mem_transpose hwidth)
  rw [length_transpose] at hrows
  rw [get?, Grid.lists, hrows, getElem?_transpose hwidth]

end Grid

/-! ## Entries of columns and matrices -/

inductive ReadoutValue where
  | integer (value : Int64)
  | real (value : Float)
  | complex (value : ComplexNumber Float)

def ReadoutValues.get? : ReadoutValues → Nat → Option ReadoutValue
  | integer values, shot => values[shot]?.map .integer
  | real values, shot => values[shot]?.map .real
  | complex values, shot => values[shot]?.map .complex

def RegisterMatrix.get? : RegisterMatrix → Nat → Nat → Option ReadoutValue
  | integer grid, shot, slot => (grid.get? shot slot).map .integer
  | real grid, shot, slot => (grid.get? shot slot).map .real
  | complex grid, shot, slot => (grid.get? shot slot).map .complex

/-- Matrices of one kind and shape with the same values everywhere are equal. -/
theorem RegisterMatrix.ext_get? {M M' : RegisterMatrix} (kind : M.kind = M'.kind)
    (shots : M.shots = M'.shots) (slots : M.slots = M'.slots) (values : ∀ s i, M.get? s i = M'.get? s i) :
    M = M' := by
  cases M <;> cases M' <;> try cases kind
  case integer g g' =>
    refine congrArg _ (Grid.ext_get? shots slots fun s i => ?_)
    exact Option.map_injective (fun _ _ => ReadoutValue.integer.inj) (values s i)
  case real g g' =>
    refine congrArg _ (Grid.ext_get? shots slots fun s i => ?_)
    exact Option.map_injective (fun _ _ => ReadoutValue.real.inj) (values s i)
  case complex g g' =>
    refine congrArg _ (Grid.ext_get? shots slots fun s i => ?_)
    exact Option.map_injective (fun _ _ => ReadoutValue.complex.inj) (values s i)

structure RegisterMatrix.HasColumn (M : RegisterMatrix) (slot : Nat) (values : ReadoutValues) : Prop where
  shots : M.shots = values.length
  kind : M.kind = values.kind
  get?_eq : ∀ shot, M.get? shot slot = values.get? shot

theorem RegisterMatrix.get?_eq_none {M : RegisterMatrix} {slot : Nat} (h : M.slots ≤ slot) (shot : Nat) :
    M.get? shot slot = none := by
  cases M <;> exact Option.map_eq_none_iff.2 (Grid.get?_eq_none h shot)

/-- A matrix with a column is determined by its columns. -/
theorem RegisterMatrix.ext_columns {M M' : RegisterMatrix} (slots : M.slots = M'.slots) (hpos : 0 < M.slots)
    (h : ∀ i < M.slots, ∃ c, M.HasColumn i c ∧ M'.HasColumn i c) : M = M' := by
  obtain ⟨first, hM, hM'⟩ := h 0 hpos
  refine ext_get? (hM.kind.trans hM'.kind.symm) (hM.shots.trans hM'.shots.symm) slots fun s i => ?_
  by_cases hi : i < M.slots
  · obtain ⟨c, hc, hc'⟩ := h i hi
    rw [hc.get?_eq, hc'.get?_eq]
  · have hle : M.slots ≤ i := Nat.le_of_not_lt hi
    rw [get?_eq_none hle, get?_eq_none (slots ▸ hle)]

/-! ## Columns that do not stack -/

/-- A function has one value on a list. -/
def Agree (f : α → β) (xs : List α) : Prop := ∀ x ∈ xs, ∀ y ∈ xs, f x = f y

instance [DecidableEq β] (f : α → β) (xs : List α) : Decidable (Agree f xs) :=
  inferInstanceAs (Decidable (∀ x ∈ xs, ∀ y ∈ xs, f x = f y))

theorem Agree.congr {f : α → β} {xs ys : List α} (h : ∀ x, x ∈ xs ↔ x ∈ ys) : Agree f xs ↔ Agree f ys := by
  simp only [Agree, h]

/-- What keeps columns from stacking: different lengths, or else different kinds. -/
def columnFault? (register : String) (columns : List ReadoutValues) : Option AssemblyError :=
  if ¬ Agree ReadoutValues.length columns then some (.jagged register)
  else if ¬ Agree ReadoutValues.kind columns then some (.mixedKinds register)
  else none

theorem columnFault?_eq_none_iff {register : String} {columns : List ReadoutValues} :
    columnFault? register columns = none ↔
      Agree ReadoutValues.length columns ∧ Agree ReadoutValues.kind columns := by
  unfold columnFault?
  by_cases hlength : Agree ReadoutValues.length columns
  · by_cases hkind : Agree ReadoutValues.kind columns <;> simp [hlength, hkind]
  · simp [hlength]

/-- The order of columns does not matter, nor how often one occurs. -/
theorem columnFault?_congr {register : String} {columns columns' : List ReadoutValues}
    (h : ∀ c, c ∈ columns ↔ c ∈ columns') : columnFault? register columns = columnFault? register columns' := by
  simp only [columnFault?, Agree.congr h]

theorem agree_iff {f : α → β} {xs : List α} (d : β) :
    Agree f xs ↔ ∀ x ∈ xs, f x = (xs.head?.map f).getD d := by
  cases xs with
  | nil => simp [Agree]
  | cons first rest =>
    constructor
    · intro h x hx
      exact h x hx first List.mem_cons_self
    · intro h x hx y hy
      rw [h x hx, h y hy]

/-! ## Stacking -/

/-- A result of stacking: the matrix with these columns, or their fault. -/
def StacksTo (register : String) (columns : List ReadoutValues) (result : Except AssemblyError RegisterMatrix) :
    Prop :=
  match columnFault? register columns with
  | some e => result = .error e
  | none => ∃ M, result = .ok M ∧ M.slots = columns.length ∧ ∀ i c, columns[i]? = some c → M.HasColumn i c

/-- One kind of values: `pick` takes the columns of the kind, which `form` makes, `make` the matrices,
and `wrap` the single values. -/
structure Picks (pick : ReadoutValues → Option (List α)) (form : List α → ReadoutValues)
    (make : Grid α → RegisterMatrix) (wrap : α → ReadoutValue) (kind : ValueKind) : Prop where
  pick_form : ∀ values, pick (form values) = some values
  pick_eq_none : ∀ c, c.kind ≠ kind → pick c = none
  exists_form : ∀ c, c.kind = kind → ∃ values, form values = c
  length_form : ∀ values, (form values).length = values.length
  get?_form : ∀ values s, (form values).get? s = values[s]?.map wrap
  slots_make : ∀ g, (make g).slots = g.columns
  shots_make : ∀ g, (make g).shots = g.rows
  kind_make : ∀ g, (make g).kind = kind
  get?_make : ∀ g s i, (make g).get? s i = (g.get? s i).map wrap

theorem picks_asInteger? : Picks ReadoutValues.asInteger? .integer .integer .integer .integer where
  pick_form _ := rfl
  pick_eq_none c h := by cases c <;> first | rfl | exact absurd rfl h
  exists_form c h := by cases c <;> first | exact ⟨_, rfl⟩ | cases h
  length_form _ := rfl
  get?_form _ _ := rfl
  slots_make _ := rfl
  shots_make _ := rfl
  kind_make _ := rfl
  get?_make _ _ _ := rfl

theorem picks_asReal? : Picks ReadoutValues.asReal? .real .real .real .real where
  pick_form _ := rfl
  pick_eq_none c h := by cases c <;> first | rfl | exact absurd rfl h
  exists_form c h := by cases c <;> first | exact ⟨_, rfl⟩ | cases h
  length_form _ := rfl
  get?_form _ _ := rfl
  slots_make _ := rfl
  shots_make _ := rfl
  kind_make _ := rfl
  get?_make _ _ _ := rfl

theorem picks_asComplex? : Picks ReadoutValues.asComplex? .complex .complex .complex .complex where
  pick_form _ := rfl
  pick_eq_none c h := by cases c <;> first | rfl | exact absurd rfl h
  exists_form c h := by cases c <;> first | exact ⟨_, rfl⟩ | cases h
  length_form _ := rfl
  get?_form _ _ := rfl
  slots_make _ := rfl
  shots_make _ := rfl
  kind_make _ := rfl
  get?_make _ _ _ := rfl

theorem pickColumns_eq_traverse? (pick : ReadoutValues → Option (List α)) (columns : List ReadoutValues) :
    pickColumns pick columns = traverse? pick columns := by
  induction columns with
  | nil => rfl
  | cons c rest ih =>
    rw [pickColumns, traverse?, ih]
    cases pick c <;> rfl

namespace Picks

variable {pick : ReadoutValues → Option (List α)} {form : List α → ReadoutValues}
  {make : Grid α → RegisterMatrix} {wrap : α → ReadoutValue} {kind : ValueKind}

/-- Columns of one length and of the kind that is picked form a matrix. -/
theorem stackPicked_eq_ok (p : Picks pick form make wrap kind) (register : String) {n : Nat}
    {columns : List ReadoutValues} (hlength : ∀ c ∈ columns, c.length = n)
    (hkind : ∀ c ∈ columns, c.kind = kind) :
    ∃ M, (stackPicked register pick columns).map make = .ok M ∧ M.slots = columns.length ∧
      ∀ i c, columns[i]? = some c → M.HasColumn i c := by
  obtain ⟨lists, rfl⟩ : ∃ lists : List (List α), lists.map form = columns := by
    rw [← Set.mem_range, Set.range_list_map]
    exact fun c hc => p.exists_form c (hkind c hc)
  have hpicked : pickColumns pick (lists.map form) = some lists := by
    rw [pickColumns_eq_traverse?, traverse?_map_of_eq p.pick_form]
  have hlists : ∀ l ∈ lists, l.length = n := by
    intro l hl
    rw [← p.length_form, hlength (form l) (List.mem_map_of_mem hl)]
  obtain ⟨g, hg, hcolumns, hrows, hentries⟩ := Grid.ofColumns?_eq_some hlists
  refine ⟨make g, ?_, by rw [p.slots_make, hcolumns, List.length_map], fun i c hc => ?_⟩
  · rw [stackPicked, hpicked]
    simp only [hg, Except.map]
  · rw [List.getElem?_map] at hc
    obtain ⟨l, hl, rfl⟩ := Option.map_eq_some_iff.1 hc
    constructor
    · rw [p.shots_make, hrows l (List.mem_of_getElem? hl), p.length_form]
    · rw [p.kind_make, hkind (form l) (List.mem_map_of_mem (List.mem_of_getElem? hl))]
    · intro s
      rw [p.get?_make, hentries, hl, Option.bind_some, p.get?_form]

/-- A column of another kind keeps the columns from forming a matrix, whatever the lengths. -/
theorem stackPicked_eq_error (p : Picks pick form make wrap kind) (register : String)
    {columns : List ReadoutValues} {c : ReadoutValues} (hc : c ∈ columns) (hkind : c.kind ≠ kind) :
    (stackPicked register pick columns).map make = .error (.mixedKinds register) := by
  have hpicked : pickColumns pick columns = none := by
    rw [pickColumns_eq_traverse?]
    cases htraverse : traverse? pick columns with
    | none => rfl
    | some lists =>
      have hnone : none ∈ columns.map pick := p.pick_eq_none c hkind ▸ List.mem_map_of_mem hc
      rw [traverse?_eq_some_iff.1 htraverse] at hnone
      simp at hnone
  rw [stackPicked, hpicked]
  rfl

/-- Columns of one length stack, if `kind` is the kind of the first of them. -/
theorem stacksTo (p : Picks pick form make wrap kind) (register : String)
    {columns : List ReadoutValues} (hlength : Agree ReadoutValues.length columns)
    (hfirst : (columns.head?.map ReadoutValues.kind).getD .integer = kind) :
    StacksTo register columns ((stackPicked register pick columns).map make) := by
  by_cases hkind : Agree ReadoutValues.kind columns
  · rw [StacksTo, columnFault?_eq_none_iff.2 ⟨hlength, hkind⟩]
    refine p.stackPicked_eq_ok register ((agree_iff 0).1 hlength) ?_
    rw [← hfirst]
    exact (agree_iff .integer).1 hkind
  · have hfault : columnFault? register columns = some (.mixedKinds register) := by
      simp [columnFault?, hlength, hkind]
    obtain ⟨c, hc, hne⟩ : ∃ c ∈ columns, c.kind ≠ kind := by
      by_contra hall
      refine hkind ((agree_iff .integer).2 fun c hc => ?_)
      rw [hfirst]
      by_contra hne
      exact hall ⟨c, hc, hne⟩
    rw [StacksTo, hfault]
    exact p.stackPicked_eq_error register hc hne

end Picks

theorem stacksTo_stackColumns (register : String) (columns : List ReadoutValues) :
    StacksTo register columns (stackColumns register columns) := by
  by_cases hlength : Agree ReadoutValues.length columns
  · have hany : columns.any (·.length ≠ (columns.head?.map ReadoutValues.length).getD 0) = false := by
      simpa using (agree_iff 0).1 hlength
    rw [stackColumns, hany]
    cases hfirst : (columns.head?.map ReadoutValues.kind).getD .integer with
    | integer => exact picks_asInteger?.stacksTo register hlength hfirst
    | real => exact picks_asReal?.stacksTo register hlength hfirst
    | complex => exact picks_asComplex?.stacksTo register hlength hfirst
  · have hany : columns.any (·.length ≠ (columns.head?.map ReadoutValues.length).getD 0) = true := by
      rw [agree_iff 0] at hlength
      simpa using hlength
    have hfault : columnFault? register columns = some (.jagged register) := by
      simp [columnFault?, hlength]
    rw [StacksTo, hfault, stackColumns, hany]
    rfl

/-- Stacking fails just with the fault of the columns. -/
theorem stackColumns_eq_error_iff {register : String} {columns : List ReadoutValues} {e : AssemblyError} :
    stackColumns register columns = .error e ↔ columnFault? register columns = some e := by
  have hstack := stacksTo_stackColumns register columns
  unfold StacksTo at hstack
  cases hfault : columnFault? register columns with
  | none =>
    rw [hfault] at hstack
    obtain ⟨M, hM, -⟩ := hstack
    simp [hM]
  | some e' =>
    rw [hfault] at hstack
    simp [hstack]

/-- Columns that stack have no fault, and the matrix has these columns. -/
theorem of_stackColumns_eq_ok {register : String} {columns : List ReadoutValues} {M : RegisterMatrix}
    (h : stackColumns register columns = .ok M) :
    columnFault? register columns = none ∧ M.slots = columns.length ∧
      ∀ i c, columns[i]? = some c → M.HasColumn i c := by
  have hstack := stacksTo_stackColumns register columns
  rw [h] at hstack
  unfold StacksTo at hstack
  cases hfault : columnFault? register columns with
  | none =>
    rw [hfault] at hstack
    obtain ⟨M', hM, hcolumns⟩ := hstack
    cases hM
    exact ⟨rfl, hcolumns⟩
  | some e =>
    rw [hfault] at hstack
    cases hstack

end QuilControl
