/-!
# Rectangular grids

A grid has a number of rows and a number of columns and its entries row by row. Either number may
be zero, so a grid without entries still has a shape.
-/

namespace QuilControl

/-- A rectangular arrangement of entries. -/
structure Grid (α : Type) where
  rows : Nat
  columns : Nat
  /-- The entries, row by row. -/
  entries : List α
  length_entries : entries.length = rows * columns
deriving DecidableEq

namespace Grid

variable {α β : Type}

@[ext]
theorem ext {g h : Grid α} (rows : g.rows = h.rows) (columns : g.columns = h.columns)
    (entries : g.entries = h.entries) : g = h := by
  cases g; cases h; cases rows; cases columns; cases entries; rfl

/-- Shapes and entries are compared. -/
instance [BEq α] : BEq (Grid α) :=
  ⟨fun g h => g.rows == h.rows && g.columns == h.columns && g.entries == h.entries⟩

/-- Whether a shape can be laid out: its sides, zeros left out, multiply to a signed word. -/
def fits (rows columns : Nat) : Bool := max rows 1 * max columns 1 < 1 <<< 63

/-- The grid of a shape and its entries, if the shape can be laid out and their number is right. -/
def ofEntries? (rows columns : Nat) (entries : List α) : Option (Grid α) :=
  if h : entries.length = rows * columns then
    if fits rows columns then some ⟨rows, columns, entries, h⟩ else none
  else none

/-- Cut a list into pieces of one length. -/
def pieces (length : Nat) : Nat → List α → List (List α)
  | 0, _ => []
  | n + 1, xs => xs.take length :: pieces length n (xs.drop length)

def lists (g : Grid α) : List (List α) := pieces g.columns g.rows g.entries

def map (f : α → β) (g : Grid α) : Grid β :=
  ⟨g.rows, g.columns, g.entries.map f, by rw [List.length_map, g.length_entries]⟩

/-- The length of the first list, or zero. -/
def width : List (List α) → Nat
  | [] => 0
  | first :: _ => first.length

theorem length_flatten_of_all {columns : Nat} {lists : List (List α)}
    (h : ∀ l ∈ lists, l.length = columns) : lists.flatten.length = lists.length * columns := by
  induction lists with
  | nil => simp
  | cons l rest ih =>
    have hl := h l List.mem_cons_self
    have hrest := ih fun l' hl' => h l' (List.mem_cons_of_mem _ hl')
    rw [List.flatten_cons, List.length_append, hl, hrest, List.length_cons, Nat.succ_mul,
      Nat.add_comm]

/-- The grid of the given rows, if all are as long as the first. -/
def ofRows? (lists : List (List α)) : Option (Grid α) :=
  if h : ∀ l ∈ lists, l.length = width lists then
    some ⟨lists.length, width lists, lists.flatten, length_flatten_of_all h⟩
  else none

/-- The first entry of each list, then the second of each, and so on, `n` times. -/
def transpose : Nat → List (List α) → List (List α)
  | 0, _ => []
  | n + 1, lists => lists.filterMap List.head? :: transpose n (lists.map List.tail)

theorem length_transpose (n : Nat) (lists : List (List α)) : (transpose n lists).length = n := by
  induction n generalizing lists with
  | zero => rfl
  | succ n ih => exact congrArg Nat.succ (ih _)

theorem length_of_mem_transpose {n : Nat} {lists : List (List α)}
    (h : ∀ l ∈ lists, l.length = n) : ∀ row ∈ transpose n lists, row.length = lists.length := by
  induction n generalizing lists with
  | zero => intro row hr; exact absurd hr List.not_mem_nil
  | succ n ih =>
    intro row hr
    rcases List.mem_cons.1 hr with rfl | hr
    · clear hr ih
      induction lists with
      | nil => rfl
      | cons l rest ihl =>
        have hl := h l List.mem_cons_self
        cases l with
        | nil => simp at hl
        | cons x xs =>
          simpa using ihl fun l' hl' => h l' (List.mem_cons_of_mem _ hl')
    · have := @ih (lists.map List.tail) (fun l hl => by
        obtain ⟨l', hl', rfl⟩ := List.mem_map.1 hl
        rw [List.length_tail, h l' hl']; rfl) row hr
      simpa using this

/-- The grid of the given columns, if all are as long as the first. -/
def ofColumns? (lists : List (List α)) : Option (Grid α) :=
  if h : ∀ l ∈ lists, l.length = width lists then
    some ⟨width lists, lists.length, (transpose (width lists) lists).flatten, by
      rw [length_flatten_of_all (length_of_mem_transpose h), length_transpose]⟩
  else none

end Grid

end QuilControl
