/-!
# Finite maps in key order

`SortedMap κ α` lists its entries in strictly increasing key order, so a map has one form only:
maps that agree at every key are equal (`SortedMap.ext_get?`). Putting a value under a key keeps
the values of all other keys (`get?_insert`).
-/

namespace QuilControl

/-- Entries with strictly increasing keys. -/
def Increasing {κ α : Type} [Ord κ] (entries : List (κ × α)) : Prop :=
  entries.Pairwise fun a b => compare a.1 b.1 = .lt

/-- A finite map, kept as its entries in strictly increasing key order. -/
structure SortedMap (κ α : Type) [Ord κ] where
  entries : List (κ × α)
  increasing : Increasing entries

namespace SortedMap

variable {κ α β : Type} [Ord κ]

/-! ## Entry lists -/

/-- The value under `key`, found by walking the entries. -/
def look (key : κ) : List (κ × α) → Option α
  | [] => none
  | (k, value) :: rest => if compare key k = .eq then some value else look key rest

/-- Put `value` under `key`, before the first larger key; an equal key gives way. -/
def put (key : κ) (value : α) : List (κ × α) → List (κ × α)
  | [] => [(key, value)]
  | (k, v) :: rest =>
    match compare key k with
    | .lt => (key, value) :: (k, v) :: rest
    | .eq => (key, value) :: rest
    | .gt => (k, v) :: put key value rest

theorem mem_put {key : κ} {value : α} {entries : List (κ × α)} {e : κ × α}
    (h : e ∈ put key value entries) : e = (key, value) ∨ e ∈ entries := by
  induction entries with
  | nil => exact Or.inl (by simpa [put] using h)
  | cons head rest ih =>
    obtain ⟨k, v⟩ := head
    unfold put at h
    split at h
    · rcases List.mem_cons.1 h with h | h
      · exact Or.inl h
      · exact Or.inr h
    · rcases List.mem_cons.1 h with h | h
      · exact Or.inl h
      · exact Or.inr (List.mem_cons_of_mem _ h)
    · rcases List.mem_cons.1 h with h | h
      · exact Or.inr (h ▸ List.mem_cons_self)
      · exact (ih h).imp id (List.mem_cons_of_mem _)

theorem Increasing.put [Std.TransOrd κ] [Std.LawfulEqOrd κ] {key : κ} {value : α}
    {entries : List (κ × α)} (h : Increasing entries) :
    Increasing (SortedMap.put key value entries) := by
  induction entries with
  | nil => exact List.pairwise_singleton ..
  | cons head rest ih =>
    obtain ⟨k, v⟩ := head
    obtain ⟨hlt, hrest⟩ := List.pairwise_cons.1 h
    unfold SortedMap.put
    split
    · next hk =>
      refine List.pairwise_cons.2 ⟨fun e he => ?_, h⟩
      rcases List.mem_cons.1 he with rfl | he
      · exact hk
      · exact Std.TransCmp.lt_trans hk (hlt e he)
    · next hk =>
      have hk' : key = k := Std.LawfulEqCmp.eq_of_compare hk
      exact List.pairwise_cons.2 ⟨fun e he => hk' ▸ hlt e he, hrest⟩
    · next hk =>
      refine List.pairwise_cons.2 ⟨fun e he => ?_, ih hrest⟩
      rcases mem_put he with rfl | he
      · exact Std.OrientedCmp.lt_of_gt hk
      · exact hlt e he

theorem look_put [Std.TransOrd κ] [Std.LawfulEqOrd κ] (key k : κ) (value : α)
    (entries : List (κ × α)) :
    look k (put key value entries) =
      if compare k key = .eq then some value else look k entries := by
  induction entries with
  | nil => rfl
  | cons head rest ih =>
    obtain ⟨k', v⟩ := head
    unfold put
    split
    · rfl
    · next hk =>
      have hk' : key = k' := Std.LawfulEqCmp.eq_of_compare hk
      subst hk'
      by_cases h : compare k key = .eq <;> simp [look, h]
    · next hk =>
      by_cases h : compare k key = .eq
      · have : k = key := Std.LawfulEqCmp.eq_of_compare h
        subst this
        simp [look, hk, ih]
      · by_cases h' : compare k k' = .eq <;> simp [look, h, h', ih]

theorem look_eq_some_of_mem [Std.TransOrd κ] [Std.LawfulEqOrd κ] {entries : List (κ × α)}
    (h : Increasing entries) {key : κ} {value : α} (hm : (key, value) ∈ entries) :
    look key entries = some value := by
  induction entries with
  | nil => simp at hm
  | cons head rest ih =>
    obtain ⟨hlt, hrest⟩ := List.pairwise_cons.1 h
    rcases List.mem_cons.1 hm with rfl | hm
    · simp [look]
    · have hk := hlt _ hm
      have : compare key head.1 ≠ .eq := by
        intro he
        have : key = head.1 := Std.LawfulEqCmp.eq_of_compare he
        simp [← this] at hk
      simp [look, this, ih hrest hm]

theorem mem_of_look_eq_some [Std.LawfulEqOrd κ] {entries : List (κ × α)} {key : κ} {value : α}
    (h : look key entries = some value) : (key, value) ∈ entries := by
  induction entries with
  | nil => simp [look] at h
  | cons head rest ih =>
    unfold look at h
    split at h
    · next hk =>
      have hk' : key = head.1 := Std.LawfulEqCmp.eq_of_compare hk
      rw [hk', ← Option.some.inj h]
      exact List.mem_cons_self
    · exact List.mem_cons_of_mem _ (ih h)

/-! ## Maps -/

@[ext]
theorem ext {m n : SortedMap κ α} (h : m.entries = n.entries) : m = n := by
  cases m; cases n; cases h; rfl

instance [BEq κ] [BEq α] : BEq (SortedMap κ α) := ⟨fun m n => m.entries == n.entries⟩

def empty : SortedMap κ α := ⟨[], List.Pairwise.nil⟩

instance : EmptyCollection (SortedMap κ α) := ⟨empty⟩

instance : Inhabited (SortedMap κ α) := ⟨empty⟩

def get? (m : SortedMap κ α) (key : κ) : Option α := look key m.entries

def contains (m : SortedMap κ α) (key : κ) : Bool := (m.get? key).isSome

def keys (m : SortedMap κ α) : List κ := m.entries.map (·.1)

def values (m : SortedMap κ α) : List α := m.entries.map (·.2)

def size (m : SortedMap κ α) : Nat := m.entries.length

def isEmpty (m : SortedMap κ α) : Bool := m.entries.isEmpty

def erase (m : SortedMap κ α) (key : κ) : SortedMap κ α :=
  ⟨m.entries.filter fun e => compare key e.1 != .eq, List.Pairwise.filter _ m.increasing⟩

def map (f : κ → α → β) (m : SortedMap κ α) : SortedMap κ β :=
  ⟨m.entries.map fun e => (e.1, f e.1 e.2), by
    simpa [Increasing, List.pairwise_map] using m.increasing⟩

section Lawful

variable [Std.TransOrd κ] [Std.LawfulEqOrd κ]

/-- Put a value under a key; an earlier value of that key gives way. -/
def insert (m : SortedMap κ α) (key : κ) (value : α) : SortedMap κ α :=
  ⟨put key value m.entries, Increasing.put m.increasing⟩

/-- The map of a list of pairs: of two pairs with one key the later counts. -/
def ofList (pairs : List (κ × α)) : SortedMap κ α :=
  pairs.foldl (fun m e => m.insert e.1 e.2) empty

theorem get?_insert (m : SortedMap κ α) (key k : κ) (value : α) :
    (m.insert key value).get? k = if compare k key = .eq then some value else m.get? k :=
  look_put key k value m.entries

theorem get?_eq_some_iff {m : SortedMap κ α} {key : κ} {value : α} :
    m.get? key = some value ↔ (key, value) ∈ m.entries :=
  ⟨mem_of_look_eq_some, look_eq_some_of_mem m.increasing⟩

/-- Maps with the same value under every key are equal. -/
theorem ext_get? {m n : SortedMap κ α} (h : ∀ key, m.get? key = n.get? key) : m = n := by
  have sub : ∀ {a b : SortedMap κ α}, (∀ key, a.get? key = b.get? key) →
      ∀ e ∈ a.entries, e ∈ b.entries := fun {a b} hab e he =>
    get?_eq_some_iff.1 ((hab e.1).symm.trans (get?_eq_some_iff.2 he))
  obtain ⟨xs, hx⟩ := m
  obtain ⟨ys, hy⟩ := n
  apply ext
  have h1 := sub h
  have h2 := sub (fun key => (h key).symm)
  clear sub h
  dsimp only at h1 h2 ⊢
  induction xs generalizing ys with
  | nil => cases ys with
    | nil => rfl
    | cons y ys => exact absurd (h2 y List.mem_cons_self) (by simp)
  | cons x xs ih => cases ys with
    | nil => exact absurd (h1 x List.mem_cons_self) (by simp)
    | cons y ys =>
      obtain ⟨hxlt, hxs⟩ := List.pairwise_cons.1 hx
      obtain ⟨hylt, hys⟩ := List.pairwise_cons.1 hy
      have irr : ∀ {e : κ × α}, compare e.1 e.1 ≠ .lt := by
        intro e he; simp at he
      have hxy : x = y := by
        rcases List.mem_cons.1 (h1 x List.mem_cons_self) with e | e
        · exact e
        · rcases List.mem_cons.1 (h2 y List.mem_cons_self) with e' | e'
          · exact e'.symm
          · exact absurd (Std.TransCmp.lt_trans (hylt x e) (hxlt y e')) irr
      subst hxy
      congr 1
      refine ih hxs ys hys (fun e he => ?_) (fun e he => ?_)
      · rcases List.mem_cons.1 (h1 e (List.mem_cons_of_mem _ he)) with rfl | h
        · exact absurd (hxlt _ he) irr
        · exact h
      · rcases List.mem_cons.1 (h2 e (List.mem_cons_of_mem _ he)) with rfl | h
        · exact absurd (hylt _ he) irr
        · exact h

end Lawful

end SortedMap

end QuilControl
