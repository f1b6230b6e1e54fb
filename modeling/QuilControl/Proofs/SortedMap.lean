import QuilControl.SortedMap

/-!
# Keys of sorted maps

The keys of a map are in increasing order, and a map made of pairs has the keys of the pairs
(`mem_keys_ofList`), so the keys of such a map list a set. When the keys of the pairs differ, none of
the values gives way (`get?_ofList_of_mem`).
-/

namespace QuilControl

namespace SortedMap

variable {κ α : Type} [Ord κ]

theorem pairwise_keys (m : SortedMap κ α) : m.keys.Pairwise fun a b => compare a b = .lt := by
  rw [keys, List.pairwise_map]
  exact m.increasing

theorem nodup_keys [Std.ReflOrd κ] (m : SortedMap κ α) : m.keys.Nodup :=
  m.pairwise_keys.imp fun {a b} hlt heq => by
    subst heq
    simp at hlt

@[simp]
theorem get?_empty (key : κ) : (empty : SortedMap κ α).get? key = none := rfl

section Lawful

variable [Std.TransOrd κ] [Std.LawfulEqOrd κ]

theorem mem_keys_iff {m : SortedMap κ α} {key : κ} : key ∈ m.keys ↔ ∃ value, m.get? key = some value := by
  simp only [keys, List.mem_map, get?_eq_some_iff]
  constructor
  · rintro ⟨e, he, rfl⟩
    exact ⟨e.2, he⟩
  · rintro ⟨value, h⟩
    exact ⟨(key, value), h, rfl⟩

theorem get?_insert_self (m : SortedMap κ α) (key : κ) (value : α) :
    (m.insert key value).get? key = some value := by
  rw [get?_insert, if_pos Std.ReflCmp.compare_self]

theorem get?_insert_of_ne (m : SortedMap κ α) {key k : κ} (h : k ≠ key) (value : α) :
    (m.insert key value).get? k = m.get? k := by
  rw [get?_insert, if_neg fun he => h (Std.LawfulEqCmp.eq_of_compare he)]

/-- A map with one value put in is known from that value and the values of the other keys. -/
theorem eq_insert_iff {m n : SortedMap κ α} {key : κ} {value : α} :
    n = m.insert key value ↔ n.get? key = some value ∧ ∀ k, k ≠ key → n.get? k = m.get? k := by
  constructor
  · rintro rfl
    exact ⟨get?_insert_self m key value, fun k hk => get?_insert_of_ne m hk value⟩
  · rintro ⟨hkey, hothers⟩
    refine ext_get? fun k => ?_
    by_cases hk : k = key
    · rw [hk, hkey, get?_insert_self]
    · rw [hothers k hk, get?_insert_of_ne m hk]

theorem mem_keys_insert {m : SortedMap κ α} {key k : κ} {value : α} :
    k ∈ (m.insert key value).keys ↔ k = key ∨ k ∈ m.keys := by
  by_cases h : k = key
  · subst h
    simp [mem_keys_iff, get?_insert_self]
  · simp [mem_keys_iff, get?_insert_of_ne m h, h]

/-- A map made of pairs has their keys. -/
theorem mem_keys_ofList {pairs : List (κ × α)} {key : κ} :
    key ∈ (ofList pairs).keys ↔ key ∈ pairs.map (·.1) := by
  have hfold (m : SortedMap κ α) :
      key ∈ (pairs.foldl (fun m e => m.insert e.1 e.2) m).keys ↔ key ∈ m.keys ∨ key ∈ pairs.map (·.1) := by
    induction pairs generalizing m with
    | nil => simp
    | cons e rest ih =>
      rw [List.foldl_cons, ih, mem_keys_insert, List.map_cons, List.mem_cons]
      constructor
      · rintro ((h | h) | h)
        · exact Or.inr (Or.inl h)
        · exact Or.inl h
        · exact Or.inr (Or.inr h)
      · rintro (h | h | h)
        · exact Or.inl (Or.inr h)
        · exact Or.inl (Or.inl h)
        · exact Or.inr h
  rw [ofList, hfold]
  simp [keys, empty]

theorem get?_foldl_insert_of_notMem {pairs : List (κ × α)} {key : κ} (h : key ∉ pairs.map (·.1))
    (m : SortedMap κ α) : (pairs.foldl (fun m e => m.insert e.1 e.2) m).get? key = m.get? key := by
  induction pairs generalizing m with
  | nil => rfl
  | cons e rest ih =>
    rw [List.map_cons, List.mem_cons, not_or] at h
    rw [List.foldl_cons, ih h.2, get?_insert_of_ne m h.1]

/-- A map made of pairs with different keys has them all. -/
theorem get?_ofList_of_mem {pairs : List (κ × α)} (h : (pairs.map (·.1)).Nodup) {key : κ} {value : α}
    (hmem : (key, value) ∈ pairs) : (ofList pairs).get? key = some value := by
  obtain ⟨before, after, rfl⟩ := List.append_of_mem hmem
  have hkey : key ∉ after.map (·.1) := by
    rw [List.map_append, List.map_cons, List.nodup_append, List.nodup_cons] at h
    exact h.2.1.1
  rw [ofList, List.foldl_append, List.foldl_cons, get?_foldl_insert_of_notMem hkey, get?_insert_self]

theorem get?_ofList_eq_some_iff {pairs : List (κ × α)} (h : (pairs.map (·.1)).Nodup) {key : κ} {value : α} :
    (ofList pairs).get? key = some value ↔ (key, value) ∈ pairs := by
  refine ⟨fun hget => ?_, get?_ofList_of_mem h⟩
  obtain ⟨e, he, rfl⟩ := List.mem_map.1 (mem_keys_ofList.1 (mem_keys_iff.2 ⟨value, hget⟩))
  rw [get?_ofList_of_mem h he] at hget
  cases hget
  exact he

/-- A map made of its entries is itself. -/
theorem ofList_eq {pairs : List (κ × α)} (h : Increasing pairs) : ofList pairs = ⟨pairs, h⟩ := by
  have hfold (m : SortedMap κ α) (key : κ) :
      (pairs.foldl (fun m e => m.insert e.1 e.2) m).get? key = (look key pairs).or (m.get? key) := by
    induction pairs generalizing m with
    | nil => rfl
    | cons e rest ih =>
      obtain ⟨hlt, hrest⟩ := List.pairwise_cons.1 h
      rw [List.foldl_cons, ih hrest, look]
      by_cases hkey : key = e.1
      · subst hkey
        cases hlook : look e.1 rest with
        | none => simp [get?_insert_self]
        | some value => simpa using hlt _ (mem_of_look_eq_some hlook)
      · have hne : compare key e.1 ≠ .eq := fun heq => hkey (Std.LawfulEqCmp.eq_of_compare heq)
        rw [get?_insert_of_ne m hkey, if_neg hne]
  refine ext_get? fun key => ?_
  rw [ofList, hfold, get?_empty, Option.or_none]
  rfl

theorem mem_values_iff {m : SortedMap κ α} {value : α} :
    value ∈ m.values ↔ ∃ key, m.get? key = some value := by
  simp only [values, List.mem_map, get?_eq_some_iff]
  constructor
  · rintro ⟨e, he, rfl⟩
    exact ⟨e.1, he⟩
  · rintro ⟨key, h⟩
    exact ⟨(key, value), h, rfl⟩

/-- The values stand where their keys stand. -/
theorem values_getElem? {m : SortedMap κ α} {key : κ} {i : Nat} (h : m.keys[i]? = some key) :
    m.values[i]? = m.get? key := by
  rw [keys, List.getElem?_map, Option.map_eq_some_iff] at h
  obtain ⟨e, he, rfl⟩ := h
  rw [values, List.getElem?_map, he, get?_eq_some_iff.2 (List.mem_of_getElem? he)]
  rfl

/-- The entries before an entry are those of the smaller keys. -/
theorem mem_before_iff {m : SortedMap κ α} {before after : List (κ × α)} {e b : κ × α}
    (h : m.entries = before ++ e :: after) :
    b ∈ before ↔ m.get? b.1 = some b.2 ∧ compare b.1 e.1 = .lt := by
  have hincreasing := m.increasing
  rw [h, Increasing, List.pairwise_append, List.pairwise_cons] at hincreasing
  obtain ⟨-, ⟨hafter, -⟩, hbefore⟩ := hincreasing
  rw [get?_eq_some_iff, h, List.mem_append, List.mem_cons]
  constructor
  · intro hb
    exact ⟨Or.inl hb, hbefore b hb e List.mem_cons_self⟩
  · rintro ⟨hb | rfl | hb, hlt⟩
    · exact hb
    · simp at hlt
    · have hgt := Std.OrientedCmp.gt_of_lt (hafter b hb)
      rw [hlt] at hgt
      cases hgt

end Lawful

theorem length_values (m : SortedMap κ α) : m.values.length = m.keys.length := by
  rw [values, keys, List.length_map, List.length_map]

end SortedMap

end QuilControl
