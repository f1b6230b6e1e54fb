import QuilControl.Proofs.Readout.Recording

/-!
# Registers in any order

The registers of a simulator come without an order, and are converted one after the other up to the first
whose rows differ in length. The matrices that come out are the same in every order
(`RegisterMap.ofRegisters_of_perm`), but which register a failure names is decided by the order: the first
one that is jagged. So the order makes no difference just when at most one register is
(`RegisterMap.ofRegisters_orders_iff`).
-/

namespace QuilControl

/-! ## Jagged rows -/

/-- Lists form no grid just when they have no common length. -/
theorem Grid.ofRows?_eq_none_iff {α : Type} {lists : List (List α)} :
    ofRows? lists = none ↔ ¬ ∃ n, ∀ l ∈ lists, l.length = n := by
  have hwidth : (∃ n, ∀ l ∈ lists, l.length = n) ↔ ∀ l ∈ lists, l.length = width lists := by
    refine ⟨?_, fun h => ⟨_, h⟩⟩
    rintro ⟨n, h⟩
    cases lists with
    | nil => exact List.forall_mem_nil _
    | cons first rest =>
      rw [width, h first List.mem_cons_self]
      exact h
  rw [hwidth, ofRows?]
  split <;> simp_all

theorem stackRows_eq_error_iff {α β : Type} {register : String} {convert : α → β} {rows : List (List α)}
    {e : AssemblyError} :
    stackRows register convert rows = .error e ↔ (¬ ∃ n, ∀ row ∈ rows, row.length = n) ∧ e = .jagged register := by
  have hnone : Grid.ofRows? (rows.map (·.map convert)) = none ↔ ¬ ∃ n, ∀ row ∈ rows, row.length = n := by
    rw [Grid.ofRows?_eq_none_iff]
    simp only [List.forall_mem_map, List.length_map]
  rw [← hnone, stackRows]
  cases Grid.ofRows? (rows.map (·.map convert)) <;> simp [eq_comm]

namespace RegisterData

def IsJagged (data : RegisterData) : Prop := ¬ ∃ n, data.HasWidth n

theorem toMatrix_eq_error_iff {data : RegisterData} {register : String} {e : AssemblyError} :
    data.toMatrix register = .error e ↔ data.IsJagged ∧ e = .jagged register := by
  have map_eq_error {γ δ : Type} {x : Except AssemblyError γ} {f : γ → δ} :
      x.map f = .error e ↔ x = .error e := by
    cases x <;> simp [Except.map]
  cases data with
  | bytes rows => rw [toMatrix, map_eq_error, stackRows_eq_error_iff]; rfl
  | words rows => rw [toMatrix, map_eq_error, stackRows_eq_error_iff]; rfl
  | reals rows => rw [toMatrix, map_eq_error, stackRows_eq_error_iff]; rfl
  | complexes rows => rw [toMatrix, map_eq_error, stackRows_eq_error_iff]; rfl

end RegisterData

/-! ## Orders -/

/-- The fault of a jagged register names it. -/
def JaggedFault (a : String × RegisterData) (e : AssemblyError) : Prop := a.2.IsJagged ∧ e = .jagged a.1

namespace RegisterMap

variable {first second : List (String × RegisterData)}

/-- Conversion fails with the first jagged register of the order. -/
theorem ofRegisters_eq_error_iff {e : AssemblyError} :
    ofRegisters first = .error e ↔ FirstFault JaggedFault first e := by
  have hassemble : ofRegisters first = .error e ↔
      assemble (fun name (data : RegisterData) => data.toMatrix name) first = .error e := by
    unfold ofRegisters
    cases assemble (fun name (data : RegisterData) => data.toMatrix name) first <;> simp [Except.map]
  rw [hassemble, assemble_eq_error_iff]
  exact firstFault_congr (fun a _ e' => RegisterData.toMatrix_eq_error_iff) e

/-- Registers of different names that are converted in one order are converted to the same in any other. -/
theorem ofRegisters_of_perm (hnodup : (first.map (·.1)).Nodup) (h : first.Perm second) {registers : RegisterMap}
    (hfirst : ofRegisters first = .ok registers) : ofRegisters second = .ok registers := by
  obtain ⟨results, hresults, rfl⟩ := exists_of_map_eq_ok hfirst
  have hmatrices := get?_of_assemble hnodup hresults
  have hconverted : ∀ a ∈ second, ∃ M, a.2.toMatrix a.1 = .ok M := fun a ha =>
    (hmatrices a.1).1 a.2 (h.mem_iff.2 ha)
  obtain ⟨m, hm, hget⟩ := exists_ofRegisters ((h.map _).nodup_iff.1 hnodup) hconverted
  rw [hm]
  refine congrArg Except.ok (SortedMap.ext_get? fun name => Option.ext fun M => ?_)
  rw [hget, (hmatrices name).2 M]
  simp only [h.mem_iff]

/-- Any register can be the first. -/
theorem exists_order (m : SortedMap String RegisterData) {a : String × RegisterData} (ha : a ∈ m.entries) :
    ∃ rest, (a :: rest).Perm m.entries := by
  obtain ⟨before, after, hsplit⟩ := List.append_of_mem ha
  exact ⟨before ++ after, hsplit ▸ List.perm_middle.symm⟩

/-- A jagged register that is the first is the one that is named. -/
theorem ofRegisters_cons_jagged {a : String × RegisterData} (h : a.2.IsJagged) (rest : List (String × RegisterData)) :
    ofRegisters (a :: rest) = .error (.jagged a.1) :=
  ofRegisters_eq_error_iff.2 (firstFault_cons.2 (Or.inl ⟨h, rfl⟩))

/-- **What the order of registers decides.** In every order the registers of a simulator are converted to the
same matrices, or in every order the conversion fails. A failure names the first jagged register of the
order. So all orders have one outcome exactly when no two registers are jagged. -/
theorem ofRegisters_orders_iff (m : SortedMap String RegisterData) :
    (∀ order, order.Perm m.entries →
      (∀ registers, ofRegisters order = .ok registers ↔ (ResultData.qvm m).toRegisterMap = .ok registers) ∧
      ∀ e, ofRegisters order = .error e ↔ FirstFault JaggedFault order e) ∧
    ((∀ first second, first.Perm m.entries → second.Perm m.entries → ofRegisters first = ofRegisters second) ↔
      ∀ a ∈ m.entries, ∀ b ∈ m.entries, a.2.IsJagged → b.2.IsJagged → a = b) := by
  have hnodup : (m.entries.map (·.1)).Nodup := m.nodup_keys
  have hok : ∀ order, order.Perm m.entries → ∀ registers,
      ofRegisters order = .ok registers ↔ (ResultData.qvm m).toRegisterMap = .ok registers := by
    intro order horder registers
    exact ⟨ofRegisters_of_perm ((horder.map _).nodup_iff.2 hnodup) horder,
      ofRegisters_of_perm hnodup horder.symm⟩
  refine ⟨fun order horder => ⟨hok order horder, fun e => ofRegisters_eq_error_iff⟩, ?_, ?_⟩
  · intro horders a ha b hb hjagged hjagged'
    obtain ⟨rest, hrest⟩ := exists_order m ha
    obtain ⟨rest', hrest'⟩ := exists_order m hb
    have heq := horders (a :: rest) (b :: rest') hrest hrest'
    rw [ofRegisters_cons_jagged hjagged, ofRegisters_cons_jagged hjagged'] at heq
    exact List.inj_on_of_nodup_map hnodup ha hb (AssemblyError.jagged.inj (Except.error.inj heq))
  · intro hunique first second hfirst hsecond
    cases hconverted : ofRegisters first with
    | ok registers => exact ((hok second hsecond registers).2 ((hok first hfirst registers).1 hconverted)).symm
    | error e =>
      cases hconverted' : ofRegisters second with
      | ok registers =>
        have hconverted'' := (hok first hfirst registers).2 ((hok second hsecond registers).1 hconverted')
        cases hconverted.symm.trans hconverted''
      | error e' =>
        obtain ⟨before, a, after, rfl, ⟨ha, rfl⟩, -⟩ := ofRegisters_eq_error_iff.1 hconverted
        obtain ⟨before', b, after', rfl, ⟨hb, rfl⟩, -⟩ := ofRegisters_eq_error_iff.1 hconverted'
        rw [hunique a (hfirst.subset (by simp)) b (hsecond.subset (by simp)) ha hb]

/-- With two jagged registers the first is named. -/
theorem ofRegisters_ne_of_jagged :
    let a : String × RegisterData := ("a", .words [[0, 1], [1]])
    let b : String × RegisterData := ("b", .words [[0], [0, 1]])
    [b, a].Perm [a, b] ∧ ofRegisters [a, b] = .error (.jagged "a") ∧ ofRegisters [b, a] = .error (.jagged "b") :=
  ⟨.swap .., rfl, rfl⟩

end RegisterMap

end QuilControl
