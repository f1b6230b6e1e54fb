import QuilControl.MemoryReference
import QuilControl.Proofs.Expr.Grammar
import QuilControl.Proofs.Scalar.Whole
import QuilControl.Proofs.Token.Reading

/-!
# Slots as texts

Slots are read in two ways: the keys of readout mappings character by character, and the slots of an
expression as tokens. Both read a name with an index in brackets (`MemoryReference.WrittenAs`). They differ
in one kind of name: an identifier has a name character behind each hyphen, and the strict reader takes two
hyphens in a row (`isIdentifier_iff`). So a slot that the strict reader reads is that slot in an expression
exactly when its name has no two hyphens in a row (`Expr.ofText_eq_address_iff`).
-/

namespace QuilControl

variable {N : Type} [Scalar N]

namespace MemoryReference

/-- The text is the name, and the index in digits between brackets, possibly with zeros in front. -/
def WrittenAs (slot : MemoryReference) (text : List Char) : Prop :=
  ∃ digits, text = slot.name.toList ++ '[' :: digits ++ [']'] ∧ digits ≠ [] ∧
    (∀ d ∈ digits, d.isDigit = true) ∧ Numeral.digitsValue digits = slot.index.toNat

theorem writtenAs_chars (slot : MemoryReference) : slot.WrittenAs slot.chars :=
  ⟨_, rfl, Nat.toDigits_ne_nil, isDigit_of_mem_toDigits, digitsValue_toDigits _⟩

/-! ## Names -/

/-- An identifier is the name of a region without two hyphens in a row. -/
theorem isIdentifier_iff {name : List Char} :
    isIdentifier name = true ↔ isRegionName name = true ∧ ¬ ['-', '-'] <:+: name := by
  cases name with
  | nil => simp [isIdentifier, isRegionName]
  | cons c cs =>
    by_cases hc : isNameStart c = true
    · have hne : c ≠ '-' := by
        rintro rfl
        exact absurd hc (by decide)
      simp only [isIdentifier, isRegionName, hc, Bool.true_and, isNameTail_iff, infix_hyphens_cons hne,
        Bool.and_eq_true, List.all_eq_true, Bool.or_eq_true, decide_eq_true_eq, bne_iff_ne,
        getLast?_cons_ne_hyphen hne, and_assoc]
    · simp [isIdentifier, isRegionName, hc]

/-! ## The strict reader -/

theorem bracket_notMem_of_isRegionName {name : List Char} (h : isRegionName name = true) : '[' ∉ name := by
  cases name with
  | nil => cases h
  | cons c cs =>
    simp only [isRegionName, Bool.and_eq_true, List.all_eq_true, Bool.or_eq_true, decide_eq_true_eq] at h
    intro hmem
    rcases List.mem_cons.1 hmem with rfl | hmem
    · exact absurd h.1.1 (by decide)
    · exact absurd (h.1.2 '[' hmem) (by decide)

theorem readIndex?_of_digits {digits : List Char} {index : UInt64} (hne : digits ≠ [])
    (hdigits : ∀ d ∈ digits, d.isDigit = true) (hvalue : Numeral.digitsValue digits = index.toNat) :
    readIndex? digits = some index := by
  have hform : (digits.isEmpty || !digits.all Char.isDigit) = false := by
    simpa [hne] using hdigits
  rw [readIndex?, if_neg (by simp [hform]), hvalue, if_pos index.toNat_lt, UInt64.ofNat_toNat]

/-- A slot is read from the texts it is written as, if its name is one of a region. -/
theorem ofChars?_of_writtenAs {text : List Char} {slot : MemoryReference}
    (hname : isRegionName slot.name.toList = true) (h : slot.WrittenAs text) :
    ofChars? text = some slot := by
  obtain ⟨digits, rfl, hne, hdigits, hvalue⟩ := h
  have hall : ∀ c ∈ slot.name.toList, decide (c ≠ '[') = true := by
    intro c hc
    exact decide_eq_true fun he => bracket_notMem_of_isRegionName hname (he ▸ hc)
  have hform : (decide ((digits ++ [']']).getLast? = some ']') && isRegionName slot.name.toList) = true := by
    simp [hname]
  rw [List.append_assoc, List.cons_append]
  unfold ofChars?
  rw [List.takeWhile_append_of_pos hall, List.dropWhile_append_of_pos hall]
  simp only [ne_eq, not_true, decide_false, Bool.false_eq_true, not_false_iff, List.takeWhile_cons_of_neg,
    List.dropWhile_cons_of_neg, List.append_nil, hform, if_true, List.dropLast_concat,
    readIndex?_of_digits hne hdigits hvalue, Option.map_some, String.ofList_toList]

theorem readIndex?_eq_some {digits : List Char} {index : UInt64} (h : readIndex? digits = some index) :
    digits ≠ [] ∧ (∀ d ∈ digits, d.isDigit = true) ∧ Numeral.digitsValue digits = index.toNat := by
  unfold readIndex? at h
  split at h
  · cases h
  · next hdigits =>
    simp only [Bool.or_eq_true, List.isEmpty_iff, Bool.not_eq_true', not_or, Bool.not_eq_false,
      List.all_eq_true] at hdigits
    dsimp only at h
    split at h
    · next hlt =>
      cases h
      exact ⟨hdigits.1, hdigits.2, (UInt64.toNat_ofNat_of_lt' hlt).symm⟩
    · cases h

/-- What the strict reader reads is a name of a region, with its index in brackets. -/
theorem writtenAs_of_ofChars? {text : List Char} {slot : MemoryReference} (h : ofChars? text = some slot) :
    isRegionName slot.name.toList = true ∧ slot.WrittenAs text := by
  have hsplit := List.takeWhile_append_dropWhile (p := fun c : Char => decide (c ≠ '[')) (l := text)
  have hbracket := List.head?_dropWhile_not (fun c : Char => decide (c ≠ '[')) text
  unfold ofChars? at h
  dsimp only at h
  split at h
  · cases h
  · next bracket rest hrest =>
    rw [hrest] at hsplit hbracket
    split at h
    · next hform =>
      obtain ⟨hlast, hname⟩ := Bool.and_eq_true_iff.1 hform
      obtain ⟨index, hindex, rfl⟩ := Option.map_eq_some_iff.1 h
      obtain ⟨hne, hdigits, hvalue⟩ := readIndex?_eq_some hindex
      have hclose : rest = rest.dropLast ++ [']'] := by
        obtain ⟨digits, rfl⟩ := List.getLast?_eq_some_iff.1 (of_decide_eq_true hlast)
        rw [List.dropLast_concat]
      obtain rfl : bracket = '[' := by simpa using hbracket
      refine ⟨by rwa [String.toList_ofList], rest.dropLast, ?_, hne, hdigits, hvalue⟩
      rw [String.toList_ofList, List.append_assoc, List.cons_append, ← hclose, hsplit]
    · cases h

/-! ## Slots as tokens -/

/-- A text that is a slot spells its four tokens, when the name is an identifier. -/
theorem WrittenAs.spells {slot : MemoryReference} {text : List Char} (h : slot.WrittenAs text)
    (hname : isIdentifier slot.name.toList = true) :
    Spells (N := N) anyText text
      [.identifier slot.name, .mark .leftBracket, .int slot.index, .mark .rightBracket] := by
  obtain ⟨digits, rfl, hne, hdigits, hvalue⟩ := h
  have hindex := spells_digits (N := N) hne hdigits (hvalue ▸ slot.index.toNat_lt)
  rw [hvalue, UInt64.ofNat_toNat] at hindex
  have hend := hindex.append (spells_mark .rightBracket) fun rest _ => breaksNumber_cons.2 (by decide)
  have hall := (spells_identifier hname).append ((spells_mark .leftBracket).append hend fun _ _ => trivial)
    fun rest _ => breaksName_cons.2 (by decide)
  rw [List.append_assoc]
  exact hall

end MemoryReference

namespace Expr

/-- A text that is a slot reads as the slot, when the name is an identifier. -/
theorem ofText_eq_address {slot : MemoryReference} {text : String} (h : slot.WrittenAs text.toList)
    (hname : IsName slot.name) : ofText (N := N) text = .ok (.address slot) := by
  have htokens := (h.spells (N := N) hname).statementTokens trivial 1
  have hderives : Derives (N := N) .sum _ _ [] :=
    .product (.power (.unary (.atom (.slot slot.name slot.index []))))
  unfold ofText
  rw [htokens]
  simp only [ofTokens_of_derives hderives]

/-- The names of an expression that is read are identifiers, whatever they are followed by. -/
theorem isName_of_ofText {text : String} {e : Expr N} (h : ofText text = .ok e) :
    ∀ slot ∈ e.references, IsName slot.name := by
  unfold ofText at h
  split at h
  · cases h
  · next tokens htokens =>
    obtain ⟨rfl, -⟩ := statementTokens_eq_ok htokens
    split at h
    · cases h
    · next hread =>
      cases h
      have hmade : e.MadeOf (fun slot => IsName slot.name) fun _ => True := by
        refine (derives_of_ofTokens hread).madeOf (fun name hname _ => ?_) fun _ _ _ _ => ⟨trivial, trivial⟩
        obtain ⟨piece, hpiece, htoken⟩ := List.mem_filterMap.1 hname
        cases piece with
        | token cs t =>
          cases htoken
          exact isName_of_mem_pieces hpiece
        | blank | comment | invalid => cases htoken
      exact (madeOf_iff.1 hmade).1

/-- **The two readers of slots.** A text that the strict reader reads is that slot as an expression, and so is
the text the slot is written as, exactly when the name has no two hyphens in a row. -/
theorem ofText_eq_address_iff {text : String} {slot : MemoryReference} (h : MemoryReference.ofText text = .ok slot) :
    (ofText (N := N) text = .ok (.address slot) ↔ ¬ ['-', '-'] <:+: slot.name.toList) ∧
      (ofText (N := N) slot.text = .ok (.address slot) ↔ ¬ ['-', '-'] <:+: slot.name.toList) := by
  have hread : MemoryReference.ofChars? text.toList = some slot := by
    unfold MemoryReference.ofText at h
    split at h
    · cases h; assumption
    · cases h
  obtain ⟨hregion, hwritten⟩ := MemoryReference.writtenAs_of_ofChars? hread
  have hagree {s : String} (hs : slot.WrittenAs s.toList) :
      ofText (N := N) s = .ok (.address slot) ↔ ¬ ['-', '-'] <:+: slot.name.toList := by
    constructor
    · intro hslot
      have hname := isName_of_ofText hslot slot (List.mem_singleton.2 rfl)
      exact (MemoryReference.isIdentifier_iff.1 hname).2
    · intro hhyphens
      exact ofText_eq_address hs (MemoryReference.isIdentifier_iff.2 ⟨hregion, hhyphens⟩)
  refine ⟨hagree hwritten, hagree ?_⟩
  rw [MemoryReference.text, String.toList_ofList]
  exact slot.writtenAs_chars

/-- A name with a hyphen, and an index with zeros in front. -/
theorem ofText_eq_address_iff_hyphen :
    MemoryReference.ofText "ro-x[007]" = .ok ⟨"ro-x", 7⟩ ∧
      ofText (N := Whole) "ro-x[007]" = .ok (.address ⟨"ro-x", 7⟩) ∧
      ofText (N := Whole) "ro-x[7]" = .ok (.address ⟨"ro-x", 7⟩) := by
  have h : MemoryReference.ofText "ro-x[007]" = .ok ⟨"ro-x", 7⟩ := by rfl
  have hboth := ofText_eq_address_iff (N := Whole) h
  exact ⟨h, hboth.1.2 (by decide), hboth.2.2 (by decide)⟩

/-- With two hyphens in a row the strict reader reads a slot, and the text is not that slot as an expression. -/
theorem ofText_ne_address_hyphens :
    MemoryReference.ofText "a--b[0]" = .ok ⟨"a--b", 0⟩ ∧
      ofText (N := Whole) "a--b[0]" ≠ .ok (.address ⟨"a--b", 0⟩) := by
  refine ⟨by rfl, fun h => ?_⟩
  have hname := isName_of_ofText h ⟨"a--b", 0⟩ (List.mem_singleton.2 rfl)
  exact absurd hname (by decide)

end Expr

end QuilControl
