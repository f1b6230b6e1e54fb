import QuilControl.Proofs.Token.Spelling

/-!
# Number literals read as themselves

A text at a number is digits with a point or with something else behind them (`Numeral.digits_cases`), and in
either case the parts of the literal can be given (`Numeral.read_point`, `Numeral.read_noPoint`). So the text of
a literal, without what followed it, is read as the same literal (`Numeral.read_text`).
-/

namespace QuilControl

namespace Numeral

theorem readSign_append_digit {d : Char} (hd : d.isDigit = true) (text ds : List Char) :
    readSign ((readSign text).1 ++ d :: ds) = ((readSign text).1, d :: ds) := by
  have hsign : ¬ (d = '+' || d = '-') = true := by
    simp only [Bool.or_eq_true, decide_eq_true_eq]
    rintro (rfl | rfl) <;> exact absurd hd (by decide)
  cases text with
  | nil => simp only [readSign, List.nil_append, if_neg hsign]
  | cons c rest =>
    by_cases hc : (c = '+' || c = '-') = true
    · simp only [readSign, if_pos hc, List.singleton_append]
    · simp only [readSign, if_neg hc, List.nil_append, if_neg hsign]

theorem head_readPower (text : List Char) : ∀ c ∈ (readPower text).1.head?, c.isDigit = false ∧ c ≠ '.' := by
  intro d hd
  cases text with
  | nil => cases hd
  | cons c rest =>
    rw [readPower] at hd
    split at hd
    · next he =>
      dsimp only at hd
      split at hd
      · cases hd
      · obtain rfl : c = d := by simpa using hd
        simp only [Bool.or_eq_true, decide_eq_true_eq] at he
        rcases he with rfl | rfl <;> decide
    · cases hd

/-- A power of ten reads as itself. -/
theorem readPower_power (text : List Char) : readPower (readPower text).1 = ((readPower text).1, []) := by
  cases text with
  | nil => rfl
  | cons c rest =>
    rw [readPower]
    by_cases he : (c = 'e' || c = 'E') = true
    · rw [if_pos he]
      dsimp only
      cases hdigits : (readSign rest).2.takeWhile Char.isDigit with
      | nil => rfl
      | cons d ds =>
        have hall : ∀ x ∈ d :: ds, x.isDigit = true := fun x hx =>
          List.mem_takeWhile_imp (hdigits ▸ hx)
        have hsign := readSign_append_digit (hall d List.mem_cons_self) rest ds
        have htake := List.takeWhile_eq_self_iff.2 hall
        have hdrop := List.dropWhile_eq_nil_iff.2 hall
        dsimp only
        rw [List.cons_append, readPower, if_pos he]
        dsimp only
        simp only [hsign, htake, hdrop, List.cons_append]
    · rw [if_neg he]
      rfl

/-- Digits end where a power of ten begins. -/
theorem span_isDigit_readPower {digits : List Char} (h : ∀ d ∈ digits, d.isDigit = true) (text : List Char) :
    (digits ++ (readPower text).1).takeWhile Char.isDigit = digits ∧
      (digits ++ (readPower text).1).dropWhile Char.isDigit = (readPower text).1 := by
  have hhead := head_readPower text
  rw [List.takeWhile_append_of_pos h, List.dropWhile_append_of_pos h]
  cases hpower : (readPower text).1 with
  | nil => simp
  | cons c cs =>
    have hc : ¬ c.isDigit = true := Bool.eq_false_iff.1 (hhead c (by rw [hpower]; rfl)).1
    simp [List.takeWhile_cons_of_neg hc, List.dropWhile_cons_of_neg hc]

theorem read_point {whole : List Char} (h : ∀ d ∈ whole, d.isDigit = true) (after : List Char) :
    read (whole ++ '.' :: after) =
      (⟨whole, some (after.takeWhile Char.isDigit), (readPower (after.dropWhile Char.isDigit)).1⟩,
        (readPower (after.dropWhile Char.isDigit)).2) := by
  have hpoint : ¬ Char.isDigit '.' = true := by decide
  rw [read, List.takeWhile_append_of_pos h, List.dropWhile_append_of_pos h,
    List.takeWhile_cons_of_neg hpoint, List.dropWhile_cons_of_neg hpoint, List.append_nil]
  rfl

theorem read_noPoint {whole after : List Char} (h : ∀ d ∈ whole, d.isDigit = true)
    (hafter : ∀ c ∈ after.head?, c.isDigit = false ∧ c ≠ '.') :
    read (whole ++ after) = (⟨whole, none, (readPower after).1⟩, (readPower after).2) := by
  rw [read, List.takeWhile_append_of_pos h, List.dropWhile_append_of_pos h]
  cases after with
  | nil => simp
  | cons c rest =>
    obtain ⟨hdigit, hpoint⟩ := hafter c rfl
    have hneg : ¬ c.isDigit = true := Bool.eq_false_iff.1 hdigit
    rw [List.takeWhile_cons_of_neg hneg, List.dropWhile_cons_of_neg hneg, List.append_nil]
    dsimp only
    split
    · next heq => exact absurd (List.cons.inj heq).1 hpoint
    · rfl

theorem whole_read (source : List Char) : (read source).1.whole = source.takeWhile Char.isDigit := by
  unfold read
  dsimp only
  split <;> rfl

/-- A text at a number: digits, then a point or something else. -/
theorem digits_cases (source : List Char) :
    ∃ whole, (∀ d ∈ whole, d.isDigit = true) ∧
      ((∃ after, source = whole ++ '.' :: after) ∨
        ∃ after, source = whole ++ after ∧ ∀ c ∈ after.head?, c.isDigit = false ∧ c ≠ '.') := by
  refine ⟨source.takeWhile Char.isDigit, fun d hd => List.mem_takeWhile_imp hd, ?_⟩
  have happend := List.takeWhile_append_dropWhile (p := Char.isDigit) (l := source)
  have hhead := List.head?_dropWhile_not Char.isDigit source
  cases hbehind : source.dropWhile Char.isDigit with
  | nil => exact Or.inr ⟨[], by rw [← hbehind, happend], nofun⟩
  | cons c rest =>
    rw [hbehind] at hhead happend
    by_cases hc : c = '.'
    · exact Or.inl ⟨rest, by rw [← hc, happend]⟩
    · refine Or.inr ⟨c :: rest, happend.symm, fun d hd => ?_⟩
      obtain rfl : c = d := by simpa using hd
      exact ⟨by simpa using hhead, hc⟩

/-- Digits with a power of ten are a literal. -/
theorem read_text_of_digits {n : Numeral} (hwhole : ∀ d ∈ n.whole, d.isDigit = true)
    (hfraction : ∀ ds ∈ n.fraction, ∀ d ∈ ds, d.isDigit = true) (hpower : readPower n.power = (n.power, [])) :
    read n.text = (n, []) := by
  obtain ⟨whole, fraction, power⟩ := n
  have hhead := head_readPower power
  rw [hpower] at hhead
  cases fraction with
  | some ds =>
    obtain ⟨htake, hdrop⟩ := span_isDigit_readPower (hfraction ds rfl) power
    rw [hpower] at htake hdrop
    simp only [text, List.append_assoc, List.cons_append, read_point hwhole, htake, hdrop, hpower]
  | none => simp only [text, List.append_nil, read_noPoint hwhole hhead, hpower]

/-- A number literal reads as itself. -/
theorem read_text (source : List Char) : read (read source).1.text = ((read source).1, []) := by
  obtain ⟨whole, hwhole, ⟨after, rfl⟩ | ⟨after, rfl, hafter⟩⟩ := digits_cases source
  · rw [read_point hwhole]
    refine read_text_of_digits hwhole ?_ (readPower_power _)
    rintro _ ⟨⟩ d hd
    exact List.mem_takeWhile_imp hd
  · rw [read_noPoint hwhole hafter]
    exact read_text_of_digits hwhole nofun (readPower_power _)

/-- A literal begins with the first character of its text. -/
theorem exists_text_eq {c : Char} {rest : List Char}
    (h : (c.isDigit || (c = '.' && startsWithDigit rest)) = true) :
    ∃ cs, (read (c :: rest)).1.text = c :: cs ∧ (c.isDigit || (c = '.' && startsWithDigit cs)) = true := by
  by_cases hc : c.isDigit = true
  · have happend := text_read (c :: rest)
    cases htext : (read (c :: rest)).1.text with
    | nil => exact absurd htext (Piece.numeral_whole_or_point h)
    | cons d cs =>
      rw [htext] at happend
      obtain ⟨rfl, -⟩ := List.cons.inj happend
      exact ⟨cs, rfl, by rw [hc]; rfl⟩
  · have hpoint : c = '.' ∧ startsWithDigit rest = true := by simpa [hc] using h
    obtain ⟨rfl, hrest⟩ := hpoint
    cases rest with
    | nil => cases hrest
    | cons d rest =>
      have hd : d.isDigit = true := hrest
      have hread := read_point (List.forall_mem_nil _) (d :: rest)
      rw [List.nil_append] at hread
      simp only [hread, text, List.nil_append, List.takeWhile_cons_of_pos hd]
      exact ⟨_, rfl, by simpa [startsWithDigit] using hd⟩

end Numeral

end QuilControl
