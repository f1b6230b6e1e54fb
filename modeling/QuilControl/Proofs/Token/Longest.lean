import QuilControl.Proofs.Token.Numeral
import QuilControl.Proofs.Token.Reading

/-!
# The longest match

The lexer is a list of patterns (`Matches`), of which the longest match counts. Reading decides by the first
character and looks ahead only where a pattern may go on. Whatever pattern matches at a place, the piece that
is read there is a match and goes at least as far (`Piece.read_of_matches`); where none does, a stray character
or an open string is read (`Piece.read_of_not_matches`). A token has the kind and the value of its pattern
(`Token.isWrittenAs_of_read`).
-/

namespace QuilControl

/-! ## Patterns -/

def IsDigits (cs : List Char) : Prop := cs ≠ [] ∧ ∀ d ∈ cs, d.isDigit = true

/-- A power of ten: its letter, possibly a sign, and digits. -/
inductive IsPower : List Char → Prop
  | intro {e : Char} {sign digits : List Char} (he : e = 'e' ∨ e = 'E') (hsign : sign ∈ [[], ['+'], ['-']])
    (hdigits : IsDigits digits) : IsPower (e :: sign ++ digits)

inductive IsRealLiteral : List Char → Prop
  | point {whole fraction power : List Char} (hwhole : IsDigits whole) (hfraction : ∀ d ∈ fraction, d.isDigit = true)
    (hpower : power = [] ∨ IsPower power) : IsRealLiteral (whole ++ '.' :: fraction ++ power)
  | leadingPoint {fraction power : List Char} (hfraction : IsDigits fraction) (hpower : power = [] ∨ IsPower power) :
    IsRealLiteral ('.' :: fraction ++ power)
  | power {whole power : List Char} (hwhole : IsDigits whole) (hpower : IsPower power) :
    IsRealLiteral (whole ++ power)

/-- The texts that match a pattern: blanks, comments and tokens. -/
inductive Matches : List Char → Prop
  | blanks {cs : List Char} (hne : cs ≠ []) (h : ∀ c ∈ cs, isSeparator c = true) : Matches cs
  | comment {cs : List Char} (h : '\n' ∉ cs) : Matches ('#' :: cs)
  | real {cs : List Char} (h : IsRealLiteral cs) : Matches cs
  | integer {cs : List Char} (h : IsDigits cs) : Matches cs
  | string {cs : List Char} (h : '"' ∉ cs) : Matches ('"' :: cs ++ ['"'])
  | identifier {cs : List Char} (h : isIdentifier cs = true) : Matches cs
  | mark (m : Mark) : Matches [m.char]

/-! ## Numbers -/

namespace Numeral

theorem readSign_of_mem {sign digits : List Char} (hsign : sign ∈ [[], ['+'], ['-']]) (hdigits : IsDigits digits)
    (rest : List Char) : readSign (sign ++ (digits ++ rest)) = (sign, digits ++ rest) := by
  obtain ⟨hne, hall⟩ := hdigits
  obtain ⟨d, ds, rfl⟩ := List.exists_cons_of_ne_nil hne
  simp only [List.mem_cons, List.not_mem_nil, or_false] at hsign
  obtain rfl | rfl | rfl := hsign
  · exact readSign_append_digit (hall d List.mem_cons_self) [] (ds ++ rest)
  · rfl
  · rfl

/-- A power of ten is read to its end, and on as long as there are digits. -/
theorem prefix_readPower {power : List Char} (h : IsPower power) (rest : List Char) :
    power <+: (readPower (power ++ rest)).1 := by
  obtain ⟨he, hsign, hdigits⟩ := h
  rename_i e sign digits
  have he' : (e = 'e' || e = 'E') = true := by simpa using he
  have htake : (digits ++ rest).takeWhile Char.isDigit = digits ++ rest.takeWhile Char.isDigit :=
    List.takeWhile_append_of_pos hdigits.2
  obtain ⟨d, ds, hds⟩ := List.exists_cons_of_ne_nil hdigits.1
  simp only [List.cons_append, List.append_assoc]
  rw [readPower, if_pos he']
  dsimp only
  rw [readSign_of_mem hsign hdigits]
  dsimp only
  rw [htake, hds]
  exact ⟨rest.takeWhile Char.isDigit, by simp⟩

theorem isPower_readPower (text : List Char) : (readPower text).1 = [] ∨ IsPower (readPower text).1 := by
  cases text with
  | nil => exact Or.inl rfl
  | cons c rest =>
    rw [readPower]
    split
    · next he =>
      dsimp only
      split
      · exact Or.inl rfl
      · next hne =>
        refine Or.inr (.intro (by simpa using he) ?_ ⟨hne, fun d hd => List.mem_takeWhile_imp hd⟩)
        cases rest with
        | nil => simp [readSign]
        | cons d ds =>
          rw [readSign]
          split
          · next hsign =>
            simp only [Bool.or_eq_true, decide_eq_true_eq] at hsign
            obtain rfl | rfl := hsign <;> simp
          · simp
    · exact Or.inl rfl

/-- Digits and a power of ten are read to their end. -/
theorem prefix_digits_readPower {digits power : List Char} (hdigits : ∀ d ∈ digits, d.isDigit = true)
    (hpower : power = [] ∨ IsPower power) (rest : List Char) :
    digits ++ power <+: (digits ++ power ++ rest).takeWhile Char.isDigit ++
      (readPower ((digits ++ power ++ rest).dropWhile Char.isDigit)).1 := by
  rw [List.append_assoc, List.takeWhile_append_of_pos hdigits, List.dropWhile_append_of_pos hdigits,
    List.append_assoc, List.prefix_append_right_inj]
  obtain rfl | hpower := hpower
  · exact List.nil_prefix
  · have hread := prefix_readPower hpower rest
    obtain ⟨he, -, -⟩ := hpower
    rename_i e sign digits
    have hletter : ¬ e.isDigit = true := by obtain rfl | rfl := he <;> decide
    simp only [List.cons_append] at hread ⊢
    rwa [List.takeWhile_cons_of_neg hletter, List.dropWhile_cons_of_neg hletter, List.nil_append]

/-- A literal with a point is read to its end. -/
theorem prefix_read_point {whole fraction power : List Char} (hwhole : ∀ d ∈ whole, d.isDigit = true)
    (hfraction : ∀ d ∈ fraction, d.isDigit = true) (hpower : power = [] ∨ IsPower power) (rest : List Char) :
    whole ++ '.' :: fraction ++ power <+: (read (whole ++ '.' :: fraction ++ power ++ rest)).1.text := by
  have hbehind := prefix_digits_readPower hfraction hpower rest
  have hsource : whole ++ '.' :: fraction ++ power ++ rest = whole ++ '.' :: (fraction ++ power ++ rest) := by simp
  have hliteral : whole ++ '.' :: fraction ++ power = whole ++ '.' :: (fraction ++ power) := by simp
  rw [hsource, read_point hwhole, hliteral, text, List.append_assoc, List.prefix_append_right_inj,
    List.cons_append, List.cons_prefix_cons]
  exact ⟨rfl, hbehind⟩

theorem prefix_read_of_isRealLiteral {literal : List Char} (h : IsRealLiteral literal) (rest : List Char) :
    literal <+: (read (literal ++ rest)).1.text := by
  cases h with
  | point hwhole hfraction hpower => exact prefix_read_point hwhole.2 hfraction hpower rest
  | leadingPoint hfraction hpower => exact prefix_read_point (List.forall_mem_nil _) hfraction.2 hpower rest
  | @power whole power hwhole hpower =>
    have hread := prefix_readPower hpower rest
    have hhead : ∀ c ∈ (power ++ rest).head?, c.isDigit = false ∧ c ≠ '.' := by
      obtain ⟨he, -, -⟩ := hpower
      rintro c ⟨⟩
      obtain rfl | rfl := he <;> decide
    rw [List.append_assoc, read_noPoint hwhole.2 hhead, text, List.append_nil, List.prefix_append_right_inj]
    exact hread

theorem prefix_read_of_isDigits {digits : List Char} (h : ∀ d ∈ digits, d.isDigit = true) (rest : List Char) :
    digits <+: (read (digits ++ rest)).1.text := by
  have hwhole := whole_read (digits ++ rest)
  rw [List.takeWhile_append_of_pos h] at hwhole
  exact ⟨_, by rw [text, hwhole, List.append_assoc, List.append_assoc]⟩

/-- What is read at a number is a literal: of an integer, or of a real. -/
theorem isLiteral_read {c : Char} {rest : List Char}
    (h : (c.isDigit || (c = '.' && startsWithDigit rest)) = true) :
    if (read (c :: rest)).1.isInteger then IsDigits (read (c :: rest)).1.text
    else IsRealLiteral (read (c :: rest)).1.text := by
  obtain ⟨whole, hwhole, ⟨after, hsource⟩ | ⟨after, hsource, hafter⟩⟩ := digits_cases (c :: rest)
  · have hfraction : ∀ d ∈ after.takeWhile Char.isDigit, d.isDigit = true := fun d hd => List.mem_takeWhile_imp hd
    have hpower := isPower_readPower (after.dropWhile Char.isDigit)
    rw [hsource, read_point hwhole]
    cases whole with
    | cons d ds => exact .point ⟨List.cons_ne_nil d ds, hwhole⟩ hfraction hpower
    | nil =>
      -- Nothing is in front of the point, so a digit is behind it.
      obtain ⟨rfl, rfl⟩ := List.cons.inj hsource
      cases rest with
      | nil => cases h
      | cons d ds =>
        refine .leadingPoint ⟨?_, hfraction⟩ hpower
        have hd : d.isDigit = true := h
        rw [List.takeWhile_cons_of_pos hd]
        exact List.cons_ne_nil _ _
  · have hpower := isPower_readPower after
    have hne : whole ≠ [] := by
      rintro rfl
      obtain ⟨hdigit, hpoint⟩ := hafter c (by rw [← List.nil_append after, ← hsource]; rfl)
      simp [hdigit, hpoint] at h
    rw [hsource, read_noPoint hwhole hafter]
    simp only [isInteger, text, List.append_nil, Option.isNone_none, Bool.true_and, List.isEmpty_iff]
    split
    · next hnil => rw [hnil, List.append_nil]; exact ⟨hne, hwhole⟩
    · next hsome => exact .power ⟨hne, hwhole⟩ (hpower.resolve_left hsome)

end Numeral

/-! ## Names -/

theorem prefix_readName {tail : List Char} (h : isNameTail tail = true) (rest : List Char) :
    tail <+: (readName (tail ++ rest)).1 := by
  fun_induction isNameTail tail with
  | case1 => exact List.nil_prefix
  | case2 c cs ih =>
    obtain ⟨hc, hcs⟩ := Bool.and_eq_true_iff.1 h
    rw [List.cons_append, List.cons_append, readName, if_pos hc, List.cons_prefix_cons, List.cons_prefix_cons]
    exact ⟨rfl, rfl, ih hcs⟩
  | case3 c cs _ ih =>
    obtain ⟨hc, hcs⟩ := Bool.and_eq_true_iff.1 h
    have hd : c ≠ '-' := by rintro rfl; exact absurd hc (by decide)
    rw [List.cons_append, readName_cons hd, if_pos hc, List.cons_prefix_cons]
    exact ⟨rfl, ih hcs⟩

/-! ## Pieces -/

variable {N : Type} [Scalar N]

theorem matches_read_number {c : Char} {rest : List Char}
    (h : (c.isDigit || (c = '.' && startsWithDigit rest)) = true) :
    Matches (Numeral.read (c :: rest)).1.text := by
  have hliteral := Numeral.isLiteral_read h
  split at hliteral
  · exact .integer hliteral
  · exact .real hliteral

/-- A literal of a real begins as a number does. -/
theorem IsRealLiteral.number {literal tail rest : List Char} {c : Char} (h : IsRealLiteral literal)
    (htext : literal ++ tail = c :: rest) : (c.isDigit || (c = '.' && startsWithDigit rest)) = true := by
  have of_digits {digits behind : List Char} (hdigits : IsDigits digits) (hsource : digits ++ behind = c :: rest) :
      c.isDigit = true := by
    obtain ⟨d, ds, rfl⟩ := List.exists_cons_of_ne_nil hdigits.1
    obtain ⟨rfl, -⟩ := List.cons.inj hsource
    exact hdigits.2 d List.mem_cons_self
  cases h with
  | point hwhole =>
    rw [List.append_assoc, List.append_assoc] at htext
    rw [of_digits hwhole htext]
    rfl
  | leadingPoint hfraction =>
    obtain ⟨d, ds, rfl⟩ := List.exists_cons_of_ne_nil hfraction.1
    obtain ⟨rfl, rfl⟩ := List.cons.inj htext
    have hd : d.isDigit = true := hfraction.2 d List.mem_cons_self
    simp [startsWithDigit, hd]
  | power hwhole =>
    rw [List.append_assoc] at htext
    rw [of_digits hwhole htext]
    rfl

/-- Whatever pattern matches, the piece that is read is a match, and it goes at least as far. Blanks are read
one by one. -/
theorem Piece.read_of_matches {c : Char} {rest text : List Char} (h : Matches text) (hbegins : text <+: c :: rest) :
    Matches (Piece.read (N := N) c rest).1.chars ∧
      (text <+: (Piece.read (N := N) c rest).1.chars ∨ ∀ d ∈ text, isSeparator d = true) := by
  obtain ⟨tail, htail⟩ := hbegins
  cases h with
  | blanks hne hblank =>
    obtain ⟨d, ds, rfl⟩ := List.exists_cons_of_ne_nil hne
    obtain ⟨rfl, -⟩ := List.cons.inj htail
    have hd := hblank d List.mem_cons_self
    refine ⟨?_, Or.inr hblank⟩
    rw [Piece.read, if_pos hd]
    exact .blanks (List.cons_ne_nil _ _) (List.forall_mem_singleton.2 hd)
  | @comment cs hline =>
    rw [List.cons_append] at htail
    obtain ⟨rfl, rfl⟩ := List.cons.inj htail
    have hall : ∀ d ∈ cs, decide (d ≠ '\n') = true := fun d hd => decide_eq_true fun he => hline (he ▸ hd)
    have hread : (Piece.read (N := N) '#' (cs ++ tail)).1.chars = '#' :: (cs ++ tail).takeWhile (· ≠ '\n') := rfl
    rw [hread]
    refine ⟨.comment fun hm => by simpa using List.mem_takeWhile_imp hm, Or.inl ?_⟩
    rw [List.takeWhile_append_of_pos hall, List.cons_prefix_cons]
    exact ⟨rfl, List.prefix_append _ _⟩
  | real hreal =>
    have hnumber := hreal.number htail
    rw [read_of_number hnumber, chars_ofNumeral]
    refine ⟨matches_read_number hnumber, Or.inl ?_⟩
    rw [← htail]
    exact Numeral.prefix_read_of_isRealLiteral hreal tail
  | integer hdigits =>
    have hnumber : (c.isDigit || (c = '.' && startsWithDigit rest)) = true := by
      obtain ⟨d, ds, rfl⟩ := List.exists_cons_of_ne_nil hdigits.1
      obtain ⟨rfl, -⟩ := List.cons.inj htail
      rw [hdigits.2 d List.mem_cons_self]
      rfl
    rw [read_of_number hnumber, chars_ofNumeral]
    refine ⟨matches_read_number hnumber, Or.inl ?_⟩
    rw [← htail]
    exact Numeral.prefix_read_of_isDigits hdigits.2 tail
  | @string cs hinside =>
    rw [List.cons_append, List.cons_append, List.append_assoc] at htail
    obtain ⟨rfl, rfl⟩ := List.cons.inj htail
    have hread := read_string (N := N) hinside tail
    rw [List.singleton_append, hread, chars_token]
    exact ⟨.string hinside, Or.inl List.prefix_rfl⟩
  | identifier hname =>
    cases text with
    | nil => cases hname
    | cons d ds =>
      obtain ⟨rfl, rfl⟩ := List.cons.inj htail
      obtain ⟨hstart, hds⟩ := Bool.and_eq_true_iff.1 hname
      rw [read_of_isNameStart hstart, chars_token, List.cons_prefix_cons]
      exact ⟨.identifier (readName_isIdentifier hstart _), Or.inl ⟨rfl, prefix_readName hds tail⟩⟩
  | mark m =>
    rw [List.singleton_append] at htail
    obtain ⟨rfl, rfl⟩ := List.cons.inj htail
    have hread : (Piece.read (N := N) m.char tail).1.chars = [m.char] := by cases m <;> rfl
    rw [hread]
    exact ⟨.mark m, Or.inl List.prefix_rfl⟩

/-- Where no pattern matches, a character is read that starts nothing, or a string that is not closed. -/
theorem Piece.read_of_not_matches {c : Char} {rest : List Char} (h : ∀ text, text <+: c :: rest → ¬ Matches text) :
    (Piece.read (N := N) c rest).1 = .invalid [c] ∨
      (Piece.read (N := N) c rest).1 = .invalid (c :: rest) ∧ c = '"' ∧ '"' ∉ rest := by
  have not_matches : ¬ Matches (Piece.read (N := N) c rest).1.chars :=
    h _ ⟨_, Piece.chars_read c rest⟩
  generalize hpiece : Piece.read (N := N) c rest = read at not_matches ⊢
  obtain ⟨p, tail⟩ := read
  cases Piece.reads_of_eq hpiece with
  | blank hc => exact absurd (.blanks (List.cons_ne_nil _ _) (List.forall_mem_singleton.2 hc)) not_matches
  | comment hc =>
    refine absurd ?_ not_matches
    rw [hc]
    exact .comment fun hm => by simpa using List.mem_takeWhile_imp hm
  | openString hc =>
    refine Or.inr ⟨by rw [hc], hc, fun hm => ?_⟩
    obtain ⟨inside, after, rfl, hinside⟩ := List.eq_append_cons_of_mem hm
    exact h ('"' :: inside ++ ['"']) ⟨after, by simp [hc]⟩ (.string hinside)
  | string hc ha =>
    exact absurd (.string fun hm => by simpa using List.mem_takeWhile_imp hm) not_matches
  | name hc => exact absurd (.identifier (readName_isIdentifier hc rest)) not_matches
  | int hdigit => exact absurd (matches_read_number (by rw [hdigit]; rfl)) not_matches
  | float hnumber => exact absurd (matches_read_number hnumber) not_matches
  | outOfRange hnumber => exact absurd (matches_read_number hnumber) not_matches
  | mark hm => exact absurd (hm ▸ .mark _) not_matches
  | stray => exact Or.inl rfl

/-! ## Tokens -/

/-- The text of a token: the pattern of its kind, with the value that the token has. -/
def Token.IsWrittenAs (cs : List Char) : Token N → Prop
  | float value => IsRealLiteral cs ∧ value = (Numeral.read cs).1.value ∧ Scalar.isFinite value = true
  | int value => IsDigits cs ∧ value.toNat = Numeral.digitsValue cs
  | string text => cs = '"' :: text.toList ++ ['"'] ∧ '"' ∉ text.toList
  | identifier name => cs = name.toList ∧ isIdentifier cs = true
  | mark m => cs = [m.char]

theorem Numeral.text_of_isInteger {n : Numeral} (h : n.isInteger = true) : n.text = n.whole := by
  obtain ⟨whole, fraction, power⟩ := n
  simp only [isInteger, Bool.and_eq_true, Option.isNone_iff_eq_none, List.isEmpty_iff] at h
  obtain ⟨rfl, rfl⟩ := h
  simp [text]

theorem Token.isWrittenAs_of_ofNumeral {c : Char} {rest cs : List Char} {t : Token N}
    (hnumber : (c.isDigit || (c = '.' && startsWithDigit rest)) = true)
    (h : Piece.ofNumeral (Numeral.read (c :: rest)).1 = .token cs t) : t.IsWrittenAs cs := by
  have hliteral := Numeral.isLiteral_read hnumber
  have hread := Numeral.read_text (c :: rest)
  generalize (Numeral.read (c :: rest)).1 = n at h hliteral hread
  unfold Piece.ofNumeral at h
  split at h
  · next hinteger =>
    rw [if_pos hinteger] at hliteral
    dsimp only at h
    split at h
    · next hsize =>
      cases h
      refine ⟨hliteral, ?_⟩
      rw [Numeral.text_of_isInteger hinteger]
      exact UInt64.toNat_ofNat_of_lt' hsize
    · cases h
  · next hreal =>
    rw [if_neg hreal] at hliteral
    dsimp only at h
    split at h
    · next hfinite =>
      cases h
      exact ⟨hliteral, by rw [hread], hfinite⟩
    · cases h

/-- A token is one of the pattern that its text matches. -/
theorem Token.isWrittenAs_of_read {c : Char} {rest cs tail : List Char} {t : Token N}
    (h : Piece.read c rest = (.token cs t, tail)) : t.IsWrittenAs cs := by
  have of_number (hnumber : (c.isDigit || (c = '.' && startsWithDigit rest)) = true) : t.IsWrittenAs cs := by
    rw [read_of_number hnumber] at h
    exact isWrittenAs_of_ofNumeral hnumber (Prod.mk.inj h).1
  cases Piece.reads_of_eq h with
  | string hc ha =>
    rw [IsWrittenAs, String.toList_ofList]
    exact ⟨rfl, fun hm => by simpa using List.mem_takeWhile_imp hm⟩
  | name hc =>
    rw [IsWrittenAs, String.toList_ofList]
    exact ⟨rfl, readName_isIdentifier hc rest⟩
  | int hdigit => exact of_number (by rw [hdigit]; rfl)
  | float hnumber => exact of_number hnumber
  | mark hm => rw [IsWrittenAs, hm]

end QuilControl
