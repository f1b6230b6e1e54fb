import QuilControl.Proofs.Token.Numeral

/-!
# The spans of tokens

The entries of a text lie where its pieces lie (`exists_piece_of_mem_locate`), one behind the other. What is
between them are blanks and comments. A token is read alike without the text around it
(`pieces_of_read_token`), so its span is all that is needed to read it again.
-/

namespace QuilControl

variable {N : Type}

/-! ## Bytes -/

/-- A text lies in another one from byte `start` to byte `stop`. -/
def IsSlice (text : List Char) (start stop : Nat) (slice : List Char) : Prop :=
  ∃ before after, text = before ++ slice ++ after ∧ Text.utf8Length before = start ∧
    Text.utf8Length (before ++ slice) = stop

theorem IsSlice.stop_eq {text slice : List Char} {start stop : Nat} (h : IsSlice text start stop slice) :
    stop = start + Text.utf8Length slice := by
  obtain ⟨before, after, -, rfl, rfl⟩ := h
  exact Text.utf8Length_append _ _

/-- A slice of a slice lies in the whole text. -/
theorem IsSlice.trans {text slice inner : List Char} {start stop a b : Nat} (h : IsSlice text start stop slice)
    (hi : IsSlice slice a b inner) : IsSlice text (start + a) (start + b) inner := by
  obtain ⟨before, after, rfl, rfl, -⟩ := h
  obtain ⟨before', after', rfl, rfl, rfl⟩ := hi
  exact ⟨before ++ before', after' ++ after, by simp only [List.append_assoc], Text.utf8Length_append _ _,
    by rw [List.append_assoc, Text.utf8Length_append]⟩

theorem utf8Length_pos {text : List Char} (h : text ≠ []) : 0 < Text.utf8Length text := by
  obtain ⟨c, rest, rfl⟩ := List.exists_cons_of_ne_nil h
  exact Nat.add_pos_left (Char.utf8Size_pos c) _

/-! ## Where pieces lie -/

def Piece.content? : Piece N → Option (Except (List Char) (Token N))
  | token _ t => some (.ok t)
  | invalid cs => some (.error cs)
  | _ => none

theorem mem_locate_cons {offset : Nat} {p : Piece N} {ps : List (Piece N)} {e : Entry N} :
    e ∈ locate offset (p :: ps) ↔
      (p.content? = some e.content ∧ e.start = offset ∧ e.stop = offset + Text.utf8Length p.chars) ∨
        e ∈ locate (offset + Text.utf8Length p.chars) ps := by
  obtain ⟨content, start, stop⟩ := e
  cases p with
  | blank | comment => simp [locate, Piece.content?]
  | token | invalid => simp [locate, Piece.content?, eq_comm]

/-- An entry lies where a piece lies. -/
theorem exists_piece_of_mem_locate {offset : Nat} {ps : List (Piece N)} {e : Entry N} (h : e ∈ locate offset ps) :
    ∃ before p after, ps = before ++ p :: after ∧ p.content? = some e.content ∧
      e.start = offset + Text.utf8Length (before.flatMap Piece.chars) ∧
      e.stop = e.start + Text.utf8Length p.chars := by
  induction ps generalizing offset with
  | nil => cases h
  | cons p ps ih =>
    rcases mem_locate_cons.1 h with ⟨hcontent, hstart, hstop⟩ | hrest
    · exact ⟨[], p, ps, rfl, hcontent, hstart, by rw [hstop, hstart]⟩
    · obtain ⟨before, q, after, rfl, hcontent, hstart, hstop⟩ := ih hrest
      refine ⟨p :: before, q, after, rfl, hcontent, ?_, hstop⟩
      rw [hstart, List.flatMap_cons, Text.utf8Length_append, Nat.add_assoc]

theorem locate_eq_nil {ps : List (Piece N)} (h : ∀ p ∈ ps, p.content? = none) (offset : Nat) : locate offset ps = [] :=
  List.eq_nil_iff_forall_not_mem.2 fun e he => by
    obtain ⟨before, p, after, rfl, hcontent, -, -⟩ := exists_piece_of_mem_locate he
    rw [h p (by simp)] at hcontent
    cases hcontent

theorem tokensOf_eq_nil {ps : List (Piece N)} (h : ∀ p ∈ ps, p.content? = none) : tokensOf ps = [] :=
  List.filterMap_eq_nil_iff.2 fun p hp => by
    have hcontent := h p hp
    cases p with
    | token => cases hcontent
    | blank | comment | invalid => rfl

theorem bounds_of_mem_locate {offset : Nat} {ps : List (Piece N)} {e : Entry N} (h : e ∈ locate offset ps) :
    offset ≤ e.start ∧ e.stop ≤ offset + Text.utf8Length (ps.flatMap Piece.chars) := by
  obtain ⟨before, p, after, rfl, -, hstart, hstop⟩ := exists_piece_of_mem_locate h
  simp only [List.flatMap_append, List.flatMap_cons, Text.utf8Length_append]
  omega

theorem pairwise_locate (offset : Nat) (ps : List (Piece N)) :
    (locate offset ps).Pairwise fun e f => e.stop ≤ f.start := by
  induction ps generalizing offset with
  | nil => exact List.Pairwise.nil
  | cons p ps ih =>
    have hrest := ih (offset + Text.utf8Length p.chars)
    cases p with
    | blank | comment => exact hrest
    | token | invalid => exact List.Pairwise.cons (fun e he => (bounds_of_mem_locate he).1) hrest

/-- No entry reaches into a blank or a comment. -/
theorem mem_locate_of_content?_eq_none {offset : Nat} {before after : List (Piece N)} {p : Piece N} {e : Entry N}
    (hp : p.content? = none) (h : e ∈ locate offset (before ++ p :: after)) :
    e.stop ≤ offset + Text.utf8Length (before.flatMap Piece.chars) ∨
      offset + Text.utf8Length (before.flatMap Piece.chars) + Text.utf8Length p.chars ≤ e.start := by
  rw [locate_append, List.mem_append, mem_locate_cons, hp] at h
  obtain hbefore | ⟨⟨⟩, -⟩ | hafter := h
  · exact Or.inl (bounds_of_mem_locate hbefore).2
  · exact Or.inr (bounds_of_mem_locate hafter).1

/-- A byte lies in a piece. -/
theorem exists_piece_of_lt {byte : Nat} {ps : List (Piece N)} (h : byte < Text.utf8Length (ps.flatMap Piece.chars)) :
    ∃ before p after, ps = before ++ p :: after ∧ Text.utf8Length (before.flatMap Piece.chars) ≤ byte ∧
      byte < Text.utf8Length (before.flatMap Piece.chars) + Text.utf8Length p.chars := by
  induction ps generalizing byte with
  | nil => cases h
  | cons p ps ih =>
    rw [List.flatMap_cons, Text.utf8Length_append] at h
    by_cases hp : byte < Text.utf8Length p.chars
    · exact ⟨[], p, ps, rfl, Nat.zero_le _, by simpa using hp⟩
    · obtain ⟨before, q, after, rfl, hle, hlt⟩ :=
        ih (show byte - Text.utf8Length p.chars < Text.utf8Length (ps.flatMap Piece.chars) by omega)
      refine ⟨p :: before, q, after, rfl, ?_, ?_⟩ <;>
        simp only [List.flatMap_cons, Text.utf8Length_append] <;> omega

/-! ## What pieces are -/

variable [Scalar N]

/-- A piece is read where it lies. -/
theorem read_of_pieces {text : List Char} {before after : List (Piece N)} {p : Piece N}
    (h : pieces text = before ++ p :: after) :
    ∃ c rest, Piece.read c rest = (p, after.flatMap Piece.chars) := by
  have hpieces := (pieces_of_append h).2
  cases hrest : (p :: after).flatMap Piece.chars with
  | nil => rw [hrest, pieces_nil] at hpieces; cases hpieces
  | cons c rest =>
    rw [hrest, pieces_cons] at hpieces
    obtain ⟨hp, hafter⟩ := List.cons.inj hpieces
    refine ⟨c, rest, Prod.ext hp ?_⟩
    rw [← hafter, flatMap_chars_pieces]

theorem isSlice_of_pieces {text : List Char} {before after : List (Piece N)} {p : Piece N}
    (h : pieces text = before ++ p :: after) :
    IsSlice text (Text.utf8Length (before.flatMap Piece.chars))
      (Text.utf8Length (before.flatMap Piece.chars) + Text.utf8Length p.chars) p.chars := by
  refine ⟨before.flatMap Piece.chars, after.flatMap Piece.chars, ?_, rfl, Text.utf8Length_append _ _⟩
  rw [(pieces_of_append h).1, List.flatMap_cons, List.append_assoc]

/-- A number token is read alike without what followed it. -/
theorem read_number_text {c : Char} {rest cs tail : List Char} {t : Token N}
    (hnumber : (c.isDigit || (c = '.' && startsWithDigit rest)) = true)
    (h : Piece.read c rest = (.token cs t, tail)) :
    ∃ ds, cs = c :: ds ∧ Piece.read c ds = (.token cs t, []) := by
  rw [read_of_number hnumber] at h
  obtain ⟨hpiece, -⟩ := Prod.mk.inj h
  have hcs : (Numeral.read (c :: rest)).1.text = cs := by rw [← Piece.chars_ofNumeral (N := N), hpiece]; rfl
  obtain ⟨ds, hds, hnumber'⟩ := Numeral.exists_text_eq hnumber
  refine ⟨ds, hcs ▸ hds, ?_⟩
  rw [read_of_number hnumber', ← hds, Numeral.read_text, hpiece]

/-- A token is read alike without what followed it. -/
theorem pieces_of_read_token {c : Char} {rest cs tail : List Char} {t : Token N}
    (h : Piece.read c rest = (.token cs t, tail)) : pieces cs = [.token cs t] := by
  have hread : ∃ ds, cs = c :: ds ∧ Piece.read c ds = (.token cs t, []) := by
    cases Piece.reads_of_eq h with
    | string hc ha =>
      have hinside : '"' ∉ rest.takeWhile (fun c => decide (c ≠ '"')) := fun hm => by
        simpa using List.mem_takeWhile_imp hm
      exact ⟨_, by rw [hc]; rfl, by rw [hc]; exact read_string hinside []⟩
    | name hc =>
      have hname := readName_append (isNameTail_readName rest) breaksName_nil
      rw [List.append_nil] at hname
      exact ⟨_, rfl, by rw [read_of_isNameStart hc, hname]⟩
    | int hdigit => exact read_number_text (by rw [hdigit]; rfl) h
    | float hnumber => exact read_number_text hnumber h
    | @mark m hm =>
      refine ⟨[], rfl, ?_⟩
      rw [← hm]
      cases m <;> rfl
  obtain ⟨ds, hcs, hread⟩ := hread
  rw [hcs, pieces_cons, ← hcs, hread, pieces_nil]

theorem tokenize_of_read_token {c : Char} {rest cs tail : List Char} {t : Token N}
    (h : Piece.read c rest = (.token cs t, tail)) : tokenize cs = [⟨.ok t, 0, Text.utf8Length cs⟩] := by
  rw [tokenize, pieces_of_read_token h]
  simp [locate, Piece.chars]

/-- What is between tokens: a blank, or a comment up to the end of its line. -/
theorem chars_of_content?_eq_none {c : Char} {rest tail : List Char} {p : Piece N}
    (h : Piece.read c rest = (p, tail)) (hp : p.content? = none) :
    (∃ b ∈ [' ', '\t', '\r', '\n'], p.chars = [b]) ∨
      ∃ cs, p.chars = '#' :: cs ∧ '\n' ∉ cs ∧ ∀ d ∈ tail.head?, d = '\n' := by
  cases Piece.reads_of_eq h with
  | blank hc => exact Or.inl ⟨c, by simpa [isSeparator, or_assoc] using hc, rfl⟩
  | comment hc =>
    refine Or.inr ⟨_, by rw [hc]; rfl, fun hm => by simpa using List.mem_takeWhile_imp hm, fun d hd => ?_⟩
    have hhead := List.head?_dropWhile_not (fun c : Char => decide (c ≠ '\n')) rest
    rw [Option.mem_def.1 hd] at hhead
    simpa using hhead
  | openString | string | name | int | float | outOfRange | mark | stray => cases hp

/-! ## The spans of a text -/

variable {text : List Char}

theorem span_of_mem_tokenize {e : Entry N} (he : e ∈ tokenize text) :
    e.start < e.stop ∧ ∃ slice, IsSlice text e.start e.stop slice ∧
      (∀ cs, e.content = .error cs → cs = slice) ∧
      ∀ t, e.content = .ok t → tokenize slice = [⟨.ok t, 0, Text.utf8Length slice⟩] := by
  obtain ⟨before, p, after, hpieces, hcontent, hstart, hstop⟩ := exists_piece_of_mem_locate he
  obtain ⟨c, rest, hread⟩ := read_of_pieces hpieces
  have hslice := isSlice_of_pieces hpieces
  rw [← Nat.zero_add (Text.utf8Length (before.flatMap _)), ← hstart, ← hstop] at hslice
  have hne : p.chars ≠ [] := by
    rw [← show (Piece.read (N := N) c rest).1 = p from congrArg Prod.fst hread]
    exact Piece.chars_read_ne_nil c rest
  have hpos := utf8Length_pos hne
  refine ⟨by omega, p.chars, hslice, fun cs hcs => ?_, fun t ht => ?_⟩
  · rw [hcs] at hcontent
    cases p <;> cases hcontent
    rfl
  · rw [ht] at hcontent
    cases p with
    | token cs u =>
      cases hcontent
      exact tokenize_of_read_token hread
    | blank | comment | invalid => cases hcontent

/-- A piece with a byte outside all spans has no entry. -/
theorem content?_eq_none_of_outside {before after : List (Piece N)} {p : Piece N} {byte : Nat}
    (h : pieces text = before ++ p :: after) (hle : Text.utf8Length (before.flatMap Piece.chars) ≤ byte)
    (hlt : byte < Text.utf8Length (before.flatMap Piece.chars) + Text.utf8Length p.chars)
    (hout : ∀ e ∈ (tokenize text : List (Entry N)), ¬ (e.start ≤ byte ∧ byte < e.stop)) : p.content? = none := by
  by_contra hsome
  obtain ⟨content, hcontent⟩ := Option.ne_none_iff_exists'.1 hsome
  refine hout ⟨content, _, _⟩ ?_ ⟨hle, hlt⟩
  rw [tokenize, h, locate_append, List.mem_append, mem_locate_cons, Nat.zero_add]
  exact Or.inr (Or.inl ⟨hcontent, rfl, rfl⟩)

/-- A piece ends with the text, or in front of the next character. -/
theorem stop_of_pieces {before after : List (Piece N)} {p : Piece N} {d : Char}
    (h : pieces text = before ++ p :: after) (hafter : ∀ c ∈ (after.flatMap Piece.chars).head?, c = d) :
    Text.utf8Length (before.flatMap Piece.chars) + Text.utf8Length p.chars = Text.utf8Length text ∨
      IsSlice text (Text.utf8Length (before.flatMap Piece.chars) + Text.utf8Length p.chars)
        (Text.utf8Length (before.flatMap Piece.chars) + Text.utf8Length p.chars + d.utf8Size) [d] := by
  have htext := (pieces_of_append h).1
  rw [List.flatMap_cons, ← List.append_assoc] at htext
  cases hrest : after.flatMap Piece.chars with
  | nil =>
    rw [hrest, List.append_nil] at htext
    exact Or.inl (by rw [htext, Text.utf8Length_append])
  | cons c cs =>
    rw [hrest] at htext hafter
    obtain rfl := hafter c rfl
    refine Or.inr ⟨before.flatMap Piece.chars ++ p.chars, cs, ?_, Text.utf8Length_append _ _, ?_⟩
    · rw [htext, List.append_assoc _ [c], List.singleton_append]
    · rw [Text.utf8Length_append, Text.utf8Length_append]
      rfl

/-- The lexer loses nothing. The spans of its entries have a byte, lie behind one another and end at
characters. A stretch that is no token is the text of its span, and a token is all that is read in the text of
its span. Every byte outside the spans is a blank, or lies in a comment that no span reaches into and that
goes on to the end of its line. -/
theorem tokenize_spans (text : List Char) :
    ((tokenize text : List (Entry N)).Pairwise fun e f => e.stop ≤ f.start) ∧
      (∀ e ∈ (tokenize text : List (Entry N)), e.start < e.stop ∧
        ∃ slice, IsSlice text e.start e.stop slice ∧
          (∀ cs, e.content = .error cs → cs = slice) ∧
          ∀ t, e.content = .ok t → tokenize slice = [⟨.ok t, 0, Text.utf8Length slice⟩]) ∧
      ∀ byte < Text.utf8Length text,
        (∀ e ∈ (tokenize text : List (Entry N)), ¬ (e.start ≤ byte ∧ byte < e.stop)) →
        ∃ start stop slice, IsSlice text start stop slice ∧ start ≤ byte ∧ byte < stop ∧
          (∀ e ∈ (tokenize text : List (Entry N)), e.stop ≤ start ∨ stop ≤ e.start) ∧
          ((∃ b ∈ [' ', '\t', '\r', '\n'], slice = [b]) ∨
            ∃ cs, slice = '#' :: cs ∧ '\n' ∉ cs ∧
              (stop = Text.utf8Length text ∨ IsSlice text stop (stop + 1) ['\n'])) := by
  refine ⟨pairwise_locate 0 _, fun e => span_of_mem_tokenize, fun byte hbyte hout => ?_⟩
  rw [← flatMap_chars_pieces (N := N) text] at hbyte
  obtain ⟨before, p, after, hpieces, hle, hlt⟩ := exists_piece_of_lt hbyte
  obtain ⟨c, rest, hread⟩ := read_of_pieces hpieces
  have hp := content?_eq_none_of_outside hpieces hle hlt hout
  refine ⟨_, _, p.chars, isSlice_of_pieces hpieces, hle, hlt, fun e he => ?_, ?_⟩
  · rw [tokenize, hpieces] at he
    simpa using mem_locate_of_content?_eq_none hp he
  · refine (chars_of_content?_eq_none hread hp).imp_right ?_
    rintro ⟨cs, hcs, hline, hafter⟩
    exact ⟨cs, hcs, hline, stop_of_pieces hpieces hafter⟩

end QuilControl
