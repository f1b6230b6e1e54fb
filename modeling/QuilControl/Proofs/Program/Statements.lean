import QuilControl.Program.Parser
import QuilControl.Proofs.Token.Reading

/-!
# Lines and statements

A line is cut at semicolons, and ends at its comment, but not inside of strings. What is left of a
line is a line without a comment (`IsLine`), and its parts are statements that are cut no further
(`IsStatement`). The tokens of a text agree with this: outside of strings none of them has a number
sign or a semicolon (`onlyInStrings_pieces`).
-/

namespace QuilControl

/-- The character stands inside of strings only, when the text begins in a string or not. -/
def onlyInStrings (d : Char) (inString : Bool) : List Char → Bool
  | [] => true
  | c :: rest => (inString || c ≠ d) && onlyInStrings d (if c = '"' then !inString else inString) rest

/-- Whether a text ends in a string, when it begins in one or not. -/
def endsInString (inString : Bool) : List Char → Bool
  | [] => inString
  | c :: rest => endsInString (if c = '"' then !inString else inString) rest

variable {d : Char} {inString : Bool} {text a b : List Char}

theorem endsInString_append : endsInString inString (a ++ b) = endsInString (endsInString inString a) b := by
  induction a generalizing inString with
  | nil => rfl
  | cons c rest ih => exact ih

theorem endsInString_eq_self (hq : '"' ∉ a) : endsInString inString a = inString := by
  induction a with
  | nil => rfl
  | cons c rest ih =>
    simp only [List.mem_cons, not_or] at hq
    rw [endsInString, if_neg (Ne.symm hq.1), ih hq.2]

theorem onlyInStrings_append :
    onlyInStrings d inString (a ++ b) =
      (onlyInStrings d inString a && onlyInStrings d (endsInString inString a) b) := by
  induction a generalizing inString with
  | nil => simp [onlyInStrings, endsInString]
  | cons c rest ih => rw [List.cons_append, onlyInStrings, onlyInStrings, ih, Bool.and_assoc, endsInString]

theorem onlyInStrings_of_notMem (hd : d ∉ a) : onlyInStrings d inString a = true := by
  induction a generalizing inString with
  | nil => rfl
  | cons c rest ih =>
    simp only [List.mem_cons, not_or] at hd
    simp [onlyInStrings, Ne.symm hd.1, ih hd.2]

theorem onlyInStrings_of_append (h : onlyInStrings d inString (a ++ b) = true) :
    onlyInStrings d inString a = true := by
  rw [onlyInStrings_append, Bool.and_eq_true] at h
  exact h.1

/-- Characters other than quotes do not matter to what follows. -/
theorem onlyInStrings_skip (hd : d ∉ a) (hq : '"' ∉ a) :
    onlyInStrings d false (a ++ b) = onlyInStrings d false b := by
  rw [onlyInStrings_append, onlyInStrings_of_notMem hd, endsInString_eq_self hq, Bool.true_and]

theorem onlyInStrings_drop (h : onlyInStrings d inString (a ++ b) = true) (hq : '"' ∉ a) :
    onlyInStrings d inString b = true := by
  rw [onlyInStrings_append, endsInString_eq_self hq, Bool.and_eq_true] at h
  exact h.2

/-- Behind the quote that closes it, a text is outside of a string. -/
theorem endsInString_string (hq : '"' ∉ a) : endsInString false ('"' :: a ++ ['"']) = false := by
  rw [List.cons_append, endsInString, if_pos rfl, endsInString_append, endsInString_eq_self hq]
  rfl

/-- A string keeps what it holds. -/
theorem onlyInStrings_string (hd : d ≠ '"') (hq : '"' ∉ a) :
    onlyInStrings d false ('"' :: a ++ '"' :: b) = onlyInStrings d false b := by
  have hinside : onlyInStrings d true a = true := by
    induction a with
    | nil => rfl
    | cons c rest ih =>
      simp only [List.mem_cons, not_or] at hq
      simp [onlyInStrings, Ne.symm hq.1, ih hq.2]
  have hquoted : onlyInStrings d false ('"' :: a ++ ['"']) = true := by
    rw [onlyInStrings_append, onlyInStrings, if_pos rfl, Bool.not_false, hinside, endsInString, if_pos rfl,
      Bool.not_false, endsInString_eq_self hq]
    simp [onlyInStrings, Ne.symm hd]
  rw [List.append_cons, onlyInStrings_append, hquoted, endsInString_string hq, Bool.true_and]

theorem onlyInStrings_trim (h : onlyInStrings d false text = true) :
    onlyInStrings d false (Text.trim text) = true := by
  obtain ⟨before, after, htext, hbefore, -⟩ := Text.exists_blanks_append text
  rw [htext] at h
  have hq : '"' ∉ before := fun hm => by
    have := hbefore _ hm
    revert this
    decide
  exact onlyInStrings_of_append (onlyInStrings_drop h hq)

theorem onlyInStrings_trimEnd (h : onlyInStrings d inString text = true) :
    onlyInStrings d inString (Text.trimEnd text) = true := by
  obtain ⟨tail, htail⟩ := Text.prefix_trimEnd text
  rw [← htail] at h
  exact onlyInStrings_of_append h

/-! ## Comments and semicolons -/

theorem onlyInStrings_stripComment (inString : Bool) (text : List Char) :
    onlyInStrings '#' inString (stripComment inString text) = true := by
  induction text generalizing inString with
  | nil => rfl
  | cons c rest ih =>
    rw [stripComment]
    by_cases hc : (c = '#' && !inString) = true
    · rw [if_pos hc]
      rfl
    · rw [if_neg hc, onlyInStrings, ih, Bool.and_true]
      by_cases hin : inString = true
      · simp [hin]
      · simpa [hin] using hc

theorem stripComment_eq_self (h : onlyInStrings '#' inString text = true) :
    stripComment inString text = text := by
  induction text generalizing inString with
  | nil => rfl
  | cons c rest ih =>
    simp only [onlyInStrings, Bool.and_eq_true, Bool.or_eq_true, decide_eq_true_eq] at h
    have hc : ¬ (c = '#' && !inString) = true := by
      rcases h.1 with hin | hne
      · simp [hin]
      · simp [hne]
    rw [stripComment, if_neg hc, ih h.2]

theorem prefix_stripComment (inString : Bool) (text : List Char) : stripComment inString text <+: text := by
  induction text generalizing inString with
  | nil => exact List.prefix_refl _
  | cons c rest ih =>
    rw [stripComment]
    split
    · exact List.nil_prefix
    · exact List.cons_prefix_cons.2 ⟨rfl, ih _⟩

/-- A line that is not blank is indented just when it is without its comment. -/
theorem isIndented_trimEnd_stripComment {raw : List Char} (h : Text.isBlank (stripComment false raw) = false) :
    isIndented (Text.trimEnd (stripComment false raw)) = isIndented raw := by
  obtain ⟨tail, htail⟩ := (Text.prefix_trimEnd _).trans (prefix_stripComment false raw)
  rw [← Text.isBlank_trimEnd] at h
  cases htext : Text.trimEnd (stripComment false raw) with
  | nil =>
    rw [htext] at h
    cases h
  | cons c rest =>
    rw [← htail, htext]
    rfl

theorem stripComment_concat (inString : Bool) (text : List Char) {c : Char} (h : c ≠ '#') :
    stripComment inString (text ++ [c]) = stripComment inString text ∨
      stripComment inString (text ++ [c]) = stripComment inString text ++ [c] := by
  induction text generalizing inString with
  | nil => exact Or.inr (by simp [stripComment, h])
  | cons d rest ih =>
    rw [List.cons_append, stripComment, stripComment]
    split
    · exact Or.inl rfl
    · exact (ih _).imp (congrArg (d :: ·)) (congrArg (d :: ·))

theorem cutStatements_eq_self (h : onlyInStrings ';' inString text = true) :
    cutStatements inString text = [text] := by
  induction text generalizing inString with
  | nil => rfl
  | cons c rest ih =>
    simp only [onlyInStrings, Bool.and_eq_true, Bool.or_eq_true, decide_eq_true_eq] at h
    have hc : ¬ (c = ';' && !inString) = true := by
      rcases h.1 with hin | hne
      · simp [hin]
      · simp [hne]
    rw [cutStatements, if_neg hc, ih h.2]

theorem cutStatements_ne_nil (inString : Bool) (text : List Char) : cutStatements inString text ≠ [] := by
  cases text with
  | nil => exact List.cons_ne_nil _ _
  | cons c rest =>
    rw [cutStatements]
    split
    · exact List.cons_ne_nil _ _
    · split <;> exact List.cons_ne_nil _ _

/-- The first part of a line begins it, and the others follow semicolons. -/
theorem exists_of_cutStatements {inString : Bool} {text part : List Char} {ps qs : List (List Char)}
    (h : cutStatements inString text = ps ++ part :: qs) :
    ∃ front rest, text = front ++ (part ++ rest) ∧ (ps = [] → front = []) ∧
      (ps ≠ [] → ∃ before, front = before ++ [';'] ∧ endsInString inString before = false) ∧
      ∀ c ∈ rest.head?, c = ';' := by
  induction text generalizing inString ps part with
  | nil =>
    obtain ⟨rfl, rfl, -⟩ : ps = [] ∧ part = [] ∧ qs = [] := by
      have hlength := congrArg List.length h
      cases ps with
      | nil => simpa [cutStatements, eq_comm] using h
      | cons p ps => simp [cutStatements] at hlength
    exact ⟨[], [], rfl, fun _ => rfl, fun hne => absurd rfl hne, by simp⟩
  | cons c rest ih =>
    rw [cutStatements] at h
    split at h
    · next hc =>
      simp only [Bool.and_eq_true, decide_eq_true_eq, Bool.not_eq_true'] at hc
      obtain ⟨rfl, rfl⟩ := hc
      cases ps with
      | nil =>
        obtain ⟨rfl, -⟩ := List.cons.inj h
        exact ⟨[], ';' :: rest, rfl, fun _ => rfl, fun hne => absurd rfl hne, by simp⟩
      | cons p ps =>
        obtain ⟨front, behind, rfl, hfirst, hfront, hbehind⟩ := ih (List.cons.inj h).2
        refine ⟨';' :: front, behind, rfl, fun hnil => absurd hnil (List.cons_ne_nil _ _), fun _ => ?_, hbehind⟩
        by_cases hps : ps = []
        · exact ⟨[], by rw [hfirst hps]; rfl, rfl⟩
        · obtain ⟨before, rfl, hbefore⟩ := hfront hps
          exact ⟨';' :: before, rfl, hbefore⟩
    · obtain ⟨first, others, hcut⟩ :=
        List.exists_cons_of_ne_nil (cutStatements_ne_nil (if c = '"' then !inString else inString) rest)
      rw [hcut] at h
      cases ps with
      | nil =>
        obtain ⟨rfl, rfl⟩ := List.cons.inj h
        have hcut : cutStatements _ rest = [] ++ first :: others := hcut
        obtain ⟨front, behind, hrest, hfirst, -, hbehind⟩ := ih hcut
        refine ⟨[], behind, ?_, fun _ => rfl, fun hne => absurd rfl hne, hbehind⟩
        rw [hrest, hfirst rfl]
        rfl
      | cons p ps =>
        have hcut : cutStatements _ rest = (first :: ps) ++ part :: qs :=
          hcut.trans (congrArg (first :: ·) (List.cons.inj h).2)
        obtain ⟨front, behind, rfl, -, hfront, hbehind⟩ := ih hcut
        obtain ⟨before, rfl, hbefore⟩ := hfront (List.cons_ne_nil _ _)
        exact ⟨c :: (before ++ [';']), behind, rfl, fun hnil => absurd hnil (List.cons_ne_nil _ _),
          fun _ => ⟨c :: before, rfl, hbefore⟩, hbehind⟩

/-- The parts of a line: only the first may begin in a string, and none is cut further. -/
theorem cutStatements_parts (h : onlyInStrings '#' inString text = true) :
    ∃ part parts, cutStatements inString text = part :: parts ∧
      (onlyInStrings ';' inString part = true ∧ onlyInStrings '#' inString part = true) ∧
      (∀ q ∈ parts, onlyInStrings ';' false q = true ∧ onlyInStrings '#' false q = true) ∧
      ∀ q ∈ part :: parts, q ⊆ text := by
  induction text generalizing inString with
  | nil => exact ⟨[], [], rfl, ⟨rfl, rfl⟩, by simp, by simp⟩
  | cons c rest ih =>
    simp only [onlyInStrings, Bool.and_eq_true] at h
    obtain ⟨part, parts, hcut, hpart, hparts, hsub⟩ := ih h.2
    have hsub' : ∀ q ∈ part :: parts, q ⊆ c :: rest := fun q hq =>
      List.Subset.trans (hsub q hq) (List.subset_cons_self c rest)
    rw [cutStatements]
    by_cases hc : (c = ';' && !inString) = true
    · have hsemi : c = ';' ∧ inString = false := by simpa using hc
      obtain ⟨rfl, rfl⟩ := hsemi
      rw [if_pos hc]
      have hcut' : cutStatements false rest = part :: parts := hcut
      refine ⟨[], part :: parts, by rw [hcut'], ⟨rfl, rfl⟩, ?_, ?_⟩
      · intro q hq
        rcases List.mem_cons.1 hq with rfl | hq
        · exact hpart
        · exact hparts q hq
      · intro q hq
        rcases List.mem_cons.1 hq with rfl | hq
        · exact List.nil_subset _
        · exact hsub' q hq
    · rw [if_neg hc, hcut]
      refine ⟨c :: part, parts, rfl, ?_, hparts, ?_⟩
      · simp only [onlyInStrings, Bool.and_eq_true, hpart, h.1, and_true]
        by_cases hin : inString = true
        · simp [hin]
        · simpa [hin] using hc
      · intro q hq
        rcases List.mem_cons.1 hq with rfl | hq
        · exact List.cons_subset_cons c (hsub part List.mem_cons_self)
        · exact hsub' q (List.mem_cons_of_mem _ hq)

/-! ## Lines and statements -/

/-- A line without a comment and with nothing to trim at its end. -/
structure IsLine (text : List Char) : Prop where
  uncommented : onlyInStrings '#' false text = true
  solidEnd : Text.solidEnd text
  notBlank : Text.isBlank text = false
  oneLine : '\n' ∉ text

/-- A line that is one statement. -/
structure IsStatement (text : List Char) : Prop extends IsLine text where
  uncut : onlyInStrings ';' false text = true
  solidStart : Text.solidStart text

theorem IsStatement.trim_eq_self (h : IsStatement text) : Text.trim text = text :=
  Text.trim_eq_self h.solidStart h.solidEnd

theorem isLine_of_stripComment {raw : List Char} (hn : '\n' ∉ raw)
    (hb : Text.isBlank (Text.trimEnd (stripComment false raw)) = false) :
    IsLine (Text.trimEnd (stripComment false raw)) where
  uncommented := onlyInStrings_trimEnd (onlyInStrings_stripComment false raw)
  solidEnd := Text.solidEnd_trimEnd _
  notBlank := hb
  oneLine := fun hm =>
    hn ((prefix_stripComment false raw).subset ((Text.prefix_trimEnd _).subset hm))

theorem IsLine.trim (h : IsLine text) : IsLine (Text.trim text) where
  uncommented := onlyInStrings_trim h.uncommented
  solidEnd := Text.solidEnd_trim text
  notBlank := Text.not_isBlank_trim h.notBlank
  oneLine := fun hm => h.oneLine ((Text.trim_sublist text).subset hm)

/-- The trimmed parts of a line are statements. -/
theorem IsLine.isStatement (h : IsLine text) {part : List Char} (hp : part ∈ statements text) :
    IsStatement (Text.trim part) := by
  obtain ⟨hp, hb⟩ := List.mem_filter.1 hp
  have hblank : Text.isBlank part = false := by simpa using hb
  obtain ⟨first, others, hcut, hfirst, hothers, hsub⟩ := cutStatements_parts h.uncommented
  rw [hcut] at hp
  have hpart : onlyInStrings ';' false part = true ∧ onlyInStrings '#' false part = true := by
    rcases List.mem_cons.1 hp with rfl | hp
    · exact hfirst
    · exact hothers part hp
  have hline : IsLine (Text.trim part) :=
    { uncommented := onlyInStrings_trim hpart.2
      solidEnd := Text.solidEnd_trim part
      notBlank := Text.not_isBlank_trim hblank
      oneLine := fun hm => h.oneLine (hsub part hp ((Text.trim_sublist part).subset hm)) }
  exact { hline with uncut := onlyInStrings_trim hpart.1, solidStart := Text.solidStart_trim part }

theorem IsStatement.statements_eq (h : IsStatement text) : statements text = [text] := by
  rw [statements, cutStatements_eq_self h.uncut]
  simp [h.notBlank]

/-! ## Tokens of statements -/

section Pieces

variable {N : Type} [Scalar N]

/-- Number signs and semicolons are part of no token, strings apart. -/
theorem onlyInStrings_tokenText {cs : List Char} (h : IsTokenText cs) (hd : d = '#' ∨ d = ';')
    (rest : List Char) : onlyInStrings d false (cs ++ rest) = onlyInStrings d false rest := by
  rcases h with ⟨-, hcs⟩ | ⟨inside, rfl, hq⟩
  · have hd' : d ∉ cs := by
      intro hm
      have := hcs d hm
      rcases hd with rfl | rfl <;> simp [isTokenChar] at this
    have hq : '"' ∉ cs := by
      intro hm
      have := hcs _ hm
      simp [isTokenChar] at this
    exact onlyInStrings_skip hd' hq
  · have hne : d ≠ '"' := by rcases hd with rfl | rfl <;> decide
    have := onlyInStrings_string (b := rest) hne hq
    simpa using this

theorem onlyInStrings_piece (laws : LiteralLaws N) {c : Char} {rest tail : List Char} {p : Piece N}
    (h : Piece.read c rest = (p, tail)) (hp : p.isPlain = true) (hd : d = '#' ∨ d = ';') :
    onlyInStrings d false (c :: rest) = onlyInStrings d false tail := by
  have happend := Piece.chars_read (N := N) c rest
  rw [h] at happend
  rw [← happend]
  rcases read_of_isPlain laws h hp with ⟨s, rfl, hs⟩ | ⟨cs, t, rfl, hcs⟩
  · simp only [isSeparator, Bool.or_eq_true, decide_eq_true_eq] at hs
    refine onlyInStrings_skip (a := [s]) ?_ ?_
    · rcases hd with rfl | rfl <;> rcases hs with ((rfl | rfl) | rfl) | rfl <;> decide
    · rcases hs with ((rfl | rfl) | rfl) | rfl <;> decide
  · exact onlyInStrings_tokenText hcs hd tail

/-- Behind blanks and tokens a text is outside of strings. -/
theorem onlyInStrings_pieces (laws : LiteralLaws N) {ps qs : List (Piece N)} (h : pieces text = ps ++ qs)
    (hp : ∀ p ∈ ps, p.isPlain = true) (hd : d = '#' ∨ d = ';') :
    onlyInStrings d false text = onlyInStrings d false (qs.flatMap Piece.chars) := by
  induction ps generalizing text with
  | nil => rw [List.nil_append] at h; rw [← h, flatMap_chars_pieces]
  | cons p ps ih =>
    cases text with
    | nil => rw [pieces_nil] at h; cases h
    | cons c rest =>
      rw [pieces_cons] at h
      obtain ⟨hpiece, hrest⟩ := List.cons.inj h
      rw [onlyInStrings_piece laws (Prod.ext hpiece rfl) (hp p List.mem_cons_self) hd]
      exact ih hrest fun q hq => hp q (List.mem_cons_of_mem _ hq)

/-- A text without a comment, all of whose stretches are tokens, is cut into blanks and tokens. -/
theorem isPlain_of_onlyInStrings (laws : LiteralLaws N) (h : onlyInStrings '#' false text = true)
    (hinvalid : ∀ cs, Piece.invalid cs ∉ (pieces text : List (Piece N))) :
    ∀ p ∈ (pieces text : List (Piece N)), p.isPlain = true := by
  fun_induction pieces (N := N) text with
  | case1 => simp
  | case2 c rest next ih =>
    have hfirst : next.1.isPlain = true := by
      cases hp : next.1 with
      | blank | token => rfl
      | invalid cs => exact absurd (List.mem_cons.2 (Or.inl hp.symm)) (hinvalid cs)
      | comment cs =>
        have hread : Piece.Reads c rest (.comment cs) next.2 := hp ▸ Piece.reads c rest
        generalize next.2 = tail at hread
        cases hread with
        | comment hc =>
          rw [hc] at h
          cases h
    have htail : onlyInStrings '#' false (c :: rest) = onlyInStrings '#' false next.2 :=
      onlyInStrings_piece laws (Prod.ext rfl rfl) hfirst (Or.inl rfl)
    intro p hp
    rcases List.mem_cons.1 hp with rfl | hp
    · exact hfirst
    · exact ih (by rw [← htail, h]) (fun cs hm => hinvalid cs (List.mem_cons_of_mem _ hm)) p hp

end Pieces

end QuilControl
