import QuilControl.Json.Reader
import QuilControl.Json.Writer
import QuilControl.Proofs.Token.Numeral

/-!
# Documents that are written are read back

A document is spelled when its numbers and strings are as a document may have them
(`JsonValue.IsSpelled`). The text of each of its tokens is read as the token (`JsonToken.read_chars`), so the
text of the document gives its tokens (`JsonValue.lexes_tokens`), and the tokens give the document
(`JsonReading.run_tokens`).
-/

namespace QuilControl

/-! ## Numbers -/

/-- Numbers that a document may hold: without a zero in front of other digits, and read as they are. -/
structure JsonNumber.IsSpelled (n : JsonNumber) : Prop where
  wellFormed : isWellFormed n.digits = true
  read_text : Numeral.read n.digits.text = (n.digits, [])

namespace JsonNumber

variable {n : JsonNumber}

/-- The text of a number begins with a digit, behind its sign. -/
theorem IsSpelled.exists_text_eq (h : n.IsSpelled) : ∃ c cs, n.digits.text = c :: cs ∧ c.isDigit = true := by
  obtain ⟨hwell, hread⟩ := h
  have hwhole := Numeral.whole_read n.digits.text
  rw [hread] at hwhole
  cases hdigits : n.digits.whole with
  | nil => simp [isWellFormed, hdigits] at hwell
  | cons c whole =>
    refine ⟨c, _, by rw [Numeral.text, hdigits, List.cons_append, List.cons_append], ?_⟩
    exact List.mem_takeWhile_imp (show c ∈ n.digits.text.takeWhile Char.isDigit by rw [← hwhole, hdigits]; simp)

theorem read_chars (h : n.IsSpelled) {rest : List Char} (hrest : breaksNumber rest) :
    JsonNumber.read (n.chars ++ rest) = some (n, rest) := by
  have hread := read_append_rest h.read_text hrest (Or.inl rfl)
  rw [List.nil_append] at hread
  have hwell := h.wellFormed
  obtain ⟨c, cs, htext, hdigit⟩ := h.exists_text_eq
  obtain ⟨negative, digits⟩ := n
  cases negative with
  | true =>
    simp only [chars, if_true, List.cons_append, JsonNumber.read, List.head?_cons, List.tail_cons, hread, hwell,
      decide_true]
  | false =>
    have hsign : ¬ (digits.text ++ rest).head? = some '-' := by
      rw [htext]
      rintro ⟨⟩
      cases hdigit
    simp only [chars, Bool.false_eq_true, if_false, JsonNumber.read, if_neg hsign, hread, hwell,
      if_true, decide_eq_false hsign]

end JsonNumber

/-! ## Strings -/

namespace JsonUnit

/-- Parts of a string as they are written: a character without an escape of its own is no control. -/
def IsSpelled : JsonUnit → Prop
  | char c => shortEscape? c = none → ¬ c < ' '
  | unit code => code < 0x10000

theorem hexDigit?_hexDigit (n : Nat) : Text.hexDigit? (hexDigit n) = some (n % 16) := by
  have hall : ∀ d < 16, Text.hexDigit? (Nat.digitChar d) = some d := by decide
  exact hall (n % 16) (Nat.mod_lt n (by decide))

theorem hexValue?_unit {code : Nat} (h : code < 0x10000) :
    Text.hexValue? 0 [hexDigit (code / 4096), hexDigit (code / 256), hexDigit (code / 16), hexDigit code] =
      some code := by
  simp only [Text.hexValue?, hexDigit?_hexDigit]
  exact congrArg some (by omega)

theorem escaped?_of_shortEscape? {c letter : Char} (h : shortEscape? c = some letter) :
    letter ≠ 'u' ∧ JsonToken.escaped? letter = some c := by
  unfold shortEscape? at h
  split at h
  · next hc =>
    simp only [Bool.or_eq_true, decide_eq_true_eq] at hc
    rcases hc with rfl | rfl <;> cases h <;> decide
  · iterate 5
      split at h
      · next hc => subst hc; cases h; decide
    cases h

theorem readUnits_chars {u : JsonUnit} (h : u.IsSpelled) (rest : List Char) :
    JsonToken.readUnits (u.chars ++ rest) = (JsonToken.readUnits rest).map fun r => (u :: r.1, r.2) := by
  cases u with
  | char c =>
    cases hescape : shortEscape? c with
    | some letter =>
      obtain ⟨hletter, hescaped⟩ := escaped?_of_shortEscape? hescape
      simp only [chars, hescape, List.cons_append, List.nil_append]
      rw [JsonToken.readUnits.eq_def]
      simp [hletter, hescaped]
    | none =>
      have hcontrol := h hescape
      have hquote : c ≠ '"' := by rintro rfl; cases hescape
      have hslash : c ≠ '\\' := by rintro rfl; cases hescape
      simp only [chars, hescape, if_neg hcontrol, List.cons_append, List.nil_append]
      rw [JsonToken.readUnits.eq_def]
      simp [hquote, hslash, hcontrol]
  | unit code =>
    simp only [chars, escapedUnit, List.cons_append, List.nil_append]
    rw [JsonToken.readUnits]
    simp [hexValue?_unit h]

theorem readUnits_flatMap_chars {units : List JsonUnit} (h : ∀ u ∈ units, u.IsSpelled) (rest : List Char) :
    JsonToken.readUnits (units.flatMap chars ++ '"' :: rest) = some (units, rest) := by
  induction units with
  | nil => rw [List.flatMap_nil, List.nil_append, JsonToken.readUnits.eq_def]; rfl
  | cons u units ih =>
    obtain ⟨hu, hunits⟩ := List.forall_mem_cons.1 h
    rw [List.flatMap_cons, List.append_assoc, readUnits_chars hu, ih hunits]
    rfl

end JsonUnit

/-! ## Tokens -/

namespace JsonToken

/-- Tokens as they are written. -/
def IsSpelled : JsonToken → Prop
  | number n => n.IsSpelled
  | string units => ∀ u ∈ units, u.IsSpelled
  | _ => True

/-- Texts that may follow a token. Only a number can go on. -/
def before : JsonToken → List Char → Prop
  | number _ => breaksNumber
  | _ => anyText

theorem read_of_isDigit {c : Char} (h : c.isDigit = true ∨ c = '-') (rest : List Char) :
    read (c :: rest) = (JsonNumber.read (c :: rest)).map fun r => (.number r.1, r.2) := by
  have hne (d : Char) (hd : d.isDigit = false ∧ d ≠ '-') : c ≠ d := by
    rintro rfl
    simp [hd] at h
  rw [read]
  simp only [hne '[' (by decide), hne ']' (by decide), hne '\x7b' (by decide), hne '\x7d' (by decide),
    hne ':' (by decide), hne ',' (by decide), hne '"' (by decide), hne 'n' (by decide), hne 't' (by decide),
    hne 'f' (by decide), if_false]

theorem exists_chars_eq {t : JsonToken} (h : t.IsSpelled) : ∃ c cs, t.chars = c :: cs ∧ isBlank c = false := by
  cases t with
  | number n =>
    obtain ⟨c, cs, htext, hdigit⟩ := JsonNumber.IsSpelled.exists_text_eq h
    by_cases hsign : n.negative = true
    · exact ⟨'-', _, by rw [chars, JsonNumber.chars, if_pos hsign], rfl⟩
    · refine ⟨c, cs, by rw [chars, JsonNumber.chars, if_neg hsign, htext], ?_⟩
      rw [Bool.eq_false_iff]
      intro hblank
      simp only [isBlank, Bool.or_eq_true, decide_eq_true_eq] at hblank
      rcases hblank with ((rfl | rfl) | rfl) | rfl <;> cases hdigit
  | bool b => cases b <;> exact ⟨_, _, rfl, rfl⟩
  | _ => exact ⟨_, _, rfl, rfl⟩

theorem read_chars {t : JsonToken} (h : t.IsSpelled) {rest : List Char} (hrest : t.before rest) :
    read (t.chars ++ rest) = some (t, rest) := by
  cases t with
  | number n =>
    have hread := JsonNumber.read_chars h hrest
    obtain ⟨c, cs, htext, hc⟩ : ∃ c cs, n.chars = c :: cs ∧ (c.isDigit = true ∨ c = '-') := by
      obtain ⟨c, cs, htext, hdigit⟩ := JsonNumber.IsSpelled.exists_text_eq h
      by_cases hsign : n.negative = true
      · exact ⟨'-', _, by rw [JsonNumber.chars, if_pos hsign], Or.inr rfl⟩
      · exact ⟨c, cs, by rw [JsonNumber.chars, if_neg hsign, htext], Or.inl hdigit⟩
    rw [htext, List.cons_append] at hread
    rw [chars, htext, List.cons_append, read_of_isDigit hc, hread]
    rfl
  | string units =>
    have hread := JsonUnit.readUnits_flatMap_chars h rest
    simp only [chars, List.cons_append, List.append_assoc, List.nil_append]
    rw [read]
    simp [hread]
  | bool b => cases b <;> rfl
  | _ => rfl

/-- A text is read as its tokens, whatever follows that `before` holds of. -/
def Lexes (before : List Char → Prop) (ts : List JsonToken) : Prop :=
  ∀ fuel rest, before rest →
    readAll (ts.length + fuel) (ts.flatMap chars ++ rest) = (readAll fuel rest).map (ts ++ ·)

theorem lexes_token {t : JsonToken} (h : t.IsSpelled) : Lexes t.before [t] := by
  intro fuel rest hrest
  obtain ⟨c, cs, hchars, hblank⟩ := exists_chars_eq h
  have hread := read_chars h hrest
  rw [hchars, List.cons_append] at hread
  rw [List.flatMap_cons, List.flatMap_nil, List.append_nil, hchars, List.cons_append, List.length_singleton,
    Nat.add_comm, readAll, List.dropWhile_cons_of_neg (by rw [hblank]; exact Bool.false_ne_true)]
  simp only [hread]
  rfl

theorem Lexes.append {before before' : List Char → Prop} {ts us : List JsonToken} (ht : Lexes before ts)
    (hu : Lexes before' us) (h : ∀ rest, before' rest → before (us.flatMap chars ++ rest)) :
    Lexes before' (ts ++ us) := by
  intro fuel rest hrest
  rw [List.length_append, List.flatMap_append, List.append_assoc, Nat.add_assoc, ht _ _ (h rest hrest),
    hu fuel rest hrest, Option.map_map]
  simp [Function.comp_def]

theorem Lexes.mono {before before' : List Char → Prop} {ts : List JsonToken} (ht : Lexes before ts)
    (h : ∀ rest, before' rest → before rest) : Lexes before' ts :=
  fun fuel rest hrest => ht fuel rest (h rest hrest)

/-- Anything may follow a token that is no number. -/
theorem Lexes.cons {before : List Char → Prop} {t : JsonToken} {ts : List JsonToken} (ht : t.IsSpelled)
    (hbefore : t.before = anyText) (hts : Lexes before ts) : Lexes before (t :: ts) :=
  (lexes_token ht).append hts fun rest _ => by rw [hbefore]; trivial

theorem length_le_flatMap_chars {ts : List JsonToken} (h : ∀ t ∈ ts, t.IsSpelled) :
    ts.length ≤ (ts.flatMap chars).length := by
  induction ts with
  | nil => exact Nat.le_refl 0
  | cons t ts ih =>
    obtain ⟨ht, hts⟩ := List.forall_mem_cons.1 h
    obtain ⟨c, cs, hchars, -⟩ := exists_chars_eq ht
    have hrest := ih hts
    rw [List.flatMap_cons, List.length_append, hchars, List.length_cons, List.length_cons]
    omega

/-- The tokens of a text are those that it lexes as to its end. -/
theorem Lexes.ofChars? {before : List Char → Prop} {ts : List JsonToken} (h : Lexes before ts) (hb : before [])
    (hspelled : ∀ t ∈ ts, t.IsSpelled) : JsonToken.ofChars? (ts.flatMap chars) = some ts := by
  obtain ⟨fuel, hfuel⟩ := Nat.exists_eq_add_of_le (length_le_flatMap_chars hspelled)
  have hread := h fuel [] hb
  rw [List.append_nil] at hread
  have hnil : readAll fuel [] = some [] := by cases fuel <;> rfl
  rw [JsonToken.ofChars?, hfuel, hread, hnil]
  simp

end JsonToken

/-! ## Documents -/

namespace JsonValue

/-- Documents of tokens as they are written. -/
def IsSpelled (v : JsonValue) : Prop := ∀ t ∈ v.tokens, t.IsSpelled

theorem isSpelled_number {n : JsonNumber} (h : n.IsSpelled) : (number n).IsSpelled := by
  intro t ht
  obtain rfl : t = .number n := by simpa [tokens] using ht
  exact h

theorem isSpelled_itemTokens {items : List JsonValue} (h : ∀ item ∈ items, item.IsSpelled) :
    ∀ t ∈ itemTokens items, t.IsSpelled := by
  induction items with
  | nil =>
    intro t ht
    obtain rfl : t = .closeArray := by simpa [itemTokens] using ht
    trivial
  | cons item items ih =>
    obtain ⟨hitem, hitems⟩ := List.forall_mem_cons.1 h
    rw [itemTokens]
    exact List.forall_mem_cons.2 ⟨trivial, List.forall_mem_append.2 ⟨hitem, ih hitems⟩⟩

theorem isSpelled_array {items : List JsonValue} (h : ∀ item ∈ items, item.IsSpelled) :
    (array items).IsSpelled := by
  cases items with
  | nil => exact List.forall_mem_cons.2 ⟨trivial, isSpelled_itemTokens h⟩
  | cons item items =>
    obtain ⟨hitem, hitems⟩ := List.forall_mem_cons.1 h
    exact List.forall_mem_cons.2 ⟨trivial, List.forall_mem_append.2 ⟨hitem, isSpelled_itemTokens hitems⟩⟩

theorem breaksNumber_itemTokens (items : List JsonValue) (rest : List Char) :
    breaksNumber ((itemTokens items).flatMap JsonToken.chars ++ rest) := by
  cases items <;> exact breaksNumber_cons.2 (by decide)

theorem breaksNumber_fieldTokens (fields : List (List JsonUnit × JsonValue)) (rest : List Char) :
    breaksNumber ((fieldTokens fields).flatMap JsonToken.chars ++ rest) := by
  cases fields with
  | nil => exact breaksNumber_cons.2 (by decide)
  | cons field fields => exact breaksNumber_cons.2 (by decide)

open JsonToken (Lexes lexes_token)

theorem forall_mem_field {P : JsonToken → Prop} {a b c : JsonToken} {ts : List JsonToken} :
    (∀ t ∈ a :: b :: c :: ts, P t) ↔ P a ∧ P b ∧ P c ∧ ∀ t ∈ ts, P t := by
  simp only [List.forall_mem_cons]

mutual

theorem lexes_tokens (v : JsonValue) (h : ∀ t ∈ v.tokens, t.IsSpelled) : Lexes breaksNumber v.tokens := by
  cases v with
  | number n => exact lexes_token (h _ List.mem_cons_self)
  | null | bool | string => exact (lexes_token (h _ List.mem_cons_self)).mono fun _ _ => trivial
  | array items =>
    cases items with
    | nil =>
      obtain ⟨hopen, hclose⟩ := List.forall_mem_cons.1 h
      exact .cons hopen rfl ((lexes_token (hclose _ List.mem_cons_self)).mono fun _ _ => trivial)
    | cons item items =>
      obtain ⟨hopen, hitems⟩ := List.forall_mem_cons.1 h
      obtain ⟨hitem, hrest⟩ := List.forall_mem_append.1 hitems
      exact .cons hopen rfl <| (lexes_tokens item hitem).append
        ((lexes_itemTokens items hrest).mono fun _ _ => trivial) fun _ _ => breaksNumber_itemTokens items _
  | object fields =>
    cases fields with
    | nil =>
      obtain ⟨hopen, hclose⟩ := List.forall_mem_cons.1 h
      exact .cons hopen rfl ((lexes_token (hclose _ List.mem_cons_self)).mono fun _ _ => trivial)
    | cons field fields =>
      obtain ⟨key, v⟩ := field
      obtain ⟨hopen, hkey, hcolon, hfields⟩ := forall_mem_field.1 h
      obtain ⟨hv, hrest⟩ := List.forall_mem_append.1 hfields
      exact .cons hopen rfl <| .cons hkey rfl <| .cons hcolon rfl <| (lexes_tokens v hv).append
        ((lexes_fieldTokens fields hrest).mono fun _ _ => trivial) fun _ _ => breaksNumber_fieldTokens fields _

theorem lexes_itemTokens (items : List JsonValue) (h : ∀ t ∈ itemTokens items, t.IsSpelled) :
    Lexes anyText (itemTokens items) := by
  cases items with
  | nil => exact lexes_token (h _ List.mem_cons_self)
  | cons item items =>
    obtain ⟨hcomma, hitems⟩ := List.forall_mem_cons.1 h
    obtain ⟨hitem, hrest⟩ := List.forall_mem_append.1 hitems
    exact .cons hcomma rfl <| (lexes_tokens item hitem).append (lexes_itemTokens items hrest) fun _ _ =>
      breaksNumber_itemTokens items _

theorem lexes_fieldTokens (fields : List (List JsonUnit × JsonValue)) (h : ∀ t ∈ fieldTokens fields, t.IsSpelled) :
    Lexes anyText (fieldTokens fields) := by
  cases fields with
  | nil => exact lexes_token (h _ List.mem_cons_self)
  | cons field fields =>
    obtain ⟨key, v⟩ := field
    obtain ⟨hcomma, hkey, hcolon, hfields⟩ := forall_mem_field.1 h
    obtain ⟨hv, hrest⟩ := List.forall_mem_append.1 hfields
    exact .cons hcomma rfl <| .cons hkey rfl <| .cons hcolon rfl <| (lexes_tokens v hv).append
      (lexes_fieldTokens fields hrest) fun _ _ => breaksNumber_fieldTokens fields _

end

end JsonValue

namespace JsonReading

theorem run_cons (reading : JsonReading) (t : JsonToken) (rest : List JsonToken) :
    run reading (t :: rest) = (reading.step t).bind fun next => run next rest := by
  rw [run]
  cases reading.step t <;> rfl

/-- The first item of an array is read like any other. -/
theorem run_firstItem (v : JsonValue) (outer : List JsonFrame) (rest : List JsonToken) :
    run (.firstItem outer) (v.tokens ++ rest) = run (.value (.array [] :: outer)) (v.tokens ++ rest) := by
  cases v with
  | null | bool | number | string => rfl
  | array items => cases items <;> rfl
  | object fields =>
    cases fields with
    | nil => rfl
    | cons field fields => rfl

mutual

theorem run_tokens (v : JsonValue) (outer : List JsonFrame) (rest : List JsonToken) :
    run (.value outer) (v.tokens ++ rest) = run (complete v outer) rest := by
  cases v with
  | null | bool | number | string => simp [JsonValue.tokens, run_cons, step, start]
  | array items =>
    cases items with
    | nil => simp [JsonValue.tokens, run_cons, step, start]
    | cons item items =>
      simp only [JsonValue.tokens, List.cons_append, List.append_assoc, run_cons, step, start, Option.bind_some]
      rw [run_firstItem, run_tokens item, complete, run_itemTokens items]
      rfl
  | object fields =>
    cases fields with
    | nil => simp [JsonValue.tokens, run_cons, step, start]
    | cons field fields =>
      obtain ⟨key, v⟩ := field
      simp only [JsonValue.tokens, List.cons_append, List.append_assoc, run_cons, step, start, Option.bind_some]
      rw [run_tokens v, complete, run_fieldTokens fields]
      rfl

theorem run_itemTokens (items done : List JsonValue) (outer : List JsonFrame) (rest : List JsonToken) :
    run (.afterItem done outer) (JsonValue.itemTokens items ++ rest) =
      run (complete (.array (done.reverse ++ items)) outer) rest := by
  cases items with
  | nil => simp [JsonValue.itemTokens, run_cons, step]
  | cons item items =>
    simp only [JsonValue.itemTokens, List.cons_append, List.append_assoc, run_cons, step, Option.bind_some]
    rw [run_tokens item, complete, run_itemTokens items, List.reverse_cons, List.append_assoc]
    rfl

theorem run_fieldTokens (fields done : JsonFields) (outer : List JsonFrame) (rest : List JsonToken) :
    run (.afterField done outer) (JsonValue.fieldTokens fields ++ rest) =
      run (complete (.object (done.reverse ++ fields)) outer) rest := by
  cases fields with
  | nil => simp [JsonValue.fieldTokens, run_cons, step]
  | cons field fields =>
    obtain ⟨key, v⟩ := field
    simp only [JsonValue.fieldTokens, List.cons_append, List.append_assoc, run_cons, step, Option.bind_some]
    rw [run_tokens v, complete, run_fieldTokens fields, List.reverse_cons, List.append_assoc]
    rfl

end

end JsonReading

/-- Writing a document and reading its text gives the document. -/
theorem JsonValue.ofChars?_text {v : JsonValue} (h : v.IsSpelled) : ofChars? v.text.toList = some v := by
  have htokens := (lexes_tokens v h).ofChars? breaksNumber_nil h
  have hrun := JsonReading.run_tokens v [] []
  rw [List.append_nil] at hrun
  rw [text, String.toList_ofList, ofChars?, htokens]
  exact hrun

end QuilControl
