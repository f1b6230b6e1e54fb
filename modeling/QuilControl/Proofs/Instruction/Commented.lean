import QuilControl.Proofs.Instruction.RoundTrip
import QuilControl.Proofs.Scalar.Whole

/-!
# Statements that are read read back

A line of a program is read without its comment, but a statement on its own may have one behind its tokens.
Two kinds of instruction keep it: those that are kept as their text, and declarations that share a region,
which keep the text behind `SHARING`. Any other instruction is the same whatever the text of its tokens
(`Instruction.ofTokens_textOf`), and can be written again. So every statement on one line that is read reads
back.
-/

namespace QuilControl

variable {N : Type} [Scalar N]

section TextOf

variable {tokens : List (Token N)}

omit [Scalar N] in
/-- A declaration is the same whatever the text of its tokens and then shares nothing, or it shares such a text. -/
theorem readDeclaration_cases (tokens : List (Token N)) :
    (∃ r, (∀ textOf, readDeclaration textOf tokens = r) ∧ ∀ d rest, r = .ok (d, rest) → d.sharing = none) ∨
      ∃ (d : Declaration) (shared : List (Token N)), shared <:+ tokens ∧ shared ≠ [] ∧
        ∀ textOf, readDeclaration textOf tokens =
          .ok ({ d with sharing := some (String.ofList (textOf shared.length)) }, []) := by
  unfold readDeclaration
  cases hname : readIdentifier tokens with
  | error fault => exact Or.inl ⟨.error fault, fun _ => rfl, nofun⟩
  | ok named =>
    obtain ⟨name, behind⟩ := named
    cases hkeyword : readIdentifier behind with
    | error fault => exact Or.inl ⟨.error fault, fun _ => by simp only [hkeyword, bind, Except.bind], nofun⟩
    | ok typed =>
      obtain ⟨keyword, behind'⟩ := typed
      have hbehind := readIdentifier_eq_ok hname
      have hbehind' := readIdentifier_eq_ok hkeyword
      simp only [hkeyword, bind, Except.bind]
      cases hscalar : ScalarType.ofKeyword? keyword with
      | none => exact Or.inl ⟨_, fun _ => rfl, nofun⟩
      | some scalar =>
        dsimp only
        cases hlength : readLength behind' with
        | error fault => exact Or.inl ⟨.error fault, fun _ => rfl, nofun⟩
        | ok sized =>
          obtain ⟨length, after⟩ := sized
          dsimp only
          split
          · next word shared =>
            by_cases hword : word = "SHARING"
            · simp only [if_pos hword]
              by_cases hempty : shared.isEmpty = true
              · simp only [if_pos hempty]
                exact Or.inl ⟨_, fun _ => rfl, nofun⟩
              · simp only [if_neg hempty]
                refine Or.inr ⟨⟨name, scalar, length, none⟩, shared, ?_, by simpa using hempty, fun _ => rfl⟩
                rw [hbehind, hbehind']
                exact (List.suffix_cons _ _).trans ((readLength_suffix hlength).trans ⟨[_, _], rfl⟩)
            · simp only [if_neg hword]
              refine Or.inl ⟨_, fun _ => rfl, ?_⟩
              rintro _ _ ⟨⟩
              rfl
          · refine Or.inl ⟨_, fun _ => rfl, ?_⟩
            rintro _ _ ⟨⟩
            rfl

theorem readOperands_textOf (textOf textOf' : Nat → List Char) {keyword : String} (h : keyword ≠ "DECLARE") :
    readOperands textOf' keyword tokens = readOperands textOf keyword tokens := by
  unfold readOperands
  split
  · exact absurd rfl h
  all_goals rfl

/-- Only `DECLARE` begins a declaration, and nothing that is read token by token is kept as its text. -/
theorem readOperands_eq_ok {textOf : Nat → List Char} {keyword : String} {i : Instruction N} {rest : List (Token N)}
    (h : readOperands textOf keyword tokens = .ok (i, rest)) :
    (∀ d, i = .declaration d → keyword = "DECLARE") ∧ ∀ text, i ≠ .other text := by
  unfold readOperands at h
  split at h
  · exact ⟨fun _ _ => rfl, by obtain ⟨_, -, hend⟩ := exists_of_bind_eq_ok h; cases hend; nofun⟩
  · obtain ⟨_, -, hend⟩ := exists_of_bind_eq_ok h
    cases hend
    exact ⟨nofun, nofun⟩
  · obtain ⟨_, -, hend⟩ := exists_of_bind_eq_ok h
    cases hend
    exact ⟨nofun, nofun⟩
  · obtain ⟨_, -, hend⟩ := exists_of_bind_eq_ok h
    cases hend
    exact ⟨nofun, nofun⟩
  · cases h
    exact ⟨nofun, nofun⟩
  · obtain ⟨_, -, hend⟩ := exists_of_bind_eq_ok h
    cases hend
    exact ⟨nofun, nofun⟩
  · split at h
    · obtain ⟨_, -, hframe⟩ := exists_of_bind_eq_ok h
      obtain ⟨_, -, hend⟩ := exists_of_bind_eq_ok hframe
      cases hend
      exact ⟨nofun, nofun⟩
    · obtain ⟨_, -, hend⟩ := exists_of_bind_eq_ok h
      cases hend
      exact ⟨nofun, nofun⟩

/-- Nothing that is read token by token is kept as its text. -/
theorem Instruction.ofTokens_ne_other {textOf : Nat → List Char} {text : String} :
    ofTokens textOf tokens ≠ .ok (other text) := by
  intro h
  obtain ⟨_, -, hnext⟩ := exists_of_bind_eq_ok h
  obtain ⟨⟨i, rest⟩, hoperands, hlast⟩ := exists_of_bind_eq_ok hnext
  obtain ⟨_, -, hend⟩ := exists_of_bind_eq_ok hlast
  cases hend
  exact (readOperands_eq_ok hoperands).2 text rfl

/-- An instruction is the same whatever the text of its tokens and then shares nothing, or it is a declaration that
shares such a text. -/
theorem Instruction.ofTokens_cases (tokens : List (Token N)) :
    (∃ r, (∀ textOf, ofTokens textOf tokens = r) ∧ ∀ d, r = .ok (declaration d) → d.sharing = none) ∨
      ∃ (d : Declaration) (shared : List (Token N)), shared <:+ tokens ∧ shared ≠ [] ∧
        ∀ textOf, ofTokens textOf tokens =
          .ok (declaration { d with sharing := some (String.ofList (textOf shared.length)) }) := by
  cases hkeyword : readIdentifier tokens with
  | error fault => exact Or.inl ⟨.error fault, fun _ => by rw [ofTokens, hkeyword]; rfl, nofun⟩
  | ok read =>
    obtain ⟨keyword, behind⟩ := read
    have hof (textOf : Nat → List Char) : ofTokens textOf tokens =
        readOperands textOf keyword behind >>= fun read => readEnd read.2 >>= fun _ => pure read.1 := by
      rw [ofTokens, hkeyword]
      rfl
    by_cases hdeclare : keyword = "DECLARE"
    · subst hdeclare
      have hoperands (textOf : Nat → List Char) : readOperands (N := N) textOf "DECLARE" behind =
          readDeclaration textOf behind >>= fun read => pure (.declaration read.1, read.2) := rfl
      simp only [hof, hoperands]
      rcases readDeclaration_cases behind with ⟨r, hr, hnone⟩ | ⟨d, shared, hsuffix, hne, hread⟩
      · simp only [hr]
        refine Or.inl ⟨_, fun _ => rfl, fun d hd => ?_⟩
        obtain ⟨⟨i, rest⟩, hoperands, hlast⟩ := exists_of_bind_eq_ok hd
        obtain ⟨⟨d', rest'⟩, rfl, hdone⟩ := exists_of_bind_eq_ok hoperands
        obtain ⟨_, -, hend⟩ := exists_of_bind_eq_ok hlast
        cases hend
        cases hdone
        exact hnone _ _ rfl
      · simp only [hread]
        refine Or.inr ⟨d, shared, hsuffix.trans ?_, hne, fun _ => rfl⟩
        rw [readIdentifier_eq_ok hkeyword]
        exact List.suffix_cons _ _
    · refine Or.inl ⟨ofTokens (fun _ => []) tokens, fun textOf => ?_, fun d hd => ?_⟩
      · rw [hof, hof, readOperands_textOf _ _ hdeclare]
      · rw [hof] at hd
        obtain ⟨⟨i, rest⟩, hoperands, hlast⟩ := exists_of_bind_eq_ok hd
        obtain ⟨_, -, hend⟩ := exists_of_bind_eq_ok hlast
        cases hend
        exact absurd ((readOperands_eq_ok hoperands).1 d rfl) hdeclare

/-- With another text of the unread tokens an instruction is the same, or a declaration that shares another
text. -/
theorem Instruction.ofTokens_textOf {textOf : Nat → List Char} (textOf' : Nat → List Char) {i : Instruction N}
    (h : ofTokens textOf tokens = .ok i) :
    ∃ i', ofTokens textOf' tokens = .ok i' ∧
      (i' = i ∨ ∃ d shared, shared <:+ tokens ∧ shared ≠ [] ∧ i' = declaration d ∧
        i = declaration { d with sharing := some (String.ofList (textOf shared.length)) }) := by
  rcases ofTokens_cases tokens with ⟨r, hr, -⟩ | ⟨d, shared, hsuffix, hne, hread⟩
  · exact ⟨i, by rw [hr, ← hr textOf, h], Or.inl rfl⟩
  · rw [hread] at h
    cases h
    exact ⟨_, hread textOf', Or.inr ⟨_, shared, hsuffix, hne, rfl, rfl⟩⟩

end TextOf

/-- A declaration reads back with the comment behind what it shares. -/
theorem Declaration.ofChars_chars {d : Declaration} {text : String} (hname : IsName d.name)
    (hd : d.sharing = some text) (ht : IsTail N text.toList) (line : Nat) :
    Instruction.ofChars (N := N) line d.chars = .ok (.declaration d) := by
  have hphrase := Declaration.phrase_sharing (N := N) (d := { d with sharing := none }) ⟨hname, by simp⟩
  have hend : Text.solidEnd d.chars := by
    rw [Declaration.chars_sharing hd]
    exact Text.solidEnd_append (Text.solidEnd_append ht.solidEnd ht.ne_nil [' ']) (by simp) _
  have hstart : Text.solidStart d.chars := by
    rw [d.chars_eq]
    exact Text.solidStart_append (a := "DECLARE".toList) (by decide) (by decide) _
  have hword : firstWord d.chars = "DECLARE".toList := by
    rw [d.chars_eq]
    exact firstWord_append (by decide) (endsWord_blank _)
  have htokens := hphrase.statementTokens_append ht line
  have htextOf := textOfUnread_append hphrase ht
  rw [← Declaration.chars_sharing (d := d) hd] at htokens htextOf
  refine Instruction.ofChars_of_tokens (Text.trim_eq_self hstart hend) hword (by decide) htokens ?_
  have hread : readDeclaration (N := N) (textOfUnread d.chars ((tokenize (N := N) d.chars).map (·.start))) d.tokens =
      .ok (d, []) := readDeclaration_tokens (by rw [hd]; rintro _ ⟨⟩; exact htextOf)
  have hsplit : (Token.identifier "DECLARE" :: { d with sharing := none }.tokens ++ [.identifier "SHARING"]) ++
      tokensOf (pieces text.toList) = (.identifier "DECLARE" :: d.tokens : List (Token N)) := by
    unfold Declaration.tokens
    rw [hd]
    simp
  rw [hsplit]
  exact bind_eq_ok (readIdentifier_cons _ _) (bind_eq_ok (bind_eq_ok hread rfl) rfl)

namespace Instruction

/-- **Statements that are read read back**: the text of the instruction that a statement on one line is
reads as an equal instruction. -/
theorem ofText_text_of_ofText (laws : LiteralLaws N) {line : Nat} {source : String} {i : Instruction N}
    (hn : '\n' ∉ source.toList) (h : ofText line source = .ok i) :
    ∃ j, ofText line i.text = .ok j ∧ (j == i) = true := by
  have hline : '\n' ∉ Text.trim source.toList := fun hm => hn ((Text.trim_sublist _).subset hm)
  have hstart := Text.solidStart_trim source.toList
  have hend := Text.solidEnd_trim source.toList
  unfold ofText ofChars at h
  unfold ofText text
  rw [String.toList_ofList]
  dsimp only at h
  generalize Text.trim source.toList = statement at *
  split at h
  · next hverbatim =>
    cases h
    have hchars : (other (N := N) (String.ofList statement)).chars = statement := String.toList_ofList
    refine ⟨other (String.ofList statement), ?_, beq_self_eq_true (String.ofList statement)⟩
    unfold ofChars
    dsimp only
    rw [hchars, Text.trim_eq_self hstart hend, if_pos hverbatim]
  · next hverbatim =>
    split at h
    · cases h
    · next tokens htokens =>
      obtain ⟨hpieces, hvalid⟩ := statementTokens_eq_ok htokens
      split at h
      · cases h
      · next read hread =>
        cases h
        -- With some word for the text of unread tokens, no comment is left.
        have hword : IsShared N "x".toList := (Phrase.identifier (by decide)).isShared (by decide)
        obtain ⟨j, hj, hcases⟩ := ofTokens_textOf (fun _ => "x".toList) hread
        have hlegible := ofTokens_legible laws hstart hline hverbatim htokens (fun _ _ _ => hword) hj
        rcases hcases with rfl | ⟨d, shared, hsuffix, hne, rfl, rfl⟩
        · exact ⟨j.reread, ofChars_chars laws hlegible line, reread_beq laws hlegible⟩
        · obtain ⟨ps, cs, t, qs, hsplit, hlen⟩ := exists_piece_of_suffix (hpieces ▸ hsuffix) hne
          obtain ⟨u, hu, htail, -, -⟩ := isTail_textOfUnread laws hend hvalid hsplit
          rw [hlen, hu]
          generalize hd : ({ d with sharing := some (String.ofList u) } : Declaration) = shares
          have hshares : shares.sharing = some (String.ofList u) := by rw [← hd]
          have hname : IsName shares.name := by rw [← hd]; exact hlegible.name
          have hread := Declaration.ofChars_chars (N := N) hname hshares (by rwa [String.toList_ofList]) line
          exact ⟨_, hread, beq_self_eq_true shares⟩

/-- A declaration with a comment behind the region it shares. -/
theorem ofText_text_of_ofText_sharing :
    ∃ i : Instruction Whole, ofText 1 "DECLARE ro BIT[2] SHARING a # b" = .ok i ∧
      ∃ j, ofText 1 i.text = .ok j ∧ (j == i) = true := by
  have hname : (Piece.read 'a' [' ', '#', ' ', 'b'] : Piece Whole × List Char) =
      (.token ['a'] (.identifier "a"), [' ', '#', ' ', 'b']) := by rfl
  have hblank : (Piece.read ' ' ['#', ' ', 'b'] : Piece Whole × List Char) = (.blank [' '], ['#', ' ', 'b']) := by rfl
  have hcomment : (Piece.read '#' [' ', 'b'] : Piece Whole × List Char) = (.comment ['#', ' ', 'b'], []) := by rfl
  have hpieces : (pieces "a # b".toList : List (Piece Whole)) =
      [.token ['a'] (.identifier "a"), .blank [' '], .comment ['#', ' ', 'b']] := by
    have htext : "a # b".toList = ['a', ' ', '#', ' ', 'b'] := by decide
    rw [htext, pieces_cons, hname, pieces_cons, hblank, pieces_cons, hcomment, pieces_nil]
  have htail : IsTail Whole "a # b".toList :=
    ⟨fun cs => by rw [hpieces]; simp, ⟨_, _, _, hpieces⟩, by decide, by decide⟩
  have h : ofText (N := Whole) 1 "DECLARE ro BIT[2] SHARING a # b" =
      .ok (declaration ⟨"ro", .bit, 2, some "a # b"⟩) :=
    Declaration.ofChars_chars (d := ⟨"ro", .bit, 2, some "a # b"⟩) (by decide) rfl htail 1
  exact ⟨_, h, ofText_text_of_ofText Whole.literalLaws (by decide) h⟩

end Instruction

end QuilControl
