import QuilControl.Proofs.Instruction.Legible
import QuilControl.Traverse

/-!
# What the instruction readers give

One lemma for each reader: from legible tokens it gives a legible value and leaves legible tokens.
Readers of single tokens are inverted, so that the ones built from them are taken apart step by step.
-/

namespace QuilControl

variable {N : Type} [Scalar N]

/-- What holds of a list and of one more element holds of them together. -/
theorem forall_mem_concat {α : Type} {P : α → Prop} {as : List α} {a : α} (has : ∀ b ∈ as, P b) (ha : P a) :
    ∀ b ∈ as ++ [a], P b := by
  intro b hb
  rcases List.mem_append.1 hb with hb | hb
  · exact has b hb
  · rw [List.mem_singleton.1 hb]
    exact ha

/-! ## Single tokens -/

section Single

omit [Scalar N]

variable {tokens rest : List (Token N)}

theorem readIdentifier_eq_ok {name : String} (h : readIdentifier tokens = .ok (name, rest)) :
    tokens = .identifier name :: rest := by
  unfold readIdentifier at h
  split at h <;> cases h
  rfl

theorem readString_eq_ok {text : String} (h : readString tokens = .ok (text, rest)) :
    tokens = .string text :: rest := by
  unfold readString at h
  split at h <;> cases h
  rfl

theorem readMark_eq_ok {m : Mark} (h : readMark m tokens = .ok rest) : tokens = .mark m :: rest := by
  unfold readMark at h
  split at h
  · split at h
    · next hm => cases h; rw [hm]
    · cases h
  · cases h

theorem readIndex_eq_ok {index : UInt64} (h : readIndex tokens = .ok (index, rest)) :
    tokens = .int index :: .mark .rightBracket :: rest := by
  unfold readIndex at h
  cases hr : Expr.readIndex tokens with
  | error f => rw [hr] at h; cases h
  | ok read =>
    unfold Expr.readIndex at hr
    split at hr
    · cases hr; cases h; rfl
    · cases hr
    · cases hr

theorem readSlot_eq_ok {slot : MemoryReference} (h : readSlot tokens = .ok (slot, rest)) :
    ∃ behind, tokens = .identifier slot.name :: behind ∧ rest <:+ behind := by
  obtain ⟨⟨name, behind⟩, hname, h⟩ := exists_of_bind_eq_ok h
  rw [readIdentifier_eq_ok hname]
  dsimp only at h
  split at h
  · obtain ⟨⟨index, after⟩, hindex, h⟩ := exists_of_bind_eq_ok h
    cases h
    exact ⟨_, rfl, by rw [readIndex_eq_ok hindex]; exact ⟨[_, _, _], rfl⟩⟩
  · cases h
    exact ⟨_, rfl, List.suffix_refl _⟩

theorem readLength_suffix {length : UInt64} (h : readLength tokens = .ok (length, rest)) : rest <:+ tokens := by
  unfold readLength at h
  split at h
  · rw [readIndex_eq_ok h]
    exact ⟨[_, _, _], rfl⟩
  · cases h
    exact List.suffix_refl _

end Single

theorem LegibleTokens.suffix {tokens rest : List (Token N)} (h : LegibleTokens tokens) (hs : rest <:+ tokens) :
    LegibleTokens rest := fun t ht => h t (hs.subset ht)

/-! ## Qubits, slots and expressions -/

variable {tokens rest : List (Token N)}

theorem readQubits_legible (ht : LegibleTokens tokens) :
    (∀ q ∈ (readQubits tokens).1, q.IsLegible) ∧ LegibleTokens (readQubits tokens).2 := by
  induction tokens with
  | nil => simp [readQubits]
  | cons t ts ih =>
    obtain ⟨hname, hts⟩ := legibleTokens_cons.1 ht
    obtain ⟨hqubits, hrest⟩ := ih hts
    cases t with
    | int index =>
      exact ⟨List.forall_mem_cons.2 ⟨trivial, hqubits⟩, hrest⟩
    | identifier name =>
      exact ⟨List.forall_mem_cons.2 ⟨hname, hqubits⟩, hrest⟩
    | float | string | mark => exact ⟨by simp [readQubits], ht⟩

theorem readSlot_legible {slot : MemoryReference} (ht : LegibleTokens tokens)
    (h : readSlot tokens = .ok (slot, rest)) : slot.IsLegible ∧ LegibleTokens rest := by
  obtain ⟨behind, rfl, hs⟩ := readSlot_eq_ok h
  obtain ⟨hname, hbehind⟩ := legibleTokens_cons.1 ht
  exact ⟨hname, hbehind.suffix hs⟩

theorem readExpr_legible (laws : LiteralLaws N) {e : Expr N} (ht : LegibleTokens tokens)
    (h : readExpr tokens = .ok (e, rest)) : e.IsLegible ∧ LegibleTokens rest := by
  unfold readExpr at h
  cases hr : Expr.readBinary 0 tokens with
  | error f => rw [hr] at h; cases h
  | ok read =>
    rw [hr] at h
    cases h
    exact Expr.readBinary_legible laws ht hr

theorem readExprs_legible (laws : LiteralLaws N) {es : List (Expr N)} (ht : LegibleTokens tokens)
    (h : readExprs tokens = .ok (es, rest)) : (∀ e ∈ es, e.IsLegible) ∧ LegibleTokens rest := by
  fun_induction readExprs tokens generalizing es rest with
  | case1 => cases h
  | case2 => cases h
  | case3 tokens first hfirst after hcomma others tail htail ih =>
    cases h
    obtain ⟨hvalue, hrest⟩ := Expr.readBinary_legible laws ht hfirst
    rw [hcomma] at hrest
    obtain ⟨hothers, htail⟩ := ih (legibleTokens_cons.1 hrest).2 htail
    exact ⟨List.forall_mem_cons.2 ⟨hvalue, hothers⟩, htail⟩
  | case4 tokens first hfirst =>
    cases h
    obtain ⟨hvalue, hrest⟩ := Expr.readBinary_legible laws ht hfirst
    exact ⟨by simpa using hvalue, hrest⟩

theorem readFrame_legible {frame : Frame} (ht : LegibleTokens tokens)
    (h : readFrame tokens = .ok (frame, rest)) : frame.IsLegible ∧ LegibleTokens rest := by
  obtain ⟨hqubits, hbehind⟩ := readQubits_legible ht
  obtain ⟨⟨name, after⟩, hname, h⟩ := exists_of_bind_eq_ok h
  cases h
  rw [readString_eq_ok hname] at hbehind
  obtain ⟨htext, hrest⟩ := legibleTokens_cons.1 hbehind
  exact ⟨⟨hqubits, htext⟩, hrest⟩

/-! ## Operands -/

/-- Unread tokens have a text behind `SHARING`. -/
def SharesText (textOf : Nat → List Char) (tokens : List (Token N)) : Prop :=
  ∀ shared, shared <:+ tokens → shared ≠ [] → IsShared N (textOf shared.length)

theorem readDeclaration_legible {textOf : Nat → List Char} {d : Declaration} (ht : LegibleTokens tokens)
    (hs : SharesText textOf tokens) (h : readDeclaration textOf tokens = .ok (d, rest)) :
    d.IsLegible N ∧ LegibleTokens rest := by
  obtain ⟨⟨name, behind⟩, hname, hrest⟩ := exists_of_bind_eq_ok h
  obtain ⟨⟨keyword, behind'⟩, hkeyword, hlast⟩ := exists_of_bind_eq_ok hrest
  have hbehind := readIdentifier_eq_ok hname
  have hbehind' := readIdentifier_eq_ok hkeyword
  dsimp only at hbehind' hlast
  rw [hbehind, hbehind'] at ht hs
  simp only [legibleTokens_cons] at ht
  split at hlast
  · cases hlast
  obtain ⟨⟨length, after⟩, hlength, hend⟩ := exists_of_bind_eq_ok hlast
  have hsuffix := readLength_suffix hlength
  have hafter := ht.2.2.suffix hsuffix
  dsimp only at hend
  split at hend
  · next word shared =>
    split at hend
    · split at hend
      · cases hend
      · next hne =>
        cases hend
        refine ⟨⟨ht.1, fun text htext => ?_⟩, legibleTokens_nil⟩
        cases htext
        rw [String.toList_ofList]
        refine hs shared ?_ (by simpa using hne)
        exact (List.suffix_cons _ _).trans (hsuffix.trans ⟨[_, _], rfl⟩)
    · cases hend
      exact ⟨⟨ht.1, by simp⟩, hafter⟩
  · cases hend
    exact ⟨⟨ht.1, by simp⟩, hafter⟩

theorem readPragmaArguments_legible (ht : LegibleTokens tokens) :
    (∀ a ∈ (readPragmaArguments tokens).1, a.IsLegible) ∧ LegibleTokens (readPragmaArguments tokens).2 := by
  induction tokens with
  | nil => simp [readPragmaArguments]
  | cons t ts ih =>
    obtain ⟨hname, hts⟩ := legibleTokens_cons.1 ht
    obtain ⟨harguments, hrest⟩ := ih hts
    cases t with
    | int value =>
      exact ⟨List.forall_mem_cons.2 ⟨trivial, harguments⟩, hrest⟩
    | identifier name =>
      exact ⟨List.forall_mem_cons.2 ⟨hname, harguments⟩, hrest⟩
    | float | string | mark => exact ⟨by simp [readPragmaArguments], ht⟩

theorem readPragma_legible {p : Pragma} (ht : LegibleTokens tokens) (h : readPragma tokens = .ok (p, rest)) :
    p.IsLegible ∧ LegibleTokens rest := by
  obtain ⟨⟨name, behind⟩, hread, hend⟩ := exists_of_bind_eq_ok h
  rw [readIdentifier_eq_ok hread] at ht
  obtain ⟨hname, hbehind⟩ := legibleTokens_cons.1 ht
  obtain ⟨harguments, hrest⟩ := readPragmaArguments_legible hbehind
  dsimp only at hend
  split at hend
  · next arguments data after heq =>
    cases hend
    rw [heq] at harguments hrest
    obtain ⟨hdata, hafter⟩ := legibleTokens_cons.1 hrest
    refine ⟨⟨hname, harguments, fun text htext => ?_⟩, hafter⟩
    cases htext
    exact hdata
  · next arguments after _ heq =>
    cases hend
    rw [heq] at harguments hrest
    exact ⟨⟨hname, harguments, by simp⟩, hrest⟩

theorem readCallArguments_legible (laws : LiteralLaws N) {arguments : List (CallArgument N)}
    (ht : LegibleTokens tokens) (h : readCallArguments tokens = .ok arguments) :
    ∀ a ∈ arguments, a.IsLegible := by
  fun_induction readCallArguments tokens generalizing arguments with
  | case1 => cases h; simp
  | case2 name index rest ih =>
    obtain ⟨others, hothers, h⟩ := exists_of_bind_eq_ok h
    cases h
    simp only [legibleTokens_cons] at ht
    exact List.forall_mem_cons.2 ⟨ht.1, ih ht.2.2.2.2 hothers⟩
  | case3 => cases h
  | case4 => cases h
  | case5 name rest _ _ _ ih =>
    obtain ⟨others, hothers, h⟩ := exists_of_bind_eq_ok h
    cases h
    simp only [legibleTokens_cons] at ht
    exact List.forall_mem_cons.2 ⟨ht.1, ih ht.2 hothers⟩
  | case6 value rest ih =>
    obtain ⟨others, hothers, h⟩ := exists_of_bind_eq_ok h
    cases h
    simp only [legibleTokens_cons] at ht
    exact List.forall_mem_cons.2 ⟨Expr.isFinite_ofInt laws value, ih ht.2 hothers⟩
  | case7 value rest ih =>
    obtain ⟨others, hothers, h⟩ := exists_of_bind_eq_ok h
    cases h
    simp only [legibleTokens_cons] at ht
    exact List.forall_mem_cons.2 ⟨ht.1.1, ih ht.2 hothers⟩
  | case8 value rest ih =>
    obtain ⟨others, hothers, h⟩ := exists_of_bind_eq_ok h
    cases h
    simp only [legibleTokens_cons] at ht
    have hvalue := laws.finite_neg _ (Expr.isFinite_ofInt laws value)
    exact List.forall_mem_cons.2 ⟨hvalue, ih ht.2.2 hothers⟩
  | case9 value rest ih =>
    obtain ⟨others, hothers, h⟩ := exists_of_bind_eq_ok h
    cases h
    simp only [legibleTokens_cons] at ht
    exact List.forall_mem_cons.2 ⟨laws.finite_neg _ ht.2.1.1, ih ht.2.2 hothers⟩
  | case10 => cases h
  | case11 => cases h

theorem readCall_legible (laws : LiteralLaws N) {c : Call N} (ht : LegibleTokens tokens)
    (h : readCall tokens = .ok (c, rest)) : c.IsLegible ∧ LegibleTokens rest := by
  obtain ⟨⟨name, behind⟩, hread, hnext⟩ := exists_of_bind_eq_ok h
  rw [readIdentifier_eq_ok hread] at ht
  obtain ⟨hname, hbehind⟩ := legibleTokens_cons.1 ht
  obtain ⟨arguments, harguments, hend⟩ := exists_of_bind_eq_ok hnext
  cases hend
  exact ⟨⟨hname, readCallArguments_legible laws hbehind harguments⟩, legibleTokens_nil⟩

theorem readMeasurement_legible {m : Measurement} (ht : LegibleTokens tokens)
    (h : readMeasurement tokens = .ok (m, rest)) : m.IsLegible ∧ LegibleTokens rest := by
  have into (qubit : Qubit) {behind : List (Token N)} (hq : qubit.IsLegible) (hb : LegibleTokens behind)
      (h : (readSlot behind >>= fun slot => pure (⟨qubit, some slot.1⟩, slot.2)) = Except.ok (m, rest)) :
      m.IsLegible ∧ LegibleTokens rest := by
    obtain ⟨⟨target, after⟩, htarget, hend⟩ := exists_of_bind_eq_ok h
    cases hend
    obtain ⟨hslot, hafter⟩ := readSlot_legible hb htarget
    exact ⟨⟨hq, by simpa using hslot⟩, hafter⟩
  cases tokens with
  | nil => cases h
  | cons t behind =>
    obtain ⟨hname, hbehind⟩ := legibleTokens_cons.1 ht
    cases t with
    | int index =>
      cases behind with
      | nil => cases h; exact ⟨⟨trivial, by simp⟩, legibleTokens_nil⟩
      | cons => exact into (.fixed index) trivial hbehind h
    | identifier name =>
      cases behind with
      | nil => cases h; exact ⟨⟨hname, by simp⟩, legibleTokens_nil⟩
      | cons => exact into (.named name) hname hbehind h
    | float | string | mark => cases h

theorem readDelay_legible (laws : LiteralLaws N) {qubits : List Qubit} {frames : List String} {d : Delay N}
    (ht : LegibleTokens tokens) (hq : ∀ q ∈ qubits, q.IsLegible) (hf : ∀ f ∈ frames, IsQuotable f)
    (h : readDelay qubits frames tokens = .ok d) : d.IsLegible := by
  fun_induction readDelay qubits frames tokens with
  | case1 => cases h
  | case2 qubits frames value =>
    cases h
    exact ⟨hq, hf, Expr.isFinite_ofInt laws value, laws.nonnegative_ofNat _⟩
  | case3 qubits frames index rest _ hframes ih =>
    exact ih (legibleTokens_cons.1 ht).2 (forall_mem_concat hq trivial) hf h
  | case4 => cases h
  | case5 qubits frames name rest hframes ih =>
    obtain ⟨hname, hrest⟩ := legibleTokens_cons.1 ht
    exact ih hrest (forall_mem_concat hq hname) hf h
  | case6 => cases h
  | case7 qubits frames name rest ih =>
    obtain ⟨hname, hrest⟩ := legibleTokens_cons.1 ht
    exact ih hrest hq (forall_mem_concat hf hname) h
  | case8 qubits frames value =>
    cases h
    obtain ⟨hvalue, -⟩ := legibleTokens_cons.1 ht
    exact ⟨hq, hf, hvalue.1, hvalue.2⟩
  | case9 => cases h
  | case10 => cases h

/-! ## Gates -/

omit [Scalar N] in
theorem readModifiers_eq_ok {word name : String} {modifiers : List GateModifier}
    (h : readModifiers word tokens = .ok ((modifiers, name), rest)) :
    GateModifier.ofKeyword? name = none ∧
      ((modifiers = [] ∧ name = word ∧ rest = tokens) ∨
        ∃ behind, tokens = behind ++ .identifier name :: rest ∧ modifiers ≠ []) := by
  fun_induction readModifiers word tokens generalizing modifiers name rest with
  | case1 word tokens hnone =>
    cases h
    exact ⟨hnone, Or.inl ⟨rfl, rfl, rfl⟩⟩
  | case2 word modifier _ next tail ih =>
    obtain ⟨⟨⟨others, last⟩, after⟩, hothers, hend⟩ := exists_of_bind_eq_ok h
    cases hend
    obtain ⟨hnone, ⟨rfl, rfl, rfl⟩ | ⟨behind, rfl, -⟩⟩ := ih hothers
    · exact ⟨hnone, Or.inr ⟨[], rfl, List.cons_ne_nil _ _⟩⟩
    · exact ⟨hnone, Or.inr ⟨.identifier next :: behind, rfl, List.cons_ne_nil _ _⟩⟩
  | case3 => cases h

theorem readParameters_legible (laws : LiteralLaws N) {es : List (Expr N)} (ht : LegibleTokens tokens)
    (h : readParameters tokens = .ok (es, rest)) : (∀ e ∈ es, e.IsLegible) ∧ LegibleTokens rest := by
  unfold readParameters at h
  split at h
  · obtain ⟨⟨parameters, behind⟩, hparameters, hnext⟩ := exists_of_bind_eq_ok h
    obtain ⟨after, hmark, hend⟩ := exists_of_bind_eq_ok hnext
    cases hend
    obtain ⟨hes, hbehind⟩ := readExprs_legible laws (legibleTokens_cons.1 ht).2 hparameters
    rw [readMark_eq_ok hmark] at hbehind
    exact ⟨hes, (legibleTokens_cons.1 hbehind).2⟩
  · cases h
    exact ⟨by simp, ht⟩

/-- Behind the name of a gate stand parameters or a qubit. -/
def opensOperands : List (Token N) → Prop
  | .mark .leftParen :: _ => True
  | .int _ :: _ => True
  | .identifier _ :: _ => True
  | _ => False

theorem readGate_legible (laws : LiteralLaws N) {word : String} {g : Gate N} (hword : IsName word)
    (ht : LegibleTokens tokens) (h : readGate word tokens = .ok (g, rest)) :
    (IsName g.name ∧ GateModifier.ofKeyword? g.name = none ∧ (∀ e ∈ g.parameters, e.IsLegible) ∧
        (∀ q ∈ g.qubits, q.IsLegible) ∧ g.qubits ≠ []) ∧
      (g.modifiers = [] → g.name = word ∧ opensOperands tokens) ∧ LegibleTokens rest := by
  obtain ⟨⟨⟨modifiers, name⟩, behind⟩, hmodifiers, hnext⟩ := exists_of_bind_eq_ok h
  obtain ⟨⟨parameters, behind'⟩, hparameters, hlast⟩ := exists_of_bind_eq_ok hnext
  obtain ⟨hnone, hcases⟩ := readModifiers_eq_ok hmodifiers
  have hname : IsName name ∧ LegibleTokens behind := by
    rcases hcases with ⟨-, rfl, rfl⟩ | ⟨front, rfl, -⟩
    · exact ⟨hword, ht⟩
    · have htail : LegibleTokens (.identifier name :: behind) := ht.suffix ⟨front, rfl⟩
      exact legibleTokens_cons.1 htail
  obtain ⟨hes, hbehind'⟩ := readParameters_legible laws hname.2 hparameters
  obtain ⟨hqubits, hrest⟩ := readQubits_legible hbehind'
  dsimp only at hlast
  split at hlast
  · cases hlast
  · next qubits after hne heq =>
    cases hlast
    rw [heq] at hqubits hrest
    refine ⟨⟨hname.1, hnone, hes, hqubits, fun hnil => hne (by rw [← hnil])⟩, ?_, hrest⟩
    intro hnil
    rcases hcases with ⟨-, rfl, rfl⟩ | ⟨front, -, hcons⟩
    · refine ⟨rfl, ?_⟩
      unfold readParameters at hparameters
      split at hparameters
      · trivial
      · cases hparameters
        unfold readQubits at heq
        split at heq
        · trivial
        · trivial
        · cases heq
          exact absurd rfl hne
    · exact absurd hnil hcons

/-! ## Statements -/

theorem readFrameUpdate_legible (laws : LiteralLaws N) {update : FrameUpdate} {i : Instruction N}
    (ht : LegibleTokens tokens) (h : readFrameUpdate update tokens = .ok (i, rest)) :
    i.IsLegible ∧ LegibleTokens rest := by
  obtain ⟨⟨frame, behind⟩, hframe, hnext⟩ := exists_of_bind_eq_ok h
  obtain ⟨⟨value, behind'⟩, hvalue, hend⟩ := exists_of_bind_eq_ok hnext
  cases hend
  obtain ⟨hframe, hbehind⟩ := readFrame_legible ht hframe
  obtain ⟨hvalue, hrest⟩ := readExpr_legible laws hbehind hvalue
  exact ⟨⟨hframe, hvalue⟩, hrest⟩

/-- What follows the first word. The word may open a gate only if it opens no instruction that is kept
as its text. -/
theorem readOperands_legible (laws : LiteralLaws N) {textOf : Nat → List Char} {keyword : String}
    {i : Instruction N} (hk : IsName keyword) (ht : LegibleTokens tokens) (hs : SharesText textOf tokens)
    (hv : opensOperands tokens → keyword ∉ verbatimKeywords)
    (h : readOperands textOf keyword tokens = .ok (i, rest)) : i.IsLegible ∧ LegibleTokens rest := by
  unfold readOperands at h
  split at h
  · obtain ⟨⟨d, after⟩, hd, hend⟩ := exists_of_bind_eq_ok h
    cases hend
    exact readDeclaration_legible ht hs hd
  · obtain ⟨⟨p, after⟩, hp, hend⟩ := exists_of_bind_eq_ok h
    cases hend
    exact readPragma_legible ht hp
  · obtain ⟨⟨c, after⟩, hc, hend⟩ := exists_of_bind_eq_ok h
    cases hend
    exact readCall_legible laws ht hc
  · obtain ⟨⟨m, after⟩, hm, hend⟩ := exists_of_bind_eq_ok h
    cases hend
    exact readMeasurement_legible ht hm
  · cases h
    exact readQubits_legible ht
  · obtain ⟨d, hd, hend⟩ := exists_of_bind_eq_ok h
    cases hend
    exact ⟨readDelay_legible laws ht (by simp) (by simp) hd, legibleTokens_nil⟩
  · next h1 h2 h3 h4 h5 h6 =>
    split at h
    · exact readFrameUpdate_legible laws ht h
    · next hupdate =>
      obtain ⟨⟨g, after⟩, hg, hend⟩ := exists_of_bind_eq_ok h
      cases hend
      obtain ⟨⟨hname, hnone, hes, hqubits, hne⟩, hword, hrest⟩ := readGate_legible laws hk ht hg
      refine ⟨⟨hname, hnone, hes, hqubits, hne, fun hnil => ?_⟩, hrest⟩
      obtain ⟨heq, hopens⟩ := hword hnil
      rw [heq]
      refine ⟨fun hm => ?_, hupdate, hv hopens⟩
      simp only [operandKeywords, List.mem_cons, List.not_mem_nil, or_false] at hm
      rcases hm with hm | hm | hm | hm | hm | hm
      · exact h1 hm
      · exact h2 hm
      · exact h3 hm
      · exact h4 hm
      · exact h5 hm
      · exact h6 hm

theorem isNameChar_of_readName {text : List Char} {d : Char} {more : List Char}
    (h : (readName text).2 = d :: more) : isNameChar d = false := by
  fun_induction readName text with
  | case1 => cases h
  | case2 c rest hc ih => exact ih h
  | case3 c rest hc =>
    cases h
    decide
  | case4 c rest _ hc ih => exact ih h
  | case5 c rest _ hc =>
    cases h
    exact Bool.eq_false_iff.2 hc

/-- The first word of a text ends at white space and at a parenthesis. -/
theorem firstWord_append {name tail : List Char} (hname : isIdentifier name = true)
    (htail : ∀ c ∈ tail.head?, Text.isWhiteSpace c = true ∨ c = '(') : firstWord (name ++ tail) = name := by
  have hchars : ∀ c ∈ name, (!(Text.isWhiteSpace c || c = '(')) = true := by
    intro c hc
    rcases isNameChar_of_isIdentifier hname c hc with hn | rfl
    · have hparen : c ≠ '(' := by
        rintro rfl
        exact absurd hn (by decide)
      simp [not_isWhiteSpace_of_isNameChar hn, hparen]
    · decide
  unfold firstWord
  rw [List.takeWhile_append_of_pos hchars]
  cases tail with
  | nil => simp
  | cons d more =>
    rcases htail d rfl with hd | rfl
    · simp [hd]
    · simp

/-- The first word of a gate is its first token. -/
theorem firstWord_eq {text : List Char} {name : String} (hs : Text.solidStart text) (hn : '\n' ∉ text)
    (hvalid : ∀ cs, Piece.invalid cs ∉ (pieces text : List (Piece N)))
    (ht : tokensOf (pieces text) = .identifier name :: tokens) (hopens : opensOperands tokens) :
    firstWord text = name.toList := by
  -- A comment ends a text on one line, so no token follows it.
  have hcomment {more : List Char} (hm : '\n' ∉ more) :
      tokensOf (pieces (more.dropWhile (· ≠ '\n')) : List (Piece N)) = [] := by
    have hdrop : more.dropWhile (· ≠ '\n') = [] :=
      List.dropWhile_eq_nil_iff.2 fun c hc => decide_eq_true (ne_of_mem_of_not_mem hc hm)
    rw [hdrop, pieces_nil, tokensOf_nil]
  cases text with
  | nil => rw [pieces_nil] at ht; cases ht
  | cons c rest =>
    rw [pieces_cons] at hvalid ht
    have hread := Piece.reads (N := N) c rest
    generalize (Piece.read (N := N) c rest).1 = first at *
    generalize (Piece.read (N := N) c rest).2 = tail at *
    have hrest : '\n' ∉ rest := fun hm => hn (List.mem_cons_of_mem _ hm)
    cases hread with
    | blank hc =>
      have hwhite := hs c rfl
      rw [isWhiteSpace_of_isSeparator hc] at hwhite
      cases hwhite
    | comment => rw [tokensOf_comment, hcomment hrest] at ht; cases ht
    | openString | outOfRange | stray => exact absurd List.mem_cons_self (hvalid _)
    | string | int | float | mark => cases ht
    | name hc =>
      rw [tokensOf_token] at ht
      obtain ⟨hname, htail⟩ := List.cons.inj ht
      cases hname
      rw [String.toList_ofList]
      have happend : c :: rest = (c :: (readName rest).1) ++ (readName rest).2 := by
        rw [List.cons_append, Piece.readName_append]
      have hline : '\n' ∉ (readName rest).2 := fun hm => hn (happend ▸ List.mem_append_right _ hm)
      rw [happend]
      refine firstWord_append (readName_isIdentifier hc rest) fun d hd => ?_
      have hstop : ∀ more, (readName rest).2 = d :: more → isNameChar d = false := fun more hm =>
        isNameChar_of_readName hm
      generalize (readName rest).2 = tail at *
      cases tail with
      | nil => cases hd
      | cons e more =>
        cases hd
        have hd := hstop more rfl
        have hmore : '\n' ∉ more := fun hm => hline (List.mem_cons_of_mem _ hm)
        rw [pieces_cons] at hvalid htail
        have hread := Piece.reads (N := N) d more
        generalize (Piece.read (N := N) d more).1 = second at *
        generalize (Piece.read (N := N) d more).2 = after at *
        cases hread with
        | blank hb => exact Or.inl (isWhiteSpace_of_isSeparator hb)
        | comment =>
          rw [tokensOf_comment, hcomment hmore] at htail
          rw [← htail] at hopens
          cases hopens
        | openString | outOfRange | stray =>
          exact absurd (List.mem_cons_of_mem _ List.mem_cons_self) (hvalid _)
        | string | float => rw [← htail] at hopens; cases hopens
        | int hdigit => rw [isNameChar_of_isDigit hdigit] at hd; cases hd
        | name hn => rw [isNameChar_of_isNameStart hn] at hd; cases hd
        | @mark m hm =>
          rw [← htail] at hopens
          cases m with
          | leftParen => exact Or.inr hm.symm
          | _ => cases hopens

theorem sharesText_of_isStatement (laws : LiteralLaws N) {text : List Char} (hs : IsStatement text)
    (hp : ∀ p ∈ (pieces text : List (Piece N)), p.isPlain = true) :
    SharesText (textOfUnread text ((tokenize (N := N) text).map (·.start)))
      (tokensOf (pieces text : List (Piece N))) := by
  intro shared hsuffix hne
  obtain ⟨ps, cs, t, qs, hsplit, hlen⟩ := exists_piece_of_suffix hsuffix hne
  rw [hlen]
  exact isShared_textOfUnread laws hs hsplit hp

/-- The tokens of a text on one line can be written again. -/
theorem legibleTokens_of_oneLine (laws : LiteralLaws N) {line : Nat} {text : List Char} {tokens : List (Token N)}
    (hn : '\n' ∉ text) (h : statementTokens line text = .ok tokens) : LegibleTokens tokens := by
  obtain ⟨rfl, -⟩ := statementTokens_eq_ok h
  intro t ht
  obtain ⟨piece, hpiece, htoken⟩ := List.mem_filterMap.1 ht
  cases piece with
  | token cs u =>
    cases htoken
    exact (isLegible_of_mem_pieces laws hpiece).2.2 hn
  | blank | comment | invalid => cases htoken

/-- What the tokens of a statement are read as can be written again, when the statement is not kept as its
text. -/
theorem Instruction.ofTokens_legible (laws : LiteralLaws N) {text : List Char} {textOf : Nat → List Char}
    {line : Nat} {i : Instruction N} (hs : Text.solidStart text) (hn : '\n' ∉ text)
    (hv : ¬ verbatimKeywords.contains (String.ofList (firstWord text)) = true)
    (ht : statementTokens line text = .ok tokens) (hshares : SharesText textOf tokens)
    (h : Instruction.ofTokens textOf tokens = .ok i) : i.IsLegible := by
  have hlegible := legibleTokens_of_oneLine laws hn ht
  obtain ⟨hpieces, hvalid⟩ := statementTokens_eq_ok ht
  obtain ⟨⟨keyword, behind⟩, hkeyword, hnext⟩ := exists_of_bind_eq_ok h
  obtain ⟨⟨read, after⟩, hoperands, hlast⟩ := exists_of_bind_eq_ok hnext
  obtain ⟨_, -, hend⟩ := exists_of_bind_eq_ok hlast
  cases hend
  have htokens := readIdentifier_eq_ok hkeyword
  rw [htokens] at hlegible hshares hpieces
  obtain ⟨hk, hbehind⟩ := legibleTokens_cons.1 hlegible
  refine (readOperands_legible laws hk hbehind ?_ ?_ hoperands).1
  · intro shared hsuffix hne
    exact hshares shared (hsuffix.trans (List.suffix_cons _ _)) hne
  · intro hopens hm
    have hword := firstWord_eq hs hn hvalid hpieces.symm hopens
    rw [hword, String.ofList_toList] at hv
    exact hv (by simpa using hm)

/-- What a statement is read as can be written again. -/
theorem Instruction.ofChars_legible (laws : LiteralLaws N) {line : Nat} {text : List Char}
    {i : Instruction N} (hs : IsStatement (Text.trim text)) (h : Instruction.ofChars line text = .ok i) :
    i.IsLegible := by
  unfold Instruction.ofChars at h
  dsimp only at h
  split at h
  · next hverbatim =>
    cases h
    refine ⟨?_, ?_⟩
    · rw [String.toList_ofList]
      exact hs
    · rw [String.toList_ofList]
      simpa using hverbatim
  · next hverbatim =>
    split at h
    · cases h
    · next tokens htokens =>
      obtain ⟨htext, hinvalid⟩ := statementTokens_eq_ok htokens
      have hp := isPlain_of_onlyInStrings laws hs.uncommented hinvalid
      have hshares := sharesText_of_isStatement laws hs hp
      split at h
      · cases h
      · next instruction hof =>
        cases h
        exact ofTokens_legible laws hs.solidStart hs.oneLine hverbatim htokens (htext ▸ hshares) hof

end QuilControl
