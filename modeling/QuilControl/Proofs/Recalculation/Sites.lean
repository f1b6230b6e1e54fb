import Mathlib.Data.List.Forall2
import QuilControl.Recalculation.Substitution

/-!
# Where the arithmetic of a program goes

The sites of a program are its gate parameters, phases, scales and frequencies, in order. Moving the
arithmetic out turns every site into another one, for the same quantity: a literal stays, anything
else becomes a slot, and the table has the text of its converted form under the number of the slot.

`Substitutes` is what one step does to sites and the table, and it composes: the table only grows,
so a slot keeps its text (`Substitutes.append`). From the step for one instruction follows the whole
program (`Program.substitutes`).
-/

namespace QuilControl

variable {N : Type}

/-! ## Sites -/

/-- What a number at a site stands for. -/
inductive Quantity where
  | angle
  | scale
  /-- A frequency of a frame. -/
  | frequency (frame : Frame)

/-- A place with an expression that the sequencer takes in units of its own. -/
structure Site (N : Type) where
  quantity : Quantity
  expr : Expr N

def FrameUpdate.quantity (frame : Frame) : FrameUpdate → Quantity
  | setPhase | shiftPhase => .angle
  | setScale => .scale
  | setFrequency | shiftFrequency => .frequency frame

def Instruction.sites : Instruction N → List (Site N)
  | .gate g => g.parameters.map (⟨.angle, ·⟩)
  | .frameUpdate update frame value => [⟨update.quantity frame, value⟩]
  | _ => []

def Program.sites (p : Program N) : List (Site N) := p.body.flatMap Instruction.sites

variable [Scalar N]

/-- The converted form of an expression for a quantity. -/
def Quantity.convert (p : Program N) (e : Expr N) : Quantity → Except SubstitutionError (Expr N)
  | angle => .ok (toTurns e)
  | scale => .ok (toEighths e)
  | frequency frame => toSamples p frame e

theorem FrameUpdate.convert_eq (p : Program N) (frame : Frame) (e : Expr N) (update : FrameUpdate) :
    update.convert p frame e = (update.quantity frame).convert p e := by
  cases update <;> rfl

omit [Scalar N] in
/-- A converted frequency is less the center frequency of the first definition of its frame, if that has
one, and over the sample rate there. -/
theorem exists_of_toSamples_eq_ok {p : Program N} {frame : Frame} {e c : Expr N}
    (h : toSamples p frame e = .ok c) :
    ∃ d rate, p.frame? frame = some d ∧ d.attribute? "SAMPLE-RATE" = some (.expression rate) ∧
      ((∃ center, d.attribute? "CENTER-FREQUENCY" = some (.expression center) ∧ c = (e - center) / rate) ∨
        (∀ center, d.attribute? "CENTER-FREQUENCY" ≠ some (.expression center)) ∧ c = e / rate) := by
  unfold toSamples at h
  split at h
  · cases h
  · next d hd =>
    split at h
    · cases h
    · cases h
    · next rate hrate =>
      refine ⟨d, rate, hd, hrate, ?_⟩
      split at h
      · next center hcenter =>
        cases h
        exact Or.inl ⟨center, hcenter, rfl⟩
      · next hcenter =>
        cases h
        exact Or.inr ⟨hcenter, rfl⟩

/-- The site needs a slot, with this text in the table. -/
def Site.Enters (p : Program N) (s : Site N) (text : String) : Prop :=
  s.expr.simplify.isNumber = false ∧
    ∃ c, s.quantity.convert p s.expr.simplify = .ok c ∧ text = c.simplify.text

/-- What stands at a site afterwards: its literal, or a slot that the table has its text for. -/
def Site.Becomes (p : Program N) (table : RecalculationTable) (s t : Site N) : Prop :=
  t.quantity = s.quantity ∧
    ((s.expr.simplify.isNumber = true ∧ t.expr = s.expr.simplify) ∨
      ∃ k text, t.expr = substitutionSlot k ∧ table[k]? = some text ∧ s.Enters p text)

/-! ## The table -/

namespace RecalculationTable

variable (table : RecalculationTable) (text : String)

theorem prefix_slot : table <+: (table.slot text).2 := by
  unfold slot
  split
  · exact List.prefix_refl table
  · exact List.prefix_append table [text]

theorem getElem?_slot : (table.slot text).2[(table.slot text).1]? = some text := by
  unfold slot
  split
  · next k hk =>
    obtain ⟨hlt, htext, -⟩ := List.findIdx?_eq_some_iff_getElem.1 hk
    rw [List.getElem?_eq_getElem hlt, of_decide_eq_true htext]
  · simp

theorem mem_slot {t : String} (h : t ∈ (table.slot text).2) : t ∈ table ∨ t = text := by
  unfold slot at h
  split at h
  · exact Or.inl h
  · simpa using h

end RecalculationTable

/-! ## Steps and runs -/

/-- An angle that simplifies to a literal stays as this. -/
theorem substituteAngle_of_isNumber {table : RecalculationTable} {e : Expr N}
    (h : e.simplify.isNumber = true) : substituteAngle table e = (e.simplify, table) := if_pos h

theorem substituteAngle_of_not_isNumber {table : RecalculationTable} {e : Expr N}
    (h : e.simplify.isNumber = false) : substituteAngle table e = allocate table (toTurns e.simplify) :=
  if_neg (Bool.eq_false_iff.1 h)

/-- A phase, scale or frequency that simplifies to a literal stays as this, and its frame is not looked up. -/
theorem substituteInstruction_of_isNumber {p : Program N} {table : RecalculationTable} {update : FrameUpdate}
    {frame : Frame} {value : Expr N} (h : value.simplify.isNumber = true) :
    substituteInstruction p table (.frameUpdate update frame value) =
      .ok (.frameUpdate update frame value.simplify, table) := if_pos h

/-- What a step does to a frame update: a literal stays, any other value gets the slot of its converted
form. -/
theorem substituteInstruction_frameUpdate {p : Program N} {table table' : RecalculationTable}
    {update : FrameUpdate} {frame : Frame} {value : Expr N} {i' : Instruction N}
    (h : substituteInstruction p table (.frameUpdate update frame value) = .ok (i', table')) :
    (value.simplify.isNumber = true ∧ i' = .frameUpdate update frame value.simplify ∧ table' = table) ∨
      ∃ c, value.simplify.isNumber = false ∧ (update.quantity frame).convert p value.simplify = .ok c ∧
        i' = .frameUpdate update frame (allocate table c).1 ∧ table' = (allocate table c).2 := by
  by_cases hn : value.simplify.isNumber = true
  · rw [substituteInstruction_of_isNumber hn] at h
    cases h
    exact Or.inl ⟨hn, rfl, rfl⟩
  · simp only [substituteInstruction] at h
    rw [if_neg hn, update.convert_eq] at h
    cases hc : (update.quantity frame).convert p value.simplify with
    | error e => rw [hc] at h; cases h
    | ok c =>
      rw [hc] at h
      cases h
      exact Or.inr ⟨c, Bool.eq_false_iff.2 hn, rfl, rfl, rfl⟩

/-- A run over instructions is a step for the first and a run over the others. -/
theorem substituteBody_cons {p : Program N} {table table' : RecalculationTable} {i : Instruction N}
    {is is' : List (Instruction N)} (h : substituteBody p table (i :: is) = .ok (is', table')) :
    ∃ first next others, substituteInstruction p table i = .ok (first, next) ∧
      substituteBody p next is = .ok (others, table') ∧ is' = first :: others := by
  simp only [substituteBody] at h
  cases hi : substituteInstruction p table i with
  | error e => rw [hi] at h; cases h
  | ok step =>
    rw [hi] at h
    dsimp only at h
    cases hb : substituteBody p step.2 is with
    | error e => rw [hb] at h; cases h
    | ok run =>
      rw [hb] at h
      cases h
      exact ⟨step.1, step.2, run.1, rfl, hb, rfl⟩

/-- What becomes of a program: its body and the table come from a run over the body. -/
theorem Program.of_substituteArithmetic_eq_ok {p : Program N} {q : Substituted N}
    (h : p.substituteArithmetic = .ok q) :
    substituteBody p [] p.body = .ok (q.program.body, q.table) ∧
      q.program.definitions = p.definitions ∧ q.program.frames = p.frames ∧
      q.program.declarations =
        if q.table.isEmpty then p.declarations else substitutionDeclaration q.table :: p.declarations := by
  unfold substituteArithmetic at h
  split at h
  · cases h
  split at h
  · cases h
  · next body table hb =>
    cases h
    exact ⟨hb, rfl, rfl, rfl⟩

/-- A step of the substitution: the sites become others, the table grows, and only texts that one of
the sites enters are new in it. -/
structure Substitutes (p : Program N) (table : RecalculationTable) (sites sites' : List (Site N))
    (table' : RecalculationTable) : Prop where
  grows : table <+: table'
  becomes : List.Forall₂ (Site.Becomes p table') sites sites'
  entered : ∀ text ∈ table', text ∈ table ∨ ∃ s ∈ sites, s.Enters p text

theorem Site.Becomes.mono {p : Program N} {table table' : RecalculationTable} {s t : Site N}
    (h : s.Becomes p table t) (hg : table <+: table') : s.Becomes p table' t := by
  obtain ⟨hq, hn | ⟨k, text, ht, hk, he⟩⟩ := h
  · exact ⟨hq, Or.inl hn⟩
  · obtain ⟨tail, rfl⟩ := hg
    have hlt := (List.getElem?_eq_some_iff.1 hk).1
    exact ⟨hq, Or.inr ⟨k, text, ht, by rw [List.getElem?_append_left hlt, hk], he⟩⟩

namespace Substitutes

variable {p : Program N} {table table' table'' : RecalculationTable}

theorem nil : Substitutes p table [] [] table :=
  ⟨List.prefix_refl table, .nil, fun _ h => Or.inl h⟩

theorem append {ss ss' us us' : List (Site N)} (h : Substitutes p table ss ss' table')
    (h' : Substitutes p table' us us' table'') :
    Substitutes p table (ss ++ us) (ss' ++ us') table'' where
  grows := h.grows.trans h'.grows
  becomes := List.rel_append (h.becomes.imp fun _ _ hb => hb.mono h'.grows) h'.becomes
  entered := by
    intro text ht
    rcases h'.entered text ht with ht' | ⟨s, hs, he⟩
    · rcases h.entered text ht' with ht'' | ⟨s, hs, he⟩
      · exact Or.inl ht''
      · exact Or.inr ⟨s, List.mem_append_left _ hs, he⟩
    · exact Or.inr ⟨s, List.mem_append_right _ hs, he⟩

/-- A literal stays. -/
theorem literal {s : Site N} (h : s.expr.simplify.isNumber = true) :
    Substitutes p table [s] [⟨s.quantity, s.expr.simplify⟩] table where
  grows := List.prefix_refl table
  becomes := .cons ⟨rfl, Or.inl ⟨h, rfl⟩⟩ .nil
  entered := fun _ ht => Or.inl ht

/-- Anything else gets the slot of its converted form. -/
theorem slot {s : Site N} {c : Expr N} (h : s.expr.simplify.isNumber = false)
    (hc : s.quantity.convert p s.expr.simplify = .ok c) :
    Substitutes p table [s] [⟨s.quantity, (allocate table c).1⟩] (allocate table c).2 where
  grows := table.prefix_slot c.simplify.text
  becomes :=
    .cons ⟨rfl, Or.inr ⟨_, _, rfl, table.getElem?_slot c.simplify.text, h, c, hc, rfl⟩⟩ .nil
  entered := by
    intro text ht
    rcases table.mem_slot c.simplify.text ht with ht | rfl
    · exact Or.inl ht
    · exact Or.inr ⟨s, List.mem_cons_self, h, c, hc, rfl⟩

theorem angle (e : Expr N) :
    Substitutes p table [⟨.angle, e⟩] [⟨.angle, (substituteAngle table e).1⟩]
      (substituteAngle table e).2 := by
  cases hn : e.simplify.isNumber with
  | true =>
    rw [substituteAngle_of_isNumber hn]
    exact literal (s := ⟨.angle, e⟩) hn
  | false =>
    rw [substituteAngle_of_not_isNumber hn]
    exact slot (s := ⟨.angle, e⟩) hn rfl

theorem angles (es : List (Expr N)) :
    Substitutes p table (es.map (⟨.angle, ·⟩)) ((substituteAngles table es).1.map (⟨.angle, ·⟩))
      (substituteAngles table es).2 := by
  induction es generalizing table with
  | nil => exact nil
  | cons e es ih => exact (angle e).append ih

/-- One instruction. -/
theorem instruction {i i' : Instruction N} (h : substituteInstruction p table i = .ok (i', table')) :
    Substitutes p table i.sites i'.sites table' := by
  cases i with
  | gate g =>
    simp only [substituteInstruction, Except.ok.injEq, Prod.mk.injEq] at h
    obtain ⟨rfl, rfl⟩ := h
    exact angles g.parameters
  | frameUpdate update frame value =>
    rcases substituteInstruction_frameUpdate h with ⟨hn, rfl, rfl⟩ | ⟨c, hn, hc, rfl, rfl⟩
    · exact literal (s := ⟨update.quantity frame, value⟩) hn
    · exact slot (s := ⟨update.quantity frame, value⟩) hn hc
  | declaration | pragma | call | measurement | fence | delay | other =>
    cases h
    exact nil

/-- A run over instructions. -/
theorem body {is is' : List (Instruction N)} (h : substituteBody p table is = .ok (is', table')) :
    Substitutes p table (is.flatMap Instruction.sites) (is'.flatMap Instruction.sites) table' := by
  induction is generalizing table is' with
  | nil => cases h; exact nil
  | cons i is ih =>
    obtain ⟨first, next, others, hi, hb, rfl⟩ := substituteBody_cons h
    exact (instruction hi).append (ih hb)

end Substitutes

/-- Every site of a program becomes its literal or a slot, and the table has just the texts that
these slots need. -/
theorem Program.substitutes {p : Program N} {q : Substituted N} (h : p.substituteArithmetic = .ok q) :
    Substitutes p [] p.sites q.program.sites q.table :=
  Substitutes.body (Program.of_substituteArithmetic_eq_ok h).1

end QuilControl
