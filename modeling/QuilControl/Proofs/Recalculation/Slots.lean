import Mathlib.Data.List.Induction
import QuilControl.Proofs.Recalculation.Patching

/-!
# The slots of a program without arithmetic

A table lists the texts that the sites of a program enter, each where it comes first
(`Program.table_eq_eraseDups`): every step of the substitution looks its text up and appends it only
when it is new, which is how the repetitions of a list are erased from the left. So the number of a
slot is the place of its text among the distinct ones, and the shape of the new program follows
(`Program.shape_substituteArithmetic`): read from left to right, the slots occur first in the order of
their numbers, two sites share one just when they enter the same text, and nothing but the sites has
changed in the body.
-/

namespace QuilControl

/-! ## First occurrences -/

section FirstOccurrences

variable {α : Type} [DecidableEq α] (xs : List α)

theorem eraseDups_concat (x : α) :
    (xs ++ [x]).eraseDups = if x ∈ xs then xs.eraseDups else xs.eraseDups ++ [x] := by
  rw [List.eraseDups_append]
  by_cases hx : x ∈ xs <;> simp [List.removeAll, List.eraseDups_cons, hx]

theorem nodup_eraseDups : xs.eraseDups.Nodup := by
  induction xs using List.reverseRecOn with
  | nil => exact List.nodup_nil
  | append_singleton xs x ih =>
    rw [eraseDups_concat]
    by_cases hx : x ∈ xs
    · rwa [if_pos hx]
    · rw [if_neg hx]
      refine List.nodup_append.2 ⟨ih, by simp, fun a ha b hb hab => ?_⟩
      rw [hab, List.mem_singleton.1 hb, List.mem_eraseDups] at ha
      exact hx ha

/-- The places of the values among the distinct ones occur first in order. -/
theorem eraseDups_map_idxOf :
    (xs.map xs.eraseDups.idxOf).eraseDups = List.range xs.eraseDups.length := by
  induction xs using List.reverseRecOn with
  | nil => rfl
  | append_singleton xs x ih =>
    rw [eraseDups_concat]
    by_cases hx : x ∈ xs
    · rw [if_pos hx, List.map_append, List.map_singleton, eraseDups_concat,
        if_pos (List.mem_map_of_mem hx), ih]
    · have hold : xs.map (xs.eraseDups ++ [x]).idxOf = xs.map xs.eraseDups.idxOf := by
        apply List.map_congr_left
        intro y hy
        exact List.idxOf_append_of_mem (List.mem_eraseDups.2 hy)
      have hnew : (xs.eraseDups ++ [x]).idxOf x = xs.eraseDups.length := by
        rw [List.idxOf_append_of_notMem (by rwa [List.mem_eraseDups])]
        simp
      have hfresh : xs.eraseDups.length ∉ xs.map xs.eraseDups.idxOf := by
        rintro h
        obtain ⟨y, hy, hlen⟩ := List.mem_map.1 h
        have hlt := List.idxOf_lt_length_iff.2 (List.mem_eraseDups.2 hy)
        omega
      rw [if_neg hx, List.map_append, List.map_singleton, hold, hnew, eraseDups_concat, if_neg hfresh,
        ih, List.length_append, List.length_singleton, List.range_succ]

end FirstOccurrences

variable {N : Type} [Scalar N]

/-! ## The table -/

namespace RecalculationTable

theorem slot_snd (table : RecalculationTable) (text : String) :
    (table.slot text).2 = if text ∈ table then table else table ++ [text] := by
  unfold slot
  by_cases h : text ∈ table
  · obtain ⟨k, hk⟩ : ∃ k, table.findIdx? (· = text) = some k := by
      rw [← Option.isSome_iff_exists, List.findIdx?_isSome, List.any_eq_true]
      exact ⟨text, h, decide_eq_true rfl⟩
    rw [hk, if_pos h]
  · have hnone : table.findIdx? (· = text) = none := by
      rw [List.findIdx?_eq_none_iff]
      intro x hx
      exact decide_eq_false fun he => h (he ▸ hx)
    rw [hnone, if_neg h]

/-- Looking texts up one after the other. -/
def enterAll (table : RecalculationTable) (texts : List String) : RecalculationTable :=
  texts.foldl (fun t text => (t.slot text).2) table

theorem enterAll_append (table : RecalculationTable) (texts texts' : List String) :
    table.enterAll (texts ++ texts') = (table.enterAll texts).enterAll texts' :=
  List.foldl_append

theorem enterAll_nil_eq_eraseDups (texts : List String) : enterAll [] texts = texts.eraseDups := by
  induction texts using List.reverseRecOn with
  | nil => rfl
  | append_singleton texts text ih =>
    have hstep : enterAll [] (texts ++ [text]) = ((enterAll [] texts).slot text).2 :=
      enterAll_append [] texts [text]
    rw [hstep, ih, slot_snd, eraseDups_concat]
    simp only [List.mem_eraseDups]

end RecalculationTable

/-! ## What the sites enter -/

/-- The text that a site enters: the one of its converted form, unless it simplifies to a literal. -/
def Site.text? (p : Program N) (s : Site N) : Option String :=
  if s.expr.simplify.isNumber then none
  else
    match s.quantity.convert p s.expr.simplify with
    | .error _ => none
    | .ok c => some c.simplify.text

theorem Site.text?_eq_some_iff {p : Program N} {s : Site N} {text : String} :
    s.text? p = some text ↔ s.Enters p text := by
  unfold Site.text? Site.Enters
  cases hn : s.expr.simplify.isNumber
  · cases hc : s.quantity.convert p s.expr.simplify with
    | error e => simp
    | ok c => simp [eq_comm]
  · simp

theorem Site.text?_of_isNumber {p : Program N} {s : Site N} (h : s.expr.simplify.isNumber = true) :
    s.text? p = none := if_pos h

def textsOf (p : Program N) (sites : List (Site N)) : List String := sites.filterMap (Site.text? p)

section Steps

variable {p : Program N} {table table' : RecalculationTable}

theorem textsOf_append (sites sites' : List (Site N)) :
    textsOf p (sites ++ sites') = textsOf p sites ++ textsOf p sites' :=
  List.filterMap_append

theorem substituteAngle_snd (e : Expr N) :
    (substituteAngle table e).2 = table.enterAll (textsOf p [⟨.angle, e⟩]) := by
  cases hn : e.simplify.isNumber with
  | true =>
    have htext : Site.text? p ⟨.angle, e⟩ = none := Site.text?_of_isNumber hn
    rw [substituteAngle_of_isNumber hn, textsOf, List.filterMap_cons_none htext]
    rfl
  | false =>
    have htext : Site.text? p ⟨.angle, e⟩ = some (toTurns e.simplify).simplify.text :=
      Site.text?_eq_some_iff.2 ⟨hn, _, rfl, rfl⟩
    rw [substituteAngle_of_not_isNumber hn, textsOf, List.filterMap_cons_some htext]
    rfl

theorem substituteAngles_snd (es : List (Expr N)) :
    (substituteAngles table es).2 = table.enterAll (textsOf p (es.map (⟨.angle, ·⟩))) := by
  induction es generalizing table with
  | nil => rfl
  | cons e es ih =>
    have hsplit : (e :: es).map (Site.mk .angle) = [⟨.angle, e⟩] ++ es.map (Site.mk .angle) := rfl
    rw [hsplit, textsOf_append, RecalculationTable.enterAll_append, ← substituteAngle_snd, ← ih]
    rfl

/-- An instruction enters the texts of its sites. -/
theorem table_of_substituteInstruction {i i' : Instruction N}
    (h : substituteInstruction p table i = .ok (i', table')) :
    table' = table.enterAll (textsOf p i.sites) := by
  cases i with
  | gate g =>
    cases h
    exact substituteAngles_snd g.parameters
  | frameUpdate update frame value =>
    have hsites : textsOf p (Instruction.frameUpdate update frame value).sites =
        ((Site.mk (update.quantity frame) value).text? p).toList := by
      unfold textsOf
      cases hs : (Site.mk (update.quantity frame) value).text? p <;> simp [Instruction.sites, hs]
    rw [hsites]
    rcases substituteInstruction_frameUpdate h with ⟨hn, -, rfl⟩ | ⟨c, hn, hc, -, rfl⟩
    · rw [Site.text?_of_isNumber hn]
      rfl
    · have htext : (Site.mk (update.quantity frame) value).text? p = some c.simplify.text :=
        Site.text?_eq_some_iff.2 ⟨hn, c, hc, rfl⟩
      rw [htext]
      rfl
  | declaration | pragma | call | measurement | fence | delay | other =>
    cases h
    rfl

/-- A run over instructions enters the texts of their sites. -/
theorem table_of_substituteBody {is is' : List (Instruction N)}
    (h : substituteBody p table is = .ok (is', table')) :
    table' = table.enterAll (textsOf p (is.flatMap Instruction.sites)) := by
  induction is generalizing table is' with
  | nil => cases h; rfl
  | cons i is ih =>
    obtain ⟨first, next, others, hi, hb, -⟩ := substituteBody_cons h
    rw [List.flatMap_cons, textsOf_append, RecalculationTable.enterAll_append,
      ← table_of_substituteInstruction hi, ← ih hb]

end Steps

/-! ## Outlines -/

/-- An instruction with π at its sites. Two instructions of one outline differ in the expressions at
their sites only. -/
def Instruction.outline : Instruction N → Instruction N
  | .gate g => .gate { g with parameters := g.parameters.map fun _ => .pi }
  | .frameUpdate update frame _ => .frameUpdate update frame .pi
  | i => i

theorem length_substituteAngles (table : RecalculationTable) (es : List (Expr N)) :
    (substituteAngles table es).1.length = es.length := by
  induction es generalizing table with
  | nil => rfl
  | cons e es ih => exact congrArg Nat.succ (ih _)

theorem outline_substituteInstruction {p : Program N} {table table' : RecalculationTable}
    {i i' : Instruction N} (h : substituteInstruction p table i = .ok (i', table')) :
    i'.outline = i.outline := by
  cases i with
  | gate g =>
    cases h
    simp only [Instruction.outline, List.map_const', length_substituteAngles]
  | frameUpdate update frame value =>
    rcases substituteInstruction_frameUpdate h with ⟨-, rfl, -⟩ | ⟨c, -, -, rfl, -⟩
    · rfl
    · rfl
  | declaration | pragma | call | measurement | fence | delay | other =>
    cases h
    rfl

theorem outline_substituteBody {p : Program N} {table table' : RecalculationTable}
    {is is' : List (Instruction N)} (h : substituteBody p table is = .ok (is', table')) :
    is'.map Instruction.outline = is.map Instruction.outline := by
  induction is generalizing table is' with
  | nil => cases h; rfl
  | cons i is ih =>
    obtain ⟨first, next, others, hi, hb, rfl⟩ := substituteBody_cons h
    rw [List.map_cons, List.map_cons, outline_substituteInstruction hi, ih hb]

/-! ## The whole program -/

theorem Program.table_eq_eraseDups {p : Program N} {q : Substituted N} (h : p.substituteArithmetic = .ok q) :
    q.table = (textsOf p p.sites).eraseDups := by
  rw [← RecalculationTable.enterAll_nil_eq_eraseDups]
  exact table_of_substituteBody (Program.of_substituteArithmetic_eq_ok h).1

/-- What stands at a site without arithmetic: a literal, or one of so many slots. -/
def Expr.Holds (count : Nat) : Option Nat → Expr N → Prop
  | none, e => e.isNumber = true
  | some k, e => k < count ∧ e = substitutionSlot k

/-- The number of the slot that an expression reads. -/
def Expr.slotNumber? : Expr N → Option Nat
  | .address r => if r.name = substitutionName then some r.index.toNat else none
  | _ => none

omit [Scalar N] in
theorem Expr.Holds.slotNumber? {count : Nat} {slot : Option Nat} {e : Expr N} (h : e.Holds count slot)
    (small : count ≤ UInt64.size) : e.slotNumber? = slot := by
  cases slot with
  | none => cases e <;> simp_all [Expr.Holds, Expr.isNumber, Expr.slotNumber?]
  | some k =>
    obtain ⟨hk, rfl⟩ := h
    have hword : (UInt64.ofNat k).toNat = k := UInt64.toNat_ofNat_of_lt' (Nat.lt_of_lt_of_le hk small)
    simp [substitutionSlot, Expr.slotNumber?, hword]

/-- The number of the slot that a site gets: the place of its text in a table. -/
def Site.number? (p : Program N) (table : RecalculationTable) (s : Site N) : Option Nat :=
  (s.text? p).map table.idxOf

theorem Site.Becomes.holds {p : Program N} {table : RecalculationTable} (hn : table.Nodup) {s t : Site N}
    (h : s.Becomes p table t) : t.expr.Holds table.length (s.number? p table) := by
  obtain ⟨-, ⟨hnumber, ht⟩ | ⟨k, text, ht, hk, he⟩⟩ := h
  · rw [Site.number?, Site.text?_of_isNumber hnumber, ht]
    exact hnumber
  · obtain ⟨hlt, htext⟩ := List.getElem?_eq_some_iff.1 hk
    have hplace : table.idxOf text = k := by rw [← htext, hn.idxOf_getElem]
    rw [Site.number?, Site.text?_eq_some_iff.2 he, Option.map_some, hplace]
    exact ⟨hlt, ht⟩

def Program.textAt? (p : Program N) (i : Nat) : Option String := p.sites[i]?.bind (Site.text? p)

theorem Program.mem_textsOf {p : Program N} {i : Nat} {text : String} (h : p.textAt? i = some text) :
    text ∈ textsOf p p.sites := by
  obtain ⟨s, hs, htext⟩ := Option.bind_eq_some_iff.1 h
  exact List.mem_filterMap.2 ⟨s, List.mem_of_getElem? hs, htext⟩

/-- A site has the slot whose place in the table its text has. -/
theorem Program.number?_eq_some_iff {p : Program N} {table : RecalculationTable} (hn : table.Nodup)
    (htable : ∀ text ∈ textsOf p p.sites, text ∈ table) {i k : Nat} :
    (p.sites.map (Site.number? p table))[i]? = some (some k) ↔
      ∃ text, p.textAt? i = some text ∧ table[k]? = some text := by
  have hplace {text : String} (htext : p.textAt? i = some text) : table.idxOf text = k ↔ table[k]? = some text := by
    have hmem := htable text (Program.mem_textsOf htext)
    constructor
    · rintro rfl
      exact List.getElem?_idxOf hmem
    · intro hk
      obtain ⟨hlt, rfl⟩ := List.getElem?_eq_some_iff.1 hk
      exact hn.idxOf_getElem k hlt
  have hnumber : (p.sites.map (Site.number? p table))[i]? = some (some k) ↔
      ∃ text, p.textAt? i = some text ∧ table.idxOf text = k := by
    unfold Program.textAt? Site.number?
    rw [List.getElem?_map]
    cases p.sites[i]? <;> simp
  rw [hnumber]
  exact exists_congr fun text => and_congr_right hplace

/-- A program without arithmetic beside the one it comes from, with the slot of each site. -/
structure Substituted.ShapedLike (q : Substituted N) (p : Program N) (slots : List (Option Nat)) : Prop where
  /-- Nothing but the expressions at the sites differs in the body. -/
  body : q.program.body.map Instruction.outline = p.body.map Instruction.outline
  definitions : q.program.definitions = p.definitions
  frames : q.program.frames = p.frames
  /-- The region of the computed values comes first, if it has a slot. -/
  declarations : q.program.declarations =
    (if q.table = [] then [] else [⟨"__SUBST", .real, UInt64.ofNat q.table.length, none⟩]) ++ p.declarations
  /-- No text is twice in the table. -/
  distinct : q.table.Nodup
  /-- A site has a literal, or a slot with a place in the table. -/
  holds : List.Forall₂ (fun slot t => t.expr.Holds q.table.length slot) slots q.program.sites
  /-- From left to right the slots occur first in the order of their numbers, and all occur. -/
  firsts : (slots.filterMap id).eraseDups = List.range q.table.length
  /-- A site has a slot just when it enters a text, which is the entry of the slot. -/
  entries : ∀ i k : Nat, slots[i]? = some (some k) ↔ ∃ text, p.textAt? i = some text ∧ q.table[k]? = some text
  /-- Two sites share a slot just when their converted forms have one text. -/
  shared : ∀ i j : Nat, (∃ k, slots[i]? = some (some k) ∧ slots[j]? = some (some k)) ↔
    ∃ text, p.textAt? i = some text ∧ p.textAt? j = some text
  /-- The slots are those that the program reads, as long as a word counts them. -/
  numbers : q.table.length ≤ UInt64.size → slots = q.program.sites.map (·.expr.slotNumber?)

/-- **The shape of a program without arithmetic.** Whenever the arithmetic can be moved out, only the
expressions at the sites and one declaration in front are new, and the slots of the sites are numbered
by the first use of their texts. -/
theorem Program.shape_substituteArithmetic {p : Program N} {q : Substituted N}
    (h : p.substituteArithmetic = .ok q) : ∃ slots, q.ShapedLike p slots := by
  have htable := Program.table_eq_eraseDups h
  have hnodup : q.table.Nodup := htable ▸ nodup_eraseDups _
  have hholds : List.Forall₂ (fun slot t => Expr.Holds q.table.length slot t.expr)
      (p.sites.map (Site.number? p q.table)) q.program.sites :=
    List.forall₂_map_left_iff.2 ((Program.substitutes h).becomes.imp fun _ _ hb => hb.holds hnodup)
  have hfirsts : ((p.sites.map (Site.number? p q.table)).filterMap id).eraseDups =
      List.range q.table.length := by
    have hplaces : (p.sites.map (Site.number? p q.table)).filterMap id =
        (textsOf p p.sites).map q.table.idxOf := by
      rw [List.filterMap_map, textsOf, List.map_filterMap]
      rfl
    rw [hplaces, htable, eraseDups_map_idxOf]
  have hmem : ∀ text ∈ textsOf p p.sites, text ∈ q.table := fun text htext => by
    rw [htable, List.mem_eraseDups]
    exact htext
  have hentries {i k : Nat} : (p.sites.map (Site.number? p q.table))[i]? = some (some k) ↔
      ∃ text, p.textAt? i = some text ∧ q.table[k]? = some text := Program.number?_eq_some_iff hnodup hmem
  obtain ⟨hrun, hdefinitions, hframes, hdeclarations⟩ := Program.of_substituteArithmetic_eq_ok h
  refine ⟨p.sites.map (Site.number? p q.table),
    { body := outline_substituteBody hrun
      definitions := hdefinitions
      frames := hframes
      declarations := ?_
      distinct := hnodup
      holds := hholds
      firsts := hfirsts
      entries := fun i k => hentries
      shared := fun i j => ?_
      numbers := fun small => ?_ }⟩
  · rw [hdeclarations]
    cases q.table <;> rfl
  · simp only [hentries]
    constructor
    · rintro ⟨k, ⟨text, htext, hk⟩, text', htext', hk'⟩
      obtain rfl := Option.some.inj (hk.symm.trans hk')
      exact ⟨text, htext, htext'⟩
    · rintro ⟨text, htext, htext'⟩
      obtain ⟨k, hk⟩ := List.getElem?_of_mem (hmem text (Program.mem_textsOf htext))
      exact ⟨k, ⟨text, htext, hk⟩, text, htext', hk⟩
  · have hread : List.Forall₂ (fun slot t => slot = Expr.slotNumber? t.expr)
        (p.sites.map (Site.number? p q.table)) q.program.sites :=
      hholds.imp fun _ _ hh => (hh.slotNumber? small).symm
    exact List.forall₂_eq_eq_eq ▸ List.forall₂_map_right_iff.2 hread

/-- Two scales of one text, with another between them, behind an angle without memory. -/
theorem shape_substituteArithmetic_scales :
    let frame : Frame := ⟨"xy", [.fixed 0]⟩
    let p : Program (Exact rational) :=
      { definitions := []
        frames := []
        declarations := [⟨"a", .real, 2, none⟩]
        body := [.gate ⟨[], "RX", [.number (Exact.of 2)], [.fixed 0]⟩,
          .frameUpdate .setScale frame (.number (Exact.of 16) * .address ⟨"a", 0⟩),
          .frameUpdate .setScale frame (.address ⟨"a", 1⟩),
          .frameUpdate .setScale frame (.number (Exact.of 16) * .address ⟨"a", 0⟩)] }
    ∃ q, p.substituteArithmetic = .ok q ∧ q.table = ["2*a[0]", "a[1]/8"] ∧
      q.program.sites.map (·.expr.slotNumber?) = [none, some 0, some 1, some 0] ∧
      ∃ slots, q.ShapedLike p slots := by
  intro frame p
  have hrun : (match p.substituteArithmetic with
      | .ok q => (q.table, q.program.sites.map (·.expr.slotNumber?))
      | .error _ => ([], [])) = (["2*a[0]", "a[1]/8"], [none, some 0, some 1, some 0]) := by decide +kernel
  cases hq : p.substituteArithmetic with
  | error e => rw [hq] at hrun; cases hrun
  | ok q =>
    rw [hq] at hrun
    obtain ⟨htable, hnumbers⟩ := Prod.mk.inj hrun
    exact ⟨q, rfl, htable, hnumbers, Program.shape_substituteArithmetic hq⟩

end QuilControl
