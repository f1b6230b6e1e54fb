import QuilControl.Recalculation.Patch
import QuilControl.Proofs.Expr.RoundTrip
import QuilControl.Proofs.Expr.Simplification
import QuilControl.Proofs.Recalculation.Sites
import QuilControl.Proofs.Scalar.Rational

/-!
# Patched memory has the converted values

In exact arithmetic, the value of a site in the units of the sequencer is a value of the field: an
angle over 2π, a scale over 8, a frequency less the center frequency of its frame, over the sample
rate. The converted form of an expression has this value (`fieldValue?_convert`), simplification
keeps it, and the text of the simplified form reads back as that form. So each table entry computes
the value of the sites that use its slot.
-/

namespace QuilControl

/-! ## Tables -/

section Tables

variable {N : Type} [Scalar N]

namespace RecalculationTable

def entryValue? (memory : Memory N) (entry : String) : Option N :=
  match Expr.ofText entry with
  | .error _ => none
  | .ok e => (e.eval memory).toOption

theorem entryValue?_eq_some {memory : Memory N} {entry : String} {v : N} :
    entryValue? memory entry = some v ↔
      ∃ e, Expr.ofText entry = .ok e ∧ e.eval memory = .ok v := by
  unfold entryValue?
  cases he : (Expr.ofText entry : Except QuilError (Expr N)) with
  | error err => simp
  | ok e => cases hv : e.eval memory <;> simp [hv, Except.toOption]

/-- The values behind a table that can be read are those of its entries. -/
theorem values_read {memory : Memory N} {table : RecalculationTable} {vs : List N} :
    (∃ entries, table.read = .ok entries ∧ values memory entries = .ok vs) ↔
      List.Forall₂ (fun entry v => entryValue? memory entry = some v) table vs := by
  induction table generalizing vs with
  | nil => cases vs <;> simp [read, values]
  | cons entry rest ih =>
    rw [List.forall₂_cons_left_iff, read]
    simp only [← ih]
    simp only [entryValue?_eq_some]
    cases (Expr.ofText entry : Except QuilError (Expr N)) with
    | error error => simp
    | ok e =>
      cases read (N := N) rest with
      | error error => simp
      | ok others =>
        cases hv : e.eval memory with
        | error error => simp [values, hv]
        | ok v => cases hvs : values memory others <;> simp [values, hv, hvs, eq_comm]

/-- Memory is patched with the values of the entries, when every entry has one. -/
theorem patch_eq_ok {table : RecalculationTable} {memory patched : Memory N} :
    table.patch memory = .ok patched ↔
      ∃ vs, List.Forall₂ (fun entry v => entryValue? memory entry = some v) table vs ∧
        patched = memory.insert substitutionName vs := by
  unfold patch patchRead
  constructor
  · intro h
    cases hr : read (N := N) table with
    | error err => rw [hr] at h; cases h
    | ok entries =>
      rw [hr] at h
      dsimp only at h
      cases hv : values memory entries with
      | error err => rw [hv] at h; cases h
      | ok vs =>
        rw [hv] at h
        cases h
        exact ⟨vs, values_read.1 ⟨entries, hr, hv⟩, rfl⟩
  · rintro ⟨vs, hvs, rfl⟩
    obtain ⟨entries, hr, hv⟩ := values_read.2 hvs
    rw [hr]
    simp only [hv]

theorem exists_patch_eq_ok {table : RecalculationTable} {memory : Memory N} :
    (∃ patched, table.patch memory = .ok patched) ↔
      ∀ entry ∈ table, ∃ v, entryValue? memory entry = some v := by
  constructor
  · rintro ⟨patched, h⟩ entry hentry
    obtain ⟨vs, hvs, -⟩ := patch_eq_ok.1 h
    obtain ⟨k, hk, rfl⟩ := List.getElem_of_mem hentry
    exact ⟨_, hvs.get hk (hvs.length_eq ▸ hk)⟩
  · intro h
    have hvs : ∃ vs : List N, List.Forall₂ (fun entry v => entryValue? memory entry = some v) table vs := by
      induction table with
      | nil => exact ⟨[], .nil⟩
      | cons entry rest ih =>
        obtain ⟨v, hv⟩ := h entry List.mem_cons_self
        obtain ⟨vs, hvs⟩ := ih fun e he => h e (List.mem_cons_of_mem _ he)
        exact ⟨v :: vs, .cons hv hvs⟩
    obtain ⟨vs, hvs⟩ := hvs
    exact ⟨_, patch_eq_ok.2 ⟨vs, hvs, rfl⟩⟩

/-- A slot of patched memory has the value of its entry. -/
theorem eval_substitutionSlot {table : RecalculationTable} {memory patched : Memory N} {k : Nat}
    {entry : String} {v : N} (h : table.patch memory = .ok patched) (small : table.length ≤ UInt64.size)
    (hk : table[k]? = some entry) (hv : entryValue? memory entry = some v)
    (finite : Scalar.isFinite v = true) : (substitutionSlot k : Expr N).eval patched = .ok v := by
  obtain ⟨vs, hvs, rfl⟩ := patch_eq_ok.1 h
  obtain ⟨hlt, rfl⟩ := List.getElem?_eq_some_iff.1 hk
  have hlen := hvs.length_eq
  have hget := hvs.get hlt (hlen ▸ hlt)
  have hvk : vs[k]? = some v := by
    rw [List.getElem?_eq_getElem (hlen ▸ hlt)]
    simp only [List.get_eq_getElem] at hget
    rw [hv] at hget
    exact hget.symm
  have hword : (UInt64.ofNat k).toNat = k := UInt64.toNat_ofNat_of_lt' (Nat.lt_of_lt_of_le hlt small)
  have hregion : (memory.insert substitutionName vs).get? substitutionName = some vs := by
    rw [SortedMap.get?_insert, if_pos Std.ReflCmp.compare_self]
  simp only [substitutionSlot, Expr.eval, MemoryReference.eval, hregion, hword, hvk]
  rw [QuilControl.finite, if_pos finite]

end RecalculationTable

end Tables

/-! ## Values of the field -/

open Exact

variable {K : Type} [Field K] [DecidableEq K] {S : Setting K}

def fieldValue? (memory : Memory (Exact S)) (e : Expr (Exact S)) : Option K :=
  match e.eval memory with
  | .ok v => v.value?
  | .error _ => none

def quotient? (x y : K) : Option K := if y = 0 then none else some (x / y)

variable {memory : Memory (Exact S)} {e : Expr (Exact S)} {x : K}

theorem fieldValue?_eq_some : fieldValue? memory e = some x ↔ e.eval memory = .ok (of x) := by
  unfold fieldValue?
  constructor
  · intro h
    cases he : e.eval memory with
    | error err => rw [he] at h; cases h
    | ok v =>
      obtain ⟨y, rfl⟩ := eval_eq_ok he
      rw [he] at h
      cases h
      rfl
  · intro h
    rw [h]
    rfl

theorem fieldValue?_number (c : K) : fieldValue? memory (.number (of c)) = some c := rfl

theorem fieldValue?_over (l r : Expr (Exact S)) :
    fieldValue? memory (l / r) =
      (fieldValue? memory l).bind fun x => (fieldValue? memory r).bind fun y => quotient? x y := by
  unfold fieldValue?
  change (match (Expr.binary .«over» l r).eval memory with | .ok v => v.value? | .error _ => none) = _
  simp only [Expr.eval]
  cases hl : l.eval memory with
  | error err => rfl
  | ok v =>
    cases hr : r.eval memory with
    | error err => obtain ⟨x, rfl⟩ := eval_eq_ok hl; rfl
    | ok w =>
      obtain ⟨x, rfl⟩ := eval_eq_ok hl
      obtain ⟨y, rfl⟩ := eval_eq_ok hr
      change (match Operator.over.eval (of x : Exact S) (of y) with
        | .ok v => v.value? | .error _ => none) = quotient? x y
      rw [eval_of_over, quotient?]
      by_cases hy : y = 0 <;> simp [hy, of]

theorem fieldValue?_minus (l r : Expr (Exact S)) :
    fieldValue? memory (l - r) =
      (fieldValue? memory l).bind fun x => (fieldValue? memory r).map fun y => x - y := by
  unfold fieldValue?
  change (match (Expr.binary .minus l r).eval memory with | .ok v => v.value? | .error _ => none) = _
  simp only [Expr.eval]
  cases hl : l.eval memory with
  | error err => rfl
  | ok v =>
    cases hr : r.eval memory with
    | error err => obtain ⟨x, rfl⟩ := eval_eq_ok hl; rfl
    | ok w =>
      obtain ⟨x, rfl⟩ := eval_eq_ok hl
      obtain ⟨y, rfl⟩ := eval_eq_ok hr
      rfl

theorem fieldValue?_simplify : fieldValue? memory e.simplify = fieldValue? memory e := by
  unfold fieldValue?
  rw [Expr.sameValue_simplify e memory]

/-! ## Units of the sequencer -/

/-- The value of the sample rate that a frame is defined with. -/
def FrameDefinition.rate? (memory : Memory (Exact S)) (d : FrameDefinition (Exact S)) : Option K :=
  match d.attribute? "SAMPLE-RATE" with
  | some (.expression rate) => fieldValue? memory rate
  | _ => none

/-- The value of the center frequency that a frame is defined with, or zero. -/
def FrameDefinition.center? (memory : Memory (Exact S)) (d : FrameDefinition (Exact S)) : Option K :=
  match d.attribute? "CENTER-FREQUENCY" with
  | some (.expression center) => fieldValue? memory center
  | _ => some 0

/-- A number in the units of the sequencer: an angle over 2π, a scale over 8, a frequency less the
center frequency of the first definition of its frame, over the sample rate there. -/
def Quantity.inUnits? (p : Program (Exact S)) (memory : Memory (Exact S)) (x : K) : Quantity → Option K
  | angle => quotient? x (2 * S.pi)
  | scale => quotient? x 8
  | frequency frame =>
    (p.frame? frame).bind fun d =>
      (d.center? memory).bind fun c => (d.rate? memory).bind fun r => quotient? (x - c) r

def Site.inUnits? (p : Program (Exact S)) (memory : Memory (Exact S)) (s : Site (Exact S)) : Option K :=
  (fieldValue? memory s.expr).bind fun x => s.quantity.inUnits? p memory x

/-- The converted form of an expression has its value in the units of the sequencer. -/
theorem fieldValue?_convert {p : Program (Exact S)} {quantity : Quantity} {c : Expr (Exact S)}
    (h : quantity.convert p e = .ok c) :
    fieldValue? memory c = (fieldValue? memory e).bind fun x => quantity.inUnits? p memory x := by
  cases quantity with
  | angle =>
    cases h
    have hturn : (Scalar.turn : Exact S) = of (2 * S.pi) := by
      show (⟨some (((2 : ℕ) : K) * S.pi)⟩ : Exact S) = of (2 * S.pi)
      rw [Nat.cast_ofNat]
      rfl
    rw [toTurns, hturn, fieldValue?_over, fieldValue?_number]
    rfl
  | scale =>
    cases h
    have height : (Scalar.ofNat 8 : Exact S) = of 8 := by
      show (⟨some ((8 : ℕ) : K)⟩ : Exact S) = of 8
      rw [Nat.cast_ofNat]
      rfl
    rw [toEighths, height, fieldValue?_over, fieldValue?_number]
    rfl
  | frequency frame =>
    obtain ⟨d, rate, hd, hrate, hcases⟩ := exists_of_toSamples_eq_ok h
    have hr : d.rate? memory = fieldValue? memory rate := by
      unfold FrameDefinition.rate?
      rw [hrate]
    simp only [Quantity.inUnits?, hd, hr, Option.bind_some]
    rcases hcases with ⟨center, hcenter, rfl⟩ | ⟨hcenter, rfl⟩
    · have hc : d.center? memory = fieldValue? memory center := by
        unfold FrameDefinition.center?
        rw [hcenter]
      rw [hc, fieldValue?_over, fieldValue?_minus]
      cases fieldValue? memory e with
      | none => rfl
      | some x => cases fieldValue? memory center <;> rfl
    · have hc : d.center? memory = some 0 := by
        unfold FrameDefinition.center?
        split
        · next center heq => exact absurd heq (hcenter center)
        · rfl
      rw [hc, fieldValue?_over]
      simp only [Option.bind_some, sub_zero]

/-! ## What is written -/

def Attribute.expression? {N : Type} : Attribute N → Option (Expr N)
  | string _ => none
  | expression value => some value

/-- The expressions of a program: those at its sites, and the attributes of its frames. -/
def Program.expressions {N : Type} (p : Program N) : List (Expr N) :=
  p.sites.map (·.expr) ++ p.frames.flatMap fun d => d.attributes.filterMap (·.2.expression?)

theorem Program.mem_expressions_of_attribute {N : Type} {p : Program N} {frame : Frame}
    {d : FrameDefinition N} {key : String} {e : Expr N} (hd : p.frame? frame = some d)
    (he : d.attribute? key = some (.expression e)) : e ∈ p.expressions := by
  obtain ⟨a, ha, hae⟩ := Option.map_eq_some_iff.1 he
  refine List.mem_append_right _ (List.mem_flatMap.2 ⟨d, List.mem_of_find?_eq_some hd, ?_⟩)
  refine List.mem_filterMap.2 ⟨a, List.mem_of_find?_eq_some ha, ?_⟩
  rw [hae]
  rfl

/-- What is made of finite literals is converted to such an expression. -/
theorem finiteOver_convert {P : MemoryReference → Prop} {p : Program (Exact S)} {quantity : Quantity}
    {c : Expr (Exact S)} (hp : ∀ e ∈ p.expressions, e.FiniteOver P) (he : e.FiniteOver P)
    (h : quantity.convert p e = .ok c) : c.FiniteOver P := by
  cases quantity with
  | angle => cases h; exact ⟨he, rfl⟩
  | scale => cases h; exact ⟨he, rfl⟩
  | frequency frame =>
    obtain ⟨d, rate, hd, hrate, hcases⟩ := exists_of_toSamples_eq_ok h
    have hr := hp rate (Program.mem_expressions_of_attribute hd hrate)
    rcases hcases with ⟨center, hcenter, rfl⟩ | ⟨-, rfl⟩
    · exact ⟨⟨he, hp center (Program.mem_expressions_of_attribute hd hcenter)⟩, hr⟩
    · exact ⟨he, hr⟩

theorem finiteOver_simplify {P : MemoryReference → Prop} (h : e.FiniteOver P) : e.simplify.FiniteOver P := by
  refine Expr.MadeOf.simplify rfl (fun v hv => ?_) h
  obtain ⟨x, rfl⟩ := eq_of_isFinite hv
  rfl

theorem reread_eq_self {P : MemoryReference → Prop} (h : e.MadeOf P ReadsBack) : e.reread = e := by
  induction e with
  | number v =>
    obtain ⟨x, hr, hv⟩ := eq_of_beq (ReadsBack.beq h)
    rw [Expr.reread, hr, hv]
  | pi | address => rfl
  | call f a ih => rw [Expr.reread, ih h]
  | signed s a ih => rw [Expr.reread, ih h]
  | binary op l r ihl ihr => rw [Expr.reread, ihl h.1, ihr h.2]

/-- Names have the form of identifiers, and literals are finite. -/
def Program.IsWritable {N : Type} [Scalar N] (p : Program N) : Prop :=
  ∀ e ∈ p.expressions, (∀ r ∈ e.references, isIdentifier r.name.toList = true) ∧
    ∀ v ∈ e.literals, Scalar.isFinite v = true

/-- The text that a site enters computes its value in the units of the sequencer. -/
theorem entryValue?_of_enters {p : Program (Exact S)} (law : ∀ x : K, ReadsBack (of x : Exact S))
    (writable : p.IsWritable) {s : Site (Exact S)} (hs : s ∈ p.sites) {text : String}
    (h : s.Enters p text) {v : Exact S} :
    RecalculationTable.entryValue? memory text = some v ↔ ∃ y, v = of y ∧ s.inUnits? p memory = some y := by
  obtain ⟨-, c, hc, rfl⟩ := h
  have hp : ∀ e ∈ p.expressions, e.FiniteOver fun r => isIdentifier r.name.toList = true :=
    fun e he => Expr.madeOf_iff.2 (writable e he)
  have hexpr := hp s.expr (List.mem_append_left _ (List.mem_map_of_mem hs))
  have hlegible : c.simplify.Legible := by
    refine (finiteOver_simplify (finiteOver_convert hp (finiteOver_simplify hexpr) hc)).mono
      (fun _ hr => hr) fun v hv => ?_
    obtain ⟨x, rfl⟩ := eq_of_isFinite hv
    exact law x
  have hread : Expr.ofText c.simplify.text = .ok c.simplify := by
    rw [Expr.ofText_text_eq_reread hlegible, reread_eq_self hlegible]
  have hvalue : fieldValue? memory c.simplify = s.inUnits? p memory := by
    rw [fieldValue?_simplify, fieldValue?_convert hc, fieldValue?_simplify]
    rfl
  rw [RecalculationTable.entryValue?_eq_some, hread, ← hvalue]
  constructor
  · rintro ⟨e, he, hv⟩
    cases he
    obtain ⟨y, rfl⟩ := eval_eq_ok hv
    exact ⟨y, rfl, fieldValue?_eq_some.2 hv⟩
  · rintro ⟨y, rfl, hy⟩
    exact ⟨_, rfl, fieldValue?_eq_some.1 hy⟩

/-- The site `t` stands for the site `s`: it has the literal that `s` simplifies to, or a slot with
the value of `s` in the units of the sequencer. -/
def Site.StandsFor (p : Program (Exact S)) (memory patched : Memory (Exact S)) (s t : Site (Exact S)) :
    Prop :=
  t.quantity = s.quantity ∧
    ((s.expr.simplify.isNumber = true ∧ t.expr = s.expr.simplify) ∨
      ∃ k y, t.expr = substitutionSlot k ∧ s.inUnits? p memory = some y ∧
        t.expr.eval patched = .ok (of y))

/-- **Patched memory has the values of the program.** Over any field in which literals read back, let
the arithmetic of a program be moved out. Memory can be patched just when every site that does not
simplify to a literal has a value in the units of the sequencer; then every site of the new program
stands for that of the old one. A table has no more entries than a word counts. -/
theorem Program.patch_substituteArithmetic (law : ∀ x : K, ReadsBack (of x : Exact S))
    {p : Program (Exact S)} (writable : p.IsWritable) {q : Substituted (Exact S)}
    (h : p.substituteArithmetic = .ok q) (small : q.table.length ≤ UInt64.size) (memory : Memory (Exact S)) :
    ((∃ patched, q.table.patch memory = .ok patched) ↔
      ∀ s ∈ p.sites, s.expr.simplify.isNumber = false → ∃ y, s.inUnits? p memory = some y) ∧
    ∀ patched, q.table.patch memory = .ok patched →
      List.Forall₂ (Site.StandsFor p memory patched) p.sites q.program.sites := by
  have hsub := Program.substitutes h
  have hentries : (∃ patched, q.table.patch memory = .ok patched) ↔
      ∀ s ∈ p.sites, s.expr.simplify.isNumber = false → ∃ y, s.inUnits? p memory = some y := by
    rw [RecalculationTable.exists_patch_eq_ok]
    constructor
    · intro hall s hs hn
      obtain ⟨k, hk, rfl⟩ := List.getElem_of_mem hs
      obtain ⟨-, hnumber | ⟨i, text, -, hi, henters⟩⟩ :=
        hsub.becomes.get hk (hsub.becomes.length_eq ▸ hk)
      · exact absurd hnumber.1 (by simp [hn])
      · obtain ⟨v, hv⟩ := hall text (List.mem_of_getElem? hi)
        obtain ⟨y, -, hy⟩ := (entryValue?_of_enters law writable hs henters).1 hv
        exact ⟨y, hy⟩
    · intro hall text htext
      rcases hsub.entered text htext with hnil | ⟨s, hs, henters⟩
      · cases hnil
      · obtain ⟨y, hy⟩ := hall s hs henters.1
        exact ⟨of y, (entryValue?_of_enters law writable hs henters).2 ⟨y, rfl, hy⟩⟩
  refine ⟨hentries, fun patched hpatched => ?_⟩
  have hvalues := hentries.1 ⟨patched, hpatched⟩
  refine List.forall₂_iff_get.2 ⟨hsub.becomes.length_eq, fun i hi hi' => ?_⟩
  obtain ⟨hq, hnumber | ⟨k, text, ht, hk, henters⟩⟩ := hsub.becomes.get hi hi'
  · exact ⟨hq, Or.inl hnumber⟩
  · have hs : p.sites.get ⟨i, hi⟩ ∈ p.sites := List.get_mem _ _
    obtain ⟨y, hy⟩ := hvalues _ hs henters.1
    have hentry := (entryValue?_of_enters law writable hs henters).2 ⟨y, rfl, hy⟩
    refine ⟨hq, Or.inr ⟨k, y, ht, hy, ?_⟩⟩
    rw [ht]
    exact RecalculationTable.eval_substitutionSlot hpatched small hk hentry rfl

/-- A scale and a frequency that read memory, beside an angle that does not. -/
theorem patch_substituteArithmetic_rational :
    let frame : Frame := ⟨"xy", [.fixed 0]⟩
    let p : Program (Exact rational) :=
      { definitions := []
        frames := [⟨frame, [("SAMPLE-RATE", .expression (.number (of 1000))),
          ("CENTER-FREQUENCY", .expression (.number (of 5)))]⟩]
        declarations := []
        body := [.gate ⟨[], "RX", [.number (of 2)], [.fixed 0]⟩,
          .frameUpdate .setScale frame (.number (of 16) * .address ⟨"a", 0⟩),
          .frameUpdate .setFrequency frame (.address ⟨"f", 0⟩)] }
    let memory : Memory (Exact rational) := (SortedMap.empty.insert "a" [of 3]).insert "f" [of 1005]
    ∃ q, p.substituteArithmetic = .ok q ∧ q.table = ["2*a[0]", "(f[0]-5)/1000"] ∧
      ∃ patched, q.table.patch memory = .ok patched ∧
        List.Forall₂ (Site.StandsFor p memory patched) p.sites q.program.sites := by
  intro frame p memory
  have htable : (match p.substituteArithmetic with
      | .ok q => q.table
      | .error _ => []) = ["2*a[0]", "(f[0]-5)/1000"] := by decide +kernel
  have hpatch : (RecalculationTable.patch ["2*a[0]", "(f[0]-5)/1000"] memory).isOk = true := by
    decide +kernel
  cases hq : p.substituteArithmetic with
  | error e => rw [hq] at htable; cases htable
  | ok q =>
    rw [hq] at htable
    dsimp only at htable
    rw [← htable] at hpatch
    cases hm : q.table.patch memory with
    | error e => rw [hm] at hpatch; cases hpatch
    | ok patched =>
      have writable : p.IsWritable := by
        unfold Program.IsWritable
        decide +kernel
      have small : q.table.length ≤ UInt64.size := by rw [htable]; decide
      exact ⟨q, rfl, htable, patched, hm,
        (Program.patch_substituteArithmetic readsBack_rational writable hq small memory).2 patched hm⟩

end QuilControl
