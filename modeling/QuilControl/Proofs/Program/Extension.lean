import Mathlib.Data.List.Forall2
import QuilControl.Proofs.Program.Blocks

/-!
# What a piece of text adds to a program

A text makes one program of another when it does so whatever has been read before and whatever follows
(`Extends`). What has been read counts as the program with its open block put into its section, so a
line that is not indented only depends on that program. The text of an item that reads as some item adds
that item, and texts that follow each other add their items in order. Empty lines add nothing, so neither
do the borders between the sections of a program (`Chain`).
-/

namespace QuilControl

variable {N : Type} [Scalar N]

/-- Reading the text, whatever follows it, makes the second program of the first. -/
def Extends (text : List Char) (p q : Program N) : Prop :=
  ∀ (line : Nat) (progress : Progress N) (rest : List Char), progress.close = p →
    ∃ line' next, next.close = q ∧
      readLines line progress (Text.lines (text ++ rest)) = readLines line' next (Text.lines rest)

theorem readLines_cons {line : Nat} {progress next : Progress N} {raw : List Char}
    (h : readLine line progress raw = .ok next) (rest : List (List Char)) :
    readLines line progress (raw :: rest) = readLines (line + 1) next rest := by
  rw [readLines, h]

namespace Extends

variable {a b : List Char} {p q r : Program N}

theorem nil (p : Program N) : Extends [] p p := fun line progress _ h => ⟨line, progress, h, rfl⟩

theorem append (ha : Extends a p q) (hb : Extends b q r) : Extends (a ++ b) p r := by
  intro line progress rest h
  obtain ⟨line', next, hnext, hread⟩ := ha line progress (b ++ rest) h
  obtain ⟨line'', last, hlast, hread'⟩ := hb line' next rest hnext
  refine ⟨line'', last, hlast, ?_⟩
  rw [List.append_assoc, hread, hread']

/-- An empty line adds nothing. -/
theorem newline (p : Program N) : Extends ['\n'] p p := by
  intro line progress rest h
  have hlines : Text.lines ('\n' :: rest) = [] :: Text.lines rest := rfl
  refine ⟨line + 1, progress, h, ?_⟩
  rw [List.singleton_append, hlines, readLines_cons (readLine_blank line progress)]

/-- A line that is not indented. -/
theorem line {raw : List Char} (h : IsLine raw) (hs : Text.solidStart raw) {next : Progress N}
    (ho : ∀ line, openLine line p raw = .ok next) : Extends (raw ++ ['\n']) p next.close := by
  rintro line progress rest rfl
  have hread : readLine line progress raw = .ok next := by rw [readLine_open line h hs, ho]
  refine ⟨line + 1, next, rfl, ?_⟩
  rw [List.append_assoc, List.singleton_append, Text.lines_append h.oneLine h.solidEnd, readLines_cons hread]

/-- Items that read as others, each on lines of its own, when each adds what it reads as. -/
theorem terminated {α β : Type} {f : α → List Char} (R : α → β → Prop) (add : Program N → List β → Program N)
    (hnil : ∀ p, add p [] = p) (hcons : ∀ p y ys, add (add p [y]) ys = add p (y :: ys))
    (hone : ∀ p x y, R x y → Extends (f x ++ ['\n']) p (add p [y])) {xs : List α} {ys : List β}
    (h : List.Forall₂ R xs ys) (p : Program N) : Extends (Program.terminated (xs.map f)) p (add p ys) := by
  induction h generalizing p with
  | nil =>
    rw [hnil]
    exact Extends.nil p
  | cons hxy _ ih =>
    have hall := (hone p _ _ hxy).append (ih (add p [_]))
    rw [hcons] at hall
    simpa [Program.terminated] using hall

end Extends

/-! ## Blocks -/

theorem readLines_verbatim {others : List (List Char)} (hl : ∀ l ∈ others, IsLine l)
    (hi : ∀ l ∈ others, isIndented l = true) (line : Nat) (p : Program N) (kept : List Char)
    (rest : List (List Char)) :
    readLines line ⟨p, some (.verbatim kept)⟩ (others ++ rest) =
      readLines (line + others.length) ⟨p, some (.verbatim (joinLines kept others))⟩ rest := by
  induction others generalizing line kept with
  | nil => simp [joinLines]
  | cons l others ih =>
    have hread := readLine_verbatim line (hl l List.mem_cons_self) (hi l List.mem_cons_self) p kept
    have hrest := ih (fun m hm => hl m (List.mem_cons_of_mem _ hm)) (fun m hm => hi m (List.mem_cons_of_mem _ hm))
      (line + 1) (kept ++ '\n' :: l)
    have hjoin : joinLines (kept ++ '\n' :: l) others = joinLines kept (l :: others) := by simp [joinLines]
    have hline : line + (l :: others).length = line + 1 + others.length := by simp; omega
    rw [List.cons_append, readLines_cons hread, hrest, hjoin, hline]

/-- A block that is kept. -/
theorem extends_verbatim {head : List Char} {others : List (List Char)} (h : IsVerbatim head others)
    (p : Program N) :
    Extends (joinLines head others ++ ['\n']) p
      { p with definitions := p.definitions ++ [String.ofList (joinLines head others)] } := by
  rintro line progress rest rfl
  have htrim : Text.trim head = head := Text.trim_eq_self h.head_solid h.head_isLine.solidEnd
  have hdef : "DEF".toList.isPrefixOf (firstWord head) = true := List.isPrefixOf_iff_prefix.2 h.head_def
  have hopen : openLine line progress.close head = .ok ⟨progress.close, some (.verbatim head)⟩ := by
    unfold openLine
    simp only [htrim, if_neg h.head_ne, if_pos hdef]
  have hread : readLine line progress head = .ok ⟨progress.close, some (.verbatim head)⟩ := by
    rw [readLine_open line h.head_isLine h.head_solid, hopen]
  have hlines := Text.lines_append_all h.head_isLine.oneLine h.head_isLine.solidEnd
    (fun l hl => ⟨(h.others_isLine l hl).oneLine, (h.others_isLine l hl).solidEnd⟩) rest
  refine ⟨line + 1 + others.length, ⟨progress.close, some (.verbatim (joinLines head others))⟩, rfl, ?_⟩
  rw [List.append_assoc, List.singleton_append, joinLines, hlines, List.cons_append, readLines_cons hread,
    readLines_verbatim h.others_isLine h.others_indented]
  rfl

/-! ## Frame definitions -/

/-- The text of an attribute is a line, apart from the blanks in front of it, and reads as the second
attribute. -/
structure Attribute.ReadsAs (a b : String × Attribute N) : Prop where
  isLine : IsLine (Attribute.entry a)
  reads : ∃ line, readOnLine line Attribute.ofTokens (Attribute.entry a) = .ok b

/-- The header of a frame definition is a statement that reads as the header of the second one, and its
attributes read as the attributes. -/
structure FrameDefinition.ReadsAs (d e : FrameDefinition N) : Prop where
  isStatement : IsStatement d.frame.header
  header : ∃ line, readOnLine (N := N) line Frame.ofHeaderTokens d.frame.header = .ok e.frame
  attributes : List.Forall₂ Attribute.ReadsAs d.attributes e.attributes

theorem readLines_attributes {as bs : List (String × Attribute N)} (h : List.Forall₂ Attribute.ReadsAs as bs)
    (line : Nat) (p : Program N) (d : FrameDefinition N) (rest : List (List Char)) :
    readLines line ⟨p, some (.frame d)⟩ (as.map Attribute.line ++ rest) =
      readLines (line + as.length) ⟨p, some (.frame { d with attributes := d.attributes ++ bs })⟩ rest := by
  induction h generalizing line d with
  | nil => simp
  | @cons a b as bs hab _ ih =>
    obtain ⟨hline, hindent⟩ := Attribute.isLine_line hab.isLine
    obtain ⟨line', hreads⟩ := hab.reads
    have hread := readLine_attribute line hline hindent p d (Attribute.readOnLine_line hreads line)
    have hlength : line + (a :: as).length = line + 1 + as.length := by simp; omega
    rw [List.map_cons, List.cons_append, readLines_cons hread, ih, hlength]
    simp

/-- A frame definition. -/
theorem extends_frame {d e : FrameDefinition N} (h : d.ReadsAs e) (p : Program N) :
    Extends (d.chars ++ ['\n']) p { p with frames := p.frames ++ [e] } := by
  rintro line progress rest rfl
  obtain ⟨line', hheader⟩ := h.header
  have hopen : openLine line progress.close d.frame.header =
      .ok ⟨progress.close, some (.frame ⟨e.frame, []⟩)⟩ := by
    unfold openLine
    simp only [h.isStatement.trim_eq_self, d.frame.firstWord_header, if_true, readOnLine_line hheader line]
  have hread : readLine line progress d.frame.header = .ok ⟨progress.close, some (.frame ⟨e.frame, []⟩)⟩ := by
    rw [readLine_open line h.isStatement.toIsLine h.isStatement.solidStart, hopen]
  have hentries : ∀ a ∈ d.attributes, IsLine (Attribute.entry a) :=
    ((List.forall₂_and_left _ _).1 (h.attributes.imp fun a b hab => ⟨hab.isLine, hab⟩)).1
  have hothers : ∀ l ∈ d.attributes.map Attribute.line, '\n' ∉ l ∧ Text.solidEnd l := by
    intro l hl
    obtain ⟨a, ha, rfl⟩ := List.mem_map.1 hl
    obtain ⟨hline, -⟩ := Attribute.isLine_line (hentries a ha)
    exact ⟨hline.oneLine, hline.solidEnd⟩
  have hlines := Text.lines_append_all h.isStatement.oneLine h.isStatement.solidEnd hothers rest
  refine ⟨line + 1 + d.attributes.length, ⟨progress.close, some (.frame e)⟩, rfl, ?_⟩
  rw [d.chars_eq, List.append_assoc, List.singleton_append, joinLines, hlines, List.cons_append,
    readLines_cons hread, readLines_attributes h.attributes]
  rfl

/-! ## Instructions -/

/-- The text of an instruction is a statement that opens no block and reads as the second instruction. -/
structure Instruction.ReadsAs (i j : Instruction N) : Prop where
  isStatement : IsStatement i.chars
  noBlock : ¬ "DEF".toList <+: i.chars
  reads : ∃ line, ofChars line i.chars = .ok j

/-- What a statement reads as does not depend on its line. -/
theorem Instruction.ofChars_line {line : Nat} {text : List Char} {i : Instruction N} (h : ofChars line text = .ok i)
    (line' : Nat) : ofChars line' text = .ok i := by
  unfold ofChars at h ⊢
  dsimp only at h ⊢
  split at h
  · rwa [if_pos ‹_›]
  · rw [if_neg ‹_›]
    split at h
    · cases h
    · next tokens htokens =>
      rw [statementTokens_line htokens line']
      split at h
      · cases h
      · next read hread =>
        cases h
        simp only [hread]

/-- An instruction on a line of its own. -/
theorem Instruction.ReadsAs.extends {i j : Instruction N} (h : i.ReadsAs j) {p q : Program N}
    (ha : p.add j = .ok q) : Extends (i.chars ++ ['\n']) p q := by
  have hword : firstWord i.chars <+: i.chars := List.takeWhile_prefix _
  have hprefix : ¬ "DEF".toList.isPrefixOf (firstWord i.chars) = true := fun hp =>
    h.noBlock ((List.isPrefixOf_iff_prefix.1 hp).trans hword)
  have hne : firstWord i.chars ≠ "DEFFRAME".toList := fun heq => hprefix (by rw [heq]; decide)
  obtain ⟨line', hreads⟩ := h.reads
  have hopen (line : Nat) : openLine line p i.chars = .ok ⟨q, none⟩ := by
    unfold openLine
    simp only [h.isStatement.trim_eq_self, if_neg hne, if_neg hprefix, h.isStatement.statements_eq, addStatements,
      ofChars_line hreads line, ha]
  exact Extends.line h.isStatement.toIsLine h.isStatement.solidStart hopen

/-! ## Sections -/

theorem extends_definitions {texts : List String}
    (h : ∀ text ∈ texts, ∃ head others, IsVerbatim head others ∧ text.toList = joinLines head others)
    (p : Program N) :
    Extends (Program.terminated (texts.map String.toList)) p { p with definitions := p.definitions ++ texts } := by
  refine Extends.terminated (fun text text' => text' = text ∧ ∃ head others, IsVerbatim head others ∧
      text.toList = joinLines head others) (fun p ts => { p with definitions := p.definitions ++ ts })
    (by simp) (by simp) ?_ (List.forall₂_same.2 fun text ht => ⟨rfl, h text ht⟩) p
  rintro p text _ ⟨rfl, head, others, hv, htext⟩
  have hone := extends_verbatim hv p
  rwa [← htext, String.ofList_toList] at hone

theorem extends_frames {ds es : List (FrameDefinition N)} (h : List.Forall₂ FrameDefinition.ReadsAs ds es)
    (p : Program N) :
    Extends (Program.terminated (ds.map (·.chars))) p { p with frames := p.frames ++ es } :=
  Extends.terminated FrameDefinition.ReadsAs (fun p es => { p with frames := p.frames ++ es }) (by simp) (by simp)
    (fun p _ _ hde => extends_frame hde p) h p

theorem extends_declarations {ds : List Declaration}
    (h : ∀ d ∈ ds, (Instruction.declaration (N := N) d).ReadsAs (.declaration d)) (p : Program N)
    (hn : ((p.declarations ++ ds).map (·.name)).Nodup) :
    Extends (Program.terminated (ds.map (·.chars))) p { p with declarations := p.declarations ++ ds } := by
  induction ds generalizing p with
  | nil =>
    rw [List.append_nil]
    exact Extends.nil p
  | cons d ds ih =>
    have hfree : p.declaration? d.name = none := by
      rw [Program.declaration?, List.find?_eq_none]
      intro d' hd' heq
      rw [List.map_append, List.nodup_append] at hn
      exact hn.2.2 d'.name (List.mem_map_of_mem hd') d.name (by simp) (by simpa using heq)
    have hadd : p.add (.declaration d) = .ok { p with declarations := p.declarations ++ [d] } := by
      simp [Program.add, Program.declare, hfree]
    have hrest := ih (fun d' hd' => h d' (List.mem_cons_of_mem _ hd'))
      { p with declarations := p.declarations ++ [d] } (by simpa using hn)
    have hall := ((h d List.mem_cons_self).extends hadd).append hrest
    simpa [Program.terminated, Instruction.chars] using hall

omit [Scalar N] in
/-- An instruction that is no declaration goes to the body. -/
theorem Program.add_of_isDeclaration {i : Instruction N} (h : i.isDeclaration = false) (p : Program N) :
    p.add i = .ok { p with body := p.body ++ [i] } := by
  cases i with
  | declaration d => cases h
  | pragma | call | gate | measurement | fence | delay | frameUpdate | other => rfl

theorem extends_body {is js : List (Instruction N)}
    (h : List.Forall₂ (fun i j => i.ReadsAs j ∧ j.isDeclaration = false) is js) (p : Program N) :
    Extends (Program.terminated (is.map (·.chars))) p { p with body := p.body ++ js } :=
  Extends.terminated _ (fun p js => { p with body := p.body ++ js }) (by simp) (by simp)
    (fun p _ _ hij => hij.1.extends (Program.add_of_isDeclaration hij.2 p)) h p

/-! ## Several sections -/

/-- Sections that make the second program of the first. Empty ones add nothing. -/
inductive Chain : List (List (List Char)) → Program N → Program N → Prop
  | nil (p : Program N) : Chain [] p p
  | skip {parts : List (List (List Char))} {p q : Program N} (h : Chain parts p q) : Chain ([] :: parts) p q
  | cons {part : List (List Char)} {parts : List (List (List Char))} {p q r : Program N} (hne : part ≠ [])
    (hp : Extends (Program.terminated part) p q) (h : Chain parts q r) : Chain (part :: parts) p r

namespace Chain

variable {part : List (List Char)} {parts : List (List (List Char))} {p q r : Program N}

theorem section_cons (he : part = [] → p = q) (hp : Extends (Program.terminated part) p q) (h : Chain parts q r) :
    Chain (part :: parts) p r := by
  by_cases hnil : part = []
  · rw [hnil, he hnil]
    exact skip h
  · exact cons hnil hp h

theorem filter (h : Chain parts p q) : Chain (parts.filter (!·.isEmpty)) p q := by
  induction h with
  | nil p => exact nil p
  | skip h ih => simpa using ih
  | @cons part parts p q r hne hp h ih =>
    have hfilter : (part :: parts).filter (!·.isEmpty) = part :: parts.filter (!·.isEmpty) := by
      rw [List.filter_cons_of_pos]
      simpa using hne
    rw [hfilter]
    exact cons hne hp ih

/-- The sections of a program, each with an empty line behind it. -/
theorem extends_flatMap (h : Chain parts p q) :
    Extends (parts.flatMap fun part => Program.terminated part ++ ['\n']) p q := by
  induction h with
  | nil p => exact Extends.nil p
  | @skip parts p q h ih =>
    have hall := (Extends.newline p).append ih
    simpa [Program.terminated] using hall
  | cons hne hp h ih =>
    have hall := (hp.append (Extends.newline _)).append ih
    simpa using hall

end Chain

theorem joinSections_concat (parts : List (List (List Char))) (part : List (List Char)) :
    Program.joinSections (parts ++ [part]) =
      (parts.flatMap fun part => Program.terminated part ++ ['\n']) ++ Program.terminated part := by
  induction parts with
  | nil => simp [Program.joinSections]
  | cons first parts ih =>
    have hcons : first :: parts ++ [part] = first :: (parts ++ [part]) := rfl
    rw [hcons, Program.joinSections, ih]
    · simp
    · simp

/-- The sections of a program, with empty lines between them. -/
theorem Chain.extends_joinSections {parts : List (List (List Char))} {p q : Program N} (h : Chain parts p q) :
    Extends (Program.joinSections parts) p q := by
  induction h with
  | nil p => exact Extends.nil p
  | @skip parts p q h ih =>
    cases h with
    | nil => exact Extends.nil _
    | skip h =>
      have hall := (Extends.newline p).append ih
      simpa [Program.joinSections, Program.terminated] using hall
    | cons hne hp h =>
      have hall := (Extends.newline p).append ih
      simpa [Program.joinSections, Program.terminated] using hall
  | @cons part parts p q r hne hp h ih =>
    cases h with
    | nil => exact hp
    | skip h =>
      have hall := (hp.append (Extends.newline q)).append ih
      simpa [Program.joinSections] using hall
    | cons hne hp' h =>
      have hall := (hp.append (Extends.newline q)).append ih
      simpa [Program.joinSections] using hall

/-- Reading a whole text. -/
theorem Program.ofChars_of_extends {text : List Char} {q : Program N} (h : Extends text Program.empty q) :
    Program.ofChars text = .ok q := by
  obtain ⟨line, next, hnext, hread⟩ := h 1 ⟨Program.empty, none⟩ [] rfl
  have hlines : Text.lines [] = [] := rfl
  rw [List.append_nil, hlines, readLines] at hread
  unfold Program.ofChars
  rw [hread]
  exact congrArg Except.ok hnext

end QuilControl
