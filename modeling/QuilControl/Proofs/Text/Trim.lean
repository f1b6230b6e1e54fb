import Mathlib.Data.List.TakeWhile
import QuilControl.Text.Blank

/-!
# Trimmed text

Trimming gives a stretch of the text whose ends are no white space, and leaves such a text as it is.
-/

namespace QuilControl.Text

def solidStart (text : List Char) : Prop := ∀ c ∈ text.head?, isWhiteSpace c = false

def solidEnd (text : List Char) : Prop := ∀ c ∈ text.getLast?, isWhiteSpace c = false

instance (text : List Char) : Decidable (solidStart text) := Option.decidableForallMem text.head?

instance (text : List Char) : Decidable (solidEnd text) := Option.decidableForallMem text.getLast?

theorem solidStart_append {a : List Char} (h : solidStart a) (hne : a ≠ []) (b : List Char) :
    solidStart (a ++ b) := by
  obtain ⟨c, cs, rfl⟩ := List.exists_cons_of_ne_nil hne
  exact h

theorem solidEnd_append {b : List Char} (h : solidEnd b) (hne : b ≠ []) (a : List Char) :
    solidEnd (a ++ b) := by
  intro c hc
  rw [List.getLast?_append, List.getLast?_eq_some_getLast hne] at hc
  refine h c ?_
  rw [List.getLast?_eq_some_getLast hne]
  exact hc

theorem solidEnd_concat (a : List Char) {c : Char} (h : isWhiteSpace c = false) : solidEnd (a ++ [c]) := by
  intro d hd
  simp only [List.getLast?_concat, Option.mem_def, Option.some.injEq] at hd
  rw [← hd, h]

theorem solidEnd_of_forall {a : List Char} (h : ∀ c ∈ a, isWhiteSpace c = false) : solidEnd a :=
  fun c hc => h c (List.mem_of_getLast? hc)

/-! ## Ends -/

theorem prefix_trimEnd (text : List Char) : trimEnd text <+: text := by
  induction text with
  | nil => exact List.prefix_refl _
  | cons c rest ih =>
    rw [trimEnd]
    split
    · split
      · exact List.nil_prefix
      · exact ⟨rest, rfl⟩
    · next kept hkept => exact (List.cons_prefix_cons).2 ⟨rfl, ih⟩

theorem solidEnd_trimEnd (text : List Char) : solidEnd (trimEnd text) := by
  induction text with
  | nil => intro c hc; cases hc
  | cons c rest ih =>
    rw [trimEnd]
    split
    · split
      · intro d hd; cases hd
      · next hc => exact solidEnd_concat [] (Bool.eq_false_iff.2 hc)
    · next kept hkept => exact solidEnd_append (a := [c]) ih hkept

theorem trimEnd_eq_self {text : List Char} (h : solidEnd text) : trimEnd text = text := by
  induction text with
  | nil => rfl
  | cons c rest ih =>
    by_cases hrest : rest = []
    · subst hrest
      have hc : isWhiteSpace c = false := h c rfl
      simp [trimEnd, hc]
    · have hlast : solidEnd rest := by
        intro d hd
        refine h d ?_
        rw [List.getLast?_cons, List.getLast?_eq_some_getLast hrest] at *
        exact hd
      rw [trimEnd, ih hlast]
      cases rest with
      | nil => exact absurd rfl hrest
      | cons d ds => rfl

theorem trimEnd_eq_nil {text : List Char} : trimEnd text = [] ↔ isBlank text = true := by
  unfold isBlank
  induction text with
  | nil => simp [trimEnd]
  | cons c rest ih =>
    rw [trimEnd, List.all_cons, Bool.and_eq_true, ← ih]
    cases hrest : trimEnd rest with
    | nil => by_cases hc : isWhiteSpace c = true <;> simp [hc]
    | cons d ds => simp

theorem trimEnd_append_blanks (text : List Char) {gap : List Char} (h : ∀ c ∈ gap, isWhiteSpace c = true) :
    trimEnd (text ++ gap) = trimEnd text := by
  induction text with
  | nil => exact trimEnd_eq_nil.2 (List.all_eq_true.2 h)
  | cons d rest ih => rw [List.cons_append, trimEnd, trimEnd, ih]

theorem trimEnd_append (a : List Char) {b : List Char} (h : isBlank b = false) : trimEnd (a ++ b) = a ++ trimEnd b := by
  induction a with
  | nil => rfl
  | cons c a ih =>
    rw [List.cons_append, trimEnd, ih]
    split
    · next hnil =>
      have hb := (List.append_eq_nil_iff.1 hnil).2
      rw [trimEnd_eq_nil, h] at hb
      cases hb
    · rfl

theorem exists_trimEnd_append (text : List Char) :
    ∃ gap, text = trimEnd text ++ gap ∧ ∀ c ∈ gap, isWhiteSpace c = true := by
  induction text with
  | nil => exact ⟨[], rfl, List.forall_mem_nil _⟩
  | cons c rest ih =>
    obtain ⟨gap, hrest, hgap⟩ := ih
    rw [trimEnd]
    split
    · next hnil =>
      rw [hnil] at hrest
      split
      · next hc => exact ⟨c :: rest, rfl, List.forall_mem_cons.2 ⟨hc, hrest ▸ hgap⟩⟩
      · exact ⟨gap, congrArg (c :: ·) hrest, hgap⟩
    · exact ⟨gap, congrArg (c :: ·) hrest, hgap⟩

theorem isBlank_trimEnd (text : List Char) : isBlank (trimEnd text) = isBlank text := by
  rw [Bool.eq_iff_iff, ← trimEnd_eq_nil, ← trimEnd_eq_nil, trimEnd_eq_self (solidEnd_trimEnd text)]

/-! ## Both ends -/

theorem solidStart_trimStart (text : List Char) : solidStart (trimStart text) := by
  intro c hc
  have h := List.head?_dropWhile_not isWhiteSpace text
  unfold trimStart at hc
  rw [Option.mem_def] at hc
  rw [hc] at h
  exact h

theorem trimStart_eq_self {text : List Char} (h : solidStart text) : trimStart text = text := by
  cases text with
  | nil => rfl
  | cons c rest => exact List.dropWhile_cons_of_neg (by rw [h c rfl]; simp)

theorem trimStart_append {a : List Char} (h : isBlank a = false) (b : List Char) :
    trimStart (a ++ b) = trimStart a ++ b := by
  induction a with
  | nil => cases h
  | cons c a ih =>
    unfold trimStart at ih ⊢
    by_cases hc : isWhiteSpace c = true
    · rw [List.cons_append, List.dropWhile_cons_of_pos hc, List.dropWhile_cons_of_pos hc]
      exact ih (by simpa [isBlank, hc] using h)
    · rw [List.cons_append, List.dropWhile_cons_of_neg hc, List.dropWhile_cons_of_neg hc, List.cons_append]

theorem solidStart_mono {a b : List Char} (h : solidStart b) (hp : a <+: b) : solidStart a := by
  obtain ⟨tail, rfl⟩ := hp
  intro c hc
  cases a with
  | nil => cases hc
  | cons d ds => exact h c hc

theorem solidStart_trim (text : List Char) : solidStart (trim text) :=
  solidStart_mono (solidStart_trimStart text) (prefix_trimEnd _)

theorem solidEnd_trim (text : List Char) : solidEnd (trim text) := solidEnd_trimEnd _

theorem trim_eq_self {text : List Char} (hs : solidStart text) (he : solidEnd text) : trim text = text := by
  rw [trim, trimStart_eq_self hs, trimEnd_eq_self he]

theorem isBlank_trimStart {text : List Char} : isBlank (trimStart text) = isBlank text := by
  unfold trimStart isBlank
  induction text with
  | nil => rfl
  | cons c rest ih =>
    by_cases hc : isWhiteSpace c = true
    · rw [List.dropWhile_cons_of_pos hc, List.all_cons, hc, ih]
      rfl
    · rw [List.dropWhile_cons_of_neg hc]

theorem trim_append {a b : List Char} (ha : isBlank a = false) (hb : isBlank b = false) :
    trim (a ++ b) = trimStart a ++ trimEnd b := by
  rw [trim, trimStart_append ha, trimEnd_append _ hb]

theorem trim_eq_nil {text : List Char} : trim text = [] ↔ isBlank text = true := by
  rw [trim, trimEnd_eq_nil, isBlank_trimStart]

theorem trim_trimEnd (text : List Char) : trim (trimEnd text) = trim text := by
  obtain ⟨gap, hgap, hblank⟩ := exists_trimEnd_append text
  cases h : isBlank text with
  | true => rw [trim_eq_nil.2 h, trim_eq_nil, isBlank_trimEnd, h]
  | false =>
    have hsolid : isBlank (trimEnd text) = false := by rw [isBlank_trimEnd, h]
    have hstart : trimStart text = trimStart (trimEnd text) ++ gap := by rw [← trimStart_append hsolid, ← hgap]
    rw [trim, trim, hstart, trimEnd_append_blanks _ hblank]

theorem trim_sublist (text : List Char) : (trim text).Sublist text :=
  (prefix_trimEnd _).sublist.trans (List.dropWhile_sublist _)

/-- A text is blanks, its trimmed form and more blanks. -/
theorem exists_blanks_append (text : List Char) :
    ∃ before after, text = before ++ (trim text ++ after) ∧ (∀ c ∈ before, isWhiteSpace c = true) ∧
      ∀ c ∈ after, isWhiteSpace c = true := by
  obtain ⟨after, hafter, hblank⟩ := exists_trimEnd_append (trimStart text)
  refine ⟨text.takeWhile isWhiteSpace, after, ?_, fun c hc => List.mem_takeWhile_imp hc, hblank⟩
  rw [trim, ← hafter, trimStart, List.takeWhile_append_dropWhile]

theorem count_trim (text : List Char) {c : Char} (hc : isWhiteSpace c = false) :
    (trim text).count c = text.count c := by
  obtain ⟨before, after, htext, hbefore, hafter⟩ := exists_blanks_append text
  have hnone {blanks : List Char} (h : ∀ d ∈ blanks, isWhiteSpace d = true) : blanks.count c = 0 :=
    List.count_eq_zero.2 fun hm => by
      rw [h c hm] at hc
      cases hc
  have hcount := congrArg (List.count c) htext
  rw [List.count_append, List.count_append, hnone hbefore, hnone hafter] at hcount
  omega

theorem not_isBlank {text : List Char} (hs : solidStart text) (hne : text ≠ []) : isBlank text = false := by
  obtain ⟨c, cs, rfl⟩ := List.exists_cons_of_ne_nil hne
  simp [isBlank, hs c rfl]

theorem not_isBlank_trim {text : List Char} (h : isBlank text = false) : isBlank (trim text) = false := by
  refine not_isBlank (solidStart_trim text) fun hnil => ?_
  rw [trim_eq_nil, h] at hnil
  cases hnil

end QuilControl.Text
