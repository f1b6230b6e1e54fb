import QuilControl.Proofs.Text.Trim

/-!
# Lines of a text

A line that does not end with white space keeps all its characters when it is written with a line end
behind it and cut out again.
-/

namespace QuilControl.Text

theorem dropCarriageReturn_eq_self {line : List Char} (h : solidEnd line) : dropCarriageReturn line = line := by
  fun_induction dropCarriageReturn line with
  | case1 => rfl
  | case2 => exact absurd (h '\r' rfl) (by decide)
  | case3 c rest hrest ih =>
    rw [ih]
    intro d hd
    refine h d ?_
    rw [List.getLast?_cons, Option.mem_def.1 hd]
    rfl

theorem dropCarriageReturn_cases (line : List Char) :
    dropCarriageReturn line = line ∨ line = dropCarriageReturn line ++ ['\r'] := by
  fun_induction dropCarriageReturn line with
  | case1 => exact Or.inl rfl
  | case2 => exact Or.inr rfl
  | case3 c rest _ ih => exact ih.imp (congrArg (c :: ·)) (congrArg (c :: ·))

theorem mem_of_mem_dropCarriageReturn {line : List Char} {c : Char} (h : c ∈ dropCarriageReturn line) :
    c ∈ line := by
  fun_induction dropCarriageReturn line with
  | case1 => exact h
  | case2 => simp at h
  | case3 d rest _ ih =>
    rcases List.mem_cons.1 h with rfl | h
    · exact List.mem_cons_self
    · exact List.mem_cons_of_mem _ (ih h)

theorem go_append {line : List Char} (h : '\n' ∉ line) (current rest : List Char) :
    lines.go current (line ++ '\n' :: rest) =
      dropCarriageReturn (current.reverse ++ line) :: lines.go [] rest := by
  induction line generalizing current with
  | nil => simp [lines.go]
  | cons c line ih =>
    simp only [List.mem_cons, not_or] at h
    rw [List.cons_append, lines.go, if_neg (Ne.symm h.1), ih h.2]
    simp

/-- A line in front of a text. -/
theorem lines_append {line : List Char} (hn : '\n' ∉ line) (he : solidEnd line) (rest : List Char) :
    lines (line ++ '\n' :: rest) = line :: lines rest := by
  rw [lines, go_append hn]
  simp [lines, dropCarriageReturn_eq_self he]

theorem go_line {line : List Char} (h : '\n' ∉ line) {current : List Char} (hne : current.reverse ++ line ≠ []) :
    lines.go current line = [current.reverse ++ line] := by
  induction line generalizing current with
  | nil =>
    have hcurrent : current.isEmpty = false := by simpa using hne
    simp [lines.go, hcurrent]
  | cons c line ih =>
    simp only [List.mem_cons, not_or] at h
    rw [lines.go, if_neg (Ne.symm h.1), ih h.2 (by simp)]
    simp

/-- A text without line ends is one line. -/
theorem lines_line {line : List Char} (h : '\n' ∉ line) (hne : line ≠ []) : lines line = [line] :=
  go_line h (by simpa using hne)

/-- Several lines in front of a text. -/
theorem lines_append_all {first : List Char} {others : List (List Char)} (hn : '\n' ∉ first)
    (he : solidEnd first) (h : ∀ l ∈ others, '\n' ∉ l ∧ solidEnd l) (rest : List Char) :
    lines (first ++ others.flatMap ('\n' :: ·) ++ '\n' :: rest) = first :: others ++ lines rest := by
  induction others generalizing first with
  | nil => simp [lines_append hn he]
  | cons l others ih =>
    have hl := h l List.mem_cons_self
    have hrest := ih hl.1 hl.2 fun m hm => h m (List.mem_cons_of_mem _ hm)
    simp only [List.flatMap_cons, List.cons_append, List.append_assoc] at hrest ⊢
    rw [lines_append hn he, hrest]

theorem go_newline {text current line : List Char} (hc : '\n' ∉ current) (h : line ∈ lines.go current text) :
    '\n' ∉ line := by
  induction text generalizing current with
  | nil =>
    rw [lines.go] at h
    by_cases hnil : current.isEmpty = true
    · simp [hnil] at h
    · simp only [hnil, Bool.false_eq_true, if_false, List.mem_singleton] at h
      rw [h]
      simpa using hc
  | cons c text ih =>
    rw [lines.go] at h
    by_cases hnewline : c = '\n'
    · rw [if_pos hnewline] at h
      rcases List.mem_cons.1 h with rfl | h
      · intro hm
        have := mem_of_mem_dropCarriageReturn hm
        exact hc (by simpa using this)
      · exact ih (by simp) h
    · rw [if_neg hnewline] at h
      exact ih (by simp [hc, Ne.symm hnewline]) h

theorem newline_notMem_lines {text line : List Char} (h : line ∈ lines text) : '\n' ∉ line :=
  go_newline (by simp) h

/-! ## A line end inside a text -/

theorem go_append_newline (a current b : List Char) :
    lines.go current (a ++ '\n' :: b) = lines.go current (a ++ ['\n']) ++ lines b := by
  induction a generalizing current with
  | nil => simp [lines.go, lines]
  | cons c a ih =>
    rw [List.cons_append, List.cons_append, lines.go, lines.go]
    split
    · rw [ih, List.cons_append]
    · exact ih _

/-- The lines in front of a line end, and those behind it. -/
theorem lines_append_newline (a b : List Char) : lines (a ++ '\n' :: b) = lines (a ++ ['\n']) ++ lines b :=
  go_append_newline a [] b

theorem exists_go_concat_newline (a current : List Char) :
    ∃ front last, lines.go current (a ++ ['\n']) = front ++ [dropCarriageReturn last] ∧
      lines.go current a = front ++ if last.isEmpty then [] else [last] := by
  induction a generalizing current with
  | nil => exact ⟨[], current.reverse, by simp [lines.go], by simp [lines.go]⟩
  | cons c a ih =>
    rw [List.cons_append, lines.go, lines.go]
    split
    · obtain ⟨front, last, hwith, hwithout⟩ := ih []
      exact ⟨dropCarriageReturn current.reverse :: front, last, by rw [hwith, List.cons_append],
        by rw [hwithout, List.cons_append]⟩
    · exact ih _

/-- A line end behind a text ends its last line, or adds an empty one. -/
theorem exists_lines_concat_newline (a : List Char) :
    ∃ front last, lines (a ++ ['\n']) = front ++ [dropCarriageReturn last] ∧
      lines a = front ++ if last.isEmpty then [] else [last] :=
  exists_go_concat_newline a []

end QuilControl.Text
