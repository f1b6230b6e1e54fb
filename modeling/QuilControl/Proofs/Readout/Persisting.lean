import QuilControl.Json.Readout
import QuilControl.Proofs.Json.Number

/-!
# Registers that are written and read again

Rows are written without a tag and read as the narrowest type that takes them all. Rows of bytes are read as
they are. Rows of words may come back as bytes, which are the same integers. A real is never read as an
integer, so one real entry keeps the kind of its register; real rows without any entry come back as bytes.
-/

namespace QuilControl

open JsonValue (ofInt ofFloat)

/-! ## Lists -/

theorem traverse?_eq_none {α β : Type} {f : α → Option β} {xs : List α} {x : α} (hx : x ∈ xs) (hf : f x = none) :
    traverse? f xs = none := by
  induction xs with
  | nil => cases hx
  | cons y ys ih =>
    rw [traverse?]
    rcases List.mem_cons.1 hx with rfl | hmem
    · rw [hf]
    · cases f y with
      | none => rfl
      | some z => rw [ih hmem]; rfl

namespace JsonDecoder

variable {α β : Type} {d : JsonDecoder α} {item : β → JsonValue} {depth : Nat} {xs : List β}

theorem list_ofList {f : β → α} (h : ∀ x ∈ xs, d depth (item x) = some (f x)) :
    list d (depth + 1) (.ofList item xs) = some (xs.map f) := by
  rw [JsonValue.ofList, list, traverse?_eq_some_iff, List.map_map, List.map_map]
  exact List.map_congr_left h

theorem list_ofList_eq_none {x : β} (hx : x ∈ xs) (h : d depth (item x) = none) :
    list d (depth + 1) (.ofList item xs) = none :=
  traverse?_eq_none (List.mem_map_of_mem hx) h

variable {rows : List (List β)}

/-- Rows are read entry by entry. -/
theorem rows_ofList {f : β → α} (h : ∀ row ∈ rows, ∀ x ∈ row, d depth (item x) = some (f x)) :
    list (list d) (depth + 2) (.ofList (.ofList item) rows) = some (rows.map (·.map f)) :=
  list_ofList fun row hrow => list_ofList (h row hrow)

theorem rows_ofList_eq_none {row : List β} {x : β} (hrow : row ∈ rows) (hx : x ∈ row)
    (h : d depth (item x) = none) : list (list d) (depth + 2) (.ofList (.ofList item) rows) = none :=
  list_ofList_eq_none hrow (list_ofList_eq_none hx h)

/-- A document that is written is decoded from its text. -/
theorem decode_text (d : JsonDecoder α) {document : JsonValue} (h : document.IsSpelled) :
    decode d document.text = d maxDepth document := by
  rw [decode, JsonValue.ofChars?_text h, Option.bind_some]

theorem integerIn_ofInt {low high i : Int} (h : i.natAbs < 1 <<< 63) :
    integerIn low high depth (ofInt i) = if low ≤ i ∧ i ≤ high then some i else none := by
  simp only [integerIn, filterMap, integer, ofInt, JsonNumber.integer?_ofInt h, Option.bind_some]

theorem integerIn_ofFloat {low high : Int} {v : Float} (h : v.isFinite = true) :
    integerIn low high depth (ofFloat v) = none := by
  simp only [integerIn, filterMap, integer, ofFloat, if_pos h, JsonNumber.integer?_ofFloat, Option.bind_none]

theorem real_ofFloat {v : Float} (h : v.isFinite = true) : real depth (ofFloat v) = (JsonNumber.ofFloat v).real? := by
  rw [ofFloat, if_pos h, real]

end JsonDecoder

/-! ## Rows -/

namespace RegisterData

open JsonDecoder

theorem toMatrix_bytes_of_words {rows : List (List Int16)}
    (h : ∀ row ∈ rows, ∀ x ∈ row, Int8.minValue.toInt ≤ x.toInt ∧ x.toInt ≤ Int8.maxValue.toInt) (register : String) :
    (bytes (rows.map (·.map fun x => Int8.ofInt x.toInt))).toMatrix register = (words rows).toMatrix register := by
  have hentry {row : List Int16} (hrow : row ∈ rows) {x : Int16} (hx : x ∈ row) :
      (Int8.ofInt x.toInt).toInt64 = x.toInt64 := by
    obtain ⟨hlow, hhigh⟩ := h row hrow x hx
    rw [← Int64.toInt_inj, Int8.toInt_toInt64, Int16.toInt_toInt64]
    exact Int8.toInt_ofInt_of_le hlow (Int.lt_add_one_of_le hhigh)
  have hrows : (rows.map (·.map fun x => Int8.ofInt x.toInt)).map (·.map Int8.toInt64) =
      rows.map (·.map Int16.toInt64) := by
    rw [List.map_map]
    refine List.map_congr_left fun row hrow => ?_
    rw [Function.comp_apply, List.map_map]
    exact List.map_congr_left fun x hx => hentry hrow hx
  simp only [toMatrix, stackRows, hrows]

/-! ### Reading -/

variable {depth : Nat}

theorem integerRows_ofInt {β : Type} (depth : Nat) (rows : List (List β)) {toInt : β → Int} {low high : Int}
    (hword : ∀ x, (toInt x).natAbs < 1 <<< 63)
    (h : ∀ row ∈ rows, ∀ x ∈ row, low ≤ toInt x ∧ toInt x ≤ high) :
    integerRows low high (depth + 2) (.ofList (.ofList fun x => ofInt (toInt x)) rows) =
      some (rows.map (·.map toInt)) :=
  rows_ofList fun row hrow x hx => by
    rw [integerIn_ofInt (hword x), if_pos (h row hrow x hx)]

theorem ofJson_bytes (rows : List (List Int8)) :
    ofJson (depth + 2) (.ofList (.ofList fun i => ofInt (Int8.toInt i)) rows) = some (bytes rows) := by
  have hword (x : Int8) : x.toInt.natAbs < 1 <<< 63 := by
    have hlow := x.le_toInt
    have hhigh := x.toInt_lt
    omega
  have hread := integerRows_ofInt depth rows hword fun _ _ x _ => ⟨x.minValue_le_toInt, x.toInt_le⟩
  have hrows : (rows.map (·.map Int8.toInt)).map (·.map Int8.ofInt) = rows := by simp [Function.comp_def]
  rw [ofJson, hread]
  exact congrArg (fun rows => some (bytes rows)) hrows

theorem ofJson_words (rows : List (List Int16)) :
    ∃ data, ofJson (depth + 2) (.ofList (.ofList fun i => ofInt (Int16.toInt i)) rows) = some data ∧
      ∀ register, data.toMatrix register = (words rows).toMatrix register := by
  have hword (x : Int16) : x.toInt.natAbs < 1 <<< 63 := by
    have hlow := x.le_toInt
    have hhigh := x.toInt_lt
    omega
  by_cases hbytes : ∀ row ∈ rows, ∀ x ∈ row, Int8.minValue.toInt ≤ x.toInt ∧ x.toInt ≤ Int8.maxValue.toInt
  · have hread := integerRows_ofInt depth rows hword hbytes
    refine ⟨_, by rw [ofJson, hread], fun register => ?_⟩
    rw [← toMatrix_bytes_of_words hbytes register, List.map_map]
    simp only [Function.comp_def, List.map_map]
  · simp only [not_forall] at hbytes
    obtain ⟨row, hrow, x, hx, hout⟩ := hbytes
    have hrefused : integerRows Int8.minValue.toInt Int8.maxValue.toInt (depth + 2)
        (.ofList (.ofList fun i => ofInt (Int16.toInt i)) rows) = none :=
      rows_ofList_eq_none hrow hx <| by
        rw [integerIn_ofInt (hword x), if_neg hout]
    have hread := integerRows_ofInt depth rows hword fun _ _ x _ =>
      ⟨x.minValue_le_toInt, x.toInt_le⟩
    have hrows : (rows.map (·.map Int16.toInt)).map (·.map Int16.ofInt) = rows := by simp [Function.comp_def]
    refine ⟨words rows, ?_, fun _ => rfl⟩
    rw [ofJson, hrefused, hread]
    exact congrArg (fun rows => some (words rows)) hrows

theorem integerRows_ofFloat {low high : Int} {rows : List (List Float)} {row : List Float} {v : Float}
    (hrow : row ∈ rows) (hv : v ∈ row) (hfinite : v.isFinite = true) :
    integerRows low high (depth + 2) (.ofList (.ofList ofFloat) rows) = none :=
  rows_ofList_eq_none hrow hv (integerIn_ofFloat hfinite)

theorem ofJson_reals {rows : List (List Float)}
    (h : ∀ row ∈ rows, ∀ v ∈ row, v.isFinite = true ∧ (JsonNumber.ofFloat v).real? = some v)
    (hentry : ∃ row ∈ rows, row ≠ []) :
    ofJson (depth + 2) (.ofList (.ofList ofFloat) rows) = some (reals rows) := by
  obtain ⟨row, hrow, hne⟩ := hentry
  obtain ⟨v, hv⟩ := List.exists_mem_of_ne_nil row hne
  have hfinite := (h row hrow v hv).1
  have hread : list (list real) (depth + 2) (.ofList (.ofList ofFloat) rows) = some (rows.map (·.map id)) :=
    rows_ofList fun row hrow v hv => by rw [real_ofFloat (h row hrow v hv).1, (h row hrow v hv).2, id]
  rw [ofJson, integerRows_ofFloat hrow hv hfinite, integerRows_ofFloat hrow hv hfinite, hread]
  simp

/-- Without entries, rows of reals are rows of bytes. -/
theorem ofJson_reals_of_noEntry {rows : List (List Float)} (h : ∀ row ∈ rows, row = []) :
    ofJson (depth + 2) (.ofList (.ofList ofFloat) rows) = some (bytes (rows.map fun _ => [])) := by
  have hread : integerRows Int8.minValue.toInt Int8.maxValue.toInt (depth + 2) (.ofList (.ofList ofFloat) rows) =
      some (rows.map (·.map fun _ => 0)) :=
    rows_ofList fun row hrow v hv => by rw [h row hrow] at hv; cases hv
  have hrows : (rows.map (·.map fun _ => (0 : Int))).map (·.map Int8.ofInt) = rows.map fun _ => [] := by
    rw [List.map_map]
    exact List.map_congr_left fun row hrow => by rw [h row hrow]; rfl
  rw [ofJson, hread]
  exact congrArg (fun rows => some (bytes rows)) hrows

/-! ### Writing -/

theorem isSpelled_rows {β : Type} {item : β → JsonValue} {rows : List (List β)}
    (h : ∀ row ∈ rows, ∀ x ∈ row, (item x).IsSpelled) : (JsonValue.ofList (.ofList item) rows).IsSpelled := by
  refine JsonValue.isSpelled_array (List.forall_mem_map.2 fun row hrow => ?_)
  exact JsonValue.isSpelled_array (List.forall_mem_map.2 (h row hrow))

theorem isSpelled_integers {β : Type} (toInt : β → Int) (rows : List (List β)) :
    (JsonValue.ofList (.ofList fun x => ofInt (toInt x)) rows).IsSpelled :=
  isSpelled_rows fun _ _ x _ => JsonValue.isSpelled_number (JsonNumber.isSpelled_ofInt (toInt x))

theorem isSpelled_reals {rows : List (List Float)} (h : ∀ row ∈ rows, ∀ v ∈ row, v.isFinite = true) :
    (JsonValue.ofList (.ofList ofFloat) rows).IsSpelled :=
  isSpelled_rows fun row hrow v hv => by
    rw [ofFloat, if_pos (h row hrow v hv)]
    exact JsonValue.isSpelled_number (JsonNumber.isSpelled_ofFloat v)

/-- Writing registers and reading them again keeps what they mean. The rows of every register but a complex one
are written, and the text is read: as rows of the same matrix, or of the same fault, unless they are rows of
reals without any entry. Those come back as bytes, with as many rows. -/
theorem decode_toJson {data : RegisterData} (hkind : ∀ rows, data ≠ complexes rows)
    (hreals : ∀ rows, data = reals rows → ∀ row ∈ rows, ∀ v ∈ row,
      v.isFinite = true ∧ (JsonNumber.ofFloat v).real? = some v) :
    ∃ document data', data.toJson = some document ∧ JsonDecoder.decode ofJson document.text = some data' ∧
      ((∀ rows, data = reals rows → ∃ row ∈ rows, row ≠ []) →
        ∀ register, data'.toMatrix register = data.toMatrix register) ∧
      ∀ rows, data = reals rows → (∀ row ∈ rows, row = []) → data' = bytes (rows.map fun _ => []) := by
  cases data with
  | bytes rows =>
    exact ⟨_, bytes rows, rfl, (decode_text _ (isSpelled_integers _ rows)).trans (ofJson_bytes rows),
      fun _ _ => rfl, nofun⟩
  | words rows =>
    obtain ⟨data, hread, hmatrix⟩ := ofJson_words rows
    exact ⟨_, data, rfl, (decode_text _ (isSpelled_integers _ rows)).trans hread, fun _ => hmatrix, nofun⟩
  | reals rows =>
    have hvalues := hreals rows rfl
    have hspelled := isSpelled_reals fun row hrow v hv => (hvalues row hrow v hv).1
    by_cases hentry : ∃ row ∈ rows, row ≠ []
    · refine ⟨_, reals rows, rfl, (decode_text _ hspelled).trans (ofJson_reals hvalues hentry), fun _ _ => rfl, ?_⟩
      rintro _ ⟨⟩ hempty
      obtain ⟨row, hrow, hne⟩ := hentry
      exact absurd (hempty row hrow) hne
    · have hempty : ∀ row ∈ rows, row = [] := by simpa using hentry
      refine ⟨_, _, rfl, (decode_text _ hspelled).trans (ofJson_reals_of_noEntry hempty), fun h => ?_, ?_⟩
      · exact absurd (h rows rfl) hentry
      · rintro _ ⟨⟩ -
        rfl
  | complexes rows => exact absurd rfl (hkind rows)

/-- The number of a half is read as a half. -/
theorem real?_half : (JsonNumber.ofFloat 0.5).real? = some 0.5 := by
  have hinteger : (JsonNumber.ofFloat 0.5).integer? = none := JsonNumber.integer?_ofFloat 0.5
  have hsign : (JsonNumber.ofFloat 0.5).negative = false := by decide +kernel
  have hdigits : (JsonNumber.ofFloat 0.5).digits = ⟨['0'], some ['5'], []⟩ := by
    have hwhole : (JsonNumber.ofFloat 0.5).digits.whole = ['0'] := by decide +kernel
    have hfraction : (JsonNumber.ofFloat 0.5).digits.fraction = some ['5'] := by decide +kernel
    have hpower : (JsonNumber.ofFloat 0.5).digits.power = [] := by decide +kernel
    rw [← hwhole, ← hfraction, ← hpower]
  have hmagnitude : JsonNumber.magnitude? ⟨['0'], some ['5'], []⟩ = JsonNumber.scale (Float.ofNat 5) (-1) := rfl
  have hscale : JsonNumber.scale (Float.ofNat 5) (-1) = some 0.5 := by
    rw [JsonNumber.scale, if_neg (by decide), if_pos (by decide)]
    exact congrArg some (by decide +kernel)
  rw [JsonNumber.real?, hinteger, hdigits, hmagnitude, hscale, hsign]
  rfl

theorem decode_toJson_halves :
    ∃ document data', (reals [[0.5], [0.5]]).toJson = some document ∧
      JsonDecoder.decode ofJson document.text = some data' ∧
      ∀ register, data'.toMatrix register = (reals [[0.5], [0.5]]).toMatrix register := by
  have hhalves : ∀ row ∈ [[0.5], [(0.5 : Float)]], ∀ v ∈ row,
      v.isFinite = true ∧ (JsonNumber.ofFloat v).real? = some v := by
    have hhalf : (0.5 : Float).isFinite = true ∧ (JsonNumber.ofFloat 0.5).real? = some 0.5 :=
      ⟨by decide +kernel, real?_half⟩
    simpa using hhalf
  have hkind : ∀ rows, reals [[0.5], [0.5]] ≠ complexes rows := nofun
  obtain ⟨document, data', hdocument, hread, hmatrix, -⟩ := decode_toJson hkind fun rows hrows => by
    obtain rfl := reals.inj hrows
    exact hhalves
  refine ⟨document, data', hdocument, hread, hmatrix ?_⟩
  rintro _ ⟨⟩
  exact ⟨[0.5], List.mem_cons_self, List.cons_ne_nil _ _⟩

/-- An empty register of reals is written as one of bytes would be, and comes back as a matrix of integers. -/
theorem decode_toJson_empty :
    (reals []).toJson.map JsonValue.text = some "[]" ∧
      ∃ data, JsonDecoder.decode ofJson "[]" = some data ∧
        data.toMatrix "theta" ≠ (reals []).toMatrix "theta" := by
  refine ⟨rfl, bytes [], rfl, fun h => ?_⟩
  cases Except.ok.inj h

end RegisterData

end QuilControl
