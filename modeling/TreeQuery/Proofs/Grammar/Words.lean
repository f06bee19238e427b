import TreeQuery.Grammar.Literal
import TreeQuery.Proofs.Grammar.Reads

/-! The words of the query language, written and read back: quoted texts, names and whole numbers.
What follows a name or a number must not be able to continue it. -/

namespace TreeQuery

/-! ### Quoted texts -/

namespace Json

theorem hexValue?_hexDigit : ∀ n < 16, hexValue? (Text.hexDigit n) = some n := by decide

/-- The escape of a control character stands for it. -/
theorem escapedChar_control {c : Char} (hc : c.toNat < 32) (rest : List Char) :
    escapedChar ('0' :: '0' :: Text.hexDigit (c.toNat / 16) :: Text.hexDigit (c.toNat % 16) :: rest)
      = .ok (c, 4) := by
  have hunit : codeUnit ('0' :: '0' :: Text.hexDigit (c.toNat / 16) ::
      Text.hexDigit (c.toNat % 16) :: rest) = .ok c.toNat := by
    rw [codeUnit, hexValue?_hexDigit _ (by omega), hexValue?_hexDigit _ (by omega),
      show hexValue? '0' = some 0 by decide]
    simp only [Except.ok.injEq]
    omega
  rw [escapedChar, hunit]
  simp only [Char.ofNat_toNat, ite_eq_left_iff, Bool.not_eq_true, Bool.or_eq_false_iff,
    decide_eq_false_iff_not]
  omega

/-- A character written inside a text is read as itself. -/
theorem readText_documentChar (c : Char) (rest : List Char) :
    readText (Text.documentChar c ++ rest) = (readText rest).map fun (s, r) => (c :: s, r) := by
  unfold Text.documentChar
  split
  case h_8 hquote hslash _ _ _ _ _ =>
    split
    · next hc =>
      simp only [List.cons_append, List.nil_append]
      rw [readText, escapedChar_control hc]
      rfl
    · next hc =>
      rw [List.cons_append, List.nil_append, readText]
      · simp [isControl, hc]
      all_goals simp_all
  all_goals
    simp only [List.cons_append, List.nil_append]
    rw [readText]
    · rfl
    all_goals simp

theorem readText_flatMap (cs rest : List Char) :
    readText (cs.flatMap Text.documentChar ++ '"' :: rest) = .ok (cs, rest) := by
  induction cs with
  | nil => rw [List.flatMap_nil, List.nil_append, readText]
  | cons c cs ih =>
    rw [List.flatMap_cons, List.append_assoc, readText_documentChar, ih]
    rfl

end Json

theorem Text.toList_document (s : String) :
    (Text.document s).toList = '"' :: (s.toList.flatMap documentChar ++ ['"']) := by
  simp [document]

namespace Grammar

theorem reads_documentText (s : String) (rest : List Char) :
    Reads documentText ((Text.document s).toList ++ rest) s rest := by
  rw [Text.toList_document, List.cons_append, List.append_assoc]
  simp [Reads, documentText, Json.readText_flatMap]

theorem reads_quotedText (s : String) (rest : List Char) :
    Reads quotedText ((Text.document s).toList ++ rest) s rest := by
  refine .later (refuses_bind_iff.mpr (.inl (refuses_char ?_))) (reads_documentText s rest).first
  simp [Text.toList_document]

/-! ### Names -/

theorem isNamePart_of_mem {name : String} (h : isIdentifier name = true) :
    ∃ c cs, name.toList = c :: cs ∧ isNameStart c = true ∧ ∀ d ∈ c :: cs, isNamePart d = true := by
  unfold isIdentifier at h
  cases hn : name.toList with
  | nil => simp [hn] at h
  | cons c cs =>
    simp only [hn, Bool.and_eq_true, List.all_eq_true] at h
    refine ⟨c, cs, rfl, h.1, fun d hd => ?_⟩
    rcases List.mem_cons.mp hd with rfl | hd
    · simp [isNamePart, h.1]
    · exact h.2 d hd

theorem reads_identifier {name : String} (h : isIdentifier name = true) {rest : List Char}
    (hrest : Clear isNamePart rest) : Reads identifier (name.toList ++ rest) name rest := by
  obtain ⟨c, cs, hn, hc, hcs⟩ := isNamePart_of_mem h
  have hrun := reads_run hcs hrest
  rw [← hn] at hrun
  have hahead : Reads (ahead isNameStart .word) (name.toList ++ rest) () (name.toList ++ rest) :=
    reads_ahead .word (by simp [hn, hc])
  refine hahead.bind (hrun.bind ?_)
  rw [String.ofList_toList]
  exact reads_pure name rest

theorem reads_operatorName {name : String} (h : isIdentifier name = true)
    (hk : name ∉ keywords) {rest : List Char} (hrest : Clear isNamePart rest) :
    Reads operatorName (name.toList ++ rest) name rest := by
  unfold Reads operatorName
  rw [show identifier (name.toList ++ rest) = .ok (name, rest) from reads_identifier h hrest]
  simp [hk]

theorem reads_keyword (word : List Char) {rest : List Char} (h : Clear isNamePart rest) :
    Reads (keyword word) (word ++ rest) () rest :=
  (reads_tag word rest).bind (reads_notAhead h)

theorem refuses_keyword {word cs : List Char} (h : word.isPrefixOf cs = false) :
    Refuses (keyword word) cs :=
  (refuses_tag h).bind _

/-! ### Whole numbers -/

theorem isDigit_of_mem_toDigits {n : Nat} {c : Char} (h : c ∈ Nat.toDigits 10 n) :
    isDigit c = true := by
  have hd : c.isDigit = true := Nat.isDigit_of_mem_toDigits (by omega) (by omega) h
  simpa [isDigit, Json.isDigit, Char.isDigit, Char.le_def] using hd

theorem digitsValue_toDigits (n : Nat) : Json.digitsValue (Nat.toDigits 10 n) = n := by
  have h := @Nat.ofDigitChars_eq_foldl 10 (Nat.toDigits 10 n) 0
  rw [Nat.ofDigitChars_ten_toDigits] at h
  simpa [Json.digitsValue, Json.digitValue, Nat.mul_comm] using h.symm

theorem reads_digits (cause : Cause) (n : Nat) {rest : List Char} (hrest : Clear isDigit rest) :
    Reads (run1 isDigit cause) ((toString n).toList ++ rest) (Nat.toDigits 10 n) rest := by
  rw [show (toString n).toList = Nat.toDigits 10 n from Nat.toList_repr]
  exact reads_run1 cause Nat.toDigits_ne_nil (fun _ => isDigit_of_mem_toDigits) hrest

theorem reads_scopeIndex {n : Nat} (hn : Json.fitsUnsigned n = true) {rest : List Char}
    (hrest : Clear isDigit rest) :
    Reads scopeIndex ((toString n).toList ++ rest) (some n) rest := by
  have hd : run1 isDigit .number ((toString n).toList ++ rest) = .ok (Nat.toDigits 10 n, rest) :=
    reads_digits .number n hrest
  refine Reads.optional ?_
  simp only [Reads, hd, digitsValue_toDigits, hn, if_true]

theorem reads_scopeIndex_none {rest : List Char} (hrest : Clear isDigit rest) :
    Reads scopeIndex rest none rest := by
  refine Refuses.optional ?_
  obtain ⟨f, hf, hc⟩ := refuses_run1 .number hrest
  exact ⟨f, by simp [hf], hc⟩

theorem toList_toString_int (i : Int) :
    (toString i).toList = (if i < 0 then ['-'] else []) ++ (toString i.natAbs).toList := by
  rw [Int.toString_eq_repr, Int.repr_eq_if, show toString i.natAbs = i.natAbs.repr from rfl]
  by_cases h : 0 ≤ i
  · rw [if_pos h, if_neg (by omega), List.nil_append, show i.toNat = i.natAbs by omega]
  · rw [if_neg h, if_pos (by omega), String.toList_append, show (-i).toNat = i.natAbs by omega]
    rfl

theorem toString_start (n : Nat) :
    ∃ c cs, (toString n).toList = c :: cs ∧ isDigit c = true := by
  rw [show (toString n).toList = Nat.toDigits 10 n from Nat.toList_repr]
  obtain ⟨c, cs, hds⟩ := List.exists_cons_of_ne_nil (Nat.toDigits_ne_nil (n := n) (b := 10))
  exact ⟨c, cs, hds, isDigit_of_mem_toDigits (n := n) (by simp [hds])⟩

/-- The text of a whole number starts with a digit or a minus. -/
theorem toString_int_start (i : Int) :
    ∃ c cs, (toString i).toList = c :: cs ∧ (isDigit c || c == '-') = true := by
  rw [toList_toString_int]
  by_cases h : i < 0
  · rw [if_pos h]
    exact ⟨'-', _, rfl, rfl⟩
  · obtain ⟨c, cs, htext, hc⟩ := toString_start i.natAbs
    rw [if_neg h, htext]
    exact ⟨c, cs, rfl, by simp [hc]⟩

theorem reads_sign_none {cs : List Char} (h : Clear (fun c => c == '-' || c == '+') cs) :
    Reads sign cs false cs := by
  have hminus : Refuses (char '-') cs := refuses_char (h.mono fun c hc => by simp [hc])
  have hplus : Refuses (char '+') cs := refuses_char (h.mono fun c hc => by simp [hc])
  exact .later (hminus.bind _) (.later (hplus.bind _) (reads_pure false cs).first)

theorem reads_sign (i : Int) (rest : List Char) :
    Reads sign ((toString i).toList ++ rest) (decide (i < 0))
      ((toString i.natAbs).toList ++ rest) := by
  rw [toList_toString_int]
  by_cases h : i < 0
  · rw [if_pos h, decide_eq_true h]
    exact ((reads_char '-' _).bind (reads_pure true _)).first
  · rw [if_neg h, decide_eq_false h]
    obtain ⟨c, cs, htext, hc⟩ := toString_start i.natAbs
    rw [htext]
    have hminus : c ≠ '-' := ne_of_holds hc (by decide)
    have hplus : c ≠ '+' := ne_of_holds hc (by decide)
    exact reads_sign_none (clear_cons.mpr (by simp [hminus, hplus]))

/-- A number within 64 signed bits is read back with its sign. -/
theorem reads_integer {i : Int} (hi : Json.fitsSigned i = true) {rest : List Char}
    (hrest : Clear isDigit rest) : Reads integer ((toString i).toList ++ rest) i rest := by
  have hsign := reads_sign i rest
  have hdigits := reads_digits .number i.natAbs hrest
  unfold Reads at hsign hdigits
  have hvalue : (if decide (i < 0) then -(i.natAbs : Int) else i.natAbs) = i := by
    by_cases h : i < 0
    · rw [if_pos (decide_eq_true h)]
      omega
    · rw [if_neg (by simpa using h)]
      omega
  simp only [Reads, integer, hsign, hdigits, bind, Except.bind, digitsValue_toDigits]
  rw [hvalue, hi, if_pos rfl]

theorem refuses_integer {cs : List Char}
    (h : Clear (fun c => isDigit c || c == '-' || c == '+') cs) : Refuses integer cs := by
  have hsign : sign cs = .ok (false, cs) := reads_sign_none (h.mono fun c hc => by grind)
  have hdigit : Clear isDigit cs := h.mono fun c hc => by simp [hc]
  obtain ⟨f, hf, hc⟩ := refuses_run1 .number hdigit
  exact ⟨f, by simp only [integer, hsign, hf, bind, Except.bind], hc⟩

end Grammar

end TreeQuery
