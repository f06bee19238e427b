import TreeQuery.Grammar.Condition
import TreeQuery.Proofs.Grammar.Selectors

/-! Operands and predicates read back. An operand starts with a mark of its own, from which it is
told whether it is a literal, a path or a quantified path; what follows a predicate starts no
operand, so that an operator is not taken for one between two. -/

namespace TreeQuery.Grammar

/-- A connective between two conditions. -/
def word : Connective → List Char
  | .or => ['o', 'r']
  | .and => ['a', 'n', 'd']

/-- What can follow a condition inside chains of these connectives. -/
def Follows (ks : List Connective) (tail : List Char) : Prop :=
  Closes tail ∨ ∃ k ∈ ks, ∃ more, tail = ' ' :: (word k ++ ' ' :: more)

theorem Follows.cons {ks : List Connective} {tail : List Char} (h : Follows ks tail)
    (k : Connective) : Follows (k :: ks) tail := by
  rcases h with h | ⟨j, hj, hmore⟩
  · exact .inl h
  · exact .inr ⟨j, List.mem_cons_of_mem k hj, hmore⟩

theorem Follows.stops {ks : List Connective} {tail : List Char} (h : Follows ks tail) :
    Stops tail := by
  rcases h with h | ⟨k, -, more, rfl⟩
  · exact h.mono (by simp)
  · exact endsIn_cons (by decide) _

/-- What follows a condition starts with a mark or the letter of a connective. -/
theorem Follows.clear {ks : List Connective} {tail : List Char} (h : Follows ks tail)
    {f : Char → Bool} (hmarks : [')', ']'].any f = false)
    (hks : ∀ k ∈ ks, Clear f (word k)) : Clear f (tail.dropWhile isSpace) := by
  rcases h with h | ⟨k, hk, more, rfl⟩
  · rw [(takeWhile_of_clear (h.clear rfl)).2]
    exact h.clear hmarks
  · cases k <;> exact hks _ hk

/-! ### Operands -/

/-- The characters that a literal can start with. -/
def isLiteralStart (c : Char) : Bool :=
  isDigit c || c ∈ ['\x60', '-', '"', '\'', '[', '\x7b', 'n', 't', 'f']

/-- The characters that an operand can start with. -/
def isOperandStart (c : Char) : Bool :=
  isLiteralStart c || c ∈ ['$', '@', '^', '.', 's', 'e']

section

variable {q : Parser Condition}

theorem refuses_quantifier {cs : List Char} (hs : Clear (· == 's') cs) (he : Clear (· == 'e') cs) :
    Refuses quantifier cs :=
  .or (((refuses_tag_of_clear hs _).bind _).bind _) (((refuses_tag_of_clear he _).bind _).bind _)

theorem refuses_scope {cs : List Char} (h : Clear (fun c => c == '$' || c == '@' || c == '^') cs) :
    Refuses scope cs := by
  have hroot : Clear (· == '$') cs := h.mono fun c hc => by simp [hc]
  have hat : Clear (· == '@') cs := h.mono fun c hc => by simp [hc]
  have hcaret : Clear (· == '^') cs := h.mono fun c hc => by simp [hc]
  exact .or ((refuses_char hroot).bind _) (.or ((refuses_char hat).bind _)
    ((refuses_run1 .scope hcaret).bind _))

theorem refuses_operandPath {cs : List Char}
    (h : Clear (fun c => c == '$' || c == '@' || c == '^' || c == '.') cs) :
    Refuses (operandPath q) cs := by
  have hscope : Refuses scope cs := refuses_scope (h.mono fun c hc => by simp [hc])
  have hdot : Clear (· == '.') cs := h.mono fun c hc => by simp [hc]
  exact .or (hscope.bind _) ((refuses_ahead .mark hdot).bind _)

theorem refuses_documentLiteral {cs : List Char}
    (h : Clear (fun c => c == '"' || c == '[' || c == '\x7b') cs) : Refuses documentLiteral cs := by
  refine ⟨⟨cs, .operand, false⟩, ?_, rfl⟩
  rw [documentLiteral, if_neg (by simpa [Clear] using h)]

theorem refuses_numberLiteral {cs : List Char} (h : Clear (fun c => isDigit c || c == '-') cs) :
    Refuses numberLiteral cs :=
  (refuses_ahead .operand h).bind _

theorem refuses_literal {cs : List Char} (h : Clear isLiteralStart cs) : Refuses literal cs := by
  have hmono : ∀ d, isLiteralStart d = true → Clear (· == d) cs := fun d hd =>
    h.mono fun c hc => by rwa [beq_iff_eq.mp hc]
  have hmark : Refuses (char '\x60') cs := refuses_char (hmono _ rfl)
  have hdocument : Refuses documentLiteral cs := by
    refine refuses_documentLiteral (h.mono fun c hc => ?_)
    simp only [Bool.or_eq_true, beq_iff_eq] at hc
    rcases hc with (rfl | rfl) | rfl <;> rfl
  have hnumber : Refuses numberLiteral cs := by
    refine refuses_numberLiteral (h.mono fun c hc => ?_)
    rcases Bool.or_eq_true_iff.mp hc with hc | hc
    · simp [isLiteralStart, hc]
    · rw [beq_iff_eq.mp hc]
      rfl
  have hword : ∀ d word, isLiteralStart d = true → Refuses (keyword (d :: word)) cs :=
    fun d word hd => (refuses_tag_of_clear (hmono d hd) word).bind _
  exact hmark.optional.bind_refuses (.or ((hword 'n' _ rfl).bind _) (.or ((hword 't' _ rfl).bind _)
    (.or ((hword 'f' _ rfl).bind _) (.or (((refuses_char (hmono '\'' rfl)).bind _).bind _)
      (.or hdocument hnumber)))))

theorem refuses_operand {cs : List Char} (h : Clear isOperandStart cs) :
    Refuses (operand q) cs := by
  have hmono : ∀ d, isOperandStart d = true → Clear (· == d) cs := fun d hd =>
    h.mono fun c hc => by rwa [beq_iff_eq.mp hc]
  have hpath : Refuses (operandPath q) cs := by
    refine refuses_operandPath (h.mono fun c hc => ?_)
    simp only [Bool.or_eq_true, beq_iff_eq] at hc
    rcases hc with ((rfl | rfl) | rfl) | rfl <;> rfl
  have hliteral : Clear isLiteralStart cs := h.mono fun c hc => by simp [isOperandStart, hc]
  exact .or ((refuses_quantifier (hmono 's' rfl) (hmono 'e' rfl)).bind _)
    (.or (hpath.bind _) ((refuses_literal hliteral).bind _))

end

section

variable {q : Parser Condition}

/-- The word for how a condition ranges over what a path finds. -/
def rangeWord : Quantifier → List Char
  | .some => ['s', 'o', 'm', 'e']
  | .every => ['e', 'v', 'e', 'r', 'y']

/-- The filters of an operand are read. -/
def ReadsFiltersOf (q : Parser Condition) : Operand → Prop
  | .value _ => True
  | .path p _ => ReadsFilters q p

theorem root_start (index : Nat) : StartsIn ['$'] (Selector.root index).display.toList := by
  cases index with
  | zero => exact ⟨'$', by decide, _, rfl⟩
  | succ n =>
    rw [Selector.display, String.toList_append]
    · exact ⟨'$', by decide, _, rfl⟩
    · exact Nat.succ_ne_zero n

theorem relative_start (index : Nat) :
    StartsIn ['@', '^'] (Selector.relative index).display.toList := by
  rcases index with _ | _ | n
  · exact ⟨'@', by decide, _, rfl⟩
  · exact ⟨'^', by decide, _, rfl⟩
  · rw [Selector.display, String.toList_append]
    · exact ⟨'@', by decide, _, rfl⟩
    · exact Nat.succ_ne_zero _
    · simp

/-- A path starts with the mark of its scope. -/
theorem path_start {literal : Value → Prop} {p : Path} (hp : p.WellFormed literal) :
    StartsIn ['$', '@', '^'] p.display.toList := by
  cases p with
  | nil => exact False.elim hp
  | cons s more =>
    rw [Path.display, Selector.displayAll, String.toList_append]
    cases s with
    | root index => exact ((root_start index).mono (by simp)).append _
    | relative index => exact ((relative_start index).mono (by simp)).append _
    | _ => exact False.elim hp

theorem toList_display_quantified (p : Path) (range : Quantifier) :
    (Operand.path p (some range)).display.toList = rangeWord range ++ ' ' :: p.display.toList := by
  cases range <;> simp [Operand.display, Path.display, rangeWord]

/-- The marks and letters that the text of an operand starts with. -/
theorem operand_start {literal : Value → Prop} {x : Operand} (hx : x.WellFormed literal) :
    StartsIn ['\x60', 's', 'e', '$', '@', '^'] x.display.toList := by
  cases x with
  | value v =>
    rw [Operand.display, String.toList_append]
    exact ⟨'\x60', by decide, _, rfl⟩
  | path p range? =>
    cases range? with
    | none =>
      have hp : Path.WellFormed literal p := hx
      exact (path_start hp).mono (by simp)
    | some range =>
      rw [toList_display_quantified]
      cases range with
      | some => exact ⟨'s', by decide, _, rfl⟩
      | every => exact ⟨'e', by decide, _, rfl⟩

theorem reads_quantifier (range : Quantifier) (rest : List Char) :
    Reads quantifier (rangeWord range ++ ' ' :: rest) range (' ' :: rest) := by
  have hblank : Clear isNamePart (' ' :: rest) := clear_cons.mpr rfl
  cases range with
  | some => exact Reads.first ((reads_keyword _ hblank).bind (reads_pure _ _))
  | every =>
    exact .later ((refuses_keyword rfl).bind _)
      (Reads.first ((reads_keyword _ hblank).bind (reads_pure _ _)))

theorem reads_pathOperand {p : Path} (hp : p.WellFormed Value.ReadsBack)
    (hq : ReadsFilters q p) (range? : Option Quantifier) {rest : List Char} (hrest : Stops rest) :
    ∃ p' : Path, Reads (operand q) ((Operand.path p range?).display.toList ++ rest)
      (.path p' range?) rest ∧ p'.equal p.regrouped = true := by
  obtain ⟨p', hread, heq⟩ := reads_path hp hq hrest
  refine ⟨p', ?_, heq⟩
  have hstart := path_start hp
  have hpath : Reads (operandPath q) (p.display.toList ++ rest) p' rest := Reads.first hread
  cases range? with
  | none =>
    have hquantifier : Refuses quantifier (p.display.toList ++ rest) :=
      refuses_quantifier (hstart.clear rfl rest) (hstart.clear rfl rest)
    exact .later (hquantifier.bind _) (Reads.first (hpath.bind (reads_pure _ rest)))
  | some range =>
    have hclear : Clear isSpace (p.display.toList ++ rest) := hstart.clear rfl rest
    have hspace := reads_run1 .mark (List.cons_ne_nil ' ' []) (by simp [isSpace]) hclear
    have hword := reads_quantifier range (p.display.toList ++ rest)
    rw [toList_display_quantified, List.append_assoc, List.cons_append]
    exact Reads.first (hword.bind (hspace.bind (hpath.bind (reads_pure _ rest))))

/-- An operand is read back, up to the grouping in its filters. -/
theorem reads_operand {x : Operand} (hx : x.WellFormed Value.ReadsBack)
    (hq : ReadsFiltersOf q x) {rest : List Char} (hrest : Stops rest) :
    ∃ x', Reads (operand q) (x.display.toList ++ rest) x' rest ∧ x'.equal x.regrouped = true := by
  cases x with
  | value v =>
    obtain ⟨w, hw, heq⟩ := reads_literal hx hrest
    refine ⟨.value w, ?_, by rwa [Operand.regrouped, Operand.equal]⟩
    have hdisplay : (Operand.value v).display.toList ++ rest = '\x60' :: (v.text ++ rest) := by
      simp [Operand.display, Value.text]
    rw [hdisplay]
    have hquantifier : Refuses quantifier ('\x60' :: (v.text ++ rest)) :=
      refuses_quantifier (clear_cons.mpr rfl) (clear_cons.mpr rfl)
    have hpath : Refuses (operandPath q) ('\x60' :: (v.text ++ rest)) :=
      refuses_operandPath (clear_cons.mpr rfl)
    exact .later (hquantifier.bind _) (.later (hpath.bind _)
      (Reads.first (hw.bind (reads_pure _ rest))))
  | path p range =>
    obtain ⟨p', hread, heq⟩ := reads_pathOperand hx hq range hrest
    refine ⟨.path p' range, hread, ?_⟩
    rw [Operand.regrouped, Operand.equal, Bool.and_eq_true]
    exact ⟨heq, beq_self_eq_true range⟩

/-! ### Predicates -/

theorem clear_isSpace_name {name : String} (h : isIdentifier name = true) (rest : List Char) :
    Clear isSpace (name.toList ++ rest) := by
  obtain ⟨c, cs, hname, hc, -⟩ := isNamePart_of_mem h
  rw [hname]
  exact clear_isSpace_of_holds hc rfl _

theorem toList_display_unary (op : String) (x : Operand) :
    (Condition.unary op false x).display.toList = x.display.toList ++ ' ' :: op.toList := by
  simp [Condition.display, negation]

theorem toList_display_binary (op : String) (l r : Operand) :
    (Condition.binary op false l r).display.toList =
      l.display.toList ++ ' ' :: (op.toList ++ ' ' :: r.display.toList) := by
  simp [Condition.display, negation]

variable {op : String} (hop : isIdentifier op = true ∧ op ∉ keywords)

include hop

/-- A unary predicate is read back, if it is not negated and no operand follows it. -/
theorem reads_unary {x : Operand} (hx : x.WellFormed Value.ReadsBack)
    (hq : ReadsFiltersOf q x) {ks : List Connective} {tail : List Char} (htail : Follows ks tail) :
    ∃ c', Reads (predicate q) ((Condition.unary op false x).display.toList ++ tail) c' tail ∧
      c'.equal (Condition.unary op false x).regrouped = true := by
  have hblank : Stops (' ' :: (op.toList ++ tail)) := endsIn_cons (by decide) _
  obtain ⟨x', hread, heq⟩ := reads_operand hx hq hblank
  refine ⟨.unary op false x', ?_, by simp [Condition.regrouped, Condition.equal, heq]⟩
  have hclear : Clear isOperandStart (tail.dropWhile isSpace) :=
    htail.clear rfl fun k _ => by cases k <;> rfl
  have hnone : Refuses (do spaces; operand q) tail :=
    (reads_spaces tail).bind_refuses (refuses_operand hclear)
  have hname := reads_operatorName hop.1 hop.2 (htail.stops.clear rfl)
  rw [toList_display_unary, List.append_assoc, List.cons_append]
  exact hread.bind ((reads_spaces_blank (clear_isSpace_name hop.1 tail)).bind
    (hname.bind (hnone.optional.bind (reads_pure _ tail))))

theorem reads_binary {l r : Operand} (hl : l.WellFormed Value.ReadsBack)
    (hr : r.WellFormed Value.ReadsBack) (hql : ReadsFiltersOf q l)
    (hqr : ReadsFiltersOf q r) {tail : List Char} (htail : Stops tail) :
    ∃ c', Reads (predicate q) ((Condition.binary op false l r).display.toList ++ tail) c' tail ∧
      c'.equal (Condition.binary op false l r).regrouped = true := by
  have hblank : Stops (' ' :: (op.toList ++ ' ' :: (r.display.toList ++ tail))) :=
    endsIn_cons (by decide) _
  obtain ⟨l', hreadl, heql⟩ := reads_operand hl hql hblank
  obtain ⟨r', hreadr, heqr⟩ := reads_operand hr hqr htail
  refine ⟨.binary op false l' r', ?_, by simp [Condition.regrouped, Condition.equal, heql, heqr]⟩
  have hname : Reads operatorName (op.toList ++ ' ' :: (r.display.toList ++ tail)) op _ :=
    reads_operatorName hop.1 hop.2 (clear_cons.mpr rfl)
  have hsome : Reads (do spaces; operand q) (' ' :: (r.display.toList ++ tail)) r' tail :=
    (reads_spaces_blank ((operand_start hr).clear rfl tail)).bind hreadr
  rw [toList_display_binary, List.append_assoc, List.cons_append, List.append_assoc,
    List.cons_append]
  exact hreadl.bind ((reads_spaces_blank (clear_isSpace_name hop.1 _)).bind
    (hname.bind (hsome.optional.bind (reads_pure _ tail))))

end

end TreeQuery.Grammar
