import TreeQuery.Grammar.Text
import TreeQuery.Proofs.Grammar.Gives
import TreeQuery.Proofs.Path.Regular

/-! Paths and conditions read from a text are regular. The grammar is gone through parser by parser;
the parsers of paths take what conditions give as an assumption, which the induction on the nesting
of atoms discharges. -/

namespace TreeQuery.Grammar

/-! ### Words -/

theorem gives_identifier : Gives (fun name => isIdentifier name = true) identifier := by
  intro cs name rest hread
  obtain ⟨_, mid, hahead, hread⟩ := reads_bind_iff.mp hread
  obtain ⟨word, after, hrun, hread⟩ := reads_bind_iff.mp hread
  cases hread
  unfold Reads ahead at hahead
  split at hahead
  next hstart =>
    cases hahead
    cases hrun
    cases cs with
    | nil => cases hstart
    | cons c cs =>
      have hc : isNameStart c = true := hstart
      simp [isIdentifier, isNamePart, hc]
  · cases hahead

theorem gives_operatorName :
    Gives (fun name => isIdentifier name = true ∧ name ∉ keywords) operatorName := by
  intro cs name rest hread
  unfold Reads operatorName at hread
  split at hread
  next word after hword =>
    split at hread
    · cases hread
    next hkeyword =>
      cases hread
      exact ⟨gives_identifier _ _ _ hword, by simpa using hkeyword⟩
  · cases hread

/-! ### Literals -/

theorem gives_float : Gives (fun x => x.isNaN = false) float := by
  refine Gives.named ?_ _
  refine gives_bind fun negative => gives_bind fun digits => gives_bind fun exponent => ?_
  cases negative with
  | true => exact gives_pure (Decimal.isNaN_neg (Decimal.isNaN_nearest _ _))
  | false => exact gives_pure (Decimal.isNaN_nearest _ _)

theorem gives_documentLiteral : Gives Value.Solid documentLiteral := by
  intro cs v rest hread
  unfold Reads documentLiteral at hread
  split at hread
  · split at hread
    next j after hj =>
      cases hread
      exact Value.solid_of_readPrefix hj
    · cases hread
  · cases hread

theorem gives_literal : Gives Value.Solid literal := by
  refine gives_bind fun _ => .or ?wordNull (.or ?wordTrue (.or ?wordFalse (.or ?text
    (gives_documentLiteral.or ?number))))
  case wordNull => exact gives_bind fun _ => gives_pure Value.solid_null
  case wordTrue => exact gives_bind fun _ => gives_pure (Value.solid_bool true)
  case wordFalse => exact gives_bind fun _ => gives_pure (Value.solid_bool false)
  case text => exact gives_bind fun s => gives_pure (Value.solid_string s)
  case number =>
    exact gives_bind fun _ => gives_float.bind fun x hx => gives_pure (Value.solid_number hx)

/-! ### Paths -/

theorem gives_scope : Gives (fun s => s.isScope = true) scope :=
  .or (gives_bind fun _ => gives_bind fun _ => gives_pure rfl)
    (.or (gives_bind fun _ => gives_bind fun _ => gives_pure rfl)
      (gives_bind fun _ => gives_pure rfl))

theorem gives_slice : Gives Selector.Regular slice :=
  gives_bind fun _ => gives_bind fun _ => gives_bind fun _ => gives_bind fun _ =>
    gives_pure trivial

/-- A single name after dots. -/
theorem gives_dotted (deep : Bool) :
    Gives Selector.Regular (do return .named [← identifier] deep) :=
  gives_bind fun name => gives_pure (List.cons_ne_nil name [])

theorem gives_names (opening closing : List Char) (deep : Bool) :
    Gives Selector.Regular (do return .named (← between opening nameList closing) deep) :=
  ((gives_commaList _).between opening closing).bind fun _ hnames => gives_pure hnames

theorem gives_positions (opening closing : List Char) :
    Gives Selector.Regular (do return .elements (← between opening positionList closing)) :=
  ((gives_commaList _).between opening closing).bind fun _ hpositions => gives_pure hpositions

section

variable {condition : Parser Condition} (hcondition : Gives Condition.Regular condition)
include hcondition

theorem gives_filter (opening closing : List Char) (deep : Bool) :
    Gives Selector.Regular
      (do return .filter (← between opening (spaced condition) closing) deep) :=
  (hcondition.spaced.between opening closing).bind fun _ hc => gives_pure hc

theorem gives_deepSelector : Gives Selector.Regular (deepSelector condition) :=
  gives_bind fun _ => .or (gives_bind fun _ => gives_pure trivial)
    (.or (gives_filter hcondition _ _ _) (.or (gives_dotted _) (gives_names _ _ _)))

omit hcondition in
theorem gives_dotSelector : Gives Selector.Regular dotSelector :=
  gives_bind fun _ => .or (gives_bind fun _ => gives_pure trivial) (gives_dotted _)

theorem gives_bracketSelector : Gives Selector.Regular (bracketSelector condition) :=
  .or (gives_filter hcondition _ _ _) <| .or (gives_names _ _ _) <|
    .or (gives_bind fun _ => gives_pure trivial) <|
    .or (gives_bind fun _ => gives_pure trivial) <|
    .or (gives_filter hcondition _ _ _) <| .or (gives_names _ _ _) <|
    .or (gives_slice.between _ _) <| gives_positions _ _

theorem gives_selector : Gives Selector.Regular (selector condition) :=
  (gives_deepSelector hcondition).or (gives_dotSelector.or (gives_bracketSelector hcondition))

theorem gives_path : Gives Path.Regular (path condition) :=
  gives_scope.bind fun _ hfirst => (gives_selector hcondition).many.bind fun _ hrest =>
    gives_pure (Path.regular_cons.mpr ⟨hfirst, hrest⟩)

theorem gives_dotPath : Gives Path.Regular (dotPath condition) :=
  gives_bind fun _ => (gives_selector hcondition).many1.bind fun _ hrest =>
    gives_pure (Path.regular_cons.mpr ⟨rfl, hrest⟩)

/-! ### Conditions -/

theorem gives_operandPath : Gives Path.Regular (operandPath condition) :=
  (gives_path hcondition).or (gives_dotPath hcondition)

theorem gives_operand : Gives Operand.Regular (operand condition) := by
  have hpath := gives_operandPath hcondition
  exact .or (gives_bind fun _ => gives_bind fun _ => hpath.bind fun _ hp => gives_pure hp)
    (.or (hpath.bind fun _ hp => gives_pure hp) (gives_literal.bind fun _ hv => gives_pure hv))

theorem gives_predicate : Gives Condition.Regular (predicate condition) := by
  have hoperand := gives_operand hcondition
  refine hoperand.bind fun left hleft => gives_bind fun _ =>
    gives_operatorName.bind fun op hop => ?_
  refine (Gives.optional (gives_bind fun _ => hoperand)).bind fun right? hright => ?_
  cases right? with
  | none => exact gives_pure ⟨hop, hleft⟩
  | some right => exact gives_pure ⟨hop, hleft, hright right rfl⟩

end

theorem gives_conjunction {atom : Parser Condition} (hatom : Gives Condition.Regular atom) :
    Gives Condition.Regular (conjunction atom) :=
  hatom.bind fun _ hfirst => (Gives.many (gives_bind fun _ => hatom)).bind fun _ hrest =>
    gives_pure (hfirst.chain And.intro hrest)

theorem gives_disjunction {atom : Parser Condition} (hatom : Gives Condition.Regular atom) :
    Gives Condition.Regular (disjunction atom) :=
  (gives_conjunction hatom).bind fun _ hfirst =>
    (Gives.many (gives_bind fun _ => gives_conjunction hatom)).bind fun _ hrest =>
      gives_pure (hfirst.chain And.intro hrest)

theorem gives_atom (depth : Nat) : Gives Condition.Regular (atom depth) := by
  induction depth with
  | zero =>
    intro cs c rest hread
    cases hread
  | succ depth ih =>
    have hdisjunction := gives_disjunction ih
    refine Gives.spaced (.or ?negation (.or ?group ?predicate))
    case negation =>
      exact gives_bind fun _ => gives_bind fun _ => ih.bind fun _ hc => gives_pure hc.negated
    case group => exact hdisjunction.spaced.between _ _
    case predicate => exact gives_predicate hdisjunction

theorem gives_conditionAt (depth : Nat) : Gives Condition.Regular (conditionAt depth) :=
  gives_disjunction (gives_atom depth)

theorem gives_condition : Gives Condition.Regular condition := by
  intro cs c rest hread
  have hcondition : condition cs = conditionAt (cs.length + 1) cs := rfl
  rw [Reads, hcondition] at hread
  exact gives_conditionAt _ cs c rest hread

/-! ### Whole texts -/

theorem Gives.readWhole {α : Type} {P : α → Prop} {p : Parser α} (hp : Gives P p)
    {text : String} {a : α} (h : Grammar.readWhole p text = .ok a) : P a := by
  unfold Grammar.readWhole at h
  split at h
  next hread =>
    cases h
    exact hp.spaced _ _ _ hread
  · cases h
  · cases h

end TreeQuery.Grammar

namespace TreeQuery

theorem Path.regular_of_parse {text : String} {p : Path} (h : Path.parse text = .ok p) :
    p.Regular :=
  (Grammar.gives_path Grammar.gives_condition).readWhole h

theorem Condition.regular_of_parse {text : String} {c : Condition}
    (h : Condition.parse text = .ok c) : c.Regular :=
  Grammar.gives_condition.readWhole h

end TreeQuery
