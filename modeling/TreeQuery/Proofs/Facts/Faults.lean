import TreeQuery.Facts.RuleSet
import TreeQuery.Proofs.Correspondence
import TreeQuery.Proofs.Facts.Prepared
import TreeQuery.Proofs.Matching.Warnings

/-! Rule sets from texts. All texts are read before any of the rules is prepared, and both go
through the rules in order, the context of a rule before its condition. So a text that cannot be
read is reported before any operator that is missing, and otherwise the first rule with a fault is.
A rule set has exactly the prepared rules, or there is none. -/

namespace TreeQuery

/-! ### Operators of what has been read -/

mutual

/-- The operators that a selector uses, in order, wherever it stands in its path. -/
def Selector.uses : Selector → List String
  | .filter c _ => c.uses
  | _ => []

def Selector.usesAll : List Selector → List String
  | [] => []
  | s :: p => s.uses ++ Selector.usesAll p

def Operand.uses : Operand → List String
  | .value _ => []
  | .path p _ => Selector.usesAll p

def Condition.uses : Condition → List String
  | .or l r => l.uses ++ r.uses
  | .and l r => l.uses ++ r.uses
  | .unary op _ x => op :: x.uses
  | .binary op _ l r => op :: (l.uses ++ r.uses)

end

/-- The operators that a path uses, in order. -/
def Path.uses (p : Path) : List String := Selector.usesAll p

theorem Selector.uses_of_isScope {s : Selector} (hs : s.isScope = true) : s.uses = [] := by
  cases s <;> first | rfl | simp [isScope] at hs

/-! A regular path starts with a scope, so that none of its operators is passed over. -/

mutual

theorem Selector.Regular.operators_eq : ∀ {s : Selector}, s.Regular → s.operators = s.uses
  | .named .., _ | .elements _, _ | .slice .., _ | .all _, _ => rfl
  | .filter _ _, hs => Condition.Regular.operators_eq hs

theorem Selector.operatorsAll_of_regular : ∀ {p : List Selector}, Selector.RegularAll p →
    Selector.operatorsAll p = Selector.usesAll p
  | [], _ => rfl
  | _ :: _, ⟨hs, hp⟩ => congrArg₂ (· ++ ·) (Selector.Regular.operators_eq hs)
    (Selector.operatorsAll_of_regular hp)

theorem Path.Regular.operators_eq : ∀ {p : Path}, p.Regular → p.operators = p.uses
  | first :: rest, ⟨hfirst, hrest⟩ => by
    have hall : Selector.operatorsAll rest = Selector.usesAll rest :=
      Selector.operatorsAll_of_regular hrest
    rw [Path.uses, Selector.usesAll, Selector.uses_of_isScope hfirst, ← hall]
    rfl

theorem Operand.Regular.operators_eq : ∀ {x : Operand}, x.Regular → x.operators = x.uses
  | .value _, _ => rfl
  | .path _ _, hp => Path.Regular.operators_eq hp

theorem Condition.Regular.operators_eq : ∀ {c : Condition}, c.Regular → c.operators = c.uses
  | .or _ _, ⟨hl, hr⟩ | .and _ _, ⟨hl, hr⟩ => congrArg₂ (· ++ ·)
    (Condition.Regular.operators_eq hl) (Condition.Regular.operators_eq hr)
  | .unary op _ _, ⟨_, hx⟩ => congrArg (op :: ·) (Operand.Regular.operators_eq hx)
  | .binary op _ _ _, ⟨_, hl, hr⟩ => congrArg (op :: ·) (congrArg₂ (· ++ ·)
    (Operand.Regular.operators_eq hl) (Operand.Regular.operators_eq hr))

end

/-! ### Rules -/

namespace RuleText

/-- The text is read as the rule. -/
structure Spells (t : RuleText) (r : Rule) : Prop where
  name : r.name = t.name
  context : Path.parse t.context = .ok r.context
  extent : r.extent = t.extent
  guards : r.guards = t.guards
  condition : t.condition.map Condition.parse = r.condition.map .ok

/-- The text is no rule for this reason: the fault of its context, or of its condition if the
context can be read. -/
def Misspells (t : RuleText) (f : QueryError) : Prop :=
  Path.parse t.context = .error f ∨
    (∃ p, Path.parse t.context = .ok p) ∧ t.condition.map Condition.parse = some (.error f)

theorem read_eq (t : RuleText) : t.read =
    (((Path.parse t.context).withOptional (t.condition.map Condition.parse)).map fun c =>
      (⟨t.name, c.1, t.extent, t.guards, c.2⟩ : Rule)).mapError (.unreadable t.name) := by
  unfold read
  cases Path.parse t.context with
  | error f => rfl
  | ok p =>
    cases t.condition with
    | none => rfl
    | some text =>
      simp only [Option.map_some]
      cases Condition.parse text <;> rfl

theorem read_ok_iff {t : RuleText} {r : Rule} : t.read = .ok r ↔ t.Spells r := by
  rw [read_eq, Except.mapError_map_ok_iff]
  constructor
  · rintro ⟨⟨p, c⟩, h, rfl⟩
    obtain ⟨hp, hc⟩ := Except.withOptional_ok_iff.mp h
    exact ⟨rfl, hp, rfl, rfl, hc⟩
  · intro h
    obtain ⟨name, context, extent, guards, condition⟩ := r
    obtain ⟨rfl, hp, rfl, rfl, hc⟩ := h
    exact ⟨(context, condition), Except.withOptional_ok_iff.mpr ⟨hp, hc⟩, rfl⟩

theorem read_error_iff {t : RuleText} {e : RuleError} :
    t.read = .error e ↔ ∃ f, t.Misspells f ∧ e = .unreadable t.name f := by
  simp only [read_eq, Except.mapError_map_error_iff, Except.withOptional_error_iff, Misspells]

end RuleText

/-- The operators that a rule uses, those of its context first. -/
def Rule.uses (r : Rule) : List String := r.context.uses ++ r.condition.elim [] Condition.uses

/-- All operators that a rule read from a text uses are looked up. -/
theorem RuleText.Spells.operators_eq {t : RuleText} {r : Rule} (h : t.Spells r) :
    r.operators = r.uses := by
  have hcontext := (Path.regular_of_parse h.context).operators_eq
  rw [Rule.operators, Rule.uses, hcontext]
  cases hcondition : r.condition with
  | none => rfl
  | some c =>
    have hsome := h.condition
    rw [hcondition] at hsome
    obtain ⟨text, -, hparse⟩ := Option.map_eq_some_iff.mp hsome
    exact congrArg (r.context.uses ++ ·) (Condition.regular_of_parse hparse).operators_eq

namespace RuleSet

theorem result_ofTexts (ops : Registry) (texts : List RuleText) :
    (ofTexts ops texts).result = (texts.mapM RuleText.read).bind fun rules =>
      rules.mapM fun r => (r.prepare (Registry.builtin.merge ops)).result := by
  simp only [ofTexts, prepareWith, Logged.result_bind_eq, result_prepare]
  rfl

section

variable {ops : Registry} {texts : List RuleText} {rules : List Rule}

theorem mapM_read_ok_iff :
    texts.mapM RuleText.read = .ok rules ↔ List.Forall₂ RuleText.Spells texts rules := by
  simp only [List.mapM_ok_iff_forall₂, RuleText.read_ok_iff]

/-- The first text that cannot be read is at fault. -/
theorem mapM_read_error_iff {e : RuleError} :
    texts.mapM RuleText.read = .error e ↔ ∃ before t after, texts = before ++ t :: after ∧
      (∀ u ∈ before, ∃ r, u.Spells r) ∧ ∃ f, t.Misspells f ∧ e = .unreadable t.name f := by
  simp only [List.mapM_error_iff, RuleText.read_ok_iff, RuleText.read_error_iff]

theorem operators_eq_of_spells (h : List.Forall₂ RuleText.Spells texts rules) :
    ∀ r ∈ rules, r.operators = r.uses := by
  intro r hr
  obtain ⟨t, -, ht⟩ := h.exists_of_mem_right hr
  exact ht.operators_eq

/-- If all can be read, the first that uses an operator that is missing is at fault. -/
theorem mapM_prepare_error_iff (h : List.Forall₂ RuleText.Spells texts rules) {e : RuleError} :
    (rules.mapM fun r => (r.prepare ops).result) = .error e ↔
      ∃ before r after, rules = before ++ r :: after ∧
        (∀ s ∈ before, ops.missing? s.uses = none) ∧
        ∃ lost, ops.missing? r.uses = some lost ∧
          e = .unprepared r.name (.unknownOperator lost) := by
  simp only [List.mapM_error_iff, Rule.prepare_succeeds_iff, Rule.prepare_error_iff]
  refine exists_congr fun before => exists_congr fun r => exists_congr fun after =>
    and_congr_right fun hsplit => ?_
  have huses := operators_eq_of_spells h
  rw [hsplit, List.forall_mem_append, List.forall_mem_cons] at huses
  obtain ⟨hbefore, hr, -⟩ := huses
  rw [hr]
  exact and_congr_left' (forall₂_congr fun s hs => by rw [hbefore s hs])

theorem mapM_prepare_succeeds_iff (h : List.Forall₂ RuleText.Spells texts rules) :
    (∃ set, (rules.mapM fun r => (r.prepare ops).result) = .ok set) ↔
      ∀ r ∈ rules, ops.missing? r.uses = none := by
  simp only [List.mapM_succeeds_iff, Rule.prepare_succeeds_iff]
  exact forall₂_congr fun r hr => by rw [operators_eq_of_spells h r hr]

theorem ofTexts_ok_iff {set : RuleSet} : (ofTexts ops texts).result = .ok set ↔
    ∃ rules, List.Forall₂ RuleText.Spells texts rules ∧
      (rules.mapM fun r => (r.prepare (Registry.builtin.merge ops)).result) = .ok set := by
  simp only [result_ofTexts, Except.bind_ok_iff, mapM_read_ok_iff]

theorem ofTexts_error_iff {e : RuleError} : (ofTexts ops texts).result = .error e ↔
    texts.mapM RuleText.read = .error e ∨ ∃ rules, List.Forall₂ RuleText.Spells texts rules ∧
      (rules.mapM fun r => (r.prepare (Registry.builtin.merge ops)).result) = .error e := by
  simp only [result_ofTexts, Except.bind_error_iff, mapM_read_ok_iff]

end

/-- What becomes of a list of texts. If some of them cannot be read, the first of these is reported,
with the fault of its context or else of its condition. If all can be read, the first is reported
that uses an operator unknown to the registry and to the builtins, with the first such operator of
its context or else of its condition. Otherwise there is a rule set, and its rules are those that
preparing the texts one by one gives, in order. -/
theorem result_ofTexts_iff (ops : Registry) (texts : List RuleText) :
    let known := Registry.builtin.merge ops
    let result := (ofTexts ops texts).result
    (∀ name f, result = .error (.unreadable name f) ↔
      ∃ before t after, texts = before ++ t :: after ∧ (∀ u ∈ before, ∃ r, u.Spells r) ∧
        t.name = name ∧ t.Misspells f) ∧
    (∀ name f, result = .error (.unprepared name f) ↔
      ∃ rules, List.Forall₂ RuleText.Spells texts rules ∧
        ∃ before r after lost, rules = before ++ r :: after ∧
          (∀ s ∈ before, known.missing? s.uses = none) ∧
          known.missing? r.uses = some lost ∧ r.name = name ∧ f = .unknownOperator lost) ∧
    ((∃ set, result = .ok set) ↔ ∃ rules, List.Forall₂ RuleText.Spells texts rules ∧
      ∀ r ∈ rules, known.missing? r.uses = none) ∧
    ∀ set, result = .ok set → set.length = texts.length ∧
      ∃ rules, List.Forall₂ RuleText.Spells texts rules ∧
        List.Forall₂ (fun rule r => (rule.prepare known).result = .ok r) rules set := by
  intro known result
  refine ⟨fun name f => ?unread, fun name f => ?unprepared, ?succeeds, fun set h => ?prepared⟩
  case unread =>
    rw [ofTexts_error_iff, mapM_read_error_iff]
    constructor
    · rintro (⟨before, t, after, hsplit, hbefore, f, hf, he⟩ | ⟨rules, hspells, hfails⟩)
      · cases he
        exact ⟨before, t, after, hsplit, hbefore, rfl, hf⟩
      · obtain ⟨_, _, _, -, -, _, -, he⟩ := (mapM_prepare_error_iff hspells).mp hfails
        cases he
    · rintro ⟨before, t, after, hsplit, hbefore, rfl, hf⟩
      exact .inl ⟨before, t, after, hsplit, hbefore, f, hf, rfl⟩
  case unprepared =>
    rw [ofTexts_error_iff]
    constructor
    · rintro (hfails | ⟨rules, hspells, hfails⟩)
      · obtain ⟨_, _, _, -, -, _, -, he⟩ := mapM_read_error_iff.mp hfails
        cases he
      · obtain ⟨before, r, after, hsplit, hbefore, lost, hlost, he⟩ :=
          (mapM_prepare_error_iff hspells).mp hfails
        cases he
        exact ⟨rules, hspells, before, r, after, lost, hsplit, hbefore, hlost, rfl, rfl⟩
    · rintro ⟨rules, hspells, before, r, after, lost, hsplit, hbefore, hlost, rfl, rfl⟩
      exact .inr ⟨rules, hspells, (mapM_prepare_error_iff hspells).mpr
        ⟨before, r, after, hsplit, hbefore, lost, hlost, rfl⟩⟩
  case succeeds =>
    constructor
    · rintro ⟨set, h⟩
      obtain ⟨rules, hspells, hset⟩ := ofTexts_ok_iff.mp h
      exact ⟨rules, hspells, (mapM_prepare_succeeds_iff hspells).mp ⟨set, hset⟩⟩
    · rintro ⟨rules, hspells, hfound⟩
      obtain ⟨set, hset⟩ := (mapM_prepare_succeeds_iff hspells).mpr hfound
      exact ⟨set, ofTexts_ok_iff.mpr ⟨rules, hspells, hset⟩⟩
  case prepared =>
    obtain ⟨rules, hspells, hset⟩ := ofTexts_ok_iff.mp h
    have hprepared := List.mapM_ok_iff_forall₂.mp hset
    exact ⟨(hspells.length_eq.trans hprepared.length_eq).symm, rules, hspells, hprepared⟩

/-- An operator that the first rule lacks is not reported while the second rule cannot be read. -/
theorem result_ofTexts_iff_later :
    let first : RuleText := ⟨"first", "$.a", none, [], some ".x like 'y'"⟩
    let later : RuleText := ⟨"later", "people[*]", none, [], none⟩
    let like := Registry.empty.insert "like" Operator.is
    (∃ f, (ofTexts .empty [first, later]).result = .error (.unreadable "later" f)) ∧
    (ofTexts .empty [first]).result = .error (.unprepared "first" (.unknownOperator "like")) ∧
    ∃ set, (ofTexts like [first]).result = .ok set ∧ set.length = 1 := by
  intro first later like
  let rule : Rule := ⟨"first", [.root 0, .named ["a"] false], none, [], some
    (.binary "like" false (.path [.relative 0, .named ["x"] false] none) (.value (.string "y")))⟩
  have hfirst : first.Spells rule := ⟨rfl, by cbv, rfl, rfl, by cbv⟩
  have hlater : ∃ f, Path.parse later.context = .error f := by
    have hfails : (Path.parse later.context).isOk = false := by decide +kernel
    cases h : Path.parse later.context with
    | error f => exact ⟨f, rfl⟩
    | ok p => simp [h, Except.isOk, Except.toBool] at hfails
  have hread : List.Forall₂ RuleText.Spells [first] [rule] := .cons hfirst .nil
  refine ⟨?_, ?_, ?_⟩
  · obtain ⟨f, hf⟩ := hlater
    exact ⟨f, ((result_ofTexts_iff .empty [first, later]).1 "later" f).mpr
      ⟨[first], later, [], rfl, by simpa using ⟨rule, hfirst⟩, rfl, .inl hf⟩⟩
  · exact ((result_ofTexts_iff .empty [first]).2.1 "first" _).mpr
      ⟨[rule], hread, [], rule, [], "like", rfl, by simp, by decide +kernel, rfl, rfl⟩
  · obtain ⟨-, -, hsucceeds, hprepared⟩ := result_ofTexts_iff like [first]
    obtain ⟨set, hset⟩ := hsucceeds.mpr ⟨[rule], hread, by
      simpa using (by decide +kernel : (Registry.builtin.merge like).missing? rule.uses = none)⟩
    exact ⟨set, hset, (hprepared set hset).1⟩

end RuleSet

end TreeQuery
