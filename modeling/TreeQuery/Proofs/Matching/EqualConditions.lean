import TreeQuery.Proofs.Matching.Agreement
import TreeQuery.Proofs.Matching.OperatorNames
import TreeQuery.Proofs.Path.Equality
import TreeQuery.Proofs.Path.Literals

/-! Equal paths and conditions. They are written alike but for their literals, which are equal as
values and may differ in the order of members, in members that hold nothing and in the sign of
zeros. The builtin operators do not tell such literals apart, so that equal conditions say the same
and equal paths find the same. -/

namespace TreeQuery

open Value (Agree)

/-! ### The operators of equal conditions -/

mutual

theorem Selector.operators_of_equal :
    ∀ {s s' : Selector}, s.equal s' = true → s.operators = s'.operators
  | .filter c _, _, h => by
    obtain ⟨c', rfl, hc⟩ := Selector.exists_filter_of_equal h
    exact Condition.operators_of_equal hc
  | .root _, _, h | .relative _, _, h | .named .., _, h | .elements _, _, h | .slice .., _, h
  | .all _, _, h => by rw [Selector.eq_of_equal (by simp) h]

theorem Selector.operatorsAll_of_equal : ∀ {p p' : List Selector},
    Selector.equalLists p p' = true → Selector.operatorsAll p = Selector.operatorsAll p'
  | [], _, h => by rw [Selector.eq_nil_of_equalLists h]
  | s :: p, _, h => by
    obtain ⟨s', p', rfl, hs, hp⟩ := Selector.exists_cons_of_equalLists h
    rw [Selector.operatorsAll, Selector.operatorsAll, Selector.operators_of_equal hs,
      Selector.operatorsAll_of_equal hp]

theorem Selector.operatorsPath_of_equal : ∀ {p p' : List Selector},
    Selector.equalLists p p' = true → Selector.operatorsPath p = Selector.operatorsPath p'
  | [], _, h => by rw [Selector.eq_nil_of_equalLists h]
  | _ :: p, _, h => by
    obtain ⟨s', p', rfl, -, hp⟩ := Selector.exists_cons_of_equalLists h
    exact Selector.operatorsAll_of_equal hp

theorem Operand.operators_of_equal :
    ∀ {x x' : Operand}, x.equal x' = true → x.operators = x'.operators
  | .value _, _, h => by
    obtain ⟨w, rfl, -⟩ := Operand.exists_value_of_equal h
    rfl
  | .path p _, _, h => by
    obtain ⟨p', rfl, hp⟩ := Operand.exists_path_of_equal h
    exact Selector.operatorsPath_of_equal hp

/-- Equal conditions name the same operators in the same order. -/
theorem Condition.operators_of_equal :
    ∀ {c c' : Condition}, c.equal c' = true → c.operators = c'.operators
  | .or l r, _, h => by
    obtain ⟨l', r', rfl, hl, hr⟩ := Condition.exists_or_of_equal h
    rw [Condition.operators, Condition.operators, Condition.operators_of_equal hl,
      Condition.operators_of_equal hr]
  | .and l r, _, h => by
    obtain ⟨l', r', rfl, hl, hr⟩ := Condition.exists_and_of_equal h
    rw [Condition.operators, Condition.operators, Condition.operators_of_equal hl,
      Condition.operators_of_equal hr]
  | .unary _ _ x, _, h => by
    obtain ⟨x', rfl, hx⟩ := Condition.exists_unary_of_equal h
    rw [Condition.operators, Condition.operators, Operand.operators_of_equal hx]
  | .binary _ _ x y, _, h => by
    obtain ⟨x', y', rfl, hx, hy⟩ := Condition.exists_binary_of_equal h
    rw [Condition.operators, Condition.operators, Operand.operators_of_equal hx,
      Operand.operators_of_equal hy]

end

/-! ### Steps that find the same -/

/-- Both steps find the same from any value. -/
structure Step.Alike (step step' : Step) : Prop where
  isMulti : step.isMulti = step'.isMulti
  finds : ∀ scopes v, step.finds scopes v = step'.finds scopes v

namespace Step

theorem Alike.refl (step : Step) : step.Alike step := ⟨rfl, fun _ _ => rfl⟩

theorem alike_filter {t t' : Test} (h : ∀ scopes, t.evaluate scopes = t'.evaluate scopes)
    (deep : Bool) : (filter t deep).Alike (filter t' deep) := by
  have hpick : (filter t deep).pick = (filter t' deep).pick := by
    funext scopes v
    simp only [pick, Search.passing, h]
  refine ⟨rfl, fun scopes v => ?_⟩
  rw [finds, finds, hpick]
  rfl

theorem follow_of_alike {steps steps' : List Step} (h : List.Forall₂ Alike steps steps')
    (scopes : Scopes) (ms : List Match) : follow steps scopes ms = follow steps' scopes ms := by
  induction h generalizing ms with
  | nil => rfl
  | cons hstep _ ih =>
    rw [follow_cons, follow_cons, ih]
    simp only [hstep.finds]

end Step

/-- Both matchers start from the same origin and find the same step by step. -/
structure Matcher.Alike (m m' : Matcher) : Prop where
  origin : m.origin = m'.origin
  steps : List.Forall₂ Step.Alike m.steps m'.steps

namespace Matcher.Alike

variable {m m' : Matcher} (h : m.Alike m')

include h

theorem findAll_eq (scopes : Scopes) : m.findAll scopes = m'.findAll scopes := by
  rw [findAll, findAll, h.origin, Step.follow_of_alike h.steps]

theorem isMulti_eq : m.isMulti = m'.isMulti :=
  (Permuted.of_forall₂ h.steps).any_eq fun _ _ _ hstep => hstep.isMulti

theorem resolve_eq (q : Option Quantifier) (scopes : Scopes) :
    (Source.path m.origin m.steps q).resolve scopes =
      (Source.path m'.origin m'.steps q).resolve scopes := by
  have hfound := h.findAll_eq scopes
  cases q with
  | none => rw [Matcher.resolve_eq, Matcher.resolve_eq, h.isMulti_eq, values, values, hfound]
  | some q =>
    rw [findAll, findAll] at hfound
    rw [Source.resolve, Source.resolve, hfound]

end Matcher.Alike

/-! ### What equal conditions are prepared to -/

/-- The test comes out like that of any equal condition, if in no literal a name stands twice. -/
def Condition.SameIfEqual (c : Condition) (t : Test) : Prop :=
  c.Literals Value.NamesDistinct → ∀ c' t', c'.Literals Value.NamesDistinct →
    c.equal c' = true → (c'.prepare .builtin).result = .ok t' →
    ∀ scopes, t.evaluate scopes = t'.evaluate scopes

section

open Condition (SameIfEqual)

theorem Selector.Yields.alike {s s' : Selector} {step step' : Step}
    (h : s.Yields SameIfEqual step) (hs : s.Literals Value.NamesDistinct)
    (hs' : s'.Literals Value.NamesDistinct) (heq : s.equal s' = true)
    (hstep' : s'.prepared .builtin = .ok step') : step.Alike step' := by
  cases h with
  | @filter c t hct deep =>
    obtain ⟨c', rfl, hc⟩ := exists_filter_of_equal heq
    obtain ⟨t', ht', rfl⟩ := prepared_filter_ok_iff.mp hstep'
    exact Step.alike_filter (hct hs c' t' hs' hc ht') deep
  | scope hscope =>
    cases s <;> cases hscope <;>
    · rw [eq_of_equal (by simp) heq] at hstep'
      cases hstep'
      exact .refl _
  | _ =>
    rw [eq_of_equal (by simp) heq] at hstep'
    cases hstep'
    exact .refl _

theorem Selector.Yields.alikeAll {p : List Selector} {steps : List Step}
    (h : List.Forall₂ (Selector.Yields SameIfEqual) p steps)
    (hp : Selector.LiteralsAll Value.NamesDistinct p) {p' : List Selector} {steps' : List Step}
    (hp' : Selector.LiteralsAll Value.NamesDistinct p') (heq : Selector.equalLists p p' = true)
    (hsteps' : p'.mapM (Selector.prepared .builtin) = .ok steps') :
    List.Forall₂ Step.Alike steps steps' := by
  induction h generalizing p' steps' with
  | nil =>
    obtain rfl := Selector.eq_nil_of_equalLists heq
    cases hsteps'
    exact .nil
  | cons hyields _ ih =>
    obtain ⟨s', q, rfl, hs, hq⟩ := Selector.exists_cons_of_equalLists heq
    obtain ⟨step', hstep', more, hmore, rfl⟩ := List.mapM_cons_ok_iff.mp hsteps'
    exact .cons (hyields.alike hp.1 hp'.1 hs hstep') (ih hp.2 hp'.2 hq hmore)

theorem Selector.origin?_of_equal {s s' : Selector} (h : s.equal s' = true) :
    s.origin? = s'.origin? := by
  cases s with
  | filter c deep =>
    obtain ⟨c', rfl, -⟩ := exists_filter_of_equal h
    rfl
  | _ => rw [eq_of_equal (by simp) h]

theorem Path.Yields.alike {p p' : Path} {m m' : Matcher} (h : p.Yields SameIfEqual m)
    (hp : p.Literals Value.NamesDistinct) (hp' : p'.Literals Value.NamesDistinct)
    (heq : p.equal p' = true) (hm' : (p'.prepare .builtin).result = .ok m') : m.Alike m' := by
  cases p with
  | nil =>
    obtain rfl := Selector.eq_nil_of_equalLists heq
    cases hm'
    have hsteps : m.steps = [] := List.forall₂_nil_left_iff.mp h.steps
    exact ⟨h.origin, by rw [hsteps]; exact .nil⟩
  | cons first rest =>
    obtain ⟨first', rest', rfl, hfirst, hrest⟩ := Selector.exists_cons_of_equalLists heq
    obtain ⟨steps', hsteps', rfl⟩ := prepare_cons_ok_iff.mp hm'
    exact ⟨h.origin.trans (Selector.origin?_of_equal hfirst),
      Selector.Yields.alikeAll h.steps hp.2 hp'.2 hrest hsteps'⟩

theorem Resolved.Related.refl {q : Value → Value → Prop} (hq : ∀ v, q v v) (r : Resolved) :
    r.Related q r := by
  cases r with
  | one v => exact .one (hq v)
  | each quantifier vs => exact .each quantifier (.refl hq vs)

/-- Equal operands stand for the same, or for equal literals. -/
theorem Operand.Yields.resolve_of_equal {x x' : Operand} {s s' : Source}
    (h : x.Yields SameIfEqual s) (hx : x.Literals Value.NamesDistinct)
    (hx' : x'.Literals Value.NamesDistinct) (heq : x.equal x' = true)
    (hs' : (x'.prepare .builtin).result = .ok s') (scopes : Scopes) :
    Resolved.Related (Relation.ReflGen Agree) (s.resolve scopes) (s'.resolve scopes) := by
  cases h with
  | value v =>
    obtain ⟨w, rfl, hvw⟩ := exists_value_of_equal heq
    rw [prepare, Logged.result_pure_ok_iff] at hs'
    subst hs'
    exact .one (.single ⟨hx, hx', hvw⟩)
  | @path p m hm q =>
    obtain ⟨p', rfl, hp⟩ := exists_path_of_equal heq
    obtain ⟨m', hm', rfl⟩ := prepare_path_ok_iff.mp hs'
    rw [(hm.alike hx hx' hp hm').resolve_eq q scopes]
    exact .refl (fun _ => .refl) _

end

/-- No builtin operator tells values apart that are alike for them. -/
theorem Registry.builtin_congr {q : Value → Value → Prop} (hq : Value.Indistinct q)
    {name : String} {op : Operator} (hop : Registry.builtin.get? name = some op) {v v' : Value}
    (hv : q v v') :
    op v none = op v' none ∧ ∀ w w', q w w' → op v (some w) = op v' (some w') := by
  rcases Registry.get?_builtin hop with ⟨-, rfl⟩ | ⟨-, rfl⟩ | ⟨-, rfl⟩
  · exact ⟨rfl, fun _ _ hw => hq.is_eq hv hw⟩
  · exact ⟨rfl, fun _ _ hw => hq.isIn_eq hv (.inl hw)⟩
  · exact ⟨hq.empty_eq (.inl hv) _ _, fun _ _ _ => hq.empty_eq (.inl hv) _ _⟩

theorem Condition.compositional_sameIfEqual : Condition.Compositional .builtin SameIfEqual where
  or hl hr hc c' t' hc' heq ht' scopes := by
    obtain ⟨l', r', rfl, hleft, hright⟩ := exists_or_of_equal heq
    obtain ⟨u, hu, u', hu', rfl⟩ := prepare_or_ok_iff.mp ht'
    rw [Test.evaluate, Test.evaluate, hl hc.1 l' u hc'.1 hleft hu,
      hr hc.2 r' u' hc'.2 hright hu']
  and hl hr hc c' t' hc' heq ht' scopes := by
    obtain ⟨l', r', rfl, hleft, hright⟩ := exists_and_of_equal heq
    obtain ⟨u, hu, u', hu', rfl⟩ := prepare_and_ok_iff.mp ht'
    rw [Test.evaluate, Test.evaluate, hl hc.1 l' u hc'.1 hleft hu,
      hr hc.2 r' u' hc'.2 hright hu']
  unary {name op negate x s} hop hx hc c' t' hc' heq ht' scopes := by
    obtain ⟨x', rfl, hxx'⟩ := exists_unary_of_equal heq
    obtain ⟨op', hop', s', hs', rfl⟩ := prepare_unary_ok_iff.mp ht'
    obtain rfl : op = op' := Option.some.inj (hop.symm.trans hop')
    rw [Test.evaluate, Test.evaluate]
    refine congrArg (· != negate) ?_
    exact (hx.resolve_of_equal hc hc' hxx' hs' scopes).holds_eq fun _ _ hv =>
      (Registry.builtin_congr Agree.indistinct hop hv).1
  binary {name op negate x y s u} hop hx hy hc c' t' hc' heq ht' scopes := by
    obtain ⟨x', y', rfl, hxx', hyy'⟩ := exists_binary_of_equal heq
    obtain ⟨op', hop', s', hs', u', hu', rfl⟩ := prepare_binary_ok_iff.mp ht'
    obtain rfl : op = op' := Option.some.inj (hop.symm.trans hop')
    rw [Test.evaluate, Test.evaluate]
    refine congrArg (· != negate) ?_
    have hright := hy.resolve_of_equal hc.2 hc'.2 hyy' hu' scopes
    exact (hx.resolve_of_equal hc.1 hc'.1 hxx' hs' scopes).holds_eq fun _ _ hv =>
      hright.holds_eq fun _ _ hw => (Registry.builtin_congr Agree.indistinct hop hv).2 _ _ hw

/-- The builtin operators say the same of equal values. Equal conditions are prepared to tests that
say the same on every stack, or fail alike, and equal paths find the same. -/
theorem evaluate_of_equal :
    (∀ x x' y y' : Value, x.NamesDistinct → x'.NamesDistinct → y.NamesDistinct →
      y'.NamesDistinct → x.equal x' = true → y.equal y' = true →
      Operator.is x (some y) = Operator.is x' (some y') ∧
      Operator.isIn x (some y) = Operator.isIn x' (some y') ∧ x.isEmpty = x'.isEmpty) ∧
    (∀ c c' : Condition, c.Literals Value.NamesDistinct → c'.Literals Value.NamesDistinct →
      c.equal c' = true →
      (∀ f, (c.prepare .builtin).result = .error f ↔ (c'.prepare .builtin).result = .error f) ∧
      ∀ t t', (c.prepare .builtin).result = .ok t → (c'.prepare .builtin).result = .ok t' →
        ∀ scopes, t.evaluate scopes = t'.evaluate scopes) ∧
    ∀ p p' : Path, p.Literals Value.NamesDistinct → p'.Literals Value.NamesDistinct →
      p.equal p' = true →
      (∀ f, (p.prepare .builtin).result = .error f ↔ (p'.prepare .builtin).result = .error f) ∧
      ∀ m m', (p.prepare .builtin).result = .ok m → (p'.prepare .builtin).result = .ok m' →
        ∀ scopes, m.findAll scopes = m'.findAll scopes := by
  refine ⟨?_, ?_, ?_⟩
  · intro x x' y y' hx hx' hy hy' hxx' hyy'
    have hleft : Relation.ReflGen Agree x x' := .single ⟨hx, hx', hxx'⟩
    have hright : Relation.ReflGen Agree y y' := .single ⟨hy, hy', hyy'⟩
    exact ⟨Agree.indistinct.is_eq hleft hright, Agree.indistinct.isIn_eq hleft (.inl hright),
      Agree.indistinct.isEmpty hleft⟩
  · intro c c' hc hc' heq
    refine ⟨fun f => ?_, fun t t' ht ht' => ?_⟩
    · rw [c.looksUp_prepare.error_iff, c'.looksUp_prepare.error_iff,
        Condition.operators_of_equal heq]
    · exact Condition.rel_of_prepare Condition.compositional_sameIfEqual c t ht hc c' t' hc' heq ht'
  · intro p p' hp hp' heq
    refine ⟨fun f => ?_, fun m m' hm hm' => ?_⟩
    · have hnames := Selector.operatorsPath_of_equal heq
      exact ((Selector.looksUp_preparePath p).error_iff).trans
        (hnames ▸ (Selector.looksUp_preparePath p').error_iff.symm)
    · exact ((Path.yields_of_prepare Condition.compositional_sameIfEqual p m hm).alike hp hp' heq
        hm').findAll_eq

/-- Literals with members in another order, one that holds nothing and a negative zero. -/
theorem evaluate_of_equal_literals :
    let v : Value := .object [("a", .number 0), ("b", .absent), ("c", .array [.bool true])]
    let w : Value := .object [("c", .array [.bool true]), ("a", .number (-0))]
    let rows : Value := .array [.null, .object [("a", .number 0), ("c", .array [.bool true])]]
    let path (literal : Value) : Path := [.relative 0, .filter
      (.binary "is" false (.path [.relative 0] none) (.value literal)) false]
    let condition (literal : Value) : Condition :=
      .binary "in" true (.value literal) (.path (path literal) none)
    Operator.isIn v (some (.array [w])) = Operator.isIn w (some (.array [v])) ∧
    (∃ t t', ((condition v).prepare .builtin).result = .ok t ∧
      ((condition w).prepare .builtin).result = .ok t' ∧ t.evaluate [rows] = false ∧
      t.evaluate [rows] = t'.evaluate [rows]) ∧
    ∃ m m', ((path v).prepare .builtin).result = .ok m ∧
      ((path w).prepare .builtin).result = .ok m' ∧
      (m.findAll [rows]).map (·.path) = [[.index 0, .index 1]] ∧
      m.findAll [rows] = m'.findAll [rows] := by
  intro v w rows path condition
  have hv : v.NamesDistinct := by
    simp [v, Value.NamesDistinct, Value.ItemsDistinct, Value.MembersDistinct]
  have hw : w.NamesDistinct := by
    simp [w, Value.NamesDistinct, Value.ItemsDistinct, Value.MembersDistinct]
  have hvw : v.equal w = true := by decide +kernel
  have hpath : ∀ x : Value, x.NamesDistinct → (path x).Literals Value.NamesDistinct :=
    fun x hx => ⟨trivial, ⟨⟨trivial, trivial⟩, hx⟩, trivial⟩
  have harray : ∀ x : Value, x.NamesDistinct → (Value.array [x]).NamesDistinct :=
    fun x hx => ⟨hx, trivial⟩
  obtain ⟨hoperators, hconditions, hpaths⟩ := evaluate_of_equal
  have ht : ((condition v).prepare .builtin).result = .ok _ := rfl
  have ht' : ((condition w).prepare .builtin).result = .ok _ := rfl
  have hm : ((path v).prepare .builtin).result = .ok _ := rfl
  have hm' : ((path w).prepare .builtin).result = .ok _ := rfl
  refine ⟨?_, ⟨_, _, ht, ht', by decide +kernel, ?_⟩, _, _, hm, hm', by decide +kernel, ?_⟩
  · refine (hoperators v w _ _ hv hw (harray w hw) (harray v hv) hvw ?_).2.1
    decide +kernel
  · refine (hconditions (condition v) (condition w) ⟨hv, hpath v hv⟩ ⟨hw, hpath w hw⟩ ?_).2
      _ _ ht ht' [rows]
    decide +kernel
  · refine (hpaths (path v) (path w) (hpath v hv) (hpath w hw) ?_).2 _ _ hm hm' [rows]
    decide +kernel

end TreeQuery
