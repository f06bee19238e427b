import TreeQuery.Proofs.Facts.Prepared
import TreeQuery.Proofs.Matching.Negation
import TreeQuery.Proofs.Matching.RelativeClosed

/-! Rules in the place of filters. A rule tests its condition with the matched value as the only
scope, and a filter on top of all scopes that lead to the value. A condition whose paths stay with
the current scope cannot tell the difference: with it, a rule without guards that looks at all
children or descendants concludes its fact exactly where the filter finds something. -/

namespace TreeQuery

/-- The test looks at the current scope only. -/
def Test.OnlyCurrent (t : Test) : Prop :=
  ∀ (outer : Scopes) (x : Value), t.evaluate (outer ++ [x]) = t.evaluate [x]

theorem Condition.RelativeClosed.onlyCurrent {ops : Registry} {c : Condition}
    (hc : c.RelativeClosed 1) {t : Test} (ht : (c.prepare ops).result = .ok t) : t.OnlyCurrent :=
  fun outer x => Condition.rel_of_prepare Condition.compositional_ignoresOuter c t ht 1 hc outer [x]
    (Nat.le_refl _)

/-! ### Filters -/

section

variable {t : Test} (ht : t.OnlyCurrent)

include ht

/-- The values on the way to a descendant, which are scopes for its test, make no difference. -/
theorem Search.gather_passing_current (scopes : Scopes) (v : Value) :
    gather (passing t.evaluate) scopes v =
      (gather (fun _ => Value.children) scopes v).filter fun m => t.evaluate [m.value] := by
  induction v using Value.children_induction generalizing scopes with
  | step v ih =>
    rw [gather_eq, gather_eq (fun _ => Value.children), List.filter_append, List.filter_map,
      List.filter_flatMap]
    congr 1
    · rw [passing, List.filter_congr]
      exact fun c _ => ht scopes c.2
    · rw [List.flatMap_def, List.flatMap_def, List.map_congr_left]
      intro c hc
      rw [ih c.1 c.2 hc, List.filter_map]
      rfl

theorem Step.finds_filter_current (deep : Bool) (scopes : Scopes) (v : Value) :
    (filter t deep).finds scopes v =
      ((all deep).finds scopes v).filter fun m => t.evaluate [m.value] := by
  cases deep with
  | false =>
    rw [finds_filter_children, List.filter_congr]
    exact fun m _ => ht scopes m.value
  | true => exact Search.gather_passing_current ht scopes v

/-- A filter at the end of a path chooses among the matches of the path without it. -/
theorem Matcher.findAll_filter_current (o : Option Origin) (steps : List Step) (deep : Bool)
    (scopes : Scopes) :
    (⟨o, steps ++ [.filter t deep]⟩ : Matcher).findAll scopes =
      ((⟨o, steps ++ [.all deep]⟩ : Matcher).findAll scopes).filter
        fun m => t.evaluate [m.value] := by
  rw [findAll_concat, findAll_concat, List.filter_flatMap]
  congr 1
  funext m
  rw [Step.finds_filter_current ht, List.filter_map]
  rfl

end

/-! ### Rules -/

section

variable {ops : Registry}

/-- A rule with a condition is prepared if its context and its condition are. -/
theorem Rule.prepare_some_ok_iff {name : String} {context : Path} {extent : Option Extent}
    {guards : List Guard} {c : Condition} {r : PreparedRule} :
    (Rule.prepare ops ⟨name, context, extent, guards, some c⟩).result = .ok r ↔
      ∃ m, (context.prepare ops).result = .ok m ∧
        ∃ t, (c.prepare ops).result = .ok t ∧ r = ⟨name, extent, m, guards, some t⟩ := by
  rw [prepare_ok_iff]
  constructor
  · rintro ⟨m, test, hm, htest, rfl⟩
    obtain ⟨t, rfl, ht⟩ := Option.map_eq_some_iff.mp htest.symm
    exact ⟨m, hm, t, ht.symm, rfl⟩
  · rintro ⟨m, hm, t, ht, rfl⟩
    exact ⟨m, some t, hm, congrArg some ht, rfl⟩

/-- A rule without guards, with such a condition, concludes one fact for each match of its test. -/
theorem PreparedRule.evaluate_unguarded {name : String} {extent : Option Extent} {m : Matcher}
    {t : Test} (source : Value) (known : List Fact) :
    (⟨name, extent, m, [], some t⟩ : PreparedRule).evaluate source known =
      ((m.findAll [source]).filter fun x => t.evaluate [x.value]).map
        fun x => ⟨name, x.path, extent⟩ := rfl

/-- A rule without guards whose context is a path followed by all children (or descendants), and
whose condition looks at the current scope only, concludes its fact exactly at the matches of the
path followed by the filter of the condition, in their order. It can be prepared if the path can,
and the path if the rule can. -/
theorem Rule.derives_filter {e : Condition} (he : e.RelativeClosed 1) (p : Path) (deep : Bool)
    (name : String) (extent : Option Extent) (ops : Registry) :
    let rule : Rule := ⟨name, p ++ [.all deep], extent, [], some e⟩
    let filtered : Path := p ++ [.filter e deep]
    (∀ r, (rule.prepare ops).result = .ok r → ∃ m, (filtered.prepare ops).result = .ok m ∧
      ∀ source known, r.evaluate source known =
        (m.findAll [source]).map fun x => ⟨name, x.path, extent⟩) ∧
    (p ≠ [] → ∀ m, (filtered.prepare ops).result = .ok m →
      ∃ r, (rule.prepare ops).result = .ok r) := by
  intro rule filtered
  cases p with
  | nil =>
    refine ⟨fun r hr => ?_, fun hne => absurd rfl hne⟩
    obtain ⟨m, hm, t, ht, rfl⟩ := prepare_some_ok_iff.mp hr
    -- without a scope in front neither of the paths matches
    cases hm
    exact ⟨⟨none, []⟩, rfl, fun source known => rfl⟩
  | cons first rest =>
    refine ⟨fun r hr => ?_, fun _ m hm => ?_⟩
    · obtain ⟨a, ha, t, ht, rfl⟩ := prepare_some_ok_iff.mp hr
      obtain ⟨start, hstart, step, hstep, rfl⟩ := Path.prepare_concat_ok_iff.mp ha
      cases hstep
      refine ⟨⟨start.origin, start.steps ++ [.filter t deep]⟩, ?_, fun source known => ?_⟩
      · exact Path.prepare_concat_ok_iff.mpr
          ⟨start, hstart, _, Selector.prepared_filter_ok_iff.mpr ⟨t, ht, rfl⟩, rfl⟩
      · rw [PreparedRule.evaluate_unguarded, Matcher.findAll_filter_current (he.onlyCurrent ht)]
    · obtain ⟨start, hstart, step, hstep, rfl⟩ := Path.prepare_concat_ok_iff.mp hm
      obtain ⟨t, ht, rfl⟩ := Selector.prepared_filter_ok_iff.mp hstep
      exact ⟨_, prepare_some_ok_iff.mpr
        ⟨_, Path.prepare_concat_ok_iff.mpr ⟨start, hstart, _, rfl, rfl⟩, t, ht, rfl⟩⟩

/-- The condition asks, from inside a filter of its own, for an item that the tested array holds;
the two nested arrays have one, the innermost value and the empty array have none. -/
theorem Rule.derives_filter_nested :
    let source : Value := .array [.array [.array [.bool true]], .array []]
    let held : Condition := .binary "in" false (.path [.relative 0] none) (.path [.relative 1] none)
    let e : Condition := .unary "empty" true (.path [.relative 0, .filter held false] none)
    let p : Path := [.root 0]
    e.RelativeClosed 1 ∧
    ∃ r m, (Rule.prepare .builtin ⟨"holds", p ++ [.all true], some .ancestors, [], some e⟩).result =
        .ok r ∧
      (Path.prepare .builtin (p ++ [.filter e true])).result = .ok m ∧
      (m.findAll [source]).map (·.path) =
        [[.index 0, .index 0], [.index 0, .index 0, .index 0]] ∧
      r.evaluate source [] =
        (m.findAll [source]).map fun x => ⟨"holds", x.path, some .ancestors⟩ := by
  intro source held e p
  have he : e.RelativeClosed 1 := by
    simp [e, held, Condition.RelativeClosed, Operand.RelativeClosed, Selector.RelativeClosedPath,
      Selector.RelativeClosedAll, Selector.RelativeClosed, Selector.StartsWithin]
  have hm : (Path.prepare .builtin (p ++ [.filter e true])).result = .ok _ := rfl
  obtain ⟨hderives, hprepared⟩ := derives_filter he p true "holds" (some .ancestors) .builtin
  obtain ⟨r, hr⟩ := hprepared (List.cons_ne_nil _ _) _ hm
  obtain ⟨m, hm', heq⟩ := hderives r hr
  cases hm.symm.trans hm'
  exact ⟨he, r, _, hr, hm, by decide +kernel, heq source []⟩

end

end TreeQuery
