import TreeQuery.Facts.RuleSet
import TreeQuery.Proofs.FirstFailure
import TreeQuery.Proofs.Matching.OperatorNames

/-! Preparing rules, the records aside. A rule is prepared like its context and then its condition;
it fails for the first operator of the two that is missing, under the name of the rule. A rule set
is prepared like its rules, in order. -/

namespace TreeQuery

theorem Logged.LooksUp.succeeds_iff {α : Type} {names : List String}
    {x : Registry → Logged QueryError α} (hx : LooksUp names x) {ops : Registry} :
    (∃ a, (x ops).result = .ok a) ↔ ops.missing? names = none :=
  Except.succeeds_iff_eq_none hx.error_iff

namespace Rule

/-- The operators that are looked up for a rule, those of its context first. -/
def operators (r : Rule) : List String :=
  r.context.operators ++ r.condition.elim [] Condition.operators

theorem result_prepare (ops : Registry) (r : Rule) : (r.prepare ops).result =
    (((r.context.prepare ops).result.withOptional
      (r.condition.map fun c => (c.prepare ops).result)).map fun p =>
        (⟨r.name, r.extent, p.1, r.guards, p.2⟩ : PreparedRule)).mapError (.unprepared r.name) := by
  simp only [prepare, Logged.result_bind_eq, Logged.mapError]
  cases (r.context.prepare ops).result with
  | error f => rfl
  | ok m =>
    cases r.condition with
    | none => rfl
    | some c =>
      simp only [Option.map_some, Logged.result_bind_eq, Logged.result_map]
      cases (c.prepare ops).result <;> rfl

theorem prepare_ok_iff {ops : Registry} {r : Rule} {p : PreparedRule} :
    (r.prepare ops).result = .ok p ↔ ∃ m test, (r.context.prepare ops).result = .ok m ∧
      r.condition.map (fun c => (c.prepare ops).result) = test.map .ok ∧
        p = ⟨r.name, r.extent, m, r.guards, test⟩ := by
  simp only [result_prepare, Except.mapError_map_ok_iff, Prod.exists, Except.withOptional_ok_iff,
    and_assoc]

/-- Preparing a rule fails for the first of its operators that is missing. -/
theorem prepare_error_iff {ops : Registry} {r : Rule} {e : RuleError} :
    (r.prepare ops).result = .error e ↔ ∃ name, ops.missing? r.operators = some name ∧
      e = .unprepared r.name (.unknownOperator name) := by
  have hcontext := Selector.looksUp_preparePath r.context
  have hcondition : ∀ f, r.condition.map (fun c => (c.prepare ops).result) = some (.error f) ↔
      ∃ name, ops.missing? (r.condition.elim [] Condition.operators) = some name ∧
        f = .unknownOperator name := by
    intro f
    cases r.condition with
    | none => simp [Registry.missing?]
    | some c => simpa using c.looksUp_prepare.error_iff
  simp only [result_prepare, Except.mapError_map_error_iff, Except.withOptional_error_iff,
    hcondition, operators, Registry.missing?_append_eq_some_iff, Path.prepare, hcontext.error_iff,
    hcontext.succeeds_iff]
  constructor
  · rintro ⟨f, ⟨name, h, rfl⟩ | ⟨hnone, name, h, rfl⟩, rfl⟩
    · exact ⟨name, .inl h, rfl⟩
    · exact ⟨name, .inr ⟨hnone, h⟩, rfl⟩
  · rintro ⟨name, h | ⟨hnone, h⟩, rfl⟩
    · exact ⟨_, .inl ⟨name, h, rfl⟩, rfl⟩
    · exact ⟨_, .inr ⟨hnone, name, h, rfl⟩, rfl⟩

/-- A rule can be prepared if none of its operators is missing. -/
theorem prepare_succeeds_iff {ops : Registry} {r : Rule} :
    (∃ p, (r.prepare ops).result = .ok p) ↔ ops.missing? r.operators = none :=
  Except.succeeds_iff_eq_none prepare_error_iff

end Rule

namespace RuleSet

theorem result_prepare (ops : Registry) (rules : List Rule) :
    (prepare ops rules).result = rules.mapM fun r => (r.prepare ops).result := by
  simp only [prepare, Logged.result_bind_eq, Logged.result_note, Logged.result_pure,
    Logged.result_mapM]
  cases rules.mapM fun r => (r.prepare ops).result <;> rfl

end RuleSet

end TreeQuery
