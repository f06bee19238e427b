import TreeQuery.Proofs.Matching.Prepared

/-! What operator applications say. An operand stands for one value, or for all values of a
quantified path; an application holds when the operator does for some or for every one of them,
where the quantifier on the left ranges outside the one on the right and negation is applied to the
whole. -/

namespace TreeQuery

/-! ### Quantifiers -/

/-- `P` is true of the values in the sense of the quantifier. -/
def Quantifier.Ranges : Quantifier → (Value → Prop) → List Value → Prop
  | .some, P, vs => ∃ v ∈ vs, P v
  | .every, P, vs => ∀ v ∈ vs, P v

theorem Quantifier.holds_iff (q : Quantifier) (p : Value → Bool) (vs : List Value) :
    q.holds p vs = true ↔ q.Ranges (p · = true) vs := by
  cases q with
  | some => exact List.any_eq_true
  | every => exact List.all_eq_true

/-! ### Operands -/

/-- `P` is true of what an operand stands for on a stack of scopes: of a literal; in the sense of
its quantifier, of the values of all matches of a quantified path; of the array of these values, if
the path has no quantifier but can match several times; and otherwise of the value of the first
match, or of an absent value if there is no match. -/
def Operand.Satisfies (ops : Registry) (scopes : Scopes) (P : Value → Prop) : Operand → Prop
  | .value v => P v
  | .path p quantifier => ∃ m, (Path.prepare ops p).result = .ok m ∧
    let values := (m.findAll scopes).map (·.value)
    match quantifier with
    | some q => q.Ranges P values
    | none => P (if m.isMulti then .array values else values.head?.getD .absent)

section

variable {ops : Registry}

open Logged (result_bind_ok_iff result_pure_ok_iff)

theorem Operand.prepare_path_ok_iff {p : Path} {quantifier : Option Quantifier} {s : Source} :
    (Operand.prepare ops (.path p quantifier)).result = .ok s ↔
      ∃ m, (Path.prepare ops p).result = .ok m ∧ s = .path m.origin m.steps quantifier := by
  simp only [prepare, result_bind_ok_iff, result_pure_ok_iff, Path.prepare]

theorem Condition.prepare_unary_ok_iff {name : String} {negate : Bool} {x : Operand} {t : Test} :
    ((Condition.unary name negate x).prepare ops).result = .ok t ↔
      ∃ op, ops.get? name = some op ∧ ∃ s, (x.prepare ops).result = .ok s ∧
        t = .unary op negate s := by
  simp only [prepare, result_bind_ok_iff, result_pure_ok_iff, Registry.require_ok_iff]

theorem Condition.prepare_binary_ok_iff {name : String} {negate : Bool} {l r : Operand}
    {t : Test} :
    ((Condition.binary name negate l r).prepare ops).result = .ok t ↔
      ∃ op, ops.get? name = some op ∧ ∃ s, (l.prepare ops).result = .ok s ∧
        ∃ s', (r.prepare ops).result = .ok s' ∧ t = .binary op negate s s' := by
  simp only [prepare, result_bind_ok_iff, result_pure_ok_iff, Registry.require_ok_iff]

/-- A prepared operand resolves to what the operand stands for. -/
theorem Operand.holds_resolve_iff {x : Operand} {s : Source} (hs : (x.prepare ops).result = .ok s)
    (scopes : Scopes) (p : Value → Bool) :
    (s.resolve scopes).holds p = true ↔ x.Satisfies ops scopes (p · = true) := by
  cases x with
  | value v =>
    rw [prepare, result_pure_ok_iff] at hs
    rw [hs]
    rfl
  | path path quantifier =>
    obtain ⟨m, hm, rfl⟩ := prepare_path_ok_iff.mp hs
    have hprepared : ∀ Q : Matcher → Prop,
        (∃ m', (Path.prepare ops path).result = .ok m' ∧ Q m') ↔ Q m := by
      simp [hm]
    rw [Satisfies, hprepared]
    cases quantifier with
    | some q => exact q.holds_iff p _
    | none => simp [Source.resolve, Resolved.holds, Matcher.findAll, Matcher.isMulti]

/-- An application of an operator holds when it does for the operands as they are quantified, the
left one ranging outside the right one; negation turns the outcome of the whole into its opposite.
Without a right operand the operator is asked about the left one alone. -/
theorem Condition.evaluate_quantified {name : String} {op : Operator}
    (hop : ops.get? name = some op) (negate : Bool) (scopes : Scopes) :
    (∀ x t, ((Condition.unary name negate x).prepare ops).result = .ok t →
      (t.evaluate scopes = !negate ↔ x.Satisfies ops scopes fun v => op v none = true)) ∧
    ∀ l r t, ((Condition.binary name negate l r).prepare ops).result = .ok t →
      (t.evaluate scopes = !negate ↔ l.Satisfies ops scopes fun v =>
        r.Satisfies ops scopes fun w => op v (some w) = true) := by
  have hnegate : ∀ b : Bool, (b != negate) = (!negate) ↔ b = true := by
    cases negate <;> simp
  refine ⟨fun x t ht => ?_, fun l r t ht => ?_⟩
  · obtain ⟨op', hop', s, hs, rfl⟩ := prepare_unary_ok_iff.mp ht
    obtain rfl : op = op' := Option.some.inj (hop.symm.trans hop')
    rw [Test.evaluate, hnegate, Operand.holds_resolve_iff hs]
  · obtain ⟨op', hop', s, hs, s', hs', rfl⟩ := prepare_binary_ok_iff.mp ht
    obtain rfl : op = op' := Option.some.inj (hop.symm.trans hop')
    rw [Test.evaluate, hnegate, Operand.holds_resolve_iff hs]
    simp only [Operand.holds_resolve_iff hs']

/-- Some row without an empty item is there: the row without items. It is not the same as every
row. -/
theorem Condition.evaluate_quantified_rows :
    let rows : Value := .array [.array [.null, .bool true], .array [.null], .array []]
    let full : Operand := .path [.relative 0, .filter (.unary "empty" true
      (.path [.relative 0, .all false] (some .some))) false] (some .some)
    let all : Operand := .path [.relative 0, .all false] (some .every)
    full.Satisfies .builtin [rows] (fun v => Operator.empty v none = true) ∧
    ∃ t, ((Condition.binary "is" true full all).prepare .builtin).result = .ok t ∧
      t.evaluate [rows] = true ∧
      ¬full.Satisfies .builtin [rows] fun v =>
        all.Satisfies .builtin [rows] fun w => Operator.is v (some w) = true := by
  intro rows full all
  have hempty : Registry.builtin.get? "empty" = some Operator.empty := rfl
  have his : Registry.builtin.get? "is" = some Operator.is := rfl
  have hunary : ((Condition.unary "empty" false full).prepare .builtin).result = .ok _ := rfl
  have hbinary : ((Condition.binary "is" true full all).prepare .builtin).result = .ok _ := rfl
  refine ⟨?_, _, hbinary, by decide +kernel, fun h => ?_⟩
  · exact ((evaluate_quantified hempty false [rows]).1 full _ hunary).mp (by decide +kernel)
  · have hfalse := ((evaluate_quantified his true [rows]).2 full all _ hbinary).mpr h
    exact absurd hfalse (by decide +kernel)

end

end TreeQuery
