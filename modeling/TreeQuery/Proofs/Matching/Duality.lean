import TreeQuery.Proofs.Matching.Quantified

/-! Dual applications. To say of some values what an operator says is to deny that every value is as
the opposite operator says, and the other way round. So an application means the same when its
operator is replaced by the opposite one, the quantifiers of its operands are exchanged and its
negation is flipped. An operand without quantifier has one value, of which both say the same. -/

namespace TreeQuery

def Quantifier.dual : Quantifier → Quantifier
  | some => every
  | every => some

theorem Quantifier.holds_dual (q : Quantifier) (p : Value → Bool) (vs : List Value) :
    q.dual.holds (fun v => !p v) vs = !q.holds p vs := by
  cases q with
  | some => exact List.not_any_eq_all_not.symm
  | every => exact List.not_all_eq_any_not.symm

namespace Resolved

def dual : Resolved → Resolved
  | one v => one v
  | each q vs => each q.dual vs

theorem holds_dual (r : Resolved) (p : Value → Bool) :
    r.dual.holds (fun v => !p v) = !r.holds p := by
  cases r with
  | one v => rfl
  | each q vs => exact q.holds_dual p vs

end Resolved

/-- The operand with the other quantifier, if it has one. Conditions inside its path stay as they
are. -/
def Operand.dual : Operand → Operand
  | value v => value v
  | path p quantifier => path p (quantifier.map .dual)

/-! ### Prepared operands and conditions -/

namespace Source

def dual : Source → Source
  | literal v => literal v
  | path origin steps quantifier => path origin steps (quantifier.map .dual)

theorem resolve_dual (s : Source) (scopes : Scopes) :
    s.dual.resolve scopes = (s.resolve scopes).dual := by
  cases s with
  | literal v => simp only [dual, resolve, Resolved.dual]
  | path origin steps quantifier =>
    cases quantifier <;> simp only [dual, resolve, Resolved.dual, Option.map_none, Option.map_some]

end Source

theorem Operand.result_prepare_dual (ops : Registry) (x : Operand) :
    (x.dual.prepare ops).result = (x.prepare ops).result.map Source.dual := by
  cases x with
  | value v => rfl
  | path p quantifier =>
    simp only [dual, prepare, Logged.result_bind_eq, Logged.result_pure]
    cases (Selector.preparePath ops p).result <;> rfl

section

variable {P Q : Operator} (hpq : ∀ v w, Q v w = !P v w) (negate : Bool) (scopes : Scopes)

include hpq

theorem Test.evaluate_dual_unary (s : Source) :
    (unary Q (!negate) s.dual).evaluate scopes = (unary P negate s).evaluate scopes := by
  simp only [evaluate, Source.resolve_dual, hpq, Resolved.holds_dual, Bool.bne_not, Bool.not_bne,
    Bool.not_not]

theorem Test.evaluate_dual_binary (l r : Source) :
    (binary Q (!negate) l.dual r.dual).evaluate scopes = (binary P negate l r).evaluate scopes := by
  simp only [evaluate, Source.resolve_dual, hpq, Resolved.holds_dual, Bool.bne_not, Bool.not_bne,
    Bool.not_not]

end

/-! ### Conditions -/

/-- What a condition says of every stack of scopes, or why it cannot be prepared. -/
def Condition.meaning (ops : Registry) (c : Condition) : Except QueryError (Scopes → Bool) :=
  (c.prepare ops).result.map Test.evaluate

theorem Condition.meaning_unary {ops : Registry} {name : String} {op : Operator}
    (hop : ops.get? name = some op) (negate : Bool) (x : Operand) :
    (unary name negate x).meaning ops =
      (x.prepare ops).result.map fun s => (Test.unary op negate s).evaluate := by
  simp only [meaning, prepare, Logged.result_bind_eq, Logged.result_pure,
    Registry.require_ok_iff.mpr hop]
  cases (x.prepare ops).result <;> rfl

theorem Condition.meaning_binary {ops : Registry} {name : String} {op : Operator}
    (hop : ops.get? name = some op) (negate : Bool) (l r : Operand) :
    (binary name negate l r).meaning ops =
      (l.prepare ops).result.bind fun s => (r.prepare ops).result.map fun s' =>
        (Test.binary op negate s s').evaluate := by
  simp only [meaning, prepare, Logged.result_bind_eq, Logged.result_pure,
    Registry.require_ok_iff.mpr hop]
  cases (l.prepare ops).result <;> cases (r.prepare ops).result <;> rfl

/-- If `q` is the opposite of `p`, then an application of `p` and the application of `q` to the
operands with exchanged quantifiers, with its negation flipped, hold on the same stacks, or cannot
be prepared for the same reason. -/
theorem Condition.meaning_dual {ops : Registry} {p q : String} {P Q : Operator}
    (hp : ops.get? p = some P) (hq : ops.get? q = some Q) (hpq : ∀ v w, Q v w = !P v w)
    (negate : Bool) :
    (∀ x, (unary q (!negate) x.dual).meaning ops = (unary p negate x).meaning ops) ∧
    ∀ l r, (binary q (!negate) l.dual r.dual).meaning ops = (binary p negate l r).meaning ops := by
  constructor
  · intro x
    rw [meaning_unary hq, meaning_unary hp, Operand.result_prepare_dual]
    cases (x.prepare ops).result with
    | error f => rfl
    | ok s =>
      exact congrArg Except.ok
        (funext fun scopes => Test.evaluate_dual_unary hpq negate scopes s)
  · intro l r
    rw [meaning_binary hq, meaning_binary hp, Operand.result_prepare_dual,
      Operand.result_prepare_dual]
    cases (l.prepare ops).result with
    | error f => rfl
    | ok s =>
      cases (r.prepare ops).result with
      | error f => rfl
      | ok s' =>
        exact congrArg Except.ok
          (funext fun scopes => Test.evaluate_dual_binary hpq negate scopes s s')

/-- Every item of one row is some item of the other: no item differs from all of them. What is said
of every item of a row that is missing is true, and there is none of which the opposite is. -/
theorem Condition.meaning_dual_rows :
    let differs : Operator := fun v w => !Operator.is v w
    let ops := Registry.builtin.insert "differs" differs
    let items (name : String) (q : Quantifier) : Operand :=
      .path [.relative 0, .named [name] false, .all false] (some q)
    let document : Value := .object [("l", .array [.null, .bool true]), ("r", .array [.bool true])]
    ops.get? "is" = some Operator.is ∧ ops.get? "differs" = some differs ∧
    (∃ holds, (binary "differs" true (items "r" .some) (items "l" .every)).meaning ops = .ok holds ∧
      (binary "is" false (items "r" .every) (items "l" .some)).meaning ops = .ok holds ∧
      holds [document] = true) ∧
    ∃ holds, (unary "differs" true (items "m" .some)).meaning ops = .ok holds ∧
      (unary "is" false (items "m" .every)).meaning ops = .ok holds ∧ holds [document] = true := by
  intro differs ops items document
  have his : ops.get? "is" = some Operator.is := rfl
  have hdiffers : ops.get? "differs" = some differs := rfl
  obtain ⟨hunary, hbinary⟩ := meaning_dual his hdiffers (fun _ _ => rfl) false
  refine ⟨his, hdiffers, ⟨_, hbinary (items "r" .every) (items "l" .some), rfl, ?_⟩,
    _, hunary (items "m" .every), rfl, ?_⟩
  · decide +kernel
  · decide +kernel

end TreeQuery
