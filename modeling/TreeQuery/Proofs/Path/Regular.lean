import TreeQuery.Grammar.Literal
import TreeQuery.Proofs.Value.Documents

/-! Paths and conditions that are written as the query language writes them. A path starts from a
scope and does not come back to one, lists of names and positions are not empty, operators are
called by identifiers that mean nothing else, and nothing in a literal is absent or NaN. Nothing is
asked of the size of numbers: carets lead out of as many scopes as there are carets. -/

namespace TreeQuery

mutual

/-- The selector can stand behind the first of a path. -/
def Selector.Regular : Selector → Prop
  | .root _ => False
  | .relative _ => False
  | .named names _ => names ≠ []
  | .elements positions => positions ≠ []
  | .slice .. => True
  | .all _ => True
  | .filter c _ => c.Regular

def Selector.RegularAll : List Selector → Prop
  | [] => True
  | s :: p => s.Regular ∧ Selector.RegularAll p

def Selector.RegularPath : List Selector → Prop
  | [] => False
  | first :: rest => first.isScope = true ∧ Selector.RegularAll rest

def Operand.Regular : Operand → Prop
  | .value v => v.Solid
  | .path p _ => Selector.RegularPath p

def Condition.Regular : Condition → Prop
  | .or l r => l.Regular ∧ r.Regular
  | .and l r => l.Regular ∧ r.Regular
  | .unary op _ x => (isIdentifier op = true ∧ op ∉ Grammar.keywords) ∧ x.Regular
  | .binary op _ l r =>
    (isIdentifier op = true ∧ op ∉ Grammar.keywords) ∧ l.Regular ∧ r.Regular

end

/-- The path is written as the query language writes paths. -/
def Path.Regular (p : Path) : Prop := Selector.RegularPath p

theorem Selector.regularAll_iff {p : List Selector} :
    Selector.RegularAll p ↔ ∀ s ∈ p, s.Regular := by
  induction p with
  | nil => simp [RegularAll]
  | cons s p ih => simp [RegularAll, ih]

theorem Path.regular_cons {first : Selector} {rest : List Selector} :
    Path.Regular (first :: rest) ↔ first.isScope = true ∧ ∀ s ∈ rest, s.Regular :=
  and_congr_right' Selector.regularAll_iff

namespace Condition

theorem Regular.negated : ∀ {c : Condition}, c.Regular → c.negated.Regular
  | .or _ _, h | .and _ _, h => ⟨h.1.negated, h.2.negated⟩
  | .unary .., h | .binary .., h => h

/-- A connective that keeps conditions regular can join any number of them. -/
theorem Regular.chain {connect : Condition → Condition → Condition}
    (hconnect : ∀ {l r : Condition}, l.Regular → r.Regular → (connect l r).Regular)
    {first : Condition} (hfirst : first.Regular) {rest : List Condition}
    (hrest : ∀ c ∈ rest, c.Regular) : (rest.foldl connect first).Regular := by
  induction rest generalizing first with
  | nil => exact hfirst
  | cons c rest ih =>
    obtain ⟨hc, hmore⟩ := List.forall_mem_cons.mp hrest
    exact ih (hconnect hfirst hc) hmore

end Condition

end TreeQuery
