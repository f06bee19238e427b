import TreeQuery.Path.Basic

/-! What is true of all literals in a path or condition, those inside filters included. -/

namespace TreeQuery

variable (P : Value → Prop)

mutual

/-- Every literal in the selector satisfies `P`. -/
def Selector.Literals : Selector → Prop
  | .filter c _ => c.Literals
  | _ => True

def Selector.LiteralsAll : List Selector → Prop
  | [] => True
  | s :: p => s.Literals ∧ Selector.LiteralsAll p

def Operand.Literals : Operand → Prop
  | .value v => P v
  | .path p _ => Selector.LiteralsAll p

/-- Every literal in the condition satisfies `P`, at any depth. -/
def Condition.Literals : Condition → Prop
  | .or l r => l.Literals ∧ r.Literals
  | .and l r => l.Literals ∧ r.Literals
  | .unary _ _ x => x.Literals
  | .binary _ _ l r => l.Literals ∧ r.Literals

end

/-- Every literal in the path satisfies `P`. -/
def Path.Literals (p : Path) : Prop := Selector.LiteralsAll P p

end TreeQuery
