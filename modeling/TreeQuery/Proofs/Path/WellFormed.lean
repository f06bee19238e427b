import TreeQuery.Grammar.Literal
import TreeQuery.Proofs.Path.Grouping

/-! Paths and conditions that have a text form. A path starts from a scope and does not come back
to one; lists of names and positions are not empty; operators are called by identifiers that mean
nothing else; numbers fit their 64 bits. What literals can be is left open here. -/

namespace TreeQuery

variable (literal : Value → Prop)

mutual

/-- The selector can stand behind the first of a path. -/
def Selector.WellFormed : Selector → Prop
  | .root _ => False
  | .relative _ => False
  | .named names _ => names ≠ []
  | .elements positions => positions ≠ [] ∧ ∀ i ∈ positions, Json.fitsSigned i = true
  | .slice start stop step =>
    (∀ i ∈ start, Json.fitsSigned i = true) ∧ (∀ i ∈ stop, Json.fitsSigned i = true) ∧
      ∀ i ∈ step, Json.fitsSigned i = true
  | .all _ => True
  | .filter c _ => c.WellFormed

def Selector.WellFormedAll : List Selector → Prop
  | [] => True
  | s :: p => s.WellFormed ∧ Selector.WellFormedAll p

def Selector.WellFormedPath : List Selector → Prop
  | .root index :: p => Json.fitsUnsigned index = true ∧ Selector.WellFormedAll p
  | .relative index :: p => Json.fitsUnsigned index = true ∧ Selector.WellFormedAll p
  | _ => False

def Operand.WellFormed : Operand → Prop
  | .value v => literal v
  | .path p _ => Selector.WellFormedPath p

def Condition.WellFormed : Condition → Prop
  | .or l r => l.WellFormed ∧ r.WellFormed
  | .and l r => l.WellFormed ∧ r.WellFormed
  | .unary op _ x => (isIdentifier op = true ∧ op ∉ Grammar.keywords) ∧ x.WellFormed
  | .binary op _ l r =>
    (isIdentifier op = true ∧ op ∉ Grammar.keywords) ∧ l.WellFormed ∧ r.WellFormed

end

/-- The path has a text form. -/
def Path.WellFormed (p : Path) : Prop := Selector.WellFormedPath literal p

variable {literal}

theorem Selector.wellFormedAll_iff {p : List Selector} :
    Selector.WellFormedAll literal p ↔ ∀ s ∈ p, s.WellFormed literal := by
  induction p with
  | nil => simp [WellFormedAll]
  | cons s p ih => simp [WellFormedAll, ih]

theorem Path.WellFormed.of_mem_filter {p : Path} (hp : p.WellFormed literal) {c : Condition}
    {deep : Bool} (h : .filter c deep ∈ p) : c.WellFormed literal := by
  match p with
  | .root _ :: more | .relative _ :: more =>
    have hmem : .filter c deep ∈ more := by simpa using h
    exact Selector.wellFormedAll_iff.mp hp.2 _ hmem

/-- The parts of a chain are as well formed as the chain. -/
theorem Condition.WellFormed.of_mem_parts {k : Connective} {c p : Condition}
    (hc : c.WellFormed literal) (hp : p ∈ k.parts c) : p.WellFormed literal := by
  induction c using k.chain_induction with
  | part c hk =>
    rw [k.parts_of_not_heads hk, List.mem_singleton] at hp
    rwa [hp]
  | chain l r ihl ihr =>
    have hsides : l.WellFormed literal ∧ r.WellFormed literal := by cases k <;> exact hc
    rw [k.parts_apply, List.mem_append] at hp
    exact hp.elim (ihl hsides.1) (ihr hsides.2)

end TreeQuery
