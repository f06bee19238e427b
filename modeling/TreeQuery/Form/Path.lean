import TreeQuery.Form.Record
import TreeQuery.Path.Basic
import TreeQuery.Value.Document

/-! Paths and conditions as documents. Everything that is a choice of several shapes is written
as a variant; a switch is always written, a quantifier only where there is one. -/

namespace TreeQuery

open Form

/-! ### Writing -/

def Quantifier.word : Quantifier → String
  | .some => "some"
  | .every => "every"

namespace Form

def intJson (i : Int) : Json := .number (.whole i)

def optionalJson : Option Int → Json
  | some i => intJson i
  | none => .null

def variantJson (tag : String) (fields : List (String × Json)) : Json :=
  .object (("type", .string tag) :: fields)

end Form

mutual

def Selector.toJson : Selector → Json
  | .root index => variantJson "root" [("index", .nat index)]
  | .relative index => variantJson "relative" [("index", .nat index)]
  | .named names deep =>
    variantJson "named" [("names", .array (names.map .string)), ("descendants", .bool deep)]
  | .elements positions => variantJson "elements" [("indices", .array (positions.map intJson))]
  | .slice start stop step =>
    variantJson "slice"
      [("start", optionalJson start), ("end", optionalJson stop), ("step", optionalJson step)]
  | .all deep => variantJson "all" [("descendants", .bool deep)]
  | .filter condition deep =>
    variantJson "filter" [("expression", condition.toJson), ("descendants", .bool deep)]

def Selector.listJson : List Selector → List Json
  | [] => []
  | s :: rest => s.toJson :: Selector.listJson rest

def Operand.toJson : Operand → Json
  | .value v => variantJson "value" [("value", v.toJson)]
  | .path p quantifier =>
    variantJson "path"
      (("path", .array (Selector.listJson p)) ::
        match quantifier with
        | some q => [("qualifier", .string q.word)]
        | none => [])

def Condition.toJson : Condition → Json
  | .or l r => variantJson "or" [("lhs", l.toJson), ("rhs", r.toJson)]
  | .and l r => variantJson "and" [("lhs", l.toJson), ("rhs", r.toJson)]
  | .unary op negate x =>
    variantJson "unary"
      [("op", .string op), ("negate", .bool negate), ("operand", x.toJson)]
  | .binary op negate l r =>
    variantJson "binary"
      [("op", .string op), ("negate", .bool negate), ("lhs", l.toJson), ("rhs", r.toJson)]

end

def Path.toJson (p : Path) : Json := .array (Selector.listJson p)

/-! ### Reading -/

/-- The shapes of selectors. -/
inductive Selector.Tag where
  | root | relative | named | elements | slice | all | filter

def Selector.tags : List (String × Selector.Tag) :=
  [("root", .root), ("relative", .relative), ("named", .named), ("elements", .elements),
    ("slice", .slice), ("all", .all), ("filter", .filter)]

/-- The shapes of operands. -/
inductive Operand.Tag where
  | value | path

def Operand.tags : List (String × Operand.Tag) := [("value", .value), ("path", .path)]

/-- The shapes of conditions. -/
inductive Condition.Tag where
  | or | and | unary | binary

def Condition.tags : List (String × Condition.Tag) :=
  [("or", .or), ("and", .and), ("unary", .unary), ("binary", .binary)]

def Quantifier.words : List (String × Quantifier) := [("some", .some), ("every", .every)]

def Quantifier.ofJson? (inner : Bool) (j : Json) : Option Quantifier :=
  word? Quantifier.words inner j

mutual

/-- The selector that a document describes. Within another variant, `inner`, tags may also be
given by position. -/
def Selector.ofJson? (inner : Bool) (j : Json) : Option Selector :=
  match h : variant? Selector.tags inner j with
  | none => none
  | some (tag, content) =>
    match tag with
    | .root =>
      match content.pick [field "index"] with
      | some [some i] => i.index?.map .root
      | _ => none
    | .relative =>
      match content.pick [field "index"] with
      | some [some i] => i.index?.map .relative
      | _ => none
    | .named =>
      match content.pick [field "names", omissible "descendants"] with
      | some [some names, deep] => do
        return .named (← list? Json.string? names) (← flag? deep)
      | _ => none
    | .elements =>
      match content.pick [field "indices"] with
      | some [some positions] => (list? Json.int? positions).map .elements
      | _ => none
    | .slice =>
      match content.pick [field "start", field "end", field "step"] with
      | some [start, stop, step] => do
        return .slice (← maybe? Json.int? start) (← maybe? Json.int? stop)
          (← maybe? Json.int? step)
      | _ => none
    | .all =>
      match content.pick [omissible "descendants"] with
      | some [deep] => (flag? deep).map .all
      | _ => none
    | .filter =>
      match hp : content.pick [field "expression", omissible "descendants"] with
      | some [some condition, deep] =>
        have : sizeOf condition < sizeOf j :=
          Nat.lt_trans (Content.pick_size hp (by simp)) (variant?_size h)
        do
        return .filter (← Condition.ofJson? true condition) (← flag? deep)
      | _ => none
termination_by sizeOf j

def Path.ofJson? (inner : Bool) (j : Json) : Option (List Selector) :=
  match j with
  | .array items =>
    items.attach.mapM fun ⟨item, h⟩ =>
      have := List.sizeOf_lt_of_mem h
      Selector.ofJson? inner item
  | _ => none
termination_by sizeOf j
decreasing_by simp only [Json.array.sizeOf_spec]; omega

def Operand.ofJson? (inner : Bool) (j : Json) : Option Operand :=
  match h : variant? Operand.tags inner j with
  | none => none
  | some (tag, content) =>
    match tag with
    | .value =>
      match content.pick [field "value"] with
      | some [some v] => some (.value (.ofJson v))
      | _ => none
    | .path =>
      match hp : content.pick [field "path", omissible "qualifier"] with
      | some [some p, quantifier] =>
        have : sizeOf p < sizeOf j :=
          Nat.lt_trans (Content.pick_size hp (by simp)) (variant?_size h)
        do
        return .path (← Path.ofJson? true p) (← maybe? (Quantifier.ofJson? true) quantifier)
      | _ => none
termination_by sizeOf j

def Condition.ofJson? (inner : Bool) (j : Json) : Option Condition :=
  match h : variant? Condition.tags inner j with
  | none => none
  | some (tag, content) =>
    match tag with
    | .or =>
      match hp : content.pick [field "lhs", field "rhs"] with
      | some [some l, some r] =>
        have : sizeOf l < sizeOf j :=
          Nat.lt_trans (Content.pick_size hp (by simp)) (variant?_size h)
        have : sizeOf r < sizeOf j :=
          Nat.lt_trans (Content.pick_size hp (by simp)) (variant?_size h)
        do
        return .or (← Condition.ofJson? true l) (← Condition.ofJson? true r)
      | _ => none
    | .and =>
      match hp : content.pick [field "lhs", field "rhs"] with
      | some [some l, some r] =>
        have : sizeOf l < sizeOf j :=
          Nat.lt_trans (Content.pick_size hp (by simp)) (variant?_size h)
        have : sizeOf r < sizeOf j :=
          Nat.lt_trans (Content.pick_size hp (by simp)) (variant?_size h)
        do
        return .and (← Condition.ofJson? true l) (← Condition.ofJson? true r)
      | _ => none
    | .unary =>
      match hp : content.pick [field "op", omissible "negate", field "operand"] with
      | some [some op, negate, some x] =>
        have : sizeOf x < sizeOf j :=
          Nat.lt_trans (Content.pick_size hp (by simp)) (variant?_size h)
        do
        return .unary (← op.string?) (← flag? negate) (← Operand.ofJson? true x)
      | _ => none
    | .binary =>
      match hp : content.pick [field "op", omissible "negate", field "lhs", field "rhs"] with
      | some [some op, negate, some l, some r] =>
        have : sizeOf l < sizeOf j :=
          Nat.lt_trans (Content.pick_size hp (by simp)) (variant?_size h)
        have : sizeOf r < sizeOf j :=
          Nat.lt_trans (Content.pick_size hp (by simp)) (variant?_size h)
        do
        return .binary (← op.string?) (← flag? negate) (← Operand.ofJson? true l)
          (← Operand.ofJson? true r)
      | _ => none
termination_by sizeOf j

end

end TreeQuery
