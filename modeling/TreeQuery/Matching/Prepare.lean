import TreeQuery.Grammar.Text
import TreeQuery.Log
import TreeQuery.Matching.Matcher

/-! Preparing paths and conditions for matching. The only thing that can go wrong is an operator
that the registry does not know. A path with a scope in the wrong place is prepared all the same,
with a warning, and never matches. -/

namespace TreeQuery

open Logged (note)

namespace Selector

/-- Where a path that starts with this selector starts. -/
def origin? : Selector → Option Origin
  | root index => some (.root index)
  | relative index => some (.relative index)
  | _ => none

end Selector

namespace Path

def emptyWarning : String := "Empty path will never match"

def startWarning (p : Path) : String :=
  "Path '" ++ p.display ++ "' does not start with a scope selector and will never match"

def scopeWarning (p : Path) : String :=
  "Path '" ++ p.display
    ++ "' has a scope selector after its first component and will never match"

def preparedText (p : Path) (multi : Bool) : String :=
  "Compiled path '" ++ p.display ++ "' (" ++ toString p.length ++ " components, multi="
    ++ toString multi ++ ")"

end Path

/-- Looks an operator up. -/
def Registry.require (ops : Registry) (name : String) : Logged QueryError Operator :=
  match ops.get? name with
  | some op => pure op
  | none => .fail (.unknownOperator name)

mutual

/-- Prepares a selector of the path `whole` that is not its first. -/
def Selector.prepare (ops : Registry) (whole : Path) : Selector → Logged QueryError Step
  | .root _ => do
    note .warn whole.scopeWarning
    return .never
  | .relative _ => do
    note .warn whole.scopeWarning
    return .never
  | .named names deep => return .named names deep
  | .elements positions => return .elements positions
  | .slice start stop step => return .slice start stop step
  | .all deep => return .all deep
  | .filter condition deep => return .filter (← condition.prepare ops) deep

def Selector.prepareAll (ops : Registry) (whole : Path) :
    List Selector → Logged QueryError (List Step)
  | [] => return []
  | s :: rest => do
    let step ← s.prepare ops whole
    let steps ← Selector.prepareAll ops whole rest
    return step :: steps

def Selector.preparePath (ops : Registry) : List Selector → Logged QueryError Matcher
  | [] => do
    note .warn Path.emptyWarning
    return ⟨none, []⟩
  | first :: rest => do
    let whole : Path := first :: rest
    if first.origin?.isNone then note .warn whole.startWarning
    let steps ← Selector.prepareAll ops whole rest
    let matcher : Matcher := ⟨first.origin?, steps⟩
    note .debug (whole.preparedText matcher.isMulti)
    return matcher

def Operand.prepare (ops : Registry) : Operand → Logged QueryError Source
  | .value v => return .literal v
  | .path p quantifier => do
    let matcher ← Selector.preparePath ops p
    return .path matcher.origin matcher.steps quantifier

/-- Prepares a condition: the operator of a node before its operands, left before right. -/
def Condition.prepare (ops : Registry) : Condition → Logged QueryError Test
  | .or l r => return .or (← l.prepare ops) (← r.prepare ops)
  | .and l r => return .and (← l.prepare ops) (← r.prepare ops)
  | .unary op negate x => return .unary (← ops.require op) negate (← x.prepare ops)
  | .binary op negate l r =>
    return .binary (← ops.require op) negate (← l.prepare ops) (← r.prepare ops)

end

/-- Prepares a path for matching. -/
def Path.prepare (ops : Registry) (p : Path) : Logged QueryError Matcher :=
  Selector.preparePath ops p

end TreeQuery
