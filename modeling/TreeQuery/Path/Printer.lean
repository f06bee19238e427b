import TreeQuery.Path.Basic
import TreeQuery.Value.Document

/-! The text of paths and conditions, in the form that the grammar reads back. A literal carries
a backtick, an operand its quantifier, and a group its parentheses only where it is needed: around
an alternative inside a conjunction. -/

namespace TreeQuery

def isNameStart (c : Char) : Bool :=
  ('a' ≤ c && c ≤ 'z') || ('A' ≤ c && c ≤ 'Z') || c == '_'

def isNamePart (c : Char) : Bool := isNameStart c || ('0' ≤ c && c ≤ '9')

/-- Names that can be written without quotes: a letter or underscore, then also digits. -/
def isIdentifier (name : String) : Bool :=
  match name.toList with
  | c :: cs => isNameStart c && cs.all isNamePart
  | [] => false

def nameList (names : List String) : String := ", ".intercalate (names.map Text.document)

def optionText (i : Option Int) : String := (i.map toString).getD ""

/-- What a selector in brackets holds; double brackets reach all descendants. -/
def bracketed (deep : Bool) (content : String) : String :=
  if deep then "[[" ++ content ++ "]]" else "[" ++ content ++ "]"

def grouped (inParentheses : Bool) (text : String) : String :=
  if inParentheses then "(" ++ text ++ ")" else text

def negation (negate : Bool) : String := if negate then "not " else ""

def Condition.isOr : Condition → Bool
  | .or _ _ => true
  | _ => false

mutual

def Selector.display : Selector → String
  | .root 0 => "$"
  | .root index => "$" ++ toString index
  | .relative 0 => "@"
  | .relative 1 => "^"
  | .relative index => "@" ++ toString index
  | .named names deep =>
    match names with
    | [name] =>
      if isIdentifier name then (if deep then ".." else ".") ++ name
      else bracketed deep (nameList names)
    | _ => bracketed deep (nameList names)
  | .elements positions => "[" ++ ", ".intercalate (positions.map toString) ++ "]"
  | .slice start stop step =>
    "[" ++ optionText start ++ ":" ++ optionText stop
      ++ (step.map fun n => ":" ++ toString n).getD "" ++ "]"
  | .all deep => if deep then "[**]" else "[*]"
  | .filter condition deep => bracketed deep ("? " ++ condition.display)

def Selector.displayAll : List Selector → String
  | [] => ""
  | s :: p => s.display ++ Selector.displayAll p

def Operand.display : Operand → String
  | .value v => "\x60" ++ v.toJson.compact
  | .path p quantifier =>
    match quantifier with
    | some .some => "some " ++ Selector.displayAll p
    | some .every => "every " ++ Selector.displayAll p
    | none => Selector.displayAll p

def Condition.display : Condition → String
  | .or l r => l.display ++ " or " ++ r.display
  | .and l r => grouped l.isOr l.display ++ " and " ++ grouped r.isOr r.display
  | .unary op negate x => negation negate ++ x.display ++ " " ++ op
  | .binary op negate l r => negation negate ++ l.display ++ " " ++ op ++ " " ++ r.display

end

def Path.display (p : Path) : String := Selector.displayAll p

end TreeQuery
