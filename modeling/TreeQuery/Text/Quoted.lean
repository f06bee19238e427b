import TreeQuery.Text.Printable

/-! Quoted text, in two dialects. Documents write a text between double quotes with the escapes
of JSON. Messages quote what is left of an input so that every character of it can be seen. -/

namespace TreeQuery.Text

/-- A number below 16 as a lower case digit. -/
def hexDigit (n : Nat) : Char :=
  if n < 10 then Char.ofNat (48 + n) else Char.ofNat (87 + n)

/-- The lower case hexadecimal digits of a number, without leading zeros. -/
def hex (n : Nat) : List Char :=
  if n < 16 then [hexDigit n] else hex (n / 16) ++ [hexDigit (n % 16)]

/-- How a character is written inside a document text. -/
def documentChar (c : Char) : List Char :=
  match c with
  | '"' => ['\\', '"']
  | '\\' => ['\\', '\\']
  | '\x08' => ['\\', 'b']
  | '\x0c' => ['\\', 'f']
  | '\n' => ['\\', 'n']
  | '\r' => ['\\', 'r']
  | '\t' => ['\\', 't']
  | _ =>
    if c.toNat < 32 then
      ['\\', 'u', '0', '0', hexDigit (c.toNat / 16), hexDigit (c.toNat % 16)]
    else [c]

/-- A text as it is written in a document. -/
def document (s : String) : String :=
  String.ofList ('"' :: s.toList.flatMap documentChar ++ ['"'])

/-- How a character is written inside a message. -/
def messageChar (c : Char) : List Char :=
  match c with
  | '"' => ['\\', '"']
  | '\\' => ['\\', '\\']
  | '\n' => ['\\', 'n']
  | '\r' => ['\\', 'r']
  | '\t' => ['\\', 't']
  | '\x00' => ['\\', '0']
  | _ => if isPrintable c then [c] else ['\\', 'u', '\x7b'] ++ hex c.toNat ++ ['\x7d']

/-- A text as a message quotes it. -/
def message (s : List Char) : String :=
  String.ofList ('"' :: s.flatMap messageChar ++ ['"'])

end TreeQuery.Text
