/-
# Quoted text

Two ways to write a text between double quotes. A *label* quote escapes the
quote and the backslash and is meant for printable text; a *value* quote is
JSON's, which also escapes the control characters.

Key definitions: `Text.quoteLabel`, `Text.quoteValue`.
-/

namespace LiveRules
namespace Text

/-- `s` between double quotes, with each character spelled by `spell`. -/
def quoteBy (spell : Char → String) (s : String) : String :=
  "\"" ++ String.join (s.toList.map spell) ++ "\""

def spellLabel : Char → String
  | '"' => "\\\""
  | '\\' => "\\\\"
  | c => c.toString

def quoteLabel (s : String) : String :=
  quoteBy spellLabel s

/-- The escape of a control character by its number, in four hexadecimal
digits. -/
def numbered (c : Char) : String :=
  "\\u00" ++ String.ofList [Nat.digitChar (c.toNat / 16), Nat.digitChar (c.toNat % 16)]

def spellValue : Char → String
  | '"' => "\\\""
  | '\\' => "\\\\"
  | '\n' => "\\n"
  | '\r' => "\\r"
  | '\t' => "\\t"
  | '\x08' => "\\b"
  | '\x0c' => "\\f"
  | c => if c.toNat < 0x20 then numbered c else c.toString

def quoteValue (s : String) : String :=
  quoteBy spellValue s

example : quoteLabel "a\"b" = "\"a\\\"b\"" := by decide
example : quoteValue "\x01\n" = "\"\\u0001\\n\"" := by decide

end Text
end LiveRules
