import BoolQuery.Json.Basic
import BoolQuery.Numeric.Layout
import BoolQuery.Text.Quoted

/-! The text of a JSON document, without any blanks. -/

namespace BoolQuery.Json
open Text

/-- A half of a character is escaped, as it has no other spelling. -/
def escapeLetter : Letter → List Char
  | .char c => escape c
  | .half n =>
    ['\\', 'u', hexDigit (n / 0x1000), hexDigit (n / 0x100), hexDigit (n / 0x10), hexDigit n]

def quoteLetters (ls : Letters) : List Char := '"' :: (ls.flatMap escapeLetter ++ ['"'])

mutual

def text : Json → List Char
  | null => "null".toList
  | bool true => "true".toList
  | bool false => "false".toList
  | number negative d => Numeric.signText negative ++ d.fractional
  | string ls => quoteLetters ls
  | array items => '[' :: ([','].intercalate (texts items) ++ [']'])
  | object members => '\x7b' :: ([','].intercalate (memberTexts members) ++ ['\x7d'])

def texts : List Json → List (List Char)
  | [] => []
  | j :: js => j.text :: texts js

def memberTexts : List (Letters × Json) → List (List Char)
  | [] => []
  | (key, j) :: members => (quoteLetters key ++ ':' :: j.text) :: memberTexts members

end

end BoolQuery.Json
