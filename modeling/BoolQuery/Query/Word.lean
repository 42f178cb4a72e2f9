import BoolQuery.Text.Ascii

/-! The words that a query reads in a special way: names of stored rulesets, and operators
that are spelled with letters. -/

namespace BoolQuery.Query
open Text

/-- Upper-case letters, digits and underscores, with a letter among them. -/
def isRuleSetName (word : String) : Bool :=
  everyChar (fun c => c.isUpper || c.isDigit || c == '_') word &&
    word.toList.any Char.isUpper

/-- The operators that may be written in any letter case. -/
def keywords : List String := ["CONTAINS", "LIKE", "IN", "NOT", "IS"]

/-- Upper-case letters and underscores, a letter first. -/
def isCapitalWord : List Char → Bool
  | [] => false
  | c :: cs => c.isUpper && cs.all fun d => d.isUpper || d == '_'

/-- Whether a word that follows a field is an operator: a keyword, or a capital word. -/
def isKeywordOperator (word : String) : Bool :=
  keywords.any (equalsIgnoringCase word) || isCapitalWord word.toList

end BoolQuery.Query
