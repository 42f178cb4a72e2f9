/-! Why a text is not a query. -/

namespace BoolQuery.Query

/-- The most negations and groups that may be open at one place of a query. -/
def maxDepth : Nat := 128

inductive ParseError
  | endOfText
  | unclosedParenthesis
  | emptyList
  /-- The text of a token and its place in the query, counted in tokens from zero. -/
  | unexpected (token : String) (index : Nat)
  | tooDeep
  deriving DecidableEq, Repr

namespace ParseError

def message : ParseError → String
  | endOfText => "unexpected end of input"
  | unclosedParenthesis => "missing closing parenthesis"
  | emptyList => "IN requires at least one value"
  | unexpected token index => "unexpected token '" ++ token ++ "' at position " ++ toString index
  | tooDeep => "expression nested deeper than " ++ toString maxDepth ++ " levels"

end ParseError

end BoolQuery.Query
