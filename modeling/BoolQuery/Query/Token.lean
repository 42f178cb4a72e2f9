import BoolQuery.Query.Word

/-! The lexical units of a query. -/

namespace BoolQuery.Query

inductive TokenKind
  /-- One of `( ) ! & | ,`. -/
  | symbol
  /-- A field, a name, a keyword or an unquoted literal. -/
  | word
  | quoted
  /-- A comparison sign, or a negated keyword such as `!LIKE`. -/
  | operator
  deriving DecidableEq, Repr

structure Token where
  kind : TokenKind
  /-- For a quoted token the text that it denotes, without quotes and escapes. -/
  text : String
  deriving DecidableEq, Repr

namespace Token

def isSymbol (c : Char) (t : Token) : Bool := t.kind == .symbol && t.text.toList == [c]

/-- Whether the token can stand for a value. -/
def isLiteral (t : Token) : Bool := t.kind == .word || t.kind == .quoted

/-- Whether the token is `word`, in any letter case and without quotes. -/
def isWord (word : String) (t : Token) : Bool :=
  t.kind == .word && Text.equalsIgnoringCase t.text word

def isRuleSetName (t : Token) : Bool := t.kind == .word && Query.isRuleSetName t.text

/-- The operator that the token stands for. One that is spelled with letters, perhaps behind a
`!`, is known by its spelling in lower case. -/
def operatorName (t : Token) : String :=
  if t.kind == .word || (t.text.toList.dropWhile (· == '!')).all Char.isAlpha then t.text.toLower
  else t.text

/-- Whether the token makes the literal before it a field. -/
def isOperator (t : Token) : Bool :=
  match t.kind with
  | .operator => true
  | .word => isKeywordOperator t.text
  | .symbol | .quoted => false

end Token

end BoolQuery.Query
