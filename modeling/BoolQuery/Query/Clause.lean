import BoolQuery.Query.Phrase
import BoolQuery.Rule

/-! Clauses, the rules of a query as they are written: a literal, and after it perhaps an
operator with what it compares with. Words such as `in` and `null` are keywords only where
an operator can go on with them, so they are ordinary literals everywhere else. -/

namespace BoolQuery.Query

/-- A rule as it is written. Its literals are kept as tokens, since only the field tells
what type they have and quotes decide whether they have one at all. -/
inductive Clause
  /-- A literal on its own, searched for in the whole document. -/
  | search (literal : Token)
  | nullTest (field : String) (negated : Bool)
  | compare (field operator : String) (literal : Token)
  | among (field operator : String) (literals : List Token)
  deriving DecidableEq, Repr

namespace Clause

abbrev Result (α : Type) (tokens : List Token) := Except Fault (Phrase α tokens)

/-- The literals of a list up to its closing parenthesis. A comma may follow each one. -/
def readLiterals : (ts : List Token) → Result (List Token) ts
  | [] => .error .unclosedParenthesis
  | t :: ts =>
    if t.isSymbol ')' then .ok (.ofHead [] t ts)
    else if !t.isLiteral then .error (.unexpected t ts)
    else match ts with
      | [] => .error .unclosedParenthesis
      | comma :: ts =>
        if comma.isSymbol ',' then
          (readLiterals ts).map fun p => ((p.map (t :: ·)).afterToken comma).afterToken t
        else (readLiterals (comma :: ts)).map fun p => (p.map (t :: ·)).afterToken t

/-- The literals of a list, of which there must be one. -/
def readList (ts : List Token) : Result (List Token) ts :=
  match readLiterals ts with
  | .error fault => .error fault
  | .ok p => if p.value.isEmpty then .error .emptyList else .ok p

/-- The single literal after an operator. -/
def readLiteral : (ts : List Token) → Result Token ts
  | [] => .error .endOfText
  | t :: ts => if t.isLiteral then .ok (.ofHead t t ts) else .error (.unexpected t ts)

/-- What an operator compares with: a list in parentheses where the operator takes one,
else a literal. -/
def readOperand (field operator : String) (ts : List Token) : Result Clause ts :=
  match ts with
  | t :: ts =>
    if isListOperator operator && t.isSymbol '(' then
      (readList ts).map fun p => (p.map (.among field operator)).afterToken t
    else (readLiteral (t :: ts)).map fun p => p.map (.compare field operator)
  | [] => (readLiteral []).map fun p => p.map (.compare field operator)

/-- The words that turn `is` into a null test; `true` means a negated one. -/
def readNull? : (ts : List Token) → Option (Phrase Bool ts)
  | [] => none
  | [t] => if t.isWord "null" then some (.ofHead false t []) else none
  | t :: u :: ts =>
    if t.isWord "null" then some (.ofHead false t (u :: ts))
    else if t.isWord "not" && u.isWord "null" then
      some ((Phrase.ofHead true u ts).afterToken t)
    else none

/-- What stands behind a field and the operator `operator`. -/
def readComparison (field operator : String) (ts : List Token) : Result Clause ts :=
  if operator == "not" then
    match ts with
    | [] => readOperand field operator []
    | t :: ts =>
      if t.isWord "in" then (readOperand field "not in" ts).map fun p => p.afterToken t
      else readOperand field operator (t :: ts)
  else if operator == "is" then
    match readNull? ts with
    | some p => .ok (p.map (.nullTest field))
    | none => readOperand field operator ts
  else readOperand field operator ts

/-- A clause whose first literal is `first`; `ts` follows it. -/
def read (first : Token) (ts : List Token) : Result Clause (first :: ts) :=
  match ts with
  | [] => .ok (.ofHead (.search first) first [])
  | t :: ts =>
    if t.isOperator then
      (readComparison first.text t.operatorName ts).map fun p =>
        (p.afterToken t).afterToken first
    else .ok (.ofHead (.search first) first (t :: ts))

end Clause

end BoolQuery.Query
