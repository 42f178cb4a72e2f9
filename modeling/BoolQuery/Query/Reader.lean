import BoolQuery.Query.Expr

/-! Reading a query. `!` binds tightest, then `&`, then `|`, and both signs join from the
left. Reading stops at the first token that cannot go on with the query, which is an error
only inside parentheses. -/

namespace BoolQuery.Query

/-- The token that joins operands under a condition. -/
def joinSign : Condition → Char
  | .and => '&'
  | .or => '|'

/-- A fault, and the references that were read before it. -/
structure Failure where
  fault : Fault
  names : List String := []
  deriving DecidableEq, Repr

namespace Failure

/-- The failure as seen from the start of an expression whose left part is `e`. -/
def behind (e : Expr) (f : Failure) : Failure := { f with names := e.names ++ f.names }

end Failure

namespace Expr

/-- Reads an expression from the start of some tokens. -/
abbrev Reader := (ts : List Token) → Except Failure (Phrase Expr ts)

/-- The operands that follow the phrase `p`, joined to it one by one. -/
def readJoined (condition : Condition) (operand : Reader) {tokens : List Token}
    (p : Phrase Expr tokens) : Except Failure (Phrase Expr tokens) :=
  match _h : p.rest with
  | [] => .ok p
  | t :: ts =>
    if t.isSymbol (joinSign condition) then
      match operand ts with
      | .error f => .error (f.behind p.value)
      | .ok q =>
        readJoined condition operand
          ⟨.join condition p.value q.value, q.rest,
            q.suffix.trans (p.suffix_of_rest _h),
            Nat.lt_trans q.shorter (p.shorter_of_rest _h)⟩
    else .ok p
termination_by p.rest.length
decreasing_by
  simp only [_h, List.length_cons]
  exact Nat.lt_succ_of_lt q.shorter

/-- One or more operands joined under a condition. -/
def readChain (condition : Condition) (operand : Reader) : Reader := fun ts =>
  match operand ts with
  | .error f => .error f
  | .ok p => readJoined condition operand p

/-- An expression whose operands are read by `operand`. -/
def readDisjunction (operand : Reader) : Reader := readChain .or (readChain .and operand)

/-- The rest of a group: an expression, and the parenthesis that closes it. -/
def readGroup (operand : Reader) : Reader := fun ts =>
  match readDisjunction operand ts with
  | .error f => .error f
  | .ok p =>
    match _h : p.rest with
    | [] => .error ⟨.unclosedParenthesis, p.value.names⟩
    | t :: rest =>
      if t.isSymbol ')' then
        .ok ⟨.group p.value, rest, p.suffix_of_rest _h, p.shorter_of_rest _h⟩
      else .error ⟨.unclosedParenthesis, p.value.names⟩

/-- An operand that is neither a negation nor a group. -/
def readLeaf (t : Token) (ts : List Token) : Except Failure (Phrase Expr (t :: ts)) :=
  if t.isRuleSetName then .ok (.ofHead (.reference t.text) t ts)
  else if !t.isLiteral then .error ⟨.unexpected t ts, []⟩
  else
    match Clause.read t ts with
    | .error fault => .error ⟨fault, []⟩
    | .ok p => .ok (p.map .clause)

/-- An operand in which at most `depth` negations and groups are open at once. -/
def readOperand : (depth : Nat) → Reader
  | _, [] => .error ⟨.endOfText, []⟩
  | 0, t :: ts =>
    if t.isSymbol '!' || t.isSymbol '(' then .error ⟨.tooDeep, []⟩ else readLeaf t ts
  | depth + 1, t :: ts =>
    if t.isSymbol '!' then
      (readOperand depth ts).map fun p => (p.map .not).afterToken t
    else if t.isSymbol '(' then
      (readGroup (readOperand depth) ts).map fun p => p.afterToken t
    else readLeaf t ts

/-- Reads an expression from the start of the tokens of a query. -/
def read : Reader := readDisjunction (readOperand maxDepth)

end Expr

end BoolQuery.Query
