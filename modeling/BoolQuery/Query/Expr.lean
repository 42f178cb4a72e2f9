import BoolQuery.Query.Clause
import BoolQuery.RuleSet.Basic

/-! What a query says before its literals have types: clauses and references, joined,
negated and grouped as the text spells it. -/

namespace BoolQuery.Query

inductive Expr
  | clause (c : Clause)
  | reference (name : String)
  | not (e : Expr)
  /-- Parentheses, which are kept even where they change nothing. -/
  | group (e : Expr)
  | join (condition : Condition) (left right : Expr)
  deriving DecidableEq, Repr

namespace Expr

/-- The names of stored rulesets, in the order of the text. -/
def names : Expr → List String
  | clause _ => []
  | reference name => [name]
  | not e => e.names
  | group e => e.names
  | join _ l r => l.names ++ r.names

end Expr

end BoolQuery.Query
