import BoolQuery.Query.Tree
import BoolQuery.RuleSet.Meaning

/-! What a query means as it is written, before any tree is made of it. -/

namespace BoolQuery.Query.Expr

/-- The truth of an expression whose literals are read by the schema `s`. -/
def holds (s : Schema) (a : Assignment) : Expr → Bool
  | clause c => a.rule (c.toRule s)
  | reference name => a.name name
  | not e => !e.holds s a
  | group e => e.holds s a
  | join condition l r => condition.combine [l.holds s a, r.holds s a]

/-- The rules that an expression states, in the order of the text. -/
def rules (s : Schema) : Expr → List Rule
  | clause c => [c.toRule s]
  | reference _ => []
  | not e => e.rules s
  | group e => e.rules s
  | join _ l r => l.rules s ++ r.rules s

end BoolQuery.Query.Expr
