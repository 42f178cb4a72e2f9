import BoolQuery.Query.Lexeme
import BoolQuery.Query.Reader
import BoolQuery.Literal
import BoolQuery.RuleSet.Wrapper

/-! From the text of a query to its tree. What a text says does not depend on the schema:
the schema only gives the literals their types and the references their definitions. -/

namespace BoolQuery.Query

namespace Clause

/-- The rule that a clause states. -/
def toRule (s : Schema) : Clause → Rule
  | search literal => .documentSearch (s.valueOf Rule.documentField literal)
  | nullTest field negated => .nullTest field negated
  | compare field operator literal =>
    { field, operator, value := some (s.valueOf field literal) }
  | among field operator literals =>
    { field, operator, value := some (.list (literals.map (s.valueOf field))) }

end Clause

namespace Expr

/-- A reference with its stored definition, or a mere reference if there is none. -/
def resolve (s : Schema) (name : String) : RuleSet :=
  match (s.lookup name).value with
  | some stored => stored.withName name
  | none => .reference name

/-- The opposite of a tree. Where rulesets are stored, a named one is negated from
outside, since its own negation belongs to its definition. -/
def negate (s : Schema) (t : RuleSet) : RuleSet :=
  if t.name.isSome && s.store.isSome then { negated := true, children := [t.toNode] }
  else { t with negated := !t.negated }

/-- The tree of an expression, with a wrapper around every rule. -/
def toTree (s : Schema) : Expr → RuleSet
  | clause c => .ofRule (c.toRule s)
  | reference name => resolve s name
  | not e => negate s (e.toTree s)
  | group e => { e.toTree s with parenthesized := true }
  | join condition l r => .merge condition (l.toTree s) (r.toTree s)

end Expr

/-- A tree that was read, and how many of the tokens were needed for it. -/
structure Parsed where
  tree : RuleSet
  consumed : Nat
  total : Nat

namespace Parsed

/-- Whether no token was left over. -/
def isComplete (p : Parsed) : Bool := p.consumed == p.total

end Parsed

/-- What looking up these names reports, one lookup after the other. -/
def lookupLog (s : Schema) (names : List String) : List Event :=
  names.flatMap fun name => (s.lookup name).log

/-- Reads tokens as a query. References are looked up as they are met, so a failure has
looked up those before it. -/
def parseTokens (s : Schema) (ts : List Token) : Logged (Except ParseError Parsed) :=
  match Expr.read ts with
  | .error f => ⟨.error (f.fault.toError ts.length), lookupLog s f.names⟩
  | .ok p =>
    { value := .ok
        { tree := (p.value.toTree s).simplify
          consumed := ts.length - p.rest.length
          total := ts.length }
      log := lookupLog s p.value.names }

/-- Reads the text of a query as far as it goes. -/
def parse (s : Schema) (text : String) : Logged (Except ParseError Parsed) := do
  let ts := tokenize text.toList
  Logged.ofEvent (.tokenized ts.length)
  parseTokens s ts

end BoolQuery.Query
