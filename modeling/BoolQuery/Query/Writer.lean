import BoolQuery.Query.Word
import BoolQuery.RuleSet.Basic
import BoolQuery.Text.Blank
import BoolQuery.Text.Quoted

/-! The text of a tree. Parentheses stand only where precedence or a negation needs them,
and a named ruleset is written by its name alone. -/

namespace BoolQuery

open Text

namespace Query

/-- Whether a string can stand in a query without quotes. A ruleset's name cannot, as it
would be read as a reference. -/
def isBareWord (s : String) : Bool :=
  !s.toList.isEmpty &&
    everyChar (fun c => c.isAlphanum || c == '.' || c == '_' || c == '-') s &&
    !isRuleSetName s

/-- Letters, underscores and blanks, a letter first. -/
def isWordy : List Char → Bool
  | [] => false
  | c :: cs => c.isAlpha && (c :: cs).all fun d => d.isAlpha || d == '_' || isBlank d

/-- An operator as it is written: one that is spelled with letters is in upper case, also
behind a `!`. -/
def operatorText (operator : String) : List Char :=
  match operator.toList with
  | '!' :: rest => if isWordy rest then '!' :: rest.map Char.toUpper else '!' :: rest
  | cs => if isWordy cs then cs.map Char.toUpper else cs

/-- Whether a written operator is set apart by spaces, as one that is spelled with letters
has to be. -/
def isSpaced (operator : List Char) : Bool :=
  match operator.filter fun c => !isBlank c with
  | '!' :: rest => isCapitalWord rest
  | cs => isCapitalWord cs

end Query

namespace Value

def stringText (s : String) : List Char :=
  if Query.isBareWord s then s.toList else quote s.toList

mutual

/-- The text of a value in a query. -/
def queryText : Value → List Char
  | bool b => boolText b
  | number x => x.queryText
  | string s => stringText s
  | date d => d.text
  | list items => '(' :: ([','].intercalate (queryTexts items) ++ [')'])

def queryTexts : List Value → List (List Char)
  | [] => []
  | v :: vs => v.queryText :: queryTexts vs

end

end Value

namespace Rule

/-- The text of a comparison; `operator` is the operator as written. -/
def comparisonText (r : Rule) (operator : List Char) : List Char :=
  let gap := if Query.isSpaced operator then [' '] else []
  let operand := match r.value with
    | some v => gap ++ v.queryText
    | none => []
  r.field.toList ++ gap ++ operator ++ operand

/-- The text of a rule. A document search is written as its value. -/
def queryText (r : Rule) : List Char :=
  if r.isDocumentSearch then (r.value.map Value.queryText).getD []
  else r.comparisonText (Query.operatorText r.operator)

end Rule

namespace Header

/-- Whether a ruleset needs parentheses among operands joined by `outer`. -/
def isLooserThan (h : Header) (outer : Option Condition) : Bool :=
  outer.any fun c => h.condition.precedence < c.precedence

end Header

namespace Query

def inParentheses (cs : List Char) : List Char := '(' :: (cs ++ [')'])

/-- The text of a ruleset by its name. -/
def nameText (negated : Bool) (name : String) : List Char :=
  (if negated then ['!'] else []) ++ name.toList

end Query

namespace Node

/-- The name that a negation around these children can be joined to: they are a single
named ruleset, which is not negated itself. -/
def soleName? : List Node → Option String
  | [group h _] => if h.negated then none else h.name
  | _ => none

/-- Whether a `!` can stand before these children without parentheses. -/
def negatesBare : List Node → Bool
  | [only] => only.isAtomic
  | _ => false

mutual

/-- The text of a node among operands joined by `outer`. -/
def queryText (outer : Option Condition) : Node → List Char
  | rule r => r.queryText
  | group h kids =>
    match h.name with
    | some name => Query.nameText h.negated name
    | none =>
      if h.negated then
        match soleName? kids with
        | some name => Query.nameText true name
        | none =>
          let inside := h.condition.joiner.toList.intercalate (queryTexts h.condition kids)
          '!' :: (if negatesBare kids then inside else Query.inParentheses inside)
      else
        match aloneText? outer kids with
        | some text => text
        | none =>
          let inside := h.condition.joiner.toList.intercalate (queryTexts h.condition kids)
          if h.isLooserThan outer then Query.inParentheses inside else inside

/-- The text of a single child that takes its parent's place: a wrapper around anything
but a name is not written. -/
def aloneText? (outer : Option Condition) : List Node → Option (List Char)
  | [only] => if only.hasName then none else some (only.queryText outer)
  | _ => none

def queryTexts (condition : Condition) : List Node → List (List Char)
  | [] => []
  | n :: ns => n.queryText (some condition) :: queryTexts condition ns

end

end Node

namespace RuleSet

/-- The query that states a tree. -/
def toQuery (t : RuleSet) : String := String.ofList (t.toNode.queryText none)

end RuleSet

end BoolQuery
