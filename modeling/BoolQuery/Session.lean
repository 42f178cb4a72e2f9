import BoolQuery.Query.Writer
import BoolQuery.Hooks
import BoolQuery.Validation
import BoolQuery.Wire.Config

/-! Sessions, in which a tree is edited step by step. A session also builds up the
configuration that its texts are read by, and the rulesets that they may refer to. A step
that fails changes nothing. -/

namespace BoolQuery

structure Session where
  config : Config := {}
  stored : Table RuleSet := []
  current : RuleSet := {}

namespace Session

inductive Step
  | load (text : String)
  | field (name : String) (f : Field)
  | entity (name : String)
  | strict (on : Bool)
  | allowEmpty (on : Bool)
  | operators (hook : OperatorHook)
  | store (hook : StoreHook)
  /-- Stores what the text says, or the current tree if there is none. -/
  | define (name : String) (text : Option String)
  | undefine (name : String)
  | parse (text : String)
  | validate (text : String)
  | check
  | start (condition : Condition)
  | reference (name : String)
  | negate (on : Bool)
  | rename (name : String)
  | group (on : Bool)
  | wrap (condition : Condition)
  | push (text : String)
  | pushRule (r : Rule)
  | simplify
  | reparse
  /-- Sends the current tree through its JSON text. -/
  | json
  | wire
  | display
  | inspect

inductive Answer
  | done
  | tree (t : RuleSet)
  | parsed (p : Query.Parsed)
  | verdict (valid : Logged Bool)
  | text (s : String)
  | inspection (t : RuleSet)

inductive Failure
  | parse (error : Query.ParseError)
  | json

/-- What a step leads to. -/
abbrev Outcome := Except Failure (Session × Answer)

def done (s : Session) : Outcome := .ok (s, .done)

/-- Goes on with the tree `t` and answers it. -/
def showing (s : Session) (t : RuleSet) : Outcome := .ok ({ s with current := t }, .tree t)

/-- Reads a text by the present configuration. -/
def read (s : Session) (text : String) : Except Failure Query.Parsed :=
  (Query.parse s.config.toSchema text).value.mapError .parse

def ofJsonResult {α : Type} (a : Option α) : Except Failure α :=
  match a with
  | some x => .ok x
  | none => .error .json

/-- Puts these definitions into the store, and the store into the configuration. -/
def withStored (s : Session) (definitions : Table RuleSet) : Session :=
  { s with
    stored := definitions
    config := { s.config with store := some (Config.storeOf definitions) } }

def append (s : Session) (n : Node) : Outcome :=
  s.showing { s.current with children := s.current.children ++ [n] }

def step (s : Session) : Step → Outcome
  | .load text => do
    let config ← ofJsonResult (Config.ofJsonText? text)
    done { s with config }
  | .field name f => done { s with config := s.config.withField name f }
  | .entity name => done { s with config := s.config.withEntity name { name } }
  | .strict on => done { s with config := { s.config with strict := on } }
  | .allowEmpty on => done { s with config := { s.config with allowsEmpty := on } }
  | .operators hook => done { s with config := { s.config with override := some hook.run } }
  | .store hook => done { s with config := { s.config with store := some hook.run } }
  | .define name (some text) => do
    let parsed ← s.read text
    done (s.withStored (s.stored.put name parsed.tree))
  | .define name none => done (s.withStored (s.stored.put name s.current))
  | .undefine name => done (s.withStored (s.stored.erase name))
  | .parse text => do
    let parsed ← s.read text
    .ok ({ s with current := parsed.tree }, .parsed parsed)
  | .validate text => .ok (s, .verdict (s.config.toSchema.validateText text))
  | .check => .ok (s, .verdict (s.config.toSchema.validateRuleSet s.current))
  | .start condition => s.showing { condition }
  | .reference name => s.showing (.reference name)
  | .negate on => s.showing { s.current with negated := on }
  | .rename name => s.showing (s.current.withName name)
  | .group on => s.showing { s.current with parenthesized := on }
  | .wrap condition => s.showing (.ofChildren condition [s.current.toNode])
  | .push text => do
    let parsed ← s.read text
    s.append parsed.tree.toNode
  | .pushRule r => s.append (.rule r)
  | .simplify => s.showing s.current.simplify
  | .reparse => do
    let parsed ← s.read s.current.toQuery
    s.showing parsed.tree
  | .json => do
    let t ← ofJsonResult (RuleSet.ofJsonText? s.current.toJsonText)
    s.showing t
  | .wire => .ok (s, .text s.current.toJsonText)
  | .display => .ok (s, .tree s.current)
  | .inspect => .ok (s, .inspection s.current)

/-- The answers to some steps, in order. -/
def run (s : Session) : List Step → List (Except Failure Answer)
  | [] => []
  | step :: steps =>
    match s.step step with
    | .ok (next, answer) => .ok answer :: next.run steps
    | .error failure => .error failure :: s.run steps

end Session

end BoolQuery
