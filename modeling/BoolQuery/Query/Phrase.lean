import BoolQuery.Query.ParseError
import BoolQuery.Query.Token

/-! What reading a part of a query comes to: a phrase together with the tokens behind it,
or a fault. A phrase takes at least one token and leaves the others as they are, so the
place of a token is known from how many follow it, and reading phrase after phrase ends. -/

namespace BoolQuery.Query

/-- Why no phrase could be read. -/
inductive Fault
  | endOfText
  | unclosedParenthesis
  | emptyList
  | unexpected (token : Token) (behind : List Token)
  | tooDeep
  deriving DecidableEq, Repr

namespace Fault

/-- The fault as an error in a query of `total` tokens. -/
def toError (total : Nat) : Fault → ParseError
  | endOfText => .endOfText
  | unclosedParenthesis => .unclosedParenthesis
  | emptyList => .emptyList
  | unexpected token behind => .unexpected token.text (total - behind.length - 1)
  | tooDeep => .tooDeep

end Fault

/-- Something read from the start of `tokens`, and the tokens behind it. -/
structure Phrase (α : Type) (tokens : List Token) where
  value : α
  rest : List Token
  suffix : rest <:+ tokens
  shorter : rest.length < tokens.length

namespace Phrase

variable {α β : Type} {tokens : List Token}

/-- A phrase that consists of the first token. -/
def ofHead (value : α) (t : Token) (ts : List Token) : Phrase α (t :: ts) :=
  ⟨value, ts, List.suffix_cons t ts, Nat.lt_succ_self _⟩

def map (f : α → β) (p : Phrase α tokens) : Phrase β tokens :=
  ⟨f p.value, p.rest, p.suffix, p.shorter⟩

/-- The phrase with the token before it. -/
def afterToken (t : Token) (p : Phrase α tokens) : Phrase α (t :: tokens) :=
  ⟨p.value, p.rest, p.suffix.trans (List.suffix_cons t tokens),
    Nat.lt_trans p.shorter (Nat.lt_succ_self _)⟩

theorem suffix_of_rest (p : Phrase α tokens) {t : Token} {ts : List Token}
    (h : p.rest = t :: ts) : ts <:+ tokens :=
  (h ▸ List.suffix_cons t ts).trans p.suffix

theorem shorter_of_rest (p : Phrase α tokens) {t : Token} {ts : List Token}
    (h : p.rest = t :: ts) : ts.length < tokens.length := by
  have := p.shorter
  rw [h, List.length_cons] at this
  omega

end Phrase

end BoolQuery.Query
