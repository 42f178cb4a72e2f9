import BoolQuery.Proofs.Text.Letters
import BoolQuery.Query.Reader

/-! The grammar of queries, stated over tokens and apart from the reader: which token lists
spell a clause, and which spell an expression. The levels of expressions are those of the
binding strengths, so a list spells at most one expression (`Expr.Spells.unique`, beside the
reader). -/

namespace BoolQuery

namespace Query

namespace Token

/-- Whether a clause can begin with the token: it is a literal and would not be read as a
reference. -/
def startsClause (t : Token) : Bool := t.isLiteral && !t.isRuleSetName

variable {t : Token} {c d : Char}

theorem kind_of_isSymbol (h : t.isSymbol c = true) : t.kind = .symbol := by
  simp only [isSymbol, Bool.and_eq_true, beq_iff_eq] at h
  exact h.1

theorem isSymbol_unique (h : t.isSymbol c = true) (h' : t.isSymbol d = true) : c = d := by
  simp only [isSymbol, Bool.and_eq_true, beq_iff_eq] at h h'
  exact List.singleton_inj.1 (h.2.symm.trans h'.2)

theorem isSymbol_ne (h : t.isSymbol c = true) (hne : c ≠ d) : t.isSymbol d = false :=
  Bool.eq_false_iff.2 fun h' => hne (isSymbol_unique h h')

theorem isSymbol_of_kind (h : t.kind ≠ .symbol) : t.isSymbol c = false :=
  Bool.eq_false_iff.2 fun h' => h (kind_of_isSymbol h')

theorem isLiteral_of_symbol (h : t.kind = .symbol) : t.isLiteral = false := by
  simp [isLiteral, h]

theorem isOperator_of_symbol (h : t.kind = .symbol) : t.isOperator = false := by
  simp [isOperator, h]

theorem isWord_of_symbol {word : String} (h : t.kind = .symbol) : t.isWord word = false := by
  simp [isWord, h]

theorem kind_of_isLiteral (h : t.isLiteral = true) : t.kind ≠ .symbol := by
  intro hk
  rw [isLiteral_of_symbol hk] at h
  cases h

theorem isSymbol_of_isLiteral (h : t.isLiteral = true) : t.isSymbol c = false :=
  isSymbol_of_kind (kind_of_isLiteral h)

theorem isLiteral_of_isWord {word : String} (h : t.isWord word = true) : t.isLiteral = true := by
  simp only [isWord, Bool.and_eq_true] at h
  simp [isLiteral, h.1]

theorem isLiteral_of_isRuleSetName (h : t.isRuleSetName = true) : t.isLiteral = true := by
  simp only [isRuleSetName, Bool.and_eq_true] at h
  simp [isLiteral, h.1]

theorem startsClause_of_isLiteral (hlit : t.isLiteral = true) (hname : t.isRuleSetName = false) :
    t.startsClause = true := by
  simp [startsClause, hlit, hname]

theorem isLiteral_of_startsClause (h : t.startsClause = true) : t.isLiteral = true :=
  (Bool.and_eq_true_iff.1 h).1

theorem isRuleSetName_of_startsClause (h : t.startsClause = true) : t.isRuleSetName = false := by
  simpa using (Bool.and_eq_true_iff.1 h).2

theorem operatorName_word (word : String) : (⟨.word, word⟩ : Token).operatorName = word.toLower := by
  simp [operatorName]

theorem operatorName_of_letters (h : (t.text.toList.dropWhile (· == '!')).all Char.isAlpha = true) :
    t.operatorName = t.text.toLower := by
  simp only [operatorName, h, Bool.or_true, if_true]

theorem operatorName_of_sign (hk : t.kind = .operator)
    (h : (t.text.toList.dropWhile (· == '!')).all Char.isAlpha = false) :
    t.operatorName = t.text := by
  have hword : (t.kind == .word) = false := by simp [hk]
  simp only [operatorName, hword, h, Bool.or_self, Bool.false_eq_true, if_false]

end Token

namespace Clause

/-- The tokens between the parentheses of a list, and the literals among them. A comma may
follow each literal. -/
inductive Lists : List Token → List Token → Prop
  | nil : Lists [] []
  | cons {t ts vs} : t.isLiteral = true → Lists ts vs → Lists (t :: ts) (t :: vs)
  | comma {t c ts vs} : t.isLiteral = true → c.isSymbol ',' = true → Lists ts vs →
      Lists (t :: c :: ts) (t :: vs)

/-- What an operator is compared with. -/
inductive SpellsOperand (field operator : String) : List Token → Clause → Prop
  | literal {v} : v.isLiteral = true → SpellsOperand field operator [v] (.compare field operator v)
  | list {l r ts vs} : isListOperator operator = true → l.isSymbol '(' = true →
      r.isSymbol ')' = true → Lists ts vs → vs ≠ [] →
      SpellsOperand field operator (l :: (ts ++ [r])) (.among field operator vs)

/-- Whether the literal makes another operator of the one before it: `not in`, `is null`. -/
def completesKeyword (operator : String) (t : Token) : Bool :=
  (operator == "not" && t.isWord "in") || (operator == "is" && t.isWord "null")

/-- What follows a field and the operator `operator`. -/
inductive SpellsComparison (field : String) : String → List Token → Clause → Prop
  | null {n} : n.isWord "null" = true → SpellsComparison field "is" [n] (.nullTest field false)
  | notNull {u n} : u.isWord "not" = true → n.isWord "null" = true →
      SpellsComparison field "is" [u, n] (.nullTest field true)
  | notIn {i ts c} : i.isWord "in" = true → SpellsOperand field "not in" ts c →
      SpellsComparison field "not" (i :: ts) c
  | operand {operator t ts c} : completesKeyword operator t = false →
      SpellsOperand field operator (t :: ts) c → SpellsComparison field operator (t :: ts) c

/-- The tokens that spell a clause. -/
inductive Spells : List Token → Clause → Prop
  | search {t} : t.startsClause = true → Spells [t] (.search t)
  | comparison {f o ts c} : f.startsClause = true → o.isOperator = true →
      SpellsComparison f.text o.operatorName ts c → Spells (f :: o :: ts) c

theorem Spells.exists_cons {us : List Token} {c : Clause} (h : Spells us c) :
    ∃ t ts, us = t :: ts ∧ t.startsClause = true := by
  cases h with
  | search ht => exact ⟨_, _, rfl, ht⟩
  | comparison hf _ _ => exact ⟨_, _, rfl, hf⟩

end Clause

/-- How tightly an expression is held together: an operand stands anywhere, a chain of
operands only among what binds less tightly. -/
inductive Level
  | operand
  | chain (condition : Condition)
  deriving DecidableEq, Repr

/-- The level of what a condition joins. -/
def Level.joined : Condition → Level
  | .and => .operand
  | .or => .chain .and

/-- The conditions that can go on with an expression of a level. -/
def Level.conditions : Level → List Condition
  | .operand => []
  | .chain .and => [.and]
  | .chain .or => [.and, .or]

namespace Expr

/-- How many negations and groups are open at the deepest place of an expression. -/
def depth : Expr → Nat
  | clause _ => 0
  | reference _ => 0
  | not e => e.depth + 1
  | group e => e.depth + 1
  | join _ l r => max l.depth r.depth

/-- The tokens that spell an expression of a level. Both signs join from the left. -/
inductive Spells : Level → List Token → Expr → Prop
  | clause {ts c} : Clause.Spells ts c → Spells .operand ts (.clause c)
  | reference {t} : t.isRuleSetName = true → Spells .operand [t] (.reference t.text)
  | not {t ts e} : t.isSymbol '!' = true → Spells .operand ts e → Spells .operand (t :: ts) (.not e)
  | group {l r ts e} : l.isSymbol '(' = true → r.isSymbol ')' = true →
      Spells (.chain .or) ts e → Spells .operand (l :: (ts ++ [r])) (.group e)
  | single {condition ts e} : Spells (.joined condition) ts e →
      Spells (.chain condition) ts e
  | join {condition t ts us l r} : Spells (.chain condition) ts l →
      t.isSymbol (joinSign condition) = true → Spells (.joined condition) us r →
      Spells (.chain condition) (ts ++ t :: us) (.join condition l r)

theorem Spells.ofOperand {ts : List Token} {e : Expr} (h : Spells .operand ts e)
    (condition : Condition) : Spells (.chain condition) ts e := by
  cases condition with
  | and => exact .single h
  | or => exact .single (Spells.single h : Spells (.chain .and) ts e)

theorem Spells.ne_nil {level : Level} {ts : List Token} {e : Expr} (h : Spells level ts e) :
    ts ≠ [] := by
  induction h with
  | clause h =>
    obtain ⟨t, us, rfl, _⟩ := h.exists_cons
    simp
  | single _ ih => exact ih
  | reference | not | group | join => simp

end Expr

end Query

end BoolQuery
