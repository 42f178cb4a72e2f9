import BoolQuery.Proofs.Lists
import BoolQuery.Proofs.Query.RuleText
import Mathlib.Data.List.Chain

/-! Where the text of a tree nests, and where it goes wrong. A `!` that is written directly
before a name or a rule may make a keyword together with it; then the text has an operator
where an operand is due, and no expression is spelled by such tokens. -/

namespace BoolQuery

namespace Query

/-- Whether a `!` directly before the text becomes a negated keyword. -/
def opensKeyword (cs : List Char) : Bool := (Lexeme.negatedKeyword? ('!' :: cs)).isSome

end Query

namespace Node
open Query

mutual

/-- How many `!` and groups are open at the deepest place of the text of a node. -/
def nesting (outer : Option Condition) : Node → Nat
  | rule _ => 0
  | group h kids =>
    match h.name with
    | some _ => if h.negated then 1 else 0
    | none =>
      if h.negated then
        match soleName? kids with
        | some _ => 1
        | none => nestingOfAll h.condition kids + if negatesBare kids then 1 else 2
      else
        match aloneNesting? outer kids with
        | some d => d
        | none => nestingOfAll h.condition kids + if h.isLooserThan outer then 1 else 0

def aloneNesting? (outer : Option Condition) : List Node → Option Nat
  | [only] => if only.hasName then none else some (only.nesting outer)
  | _ => none

def nestingOfAll (condition : Condition) : List Node → Nat
  | [] => 0
  | n :: ns => max (n.nesting (some condition)) (nestingOfAll condition ns)

end

mutual

/-- Whether some `!` in the text of a node makes a keyword of what it negates. -/
def glues : Node → Bool
  | rule _ => false
  | group h kids =>
    match h.name with
    | some name => h.negated && opensKeyword name.toList
    | none =>
      if h.negated then
        match soleName? kids with
        | some name => opensKeyword name.toList
        | none =>
          if negatesBare kids then
            opensKeyword (h.condition.joiner.toList.intercalate (queryTexts h.condition kids))
          else gluesAny kids
      else gluesAny kids

def gluesAny : List Node → Bool
  | [] => false
  | n :: ns => n.glues || gluesAny ns

end

mutual

/-- Outside named rulesets every rule passes `P` and no ruleset is empty, and every name can
be read as one. -/
def Proper (P : Rule → Prop) : Node → Prop
  | rule r => P r
  | group h kids =>
    match h.name with
    | some name => isRuleSetName name = true
    | none => kids ≠ [] ∧ ProperAll P kids

def ProperAll (P : Rule → Prop) : List Node → Prop
  | [] => True
  | n :: ns => n.Proper P ∧ ProperAll P ns

end

mutual

theorem Proper.mono {P Q : Rule → Prop} (h : ∀ r, P r → Q r) :
    (n : Node) → n.Proper P → n.Proper Q
  | rule r => h r
  | group header kids => by
    intro hn
    unfold Proper at hn ⊢
    split
    · rename_i name hname
      simpa [hname] using hn
    · rename_i hname
      simp only [hname] at hn
      exact ⟨hn.1, ProperAll.mono h kids hn.2⟩

theorem ProperAll.mono {P Q : Rule → Prop} (h : ∀ r, P r → Q r) :
    (ns : List Node) → ProperAll P ns → ProperAll Q ns
  | [] => fun _ => trivial
  | n :: ns => fun hns => ⟨Proper.mono h n hns.1, ProperAll.mono h ns hns.2⟩

end

mutual

/-- What can be negated without parentheses holds no negation. -/
theorem glues_of_isAtomic : (n : Node) → n.isAtomic = true → n.glues = false
  | rule _ => fun _ => rfl
  | group h kids => by
    intro hn
    rw [isAtomic, Bool.and_eq_true, Bool.not_eq_true'] at hn
    obtain ⟨hneg, halone⟩ := hn
    unfold glues
    split
    · simp [hneg]
    · rw [if_neg (by simp [hneg])]
      exact gluesAny_of_isAtomicAlone kids halone

theorem gluesAny_of_isAtomicAlone : (ns : List Node) → isAtomicAlone ns = true →
    gluesAny ns = false
  | [] => fun _ => rfl
  | [only] => fun h => by
    rw [gluesAny, gluesAny, glues_of_isAtomic only h, Bool.or_false]
  | _ :: _ :: _ => fun h => by cases h

end

theorem soleName?_eq_some {kids : List Node} {name : String} (h : soleName? kids = some name) :
    ∃ header below, kids = [group header below] ∧ header.negated = false ∧
      header.name = some name := by
  unfold soleName? at h
  split at h
  · rename_i header below
    split at h
    · cases h
    · rename_i hneg
      exact ⟨header, below, rfl, by simpa using hneg, h⟩
  · cases h

theorem negatesBare_eq {kids : List Node} : negatesBare kids = isAtomicAlone kids := by
  unfold negatesBare
  split
  · rfl
  · rename_i hne
    cases kids with
    | nil => rfl
    | cons n ns =>
      cases ns with
      | nil => exact absurd rfl (hne n)
      | cons _ _ => rfl

theorem isAtomicAlone_iff {kids : List Node} :
    isAtomicAlone kids = true ↔ ∃ only, kids = [only] ∧ only.isAtomic = true := by
  constructor
  · intro h
    match kids, h with
    | [only], h => exact ⟨only, rfl, h⟩
  · rintro ⟨only, rfl, h⟩
    exact h

end Node

namespace Query
open Text

/-- Whether a keyword opens does not depend on what follows the text of a node. -/
theorem negatedKeyword?_append {rest : List Char} (h : Closes rest) (cs : List Char) :
    Lexeme.negatedKeyword? ('!' :: (cs ++ rest)) =
      (Lexeme.negatedKeyword? ('!' :: cs)).map fun x => (x.1, x.2 ++ rest) := by
  have halpha : ∀ c ∈ rest.head?, c.isAlpha = false := by
    intro c hc
    obtain rfl | rfl := h c hc <;> decide
  have hends (ds : List Char) : endsKeyword (ds ++ rest) = endsKeyword ds := by
    cases ds with
    | cons d ds => rfl
    | nil =>
      cases rest with
      | nil => rfl
      | cons c rest => obtain rfl | rfl := h c rfl <;> rfl
  obtain ⟨htake, hdrop⟩ := takeWhile_append_of_head halpha cs
  simp only [Lexeme.negatedKeyword?, htake, hdrop, hends]
  split <;> rfl

/-- Some operator stands at the start or behind a symbol, where an operand is due. -/
def Misread (ts : List Token) : Prop :=
  ∃ us o vs, ts = us ++ o :: vs ∧ o.kind = .operator ∧ ∀ u ∈ us.getLast?, u.kind = .symbol

theorem Misread.head {o : Token} (h : o.kind = .operator) (ts : List Token) :
    Misread (o :: ts) :=
  ⟨[], o, ts, rfl, h, by simp⟩

theorem Misread.append_left {t : Token} {us : List Token} (h : Misread us)
    (ht : t.kind = .symbol) (ts : List Token) : Misread (ts ++ t :: us) := by
  obtain ⟨vs, o, ws, rfl, ho, hlast⟩ := h
  refine ⟨ts ++ t :: vs, o, ws, by simp, ho, ?_⟩
  intro u hu
  cases vs with
  | nil =>
    obtain rfl : t = u := by simpa using hu
    exact ht
  | cons v vs =>
    refine hlast u ?_
    simpa [List.getLast?_append, List.getLast?_cons_cons] using hu

/-- Every operator stands behind a literal. -/
def Steady (ts : List Token) : Prop :=
  ts.IsChain (fun t u => u.kind = .operator → t.isLiteral = true) ∧
    ∀ t ∈ ts.head?, t.kind ≠ .operator

theorem Steady.nil : Steady [] := ⟨.nil, by simp⟩

theorem Steady.singleton {t : Token} (h : t.kind ≠ .operator) : Steady [t] :=
  ⟨.singleton t, by simpa using h⟩

theorem Steady.append {ts us : List Token} (h : Steady ts) (h' : Steady us) :
    Steady (ts ++ us) := by
  refine ⟨List.isChain_append.2 ⟨h.1, h'.1, fun _ _ u hu ho => absurd ho (h'.2 u hu)⟩,
    fun t ht => ?_⟩
  cases ts with
  | nil => exact h'.2 t ht
  | cons _ _ => exact h.2 t ht

theorem Steady.cons {t : Token} {ts : List Token} (ht : t.kind ≠ .operator) (h : Steady ts) :
    Steady (t :: ts) :=
  (Steady.singleton ht).append h

theorem Steady.cons_operator {f o : Token} {ts : List Token} (hf : f.isLiteral = true)
    (h : Steady ts) : Steady (f :: o :: ts) := by
  have hfk : f.kind ≠ .operator := by
    intro hk
    simp [Token.isLiteral, hk] at hf
  have hpair : List.IsChain (fun t u => u.kind = .operator → t.isLiteral = true) [f, o] :=
    List.isChain_pair.2 fun _ => hf
  refine ⟨?_, by simpa using hfk⟩
  exact List.isChain_append.2 ⟨hpair, h.1, fun _ _ u hu ho => absurd ho (h.2 u hu)⟩

theorem not_steady_of_misread {ts : List Token} (h : Misread ts) : ¬ Steady ts := by
  rintro ⟨hchain, hhead⟩
  obtain ⟨us, o, vs, rfl, ho, hlast⟩ := h
  obtain ⟨_, _, hnext⟩ := List.isChain_append.1 hchain
  cases hus : us.getLast? with
  | none =>
    obtain rfl := List.getLast?_eq_none_iff.1 hus
    exact hhead o rfl ho
  | some u =>
    have hlit := hnext u hus o rfl ho
    rw [Token.isLiteral_of_symbol (hlast u hus)] at hlit
    cases hlit

theorem kind_ne_operator_of_isLiteral {t : Token} (h : t.isLiteral = true) :
    t.kind ≠ .operator := by
  intro hk
  simp [Token.isLiteral, hk] at h

theorem kind_ne_operator_of_isSymbol {t : Token} {c : Char} (h : t.isSymbol c = true) :
    t.kind ≠ .operator := by
  rw [Token.kind_of_isSymbol h]
  decide

/-- A text that begins with an equals sign begins with an operator. -/
theorem head?_ne_of_tokenize {cs : List Char}
    (h : ∀ t ∈ (tokenize cs).head?, t.kind ≠ .operator) : cs.head? ≠ some '=' := by
  intro hhead
  obtain ⟨cs, rfl⟩ := List.head?_eq_some_iff.1 hhead
  have hcmp : ∃ x, Lexeme.comparison? ('=' :: cs) = some x ∧ x.1.kind = .operator := by
    simp only [Lexeme.comparison?]
    split
    · exact ⟨_, rfl, rfl⟩
    · exact ⟨_, rfl, rfl⟩
  obtain ⟨x, hx, hk⟩ := hcmp
  have hread : Lexeme.read? ('=' :: cs) = some x := by simp [Lexeme.read?, hx]
  rw [tokenize_of_read? (by decide) hread] at h
  exact h x.1 rfl hk

namespace Clause

theorem Lists.steady {ts vs : List Token} (h : Lists ts vs) : Steady ts := by
  induction h with
  | nil => exact .nil
  | cons ht _ ih => exact .cons (kind_ne_operator_of_isLiteral ht) ih
  | comma ht hc _ ih =>
    exact .cons (kind_ne_operator_of_isLiteral ht) (.cons (kind_ne_operator_of_isSymbol hc) ih)

theorem SpellsOperand.steady {field operator : String} {ts : List Token} {c : Clause}
    (h : SpellsOperand field operator ts c) : Steady ts := by
  cases h with
  | literal hv => exact .singleton (kind_ne_operator_of_isLiteral hv)
  | list _ hl hr hlist _ =>
    exact .cons (kind_ne_operator_of_isSymbol hl)
      (hlist.steady.append (.singleton (kind_ne_operator_of_isSymbol hr)))

theorem SpellsComparison.steady {field operator : String} {ts : List Token} {c : Clause}
    (h : SpellsComparison field operator ts c) : Steady ts := by
  have hword {t : Token} {w : String} (h : t.isWord w = true) : t.kind ≠ .operator :=
    kind_ne_operator_of_isLiteral (Token.isLiteral_of_isWord h)
  cases h with
  | null hn => exact .singleton (hword hn)
  | notNull hu hn => exact .cons (hword hu) (.singleton (hword hn))
  | notIn hi hop => exact .cons (hword hi) hop.steady
  | operand _ hop => exact hop.steady

theorem Spells.steady {ts : List Token} {c : Clause} (h : Spells ts c) : Steady ts := by
  cases h with
  | search ht =>
    exact .singleton (kind_ne_operator_of_isLiteral (Token.isLiteral_of_startsClause ht))
  | comparison hf _ hc => exact .cons_operator (Token.isLiteral_of_startsClause hf) hc.steady

end Clause

namespace Expr

variable {level : Level} {ts : List Token} {e : Expr}

theorem Spells.steady (h : Spells level ts e) : Steady ts := by
  induction h with
  | clause h => exact h.steady
  | reference ht =>
    exact .singleton (kind_ne_operator_of_isLiteral (Token.isLiteral_of_isRuleSetName ht))
  | not ht _ ih => exact .cons (kind_ne_operator_of_isSymbol ht) ih
  | group hl hr _ ih =>
    exact .cons (kind_ne_operator_of_isSymbol hl)
      (ih.append (.singleton (kind_ne_operator_of_isSymbol hr)))
  | single _ ih => exact ih
  | join _ ht _ ihl ihr => exact ihl.append (.cons (kind_ne_operator_of_isSymbol ht) ihr)

theorem not_spells_of_misread (h : Misread ts) : ¬ Spells level ts e := fun hs =>
  not_steady_of_misread h hs.steady

/-- A text that spells an expression does not begin with an equals sign. -/
theorem head?_ne_of_lexes {cs : List Char} (hlex : Lexes cs ts) (h : Spells level ts e)
    (rest : List Char) : (cs ++ rest).head? ≠ some '=' := by
  have hhead := head?_ne_of_tokenize (hlex.tokenize ▸ h.steady.2)
  cases cs with
  | nil => exact absurd (hlex.tokenize.symm.trans tokenize_nil) h.ne_nil
  | cons c cs => simpa using hhead

end Expr

end Query

end BoolQuery
