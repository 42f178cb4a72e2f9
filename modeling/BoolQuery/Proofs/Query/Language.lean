import BoolQuery.Proofs.Query.TreeMeaning

/-! The language of queries. The token lists that are read to their end are those that spell an
expression with no more than `maxDepth` negations and groups open at one place. An expression
that opens more is refused as too deep, and no other one is, however long it may be. -/

namespace BoolQuery.Query

/-- The level of the operands that an expression of a level may consist of. -/
def Level.operands : Level → Level
  | .operand => .operand
  | .chain c => .joined c

namespace Expr

variable {d : Nat} {c : Condition} {level : Level}

theorem Ends.operands {ts : List Token} (h : Ends level ts) : Ends level.operands ts := by
  cases level with
  | operand => exact h
  | chain c => exact h.joined

/-- The reading was given up because too many negations and groups are open. -/
def GivesUp {ts : List Token} (r : Except Failure (Phrase Expr ts)) : Prop :=
  ∃ f, r = .error f ∧ f.fault = .tooDeep

/-- Where fewer negations and groups may be open than the expression opens, reading its tokens
is given up, whatever follows them. -/
def Overflows (level : Level) (ts : List Token) (e : Expr) : Prop :=
  ∀ d, d < e.depth → ∀ rest, Ends level.operands rest → GivesUp (readerAt d level (ts ++ rest))

theorem overflows_not {t : Token} {ts : List Token} {e : Expr} (ht : t.isSymbol '!' = true)
    (ih : Overflows .operand ts e) : Overflows .operand (t :: ts) (.not e) := by
  intro d hd rest hrest
  cases d with
  | zero =>
    refine ⟨⟨.tooDeep, []⟩, ?_, rfl⟩
    simp [readerAt, readOperand, ht]
  | succ d =>
    obtain ⟨f, hf, hdeep⟩ := ih d (Nat.lt_of_succ_lt_succ hd) rest hrest
    refine ⟨f, ?_, hdeep⟩
    have hread : readOperand d (ts ++ rest) = .error f := hf
    simp [readerAt, readOperand, ht, hread, Except.map]

theorem overflows_group {l r : Token} {ts : List Token} {e : Expr} (hl : l.isSymbol '(' = true)
    (hr : r.isSymbol ')' = true) (ih : Overflows (.chain .or) ts e) :
    Overflows .operand (l :: (ts ++ [r])) (.group e) := by
  intro d hd rest _
  have hassoc : l :: (ts ++ [r]) ++ rest = l :: (ts ++ r :: rest) := by simp
  rw [hassoc]
  cases d with
  | zero =>
    refine ⟨⟨.tooDeep, []⟩, ?_, rfl⟩
    simp [readerAt, readOperand, hl]
  | succ d =>
    obtain ⟨f, hf, hdeep⟩ := ih d (Nat.lt_of_succ_lt_succ hd) (r :: rest) (.closing hr _ _)
    refine ⟨f, ?_, hdeep⟩
    have hread : readDisjunction (readOperand d) (ts ++ r :: rest) = .error f := hf
    have hbang : l.isSymbol '!' = false := Token.isSymbol_ne hl (by decide)
    simp [readerAt, readOperand, readGroup, hbang, hl, hread, Except.map]

theorem overflows_single {ts : List Token} {e : Expr} (ih : Overflows (.joined c) ts e) :
    Overflows (.chain c) ts e := by
  intro d hd rest hrest
  obtain ⟨f, hf, hdeep⟩ := ih d hd rest (Ends.operands hrest)
  refine ⟨f, ?_, hdeep⟩
  rw [readerAt_chain, readChain, hf]

/-- The operand behind a sign is read as on its own, so the chain is given up with it. -/
theorem givesUp_readJoined {operand : Reader} {tokens : List Token} (p : Phrase Expr tokens)
    {t : Token} {ts : List Token} (hrest : p.rest = t :: ts)
    (ht : t.isSymbol (joinSign c) = true) (hop : GivesUp (operand ts)) :
    GivesUp (readJoined c operand p) := by
  obtain ⟨f, hf, hdeep⟩ := hop
  exact ⟨f.behind p.value, readJoined_of_error p hrest ht hf, hdeep⟩

theorem overflows_join {t : Token} {ts us : List Token} {l r : Expr}
    (ht : t.isSymbol (joinSign c) = true) (hl : Spells (.chain c) ts l)
    (ihl : Overflows (.chain c) ts l) (ihr : Overflows (.joined c) us r) :
    Overflows (.chain c) (ts ++ t :: us) (.join c l r) := by
  intro d hd rest hrest
  have hassoc : ts ++ t :: us ++ rest = ts ++ t :: (us ++ rest) := by simp
  rw [hassoc]
  have hsign : Ends (.joined c) (t :: (us ++ rest)) := .sign ht _
  by_cases hdl : d < l.depth
  · exact ihl d hdl _ hsign
  -- The left part is read, so it is the right one that opens too much.
  · have hdr : d < r.depth := by
      simp only [depth] at hd
      omega
    obtain ⟨p, _, hprest, hread⟩ := completes_of_spells hl d (Nat.le_of_not_lt hdl) _
      (hsign.endsBefore l)
    rw [hread]
    exact givesUp_readJoined p hprest ht (ihr d hdr rest (Ends.operands hrest))

theorem overflows_of_spells {ts : List Token} {e : Expr} (h : Spells level ts e) :
    Overflows level ts e := by
  induction h with
  | clause | reference => exact fun d hd => absurd hd (Nat.not_lt_zero d)
  | not ht _ ih => exact overflows_not ht ih
  | group hl hr _ ih => exact overflows_group hl hr ih
  | single _ ih => exact overflows_single ih
  | join hl ht _ ihl ihr => exact overflows_join ht hl ihl ihr

/-- Tokens that spell an expression which opens too much are not read. -/
theorem givesUp_read {ts : List Token} {e : Expr} (h : Spells (.chain .or) ts e)
    (hd : maxDepth < e.depth) : GivesUp (Expr.read ts) := by
  have := overflows_of_spells h maxDepth hd [] (.nil _)
  rwa [List.append_nil] at this

end Expr

/-- Tokens are a whole query exactly if they spell an expression that opens no more than `maxDepth`
negations and groups at one place. Tokens that spell an expression are refused as too deep
exactly if it opens more. -/
theorem parseTokens_isComplete_iff (s : Schema) (ts : List Token) :
    ((∃ p, (parseTokens s ts).value = .ok p ∧ p.isComplete = true) ↔
      ∃ e, Expr.Spells (.chain .or) ts e ∧ e.depth ≤ maxDepth) ∧
    ∀ e, Expr.Spells (.chain .or) ts e →
      ((parseTokens s ts).value = .error .tooDeep ↔ maxDepth < e.depth) := by
  refine ⟨?_, ?_⟩
  · constructor
    · rintro ⟨p, h⟩
      obtain ⟨e, hspells, hd, _⟩ := parseTokens_iff.1 h
      exact ⟨e, hspells, hd⟩
    · rintro ⟨e, hspells, hd⟩
      exact ⟨_, parseTokens_iff.2 ⟨e, hspells, hd, rfl⟩⟩
  · intro e hspells
    constructor
    · intro herror
      refine Nat.lt_of_not_le fun hd => ?_
      obtain ⟨h, _⟩ := (parseTokens_iff (s := s)).2 ⟨e, hspells, hd, rfl⟩
      rw [herror] at h
      cases h
    · intro hd
      obtain ⟨f, hf, hdeep⟩ := Expr.givesUp_read hspells hd
      simp [parseTokens, hf, hdeep, Fault.toError]

/-- Keywords as fields and as values, in any letter case: `in Is not NULL & !is NOT In (null,)`. -/
theorem parseTokens_isComplete_iff_keywords :
    let s : Schema := { field? := fun _ => none }
    let ts : List Token := [⟨.word, "in"⟩, ⟨.word, "Is"⟩, ⟨.word, "not"⟩, ⟨.word, "NULL"⟩,
      ⟨.symbol, "&"⟩, ⟨.symbol, "!"⟩, ⟨.word, "is"⟩, ⟨.word, "NOT"⟩, ⟨.word, "In"⟩,
      ⟨.symbol, "("⟩, ⟨.word, "null"⟩, ⟨.symbol, ","⟩, ⟨.symbol, ")"⟩]
    (∃ p, (parseTokens s ts).value = .ok p ∧ p.isComplete = true) ∧
      (parseTokens s ts).value ≠ .error .tooDeep := by
  intro s ts
  have hlower (w : String) : (⟨.word, w⟩ : Token).operatorName =
      String.ofList (w.toList.map Char.toLower) := by
    rw [Token.operatorName_word, Text.toLower_eq]
  have hoperator {w : String}
      (h : keywords.any fun k => w.toList.map Char.toLower == k.toList.map Char.toLower) :
      (⟨.word, w⟩ : Token).isOperator = true := by
    simp only [← Text.equalsIgnoringCase_eq] at h
    simp [Token.isOperator, isKeywordOperator, h]
  have hnull : Clause.Spells (ts.take 4) (.nullTest "in" true) := by
    refine .comparison (by decide +kernel) (hoperator (by decide)) ?_
    rw [hlower]
    exact .notNull (by simp [Token.isWord, Text.equalsIgnoringCase_eq])
      (by simp [Token.isWord, Text.equalsIgnoringCase_eq])
  have hin : Clause.Spells (ts.drop 6) (.among "is" "not in" [⟨.word, "null"⟩]) := by
    refine .comparison (by decide +kernel) (hoperator (by decide)) ?_
    rw [hlower]
    exact .notIn (by simp [Token.isWord, Text.equalsIgnoringCase_eq])
      (.list (by decide +kernel) rfl rfl (.comma rfl rfl .nil) (by simp))
  have hand : Expr.Spells (.chain .and) ts _ :=
    .join ((Expr.Spells.clause hnull).ofOperand .and) rfl (.not rfl (.clause hin))
  obtain ⟨hiff, hdeep⟩ := parseTokens_isComplete_iff s ts
  refine ⟨hiff.2 ⟨_, .single hand, by decide⟩, fun h => ?_⟩
  exact absurd ((hdeep _ (.single hand)).1 h) (by decide)

end BoolQuery.Query
