import BoolQuery.Proofs.Query.ClauseReader

/-! The reader of expressions and the grammar agree: a token list is read to its end exactly
if it spells an expression that opens no more than `maxDepth` negations and groups at one
place, and then it is read as that expression. -/

namespace BoolQuery.Query.Expr

/-- The phrase took tokens that spell its expression, at most `d` deep. -/
def Reads (d : Nat) (level : Level) {tokens : List Token} (p : Phrase Expr tokens) : Prop :=
  ∃ us, tokens = us ++ p.rest ∧ Spells level us p.value ∧ p.value.depth ≤ d

/-- Whatever the reader reads is an expression of the level. -/
def Sound (d : Nat) (level : Level) (read : Reader) : Prop :=
  ∀ ts p, read ts = .ok p → Reads d level p

variable {d : Nat} {condition : Condition} {operand : Reader}

/-- An operand behind a sign makes a longer chain of the phrase before it. -/
theorem Reads.join {tokens : List Token} {p q : Phrase Expr tokens} {t : Token} {ts : List Token}
    {r : Phrase Expr ts} (hp : Reads d (.chain condition) p) (hrest : p.rest = t :: ts)
    (ht : t.isSymbol (joinSign condition) = true) (hr : Reads d (.joined condition) r)
    (hq : q.value = .join condition p.value r.value) (hqrest : q.rest = r.rest) :
    Reads d (.chain condition) q := by
  obtain ⟨us, hts, hus, hd⟩ := hp
  obtain ⟨vs, hvs, hvs', hd'⟩ := hr
  refine ⟨us ++ t :: vs, ?_, hq ▸ .join hus ht hvs', hq ▸ Nat.max_le.2 ⟨hd, hd'⟩⟩
  calc
    tokens = us ++ t :: ts := hrest ▸ hts
    _ = us ++ t :: (vs ++ r.rest) := congrArg (us ++ t :: ·) hvs
    _ = us ++ t :: vs ++ q.rest := by simp [hqrest]

theorem reads_of_readJoined (hop : Sound d (.joined condition) operand) {tokens : List Token}
    {p q : Phrase Expr tokens} (hp : Reads d (.chain condition) p)
    (h : readJoined condition operand p = .ok q) : Reads d (.chain condition) q := by
  fun_induction readJoined condition operand p with
  | case1 p _ => cases h; exact hp
  | case2 => cases h
  | case3 p t ts hrest ht r hr ih => exact ih (hp.join hrest ht (hop ts r hr) rfl rfl) h
  | case4 p _ _ _ _ => cases h; exact hp

theorem Sound.readChain (hop : Sound d (.joined condition) operand) :
    Sound d (.chain condition) (readChain condition operand) := by
  intro ts q h
  simp only [Expr.readChain] at h
  split at h
  · cases h
  · rename_i p hp
    refine reads_of_readJoined hop ?_ h
    obtain ⟨us, hts, hus, hd⟩ := hop ts p hp
    exact ⟨us, hts, .single hus, hd⟩

theorem Sound.readDisjunction (hop : Sound d .operand operand) :
    Sound d (.chain .or) (readDisjunction operand) :=
  Sound.readChain (Sound.readChain hop)

theorem reads_of_readGroup (hop : Sound d .operand operand) {t : Token} {ts : List Token}
    {p : Phrase Expr ts} (ht : t.isSymbol '(' = true) (h : readGroup operand ts = .ok p) :
    Reads (d + 1) .operand (p.afterToken t) := by
  simp only [readGroup] at h
  split at h
  · cases h
  · rename_i q hq
    obtain ⟨us, hts, hus, hd⟩ := hop.readDisjunction ts q hq
    split at h
    · cases h
    · rename_i r rest hrest
      split at h
      · rename_i hr
        cases h
        refine ⟨t :: (us ++ [r]), ?_, .group ht hr hus, Nat.succ_le_succ hd⟩
        simp [hts, hrest, Phrase.afterToken]
      · cases h

theorem reads_of_readLeaf {t : Token} {ts : List Token} {p : Phrase Expr (t :: ts)}
    (h : readLeaf t ts = .ok p) : Reads d .operand p := by
  simp only [readLeaf] at h
  split at h
  · rename_i ht
    cases h
    exact ⟨[t], rfl, .reference ht, Nat.zero_le _⟩
  · rename_i hname
    split at h
    · cases h
    · rename_i hlit
      have hstart : t.startsClause = true :=
        Token.startsClause_of_isLiteral (by simpa using hlit) (by simpa using hname)
      split at h
      · cases h
      · rename_i q hq
        cases h
        obtain ⟨us, hts, hus⟩ := Clause.spells_of_read hq hstart
        exact ⟨us, hts, .clause hus, Nat.zero_le _⟩

theorem sound_readOperand (d : Nat) : Sound d .operand (readOperand d) := by
  induction d with
  | zero =>
    intro ts p h
    cases ts with
    | nil => cases h
    | cons t ts =>
      simp only [readOperand] at h
      split at h
      · cases h
      · exact reads_of_readLeaf h
  | succ d ih =>
    intro ts p h
    cases ts with
    | nil => cases h
    | cons t ts =>
      simp only [readOperand] at h
      split at h
      · rename_i ht
        obtain ⟨q, hq, rfl⟩ := exists_of_map_eq_ok h
        obtain ⟨us, hts, hus, hd⟩ := ih ts q hq
        refine ⟨t :: us, ?_, .not ht hus, Nat.succ_le_succ hd⟩
        simp [hts, Phrase.afterToken, Phrase.map]
      split at h
      · rename_i ht
        obtain ⟨q, hq, rfl⟩ := exists_of_map_eq_ok h
        exact reads_of_readGroup ih ht hq
      · exact reads_of_readLeaf h

/-- The reader of the expressions of a level in which `d` negations and groups may be open. -/
def readerAt (d : Nat) : Level → Reader
  | .operand => readOperand d
  | .chain .and => readChain .and (readOperand d)
  | .chain .or => readDisjunction (readOperand d)

theorem readerAt_chain (d : Nat) (condition : Condition) :
    readerAt d (.chain condition) = readChain condition (readerAt d (.joined condition)) := by
  cases condition <;> rfl

/-- No expression of the level goes on with these tokens. -/
def Ends (level : Level) (ts : List Token) : Prop :=
  Stops ts ∧ ∀ t ∈ ts.head?, ∀ c ∈ level.conditions, t.isSymbol (joinSign c) = false

theorem Ends.nil (level : Level) : Ends level [] :=
  ⟨.nil, by simp⟩

theorem Ends.closing {t : Token} (h : t.isSymbol ')' = true) (level : Level) (ts : List Token) :
    Ends level (t :: ts) := by
  refine ⟨.cons (Token.kind_of_isSymbol h) ts, ?_⟩
  intro u hu c _
  obtain rfl : t = u := by simpa using hu
  cases c <;> exact Token.isSymbol_ne h (by decide)

/-- A sign ends the operands that it joins. -/
theorem Ends.sign {t : Token} {c : Condition} (h : t.isSymbol (joinSign c) = true)
    (ts : List Token) : Ends (.joined c) (t :: ts) := by
  refine ⟨.cons (Token.kind_of_isSymbol h) ts, ?_⟩
  intro u hu c' hc'
  obtain rfl : t = u := by simpa using hu
  cases c with
  | and => cases hc'
  | or =>
    obtain rfl : c' = .and := by simpa [Level.joined, Level.conditions] using hc'
    exact Token.isSymbol_ne h (by decide)

/-- What can go on with the operands of a chain can go on with the chain. -/
theorem mem_conditions_chain {c c' : Condition} (h : c' ∈ (Level.joined c).conditions) :
    c' ∈ (Level.chain c).conditions := by
  cases c with
  | and => cases h
  | or => exact List.mem_append_left [Condition.or] h

theorem Ends.joined {c : Condition} {ts : List Token} (h : Ends (.chain c) ts) :
    Ends (.joined c) ts :=
  ⟨h.1, fun t ht c' hc' => h.2 t ht c' (mem_conditions_chain hc')⟩

/-- Whether an expression that could end here goes on with the token, which is then part of its
last clause. -/
def continues (t : Token) : Expr → Bool
  | clause c => c.continues t
  | reference _ => false
  | not e => e.continues t
  | group _ => false
  | join _ _ r => r.continues t

/-- The expression, as one of the level, does not go on with these tokens. -/
def EndsBefore (level : Level) (ts : List Token) (e : Expr) : Prop :=
  ∀ t ∈ ts.head?, e.continues t = false ∧ ∀ c ∈ level.conditions, t.isSymbol (joinSign c) = false

theorem continues_of_symbol {t : Token} (h : t.kind = .symbol) (e : Expr) :
    e.continues t = false := by
  induction e with
  | clause c => exact c.continues_of_symbol h
  | reference | group => rfl
  | not _ ih => exact ih
  | join _ _ _ _ ihr => exact ihr

theorem Ends.endsBefore {level : Level} {ts : List Token} (h : Ends level ts) (e : Expr) :
    e.EndsBefore level ts :=
  fun t ht => ⟨e.continues_of_symbol (h.1 t ht), h.2 t ht⟩

theorem EndsBefore.joined {c : Condition} {ts : List Token} {e : Expr}
    (h : e.EndsBefore (.chain c) ts) : e.EndsBefore (.joined c) ts :=
  fun t ht => ⟨(h t ht).1, fun c' hc' => (h t ht).2 c' (mem_conditions_chain hc')⟩

/-- A chain stops growing before tokens that do not begin with its sign. -/
theorem readJoined_of_ends {tokens : List Token} (p : Phrase Expr tokens)
    (h : ∀ t ∈ p.rest.head?, t.isSymbol (joinSign condition) = false) :
    readJoined condition operand p = .ok p := by
  unfold readJoined
  split
  · rfl
  · rename_i t ts hrest
    have ht : t.isSymbol (joinSign condition) = false := h t (by simp [hrest])
    simp [ht]

/-- A chain grows by the operand behind a sign. -/
theorem readJoined_of_operand {tokens : List Token} (p : Phrase Expr tokens) {t : Token}
    {us rest : List Token} {e : Expr} (hrest : p.rest = t :: (us ++ rest))
    (ht : t.isSymbol (joinSign condition) = true) (hop : Gives (operand (us ++ rest)) e rest) :
    ∃ q : Phrase Expr tokens, q.value = .join condition p.value e ∧ q.rest = rest ∧
      readJoined condition operand p = readJoined condition operand q := by
  obtain ⟨r, hr, rfl, hr'⟩ := hop
  refine ⟨⟨.join condition p.value r.value, r.rest, r.suffix.trans (p.suffix_of_rest hrest),
    Nat.lt_trans r.shorter (p.shorter_of_rest hrest)⟩, rfl, hr', ?_⟩
  rw [readJoined]
  split
  · rename_i hnil
    rw [hrest] at hnil
    cases hnil
  · rename_i t' ts hcons
    obtain ⟨rfl, rfl⟩ := List.cons.inj (hrest.symm.trans hcons)
    simp [ht, hr]

/-- A chain fails with the operand behind a sign. -/
theorem readJoined_of_error {tokens : List Token} (p : Phrase Expr tokens) {t : Token}
    {ts : List Token} {f : Failure} (hrest : p.rest = t :: ts)
    (ht : t.isSymbol (joinSign condition) = true) (hop : operand ts = .error f) :
    readJoined condition operand p = .error (f.behind p.value) := by
  rw [readJoined]
  split
  · rename_i hnil
    rw [hrest] at hnil
    cases hnil
  · rename_i t' ts' hcons
    obtain ⟨rfl, rfl⟩ := List.cons.inj (hrest.symm.trans hcons)
    simp [ht, hop]

/-- Reading tokens that spell a chain comes down to growing the phrase that holds all of it. -/
def GrowsFrom (d : Nat) (c : Condition) (ts rest : List Token) (e : Expr) : Prop :=
  ∃ p : Phrase Expr (ts ++ rest), p.value = e ∧ p.rest = rest ∧
    readerAt d (.chain c) (ts ++ rest) = readJoined c (readerAt d (.joined c)) p

theorem GrowsFrom.gives {c : Condition} {ts rest : List Token} {e : Expr}
    (h : GrowsFrom d c ts rest e) (hrest : e.EndsBefore (.chain c) rest) :
    Gives (readerAt d (.chain c) (ts ++ rest)) e rest := by
  obtain ⟨p, hp, hprest, hread⟩ := h
  refine ⟨p, ?_, hp, hprest⟩
  rw [hread]
  refine readJoined_of_ends p fun t ht => (hrest t (hprest ▸ ht)).2 c ?_
  cases c <;> simp [Level.conditions]

/-- What the reader makes of tokens that spell an expression, wherever its operands end. A chain
is only known to be grown from there, since more of it may follow. -/
def Completes (level : Level) (ts : List Token) (e : Expr) : Prop :=
  ∀ d, e.depth ≤ d → ∀ rest,
    match level with
    | .operand => e.EndsBefore .operand rest → Gives (readOperand d (ts ++ rest)) e rest
    | .chain c => e.EndsBefore (.joined c) rest → GrowsFrom d c ts rest e

theorem Completes.gives {level : Level} {ts rest : List Token} {e : Expr}
    (h : Completes level ts e) (hd : e.depth ≤ d) (hrest : e.EndsBefore level rest) :
    Gives (readerAt d level (ts ++ rest)) e rest := by
  cases level with
  | operand => exact h d hd rest hrest
  | chain c => exact (h d hd rest hrest.joined).gives hrest

theorem readOperand_of_isLiteral {t : Token} (ts : List Token) (ht : t.isLiteral = true) :
    readOperand d (t :: ts) = readLeaf t ts := by
  cases d <;> simp [readOperand, Token.isSymbol_of_isLiteral ht]

theorem completes_clause {ts : List Token} {c : Clause} (h : Clause.Spells ts c) :
    Completes .operand ts (.clause c) := by
  intro d _ rest hrest
  obtain ⟨t, us, rfl, ht⟩ := h.exists_cons
  obtain ⟨p, hp, hv, hr⟩ := Clause.read_of_spells h fun u hu => (hrest u hu).1
  have hlit := Token.isLiteral_of_startsClause ht
  refine ⟨p.map .clause, ?_, congrArg _ hv, hr⟩
  refine (readOperand_of_isLiteral _ hlit).trans ?_
  simp [readLeaf, Token.isRuleSetName_of_startsClause ht, hlit, hp]

theorem completes_reference {t : Token} (h : t.isRuleSetName = true) :
    Completes .operand [t] (.reference t.text) := by
  intro d _ rest _
  refine ⟨.ofHead (.reference t.text) t rest, ?_, rfl, rfl⟩
  refine (readOperand_of_isLiteral _ (Token.isLiteral_of_isRuleSetName h)).trans ?_
  simp [readLeaf, h]

theorem completes_not {t : Token} {ts : List Token} {e : Expr} (ht : t.isSymbol '!' = true)
    (ih : Completes .operand ts e) : Completes .operand (t :: ts) (.not e) := by
  intro d hd rest hrest
  cases d with
  | zero => cases hd
  | succ d =>
    obtain ⟨p, hp, hv, hr⟩ := ih d (Nat.le_of_succ_le_succ hd) rest hrest
    refine ⟨(p.map .not).afterToken t, ?_, congrArg _ hv, hr⟩
    simp [readOperand, ht, hp, Except.map]

theorem completes_group {l r : Token} {ts : List Token} {e : Expr} (hl : l.isSymbol '(' = true)
    (hr : r.isSymbol ')' = true) (ih : Completes (.chain .or) ts e) :
    Completes .operand (l :: (ts ++ [r])) (.group e) := by
  intro d hd rest _
  cases d with
  | zero => cases hd
  | succ d =>
    have hends : Ends (.chain .or) (r :: rest) := .closing hr _ _
    obtain ⟨p, hp, hv, hprest⟩ := ih.gives (Nat.le_of_succ_le_succ hd) (hends.endsBefore e)
    have hread : readDisjunction (readOperand d) (ts ++ r :: rest) = .ok p := hp
    have hgroup : readGroup (readOperand d) (ts ++ r :: rest) =
        .ok ⟨.group p.value, rest, p.suffix_of_rest hprest, p.shorter_of_rest hprest⟩ := by
      simp only [readGroup, hread]
      split
      · rename_i hnil
        rw [hprest] at hnil
        cases hnil
      · rename_i u us hcons
        obtain ⟨rfl, rfl⟩ := List.cons.inj (hprest.symm.trans hcons)
        simp [hr]
    have hassoc : l :: (ts ++ [r]) ++ rest = l :: (ts ++ r :: rest) := by simp
    rw [hassoc]
    refine ⟨Phrase.afterToken l ⟨.group p.value, rest, p.suffix_of_rest hprest,
      p.shorter_of_rest hprest⟩, ?_, congrArg Expr.group hv, rfl⟩
    simp [readOperand, Token.isSymbol_ne hl (by decide : '(' ≠ '!'), hl, hgroup, Except.map]

theorem completes_single {c : Condition} {ts : List Token} {e : Expr}
    (ih : Completes (.joined c) ts e) : Completes (.chain c) ts e := by
  intro d hd rest hrest
  obtain ⟨p, hp, hv, hr⟩ := ih.gives hd hrest
  refine ⟨p, hv, hr, ?_⟩
  rw [readerAt_chain, readChain, hp]

theorem completes_join {c : Condition} {t : Token} {ts us : List Token} {l r : Expr}
    (ht : t.isSymbol (joinSign c) = true) (ihl : Completes (.chain c) ts l)
    (ihr : Completes (.joined c) us r) :
    Completes (.chain c) (ts ++ t :: us) (.join c l r) := by
  intro d hd rest hrest
  obtain ⟨hdl, hdr⟩ := Nat.max_le.1 hd
  have hassoc : ts ++ t :: us ++ rest = ts ++ t :: (us ++ rest) := by simp
  unfold GrowsFrom
  rw [hassoc]
  have hsign : Ends (.joined c) (t :: (us ++ rest)) := .sign ht _
  obtain ⟨p, rfl, hprest, hread⟩ := ihl d hdl _ (hsign.endsBefore l)
  obtain ⟨q, hq, hqrest, hgrow⟩ := readJoined_of_operand p hprest ht (ihr.gives hdr hrest)
  exact ⟨q, hq, hqrest, hread.trans hgrow⟩

/-- The tokens of an expression are read as the expression, wherever it ends before what follows. -/
theorem completes_of_spells {level : Level} {ts : List Token} {e : Expr}
    (h : Spells level ts e) : Completes level ts e := by
  induction h with
  | clause h => exact completes_clause h
  | reference h => exact completes_reference h
  | not ht _ ih => exact completes_not ht ih
  | group hl hr _ ih => exact completes_group hl hr ih
  | single _ ih => exact completes_single ih
  | join _ ht _ ihl ihr => exact completes_join ht ihl ihr

/-- Tokens that spell an expression are read to their end. -/
theorem readerAt_of_spells {level : Level} {ts : List Token} {e : Expr} (h : Spells level ts e)
    (hd : e.depth ≤ d) : Gives (readerAt d level ts) e [] := by
  have hnil : Ends level [] := .nil level
  have := (completes_of_spells h).gives hd (hnil.endsBefore e)
  rwa [List.append_nil] at this

/-- Tokens spell at most one expression of a level. -/
theorem Spells.unique {level : Level} {ts : List Token} {e e' : Expr} (h : Spells level ts e)
    (h' : Spells level ts e') : e = e' := by
  obtain ⟨p, hp, hpv, _⟩ := readerAt_of_spells h (Nat.le_max_left _ e'.depth)
  obtain ⟨q, hq, hqv, _⟩ := readerAt_of_spells h' (Nat.le_max_right e.depth _)
  obtain rfl : p = q := Except.ok.inj (hp.symm.trans hq)
  exact hpv.symm.trans hqv

/-- What is read is spelled by the tokens that were taken. -/
theorem spells_of_read {ts : List Token} {p : Phrase Expr ts} (h : Expr.read ts = .ok p) :
    Spells (.chain .or) (ts.take (ts.length - p.rest.length)) p.value ∧
      p.value.depth ≤ maxDepth := by
  obtain ⟨us, hts, hus, hd⟩ := (sound_readOperand maxDepth).readDisjunction ts p h
  have htaken : ts.length - p.rest.length = us.length := by
    have hlength := congrArg List.length hts
    rw [List.length_append] at hlength
    omega
  have htake : ts.take us.length = us := by
    rw [hts, List.take_left]
  rw [htaken, htake]
  exact ⟨hus, hd⟩

/-- The reader comes to the end of tokens with an expression exactly if they spell it and it
is no deeper than the reader goes. -/
theorem read_iff {ts : List Token} {e : Expr} :
    Gives (Expr.read ts) e [] ↔ Spells (.chain .or) ts e ∧ e.depth ≤ maxDepth := by
  constructor
  · rintro ⟨p, hp, rfl, hrest⟩
    have hread := spells_of_read hp
    rwa [hrest, List.length_nil, Nat.sub_zero, List.take_length] at hread
  · rintro ⟨h, hd⟩
    exact readerAt_of_spells h hd

end BoolQuery.Query.Expr
