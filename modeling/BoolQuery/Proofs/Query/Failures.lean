import BoolQuery.Proofs.Query.ClauseFailures
import BoolQuery.Proofs.Query.Remainder

/-! How the reading of a query fails, as a grammar of failures. The reader fails behind the tokens
`us` exactly if they fail in it. What follows the next token makes no difference, and some other
tokens behind `us` would have made a query. So a failure is found at the first token that no query
goes on with. -/

namespace BoolQuery.Query

/-- The place of a token that is reported is counted in the tokens before it. -/
theorem Fault.toError_unexpected (us : List Token) (t : Token) (behind : List Token) :
    (unexpected t behind).toError (us ++ t :: behind).length = .unexpected t.text us.length := by
  have hindex : (us ++ t :: behind).length - behind.length - 1 = us.length := by
    rw [List.length_append, List.length_cons]
    omega
  rw [toError, hindex]

/-- The failure, as it is where `rest` begins with the token at fault. -/
def Failure.before (rest : List Token) (f : Failure) : Failure :=
  { f with fault := f.fault.before rest }

namespace Expr

/-- Reading an expression of a level fails behind `us`, where `rest` follows and `d` negations and
groups may be open. -/
inductive Fails : Nat → Level → List Token → List Token → Failure → Prop
  | endOfText {d} : Fails d .operand [] [] ⟨.endOfText, []⟩
  | unexpected {d t ts} : t.isLiteral = false → t.isOpening = false →
      Fails d .operand [] (t :: ts) ⟨.unexpected t ts, []⟩
  | tooDeep {t ts} : t.isOpening = true → Fails 0 .operand [] (t :: ts) ⟨.tooDeep, []⟩
  | clause {d us rest fault} : Clause.Fails us rest fault → Fails d .operand us rest ⟨fault, []⟩
  | not {d t us rest f} : t.isSymbol '!' = true → Fails d .operand us rest f →
      Fails (d + 1) .operand (t :: us) rest f
  | group {d t us rest f} : t.isSymbol '(' = true → Fails d (.chain .or) us rest f →
      Fails (d + 1) .operand (t :: us) rest f
  | unclosed {d t us rest e} : t.isSymbol '(' = true → Spells (.chain .or) us e → e.depth ≤ d →
      e.EndsBefore (.chain .or) rest → (∀ u ∈ rest.head?, u.isSymbol ')' = false) →
      Fails (d + 1) .operand (t :: us) rest ⟨.unclosedParenthesis, e.names⟩
  | first {d c us rest f} : Fails d (.joined c) us rest f → Fails d (.chain c) us rest f
  | behind {d c ts t us rest e f} : Spells (.chain c) ts e → e.depth ≤ d →
      t.isSymbol (joinSign c) = true → Fails d (.joined c) us rest f →
      Fails d (.chain c) (ts ++ t :: us) rest (f.behind e)

variable {d : Nat} {c : Condition} {level : Level} {us rest rest' : List Token} {f : Failure}

/-- What follows the next token makes no difference. -/
theorem Fails.relocate (h : Fails d level us rest f) (hhead : rest'.head? = rest.head?) :
    Fails d level us rest' (f.before rest') := by
  induction h with
  | endOfText =>
    obtain rfl := List.head?_eq_none_iff.1 hhead
    exact .endOfText
  | unexpected hlit hopen =>
    obtain ⟨_, rfl⟩ := List.head?_eq_some_iff.1 hhead
    exact .unexpected hlit hopen
  | tooDeep hopen =>
    obtain ⟨_, rfl⟩ := List.head?_eq_some_iff.1 hhead
    exact .tooDeep hopen
  | clause h => exact .clause (h.relocate hhead)
  | not ht _ ih => exact .not ht (ih hhead)
  | group ht _ ih => exact .group ht (ih hhead)
  | @unclosed _ _ _ rest _ ht hus hd hends hclosed =>
    refine .unclosed ht hus hd ?_ (hhead ▸ hclosed)
    unfold EndsBefore at hends ⊢
    rwa [hhead]
  | first _ ih => exact .first (ih hhead)
  | behind hts hd ht _ ih => exact .behind hts hd ht (ih hhead)

section Reader

variable {t : Token} {ts : List Token}

theorem isOpening_eq_false (h : t.isOpening = false) :
    t.isSymbol '!' = false ∧ t.isSymbol '(' = false := by
  simpa [Token.isOpening] using h

theorem readGroup_of_unclosed {operand : Reader} {e : Expr}
    (h : Gives (readDisjunction operand ts) e rest)
    (hclosed : ∀ u ∈ rest.head?, u.isSymbol ')' = false) :
    readGroup operand ts = .error ⟨.unclosedParenthesis, e.names⟩ := by
  obtain ⟨p, hp, rfl, rfl⟩ := h
  simp only [readGroup, hp]
  split
  · rfl
  · rename_i u rest hrest
    have hu : u.isSymbol ')' = false := hclosed u (by simp [hrest])
    simp [hu]

/-- The reader fails where the grammar says so. -/
theorem Fails.readerAt_eq (h : Fails d level us rest f) :
    readerAt d level (us ++ rest) = .error f := by
  induction h with
  | @endOfText d => cases d <;> rfl
  | @unexpected d t ts hlit hopen =>
    obtain ⟨hbang, hparen⟩ := isOpening_eq_false hopen
    have hname : t.isRuleSetName = false := by
      rw [← Bool.not_eq_true]
      intro hname
      rw [Token.isLiteral_of_isRuleSetName hname] at hlit
      cases hlit
    cases d <;> simp [readerAt, readOperand, hbang, hparen, readLeaf, hname, hlit]
  | tooDeep hopen =>
    have hsign : (_ || _) = true := hopen
    simp [readerAt, readOperand, hsign]
  | @clause d us rest fault h =>
    obtain ⟨t, us, rfl, ht⟩ := h.exists_cons
    have hlit := Token.isLiteral_of_startsClause ht
    refine (readOperand_of_isLiteral _ hlit).trans ?_
    simp [readLeaf, Token.isRuleSetName_of_startsClause ht, hlit, h.read_eq]
  | @not d t us rest f ht _ ih =>
    have hread : readOperand d (us ++ rest) = .error f := ih
    simp [readerAt, readOperand, ht, hread, Except.map]
  | @group d t us rest f ht _ ih =>
    have hread : readDisjunction (readOperand d) (us ++ rest) = .error f := ih
    have hbang : t.isSymbol '!' = false := Token.isSymbol_ne ht (by decide)
    simp [readerAt, readOperand, hbang, ht, readGroup, hread, Except.map]
  | @unclosed d t us rest e ht hus hd hends hclosed =>
    have hgives := (completes_of_spells hus).gives hd hends
    have hread := readGroup_of_unclosed hgives hclosed
    have hbang : t.isSymbol '!' = false := Token.isSymbol_ne ht (by decide)
    simp [readerAt, readOperand, hbang, ht, hread, Except.map]
  | first _ ih => rw [readerAt_chain, readChain, ih]
  | @behind d c ts t us rest e f hts hd ht _ ih =>
    -- The left part is read as on its own, and its phrase then grows into the failure.
    have hsign : Ends (.joined c) (t :: (us ++ rest)) := .sign ht _
    obtain ⟨p, rfl, hrest, hread⟩ := completes_of_spells hts d hd _ (hsign.endsBefore e)
    rw [List.append_assoc, List.cons_append, hread]
    exact readJoined_of_error p hrest ht ih

/-- Whenever the reader fails, it fails as the grammar says. -/
def Explains (d : Nat) (level : Level) (read : Reader) : Prop :=
  ∀ ts f, read ts = .error f → ∃ us rest, ts = us ++ rest ∧ Fails d level us rest f

variable {operand : Reader}

theorem fails_of_readJoined (hop : Explains d (.joined c) operand)
    (hsound : Sound d (.joined c) operand) {tokens : List Token} {p : Phrase Expr tokens}
    (hp : Reads d (.chain c) p) (h : readJoined c operand p = .error f) :
    ∃ us rest, tokens = us ++ rest ∧ Fails d (.chain c) us rest f := by
  fun_induction readJoined c operand p with
  | case1 => cases h
  | case2 p t ts hrest ht g hg =>
    obtain rfl := Except.error.inj h
    obtain ⟨us, hts, hus, hd⟩ := hp
    obtain ⟨vs, rest, rfl, hvs⟩ := hop ts g hg
    exact ⟨us ++ t :: vs, rest, by simp [hts, hrest], .behind hus hd ht hvs⟩
  | case3 p t ts hrest ht r hr ih => exact ih (hp.join hrest ht (hsound ts r hr) rfl rfl) h
  | case4 => cases h

theorem Explains.readChain (hop : Explains d (.joined c) operand)
    (hsound : Sound d (.joined c) operand) : Explains d (.chain c) (readChain c operand) := by
  intro ts f h
  simp only [Expr.readChain] at h
  split at h
  · rename_i g hg
    obtain rfl := Except.error.inj h
    obtain ⟨us, rest, hts, hus⟩ := hop ts g hg
    exact ⟨us, rest, hts, .first hus⟩
  · rename_i p hp
    obtain ⟨us, hts, hus, hd⟩ := hsound ts p hp
    exact fails_of_readJoined hop hsound ⟨us, hts, .single hus, hd⟩ h

theorem Explains.readDisjunction (hop : Explains d .operand operand)
    (hsound : Sound d .operand operand) :
    Explains d (.chain .or) (readDisjunction operand) :=
  Explains.readChain (Explains.readChain hop hsound) (Sound.readChain hsound)

theorem fails_of_readGroup (hread : Explains d (.chain .or) (readDisjunction (readOperand d)))
    (ht : t.isSymbol '(' = true) (h : readGroup (readOperand d) ts = .error f) :
    ∃ us rest, t :: ts = us ++ rest ∧ Fails (d + 1) .operand us rest f := by
  simp only [readGroup] at h
  split at h
  · rename_i g hg
    obtain rfl := Except.error.inj h
    obtain ⟨us, rest, rfl, hus⟩ := hread ts g hg
    exact ⟨t :: us, rest, rfl, .group ht hus⟩
  · rename_i p hp
    have hgives : Gives (readerAt d (.chain .or) ts) p.value p.rest := ⟨p, hp, rfl, rfl⟩
    obtain ⟨us, hts, hus, hd, hends⟩ := readerAt_iff.1 hgives
    have hfails (hclosed : ∀ u ∈ p.rest.head?, u.isSymbol ')' = false) :=
      Fails.unclosed ht hus hd hends hclosed
    split at h
    · rename_i hrest
      obtain rfl := Except.error.inj h
      exact ⟨t :: us, p.rest, congrArg (t :: ·) hts, hfails (by simp [hrest])⟩
    · rename_i u rest hrest
      split at h
      · cases h
      · rename_i hu
        obtain rfl := Except.error.inj h
        exact ⟨t :: us, p.rest, congrArg (t :: ·) hts, hfails (by simpa [hrest] using hu)⟩

theorem fails_of_readLeaf (hopen : t.isOpening = false) (h : readLeaf t ts = .error f) :
    ∃ us rest, t :: ts = us ++ rest ∧ Fails d .operand us rest f := by
  simp only [readLeaf] at h
  split at h
  · cases h
  rename_i hname
  split at h
  · rename_i hlit
    obtain rfl := Except.error.inj h
    exact ⟨[], t :: ts, rfl, .unexpected (by simpa using hlit) hopen⟩
  rename_i hlit
  have hstart : t.startsClause = true :=
    Token.startsClause_of_isLiteral (by simpa using hlit) (by simpa using hname)
  split at h
  · rename_i fault hread
    obtain rfl := Except.error.inj h
    obtain ⟨us, rest, hts, hus⟩ := Clause.fails_of_read hread hstart
    exact ⟨us, rest, hts, .clause hus⟩
  · cases h

theorem explains_readOperand (d : Nat) : Explains d .operand (readOperand d) := by
  induction d with
  | zero =>
    intro ts f h
    cases ts with
    | nil =>
      cases h
      exact ⟨[], [], rfl, .endOfText⟩
    | cons t ts =>
      simp only [readOperand] at h
      split at h
      · rename_i hopen
        obtain rfl := Except.error.inj h
        exact ⟨[], t :: ts, rfl, .tooDeep hopen⟩
      · rename_i hopen
        exact fails_of_readLeaf (Bool.eq_false_iff.2 hopen) h
  | succ d ih =>
    intro ts f h
    cases ts with
    | nil =>
      cases h
      exact ⟨[], [], rfl, .endOfText⟩
    | cons t ts =>
      simp only [readOperand] at h
      split at h
      · rename_i ht
        obtain ⟨us, rest, rfl, hus⟩ := ih ts f (eq_error_of_map h)
        exact ⟨t :: us, rest, rfl, .not ht hus⟩
      rename_i hbang
      split at h
      · rename_i ht
        exact fails_of_readGroup (ih.readDisjunction (sound_readOperand d)) ht (eq_error_of_map h)
      · rename_i hparen
        refine fails_of_readLeaf ?_ h
        simp only [Token.isOpening, Bool.or_eq_false_iff]
        exact ⟨Bool.eq_false_iff.2 hbang, Bool.eq_false_iff.2 hparen⟩

theorem explains_readerAt (d : Nat) (level : Level) : Explains d level (readerAt d level) := by
  have hoperand := explains_readOperand d
  have hsound := sound_readOperand d
  match level with
  | .operand => exact hoperand
  | .chain .and => exact Explains.readChain hoperand hsound
  | .chain .or => exact hoperand.readDisjunction hsound

/-- The reader fails exactly as the grammar says. -/
theorem readerAt_eq_error_iff :
    readerAt d level ts = .error f ↔ ∃ us rest, ts = us ++ rest ∧ Fails d level us rest f := by
  constructor
  · exact explains_readerAt d level ts f
  · rintro ⟨us, rest, rfl, h⟩
    exact h.readerAt_eq

theorem read_eq_error_iff :
    read ts = .error f ↔ ∃ us rest, ts = us ++ rest ∧ Fails maxDepth (.chain .or) us rest f := by
  show readerAt maxDepth (.chain .or) ts = .error f ↔ _
  exact readerAt_eq_error_iff

end Reader

/-- What was read can be completed to an expression that opens no more than is allowed. -/
theorem Fails.exists_spells (h : Fails d level us rest f) :
    ∃ vs e, Spells level (us ++ vs) e ∧ e.depth ≤ d := by
  have hclose : (⟨.symbol, ")"⟩ : Token).isSymbol ')' = true := rfl
  induction h with
  | endOfText | unexpected | tooDeep =>
    exact ⟨[.filler], _, .clause (.search (by decide)), Nat.zero_le _⟩
  | clause h =>
    obtain ⟨vs, c, hspells⟩ := h.exists_spells
    exact ⟨vs, _, .clause hspells, Nat.zero_le _⟩
  | not ht _ ih =>
    obtain ⟨vs, e, hspells, hd⟩ := ih
    exact ⟨vs, _, .not ht hspells, Nat.succ_le_succ hd⟩
  | group ht _ ih =>
    obtain ⟨vs, e, hspells, hd⟩ := ih
    have hgroup := Spells.group ht hclose hspells
    rw [List.append_assoc] at hgroup
    exact ⟨_, _, hgroup, Nat.succ_le_succ hd⟩
  | unclosed ht hus hd =>
    exact ⟨_, _, .group ht hclose hus, Nat.succ_le_succ hd⟩
  | first _ ih =>
    obtain ⟨vs, e, hspells, hd⟩ := ih
    exact ⟨vs, e, .single hspells, hd⟩
  | behind hts hd ht _ ih =>
    obtain ⟨vs, e, hspells, hd'⟩ := ih
    have hjoin := Spells.join hts ht hspells
    rw [← List.cons_append, ← List.append_assoc] at hjoin
    exact ⟨vs, _, hjoin, Nat.max_le.2 ⟨hd, hd'⟩⟩

/-- No expression goes on with the next token. -/
theorem Fails.not_spells {t : Token} {ts vs : List Token} {e : Expr}
    (h : Fails d level us (t :: ts) f) (hd : e.depth ≤ d) : ¬ Spells level (us ++ t :: vs) e := by
  intro hspells
  obtain ⟨p, hp, -⟩ := readerAt_of_spells hspells hd
  have hmoved : Fails d level us (t :: vs) _ := h.relocate rfl
  rw [hmoved.readerAt_eq] at hp
  cases hp

theorem Fails.locates (h : Fails d level us rest f) : f.fault.Locates rest := by
  induction h with
  | unexpected hlit => exact .unexpected hlit
  | clause h => exact h.locates
  | not _ _ ih | group _ _ ih | first _ ih | behind _ _ _ _ ih => exact ih
  | endOfText | tooDeep | unclosed => rintro _ _ ⟨⟩

end Expr

section Parse

variable {us rest : List Token} {f : Failure}

theorem parseTokens_of_fails (h : Expr.Fails maxDepth (.chain .or) us rest f) (s : Schema) :
    parseTokens s (us ++ rest) =
      ⟨.error (f.fault.toError (us ++ rest).length), lookupLog s f.names⟩ := by
  have hread : Expr.read (us ++ rest) = .error f := Expr.read_eq_error_iff.2 ⟨us, rest, rfl, h⟩
  simp only [parseTokens, hread]

/-- A token is reported where reading fails before it, and wherever it is met there again. -/
theorem parseTokens_unexpected_iff {s : Schema} {ts : List Token} {token : String} {index : Nat} :
    (parseTokens s ts).value = .error (.unexpected token index) ↔
      ∃ us t behind names, ts = us ++ t :: behind ∧ t.text = token ∧ us.length = index ∧
        Expr.Fails maxDepth (.chain .or) us (t :: behind) ⟨.unexpected t behind, names⟩ := by
  constructor
  · intro h
    cases hread : Expr.read ts with
    | ok p => simp [parseTokens, hread] at h
    | error f =>
      obtain ⟨us, rest, rfl, hus⟩ := Expr.read_eq_error_iff.1 hread
      rw [parseTokens_of_fails hus] at h
      obtain ⟨fault, names⟩ := f
      cases fault with
      | unexpected t behind =>
        obtain ⟨rfl, -⟩ := hus.locates t behind rfl
        rw [Fault.toError_unexpected] at h
        obtain ⟨htext, hplace⟩ := ParseError.unexpected.inj (Except.error.inj h)
        exact ⟨us, t, behind, names, rfl, htext, hplace, hus⟩
      | _ => cases h
  · rintro ⟨us, t, behind, names, rfl, rfl, rfl, hus⟩
    rw [parseTokens_of_fails hus, Fault.toError_unexpected]

/-- A token that is reported stands at its place and is no literal. Nothing behind it could mend the
query, whatever the schema is, and nothing before it has to be mended. -/
theorem parse_unexpected {s : Schema} {text token : String} {index : Nat}
    (h : (parse s text).value = .error (.unexpected token index)) :
    let ts := tokenize text.toList
    index < ts.length ∧ (∃ t, ts[index]? = some t ∧ t.text = token ∧ t.isLiteral = false) ∧
      (∀ s' us, (parseTokens s' (ts.take (index + 1) ++ us)).value =
        .error (.unexpected token index)) ∧
      ∃ us, ∀ s', ∃ p, (parseTokens s' (ts.take index ++ us)).value = .ok p ∧
        p.isComplete = true := by
  intro ts
  have htokens : (parseTokens s ts).value = .error (.unexpected token index) := h
  obtain ⟨us, t, behind, names, hts, rfl, rfl, hus⟩ := parseTokens_unexpected_iff.1 htokens
  have hplace : ts[us.length]? = some t := by rw [hts]; simp
  refine ⟨(List.getElem?_eq_some_iff.1 hplace).1, ⟨t, hplace, rfl, ?literal⟩, ?behind, ?before⟩
  case literal => exact (hus.locates t behind rfl).2
  case behind =>
    intro s' vs
    have htaken : ts.take (us.length + 1) ++ vs = us ++ t :: vs := by
      rw [hts, List.take_length_add_append]
      simp
    exact parseTokens_unexpected_iff.2 ⟨us, t, vs, names, htaken, rfl, rfl, hus.relocate rfl⟩
  case before =>
    obtain ⟨vs, e, hspells, hd⟩ := hus.exists_spells
    have htaken : ts.take us.length = us := by rw [hts, List.take_left]
    rw [htaken]
    exact ⟨vs, fun s' => ⟨_, parseTokens_iff.2 ⟨e, hspells, hd, rfl⟩⟩⟩

/-- An operator without a field, inside a negated group. -/
theorem parse_unexpected_operator :
    let s : Schema := { field? := fun _ => none }
    let ts := tokenize "A & !(x = 1 | = 2)".toList
    (parse s "A & !(x = 1 | = 2)").value = .error (.unexpected "=" 8) ∧
      (∃ t, ts[8]? = some t ∧ t.text = "=" ∧ t.isLiteral = false) ∧
      (∀ s' us, (parseTokens s' (ts.take 9 ++ us)).value = .error (.unexpected "=" 8)) ∧
      ∃ us, ∀ s', ∃ p, (parseTokens s' (ts.take 8 ++ us)).value = .ok p ∧ p.isComplete = true := by
  intro s ts
  have hmap : (parse s "A & !(x = 1 | = 2)").value.map (·.consumed) =
      .error (.unexpected "=" 8) := by
    decide +kernel
  have hread := eq_error_of_map hmap
  exact ⟨hread, (parse_unexpected hread).2⟩

end Parse

end BoolQuery.Query
