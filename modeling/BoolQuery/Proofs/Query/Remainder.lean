import BoolQuery.Proofs.Query.ExprReader
import BoolQuery.Query.Tree

/-! What reading leaves over. An expression is read from the start of some tokens exactly if they
begin with tokens that spell it and it does not go on with the token behind those. So of what is
left over no more than the first token matters, and without any of it the same tree is read. -/

namespace BoolQuery.Query

namespace Clause

variable {field operator : String} {ts : List Token} {p : Phrase Clause ts}

theorem not_null_of_readNull?_eq_none {v t : Token} {ts : List Token}
    (h : readNull? (v :: t :: ts) = none) : (v.isWord "not" && t.isWord "null") = false := by
  have hv := isWord_of_readNull?_eq_none h
  rw [← Bool.not_eq_true]
  intro hword
  simp [readNull?, hv, hword] at h

/-- An operand is whole as soon as it is read, except that `is not` may be a part of
`is not null`. -/
theorem ends_of_readOperand (h : readOperand field operator ts = .ok p)
    (hnull : operator = "is" → readNull? ts = none) :
    ∀ t ∈ p.rest.head?, p.value.continues t = false := by
  obtain ⟨us, hts, hus⟩ := spellsOperand_of_readOperand h
  intro t ht
  obtain ⟨rest, hrest⟩ := List.head?_eq_some_iff.1 ht
  rw [hrest] at hts
  generalize p.value = c at hus ⊢
  cases hus with
  | list => rfl
  | @literal v =>
    by_cases his : operator = "is"
    · rw [continues, Bool.and_assoc, not_null_of_readNull?_eq_none (hts ▸ hnull his),
        Bool.and_false]
    · simp [continues, his]

theorem ends_of_readComparison (h : readComparison field operator ts = .ok p) :
    ∀ t ∈ p.rest.head?, p.value.continues t = false := by
  refine readComparison_cases (motive := fun ts r => ∀ p, r = .ok p →
    ∀ t ∈ p.rest.head?, p.value.continues t = false) ?notIn ?null ?operand ts p h
  case notIn =>
    intro i ts _ _ p h
    obtain ⟨q, hq, rfl⟩ := exists_of_map_eq_ok h
    have hend := ends_of_readOperand hq (by simp)
    exact hend
  case null =>
    intro ts q _ _ p h
    cases h
    exact fun _ _ => rfl
  case operand =>
    intro ts _ hnull p h
    exact ends_of_readOperand h hnull

theorem ends_of_read {t : Token} {p : Phrase Clause (t :: ts)} (h : Clause.read t ts = .ok p) :
    ∀ u ∈ p.rest.head?, p.value.continues u = false := by
  cases ts with
  | nil =>
    cases h
    intro u hu
    cases hu
  | cons o ts =>
    simp only [Clause.read] at h
    split at h
    · obtain ⟨q, hq, rfl⟩ := exists_of_map_eq_ok h
      have hend := ends_of_readComparison hq
      exact hend
    · rename_i ho
      cases h
      intro u hu
      obtain rfl : o = u := Option.some.inj hu
      exact Bool.eq_false_iff.2 ho

end Clause

namespace Expr

variable {d : Nat} {c : Condition} {level : Level} {operand : Reader}

/-- Whatever the reader reads ends before what it leaves over. -/
def Settles (level : Level) (read : Reader) : Prop :=
  ∀ ts p, read ts = .ok p → p.value.EndsBefore level p.rest

theorem EndsBefore.chain {t : Token} {ts : List Token} {e : Expr}
    (h : e.EndsBefore (.joined c) (t :: ts)) (ht : t.isSymbol (joinSign c) = false) :
    e.EndsBefore (.chain c) (t :: ts) := by
  intro u hu
  obtain rfl : t = u := Option.some.inj hu
  obtain ⟨hclause, hsigns⟩ := h t rfl
  refine ⟨hclause, fun c' hc' => ?_⟩
  by_cases heq : c' = c
  · exact heq ▸ ht
  · refine hsigns c' ?_
    cases c <;> cases c' <;> simp_all [Level.conditions, Level.joined]

theorem endsBefore_of_readJoined (hop : Settles (.joined c) operand) {tokens : List Token}
    {p q : Phrase Expr tokens} (hp : p.value.EndsBefore (.joined c) p.rest)
    (h : readJoined c operand p = .ok q) : q.value.EndsBefore (.chain c) q.rest := by
  fun_induction readJoined c operand p with
  | case1 p hrest =>
    cases h
    intro t ht
    rw [hrest] at ht
    cases ht
  | case2 => cases h
  | case3 p t ts _ _ r hr ih => exact ih (hop ts r hr) h
  | case4 p t ts hrest ht =>
    cases h
    rw [hrest] at hp ⊢
    exact hp.chain (by simpa using ht)

theorem Settles.readChain (hop : Settles (.joined c) operand) :
    Settles (.chain c) (readChain c operand) := by
  intro ts q h
  simp only [Expr.readChain] at h
  split at h
  · cases h
  · rename_i p hp
    exact endsBefore_of_readJoined hop (hop ts p hp) h

theorem endsBefore_of_readGroup {ts : List Token} {p : Phrase Expr ts}
    (h : readGroup operand ts = .ok p) : p.value.EndsBefore .operand p.rest := by
  simp only [readGroup] at h
  split at h
  · cases h
  · split at h
    · cases h
    · split at h
      · cases h
        exact fun _ _ => ⟨rfl, by simp [Level.conditions]⟩
      · cases h

theorem endsBefore_of_readLeaf {t : Token} {ts : List Token} {p : Phrase Expr (t :: ts)}
    (h : readLeaf t ts = .ok p) : p.value.EndsBefore .operand p.rest := by
  intro u hu
  refine ⟨?_, by simp [Level.conditions]⟩
  simp only [readLeaf] at h
  split at h
  · cases h
    rfl
  split at h
  · cases h
  split at h
  · cases h
  · rename_i q hq
    cases h
    exact Clause.ends_of_read hq u hu

theorem settles_readOperand (d : Nat) : Settles .operand (readOperand d) := by
  induction d with
  | zero =>
    intro ts p h
    cases ts with
    | nil => cases h
    | cons t ts =>
      simp only [readOperand] at h
      split at h
      · cases h
      · exact endsBefore_of_readLeaf h
  | succ d ih =>
    intro ts p h
    cases ts with
    | nil => cases h
    | cons t ts =>
      simp only [readOperand] at h
      split at h
      · obtain ⟨q, hq, rfl⟩ := exists_of_map_eq_ok h
        exact ih ts q hq
      split at h
      · obtain ⟨q, hq, rfl⟩ := exists_of_map_eq_ok h
        have hend := endsBefore_of_readGroup hq
        exact hend
      · exact endsBefore_of_readLeaf h

theorem settles_readerAt (d : Nat) (level : Level) : Settles level (readerAt d level) := by
  have hoperand := settles_readOperand d
  match level with
  | .operand => exact hoperand
  | .chain .and => exact Settles.readChain hoperand
  | .chain .or => exact Settles.readChain (Settles.readChain hoperand)

theorem sound_readerAt (d : Nat) (level : Level) : Sound d level (readerAt d level) := by
  have hoperand := sound_readOperand d
  match level with
  | .operand => exact hoperand
  | .chain .and => exact Sound.readChain hoperand
  | .chain .or => exact hoperand.readDisjunction

/-- The reader stops behind an expression exactly if the expression ends there. -/
theorem readerAt_iff {ts rest : List Token} {e : Expr} : Gives (readerAt d level ts) e rest ↔
    ∃ us, ts = us ++ rest ∧ Spells level us e ∧ e.depth ≤ d ∧ e.EndsBefore level rest := by
  constructor
  · rintro ⟨p, hp, rfl, rfl⟩
    obtain ⟨us, hts, hus, hd⟩ := sound_readerAt d level ts p hp
    exact ⟨us, hts, hus, hd, settles_readerAt d level ts p hp⟩
  · rintro ⟨us, rfl, hus, hd, hends⟩
    exact (completes_of_spells hus).gives hd hends

end Expr

section Parse

variable {s : Schema} {ts : List Token} {p : Parsed}

/-- What is read is spelled by the first tokens, and ends before those behind them. -/
theorem parseTokens_eq_ok_iff : (parseTokens s ts).value = .ok p ↔
    ∃ us rest e, ts = us ++ rest ∧ Expr.Spells (.chain .or) us e ∧ e.depth ≤ maxDepth ∧
      e.EndsBefore (.chain .or) rest ∧ p = ⟨(e.toTree s).simplify, us.length, ts.length⟩ := by
  constructor
  · intro h
    simp only [parseTokens] at h
    split at h
    · cases h
    · rename_i q hq
      have hgives : Gives (Expr.readerAt maxDepth (.chain .or) ts) q.value q.rest :=
        ⟨q, hq, rfl, rfl⟩
      obtain ⟨us, hts, hus, hd, hends⟩ := Expr.readerAt_iff.1 hgives
      have hconsumed : ts.length - q.rest.length = us.length := by
        rw [congrArg List.length hts, List.length_append, Nat.add_sub_cancel]
      rw [hconsumed] at h
      exact ⟨us, q.rest, q.value, hts, hus, hd, hends, (Except.ok.inj h).symm⟩
  · rintro ⟨us, rest, e, rfl, hus, hd, hends, rfl⟩
    obtain ⟨q, hq, rfl, hrest⟩ := Expr.readerAt_iff.2 ⟨us, rfl, hus, hd, hends⟩
    have hread : Expr.read (us ++ rest) = .ok q := hq
    simp [parseTokens, hread, hrest]

/-- The tokens that a query takes are read to their end, as the same tree. No sign that could join
more to it stands behind them. -/
theorem parseTokens_take_consumed (h : (parseTokens s ts).value = .ok p) :
    1 ≤ p.consumed ∧ p.consumed ≤ p.total ∧ p.total = ts.length ∧
      (parseTokens s (ts.take p.consumed)).value = .ok ⟨p.tree, p.consumed, p.consumed⟩ ∧
      ∀ t ∈ ts[p.consumed]?, t.isSymbol '&' = false ∧ t.isSymbol '|' = false := by
  obtain ⟨us, rest, e, rfl, hus, hd, hends, rfl⟩ := parseTokens_eq_ok_iff.1 h
  have hnil : Expr.Ends (.chain .or) [] := .nil _
  refine ⟨?taken, by simp, rfl, ?alone, ?behind⟩
  case taken => exact List.length_pos_iff.2 hus.ne_nil
  case alone =>
    rw [List.take_left]
    exact parseTokens_eq_ok_iff.2
      ⟨us, [], e, (List.append_nil us).symm, hus, hd, hnil.endsBefore e, rfl⟩
  case behind =>
    intro t ht
    rw [List.getElem?_append_right (Nat.le_refl _), Nat.sub_self, ← List.head?_eq_getElem?] at ht
    have hsigns := (hends t ht).2
    exact ⟨hsigns .and (by simp [Level.conditions]), hsigns .or (by simp [Level.conditions])⟩

/-- In `a & b) | c` the sign behind the parenthesis joins nothing. -/
theorem parseTokens_take_consumed_parenthesis :
    let s : Schema := { field? := fun _ => none }
    let ts : List Token := [⟨.word, "a"⟩, ⟨.symbol, "&"⟩, ⟨.word, "b"⟩, ⟨.symbol, ")"⟩,
      ⟨.symbol, "|"⟩, ⟨.word, "c"⟩]
    ∃ p, (parseTokens s ts).value = .ok p ∧
      (parseTokens s (ts.take 3)).value = .ok ⟨p.tree, 3, 3⟩ := by
  intro s ts
  have ha : Expr.Spells .operand [⟨.word, "a"⟩] _ := .clause (.search (by decide +kernel))
  have hb : Expr.Spells .operand [⟨.word, "b"⟩] _ := .clause (.search (by decide +kernel))
  have hand : Expr.Spells (.chain .and) (ts.take 3) _ := .join (ha.ofOperand .and) rfl hb
  have hclosed : Expr.Ends (.chain .or) (ts.drop 3) := .closing rfl _ _
  have hp : (parseTokens s ts).value = .ok _ := parseTokens_eq_ok_iff.2
    ⟨ts.take 3, ts.drop 3, _, rfl, .single hand, by decide, hclosed.endsBefore _, rfl⟩
  exact ⟨_, hp, (parseTokens_take_consumed hp).2.2.2.1⟩

end Parse

end BoolQuery.Query
