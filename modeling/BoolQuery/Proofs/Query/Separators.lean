import BoolQuery.Proofs.Query.ClauseReader
import BoolQuery.Query.Tree
import Mathlib.Data.List.Chain

/-! The commas of lists. The grammar puts a comma between each two literals of a list. The reader
wants none anywhere and takes one behind any literal, so it also reads lists that lack commas or end
in one; what it makes of a list does not depend on its commas. -/

namespace BoolQuery.Query.Clause

/-- Literals with a comma between each two of them, as the grammar has them in a list. -/
inductive Separated : List Token → List Token → Prop
  | single {t} : t.isLiteral = true → Separated [t] [t]
  | cons {t c ts vs} : t.isLiteral = true → c.isSymbol ',' = true → Separated ts vs →
      Separated (t :: c :: ts) (t :: vs)

/-- No literal stands directly behind another one, and the last token is a literal. -/
structure EvenlySpaced (ts : List Token) : Prop where
  apart : ts.IsChain fun t u => t.isLiteral = true → u.isLiteral = false
  last : ∀ t ∈ ts.getLast?, t.isLiteral = true

variable {t c : Token} {ts vs : List Token}

theorem not_isLiteral_of_comma (h : c.isSymbol ',' = true) : c.isLiteral = false :=
  Token.isLiteral_of_symbol (Token.kind_of_isSymbol h)

theorem Separated.ne_nil (h : Separated ts vs) : ts ≠ [] := by
  cases h <;> simp

theorem Separated.lists (h : Separated ts vs) : Lists ts vs := by
  induction h with
  | single ht => exact .cons ht .nil
  | cons ht hc _ ih => exact .comma ht hc ih

theorem EvenlySpaced.cons (hc : c.isSymbol ',' = true) (hne : ts ≠ []) (h : EvenlySpaced ts)
    (t : Token) : EvenlySpaced (t :: c :: ts) := by
  have hcomma := not_isLiteral_of_comma hc
  refine ⟨List.isChain_cons_cons.2 ⟨fun _ => hcomma, List.isChain_cons.2 ⟨?_, h.apart⟩⟩, ?_⟩
  · intro u _ hlit
    rw [hcomma] at hlit
    cases hlit
  · obtain ⟨u, us, rfl⟩ := List.exists_cons_of_ne_nil hne
    exact h.last

theorem EvenlySpaced.tail (h : EvenlySpaced (t :: c :: ts)) : EvenlySpaced ts := by
  refine ⟨h.apart.tail.tail, ?_⟩
  intro u hu
  refine h.last u ?_
  cases ts with
  | nil => cases hu
  | cons v vs => exact hu

theorem Separated.evenlySpaced (h : Separated ts vs) : EvenlySpaced ts := by
  induction h with
  | single ht => exact ⟨.singleton _, by simpa using ht⟩
  | cons _ hc hts ih => exact ih.cons hc hts.ne_nil _

theorem Lists.separated (h : Lists ts vs) (hne : vs ≠ []) (hts : EvenlySpaced ts) :
    Separated ts vs := by
  induction h with
  | nil => exact absurd rfl hne
  | @cons t ts vs ht hl ih =>
    cases hl with
    | nil => exact .single ht
    | cons hu _ | comma hu _ _ =>
      have hapart := (List.isChain_cons_cons.1 hts.apart).1 ht
      rw [hu] at hapart
      cases hapart
  | @comma t c ts vs ht hc hl ih =>
    refine .cons ht hc (ih ?_ hts.tail)
    rintro rfl
    cases hl
    have hlit : c.isLiteral = true := hts.last c rfl
    rw [not_isLiteral_of_comma hc] at hlit
    cases hlit

/-- A list is read if it has a literal, no literal is followed by more than one comma, and it is
closed. Its values are those of its literals. The grammar has the lists among these in which no
comma lacks and none is left over. -/
theorem readList_values_iff (s : Schema) (field : String) (ts rest : List Token)
    (values : List Value) :
    ((∃ p, readList ts = .ok p ∧ p.value.map (s.valueOf field) = values ∧ p.rest = rest) ↔
      ∃ us r literals, ts = us ++ r :: rest ∧ r.isSymbol ')' = true ∧ Lists us literals ∧
        literals ≠ [] ∧ literals.map (s.valueOf field) = values) ∧
    ∀ us literals,
      Separated us literals ↔ Lists us literals ∧ literals ≠ [] ∧ EvenlySpaced us := by
  refine ⟨⟨?read, ?listed⟩, fun us literals => ⟨fun h => ?separated, fun h => ?spaced⟩⟩
  case read =>
    rintro ⟨p, hp, rfl, rfl⟩
    obtain ⟨us, r, hts, hr, hlist, hne⟩ := readList_iff.1 ⟨p, hp, rfl, rfl⟩
    exact ⟨us, r, p.value, hts, hr, hlist, hne, rfl⟩
  case listed =>
    rintro ⟨us, r, literals, hts, hr, hlist, hne, rfl⟩
    obtain ⟨p, hp, rfl, hrest⟩ := readList_iff.2 ⟨us, r, hts, hr, hlist, hne⟩
    exact ⟨p, hp, rfl, hrest⟩
  case separated => exact ⟨h.lists, by cases h <;> simp, h.evenlySpaced⟩
  case spaced => exact h.1.separated h.2.1 h.2.2

end BoolQuery.Query.Clause
