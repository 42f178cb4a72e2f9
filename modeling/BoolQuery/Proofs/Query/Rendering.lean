import BoolQuery.Proofs.Query.Layout
import BoolQuery.Proofs.Query.TreeMeaning
import Mathlib.Data.List.Forall2

/-! The text of a tree spells an expression with the meaning of the tree, unless a `!` in it
makes a keyword. Precedence decides where parentheses stand, so the text of a node is looked
at among the operands that it is written for. -/

namespace BoolQuery

namespace Leaf

/-- The leaves state the same: equal rules, or one name. -/
inductive Same : Leaf → Leaf → Prop
  | rule {r r'} : (r == r') = true → Same (.rule r) (.rule r')
  | name (name) : Same (.name name) (.name name)

/-- Leaves that state the same hold equal rules. -/
theorem rulesAmong_of_same {xs ys : List Leaf} (h : List.Forall₂ Same xs ys) :
    List.Forall₂ (· == ·) (rulesAmong xs) (rulesAmong ys) := by
  induction h with
  | nil => exact .nil
  | cons hxy _ ih =>
    cases hxy with
    | rule heq => exact .cons heq ih
    | name _ => exact ih

theorem name_mem_of_same {xs ys : List Leaf} (h : List.Forall₂ Same xs ys) (text : String) :
    name text ∈ xs ↔ name text ∈ ys := by
  induction h with
  | nil => simp
  | cons hxy _ ih => cases hxy <;> simp [ih]

end Leaf

/-- The assignment does not tell equal rules apart. -/
def Assignment.Respects (a : Assignment) : Prop :=
  ∀ r r' : Rule, (r == r') = true → a.rule r = a.rule r'

namespace Query

/-- The expression is as true as `truth` says, and has these leaves up to equal values. -/
structure Means (s : Schema) (e : Expr) (truth : Assignment → Bool) (leaves : List Leaf) :
    Prop where
  holds : ∀ a : Assignment, a.Respects → e.holds s a = truth a
  leaves : List.Forall₂ Leaf.Same (e.leaves s) leaves

namespace Means

variable {s : Schema} {e l r : Expr} {f g : Assignment → Bool} {xs ys : List Leaf}

theorem clause {c : Clause} {r : Rule} (h : (c.toRule s == r) = true) :
    Means s (.clause c) (·.rule r) [.rule r] :=
  ⟨fun _ ha => ha _ _ h, .cons (.rule h) .nil⟩

theorem reference (name : String) :
    Means s (.reference name) (·.name name) [.name name] :=
  ⟨fun _ _ => rfl, .cons (.name name) .nil⟩

theorem not (h : Means s e f xs) : Means s (.not e) (fun a => !f a) xs :=
  ⟨fun a ha => by rw [Expr.holds, h.holds a ha], h.leaves⟩

theorem group (h : Means s e f xs) : Means s (.group e) f xs :=
  ⟨h.holds, h.leaves⟩

theorem of_eq (h : Means s e f xs) (hf : ∀ a, f a = g a) (hxs : xs = ys) : Means s e g ys :=
  ⟨fun a ha => (h.holds a ha).trans (hf a), hxs ▸ h.leaves⟩

/-- An expression that means what two others do together. -/
theorem both {c : Condition} (hl : Means s l f xs) (hr : Means s r g ys)
    (hholds : ∀ a, e.holds s a = c.combine [l.holds s a, r.holds s a])
    (hleaves : e.leaves s = l.leaves s ++ r.leaves s) :
    Means s e (fun a => c.combine [f a, g a]) (xs ++ ys) := by
  refine ⟨?_, ?_⟩
  · intro a ha
    rw [hholds, hl.holds a ha, hr.holds a ha]
  · rw [hleaves]
    exact List.rel_append hl.leaves hr.leaves

end Means

namespace Expr

variable {level : Level} {c : Condition} {t : Token} {ts us : List Token} {l r : Expr}

/-- A chain goes on with all of another chain under the same condition: the second one's
operands are joined one by one. What is made of two joined expressions in an associative way is
made of these two chains as well. -/
theorem Spells.append (hl : Spells (.chain c) ts l) (ht : t.isSymbol (joinSign c) = true)
    (hr : Spells level us r) (hlevel : level = .chain c) :
    ∃ m n, Spells (.chain c) (ts ++ t :: us) (.join c m n) ∧
      ∀ {α : Type} (f : Expr → α) (op : α → α → α), (∀ x y, f (.join c x y) = op (f x) (f y)) →
        (∀ x y z, op (op x y) z = op x (op y z)) → f (.join c m n) = op (f l) (f r) := by
  induction hr with
  | clause | reference | not | group => cases hlevel
  | single hr _ =>
    cases hlevel
    exact ⟨l, _, .join hl ht hr, fun f op hjoin _ => hjoin _ _⟩
  | @join _ u us vs m r _ hu hr ihm _ =>
    cases hlevel
    obtain ⟨m', n', he, hmade⟩ := ihm rfl
    refine ⟨.join c m' n', r, ?_, ?_⟩
    · have hassoc : ts ++ t :: (us ++ u :: vs) = ts ++ t :: us ++ u :: vs := by simp
      rw [hassoc]
      exact .join he hu hr
    · intro α f op hjoin hop
      rw [hjoin, hmade f op hjoin hop, hop, ← hjoin m r]

theorem Spells.toDisjunction (hs : Spells (.chain c) ts l) : Spells (.chain .or) ts l := by
  cases c with
  | and => exact .single hs
  | or => exact hs

/-- A chain is an operand of every chain that binds less tightly. -/
theorem Spells.loosen {outer : Option Condition} {h : Header}
    (hs : Spells (.chain h.condition) ts l) (hloose : h.isLooserThan outer = false) :
    Spells (.chain (outer.getD .or)) ts l := by
  cases outer with
  | none => exact hs.toDisjunction
  | some c =>
    cases c with
    | or => exact hs.toDisjunction
    | and =>
      cases hc : h.condition with
      | and => rwa [hc] at hs
      | or => simp [Header.isLooserThan, hc, Condition.precedence] at hloose

end Expr

/-- Wherever the text stands, its tokens have an operator where an operand is due. -/
def Derails (cs : List Char) : Prop :=
  ∀ rest, Closes rest → Misread (tokenize (cs ++ rest))

/-- The text spells a chain with this meaning, just as deep as `nesting`; an operand, if it is
atomic. -/
def Renders (s : Schema) (cs : List Char) (atomic : Bool) (c : Condition)
    (truth : Assignment → Bool) (leaves : List Leaf) (nesting : Nat) : Prop :=
  ∃ ts e, Lexes cs ts ∧ Expr.Spells (.chain c) ts e ∧
    (atomic = true → Expr.Spells .operand ts e) ∧ Means s e truth leaves ∧ e.depth = nesting

theorem lexes_parentheses {cs : List Char} {ts : List Token} (h : Lexes cs ts) :
    Lexes (inParentheses cs) (⟨.symbol, "("⟩ :: (ts ++ [⟨.symbol, ")"⟩])) := by
  intro rest _
  have hsplit : inParentheses cs ++ rest = '(' :: (cs ++ ')' :: rest) := by
    simp [inParentheses]
  rw [hsplit, tokenize_symbol (by decide) (by decide), h _ (.parenthesis rest),
    tokenize_symbol (by decide) (by decide)]
  simp

theorem Derails.parentheses {cs : List Char} (h : Derails cs) : Derails (inParentheses cs) := by
  intro rest _
  have hsplit : inParentheses cs ++ rest = '(' :: (cs ++ ')' :: rest) := by
    simp [inParentheses]
  rw [hsplit, tokenize_symbol (by decide) (by decide)]
  exact (h _ (.parenthesis rest)).append_left rfl []

/-- A `!` before a text that does not make a keyword with it is a token of its own. -/
theorem tokenize_bang_append {cs rest : List Char} (hrest : Closes rest)
    (hhead : (cs ++ rest).head? ≠ some '=') (hkey : opensKeyword cs = false) :
    tokenize ('!' :: (cs ++ rest)) = ⟨.symbol, "!"⟩ :: tokenize (cs ++ rest) := by
  refine tokenize_bang hhead ?_
  rw [negatedKeyword?_append hrest, Option.map_eq_none_iff]
  simpa [opensKeyword] using hkey

theorem lexes_bang {cs : List Char} {ts : List Token} (h : Lexes cs ts)
    (hhead : ∀ rest, (cs ++ rest).head? ≠ some '=') (hkey : opensKeyword cs = false) :
    Lexes ('!' :: cs) (⟨.symbol, "!"⟩ :: ts) := by
  intro rest hrest
  rw [List.cons_append, tokenize_bang_append hrest (hhead rest) hkey, h rest hrest]
  rfl

theorem kind_of_negatedKeyword? {cs : List Char} {x : Lexeme}
    (h : Lexeme.negatedKeyword? cs = some x) : x.1.kind = .operator := by
  unfold Lexeme.negatedKeyword? at h
  split at h
  · simp only at h
    split at h
    · cases h
      rfl
    · cases h
  · cases h

/-- A `!` that makes a keyword is an operator without a field. -/
theorem derails_of_opensKeyword {cs : List Char} (h : opensKeyword cs = true) :
    Derails ('!' :: cs) := by
  obtain ⟨x, hx⟩ := Option.isSome_iff_exists.1 h
  intro rest hrest
  have hread : Lexeme.negatedKeyword? ('!' :: (cs ++ rest)) = some (x.1, x.2 ++ rest) := by
    rw [negatedKeyword?_append hrest, hx]
    rfl
  rw [List.cons_append, tokenize_negatedKeyword hread]
  exact .head (kind_of_negatedKeyword? hx) _

theorem Derails.bang_parentheses {cs : List Char} (h : Derails cs) :
    Derails ('!' :: inParentheses cs) := by
  intro rest hrest
  rw [List.cons_append, tokenize_bang_append hrest (by simp [inParentheses]) rfl]
  exact (h.parentheses rest hrest).append_left rfl []

/-- The text of a joined ruleset up to its second operand. -/
theorem tokenize_joiner (c : Condition) (cs : List Char) :
    tokenize (c.joiner.toList ++ cs) =
      ⟨.symbol, String.ofList [joinSign c]⟩ :: tokenize cs := by
  have hsplit : c.joiner.toList ++ cs = ' ' :: joinSign c :: ' ' :: cs := by cases c <;> rfl
  have hmem : joinSign c ∈ Lexeme.symbols := by cases c <;> decide
  have hbang : joinSign c ≠ '!' := by cases c <;> decide
  rw [hsplit, tokenize_space, tokenize_symbol hmem hbang, tokenize_space]

theorem closes_joiner (c : Condition) (cs : List Char) : Closes (c.joiner.toList ++ cs) := by
  cases c <;> exact .space _

theorem Derails.append_joiner {cs : List Char} (h : Derails cs) (c : Condition)
    (ds : List Char) : Derails (cs ++ (c.joiner.toList ++ ds)) := by
  intro rest _
  rw [List.append_assoc, List.append_assoc]
  exact h _ (closes_joiner c _)

theorem Derails.joiner_append {cs ds : List Char} {ts : List Token} {c : Condition}
    (hlex : Lexes cs ts) (h : Derails ds) : Derails (cs ++ (c.joiner.toList ++ ds)) := by
  intro rest hrest
  rw [List.append_assoc, List.append_assoc, hlex _ (closes_joiner c _), tokenize_joiner]
  exact (h rest hrest).append_left rfl ts

theorem lexes_joiner {cs ds : List Char} {ts us : List Token} {c : Condition}
    (h : Lexes cs ts) (h' : Lexes ds us) : Lexes (cs ++ (c.joiner.toList ++ ds))
      (ts ++ ⟨.symbol, String.ofList [joinSign c]⟩ :: us) := by
  intro rest hrest
  rw [List.append_assoc, List.append_assoc, h _ (closes_joiner c _), tokenize_joiner,
    h' rest hrest]
  simp

end Query

namespace Node
open Query

variable {s : Schema}

/-- The text of a node renders the node wherever it is written, or derails. -/
structure Sound (s : Schema) (n : Node) : Prop where
  derails : n.glues = true → ∀ outer, Derails (n.queryText outer)
  renders : n.glues = false → ∀ outer, Renders s (n.queryText outer) n.isAtomic
    (outer.getD .or) n.holds n.leaves (n.nesting outer)

theorem isBare_of_isRuleSetName {name : String} (h : isRuleSetName name = true) :
    IsBare name.toList := by
  simp only [isRuleSetName, Text.everyChar, Bool.and_eq_true, List.all_eq_true, Bool.or_eq_true,
    beq_iff_eq] at h
  refine ⟨?_, ?_⟩
  · intro hnil
    simp [hnil] at h
  · intro c hc
    obtain (hup | hdigit) | rfl := h.1 c hc
    · exact .inl (Text.isAlphanum_iff.2 (.inl (Text.isAlpha_iff.2 (.inl hup))))
    · exact .inl (Text.isAlphanum_iff.2 (.inr hdigit))
    · exact .inr (by decide)

theorem lexes_name {name : String} (h : isRuleSetName name = true) :
    Lexes name.toList [⟨.word, name⟩] := by
  intro rest hrest
  rw [tokenize_word (isBare_of_isRuleSetName h).isWord hrest.endsWord, String.ofList_toList]
  rfl

theorem spells_name {name : String} (h : isRuleSetName name = true) :
    Expr.Spells .operand [⟨.word, name⟩] (.reference name) :=
  .reference (by simp [Token.isRuleSetName, h])

/-- A name, negated or not, is an operand where the `!` leaves it a name. -/
theorem renders_nameText {name : String} (h : isRuleSetName name = true) (negated : Bool)
    (hkey : negated = true → opensKeyword name.toList = false) (c : Condition) :
    Renders s (nameText negated name) true c (fun a => negated ^^ a.name name) [.name name]
      (if negated then 1 else 0) := by
  cases negated with
  | false =>
    have hop := spells_name h
    exact ⟨_, _, lexes_name h, hop.ofOperand c, fun _ => hop,
      (Means.reference name).of_eq (fun a => (Bool.false_xor _).symm) rfl, rfl⟩
  | true =>
    have hop : Expr.Spells .operand (⟨.symbol, "!"⟩ :: [⟨.word, name⟩]) _ :=
      .not (by decide) (spells_name h)
    have hhead (rest : List Char) : (name.toList ++ rest).head? ≠ some '=' :=
      Expr.head?_ne_of_lexes (lexes_name h) (spells_name h) rest
    exact ⟨_, _, lexes_bang (lexes_name h) hhead (hkey rfl), hop.ofOperand c, fun _ => hop,
      (Means.reference name).not.of_eq (fun a => (Bool.true_xor _).symm) rfl, rfl⟩

theorem sound_rule {r : Rule} (h : r.Legible s) : Sound s (.rule r) := by
  refine ⟨fun hg => (Bool.false_ne_true hg).elim, ?_⟩
  intro _ outer
  obtain ⟨ts, c, hlex, hspells, heq⟩ := h.spelled
  have hop : Expr.Spells .operand ts (.clause c) := .clause hspells
  exact ⟨ts, _, hlex, hop.ofOperand _, fun _ => hop, .clause heq, rfl⟩

theorem sound_name {h : Header} {name : String} (kids : List Node) (hname : h.name = some name)
    (hproper : isRuleSetName name = true) : Sound s (.group h kids) := by
  have htext (outer : Option Condition) :
      (group h kids).queryText outer = nameText h.negated name := by
    simp [queryText, hname]
  have hglues : (group h kids).glues = (h.negated && opensKeyword name.toList) := by
    simp [glues, hname]
  refine ⟨?_, ?_⟩
  · intro hg outer
    rw [hglues, Bool.and_eq_true] at hg
    rw [htext, hg.1]
    exact derails_of_opensKeyword hg.2
  · intro hg outer
    rw [hglues, Bool.and_eq_false_iff] at hg
    have hkey : h.negated = true → opensKeyword name.toList = false := by
      intro hneg
      rw [hneg] at hg
      simpa using hg
    obtain ⟨ts, e, hlex, hspells, hop, hmeans, hdepth⟩ :=
      renders_nameText (s := s) hproper h.negated hkey (outer.getD .or)
    rw [htext]
    refine ⟨ts, e, hlex, hspells, fun _ => hop rfl, hmeans.of_eq (?_) ?_, ?_⟩
    · intro a
      simp [holds, hname]
    · simp [leaves, hname]
    · simpa [nesting, hname] using hdepth

/-- The text of children joined under a condition. -/
def joinedText (c : Condition) (kids : List Node) : List Char :=
  c.joiner.toList.intercalate (queryTexts c kids)

theorem joinedText_singleton (c : Condition) (n : Node) :
    joinedText c [n] = n.queryText (some c) := by
  simp [joinedText, queryTexts, List.intercalate]

theorem joinedText_cons (c : Condition) (n m : Node) (ns : List Node) :
    joinedText c (n :: m :: ns) =
      n.queryText (some c) ++ (c.joiner.toList ++ joinedText c (m :: ns)) := by
  simp [joinedText, queryTexts, List.intercalate]

/-- The text behind a `!` that is not joined to a name. -/
def negatedText (c : Condition) (kids : List Node) : List Char :=
  if negatesBare kids then joinedText c kids else inParentheses (joinedText c kids)

theorem queryText_of_negated {h : Header} {kids : List Node} (hname : h.name = none)
    (hneg : h.negated = true) (hsole : soleName? kids = none) (outer : Option Condition) :
    (group h kids).queryText outer = '!' :: negatedText h.condition kids := by
  simp [queryText, hname, hneg, hsole, negatedText, joinedText]

theorem queryText_of_soleName? {h : Header} {kids : List Node} {name : String}
    (hname : h.name = none) (hneg : h.negated = true) (hsole : soleName? kids = some name)
    (outer : Option Condition) : (group h kids).queryText outer = nameText true name := by
  simp [queryText, hname, hneg, hsole]

theorem queryText_of_unmarked {h : Header} {kids : List Node} (hname : h.name = none)
    (hneg : h.negated = false) (outer : Option Condition) : (group h kids).queryText outer =
      (aloneText? outer kids).getD (if h.isLooserThan outer then
        inParentheses (joinedText h.condition kids) else joinedText h.condition kids) := by
  simp only [queryText, hname, hneg, Bool.false_eq_true, if_false]
  cases aloneText? outer kids <;> rfl

/-- What holds of the text of children, all of them being sound. -/
structure SoundAll (s : Schema) (c : Condition) (kids : List Node) : Prop where
  derails : gluesAny kids = true → Derails (joinedText c kids)
  renders : gluesAny kids = false → Renders s (joinedText c kids) (isAtomicAlone kids) c
    (fun a => c.combine (truths a kids)) (leavesOfAll kids) (nestingOfAll c kids)

theorem soundAll_singleton {n : Node} (h : Sound s n) (c : Condition) : SoundAll s c [n] := by
  have hglues : gluesAny [n] = n.glues := by simp [gluesAny]
  refine ⟨?_, ?_⟩
  · intro hg
    rw [joinedText_singleton]
    exact h.derails (hglues ▸ hg) (some c)
  · intro hg
    obtain ⟨ts, e, hlex, hspells, hop, hmeans, hdepth⟩ := h.renders (hglues ▸ hg) (some c)
    rw [joinedText_singleton]
    refine ⟨ts, e, hlex, hspells, hop, hmeans.of_eq (?_) ?_, ?_⟩
    · intro a
      simp [truths]
    · simp [leavesOfAll]
    · simpa [nestingOfAll] using hdepth

theorem soundAll_cons {n m : Node} {ns : List Node} {c : Condition} (h : Sound s n)
    (hns : SoundAll s c (m :: ns)) : SoundAll s c (n :: m :: ns) := by
  have hglues : gluesAny (n :: m :: ns) = (n.glues || gluesAny (m :: ns)) := by simp [gluesAny]
  refine ⟨?_, ?_⟩
  · intro hg
    rw [joinedText_cons]
    cases hn : n.glues with
    | true => exact (h.derails hn (some c)).append_joiner c _
    | false =>
      obtain ⟨ts, e, hlex, _⟩ := h.renders hn (some c)
      exact .joiner_append hlex (hns.derails (by simpa [hglues, hn] using hg))
  · intro hg
    rw [hglues, Bool.or_eq_false_iff] at hg
    obtain ⟨ts, l, hlex, hl, _, hmeansl, hdl⟩ := h.renders hg.1 (some c)
    obtain ⟨us, r, hlex', hr, _, hmeansr, hdr⟩ := hns.renders hg.2
    have hsign : (⟨.symbol, String.ofList [joinSign c]⟩ : Token).isSymbol (joinSign c) = true := by
      simp [Token.isSymbol]
    obtain ⟨m', n', he, hmade⟩ := Expr.Spells.append hl hsign hr rfl
    have hdepth := hmade Expr.depth max (fun _ _ => rfl) Nat.max_assoc
    have hholds (a : Assignment) := hmade (Expr.holds s a) (fun x y => c.combine [x, y])
      (fun _ _ => rfl) (Condition.combine_assoc c)
    have hleaves := hmade (Expr.leaves s) (· ++ ·) (fun _ _ => rfl) List.append_assoc
    rw [joinedText_cons]
    refine ⟨_, _, lexes_joiner hlex hlex', he, (fun h => by cases h),
      (hmeansl.both hmeansr hholds hleaves).of_eq (fun a => ?_) ?_, ?_⟩
    · exact (Condition.combine_cons c (n.holds a) (truths a (m :: ns))).symm
    · simp [leavesOfAll]
    · rw [hdepth, nestingOfAll, hdl, hdr]

theorem soundAll_of_forall {kids : List Node} (c : Condition) (hne : kids ≠ [])
    (h : ∀ n ∈ kids, Sound s n) : SoundAll s c kids := by
  induction kids with
  | nil => exact absurd rfl hne
  | cons n ns ih =>
    cases ns with
    | nil => exact soundAll_singleton (h n (by simp)) c
    | cons m ns =>
      exact soundAll_cons (h n (by simp)) (ih (by simp) fun k hk => h k (by simp [hk]))

theorem holds_of_negated {h : Header} {kids : List Node} (a : Assignment) (hname : h.name = none)
    (hneg : h.negated = true) :
    (group h kids).holds a = !h.condition.combine (truths a kids) := by
  rw [holds_of_name_eq_none a kids hname, hneg, Bool.true_xor]

/-- A `!` before a name alone is written with the name. -/
theorem sound_negated_name {h header : Header} {below : List Node} {name : String}
    (hname : h.name = none) (hneg : h.negated = true) (hheader : header.name = some name)
    (hplain : header.negated = false) (hproper : isRuleSetName name = true) :
    Sound s (.group h [group header below]) := by
  have hsole : soleName? [group header below] = some name := by simp [soleName?, hplain, hheader]
  have hglues : (group h [group header below]).glues = opensKeyword name.toList := by
    simp [glues, hname, hneg, hsole]
  refine ⟨?_, ?_⟩
  · intro hg outer
    rw [queryText_of_soleName? hname hneg hsole]
    exact derails_of_opensKeyword (hglues ▸ hg)
  · intro hg outer
    obtain ⟨ts, e, hlex, hspells, hop, hmeans, hdepth⟩ := renders_nameText (s := s) hproper true
      (fun _ => hglues ▸ hg) (outer.getD .or)
    rw [queryText_of_soleName? hname hneg hsole]
    refine ⟨ts, e, hlex, hspells, fun _ => hop rfl, hmeans.of_eq (fun a => ?_) ?_, ?_⟩
    · rw [holds_of_negated a hname hneg]
      simp [truths, holds, hheader, hplain]
    · simp [leaves, leavesOfAll, hname, hheader]
    · simpa [nesting, hname, hneg, hsole] using hdepth

/-- A `!` before an atomic child needs no parentheses, but may make a keyword with it. -/
theorem sound_negated_bare {h : Header} {kids : List Node} (hname : h.name = none)
    (hneg : h.negated = true) (hsole : soleName? kids = none) (hbare : negatesBare kids = true)
    (hall : SoundAll s h.condition kids) : Sound s (.group h kids) := by
  have hglues : (group h kids).glues = opensKeyword (joinedText h.condition kids) := by
    simp [glues, hname, hneg, hsole, hbare, joinedText]
  have htext (outer : Option Condition) :
      (group h kids).queryText outer = '!' :: joinedText h.condition kids := by
    rw [queryText_of_negated hname hneg hsole, negatedText, if_pos hbare]
  have hatomic : isAtomicAlone kids = true := by rwa [← negatesBare_eq]
  refine ⟨?_, ?_⟩
  · intro hg outer
    rw [htext]
    exact derails_of_opensKeyword (hglues ▸ hg)
  · intro hg outer
    obtain ⟨ts, e, hlex, _, hop, hmeans, hdepth⟩ :=
      hall.renders (gluesAny_of_isAtomicAlone kids hatomic)
    have hspells : Expr.Spells .operand (⟨.symbol, "!"⟩ :: ts) (.not e) :=
      .not (by decide) (hop hatomic)
    rw [htext]
    refine ⟨_, _, lexes_bang hlex (Expr.head?_ne_of_lexes hlex (hop hatomic)) (hglues ▸ hg),
      hspells.ofOperand _, fun _ => hspells, hmeans.not.of_eq (fun a => ?_) ?_, ?_⟩
    · rw [holds_of_negated a hname hneg]
    · rw [leaves_of_name_eq_none kids hname]
    · simp only [nesting, hname, hneg, hsole, hbare, Expr.depth, if_true]
      exact congrArg (· + 1) hdepth

/-- A `!` before other children has parentheses behind it, so it is no part of a keyword. -/
theorem sound_negated_enclosed {h : Header} {kids : List Node} (hname : h.name = none)
    (hneg : h.negated = true) (hsole : soleName? kids = none) (hbare : negatesBare kids = false)
    (hall : SoundAll s h.condition kids) : Sound s (.group h kids) := by
  have hglues : (group h kids).glues = gluesAny kids := by
    simp [glues, hname, hneg, hsole, hbare]
  have htext (outer : Option Condition) :
      (group h kids).queryText outer = '!' :: inParentheses (joinedText h.condition kids) := by
    rw [queryText_of_negated hname hneg hsole, negatedText, hbare, if_neg Bool.false_ne_true]
  refine ⟨?_, ?_⟩
  · intro hg outer
    rw [htext]
    exact (hall.derails (hglues ▸ hg)).bang_parentheses
  · intro hg outer
    obtain ⟨ts, e, hlex, hchain, _, hmeans, hdepth⟩ := hall.renders (hglues ▸ hg)
    have hspells : Expr.Spells .operand (⟨.symbol, "!"⟩ :: ⟨.symbol, "("⟩ ::
        (ts ++ [⟨.symbol, ")"⟩])) (.not (.group e)) :=
      .not (by decide) (.group (by decide) (by decide) hchain.toDisjunction)
    rw [htext]
    refine ⟨_, _, lexes_bang (lexes_parentheses hlex) (by simp [inParentheses]) rfl,
      hspells.ofOperand _, fun _ => hspells, hmeans.group.not.of_eq (fun a => ?_) ?_, ?_⟩
    · rw [holds_of_negated a hname hneg]
    · rw [leaves_of_name_eq_none kids hname]
    · simp only [nesting, hname, hneg, hsole, hbare, Expr.depth, if_true]
      exact congrArg (· + 2) hdepth

/-- A negated ruleset is an operand, whether its `!` stands before a name, before a rule or
before parentheses. -/
theorem sound_negated {h : Header} {kids : List Node} (hname : h.name = none)
    (hneg : h.negated = true) (hne : kids ≠ []) (hproper : ProperAll (Rule.Legible s) kids)
    (hkids : ∀ n ∈ kids, Sound s n) : Sound s (.group h kids) := by
  have hall := soundAll_of_forall h.condition hne hkids
  cases hsole : soleName? kids with
  | some name =>
    obtain ⟨header, below, rfl, hplain, hheader⟩ := soleName?_eq_some hsole
    have hrsn : isRuleSetName name = true := by
      simpa [ProperAll, Proper, hheader] using hproper
    exact sound_negated_name hname hneg hheader hplain hrsn
  | none =>
    cases hbare : negatesBare kids with
    | true => exact sound_negated_bare hname hneg hsole hbare hall
    | false => exact sound_negated_enclosed hname hneg hsole hbare hall

/-- The one child that is written in its parent's place. -/
theorem aloneText?_cases (outer : Option Condition) (kids : List Node) :
    (∃ only, kids = [only] ∧ only.hasName = false ∧
      aloneText? outer kids = some (only.queryText outer) ∧
      aloneNesting? outer kids = some (only.nesting outer)) ∨
    (aloneText? outer kids = none ∧ aloneNesting? outer kids = none) := by
  rcases kids with _ | ⟨only, _ | ⟨n, ns⟩⟩
  · exact .inr ⟨rfl, rfl⟩
  · cases hname : only.hasName with
    | true => exact .inr (by simp [aloneText?, aloneNesting?, hname])
    | false => exact .inl ⟨only, rfl, hname, by simp [aloneText?, hname],
        by simp [aloneNesting?, hname]⟩
  · exact .inr ⟨rfl, rfl⟩

theorem holds_of_unmarked {h : Header} {kids : List Node} (a : Assignment) (hname : h.name = none)
    (hneg : h.negated = false) : (group h kids).holds a = h.condition.combine (truths a kids) := by
  rw [holds_of_name_eq_none a kids hname, hneg, Bool.false_xor]

/-- The one child of a ruleset without a mark is written as it would be in its parent's place. -/
theorem renders_unmarked_alone {h : Header} {only : Node} {outer : Option Condition}
    (hname : h.name = none) (hneg : h.negated = false)
    (htext : aloneText? outer [only] = some (only.queryText outer))
    (hnest : aloneNesting? outer [only] = some (only.nesting outer))
    (honly : Sound s only) (hg : only.glues = false) :
    Renders s ((group h [only]).queryText outer) (group h [only]).isAtomic (outer.getD .or)
      (group h [only]).holds (group h [only]).leaves ((group h [only]).nesting outer) := by
  obtain ⟨ts, e, hlex, hspells, hop, hmeans, hdepth⟩ := honly.renders hg outer
  have hatomic : (group h [only]).isAtomic = isAtomicAlone [only] := by simp [isAtomic, hneg]
  rw [queryText_of_unmarked hname hneg, htext, Option.getD_some, hatomic,
    leaves_of_name_eq_none _ hname]
  refine ⟨ts, e, hlex, hspells, hop, hmeans.of_eq (fun a => ?_) ?_, ?_⟩
  · simp [holds_of_unmarked a hname hneg, truths]
  · simp [leavesOfAll]
  · simpa [nesting, hname, hneg, hnest] using hdepth

/-- Joined children are put in parentheses where they bind less tightly than what is around
them. -/
theorem renders_unmarked_joined {h : Header} {kids : List Node} {outer : Option Condition}
    (hname : h.name = none) (hneg : h.negated = false) (htext : aloneText? outer kids = none)
    (hnest : aloneNesting? outer kids = none) (hall : SoundAll s h.condition kids)
    (hg : gluesAny kids = false) :
    Renders s ((group h kids).queryText outer) (group h kids).isAtomic (outer.getD .or)
      (group h kids).holds (group h kids).leaves ((group h kids).nesting outer) := by
  obtain ⟨ts, e, hlex, hchain, hop, hmeans, hdepth⟩ := hall.renders hg
  have hatomic : (group h kids).isAtomic = isAtomicAlone kids := by simp [isAtomic, hneg]
  have hholds (a : Assignment) :
      h.condition.combine (truths a kids) = (group h kids).holds a :=
    (holds_of_unmarked a hname hneg).symm
  rw [queryText_of_unmarked hname hneg, htext, Option.getD_none, hatomic,
    leaves_of_name_eq_none _ hname]
  simp only [nesting, hname, hneg, hnest, Bool.false_eq_true, if_false]
  cases hloose : h.isLooserThan outer with
  | true =>
    have hspells : Expr.Spells .operand (⟨.symbol, "("⟩ :: (ts ++ [⟨.symbol, ")"⟩])) (.group e) :=
      .group (by decide) (by decide) hchain.toDisjunction
    exact ⟨_, _, lexes_parentheses hlex, hspells.ofOperand _, fun _ => hspells,
      hmeans.group.of_eq hholds rfl, congrArg (· + 1) hdepth⟩
  | false => exact ⟨ts, e, hlex, hchain.loosen hloose, hop, hmeans.of_eq hholds rfl, hdepth⟩

/-- A ruleset without a mark is written as its children are. -/
theorem sound_unmarked {h : Header} {kids : List Node} (hname : h.name = none)
    (hneg : h.negated = false) (hne : kids ≠ []) (hkids : ∀ n ∈ kids, Sound s n) :
    Sound s (.group h kids) := by
  have hall := soundAll_of_forall h.condition hne hkids
  have hglues : (group h kids).glues = gluesAny kids := by simp [glues, hname, hneg]
  refine ⟨?_, ?_⟩
  · intro hg outer
    rw [hglues] at hg
    rw [queryText_of_unmarked hname hneg]
    obtain ⟨only, rfl, _, htext, _⟩ | ⟨htext, _⟩ := aloneText?_cases outer kids
    · rw [htext]
      exact (hkids only (by simp)).derails (by simpa [gluesAny] using hg) outer
    · rw [htext, Option.getD_none]
      split
      · exact (hall.derails hg).parentheses
      · exact hall.derails hg
  · intro hg outer
    rw [hglues] at hg
    obtain ⟨only, rfl, _, htext, hnest⟩ | ⟨htext, hnest⟩ := aloneText?_cases outer kids
    · exact renders_unmarked_alone hname hneg htext hnest (hkids only (by simp))
        (by simpa [gluesAny] using hg)
    · exact renders_unmarked_joined hname hneg htext hnest hall hg

mutual

theorem sound_of_proper : (n : Node) → n.Proper (Rule.Legible s) → Sound s n
  | rule _ => sound_rule
  | group h kids => by
    intro hn
    unfold Proper at hn
    cases hname : h.name with
    | some name => exact sound_name kids hname (by simpa [hname] using hn)
    | none =>
      simp only [hname] at hn
      have hkids := sound_of_properAll kids hn.2
      cases hneg : h.negated with
      | true => exact sound_negated hname hneg hn.1 hn.2 hkids
      | false => exact sound_unmarked hname hneg hn.1 hkids

theorem sound_of_properAll : (ns : List Node) → ProperAll (Rule.Legible s) ns →
    ∀ n ∈ ns, Sound s n
  | [] => fun _ n hn => by cases hn
  | m :: ns => fun h =>
    List.forall_mem_cons.2 ⟨sound_of_proper m h.1, sound_of_properAll ns h.2⟩

end

end Node

end BoolQuery
