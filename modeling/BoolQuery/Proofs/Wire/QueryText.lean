import BoolQuery.Proofs.Query.AcceptedTrees
import BoolQuery.Proofs.Query.BareWords
import BoolQuery.Proofs.Query.WellFormedTrees
import BoolQuery.Proofs.Wire.RoundTrip

/-! The text of a tree that was written as JSON and read back. Its dates have become strings, which
are written without quotes as long as they are bare words. The text of a date is a bare word unless
its year takes more than four digits. Then the string is put in quotes, and the text of the tree
gets longer; nothing else in it depends on a date. -/

namespace BoolQuery

/-- The second text is the first, as long as no date takes a year of more than four digits, and is
longer if one does. -/
structure Requoted (ds : List Date) (xs ys : List Char) : Prop where
  same : (∀ d ∈ ds, d.year ≤ 9999) → ys = xs
  longer : ∀ d ∈ ds, 9999 < d.year → xs.length < ys.length

namespace Requoted

variable {ds ds' : List Date} {xs ys xs' ys' : List Char}

theorem refl (xs : List Char) : Requoted [] xs xs where
  same _ := rfl
  longer _ hd := absurd hd List.not_mem_nil

theorem near_or_far (ds : List Date) : (∀ d ∈ ds, d.year ≤ 9999) ∨ ∃ d ∈ ds, 9999 < d.year := by
  by_cases h : ∃ d ∈ ds, 9999 < d.year
  · exact .inr h
  · exact .inl fun d hd => by
      by_contra hfar
      exact h ⟨d, hd, by omega⟩

theorem length_le (h : Requoted ds xs ys) : xs.length ≤ ys.length := by
  obtain hnear | ⟨d, hd, hfar⟩ := near_or_far ds
  · rw [h.same hnear]
  · exact Nat.le_of_lt (h.longer d hd hfar)

theorem eq_iff (h : Requoted ds xs ys) : ys = xs ↔ ∀ d ∈ ds, d.year ≤ 9999 := by
  refine ⟨fun heq d hd => ?_, h.same⟩
  by_contra hfar
  have hlonger := h.longer d hd (by omega)
  rw [heq] at hlonger
  exact Nat.lt_irrefl _ hlonger

theorem append (h : Requoted ds xs ys) (h' : Requoted ds' xs' ys') :
    Requoted (ds ++ ds') (xs ++ xs') (ys ++ ys') := by
  -- Neither part gets shorter, so one that gets longer is enough.
  have hle := h.length_le
  have hle' := h'.length_le
  refine ⟨fun hnear => ?_, fun d hd hfar => ?_⟩
  · rw [List.forall_mem_append] at hnear
    rw [h.same hnear.1, h'.same hnear.2]
  · rw [List.length_append, List.length_append]
    obtain hd | hd := List.mem_append.1 hd
    · have hlonger := h.longer d hd hfar
      omega
    · have hlonger := h'.longer d hd hfar
      omega

theorem between (before after : List Char) (h : Requoted ds xs ys) :
    Requoted ds (before ++ (xs ++ after)) (before ++ (ys ++ after)) := by
  simpa using (refl before).append (h.append (refl after))

end Requoted

namespace Text

theorem length_escape_pos (c : Char) : 0 < (escape c).length := by
  unfold escape
  repeat' split
  all_goals simp

theorem length_lt_length_quote (cs : List Char) : cs.length < (quote cs).length := by
  have hle : cs.length ≤ (cs.flatMap escape).length := by
    induction cs with
    | nil => exact Nat.le_refl 0
    | cons c cs ih =>
      have hc := length_escape_pos c
      simp only [List.flatMap_cons, List.length_append, List.length_cons]
      omega
  simp only [quote, List.length_cons, List.length_append, List.length_nil]
  omega

end Text

namespace Value
open Query

mutual

/-- The dates in a value, at any depth of its lists. -/
def dates : Value → List Date
  | date d => [d]
  | list items => datesOfAll items
  | _ => []

def datesOfAll : List Value → List Date
  | [] => []
  | v :: vs => v.dates ++ datesOfAll vs

end

theorem requoted_dateText (d : Date) :
    Requoted [d] (date d).queryText (date d).undated.queryText := by
  have htext : (date d).undated.queryText =
      if isBareWord (String.ofList d.text) then d.text else Text.quote d.text := by
    rw [undated, queryText, stringText, String.toList_ofList]
  rw [htext, queryText]
  refine ⟨fun hnear => ?_, fun e he hfar => ?_⟩
  · rw [if_pos (Date.isBareWord_text_iff.2 (hnear d List.mem_cons_self))]
  · obtain rfl := List.mem_singleton.1 he
    rw [if_neg (fun hbare => absurd (Date.isBareWord_text_iff.1 hbare) (by omega))]
    exact Text.length_lt_length_quote _

mutual

theorem requoted_queryText : (v : Value) → Requoted v.dates v.queryText v.undated.queryText
  | bool _ | number _ | string _ => .refl _
  | date d => requoted_dateText d
  | list items => (requoted_queryTexts items).between ['('] [')']

theorem requoted_queryTexts : (vs : List Value) → Requoted (datesOfAll vs)
    ([','].intercalate (queryTexts vs)) ([','].intercalate (queryTexts (undatedAll vs)))
  | [] => .refl _
  | [v] => by
    simpa [datesOfAll, undatedAll, queryTexts, List.intercalate] using requoted_queryText v
  | v :: w :: vs => by
    have hrest := (requoted_queryTexts (w :: vs)).between [','] []
    simpa [datesOfAll, undatedAll, queryTexts, List.intercalate] using
      (requoted_queryText v).append hrest

end

end Value

namespace Rule
open Query

/-- The dates that a rule compares with. -/
def dates (r : Rule) : List Date := (r.value.map Value.dates).getD []

theorem requoted_queryText (r : Rule) : Requoted r.dates r.queryText r.undated.queryText := by
  obtain ⟨field, op, value, entity⟩ := r
  cases value with
  | none => exact .refl _
  | some v =>
    have hvalue : Requoted (dates { field, operator := op, value := some v, entity })
        v.queryText v.undated.queryText := v.requoted_queryText
    have htext (w : Value) : queryText { field, operator := op, value := some w, entity } =
        textWith field op w.queryText := queryText_eq_textWith field op w
    have hundated : undated { field, operator := op, value := some v, entity } =
        { field, operator := op, value := some v.undated, entity } := rfl
    rw [hundated, htext, htext, textWith, textWith]
    split
    · exact hvalue
    · simpa using hvalue.between (field.toList ++ gap op ++ operatorText op ++ gap op) []

end Rule

namespace Leaf

/-- The dates that rules among some leaves compare with. -/
def dates (ls : List Leaf) : List Date := (rulesAmong ls).flatMap Rule.dates

theorem dates_append (ls ls' : List Leaf) : dates (ls ++ ls') = dates ls ++ dates ls' := by
  rw [dates, rulesAmong_append, List.flatMap_append, dates, dates]

end Leaf

namespace Node
open Query Leaf

/-- Only what is told of the dates of rules that are not behind a name can change. -/
theorem requoted_negatedText {c : Condition} {kids : List Node} {ds : List Date} {f : Rule → Rule}
    (h : Requoted ds (joinedText c kids) (joinedText c (mapRulesAll f kids))) :
    Requoted ds (negatedText c kids) (negatedText c (mapRulesAll f kids)) := by
  rw [negatedText, negatedText, negatesBare_mapRulesAll]
  split
  · exact h
  · exact h.between ['('] [')']

mutual

theorem requoted_queryText : (n : Node) → (outer : Option Condition) →
    Requoted (dates n.leaves) (n.queryText outer) ((n.mapRules Rule.undated).queryText outer)
  | rule r => fun _ => by
    have hdates : dates (rule r).leaves = r.dates := List.append_nil _
    rw [hdates]
    exact r.requoted_queryText
  | group h kids => fun outer => by
    have hjoined := requoted_joinedText kids h.condition
    rw [mapRules]
    cases hname : h.name with
    | some name =>
      rw [queryText_of_name hname, queryText_of_name hname, leaves, hname]
      exact .refl _
    | none =>
      rw [leaves_of_name_eq_none kids hname]
      cases hneg : h.negated with
      | true =>
        have hsame := soleName?_mapRulesAll (f := Rule.undated) kids
        cases hsole : soleName? kids with
        | some name =>
          obtain ⟨header, below, rfl, _, hheader⟩ := soleName?_eq_some hsole
          rw [queryText_of_soleName? hname hneg hsole,
            queryText_of_soleName? hname hneg (hsame.trans hsole), leavesOfAll_singleton, leaves,
            hheader]
          exact .refl _
        | none =>
          rw [queryText_of_negated hname hneg hsole,
            queryText_of_negated hname hneg (hsame.trans hsole)]
          simpa using (requoted_negatedText hjoined).between ['!'] []
      | false =>
        rw [queryText_of_unmarked hname hneg, queryText_of_unmarked hname hneg]
        obtain ⟨halone, halone'⟩ | ⟨cs, cs', halone, halone', hrequoted⟩ :=
          requoted_aloneText? kids outer
        · rw [halone, halone', Option.getD_none, Option.getD_none]
          split
          · exact hjoined.between ['('] [')']
          · exact hjoined
        · rwa [halone, halone', Option.getD_some, Option.getD_some]

theorem requoted_aloneText? : (ns : List Node) → (outer : Option Condition) →
    (aloneText? outer ns = none ∧ aloneText? outer (mapRulesAll Rule.undated ns) = none) ∨
      ∃ cs cs', aloneText? outer ns = some cs ∧
        aloneText? outer (mapRulesAll Rule.undated ns) = some cs' ∧
        Requoted (dates (leavesOfAll ns)) cs cs'
  | [] => fun _ => .inl ⟨rfl, rfl⟩
  | [only] => fun outer => by
    rw [mapRulesAll, mapRulesAll, aloneText?, aloneText?, hasName_mapRules, leavesOfAll_singleton]
    split
    · exact .inl ⟨rfl, rfl⟩
    · exact .inr ⟨_, _, rfl, rfl, requoted_queryText only outer⟩
  | _ :: _ :: _ => fun _ => .inl ⟨rfl, rfl⟩

theorem requoted_joinedText : (ns : List Node) → (c : Condition) →
    Requoted (dates (leavesOfAll ns)) (joinedText c ns)
      (joinedText c (mapRulesAll Rule.undated ns))
  | [] => fun _ => .refl _
  | [only] => fun c => by
    rw [mapRulesAll, mapRulesAll, joinedText_singleton, joinedText_singleton, leavesOfAll_singleton]
    exact requoted_queryText only (some c)
  | n :: m :: ns => fun c => by
    have hrest := (requoted_joinedText (m :: ns) c).between c.joiner.toList []
    rw [List.append_nil, List.append_nil] at hrest
    rw [mapRulesAll, mapRulesAll, joinedText_cons, joinedText_cons, leavesOfAll, dates_append]
    exact (requoted_queryText n (some c)).append hrest

end

end Node

theorem Value.allFinite_of_forall {vs : List Value} (h : ∀ v ∈ vs, v.IsFinite) :
    AllFinite vs := by
  induction vs with
  | nil => trivial
  | cons v vs ih =>
    obtain ⟨hv, hvs⟩ := List.forall_mem_cons.1 h
    exact ⟨hv, ih hvs⟩

/-- Every number in a well-formed rule is finite. -/
theorem Rule.WellFormed.isFinite {r : Rule} (hr : r.WellFormed) : r.IsFinite := by
  intro v hv
  cases v with
  | number x => exact hr.finite x (by simp [scalars, hv])
  | list vs =>
    have hscalars : r.scalars = vs := by simp [scalars, hv]
    obtain ⟨_, _, hall⟩ := hr.listed vs hv
    refine Value.allFinite_of_forall fun w hw => ?_
    have hscalar := hall w hw
    cases w with
    | number x => exact hr.finite x (hscalars ▸ hw)
    | list ws => cases hscalar
    | _ => trivial
  | _ => trivial

namespace RuleSet

/-- The dates that the text of a tree tells. -/
def dates (t : RuleSet) : List Date := Leaf.dates t.leaves

theorem toQuery_undated_iff (t : RuleSet) :
    t.undated.toQuery = t.toQuery ↔ ∀ d ∈ t.dates, d.year ≤ 9999 := by
  rw [toQuery, toQuery, String.ofList_inj]
  exact (Node.requoted_queryText t.toNode none).eq_iff

end RuleSet

namespace Query
open RuleSet

variable {s : Schema} {text : String} {p : Parsed}

theorem isFinite_of_parse (hs : s.store = none) (h : (parse s text).value = .ok p) :
    ∀ r ∈ p.tree.toNode.rules, r.IsFinite := by
  obtain ⟨e, hspells, _, htree⟩ := spells_of_parse h
  intro r hr
  rw [htree, Expr.rules_simplify_toTree hs] at hr
  obtain ⟨c, us, hc, hus, rfl⟩ := hspells.exists_clause hr
  refine (Rule.stated_of_spells hc fun t ht => ?_).wellFormed.isFinite
  exact isFormed_of_mem_tokenize (List.mem_of_mem_take (hus.subset ht))

/-- A tree that was read and is not nested too deep is read back from its JSON. It is written by the
same text exactly if no date in the text takes a year of more than four digits. -/
theorem toQuery_ofJsonText?_iff (hs : s.store = none) (h : (parse s text).value = .ok p)
    (hdepth : p.tree.toJson.height ≤ Json.maxDepth) :
    ∃ t, ofJsonText? p.tree.toJsonText = some t ∧
      (t.toQuery = p.tree.toQuery ↔ ∀ d ∈ p.tree.dates, d.year ≤ 9999) := by
  have hfinite := isFinite_of_parse hs h
  refine ⟨p.tree.undated, ?_, toQuery_undated_iff p.tree⟩
  rw [ofJsonText?, read?_toJsonText hfinite, Option.bind_some]
  exact ofJson?_toJson hfinite hdepth

/-- The minus of a year before year zero needs no quotes; the plus of the year 12345 does. -/
theorem toQuery_ofJsonText?_iff_signed :
    let s : Schema :=
      { field? := fun name => if name = "born" then some { type := .date } else none }
    (∃ p t, (parse s "born IN (-0044-03-15,1990-04-12)").value = .ok p ∧
        ofJsonText? p.tree.toJsonText = some t ∧ t.toQuery = p.tree.toQuery) ∧
      ∃ p t, (parse s "!(a | born>+12345-01-01)").value = .ok p ∧
        ofJsonText? p.tree.toJsonText = some t ∧ t.toQuery ≠ p.tree.toQuery := by
  intro s
  let seen (p : Parsed) : Bool × Bool := (decide (p.tree.toJson.height ≤ Json.maxDepth),
    decide (∀ d ∈ p.tree.dates, d.year ≤ 9999))
  have hnear : (parse s "born IN (-0044-03-15,1990-04-12)").value.map seen = .ok (true, true) := by
    decide +kernel
  have hfar : (parse s "!(a | born>+12345-01-01)").value.map seen = .ok (true, false) := by
    decide +kernel
  obtain ⟨p, hp, hseen⟩ := exists_of_map_eq_ok hnear
  obtain ⟨q, hq, hseen'⟩ := exists_of_map_eq_ok hfar
  obtain ⟨hdepth, hyears⟩ := Prod.mk.inj hseen
  obtain ⟨hdepth', hyears'⟩ := Prod.mk.inj hseen'
  obtain ⟨t, ht, hiff⟩ := toQuery_ofJsonText?_iff rfl hp (of_decide_eq_true hdepth)
  obtain ⟨u, hu, hiff'⟩ := toQuery_ofJsonText?_iff rfl hq (of_decide_eq_true hdepth')
  exact ⟨⟨p, t, hp, ht, hiff.2 (of_decide_eq_true hyears)⟩,
    q, u, hq, hu, hiff'.not.2 (of_decide_eq_false hyears')⟩

end Query

end BoolQuery
