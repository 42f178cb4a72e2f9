import BoolQuery.Proofs.Query.Rendering

/-! The rules that an editor can put into a query: their fields are plain words, their values
suit their fields, and no word of theirs is one of the keywords that a `!` would join with.
Such rules are legible, and a `!` before one of them stays a negation. -/

namespace BoolQuery

namespace Query
open Text

/-- Whether a `!` directly before the word makes a keyword of it, in any letter case. -/
def isKeyword (word : String) : Bool :=
  Lexeme.negatedKeywords.contains (word.toList.map Char.toUpper)

/-- The fields that can be written anywhere in a query. -/
structure IsWritableField (field : String) : Prop extends IsField field where
  no_quote : '"' ∉ field.toList
  not_keyword : isKeyword field = false

theorem opensKeyword_iff {cs : List Char} : opensKeyword cs = true ↔
    (cs.takeWhile Char.isAlpha).map Char.toUpper ∈ Lexeme.negatedKeywords ∧
      endsKeyword (cs.dropWhile Char.isAlpha) = true := by
  simp only [opensKeyword, Lexeme.negatedKeyword?]
  split <;> simp_all

theorem opensKeyword_of_not_isAlpha {c : Char} (h : c.isAlpha = false) (cs : List Char) :
    opensKeyword (c :: cs) = false := by
  apply Bool.eq_false_iff.2
  intro ho
  have hmem := (opensKeyword_iff.1 ho).1
  rw [List.takeWhile_cons_of_neg (by simp [h])] at hmem
  revert hmem
  decide

/-- Only a keyword opens a keyword: a longer word goes on where the keyword would end. -/
theorem isKeyword_of_opensKeyword {word : String} {rest : List Char}
    (hword : IsWord word.toList) (hquote : '"' ∉ word.toList)
    (hrest : ∀ c ∈ rest.head?, c.isAlpha = false)
    (h : opensKeyword (word.toList ++ rest) = true) : isKeyword word = true := by
  obtain ⟨htake, hdrop⟩ := takeWhile_append_of_head hrest word.toList
  obtain ⟨hmem, hends⟩ := opensKeyword_iff.1 h
  rw [htake] at hmem
  rw [hdrop] at hends
  have hall : word.toList.takeWhile Char.isAlpha = word.toList := by
    have hsplit := List.takeWhile_append_dropWhile (p := Char.isAlpha) (l := word.toList)
    cases hd : word.toList.dropWhile Char.isAlpha with
    | nil => rwa [hd, List.append_nil] at hsplit
    | cons c cs =>
      have hc : c ∈ word.toList := by
        rw [← hsplit, hd]
        simp
      obtain ⟨hblank, hend⟩ := not_mem_of_not_reserved (hword.plain c hc)
      have hnot : c ∉ keywordEnders := by
        intro hmem'
        have hsub : ∀ d ∈ keywordEnders, d ∈ wordEnders ∨ d = '"' :=
          List.all_iff_forall_prop.1 (by decide)
        obtain h' | rfl := hsub c hmem'
        · exact hend h'
        · exact hquote hc
      rw [hd] at hends
      simp [endsKeyword, hblank, hnot] at hends
  rw [hall] at hmem
  simpa [isKeyword] using hmem

theorem not_opensKeyword_of_isWord {word : String} (hword : IsWord word.toList)
    (hquote : '"' ∉ word.toList) (hkey : isKeyword word = false) (rest : List Char)
    (hrest : ∀ c ∈ rest.head?, c.isAlpha = false) : opensKeyword (word.toList ++ rest) = false := by
  apply Bool.eq_false_iff.2
  intro ho
  have hkey' := isKeyword_of_opensKeyword hword hquote hrest ho
  rw [hkey] at hkey'
  cases hkey'

theorem IsWritableField.not_opensKeyword {field : String} (h : IsWritableField field)
    (rest : List Char) (hrest : ∀ c ∈ rest.head?, c.isAlpha = false) :
    opensKeyword (field.toList ++ rest) = false :=
  not_opensKeyword_of_isWord h.isWord h.no_quote h.not_keyword rest hrest

theorem mem_keyword_names {name : String} (hname : isRuleSetName name = true)
    (h : opensKeyword name.toList = true) : name ∈ ["CONTAINS", "LIKE"] := by
  have hchars : ∀ c ∈ name.toList, (c.isUpper = true ∨ c.isDigit = true) ∨ c = '_' := by
    intro c hc
    simp only [isRuleSetName, everyChar, Bool.and_eq_true, List.all_eq_true, Bool.or_eq_true,
      beq_iff_eq] at hname
    exact hname.1 c hc
  have hbare := Node.isBare_of_isRuleSetName hname
  have hquote : '"' ∉ name.toList := hbare.not_mem (by decide) (by decide)
  have hkey : isKeyword name = true := by
    rw [← List.append_nil name.toList] at h
    exact isKeyword_of_opensKeyword hbare.isWord hquote (by simp) h
  have hupper : ∀ c ∈ name.toList, c.toUpper = c := by
    intro c hc
    refine toUpper_of_not_isLower (Bool.eq_false_iff.2 fun hlower => ?_)
    obtain (h | h) | rfl := hchars c hc
    · rw [not_isUpper_of_isLower hlower] at h
      cases h
    · have halpha := not_isAlpha_of_isDigit h
      rw [isAlpha_iff.2 (.inr hlower)] at halpha
      cases halpha
    · exact absurd hlower (by decide)
  have hmap : name.toList.map Char.toUpper = name.toList :=
    (List.map_congr_left hupper).trans (List.map_id _)
  simp only [isKeyword, hmap, Lexeme.negatedKeywords, List.contains_iff_mem, List.mem_cons,
    List.not_mem_nil, or_false, String.toList_inj] at hkey
  simpa using hkey

end Query

namespace Rule
open Query

/-- The rules that are writable wherever they stand in a tree. -/
inductive Writable (s : Schema) : Rule → Prop
  | search {v} : v.Suits s documentField → (∀ w, v = .string w → isKeyword w = false) →
      Writable s (documentSearch v)
  | nullTest {field} (negated : Bool) : IsWritableField field →
      Writable s (nullTest field negated)
  | comparison {field op v} : IsWritableField field → IsOperator op →
      isDocumentSearch { field, operator := op } = false → v.Suits s field →
      (∀ w, v = .string w → Clause.completesKeyword op ⟨.word, w⟩ = false) →
      Writable s { field, operator := op, value := some v }
  | membership {field op vs} : IsWritableField field → isListOperator op = true → vs ≠ [] →
      (∀ v ∈ vs, v.Suits s field) →
      Writable s { field, operator := op, value := some (.list vs) }

end Rule

namespace Query

/-- A word that begins with no letter is no keyword. -/
theorem completesKeyword_of_not_isAlpha {op : String} {c : Char} (h : c.isAlpha = false)
    (cs : List Char) : Clause.completesKeyword op ⟨.word, String.ofList (c :: cs)⟩ = false := by
  have hword (w : List Char) (hw : w.head?.any Char.isAlpha = true) :
      ((c :: cs).map Char.toLower == w) = false := by
    apply Bool.eq_false_iff.2
    intro heq
    rw [← eq_of_beq heq] at hw
    have := Text.isAlpha_of_toLower hw
    rw [h] at this
    cases this
  have hin := hword ("in".toList.map Char.toLower) (by decide)
  have hnull := hword ("null".toList.map Char.toLower) (by decide)
  simp only [Clause.completesKeyword, Token.isWord, Text.equalsIgnoringCase_eq,
    String.toList_ofList, hin, hnull, Bool.and_false, Bool.or_false]

end Query

namespace Value
open Query

variable {s : Schema} {field : String} {v : Value}

/-- What is neither a string nor a truth value does not begin with a letter. -/
theorem Suits.head_not_isAlpha (h : v.Suits s field) (hstring : ∀ w, v ≠ .string w)
    (hbool : ∀ b, v ≠ .bool b) : ∃ c cs, v.queryText = c :: cs ∧ c.isAlpha = false ∧
      v.token? = some ⟨.word, String.ofList (c :: cs)⟩ := by
  cases v with
  | bool b => exact absurd rfl (hbool b)
  | string w => exact absurd rfl (hstring w)
  | list _ => cases h
  | number x =>
    obtain ⟨hne, hchars⟩ := Numeric.Double.queryText_chars h.1
    obtain ⟨c, cs, hcons⟩ := List.exists_cons_of_ne_nil hne
    refine ⟨c, cs, hcons, ?_, by simp [token?, queryText, hcons]⟩
    obtain hd | rfl | rfl := hchars c (by simp [hcons])
    · exact Text.not_isAlpha_of_isDigit hd
    · decide
    · decide
  | date d =>
    obtain ⟨hne, hchars⟩ := d.text_chars
    obtain ⟨c, cs, hcons⟩ := List.exists_cons_of_ne_nil hne
    refine ⟨c, cs, hcons, ?_, by simp [token?, queryText, hcons]⟩
    obtain hd | rfl | rfl := hchars c (by simp [hcons])
    · exact Text.not_isAlpha_of_isDigit hd
    · decide
    · decide

theorem Suits.completesKeyword {op : String} {t : Token} (h : v.Suits s field)
    (hkey : ∀ w, v = .string w → Clause.completesKeyword op ⟨.word, w⟩ = false)
    (ht : v.token? = some t) : Clause.completesKeyword op t = false := by
  by_cases hstring : ∃ w, v = .string w
  · obtain ⟨w, rfl⟩ := hstring
    cases ht
    split
    · exact hkey w rfl
    · simp [Clause.completesKeyword, Token.isWord]
  by_cases hbool : ∃ b, v = .bool b
  · obtain ⟨b, rfl⟩ := hbool
    cases ht
    cases b <;>
      simp [Clause.completesKeyword, Token.isWord, Text.equalsIgnoringCase_eq, queryText, boolText]
  · obtain ⟨c, cs, _, hc, htok⟩ := h.head_not_isAlpha (fun w hw => hstring ⟨w, hw⟩)
      (fun b hb => hbool ⟨b, hb⟩)
    obtain rfl := Option.some.inj (htok.symm.trans ht)
    exact completesKeyword_of_not_isAlpha hc cs

theorem Suits.not_opensKeyword (h : v.Suits s field)
    (hkey : ∀ w, v = .string w → isKeyword w = false) : opensKeyword v.queryText = false := by
  by_cases hstring : ∃ w, v = .string w
  · obtain ⟨w, rfl⟩ := hstring
    simp only [queryText, stringText]
    split
    · rename_i hbare
      have hchars := IsBare.of_isBareWord hbare
      have hquote : '"' ∉ w.toList := hchars.not_mem (by decide) (by decide)
      simpa using not_opensKeyword_of_isWord hchars.isWord hquote (hkey w rfl) [] (by simp)
    · exact opensKeyword_of_not_isAlpha (by decide) _
  by_cases hbool : ∃ b, v = .bool b
  · obtain ⟨b, rfl⟩ := hbool
    cases b <;> decide
  · obtain ⟨c, cs, htext, hc, _⟩ := h.head_not_isAlpha (fun w hw => hstring ⟨w, hw⟩)
      (fun b hb => hbool ⟨b, hb⟩)
    rw [htext]
    exact opensKeyword_of_not_isAlpha hc cs

end Value

namespace Rule
open Query

variable {s : Schema} {r : Rule}

theorem Writable.legible (h : r.Writable s) : r.Legible s := by
  cases h with
  | search hsuits _ => exact .search hsuits.fits
  | nullTest negated hfield => exact .nullTest negated hfield.toIsField
  | comparison hfield hop hsearch hsuits hkey =>
    exact .compare hfield.toIsField hop hsearch hsuits.fits fun t ht =>
      hsuits.completesKeyword hkey ht
  | membership hfield hop hne hsuits =>
    exact .among hfield.toIsField hop hne fun v hv => (hsuits v hv).fits

/-- What follows a field is no letter. -/
theorem head_gap_append {op : String} (h : IsOperator op) (cs : List Char) :
    ∀ c ∈ (gap op ++ operatorText op ++ cs).head?, c.isAlpha = false := by
  have hall : ∀ op ∈ ["=", "==", "!=", "<", "<=", ">", ">=", "!contains", "!like", "not in"],
      (gap op ++ operatorText op).head?.any (fun c => !c.isAlpha) = true := by decide +kernel
  have hop : (gap op ++ operatorText op).head?.any (fun c => !c.isAlpha) = true :=
    h.of_forall hall fun op hword => by simp [gap_of_isLowerWord hword]
  intro c hc
  cases hcons : gap op ++ operatorText op with
  | nil => simp [hcons] at hop
  | cons d ds =>
    rw [hcons] at hc hop
    obtain rfl : d = c := by simpa using hc
    simpa using hop

/-- A `!` before a writable rule does not make a keyword with it. -/
theorem Writable.not_opensKeyword (h : r.Writable s) : opensKeyword r.queryText = false := by
  cases h with
  | @search v hsuits hkey =>
    rw [queryText_documentSearch]
    exact hsuits.not_opensKeyword hkey
  | @nullTest field negated hfield =>
    rw [queryText_nullTest]
    exact hfield.not_opensKeyword _ (by simp)
  | comparison hfield hop hsearch _ _ =>
    rw [queryText_of_not_search hsearch, List.append_assoc, List.append_assoc,
      ← List.append_assoc (gap _)]
    exact hfield.not_opensKeyword _ (head_gap_append hop _)
  | membership hfield hop _ _ =>
    rw [queryText_of_not_search (isDocumentSearch_of_isListOperator hop), List.append_assoc,
      List.append_assoc, ← List.append_assoc (gap _)]
    exact hfield.not_opensKeyword _ (head_gap_append (isOperator_of_isListOperator hop) _)

end Rule

namespace Node
open Query

variable {s : Schema}

/-- Some leaf is a name that a `!` makes a keyword of. -/
def NamesKeyword (leaves : List Leaf) : Prop :=
  ∃ name ∈ ["CONTAINS", "LIKE"], Leaf.name name ∈ leaves

theorem NamesKeyword.append_left {xs : List Leaf} (h : NamesKeyword xs) (ys : List Leaf) :
    NamesKeyword (xs ++ ys) := by
  obtain ⟨name, hname, hmem⟩ := h
  exact ⟨name, hname, List.mem_append_left _ hmem⟩

theorem NamesKeyword.append_right {ys : List Leaf} (h : NamesKeyword ys) (xs : List Leaf) :
    NamesKeyword (xs ++ ys) := by
  obtain ⟨name, hname, hmem⟩ := h
  exact ⟨name, hname, List.mem_append_right _ hmem⟩

theorem namesKeyword_of_name {h : Header} {name : String} (kids : List Node)
    (hname : h.name = some name) (hproper : isRuleSetName name = true)
    (ho : opensKeyword name.toList = true) : NamesKeyword (group h kids).leaves := by
  refine ⟨name, mem_keyword_names hproper ho, ?_⟩
  simp [leaves, hname]

mutual

/-- If the text of an atomic node makes a keyword with a `!`, it begins with a name. -/
theorem namesKeyword_of_opensKeyword : (n : Node) → n.Proper (Rule.Writable s) →
    n.isAtomic = true → ∀ outer, opensKeyword (n.queryText outer) = true → NamesKeyword n.leaves
  | rule r => fun hr _ _ ho => by
    rw [queryText, Rule.Writable.not_opensKeyword hr] at ho
    cases ho
  | group h kids => fun hn hatomic outer ho => by
    rw [isAtomic, Bool.and_eq_true, Bool.not_eq_true'] at hatomic
    obtain ⟨hneg, halone⟩ := hatomic
    unfold Proper at hn
    cases hname : h.name with
    | some name =>
      simp only [hname] at hn
      simp only [queryText, hname, nameText, hneg, Bool.false_eq_true, if_false,
        List.nil_append] at ho
      exact namesKeyword_of_name kids hname hn ho
    | none =>
      simp only [hname] at hn
      rw [leaves_of_name_eq_none kids hname]
      obtain ⟨only, rfl, honly⟩ := isAtomicAlone_iff.1 halone
      refine namesKeyword_of_opensKeywordAll [only] hn.2 (fun n hn => by simp_all) ?_
      obtain ⟨_, heq, _, htext, _⟩ | ⟨htext, _⟩ := aloneText?_cases outer [only]
      · obtain rfl := List.singleton_inj.1 heq
        simp only [queryText, hname, hneg, htext, Bool.false_eq_true, if_false] at ho
        exact ⟨only, by simp, outer, ho⟩
      · simp only [queryText, hname, hneg, htext, Bool.false_eq_true, if_false] at ho
        split at ho
        · rw [inParentheses, opensKeyword_of_not_isAlpha (by decide)] at ho
          cases ho
        · exact ⟨only, by simp, some h.condition, joinedText_singleton h.condition only ▸ ho⟩

theorem namesKeyword_of_opensKeywordAll : (ns : List Node) → ProperAll (Rule.Writable s) ns →
    (∀ n ∈ ns, n.isAtomic = true) →
    (∃ n ∈ ns, ∃ outer, opensKeyword (n.queryText outer) = true) → NamesKeyword (leavesOfAll ns)
  | [] => fun _ _ h => by
    obtain ⟨n, hn, _⟩ := h
    cases hn
  | n :: ns => fun hns hatomic h => by
    obtain ⟨m, hm, outer, ho⟩ := h
    rw [leavesOfAll]
    obtain heq | hm := List.mem_cons.1 hm
    · rw [heq] at ho
      exact (namesKeyword_of_opensKeyword n hns.1 (hatomic n (by simp)) outer ho).append_left _
    · exact (namesKeyword_of_opensKeywordAll ns hns.2 (fun k hk => hatomic k (by simp [hk]))
        ⟨m, hm, outer, ho⟩).append_right _

end

mutual

/-- Among writable rules only a name can be what a `!` makes a keyword of. -/
theorem namesKeyword_of_glues : (n : Node) → n.Proper (Rule.Writable s) → n.glues = true →
    NamesKeyword n.leaves
  | rule _ => fun _ hg => by cases hg
  | group h kids => fun hn hg => by
    unfold Proper at hn
    cases hname : h.name with
    | some name =>
      simp only [hname] at hn
      simp only [glues, hname, Bool.and_eq_true] at hg
      exact namesKeyword_of_name kids hname hn hg.2
    | none =>
      simp only [hname] at hn
      rw [leaves_of_name_eq_none kids hname]
      cases hneg : h.negated with
      | false =>
        simp only [glues, hname, hneg, Bool.false_eq_true, if_false] at hg
        exact namesKeyword_of_gluesAny kids hn.2 hg
      | true =>
        simp only [glues, hname, hneg, if_true] at hg
        cases hsole : soleName? kids with
        | some name =>
          obtain ⟨header, below, rfl, _, hheader⟩ := soleName?_eq_some hsole
          simp only [hsole] at hg
          have hproper : isRuleSetName name = true := by
            simpa [ProperAll, Proper, hheader] using hn.2
          rw [leavesOfAll_singleton]
          exact namesKeyword_of_name below hheader hproper hg
        | none =>
          simp only [hsole] at hg
          split at hg
          · rename_i hbare
            rw [negatesBare_eq] at hbare
            obtain ⟨only, rfl, honly⟩ := isAtomicAlone_iff.1 hbare
            refine namesKeyword_of_opensKeywordAll [only] hn.2 (fun n hn => by simp_all) ?_
            exact ⟨only, by simp, some h.condition, joinedText_singleton h.condition only ▸ hg⟩
          · exact namesKeyword_of_gluesAny kids hn.2 hg

theorem namesKeyword_of_gluesAny : (ns : List Node) → ProperAll (Rule.Writable s) ns →
    gluesAny ns = true → NamesKeyword (leavesOfAll ns)
  | [] => fun _ hg => by cases hg
  | n :: ns => fun hns hg => by
    rw [gluesAny, Bool.or_eq_true] at hg
    rw [leavesOfAll]
    obtain hg | hg := hg
    · exact (namesKeyword_of_glues n hns.1 hg).append_left _
    · exact (namesKeyword_of_gluesAny ns hns.2 hg).append_right _

end

end Node

end BoolQuery
