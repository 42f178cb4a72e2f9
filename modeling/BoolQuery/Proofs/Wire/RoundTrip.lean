import BoolQuery.Proofs.Json.ReadBack
import BoolQuery.RuleSet.Meaning
import BoolQuery.Wire.RuleSet

/-! A tree that is written as JSON is read back as itself, with its dates turned into strings: what
is left out is restored, and no ruleset is taken for a rule. Its numbers have to be finite, as JSON
has no word for others, and it may be nested only as deep as documents are read. -/

namespace BoolQuery

namespace Json

mutual

/-- How deep arrays and objects are nested. -/
def height : Json → Nat
  | array items => heightOfAll items + 1
  | object members => heightOfMembers members + 1
  | _ => 0

def heightOfAll : List Json → Nat
  | [] => 0
  | j :: js => max j.height (heightOfAll js)

def heightOfMembers : List (Letters × Json) → Nat
  | [] => 0
  | (_, j) :: members => max j.height (heightOfMembers members)

end

theorem toString?_map_char (cs : List Char) :
    Letters.toString? (cs.map Letter.char) = some (String.ofList cs) := by
  have hall : (cs.map Letter.char).mapM Letter.char? = some cs := by
    induction cs with
    | nil => rfl
    | cons c cs ih => simp [List.mapM_cons, Letter.char?, ih]
  rw [Letters.toString?, hall, Option.map_some]

theorem toString?_ofString (s : String) : Letters.toString? (Letters.ofString s) = some s := by
  rw [Letters.ofString, toString?_map_char, String.ofList_toList]

@[simp] theorem asString?_ofString (s : String) : (ofString s).asString? = some s :=
  toString?_ofString s

@[simp] theorem readable_ofString (s : String) : (ofString s).Readable := ⟨s.toList, rfl⟩

@[simp] theorem reread_ofString (s : String) : (ofString s).reread = ofString s := rfl

@[simp] theorem isNull_ofString (s : String) : (ofString s).isNull = false := rfl

mutual

/-- A document that is not nested too deep is read in full. -/
theorem isSound_reread : (j : Json) → j.Readable → (depth : Nat) → j.height ≤ depth →
    j.reread.isSound depth = true
  | .null, _, _, _ => rfl
  | .bool _, _, _, _ => rfl
  | .number negative d, hj, _, _ => by
    have hfinite : Numeric.Double.rankOfDecimal d.reread < Numeric.Double.infiniteRank :=
      Numeric.Decimal.rankOfDecimal_reread hj.1 ▸ hj.2
    exact Numeric.Double.isFinite_iff.2 hfinite
  | .string ls, hj, _, _ => by
    obtain ⟨cs, rfl⟩ := hj
    show (Letters.toString? (cs.map Letter.char)).isSome = true
    rw [toString?_map_char, Option.isSome_some]
  | .array items, hj, depth, hdepth => by
    rw [height] at hdepth
    rw [reread, isSound, areSound_reread items hj (depth - 1) (by omega), Bool.and_true, bne_iff_ne]
    omega
  | .object members, hj, depth, hdepth => by
    rw [height] at hdepth
    rw [reread, isSound, areSoundMembers_reread members hj (depth - 1) (by omega), Bool.and_true,
      bne_iff_ne]
    omega

theorem areSound_reread : (js : List Json) → AllReadable js → (depth : Nat) →
    heightOfAll js ≤ depth → areSound depth (rereadAll js) = true
  | [], _, _, _ => rfl
  | j :: js, hjs, depth, hdepth => by
    rw [heightOfAll] at hdepth
    rw [rereadAll, areSound, isSound_reread j hjs.1 depth (by omega),
      areSound_reread js hjs.2 depth (by omega), Bool.and_true]

theorem areSoundMembers_reread : (ms : List (Letters × Json)) → MembersReadable ms →
    (depth : Nat) → heightOfMembers ms ≤ depth →
    areSoundMembers depth (rereadMembers ms) = true
  | [], _, _, _ => rfl
  | (key, j) :: ms, hms, depth, hdepth => by
    rw [heightOfMembers] at hdepth
    obtain ⟨⟨cs, rfl⟩, hj, hms⟩ := hms
    rw [rereadMembers, areSoundMembers, toString?_map_char, isSound_reread j hj depth (by omega),
      areSoundMembers_reread ms hms depth (by omega), Option.isSome_some, Bool.and_true,
      Bool.and_true]

end

variable {ms : List (String × Json)}

theorem readable_record (h : ∀ m ∈ ms, m.2.Readable) : (record ms).Readable := by
  induction ms with
  | nil => trivial
  | cons m ms ih =>
    obtain ⟨hm, hms⟩ := List.forall_mem_cons.1 h
    exact ⟨⟨m.1.toList, rfl⟩, hm, ih hms⟩

theorem rereadMembers_map (ms : List (String × Json)) :
    rereadMembers (ms.map fun m => (Letters.ofString m.1, m.2)) =
      ms.map fun m => (Letters.ofString m.1, m.2.reread) := by
  induction ms with
  | nil => rfl
  | cons m ms ih => rw [List.map_cons, rereadMembers, ih, List.map_cons]

theorem reread_record (ms : List (String × Json)) :
    (record ms).reread = record (ms.map fun m => (m.1, m.2.reread)) := by
  show object (rereadMembers (ms.map fun m => (Letters.ofString m.1, m.2))) =
    object ((ms.map fun m => (m.1, m.2.reread)).map fun m => (Letters.ofString m.1, m.2))
  rw [rereadMembers_map, List.map_map]
  rfl

theorem entries?_record (ms : List (String × Json)) : (record ms).entries? = some ms := by
  rw [record, entries?]
  induction ms with
  | nil => rfl
  | cons m ms ih => simp [List.mapM_cons, toString?_ofString, ih]

end Json

namespace Record

theorem get?_cons (m : String × Json) (ms : Record) (name : String) :
    get? (m :: ms) name = if name = m.1 then some m.2 else get? ms name := by
  unfold get?
  rw [List.lookup_cons]
  by_cases h : name = m.1
  · rw [if_pos h, beq_iff_eq.2 h]
  · rw [if_neg h, beq_eq_false_iff_ne.2 h]

theorem get?_nil (name : String) : get? [] name = none := rfl

/-- A record is read from the object of its members. -/
theorem ofJson?_record {names : List String} {ms : Record}
    (hknown : ∀ m ∈ ms, names.contains m.1 = true) (hnodup : (ms.map (·.1)).Nodup) :
    ofJson? names (Json.record ms) = some ms := by
  have hentries := Json.entries?_record ms
  rw [Json.record] at hentries
  simp only [Json.record, ofJson?, hentries, Option.bind_eq_bind, Option.bind_some,
    List.filter_eq_self.2 hknown, if_pos hnodup]

theorem ofJson?_unknown {names : List String} {ms : Record}
    (hunknown : ∀ m ∈ ms, names.contains m.1 = false) :
    ofJson? names (Json.record ms) = some [] := by
  have hentries := Json.entries?_record ms
  have hfilter : ms.filter (fun m => names.contains m.1) = [] :=
    List.filter_eq_nil_iff.2 fun m hm => by rw [hunknown m hm]; exact Bool.false_ne_true
  rw [Json.record] at hentries
  simp only [Json.record, ofJson?, hentries, Option.bind_eq_bind, Option.bind_some, hfilter,
    List.map_nil, List.nodup_nil, if_true]

end Record

namespace Numeric.Double

variable {x : Double}

/-- The shortest decimal of a finite number has its rank, also of zero. -/
theorem rankOfDecimal_shortest_of_isFinite (tie : Tie) (hfin : x.isFinite = true) :
    rankOfDecimal (x.shortest tie) = x.magnitude := by
  by_cases hzero : x.isZero = true
  · have hmag : x.magnitude = 0 := by simpa [isZero] using hzero
    rw [shortest, if_pos hzero, hmag]
    rfl
  · exact rankOfDecimal_shortest tie hfin (Bool.eq_false_iff.2 hzero)

theorem isPlain_shortest (tie : Tie) (hfin : x.isFinite = true) :
    Json.IsPlain (x.shortest tie) := by
  intro hdigits
  have hmag := rankOfDecimal_shortest_of_isFinite tie hfin
  rw [rankOfDecimal, if_pos hdigits] at hmag
  rw [shortest, if_pos (by simp [isZero, ← hmag])]

theorem toJson_of_isFinite (hfin : x.isFinite = true) :
    x.toJson = .number x.negative (x.shortest .even) := if_pos hfin

theorem readable_toJson (hfin : x.isFinite = true) : x.toJson.Readable := by
  rw [toJson_of_isFinite hfin]
  refine ⟨isPlain_shortest .even hfin, ?_⟩
  rw [rankOfDecimal_shortest_of_isFinite .even hfin]
  exact isFinite_iff.1 hfin

theorem ofDecimal_reread (hfin : x.isFinite = true) :
    ofDecimal x.negative (x.shortest .even).reread = x := by
  refine eq_of_magnitude rfl ?_
  exact (Decimal.rankOfDecimal_reread (isPlain_shortest .even hfin)).trans
    (rankOfDecimal_shortest_of_isFinite .even hfin)

end Numeric.Double

namespace Value

mutual

/-- Every number in the value is finite. -/
def IsFinite : Value → Prop
  | number x => x.isFinite = true
  | list items => AllFinite items
  | _ => True

def AllFinite : List Value → Prop
  | [] => True
  | v :: vs => v.IsFinite ∧ AllFinite vs

end

mutual

/-- The value with its dates as strings. -/
def undated : Value → Value
  | date d => string (String.ofList d.text)
  | list items => list (undatedAll items)
  | v => v

def undatedAll : List Value → List Value
  | [] => []
  | v :: vs => v.undated :: undatedAll vs

end

mutual

theorem readable_toJson : (v : Value) → v.IsFinite → v.toJson.Readable
  | bool _, _ => trivial
  | number _, hv => Numeric.Double.readable_toJson hv
  | string s, _ => Json.readable_ofString s
  | date d, _ => ⟨d.text, rfl⟩
  | list items, hv => readable_toJsons items hv

theorem readable_toJsons : (vs : List Value) → AllFinite vs → Json.AllReadable (toJsons vs)
  | [], _ => trivial
  | v :: vs, hvs => ⟨readable_toJson v hvs.1, readable_toJsons vs hvs.2⟩

end

mutual

/-- A value is read back as itself, and a date as its text. -/
theorem ofJson?_toJson : (v : Value) → v.IsFinite → ofJson? v.toJson.reread = some v.undated
  | bool _, _ => rfl
  | number x, hv => by
    rw [toJson, Numeric.Double.toJson_of_isFinite hv, Json.reread, ofJson?,
      Numeric.Double.ofDecimal_reread hv]
    rfl
  | string s, _ => by
    show (Json.Letters.toString? (Json.Letters.ofString s)).map string = _
    rw [Json.toString?_ofString]
    rfl
  | date d, _ => by
    show (Json.Letters.toString? (d.text.map Json.Letter.char)).map string = _
    rw [Json.toString?_map_char]
    rfl
  | list items, hv => by
    rw [toJson, Json.reread, ofJson?, ofJsons?_toJsons items hv]
    rfl

theorem ofJsons?_toJsons : (vs : List Value) → AllFinite vs →
    ofJsons? (Json.rereadAll (toJsons vs)) = some (undatedAll vs)
  | [], _ => rfl
  | v :: vs, hvs => by
    rw [toJsons, Json.rereadAll, ofJsons?, ofJson?_toJson v hvs.1, ofJsons?_toJsons vs hvs.2]
    rfl

end

theorem isNull_toJson {v : Value} (hv : v.IsFinite) : v.toJson.reread.isNull = false := by
  cases v with
  | number x =>
    rw [toJson, Numeric.Double.toJson_of_isFinite hv]
    rfl
  | _ => rfl

end Value

namespace Rule

/-- Every number in the rule is finite. -/
def IsFinite (r : Rule) : Prop := ∀ v, r.value = some v → v.IsFinite

def undated (r : Rule) : Rule := { r with value := r.value.map Value.undated }

variable {r : Rule}

theorem readable_toJson (hr : r.IsFinite) : r.toJson.Readable := by
  refine Json.readable_record fun m hm => ?_
  simp only [presentMember, List.mem_append, List.mem_cons, List.not_mem_nil, or_false,
    Option.mem_toList, Option.map_eq_some_iff] at hm
  obtain ((rfl | rfl) | ⟨v, hv, rfl⟩) | ⟨entity, _, rfl⟩ := hm
  · exact Json.readable_ofString _
  · exact Json.readable_ofString _
  · exact Value.readable_toJson v (hr v hv)
  · exact Json.readable_ofString _

theorem ofJson?_toJson (hr : r.IsFinite) : ofJson? r.toJson.reread = some r.undated := by
  obtain ⟨field, operator, value, entity⟩ := r
  rw [toJson, Json.reread_record]
  cases value with
  | none =>
    cases entity <;>
      simp [presentMember, ofJson?, Record.ofJson?_record, Record.required, Record.nullable,
        Record.get?_cons, Record.get?_nil, undated]
  | some v =>
    have hv := hr v rfl
    cases entity <;>
      simp [presentMember, ofJson?, Record.ofJson?_record, Record.required, Record.nullable,
        Record.get?_cons, Record.get?_nil, undated, Value.isNull_toJson hv,
        Value.ofJson?_toJson v hv]

end Rule

namespace Header

variable {h : Header} {js : List Json}

theorem readable_members (hjs : Json.AllReadable js) : (Json.record (h.members js)).Readable := by
  refine Json.readable_record fun m hm => ?_
  simp only [members, presentMember, switchMember, List.mem_append, List.mem_cons,
    List.not_mem_nil, or_false, Option.mem_toList, Option.map_eq_some_iff,
    List.mem_ite_nil_right] at hm
  obtain (((rfl | rfl) | ⟨name, _, rfl⟩) | ⟨_, rfl⟩) | ⟨_, rfl⟩ := hm
  · exact Json.readable_ofString _
  · exact hjs
  · exact Json.readable_ofString _
  · trivial
  · trivial

/-- A ruleset is an object around the array of its children. -/
theorem height_members (h : Header) (js : List Json) :
    (Json.record (h.members js)).height = Json.heightOfAll js + 2 := by
  obtain ⟨condition, name, negated, parenthesized⟩ := h
  cases name <;> cases negated <;> cases parenthesized <;>
    simp [members, presentMember, switchMember, Json.record, Json.height, Json.heightOfMembers,
      Json.ofString]

end Header

namespace Condition

theorem ofJson?_word (c : Condition) : ofJson? (.ofString c.word) = some c := by
  have hword : (Json.ofString c.word).asWord? = some c.word := Json.toString?_ofString c.word
  rw [ofJson?, hword]
  cases c <;> rfl

end Condition

namespace RuleSet

/-- A ruleset is read back with the children that are read. -/
theorem ofJsonWith?_members {child : Json → Option Node} {h : Header} {js : List Json}
    {kids : List Node} (hkids : (Json.rereadAll js).mapM child = some kids) :
    ofJsonWith? child (Json.record (h.members js)).reread = some ⟨h, kids⟩ := by
  have hlist : Json.listOf? child (.array (Json.rereadAll js)) = some kids := hkids
  have hcondition := Condition.ofJson?_word h.condition
  obtain ⟨condition, name, negated, parenthesized⟩ := h
  rw [Json.reread_record]
  cases name <;> cases negated <;> cases parenthesized <;>
    simp [Header.members, presentMember, switchMember, ofJsonWith?, Record.ofJson?_record,
      Record.required, Record.nullable, Record.optional, Record.get?_cons, Record.get?_nil, hlist,
      hcondition, Json.asBool?, Json.reread]

end RuleSet

namespace Rule

/-- The members of a ruleset lack the field of a rule. -/
theorem ofJson?_members (h : Header) (js : List Json) :
    ofJson? (Json.record (h.members js)).reread = none := by
  obtain ⟨condition, name, negated, parenthesized⟩ := h
  have hrecord : Record.ofJson? ["field", "operator", "value", "entity"]
      (Json.record ((Header.members ⟨condition, name, negated, parenthesized⟩ js).map fun m =>
        (m.1, m.2.reread))) = some [] := by
    refine Record.ofJson?_unknown ?_
    cases name <;> cases negated <;> cases parenthesized <;>
      simp [Header.members, presentMember, switchMember]
  rw [Json.reread_record, ofJson?, hrecord]
  rfl

end Rule

namespace Node

mutual

theorem readable_toJson : (n : Node) → (∀ r ∈ n.rules, r.IsFinite) → n.toJson.Readable
  | rule r, hn => Rule.readable_toJson (hn r (List.mem_singleton_self r))
  | group _ kids, hn => Header.readable_members (readable_toJsons kids hn)

theorem readable_toJsons : (ns : List Node) → (∀ r ∈ rulesOfAll ns, r.IsFinite) →
    Json.AllReadable (toJsons ns)
  | [], _ => trivial
  | n :: ns, hns => by
    rw [rulesOfAll, List.forall_mem_append] at hns
    exact ⟨readable_toJson n hns.1, readable_toJsons ns hns.2⟩

end

theorem readable_of_mem {ns : List Node} (h : Json.AllReadable (toJsons ns)) :
    ∀ n ∈ ns, n.toJson.Readable := by
  induction ns with
  | nil => simp
  | cons m ns ih => exact List.forall_mem_cons.2 ⟨h.1, ih h.2⟩

theorem height_le_of_mem {ns : List Node} :
    ∀ n ∈ ns, n.toJson.height ≤ Json.heightOfAll (toJsons ns) := by
  induction ns with
  | nil => simp
  | cons m ns ih =>
    rw [toJsons, Json.heightOfAll]
    exact List.forall_mem_cons.2 ⟨Nat.le_max_left _ _, fun n hn =>
      (ih n hn).trans (Nat.le_max_right _ _)⟩

theorem mapM_rereadAll {child : Json → Option Node} {f : Node → Node} {ns : List Node}
    (h : ∀ n ∈ ns, child n.toJson.reread = some (f n)) :
    (Json.rereadAll (toJsons ns)).mapM child = some (ns.map f) := by
  induction ns with
  | nil => rfl
  | cons n ns ih =>
    obtain ⟨hn, hns⟩ := List.forall_mem_cons.1 h
    simp [toJsons, Json.rereadAll, List.mapM_cons, hn, ih hns]

theorem mapRulesAll_eq_map (f : Rule → Rule) (ns : List Node) :
    mapRulesAll f ns = ns.map (mapRules f) := by
  induction ns with
  | nil => rfl
  | cons n ns ih => rw [mapRulesAll, List.map_cons, ih]

mutual

/-- A node that is not nested too deep is read back as what it is, a rule or a ruleset. -/
theorem ofJson?_toJson : (n : Node) → (∀ r ∈ n.rules, r.IsFinite) → (depth : Nat) →
    n.toJson.height ≤ depth → ofJson? depth n.toJson.reread = some (n.mapRules Rule.undated)
  | rule r, hn, depth => fun hdepth => by
    obtain ⟨d, rfl⟩ : ∃ d, depth = d + 1 :=
      Nat.exists_eq_succ_of_ne_zero (by rintro rfl; exact Nat.not_succ_le_zero _ hdepth)
    have hread := Rule.ofJson?_toJson (hn r (List.mem_singleton_self r))
    rw [toJson, ofJson?, hread]
    rfl
  | group h kids, hn, depth => fun hdepth => by
    rw [toJson, Header.height_members] at hdepth
    obtain ⟨d, rfl⟩ : ∃ d, depth = d + 1 := Nat.exists_eq_succ_of_ne_zero (by omega)
    have hkids := mapM_rereadAll (forall_ofJson?_toJson kids hn d (by omega))
    rw [toJson, ofJson?, Rule.ofJson?_members, RuleSet.ofJsonWith?_members hkids,
      ← mapRulesAll_eq_map]
    rfl

theorem forall_ofJson?_toJson : (ns : List Node) → (∀ r ∈ rulesOfAll ns, r.IsFinite) →
    (depth : Nat) → Json.heightOfAll (toJsons ns) ≤ depth →
    ∀ n ∈ ns, ofJson? depth n.toJson.reread = some (n.mapRules Rule.undated)
  | [], _, _ => fun _ n hn => by cases hn
  | m :: ns, hns, depth => fun hdepth => by
    rw [rulesOfAll, List.forall_mem_append] at hns
    rw [toJsons, Json.heightOfAll] at hdepth
    exact List.forall_mem_cons.2 ⟨ofJson?_toJson m hns.1 depth (by omega),
      forall_ofJson?_toJson ns hns.2 depth (by omega)⟩

end

end Node

namespace RuleSet

/-- The tree with the dates of its rules as strings. -/
def undated (t : RuleSet) : RuleSet :=
  { t with children := Node.mapRulesAll Rule.undated t.children }

theorem readable_toJson {t : RuleSet} (ht : ∀ r ∈ t.toNode.rules, r.IsFinite) :
    t.toJson.Readable := Node.readable_toJson t.toNode ht

theorem read?_toJsonText {t : RuleSet} (hfinite : ∀ r ∈ t.toNode.rules, r.IsFinite) :
    Json.read? t.toJsonText.toList = some t.toJson.reread := by
  rw [toJsonText, String.toList_ofList]
  exact Json.read?_text (readable_toJson hfinite)

/-- The document of a tree states the tree, with its dates as strings. -/
theorem ofJson?_toJson {t : RuleSet} (hfinite : ∀ r ∈ t.toNode.rules, r.IsFinite)
    (hdepth : t.toJson.height ≤ Json.maxDepth) : ofJson? t.toJson.reread = some t.undated := by
  have hheight : t.toJson.height = Json.heightOfAll (Node.toJsons t.children) + 2 :=
    Header.height_members t.toHeader _
  have hkids : ∀ n ∈ t.children,
      Node.ofSoundJson? (Json.maxDepth - 2) n.toJson.reread = some (n.mapRules Rule.undated) := by
    intro n hn
    have hreadable := Node.readable_of_mem (Node.readable_toJsons t.children hfinite) n hn
    have hsound := Json.isSound_reread n.toJson hreadable (Json.maxDepth - 2)
      ((Node.height_le_of_mem n hn).trans (by omega))
    rw [Node.ofSoundJson?, Json.sound?, if_pos hsound, Option.bind_some]
    exact Node.forall_ofJson?_toJson t.children hfinite _ (by omega) n hn
  have hmapped := Node.mapM_rereadAll hkids
  rw [ofJson?]
  rw [← Node.mapRulesAll_eq_map] at hmapped
  exact ofJsonWith?_members hmapped

/-- A tree of finite numbers that is not nested too deep is read back from its JSON text, with its
dates as strings. -/
theorem ofJsonText?_toJsonText {t : RuleSet} (hfinite : ∀ r ∈ t.toNode.rules, r.IsFinite)
    (hdepth : t.toJson.height ≤ Json.maxDepth) :
    ofJsonText? t.toJsonText = some t.undated := by
  rw [ofJsonText?, read?_toJsonText hfinite, Option.bind_some]
  exact ofJson?_toJson hfinite hdepth

/-- The empty name is kept, and so is the sign of zero beside the date. -/
theorem ofJsonText?_toJsonText_dated :
    let leapDay : Date := ⟨2024, 2, 29, by decide⟩
    let zero : Value := .number ⟨true, 0, by decide⟩
    let born (v : Value) : Node :=
      .rule { field := "born", operator := "in", value := some (.list [v, zero]) }
    let t (v : Value) : RuleSet :=
      { condition := .or, name := some "",
        children := [born v, .group { negated := true, parenthesized := true } []] }
    ofJsonText? (t (.date leapDay)).toJsonText = some (t (.string "2024-02-29")) := by
  intro leapDay zero born t
  have hfinite : ∀ r ∈ (t (.date leapDay)).toNode.rules, r.IsFinite := by
    rintro r hr v hv
    obtain rfl := List.mem_singleton.1 hr
    obtain rfl := Option.some.inj hv
    exact ⟨trivial, rfl, trivial⟩
  have htext : String.ofList leapDay.text = "2024-02-29" := by decide +kernel
  rw [← htext]
  exact ofJsonText?_toJsonText hfinite (by decide)

end RuleSet

end BoolQuery
