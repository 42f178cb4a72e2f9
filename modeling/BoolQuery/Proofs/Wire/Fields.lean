import BoolQuery.Proofs.Wire.Declarations

/-! A field that is written as JSON is read back as itself, if a document declared it: its values
are finite and have no dates, and alone they are nested no deeper than in the configuration that
they come from. A member that is left out is restored, and nothing else is mistaken for one that
is left out: an empty list is written, and no value is written as `null`. -/

namespace BoolQuery

namespace Value

mutual

/-- A value is nested as deep as the document that it is read from. -/
theorem height_toJson_le : (j : Json) → {depth : Nat} → {v : Value} → j.isSound depth = true →
    ofJson? j = some v → v.toJson.height ≤ depth
  | .null, _, _, _, hv => by cases hv
  | .bool _, _, _, _, hv => by
    cases hv
    exact Nat.zero_le _
  | .number _ _, _, _, hsound, hv => by
    cases hv
    rw [toJson, Numeric.Double.toJson_of_isFinite hsound]
    exact Nat.zero_le _
  | .string _, _, _, _, hv => by
    obtain ⟨s, -, rfl⟩ := Option.map_eq_some_iff.1 hv
    exact Nat.zero_le _
  | .array items, depth, _, hsound, hv => by
    obtain ⟨vs, hvs, rfl⟩ := Option.map_eq_some_iff.1 hv
    obtain ⟨hdepth, hitems⟩ := Bool.and_eq_true_iff.1 hsound
    have hle := heightOfAll_toJsons_le items hitems hvs
    have hpos : depth ≠ 0 := bne_iff_ne.1 hdepth
    rw [toJson, Json.height]
    omega
  | .object _, _, _, _, hv => by cases hv

theorem heightOfAll_toJsons_le : (js : List Json) → {depth : Nat} → {vs : List Value} →
    Json.areSound depth js = true → ofJsons? js = some vs →
    Json.heightOfAll (toJsons vs) ≤ depth
  | [], _, _, _, hvs => by
    cases hvs
    exact Nat.zero_le _
  | j :: js, _, _, hsound, hvs => by
    simp only [ofJsons?, Option.bind_eq_bind, Option.bind_eq_some_iff, Option.some.injEq] at hvs
    obtain ⟨v, hv, vs, hvs, rfl⟩ := hvs
    obtain ⟨hj, hjs⟩ := Bool.and_eq_true_iff.1 hsound
    exact Nat.max_le.2 ⟨height_toJson_le j hj hv, heightOfAll_toJsons_le js hjs hvs⟩

end

variable {depth limit : Nat} {v : Value}

/-- A value that was read is read back where as many levels may be nested. -/
theorem ReadWithin.reread (h : v.ReadWithin depth) (hlimit : depth ≤ limit) :
    (v.toJson.reread.sound? limit).bind ofJson? = some v := by
  obtain ⟨hfinite, hundated⟩ := h.plain
  obtain ⟨j, hsound, hread⟩ := h
  have hheight := (height_toJson_le j hsound hread).trans hlimit
  rw [Json.sound?_bind_eq_some_iff, ofJson?_toJson v hfinite, hundated]
  exact ⟨Json.isSound_reread _ (readable_toJson v hfinite) limit hheight, rfl⟩

end Value

namespace Json

variable {α : Type} {xs : List α} {write : α → Json} {item : Json → Option α}

theorem allReadable_map (h : ∀ x ∈ xs, (write x).Readable) : AllReadable (xs.map write) := by
  induction xs with
  | nil => trivial
  | cons x xs ih =>
    obtain ⟨hx, hxs⟩ := List.forall_mem_cons.1 h
    exact ⟨hx, ih hxs⟩

/-- A list is read back if its items are. -/
theorem listOf?_array_map (h : ∀ x ∈ xs, item (write x).reread = some x) :
    listOf? item (array (xs.map write)).reread = some xs := by
  show (rereadAll (xs.map write)).mapM item = some xs
  induction xs with
  | nil => rfl
  | cons x xs ih =>
    obtain ⟨hx, hxs⟩ := List.forall_mem_cons.1 h
    simp [rereadAll, List.mapM_cons, hx, ih hxs]

theorem reread_presentMember (name : String) (a : Option α) :
    (presentMember name write a).map (fun m => (m.1, m.2.reread)) =
      presentMember name (fun x => (write x).reread) a := by
  cases a <;> rfl

end Json

namespace Record

variable {α : Type} {r : Record} {name : String} {read : Json → Option α} {a : Option α}

theorem get?_append (ms ms' : Record) (name : String) :
    get? (ms ++ ms') name = (get? ms name).or (get? ms' name) :=
  List.lookup_append

theorem get?_presentMember (key name : String) (write : α → Json) (a : Option α) :
    get? (presentMember key write a) name = if name = key then a.map write else none := by
  cases a with
  | none => simp [presentMember, get?_nil]
  | some x => simp [presentMember, get?_cons, get?_nil]

/-- A member that is left out when it is absent is read back. -/
theorem nullable_of_get? {write : α → Json} (hget : r.get? name = a.map write)
    (hread : ∀ x, a = some x → (write x).isNull = false ∧ read (write x) = some x) :
    r.nullable name read = some a := by
  cases a with
  | none =>
    rw [nullable, hget]
    rfl
  | some x =>
    obtain ⟨hnull, hx⟩ := hread x rfl
    simp [nullable, hget, hnull, hx]

end Record

theorem FieldType.ofJson?_toJson (t : FieldType) : ofJson? t.toJson = some t := by
  have hword : (Json.ofString t.word).asWord? = some t.word := Json.toString?_ofString t.word
  rw [toJson, ofJson?, hword, Option.map_some, ofWord_word]

/-- A word that is none of the types is read as the type that is known only to others. -/
theorem FieldType.ofJson?_unknown {j : Json} {w : String} (hword : j.asWord? = some w)
    (h : ∀ t : FieldType, t.word ≠ w) : ofJson? j = some .other := by
  have hfind : all.find? (·.word == w) = none :=
    List.find?_eq_none.2 fun t _ => by simpa using h t
  rw [ofJson?, hword, Option.map_some, ofWord, hfind, Option.getD_none]

namespace FieldOption

variable {depth limit : Nat} {o : FieldOption}

theorem readable_toJson (h : o.value.ReadWithin depth) : o.toJson.Readable := by
  refine Json.readable_record fun m hm => ?_
  simp only [List.mem_cons, List.not_mem_nil, or_false] at hm
  obtain rfl | rfl := hm
  · exact Json.readable_ofString _
  · exact Value.readable_toJson _ h.plain.finite

theorem ofJson?_toJson (h : o.value.ReadWithin depth) (hlimit : depth ≤ limit) :
    ofJson? limit o.toJson.reread = some o := by
  have hvalue := h.reread hlimit
  obtain ⟨name, value⟩ := o
  rw [toJson, Json.reread_record]
  simp [ofJson?, Record.ofJson?_record, Record.required, Record.get?_cons, hvalue]

end FieldOption

namespace FieldSpec

variable {depth limit : Nat} {f : FieldSpec}

theorem ReadWithin.option (h : f.ReadWithin depth) {os : List FieldOption}
    (hos : f.options = some os) : ∀ o ∈ os, o.value.ReadWithin (depth - 3) :=
  fun o ho => h.offered _ (List.mem_map.2 ⟨o, by simpa [hos] using ho, rfl⟩)

theorem ReadWithin.readable_toJson (h : f.ReadWithin depth) : f.toJson.Readable := by
  refine Json.readable_record fun m hm => ?_
  simp only [presentMember, List.mem_append, List.mem_cons, List.not_mem_nil, or_false,
    Option.mem_toList, Option.map_eq_some_iff] at hm
  obtain (((((rfl | rfl) | ⟨ops, _, rfl⟩) | ⟨os, hos, rfl⟩) | rfl) | ⟨entity, _, rfl⟩) |
    ⟨v, hv, rfl⟩ := hm
  · exact Json.readable_ofString _
  · exact Json.readable_ofString _
  · exact Json.allReadable_map fun op _ => Json.readable_ofString op
  · exact Json.allReadable_map fun o ho => FieldOption.readable_toJson (h.option hos o ho)
  · trivial
  · exact Json.readable_ofString _
  · exact Value.readable_toJson v (h.default v hv).plain.finite

/-- The members of a field, as they are read back. -/
def rereadMembers (f : FieldSpec) : Record :=
  [("name", .ofString f.name), ("type", f.type.toJson)] ++
    presentMember "operators" (fun ops => (Json.array (ops.map Json.ofString)).reread) f.operators ++
    presentMember "options" (fun os => (Json.array (os.map FieldOption.toJson)).reread) f.options ++
    [("nullable", .bool f.nullable)] ++
    presentMember "entity" Json.ofString f.entity ++
    presentMember "defaultValue" (fun v => v.toJson.reread) f.defaultValue

theorem reread_toJson (f : FieldSpec) : f.toJson.reread = Json.record f.rereadMembers := by
  rw [toJson, Json.reread_record]
  simp only [List.map_append, Json.reread_presentMember]
  rfl

theorem ofJson?_rereadMembers (f : FieldSpec) : Record.ofJson?
    ["name", "type", "operators", "options", "nullable", "entity", "defaultValue"]
    (Json.record f.rereadMembers) = some f.rereadMembers := by
  obtain ⟨name, type, operators, options, nullable, entity, default⟩ := f
  refine Record.ofJson?_record ?_ ?_
  · cases operators <;> cases options <;> cases entity <;> cases default <;>
      simp [rereadMembers, presentMember]
  · cases operators <;> cases options <;> cases entity <;> cases default <;>
      simp [rereadMembers, presentMember]

theorem get?_rereadMembers (f : FieldSpec) :
    f.rereadMembers.get? "name" = some (.ofString f.name) ∧
    f.rereadMembers.get? "type" = some f.type.toJson ∧
    f.rereadMembers.get? "operators" =
      f.operators.map (fun ops => (Json.array (ops.map Json.ofString)).reread) ∧
    f.rereadMembers.get? "options" =
      f.options.map (fun os => (Json.array (os.map FieldOption.toJson)).reread) ∧
    f.rereadMembers.get? "nullable" = some (.bool f.nullable) ∧
    f.rereadMembers.get? "entity" = f.entity.map Json.ofString ∧
    f.rereadMembers.get? "defaultValue" = f.defaultValue.map (fun v => v.toJson.reread) := by
  simp [rereadMembers, Record.get?_append, Record.get?_presentMember, Record.get?_cons]

/-- A field is read back as itself where its values may have as many levels as before. -/
theorem ReadWithin.ofJson?_toJson (h : f.ReadWithin depth) (hlimit : depth ≤ limit) :
    ofJson? limit f.toJson.reread = some f := by
  -- Member by member: what is written for it is read by its own reader.
  obtain ⟨hname, htype, hoperators, hoptions, hnullable, hentity, hdefault⟩ := f.get?_rereadMembers
  have hoperators : f.rereadMembers.nullable "operators" (Json.listOf? Json.asString?) =
      some f.operators :=
    Record.nullable_of_get? hoperators fun ops _ =>
      ⟨rfl, Json.listOf?_array_map fun op _ => Json.asString?_ofString op⟩
  have hoptions : f.rereadMembers.nullable "options"
      (Json.listOf? (FieldOption.ofJson? (limit - 3))) = some f.options :=
    Record.nullable_of_get? hoptions fun os hos => ⟨rfl, Json.listOf?_array_map fun o ho =>
      FieldOption.ofJson?_toJson (h.option hos o ho) (by omega)⟩
  have hentity : f.rereadMembers.nullable "entity" Json.asString? = some f.entity :=
    Record.nullable_of_get? hentity fun e _ => ⟨rfl, Json.asString?_ofString e⟩
  have hdefault : f.rereadMembers.nullable "defaultValue"
      (fun v => (v.sound? (limit - 1)).bind Value.ofJson?) = some f.defaultValue :=
    Record.nullable_of_get? hdefault fun v hv =>
      ⟨Value.isNull_toJson (h.default v hv).plain.finite, (h.default v hv).reread (by omega)⟩
  simp [reread_toJson, ofJson?, ofJson?_rereadMembers, Record.optional, hname, htype, hnullable,
    hoperators, hoptions, hentity, hdefault, FieldType.ofJson?_toJson, Json.asBool?]

/-- A field that was declared in a document is read back from its text. -/
theorem ReadWithin.ofJsonText?_reread (h : f.ReadWithin depth) (hdepth : depth ≤ Json.maxDepth) :
    ofJsonText? f.toJsonText = some f := by
  have hread : Json.read? f.toJsonText.toList = some f.toJson.reread := by
    rw [toJsonText, String.toList_ofList]
    exact Json.read?_text h.readable_toJson
  rw [ofJsonText?, hread, Option.bind_some, h.ofJson?_toJson hdepth]

end FieldSpec

namespace Config

/-- Each field of a configuration that was read is read back from its own text as what it is, has no
hooks, and so is written by that text again. The type of the field is `other` if the document gives
it by a word that is none of the types. -/
theorem field_reread {c : Config} {text name : String} {f : Field} (h : ofJsonText? text = some c)
    (hf : c.fields.get? name = some f) :
    (∃ g, FieldSpec.ofJsonText? f.toJsonText = some g ∧ f = { toFieldSpec := g } ∧
      g.toJsonText = f.toJsonText) ∧
    ∀ j w, j.asWord? = some w → (∀ t : FieldType, t.word ≠ w) →
      FieldType.ofJson? j = some .other := by
  obtain ⟨j, spec, hspec, rfl⟩ := exists_spec_of_ofJsonText? h hf
  have hread := (FieldSpec.readWithin_of_ofJson? hspec).ofJsonText?_reread (by decide)
  exact ⟨⟨spec, hread, rfl, rfl⟩, fun j w => FieldType.ofJson?_unknown⟩

/-- A field of an unknown type, with an empty list of operators. -/
theorem field_reread_zodiac :
    let options : Json := .array [.record
      [("name", .ofString "fire"), ("value", .array [.ofString "leo", .bool true])]]
    let sign : Json := .record [("type", .ofString "zodiac"), ("operators", .array []),
      ("options", options), ("entity", .null), ("defaultValue", .ofString "leo")]
    let document : Json := .record [("fields", .record [("sign", sign)])]
    ∃ c f, ofJsonText? (String.ofList document.text) = some c ∧ c.fields.get? "sign" = some f ∧
      f.type = .other ∧ f.operators = some [] ∧ f.entity = none ∧
      ∃ g, FieldSpec.ofJsonText? f.toJsonText = some g ∧ f = { toFieldSpec := g } ∧
        g.toJsonText = f.toJsonText := by
  intro options sign document
  have hoptions : options.Readable :=
    ⟨Json.readable_record (by simp [Json.Readable, Json.AllReadable]), trivial⟩
  have hreadable : document.Readable := by
    refine Json.readable_record (List.forall_mem_singleton.2 ?_)
    refine Json.readable_record (List.forall_mem_singleton.2 ?_)
    exact Json.readable_record (by simp [hoptions, Json.Readable, Json.AllReadable])
  let f : Field :=
    { type := .other, operators := some []
      options := some [⟨"fire", .list [.string "leo", .bool true]⟩]
      defaultValue := some (.string "leo") }
  have hc : ofJsonText? (String.ofList document.text) = some { fields := [("sign", f)] } := by
    rw [ofJsonText?, String.toList_ofList, Json.read?_text hreadable, Option.bind_some]
    rfl
  have hf : Table.get? [("sign", f)] "sign" = some f := rfl
  exact ⟨_, f, hc, hf, rfl, rfl, rfl, (field_reread hc hf).1⟩

end Config

end BoolQuery
