import BoolQuery.Proofs.Lists
import BoolQuery.Proofs.Wire.RoundTrip
import BoolQuery.Wire.Config

/-! What a configuration that was read from a document declares. JSON has no dates, a sound document
has no numbers but finite ones, and neither hooks nor stores can be written down. -/

namespace BoolQuery

namespace Table

variable {α : Type} {entries : List (String × α)} {name : String} {a : α}

/-- What a table of entries has under a name is one of the entries. -/
theorem mem_of_get?_ofEntries (h : (ofEntries entries).get? name = some a) :
    (name, a) ∈ entries := by
  have hsub : ∀ entry ∈ ofEntries entries, entry ∈ entries := by
    refine List.foldlRecOn (motive := fun t => ∀ entry ∈ t, entry ∈ entries) entries _ nofun ?_
    intro t ht entry hentry e he
    obtain rfl | he := List.mem_cons.1 he
    · exact hentry
    · exact ht e (List.mem_filter.1 he).1
  obtain ⟨before, after, hsplit, -⟩ := List.lookup_eq_some_iff.1 h
  exact hsub _ (hsplit ▸ List.mem_append_right before (List.mem_cons_self ..))

end Table

namespace Json

variable {α β : Type}

theorem exists_of_mem_listOf? {item : Json → Option α} {j : Json} {xs : List α}
    (h : listOf? item j = some xs) : ∀ x ∈ xs, ∃ k, item k = some x := by
  intro x hx
  cases j with
  | array items =>
    obtain ⟨k, -, hk⟩ := exists_of_mem_mapM h x hx
    exact ⟨k, hk⟩
  | _ => cases h

theorem exists_of_tableOf? {read : Json → Option α} {j : Json} {t : Table α} {name : String} {a : α}
    (h : tableOf? read j = some t) (ha : t.get? name = some a) : ∃ k, read k = some a := by
  simp only [tableOf?, Option.bind_eq_bind, Option.bind_eq_some_iff, Option.some.injEq] at h
  obtain ⟨members, -, entries, hentries, rfl⟩ := h
  obtain ⟨⟨key, k⟩, -, hk⟩ := exists_of_mem_mapM hentries _ (Table.mem_of_get?_ofEntries ha)
  obtain ⟨b, hb, heq⟩ := Option.map_eq_some_iff.1 hk
  obtain ⟨-, rfl⟩ := Prod.mk.inj heq
  exact ⟨k, hb⟩

theorem sound?_bind_eq_some_iff {read : Json → Option α} {depth : Nat} {j : Json} {a : α} :
    (j.sound? depth).bind read = some a ↔ j.isSound depth = true ∧ read j = some a := by
  unfold sound?
  split <;> simp_all

end Json

namespace Record

variable {α : Type} {r : Record} {name : String} {read : Json → Option α}

theorem exists_of_required {a : α} (h : r.required name read = some a) : ∃ j, read j = some a := by
  obtain ⟨j, -, hj⟩ := Option.bind_eq_some_iff.1 h
  exact ⟨j, hj⟩

theorem exists_of_nullable {a : α} (h : r.nullable name read = some (some a)) :
    ∃ j, read j = some a := by
  unfold nullable at h
  split at h
  · cases h
  · rename_i j _
    split at h
    · cases h
    · obtain ⟨b, hb, heq⟩ := Option.map_eq_some_iff.1 h
      exact ⟨j, hb.trans heq⟩

end Record

namespace Value

/-- A finite value without dates, as JSON has them. -/
structure Plain (v : Value) : Prop where
  finite : v.IsFinite
  undated : v.undated = v

mutual

/-- What a sound document states is plain. -/
theorem plain_of_ofJson? : (j : Json) → {depth : Nat} → {v : Value} → j.isSound depth = true →
    ofJson? j = some v → v.Plain
  | .null, _, _, _, hv => by cases hv
  | .bool _, _, _, _, hv => by
    cases hv
    exact ⟨trivial, rfl⟩
  | .number _ _, _, _, hsound, hv => by
    cases hv
    exact ⟨hsound, rfl⟩
  | .string _, _, _, _, hv => by
    obtain ⟨s, -, rfl⟩ := Option.map_eq_some_iff.1 hv
    exact ⟨trivial, rfl⟩
  | .array items, _, _, hsound, hv => by
    obtain ⟨vs, hvs, rfl⟩ := Option.map_eq_some_iff.1 hv
    obtain ⟨hfinite, hundated⟩ := plain_of_ofJsons? items (Bool.and_eq_true_iff.1 hsound).2 hvs
    exact ⟨hfinite, congrArg list hundated⟩
  | .object _, _, _, _, hv => by cases hv

theorem plain_of_ofJsons? : (js : List Json) → {depth : Nat} → {vs : List Value} →
    Json.areSound depth js = true → ofJsons? js = some vs → AllFinite vs ∧ undatedAll vs = vs
  | [], _, _, _, hvs => by
    cases hvs
    exact ⟨trivial, rfl⟩
  | j :: js, _, _, hsound, hvs => by
    simp only [ofJsons?, Option.bind_eq_bind, Option.bind_eq_some_iff, Option.some.injEq] at hvs
    obtain ⟨v, hv, vs, hvs, rfl⟩ := hvs
    obtain ⟨hj, hjs⟩ := Bool.and_eq_true_iff.1 hsound
    obtain ⟨hfinite, hundated⟩ := plain_of_ofJson? j hj hv
    obtain ⟨hfinites, hundateds⟩ := plain_of_ofJsons? js hjs hvs
    exact ⟨⟨hfinite, hfinites⟩, by rw [undatedAll, hundated, hundateds]⟩

end

end Value

namespace Value

/-- The value is read from a document, where `depth` more levels may be nested. -/
def ReadWithin (depth : Nat) (v : Value) : Prop :=
  ∃ j : Json, j.isSound depth = true ∧ ofJson? j = some v

theorem ReadWithin.plain {depth : Nat} {v : Value} (h : v.ReadWithin depth) : v.Plain := by
  obtain ⟨j, hsound, hread⟩ := h
  exact plain_of_ofJson? j hsound hread

end Value

/-- What can be declared of a field in a document. -/
structure Field.Declared (f : Field) : Prop where
  source : f.source = none
  validator : f.validator = none
  offered : ∀ v ∈ f.optionValues, v.Plain

theorem FieldOption.readWithin_of_ofJson? {depth : Nat} {j : Json} {o : FieldOption}
    (h : ofJson? depth j = some o) : o.value.ReadWithin depth := by
  simp only [ofJson?, Option.bind_eq_bind, Option.bind_eq_some_iff, Option.some.injEq] at h
  obtain ⟨r, -, name, -, v, hv, rfl⟩ := h
  obtain ⟨k, hk⟩ := Record.exists_of_required hv
  exact ⟨k, Json.sound?_bind_eq_some_iff.1 hk⟩

/-- The values of the field are read where the field itself may have `depth` levels. -/
structure FieldSpec.ReadWithin (depth : Nat) (f : FieldSpec) : Prop where
  offered : ∀ v ∈ f.optionValues, v.ReadWithin (depth - 3)
  default : ∀ v, f.defaultValue = some v → v.ReadWithin (depth - 1)

theorem FieldSpec.readWithin_of_ofJson? {depth : Nat} {j : Json} {f : FieldSpec}
    (h : ofJson? depth j = some f) : f.ReadWithin depth := by
  simp only [ofJson?, Option.bind_eq_bind, Option.bind_eq_some_iff, Option.some.injEq] at h
  obtain ⟨r, -, name, -, type, -, operators, -, options, hoptions, nullable, -, entity, -,
    default, hdefault, rfl⟩ := h
  refine ⟨fun v hv => ?_, fun v hv => ?_⟩
  · obtain ⟨o, ho, rfl⟩ := List.mem_map.1 hv
    cases options with
    | none => cases ho
    | some os =>
      obtain ⟨k, hk⟩ := Record.exists_of_nullable hoptions
      obtain ⟨k', hk'⟩ := Json.exists_of_mem_listOf? hk o ho
      exact FieldOption.readWithin_of_ofJson? hk'
  · obtain rfl : default = some v := hv
    obtain ⟨k, hk⟩ := Record.exists_of_nullable hdefault
    exact ⟨k, Json.sound?_bind_eq_some_iff.1 hk⟩

/-- A field of a configuration that was read is a field without hooks, as a document states it two
levels down. -/
theorem Config.exists_spec_of_ofJsonText? {c : Config} {text name : String} {f : Field}
    (h : ofJsonText? text = some c) (hf : c.fields.get? name = some f) :
    ∃ j spec, FieldSpec.ofJson? (Json.maxDepth - 2) j = some spec ∧ f = { toFieldSpec := spec } := by
  obtain ⟨j, -, hj⟩ := Option.bind_eq_some_iff.1 h
  simp only [ofJson?, Option.bind_eq_bind, Option.bind_eq_some_iff, Option.some.injEq] at hj
  obtain ⟨r, -, fields, hfields, entities, -, allowsEmpty, -, strict, -, rfl⟩ := hj
  obtain ⟨k, hk⟩ := Record.exists_of_required hfields
  obtain ⟨k', hk'⟩ := Json.exists_of_tableOf? hk hf
  obtain ⟨spec, hspec, rfl⟩ := Option.map_eq_some_iff.1 hk'
  exact ⟨k', spec, hspec, rfl⟩

/-- What can be declared of a configuration in a document. -/
structure Config.Declared (c : Config) : Prop where
  override : c.override = none
  store : c.store = none
  fields : ∀ {name f}, c.fields.get? name = some f → f.Declared

theorem Config.declared_of_ofJsonText? {c : Config} {text : String}
    (h : ofJsonText? text = some c) : c.Declared := by
  obtain ⟨hoverride, hstore⟩ : c.override = none ∧ c.store = none := by
    obtain ⟨j, -, hj⟩ := Option.bind_eq_some_iff.1 h
    simp only [ofJson?, Option.bind_eq_bind, Option.bind_eq_some_iff, Option.some.injEq] at hj
    obtain ⟨_, -, _, -, _, -, _, -, _, -, rfl⟩ := hj
    exact ⟨rfl, rfl⟩
  refine ⟨hoverride, hstore, fun hf => ?_⟩
  obtain ⟨_, spec, hspec, rfl⟩ := exists_spec_of_ofJsonText? h hf
  exact ⟨rfl, rfl, fun v hv => ((FieldSpec.readWithin_of_ofJson? hspec).offered v hv).plain⟩

end BoolQuery
