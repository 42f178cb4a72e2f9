import BoolQuery.Session

/-! Runs of a session. A step fails only where a text cannot be read, and a step that fails
changes nothing: without it, a run has the same other answers and leads to the same session. A step
that succeeds changes the tree or how texts are read, never both, and the answers to a run tell
which tree it leads to. -/

namespace BoolQuery.Session

section Steps

variable {s next : Session} {step : Step} {answer : Answer} {failure : Failure}

theorem bind_eq_ok_iff {α : Type} {x : Except Failure α} {f : α → Outcome}
    {o : Session × Answer} : (x >>= f) = .ok o ↔ ∃ a, x = .ok a ∧ f a = .ok o := by
  cases x with
  | error e =>
    constructor
    · intro h
      cases h
    · intro ⟨_, h, _⟩
      cases h
  | ok a =>
    constructor
    · exact fun h => ⟨a, rfl, h⟩
    · intro ⟨_, h, hf⟩
      cases h
      exact hf

/-- What cannot fail once a text is read fails where the text is read. -/
theorem bind_eq_error_iff {α : Type} {x : Except Failure α} {f : α → Session × Answer} :
    (x >>= fun a => Except.ok (f a)) = .error failure ↔ x = .error failure := by
  constructor
  · intro h
    cases x <;> cases h
    rfl
  · intro h
    rw [h]
    rfl

theorem read_eq_error_iff {text : String} : s.read text = .error failure ↔
    ∃ e, (Query.parse s.config.toSchema text).value = .error e ∧ failure = .parse e := by
  unfold read
  cases (Query.parse s.config.toSchema text).value with
  | error e =>
    show Except.error (Failure.parse e) = .error failure ↔ _
    simp [eq_comm]
  | ok p =>
    show Except.ok p = .error failure ↔ _
    simp

theorem ofJsonResult_eq_error_iff {α : Type} {a : Option α} :
    ofJsonResult a = .error failure ↔ a = none ∧ failure = .json := by
  cases a with
  | none => simp [ofJsonResult, eq_comm]
  | some x => simp [ofJsonResult]

/-- The text that a step reads as a query, if it reads one. -/
def queryText? (s : Session) : Step → Option String
  | .define _ text => text
  | .parse text | .push text => some text
  | .reparse => some s.current.toQuery
  | _ => none

/-- Whether a step reads JSON that is not of the kind it asks for. -/
def Misreads (s : Session) : Step → Prop
  | .load text => Config.ofJsonText? text = none
  | .json => RuleSet.ofJsonText? s.current.toJsonText = none
  | _ => False

/-- A step fails exactly if it reads a text that is no query, or misreads its JSON. -/
theorem step_eq_error_iff : s.step step = .error failure ↔
    (∃ text e, s.queryText? step = some text ∧
      (Query.parse s.config.toSchema text).value = .error e ∧ failure = .parse e) ∨
    s.Misreads step ∧ failure = .json := by
  cases step with
  | load text | json =>
    simp only [Session.step, done, showing, bind_eq_error_iff, ofJsonResult_eq_error_iff,
      queryText?, Misreads, reduceCtorEq, false_and, exists_false, false_or]
  | parse text | push text | reparse =>
    simp only [Session.step, append, showing, bind_eq_error_iff, read_eq_error_iff, queryText?,
      Misreads, Option.some.injEq, exists_and_left, exists_eq_left', false_and, or_false]
  | define name text =>
    cases text with
    | none => simp [Session.step, done, queryText?, Misreads]
    | some text =>
      simp only [Session.step, done, bind_eq_error_iff, read_eq_error_iff, queryText?, Misreads,
        Option.some.injEq, exists_and_left, exists_eq_left', false_and, or_false]
  | _ => simp [Session.step, done, showing, append, queryText?, Misreads]

/-- What an answer tells of the session that a step leads to. -/
def Tells (s next : Session) : Answer → Prop
  | .done => next.current = s.current
  | .tree t => next = { s with current := t }
  | .parsed p => next = { s with current := p.tree }
  | .verdict _ | .text _ => next = s
  | .inspection t => next = s ∧ t = s.current

/-- A step that succeeds sets up how texts are read, replaces the tree by the one that it answers,
or changes nothing. -/
theorem tells_of_step (h : s.step step = .ok (next, answer)) : Tells s next answer := by
  cases step with
  | load | parse | push | reparse | json =>
    obtain ⟨_, _, h⟩ := bind_eq_ok_iff.1 h
    cases h
    rfl
  | define name text =>
    cases text with
    | none =>
      cases h
      rfl
    | some text =>
      obtain ⟨_, _, h⟩ := bind_eq_ok_iff.1 h
      cases h
      rfl
  | inspect =>
    cases h
    exact ⟨rfl, rfl⟩
  | _ =>
    cases h
    rfl

/-- The session after a step. -/
def after (s : Session) (step : Step) : Session :=
  match s.step step with
  | .ok (next, _) => next
  | .error _ => s

theorem after_of_ok (h : s.step step = .ok (next, answer)) : s.after step = next := by
  rw [after, h]

theorem after_of_error (h : s.step step = .error failure) : s.after step = s := by
  rw [after, h]

end Steps

section Runs

variable {s : Session}

/-- The session after some steps. -/
def reached (s : Session) (steps : List Step) : Session := steps.foldl after s

theorem reached_cons (s : Session) (step : Step) (steps : List Step) :
    s.reached (step :: steps) = (s.after step).reached steps := rfl

theorem run_cons (s : Session) (step : Step) (steps : List Step) :
    s.run (step :: steps) = (s.step step).map Prod.snd :: (s.after step).run steps := by
  rw [run, after]
  cases s.step step <;> rfl

/-- A run goes on from the session that its first steps lead to. -/
theorem run_append (s : Session) (before behind : List Step) :
    s.run (before ++ behind) = s.run before ++ (s.reached before).run behind := by
  induction before generalizing s with
  | nil => rfl
  | cons step before ih =>
    rw [List.cons_append, run_cons, run_cons, ih, List.cons_append, reached_cons]

/-- The steps of a run that succeed. -/
def succeeding (s : Session) : List Step → List Step
  | [] => []
  | step :: steps =>
    match s.step step with
    | .ok (next, _) => step :: next.succeeding steps
    | .error _ => s.succeeding steps

theorem succeeding_of_ok {next : Session} {step : Step} {answer : Answer}
    (h : s.step step = .ok (next, answer)) (steps : List Step) :
    s.succeeding (step :: steps) = step :: next.succeeding steps := by
  rw [succeeding, h]

theorem succeeding_of_error {step : Step} {failure : Failure}
    (h : s.step step = .error failure) (steps : List Step) :
    s.succeeding (step :: steps) = s.succeeding steps := by
  rw [succeeding, h]

/-- A step that fails changes nothing: a run without its failing steps leads to the same session,
and its answers are those of the others. -/
theorem run_succeeding (s : Session) (steps : List Step) :
    s.reached (s.succeeding steps) = s.reached steps ∧
      s.run (s.succeeding steps) = (s.run steps).filter Except.isOk := by
  induction steps generalizing s with
  | nil => exact ⟨rfl, rfl⟩
  | cons step steps ih =>
    cases h : s.step step with
    | error failure =>
      rw [succeeding_of_error h, reached_cons, run_cons, after_of_error h, h]
      exact ih s
    | ok o =>
      obtain ⟨next, answer⟩ := o
      rw [succeeding_of_ok h, reached_cons, reached_cons, run_cons, run_cons, after_of_ok h, h]
      exact ⟨(ih next).1, congrArg (.ok answer :: ·) (ih next).2⟩

/-- The tree behind an answer, which shows it or leaves it as it was. -/
def shown (t : RuleSet) : Except Failure Answer → RuleSet
  | .ok (.tree u) => u
  | .ok (.parsed p) => p.tree
  | _ => t

theorem current_after (s : Session) (step : Step) :
    (s.after step).current = shown s.current ((s.step step).map Prod.snd) := by
  cases h : s.step step with
  | error failure =>
    rw [after_of_error h]
    rfl
  | ok o =>
    obtain ⟨next, answer⟩ := o
    have htells := tells_of_step h
    rw [after_of_ok h]
    cases answer with
    | done => exact htells
    | tree | parsed | verdict | text => exact congrArg current htells
    | inspection => exact congrArg current htells.1

/-- The tree that a run leads to can be told from its answers. -/
theorem current_reached (s : Session) (steps : List Step) :
    (s.reached steps).current = (s.run steps).foldl shown s.current := by
  induction steps generalizing s with
  | nil => rfl
  | cons step steps ih => rw [reached_cons, run_cons, List.foldl_cons, ih, current_after]

end Runs

end BoolQuery.Session
