import BoolQuery.Logged

/-! Checks: computations that accept or end in a single rejection. What follows a
rejection is not run, so no hook is asked about a query that is refused already. -/

namespace BoolQuery

/-- The reason for a refusal, or nothing. -/
abbrev Check := Logged (Option Rejection)

namespace Check

def accept : Check := pure none

def reject (reason : Rejection) : Check := pure (some reason)

def require (ok : Bool) (reason : Rejection) : Check := if ok then accept else reject reason

/-- The second check, if the first one accepts. -/
def thenCheck (first : Check) (second : Unit → Check) : Check :=
  first >>= fun
    | none => second ()
    | some reason => reject reason

/-- The verdict of a check. A rejection is reported once, after everything else. -/
def verdict (c : Check) : Logged Bool :=
  c >>= fun
    | none => pure true
    | some reason => do
      Logged.ofEvent (.rejected reason)
      pure false

@[simp] theorem value_verdict (c : Check) : c.verdict.value = c.value.isNone := by
  unfold verdict
  cases h : c.value <;> simp [h]

theorem log_verdict (c : Check) :
    c.verdict.log = c.log ++ (c.value.map Event.rejected).toList := by
  unfold verdict
  cases h : c.value <;> simp [h, Logged.ofEvent]

end Check

end BoolQuery
