import BoolQuery.Event

/-! Results with a log. Steps are run in order and their events are kept in that order. -/

namespace BoolQuery

structure Logged (α : Type) where
  value : α
  log : List Event := []

namespace Logged

variable {α β : Type}

def ofEvent (e : Event) : Logged Unit := ⟨(), [e]⟩

def andThen (x : Logged α) (f : α → Logged β) : Logged β :=
  ⟨(f x.value).value, x.log ++ (f x.value).log⟩

instance : Monad Logged where
  pure a := ⟨a, []⟩
  bind := andThen

@[simp] theorem value_pure (a : α) : (pure a : Logged α).value = a := rfl

@[simp] theorem log_pure (a : α) : (pure a : Logged α).log = [] := rfl

@[simp] theorem value_bind (x : Logged α) (f : α → Logged β) :
    (x >>= f).value = (f x.value).value := rfl

@[simp] theorem log_bind (x : Logged α) (f : α → Logged β) :
    (x >>= f).log = x.log ++ (f x.value).log := rfl

end Logged

/-- What a hook comes to: an answer, or the text of its failure. A hook may report events
of its own. -/
abbrev Hook (α : Type) := Logged (Except String α)

namespace Hook

variable {α : Type}

def answer (a : α) : Hook α := ⟨.ok a, []⟩

def refuse (error : String) : Hook α := ⟨.error error, []⟩

/-- The hook, after a report of its call. -/
def announced (message : String) (details : List (String × String)) (h : Hook α) : Hook α :=
  ⟨h.value, .report message details :: h.log⟩

end Hook

end BoolQuery
