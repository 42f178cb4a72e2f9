/-! Tables from names to things, in which the latest entry under a name is the only one. -/

namespace BoolQuery

abbrev Table (α : Type) := List (String × α)

namespace Table

variable {α : Type}

def get? (t : Table α) (name : String) : Option α := t.lookup name

def erase (t : Table α) (name : String) : Table α := t.filter fun entry => entry.1 != name

def put (t : Table α) (name : String) (a : α) : Table α := (name, a) :: t.erase name

/-- The table of some entries, a later one replacing an earlier one of its name. -/
def ofEntries (entries : List (String × α)) : Table α :=
  entries.foldl (fun t entry => t.put entry.1 entry.2) []

end Table

end BoolQuery
