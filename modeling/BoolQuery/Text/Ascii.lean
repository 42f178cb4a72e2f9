/-! Letter case in ASCII. Operators, keywords and the names of rulesets are ASCII words,
so no other letter has a case here. -/

namespace BoolQuery.Text

def equalsIgnoringCase (s t : String) : Bool := s.toLower == t.toLower

/-- Whether every character of `s` passes `p`; true of the empty text. -/
def everyChar (p : Char → Bool) (s : String) : Bool := s.toList.all p

theorem equalsIgnoringCase_iff {s t : String} :
    equalsIgnoringCase s t = true ↔ s.toLower = t.toLower := by
  simp [equalsIgnoringCase]

end BoolQuery.Text
