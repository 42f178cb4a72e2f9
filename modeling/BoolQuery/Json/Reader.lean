import BoolQuery.Json.Basic
import BoolQuery.Text.Digits

/-! Reading JSON documents by the grammar of RFC 8259. Every reader takes what it reads
off the start of a text and also gives what follows. -/

namespace BoolQuery.Json
open Text Numeric

def isSpace (c : Char) : Bool := c == ' ' || c == '\n' || c == '\t' || c == '\r'

def skipSpace (cs : List Char) : List Char := cs.dropWhile isSpace

/-- The character of an escape of two characters, if there is such an escape. -/
def unescape? (c : Char) : Option Char :=
  match c with
  | '"' => some '"'
  | '\\' => some '\\'
  | '/' => some '/'
  | 'b' => some '\x08'
  | 'f' => some '\x0c'
  | 'n' => some '\n'
  | 'r' => some '\r'
  | 't' => some '\t'
  | _ => none

/-- An escaped code unit: a character by itself, or half of one. -/
def letterOfUnit (n : Nat) : Letter :=
  if isSurrogate n then .half n else .char (Char.ofNat n)

def consLetter (l : Letter) (read : Option (Letters × List Char)) :
    Option (Letters × List Char) :=
  read.map fun (ls, rest) => (l :: ls, rest)

/-- The places of a string whose opening quote is gone, halves not yet paired. -/
def readLetters : List Char → Option (Letters × List Char)
  | [] => none
  | c :: cs =>
    if c == '"' then some ([], cs)
    else if c == '\\' then
      match cs with
      | [] => none
      | e :: rest =>
        if e == 'u' then
          match rest with
          | h₁ :: h₂ :: h₃ :: h₄ :: after =>
            match hexUnit? h₁ h₂ h₃ h₄ with
            | some n => consLetter (letterOfUnit n) (readLetters after)
            | none => none
          | _ => none
        else
          match unescape? e with
          | some d => consLetter (.char d) (readLetters rest)
          | none => none
    else if c.toNat < 0x20 then none
    else consLetter (.char c) (readLetters cs)

/-- Halves that follow each other in the right order are one character. -/
def pairHalves : Letters → Letters
  | [] => []
  | .half high :: ls =>
    match ls with
    | .half low :: rest =>
      if isHighSurrogate high && isLowSurrogate low then
        .char (Char.ofNat (pairCodePoint high low)) :: pairHalves rest
      else .half high :: pairHalves (.half low :: rest)
    | rest => .half high :: pairHalves rest
  | .char c :: ls => .char c :: pairHalves ls

/-- The rest of a string behind its opening quote. -/
def readString (cs : List Char) : Option (Letters × List Char) :=
  (readLetters cs).map fun (ls, rest) => (pairHalves ls, rest)

/-- The digits before the point; only a zero on its own starts with a zero. -/
def readWhole (cs : List Char) : Option (List Char × List Char) :=
  let (ds, rest) := spanDigits cs
  match ds with
  | [] => none
  | ['0'] => some (ds, rest)
  | '0' :: _ => none
  | _ => some (ds, rest)

/-- The digits behind a point; after a point there must be one. -/
def readFraction : List Char → Option (List Char × List Char)
  | '.' :: cs =>
    let (ds, rest) := spanDigits cs
    if ds.isEmpty then none else some (ds, rest)
  | cs => some ([], cs)

def readUnsigned (cs : List Char) : Option (Decimal × List Char) := do
  let (whole, cs) ← readWhole cs
  let (fraction, cs) ← readFraction cs
  let (power, cs) ← Decimal.spanExponent? cs
  some (Decimal.ofParts whole fraction power, cs)

def readNumber (cs : List Char) : Option (Json × List Char) :=
  match cs with
  | '-' :: rest => (readUnsigned rest).map fun (d, after) => (number true d, after)
  | _ => (readUnsigned cs).map fun (d, after) => (number false d, after)

/-- The literal names, with what they stand for. -/
def names : List (List Char × Json) :=
  [("null".toList, null), ("true".toList, bool true), ("false".toList, bool false)]

def readName (cs : List Char) : Option (Json × List Char) :=
  names.findSome? fun (name, j) =>
    if name.isPrefixOf cs then some (j, cs.drop name.length) else none

mutual

/-- A document at the start of a text. Every step down costs one of `steps`, of which two
for each character are enough. -/
def readValue : (steps : Nat) → List Char → Option (Json × List Char)
  | 0, _ => none
  | steps + 1, cs =>
    match skipSpace cs with
    | '"' :: rest => (readString rest).map fun (ls, after) => (string ls, after)
    | '[' :: rest =>
      match skipSpace rest with
      | ']' :: after => some (array [], after)
      | _ => (readItems steps rest).map fun (js, after) => (array js, after)
    | '\x7b' :: rest =>
      match skipSpace rest with
      | '\x7d' :: after => some (object [], after)
      | _ => (readMembers steps rest).map fun (ms, after) => (object ms, after)
    | rest => (readNumber rest).or (readName rest)

/-- One or more items of an array, with the bracket that closes it. -/
def readItems : (steps : Nat) → List Char → Option (List Json × List Char)
  | 0, _ => none
  | steps + 1, cs => do
    let (j, afterItem) ← readValue steps cs
    match skipSpace afterItem with
    | ']' :: rest => some ([j], rest)
    | ',' :: rest => (readItems steps rest).map fun (js, after) => (j :: js, after)
    | _ => none

/-- One or more members of an object, with the brace that closes it. -/
def readMembers : (steps : Nat) → List Char → Option (List (Letters × Json) × List Char)
  | 0, _ => none
  | steps + 1, cs =>
    match skipSpace cs with
    | '"' :: rest => do
      let (key, afterKey) ← readString rest
      match skipSpace afterKey with
      | ':' :: rest => do
        let (j, afterMember) ← readValue steps rest
        match skipSpace afterMember with
        | '\x7d' :: rest => some ([(key, j)], rest)
        | ',' :: rest => (readMembers steps rest).map fun (ms, after) => ((key, j) :: ms, after)
        | _ => none
      | _ => none
    | _ => none

end

/-- Reads a whole text as a document; blanks may stand around it. -/
def read? (cs : List Char) : Option Json := do
  let (j, rest) ← readValue (2 * cs.length + 1) cs
  if (skipSpace rest).isEmpty then some j else none

end BoolQuery.Json
