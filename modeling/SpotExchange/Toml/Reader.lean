import SpotExchange.Toml.Scalar

/-!
Reading TOML, version 0.5, as the tree of a JSON value. Arrays hold values of any
kinds. A key may repeat in the tree; it is for the reader of a record to refuse
that. Dates and floating-point numbers have no value in the tree.
-/

namespace SpotExchange.Toml

/-- A value. Tables that dotted keys make can grow, those in braces cannot. -/
inductive Value where
  | string (value : String)
  | integer (value : Int)
  | float
  | bool (value : Bool)
  | date
  | array (items : List Value)
  | table (grows : Bool) (entries : List (String × Value))

def isSpace (c : Char) : Bool := c = ' ' || c = '\t'

def skipSpace (text : List Char) : List Char := text.dropWhile isSpace

def skipComment : List Char → List Char
  | '#' :: rest => rest.dropWhile isCommentChar
  | text => text

def skipTrivia (inComment : Bool) : List Char → List Char
  | [] => []
  | c :: rest =>
    if inComment then
      if isCommentChar c then skipTrivia true rest
      else if c = '\n' then skipTrivia false rest
      else c :: rest
    else if isSpace c || c = '\n' then skipTrivia false rest
    else if c = '#' then skipTrivia true rest
    else c :: rest

def endLine? (text : List Char) : Option (List Char) :=
  match skipComment (skipSpace text) with
  | [] => some []
  | '\n' :: rest => some rest
  | _ => none

def readKeyPart? (text : List Char) : Option (String × List Char) :=
  match takeWord? text with
  | some (word, rest) => some (String.ofList word, rest)
  | none => do
    let (multiline, key, rest) ← readString? text
    if multiline then none else return (key, rest)

def readKeyRest? : Nat → List Char → Option (List String × List Char)
  | 0, _ => none
  | fuel + 1, text =>
    match skipSpace text with
    | '.' :: rest => do
      let (part, rest) ← readKeyPart? (skipSpace rest)
      let (parts, rest) ← readKeyRest? fuel rest
      return (part :: parts, rest)
    | rest => some ([], rest)

def readKey? (text : List Char) : Option (List String × List Char) := do
  let (part, rest) ← readKeyPart? text
  let (parts, rest) ← readKeyRest? (text.length + 1) rest
  return (part :: parts, rest)

/-- Adds a value under a key of several parts; those in front name tables that
other dotted keys may have made. -/
def addEntry (value : Value) : List String → List (String × Value) → Option (List (String × Value))
  | [], _ => none
  | [name], entries => some (entries ++ [(name, value)])
  | name :: path, entries =>
    match entries.find? fun entry => entry.1 = name with
    | some (_, .table true inner) => do
      let inner ← addEntry value path inner
      let index := entries.findIdx fun entry => entry.1 = name
      return entries.set index (name, .table true inner)
    | some _ => none
    | none => do
      return entries ++ [(name, .table true (← addEntry value path []))]

def readNumber? (word rest : List Char) : Option (Value × List Char) :=
  match word with
  | '0' :: 'x' :: digits => (integer? ⟨16, false, true⟩ digits).map fun n => (.integer n, rest)
  | '0' :: 'o' :: digits => (integer? ⟨8, false, true⟩ digits).map fun n => (.integer n, rest)
  | '0' :: 'b' :: digits => (integer? ⟨2, false, true⟩ digits).map fun n => (.integer n, rest)
  | _ =>
    if 'e' ∈ word ∨ 'E' ∈ word then (float? word none rest).map fun rest => (.float, rest)
    else
      match rest with
      | '.' :: rest => do
        let (fraction, rest) ← takeWord? rest
        let rest ← float? word (some fraction) rest
        return (.float, rest)
      | _ =>
        if word ∈ [['i', 'n', 'f'], ['-', 'i', 'n', 'f'], ['n', 'a', 'n'],
            ['-', 'n', 'a', 'n']] then
          some (.float, rest)
        else (integer? ⟨10, true, false⟩ word).map fun n => (.integer n, rest)

def readWord? (word rest : List Char) : Option (Value × List Char) :=
  if word = ['t', 'r', 'u', 'e'] then some (.bool true, rest)
  else if word = ['f', 'a', 'l', 's', 'e'] then some (.bool false, rest)
  else
    match word with
    | [] => none
    | first :: others =>
      if first = '-' || (digitValue? first).isSome || word = ['i', 'n', 'f'] ||
          word = ['n', 'a', 'n'] then
        if 'T' ∈ word ∨ 't' ∈ word ∨ ('-' ∈ others ∧ !hasNegativeExponent word) then
          (skipDate? rest).map fun rest => (.date, rest)
        else
          match rest with
          | ':' :: clock => (skipClock? clock).map fun rest => (.date, rest)
          | _ => readNumber? word rest
      else none

mutual

/-- Reads a value. Every step takes a character or goes from a list to its next
entry, so twice as much fuel as there are characters is enough. -/
def readValue? : Nat → List Char → Option (Value × List Char)
  | 0, _ => none
  | fuel + 1, text =>
    match text with
    | '[' :: rest => readItems? fuel rest
    | '{' :: rest =>
      match skipSpace rest with
      | '}' :: rest => some (.table false [], rest)
      | rest => readEntries? fuel [] rest
    | '+' :: rest => do
      let (word, rest) ← takeWord? rest
      readNumber? word rest
    | _ =>
      match takeWord? text with
      | some (word, rest) => readWord? word rest
      | none => do
        let (_, value, rest) ← readString? text
        return (.string value, rest)

def readItems? : Nat → List Char → Option (Value × List Char)
  | 0, _ => none
  | fuel + 1, text =>
    match skipTrivia false text with
    | ']' :: rest => some (.array [], rest)
    | text => do
      let (item, rest) ← readValue? fuel text
      match skipTrivia false rest with
      | ',' :: rest => do
        match ← readItems? fuel rest with
        | (.array items, rest) => return (.array (item :: items), rest)
        | _ => none
      | ']' :: rest => return (.array [item], rest)
      | _ => none

def readEntries? : Nat → List (String × Value) → List Char → Option (Value × List Char)
  | 0, _, _ => none
  | fuel + 1, entries, text => do
    let (key, rest) ← readKey? text
    match rest with
    | '=' :: rest => do
      let (value, rest) ← readValue? fuel (skipSpace rest)
      let entries ← addEntry value key entries
      match skipSpace rest with
      | '}' :: rest => return (.table false entries, rest)
      | ',' :: rest => readEntries? fuel entries (skipSpace rest)
      | _ => none
    | _ => none

end

mutual

/-- The value as JSON. A table in braces whose one entry is an empty table in
braces is how TOML writes a choice, as JSON writes it with null. -/
def Value.toJson : Value → Json
  | .string value => .string value
  | .integer value =>
    if 0 ≤ value then .number (.natural value.natAbs) else .number (.negative value.natAbs)
  | .float => .unreadable
  | .bool value => .bool value
  | .date => .unreadable
  | .array items => .array (itemsToJson items)
  | .table false [(name, .table false [])] => .object [(name, .null)]
  | .table _ entries => .object (entriesToJson entries)

def itemsToJson : List Value → List Json
  | [] => []
  | item :: rest => item.toJson :: itemsToJson rest

def entriesToJson : List (String × Value) → List (String × Json)
  | [] => []
  | (key, value) :: rest => (key, value.toJson) :: entriesToJson rest

end

end SpotExchange.Toml
