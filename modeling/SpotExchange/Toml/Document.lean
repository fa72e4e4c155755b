import SpotExchange.Toml.Reader

/-!
TOML documents: lines of keys with values, under the headers of the tables they
belong to, put together into one tree.
-/

namespace SpotExchange.Toml

inductive Line where
  | header (repeated : Bool) (path : List String)
  | entry (path : List String) (value : Value)

def readHeader? (text : List Char) : Option (Line × List Char) := do
  let (repeated, text) := match text with
    | '[' :: rest => (true, rest)
    | rest => (false, rest)
  let (path, rest) ← readKey? (skipSpace text)
  match repeated, rest with
  | true, ']' :: ']' :: rest => return (.header true path, rest)
  | false, ']' :: rest => return (.header false path, rest)
  | _, _ => none

def readEntry? (text : List Char) : Option (Line × List Char) := do
  let (path, rest) ← readKey? text
  match rest with
  | '=' :: rest => do
    let (value, rest) ← readValue? (2 * rest.length + 2) (skipSpace rest)
    return (.entry path value, rest)
  | _ => none

/-- Reads all lines. Every line takes a character, so as much fuel as there are
characters is enough. -/
def readLines? : Nat → List Char → Option (List Line)
  | 0, _ => none
  | fuel + 1, text =>
    match skipTrivia false text with
    | [] => some []
    | '[' :: rest => do
      let (line, rest) ← readHeader? rest
      return line :: (← readLines? fuel (← endLine? rest))
    | text => do
      let (line, rest) ← readEntry? text
      return line :: (← readLines? fuel (← endLine? rest))

structure Section where
  repeated : Bool
  path : List String
  entries : List (List String × Value)

def divide : List Line → List (List String × Value) × List Section
  | [] => ([], [])
  | .entry path value :: rest =>
    let (entries, sections) := divide rest
    ((path, value) :: entries, sections)
  | .header repeated path :: rest =>
    let (entries, sections) := divide rest
    ([], ⟨repeated, path, entries⟩ :: sections)

/-- A table with the tables that headers put into it. A header names a table once;
one that it only passes through can still be named later. -/
inductive Node where
  | table (named : Bool) (entries : List (String × Value)) (children : List (String × Node))
  | tables (nodes : List Node)

def place (name : String) (child : Node) : List (String × Node) → List (String × Node)
  | [] => [(name, child)]
  | (known, node) :: rest =>
    if known = name then (name, child) :: rest else (known, node) :: place name child rest

def nameTable (repeated : Bool) (entries : List (String × Value)) : Option Node → Option Node
  | none => some (if repeated then .tables [.table true entries []] else .table true entries [])
  | some (.tables nodes) =>
    if repeated then some (.tables (nodes ++ [.table true entries []])) else none
  | some (.table named _ children) =>
    if repeated || named then none else some (.table true entries children)

/-- Puts the entries of a section where its path leads. Through a list of tables
the path leads into the last. -/
def insert (repeated : Bool) (entries : List (String × Value)) :
    List String → List (String × Node) → Option (List (String × Node))
  | [], _ => none
  | [name], children =>
    (nameTable repeated entries (children.lookup name)).map fun node => place name node children
  | name :: path, children =>
    match children.lookup name with
    | none => do
      return place name (.table false [] (← insert repeated entries path [])) children
    | some (.table named own inner) => do
      return place name (.table named own (← insert repeated entries path inner)) children
    | some (.tables nodes) =>
      match nodes.getLast? with
      | some (.table named own inner) => do
        let last := Node.table named own (← insert repeated entries path inner)
        return place name (.tables (nodes.dropLast ++ [last])) children
      | _ => none

def collect (entries : List (List String × Value)) : Option (List (String × Value)) :=
  entries.foldlM (fun table (path, value) => addEntry value path table) []

mutual

def Node.toJson : Node → Json
  | .table _ entries children => .object (entriesToJson entries ++ childrenToJson children)
  | .tables nodes => .array (nodesToJson nodes)

def childrenToJson : List (String × Node) → List (String × Json)
  | [] => []
  | (key, node) :: rest => (key, node.toJson) :: childrenToJson rest

def nodesToJson : List Node → List Json
  | [] => []
  | node :: rest => node.toJson :: nodesToJson rest

end

def ofText? (text : String) : Option Json := do
  let chars := match text.toList with
    | '\ufeff' :: rest => rest
    | chars => chars
  let chars := foldLineEnds chars
  let (entries, sections) := divide (← readLines? (chars.length + 1) chars)
  let entries ← collect entries
  let children ← sections.foldlM (fun children part => do
    insert part.repeated (← collect part.entries) part.path children) []
  return (Node.table true entries children).toJson

end SpotExchange.Toml
