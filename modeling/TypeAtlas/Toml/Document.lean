import TypeAtlas.Toml.Scalar

/-! # TOML documents

A document is a list of statements: keys with values, and headers that open tables. What a statement
defines may not be defined again. Namespaces that a value closes are frozen, and those that a header
or a dotted key has opened cannot be opened by another header.
-/

namespace TypeAtlas.Toml

abbrev Fields := List (String × Datum)

abbrev Key := List String

/-! ## Keys -/

def isBare (c : Char) : Bool := c.isAlphanum || c == '-' || c == '_'

def readKeyPart? (cs : List Char) : Option (String × List Char) :=
  match cs with
  | '"' :: rest => readBasic? (rest.length + 1) [] rest
  | '\'' :: rest => readLiteral? [] rest
  | _ =>
    let name := cs.takeWhile isBare
    if name.isEmpty then none else some (String.ofList name, cs.dropWhile isBare)

/-- A key; the fuel bounds the number of its parts. -/
def readKey? : Nat → List Char → Option (Key × List Char)
  | 0, _ => none
  | fuel + 1, cs => do
    let (part, rest) ← readKeyPart? cs
    match skipSpace rest with
    | '.' :: more =>
      let (parts, rest) ← readKey? fuel (skipSpace more)
      return (part :: parts, rest)
    | rest => return ([part], rest)

/-! ## Tables -/

/-- The table with another value for a name. -/
def putField (fs : Fields) (name : String) (d : Datum) : Fields :=
  fs.map fun f => if f.1 = name then (name, d) else f

/-- Changes the table behind a key, which is made if there is none. A list of tables stands for its
last one where lists may be entered. -/
def within? (lists : Bool) (change : Fields → Option Fields) : Key → Fields → Option Fields
  | [], fs => change fs
  | name :: key, fs =>
    match Datum.field? fs name with
    | none => (within? lists change key []).map fun inner => fs ++ [(name, .record inner)]
    | some (.record inner) =>
      (within? lists change key inner).map fun inner => putField fs name (.record inner)
    | some (.list items) =>
      match lists, items.getLast? with
      | true, some (.record inner) =>
        (within? lists change key inner).map fun inner =>
          putField fs name (.list (items.dropLast ++ [.record inner]))
      | _, _ => none
    | some _ => none

def addField? (name : String) (d : Datum) (fs : Fields) : Option Fields :=
  match Datum.field? fs name with
  | none => some (fs ++ [(name, d)])
  | some _ => none

/-- Sets the value of a key that is not there. -/
def define? (lists : Bool) (key : Key) (d : Datum) (fs : Fields) : Option Fields := do
  within? lists (addField? (← key.getLast?) d) key.dropLast fs

/-- Adds an empty table to a list of tables. -/
def appendTable? (name : String) (fs : Fields) : Option Fields :=
  match Datum.field? fs name with
  | none => some (fs ++ [(name, .list [.record []])])
  | some (.list items) => some (putField fs name (.list (items ++ [.record []])))
  | some _ => none

/-! ## Marks on namespaces -/

inductive Mark where
  /-- Nothing may be added. -/
  | frozen
  /-- No header may open it. -/
  | opened
deriving DecidableEq, Repr

/-- Marks of keys; that of a frozen one holds for all below it. -/
abbrev Marks := List (Key × Mark)

def Marks.has (ms : Marks) (key : Key) (mark : Mark) : Bool :=
  ms.any fun m => m.2 = mark && (m.1 == key || (mark = .frozen && m.1.isPrefixOf key))

def isContainer : Datum → Bool
  | .list _ => true
  | .record _ => true
  | _ => false

/-! ## Values -/

/-- What follows a comment, if there is one; it may not hold control characters. -/
def skipComment? : List Char → Option (List Char)
  | '#' :: rest =>
    let (comment, rest) := (rest.takeWhile (· != '\n'), rest.dropWhile (· != '\n'))
    if comment.all isPlain then some rest else none
  | cs => some cs

def skipBlank? : Nat → List Char → Option (List Char)
  | 0, _ => none
  | fuel + 1, cs =>
    match cs.dropWhile isNewlineOrSpace with
    | '#' :: rest => do skipBlank? fuel (← skipComment? ('#' :: rest))
    | rest => some rest

mutual

/-- A value; the fuel bounds the number of steps. -/
def readValue? : Nat → List Char → Option (Datum × List Char)
  | 0, _ => none
  | fuel + 1, cs =>
    match cs with
    | 't' :: 'r' :: 'u' :: 'e' :: rest => some (.bool true, rest)
    | 'f' :: 'a' :: 'l' :: 's' :: 'e' :: rest => some (.bool false, rest)
    | '[' :: rest => do readItems? fuel [] (← skipBlank? (rest.length + 1) rest)
    | '\x7b' :: rest =>
      match skipSpace rest with
      | '\x7d' :: rest => some (.record [], rest)
      | rest => readPairs? fuel [] [] rest
    | '"' :: _ | '\'' :: _ => (readString? cs).map fun (s, rest) => (.text s, rest)
    | _ => readScalar cs

/-- The items of a list from the next one on; a comma may follow the last one. -/
def readItems? : Nat → List Datum → List Char → Option (Datum × List Char)
  | 0, _, _ => none
  | fuel + 1, items, cs =>
    match cs with
    | ']' :: rest => some (.list items.reverse, rest)
    | _ => do
      let (d, rest) ← readValue? fuel cs
      match ← skipBlank? (rest.length + 1) rest with
      | ']' :: rest => some (.list (d :: items).reverse, rest)
      | ',' :: rest => readItems? fuel (d :: items) (← skipBlank? (rest.length + 1) rest)
      | _ => none

/-- The pairs of a table on one line from the next one on, given the marks of those before. -/
def readPairs? : Nat → Marks → Fields → List Char → Option (Datum × List Char)
  | 0, _, _, _ => none
  | fuel + 1, marks, fs, cs => do
    let (key, d, rest) ← readPair? fuel cs
    if marks.has key .frozen then none
    let fs ← define? false key d fs
    match skipSpace rest with
    | '\x7d' :: rest => some (.record fs, rest)
    | ',' :: rest =>
      readPairs? fuel (if isContainer d then (key, .frozen) :: marks else marks) fs (skipSpace rest)
    | _ => none

def readPair? : Nat → List Char → Option (Key × Datum × List Char)
  | 0, _ => none
  | fuel + 1, cs => do
    let (key, rest) ← readKey? (cs.length + 1) cs
    let (d, rest) ← readValue? fuel (skipSpace (← expect? '=' rest))
    return (key, d, rest)

end

/-! ## Statements -/

/-- A document that has been read in part. -/
structure Reading where
  fields : Fields := []
  marks : Marks := []
  /-- The keys that the dotted keys since the last header have opened. -/
  pending : List Key := []
  /-- The key of the last header. -/
  header : Key := []

namespace Reading

/-- The state at a header: what is pending counts. -/
def settle (r : Reading) : Reading :=
  { r with marks := r.pending.map (fun k => (k, .opened)) ++ r.marks, pending := [] }

def openTable? (r : Reading) (key : Key) : Option Reading :=
  let r := r.settle
  if r.marks.has key .opened || r.marks.has key .frozen then none
  else do
    let fields ← within? true some key r.fields
    return { r with fields, marks := (key, .opened) :: r.marks, header := key }

/-- The header of one more table of a list. Its namespaces are free again. -/
def openItem? (r : Reading) (key : Key) : Option Reading :=
  let r := r.settle
  if r.marks.has key .frozen then none
  else do
    let marks := r.marks.filter fun m => !key.isPrefixOf m.1
    let fields ← within? true (appendTable? (← key.getLast?)) key.dropLast r.fields
    return { r with fields, marks := (key, .opened) :: marks, header := key }

def assign? (r : Reading) (key : Key) (d : Datum) : Option Reading :=
  let opening := (List.range key.length).tail.map fun i => r.header ++ key.take i
  if opening.any fun k => r.marks.has k .opened then none
  else if r.marks.has (r.header ++ key.dropLast) .frozen then none
  else do
    let whole := r.header ++ key
    let fields ← define? true whole d r.fields
    return { r with
      fields
      marks := if isContainer d then (whole, .frozen) :: r.marks else r.marks
      pending := opening ++ r.pending }

/-- One statement, if there is one on the line, and what follows it. -/
def statement? (r : Reading) (cs : List Char) : Option (Reading × List Char) :=
  let fuel := cs.length + 1
  match cs with
  | '[' :: '[' :: rest => do
    let (key, rest) ← readKey? fuel (skipSpace rest)
    let rest ← expect? ']' (← expect? ']' rest)
    return (← r.openItem? key, rest)
  | '[' :: rest => do
    let (key, rest) ← readKey? fuel (skipSpace rest)
    let rest ← expect? ']' rest
    return (← r.openTable? key, rest)
  | c :: _ =>
    if isBare c || c = '"' || c = '\'' then do
      let (key, d, rest) ← readPair? (2 * fuel + 2) cs
      return (← r.assign? key d, rest)
    else some (r, cs)
  | [] => some (r, [])

def lines? : Nat → Reading → List Char → Option Reading
  | 0, _, _ => none
  | fuel + 1, r, cs => do
    let (r, rest) ← r.statement? (skipSpace cs)
    match ← skipComment? (skipSpace rest) with
    | [] => some r
    | '\n' :: rest => lines? fuel r rest
    | _ => none

end Reading

/-- The text with every line end a single newline. -/
def joinLineEnds : List Char → List Char
  | '\r' :: '\n' :: rest => '\n' :: joinLineEnds rest
  | c :: rest => c :: joinLineEnds rest
  | [] => []

/-- The table that a document describes, if the document is well-formed. -/
def parse? (s : String) : Option Fields := do
  let cs := joinLineEnds s.toList
  let r ← Reading.lines? (cs.length + 1) {} cs
  return r.fields

end TypeAtlas.Toml
