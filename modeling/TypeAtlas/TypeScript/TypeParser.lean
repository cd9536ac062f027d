import TypeAtlas.TypeScript.Syntax

/-! # Parsing types

Types from tokens. An intersection binds more tightly than a union, and a union more tightly than a
conditional type; function types and read-only types reach as far as they can.

A declaration or member that is not closed by a semicolon ends where a line ends, unless the next
line goes on with it. This matters for a bracket at the start of a line and for a name that could
have been a modifier.
-/

namespace TypeAtlas.TypeScript

abbrev Followed (α : Type) := α × List Token

/-- The tokens from the first one that is no comment. -/
def skipComments (ts : List Token) : List Token := ts.dropWhile Token.isComment

/-- The next token that is no comment. -/
def peek? (ts : List Token) : Option Token := (skipComments ts).head?

/-- Whether a line ends before the next token that is no comment. -/
def lineEnds (ts : List Token) : Bool :=
  (ts.takeWhile Token.isComment).any Token.startsLine || (peek? ts).any Token.startsLine

/-- The tokens after a symbol, if it comes next. -/
def symbol? (s : String) (ts : List Token) : Option (List Token) :=
  match skipComments ts with
  | t :: rest => if t.isSymbol s then some rest else none
  | [] => none

/-- The tokens after a word, if it comes next. -/
def word? (w : String) (ts : List Token) : Option (List Token) :=
  match skipComments ts with
  | t :: rest => if t.isWord w then some rest else none
  | [] => none

/-- The next token if it is a word. -/
def anyWord? (ts : List Token) : Option (Followed Token) :=
  match skipComments ts with
  | t :: rest => if t.kind = .word then some (t, rest) else none
  | [] => none

/-- The part of a file from the start of some tokens to the start of later ones. -/
def pieceOf (start rest : List Token) : Piece :=
  match start with
  | [] => default
  | t :: _ => ⟨t.line, t.column, Token.source (start.take (start.length - rest.length))⟩

def Token.piece (t : Token) : Piece := ⟨t.line, t.column, t.text⟩

/-- The comment in front of everything else, which counts as a part of its own. -/
def leadingComment? (ts : List Token) : Option TypeSyntax :=
  match ts with
  | t :: _ => if t.isComment then some (.other t.piece "comment") else none
  | [] => none

/-! ## Brackets -/

def closer? (s : String) : Option String :=
  if s = "(" then some ")" else if s = "[" then some "]"
  else if s = "\x7b" then some "\x7d" else none

/-- The tokens after the brackets that are to be closed, the innermost first. -/
def skipTo : List String → List Token → Option (List Token)
  | [], rest => some rest
  | _ :: _, [] => none
  | c :: cs, t :: rest =>
    if t.kind = .symbol then
      if t.text = c then skipTo cs rest
      else match closer? t.text with
        | some inner => skipTo (inner :: c :: cs) rest
        | none => if c = ">" && t.text = "<" then skipTo (">" :: c :: cs) rest
          else skipTo (c :: cs) rest
    else skipTo (c :: cs) rest

/-- The tokens after a bracketed list, if one comes next. -/
def brackets? (opening closing : String) (ts : List Token) : Option (List Token) :=
  (symbol? opening ts).bind (skipTo [closing])

/-- The tokens after type parameters or type arguments, if there are any. -/
def skipAngles (ts : List Token) : Option (List Token) :=
  match symbol? "<" ts with
  | some rest => skipTo [">"] rest
  | none => some ts

/-! ## Words -/

def builtInTypes : List String :=
  ["any", "number", "boolean", "string", "symbol", "void", "unknown", "never", "object"]

/-- Words that may come before the name of a member. -/
def memberModifiers : List String :=
  ["public", "private", "protected", "static", "override", "readonly", "async", "get", "set"]

/-- Whether the name of a member may start with the token. -/
def startsName (t : Token) : Bool :=
  match t.kind with
  | .word | .quoted | .number => true
  | .symbol => ["[", "#", "*"].contains t.text
  | _ => false

/-- The text of a quoted name or value, without its quotes. -/
def unquote (text : String) : String :=
  match text.toList with
  | q :: rest =>
    match rest.reverse with
    | l :: inner =>
      if q = l && (q = '\'' || q = '"' || q = '`') then String.ofList inner.reverse else text
    | [] => text
  | [] => text

/-- The comment that documents what starts on a line: one with two stars that ends on the line
before, or later. -/
def documentation? (before : Option Token) (line : Nat) : Option String :=
  match before with
  | some t =>
    if t.isComment && "/**".isPrefixOf t.text && line ≤ t.endLine + 1 then some t.text else none
  | none => none

/-! ## Types -/

/-- Modifiers in front of a member, and whether one of them makes it read-only. -/
def cutModifiers : Nat → List Token → Bool → Bool × List Token
  | 0, ts, readonly => (readonly, ts)
  | fuel + 1, ts, readonly =>
    match skipComments ts with
    | t :: rest =>
      let modifies := t.kind == .word && memberModifiers.contains t.text &&
        (peek? rest).any startsName && !lineEnds rest
      let sign := (t.isSymbol "+" || t.isSymbol "-") && (word? "readonly" rest).isSome
      if modifies || sign then cutModifiers fuel rest (readonly || t.isWord "readonly")
      else (readonly, ts)
    | [] => (readonly, ts)

/-- The name of a member, and the tokens after it. -/
def memberName? (ts : List Token) : Option (Followed String) :=
  match skipComments ts with
  | t :: rest =>
    match t.kind with
    | .word | .number => some (t.text, rest)
    | .quoted => some (unquote t.text, rest)
    | .symbol =>
      if t.text = "[" then do
        let after ← skipTo ["]"] rest
        some ((pieceOf (t :: rest) after).text, after)
      else if t.text = "#" then do
        let (w, after) ← anyWord? rest
        some ("#" ++ w.text, after)
      else none
    | _ => none
  | [] => none

/-- What stands between square brackets in an object type. -/
inductive BracketRole where
  | index
  | mapped
  | computed

def bracketRole (ts : List Token) : BracketRole :=
  match anyWord? ts with
  | some (_, rest) =>
    if (symbol? ":" rest).isSome then .index
    else if (word? "in" rest).isSome then .mapped
    else .computed
  | none => .computed

/-- The tokens after the dotted parts of a name. -/
def skipDotted : Nat → List Token → List Token
  | 0, ts => ts
  | fuel + 1, ts =>
    match symbol? "." ts with
    | some rest =>
      match anyWord? rest with
      | some (_, after) => skipDotted fuel after
      | none => ts
    | none => ts

/-- The tokens after the operand of a type query. -/
def queryOperand? (ts : List Token) : Option (List Token) := do
  let (w, rest) ← anyWord? ts
  let rest ← if w.text = "import" then brackets? "(" ")" rest else some rest
  skipAngles (skipDotted rest.length rest)

mutual

/-- A type. The flag tells whether it may be ended by the end of a line. -/
def parseType : Nat → Bool → List Token → Option (Followed TypeSyntax)
  | 0, _, _ => none
  | fuel + 1, open_, ts => do
    let ts := skipComments ts
    let (left, rest) ← parseUnion fuel open_ ts
    match word? "extends" rest with
    | none => some (left, rest)
    | some after =>
      if open_ && lineEnds rest then some (left, rest)
      else do
        let (_, rest) ← parseUnion fuel false (skipComments after)
        let (_, rest) ← parseType fuel false (← symbol? "?" rest)
        let (_, rest) ← parseType fuel open_ (← symbol? ":" rest)
        some (.other (pieceOf ts rest) "conditional", rest)

def parseUnion : Nat → Bool → List Token → Option (Followed TypeSyntax)
  | 0, _, _ => none
  | fuel + 1, open_, ts => do
    let (left, rest) ← parseIntersection fuel open_ ts
    moreUnion fuel open_ ts left rest

/-- Further members of a union that starts with the given tokens. -/
def moreUnion : Nat → Bool → List Token → TypeSyntax → List Token → Option (Followed TypeSyntax)
  | 0, _, _, _, _ => none
  | fuel + 1, open_, ts, left, rest =>
    match symbol? "|" rest with
    | none => some (left, rest)
    | some after => do
      let (right, rest) ← parseIntersection fuel open_ (skipComments after)
      moreUnion fuel open_ ts
        (.union (pieceOf ts rest) (left.unionMembers ++ right.unionMembers)) rest

def parseIntersection : Nat → Bool → List Token → Option (Followed TypeSyntax)
  | 0, _, _ => none
  | fuel + 1, open_, ts => do
    let (left, rest) ← parseOperand fuel open_ ts
    moreIntersection fuel open_ ts left rest

def moreIntersection : Nat → Bool → List Token → TypeSyntax → List Token →
    Option (Followed TypeSyntax)
  | 0, _, _, _, _ => none
  | fuel + 1, open_, ts, left, rest =>
    match symbol? "&" rest with
    | none => some (left, rest)
    | some after => do
      let (right, rest) ← parseOperand fuel open_ (skipComments after)
      moreIntersection fuel open_ ts
        (.intersection (pieceOf ts rest) (left.intersectionMembers ++ right.intersectionMembers))
        rest

/-- A member of a union or intersection, perhaps with a separator in front of it. -/
def parseOperand : Nat → Bool → List Token → Option (Followed TypeSyntax)
  | 0, _, _ => none
  | fuel + 1, open_, ts =>
    match symbol? "|" ts, symbol? "&" ts with
    | some after, _ => do
      let (t, rest) ← parseIntersection fuel open_ (skipComments after)
      some (.union (pieceOf ts rest) t.unionMembers, rest)
    | _, some after => do
      let (t, rest) ← parseOperand fuel open_ (skipComments after)
      some (.intersection (pieceOf ts rest) t.intersectionMembers, rest)
    | none, none => parsePrefixed fuel open_ ts

/-- A type that starts with a word or symbol of its own, or a simple type. -/
def parsePrefixed : Nat → Bool → List Token → Option (Followed TypeSyntax)
  | 0, _, _ => none
  | fuel + 1, open_, ts => do
    match ts with
    | [] => none
    | t :: rest =>
      let whole (construct : String) (r : Option (Followed TypeSyntax)) :
          Option (Followed TypeSyntax) :=
        r.map fun x => (.other (pieceOf ts x.2) construct, x.2)
      if t.isSymbol "(" && ((skipTo [")"] rest).bind (symbol? "=>")).isSome then
        whole "function" (parseFunction fuel open_ ts)
      else if t.isSymbol "<" then whole "function" (parseFunction fuel open_ ts)
      else if t.isWord "new" then whole "constructor" (parseFunction fuel open_ rest)
      else if t.isWord "abstract" then
        match word? "new" rest with
        | some after => whole "constructor" (parseFunction fuel open_ after)
        | none => parseSuffixed fuel open_ ts
      else if t.isWord "readonly" then do
        let (inner, after) ← parseType fuel open_ rest
        some (.wrapped (pieceOf ts after) ((leadingComment? rest).getD inner), after)
      else if t.isSymbol "?" then whole "flow_maybe_type" (parseType fuel open_ rest)
      else if t.isWord "infer" then do
        let (_, after) ← anyWord? rest
        match word? "extends" after with
        | some bound => whole "infer" (parseType fuel open_ bound)
        | none => some (.other (pieceOf ts after) "infer", after)
      else if t.isWord "import" then do
        let after ← brackets? "(" ")" rest
        let last := skipDotted after.length after
        some (.other (pieceOf ts last)
          (if last.length = after.length then "call_expression" else "member_expression"), last)
      else parseSuffixed fuel open_ ts

/-- Parameters and the type that a function returns; only the extent counts. -/
def parseFunction : Nat → Bool → List Token → Option (Followed TypeSyntax)
  | 0, _, _ => none
  | fuel + 1, open_, ts => do
    let rest ← brackets? "(" ")" (← skipAngles ts)
    parseReturn fuel open_ (← symbol? "=>" rest)

/-- What a function returns: a type, or what it asserts of a parameter. -/
def parseReturn : Nat → Bool → List Token → Option (Followed TypeSyntax)
  | 0, _, _ => none
  | fuel + 1, open_, ts =>
    let ts := skipComments ts
    let asserted := (word? "asserts" ts).bind fun rest =>
      if lineEnds rest then none
      else match anyWord? rest with
        | some (w, after) => if w.text = "is" then none else some after
        | none => none
    let subject := match asserted with
      | some after => some after
      | none => (anyWord? ts).bind fun x => if (word? "is" x.2).isSome then some x.2 else none
    match subject with
    | none => parseType fuel open_ ts
    | some after =>
      match word? "is" after with
      | some type => parseType fuel open_ type
      | none => some (.other (pieceOf ts after) "type_predicate", after)

/-- A simple type with the brackets that follow it. -/
def parseSuffixed : Nat → Bool → List Token → Option (Followed TypeSyntax)
  | 0, _, _ => none
  | fuel + 1, open_, ts => do
    let (t, rest) ← parsePrimary fuel open_ ts
    moreBrackets fuel open_ ts t rest

def moreBrackets : Nat → Bool → List Token → TypeSyntax → List Token → Option (Followed TypeSyntax)
  | 0, _, _, _, _ => none
  | fuel + 1, open_, ts, t, rest =>
    match symbol? "[" rest with
    | none => some (t, rest)
    | some inside =>
      if open_ && lineEnds rest then some (t, rest)
      else match symbol? "]" inside with
        | some after => moreBrackets fuel open_ ts (.array (pieceOf ts after) t) after
        | none => do
          let (_, after) ← parseType fuel false inside
          let after ← symbol? "]" after
          moreBrackets fuel open_ ts (.other (pieceOf ts after) "indexed_access") after

def parsePrimary : Nat → Bool → List Token → Option (Followed TypeSyntax)
  | 0, _, _ => none
  | fuel + 1, open_, ts => do
    match ts with
    | [] => none
    | t :: rest =>
      match t.kind with
      | .quoted => some (.literal t.piece .quoted, rest)
      | .number => some (.literal t.piece .numeric, rest)
      | .template => some (.template t.piece, rest)
      | .comment | .pattern => none
      | .symbol =>
        if t.text = "(" then do
          let (inner, after) ← parseType fuel false rest
          let after ← symbol? ")" after
          some (.wrapped (pieceOf ts after) ((leadingComment? rest).getD inner), after)
        else if t.text = "\x7b" then do
          let (members, after) ← parseMembers fuel none rest []
          some (.object (pieceOf ts after) members, after)
        else if t.text = "[" then do
          let (elements, after) ← parseElements fuel rest []
          some (.tuple (pieceOf ts after) elements, after)
        else if t.text = "-" || t.text = "+" then
          match skipComments rest with
          | n :: after =>
            if n.kind = .number then some (.literal (pieceOf ts after) .numeric, after) else none
          | [] => none
        else if t.text = "*" then some (.other t.piece "existential_type", rest)
        else none
      | .word =>
        if builtInTypes.contains t.text then some (.builtIn t.piece, rest)
        else if t.text = "true" then some (.literal t.piece (.truth true), rest)
        else if t.text = "false" then some (.literal t.piece (.truth false), rest)
        else if t.text = "null" || t.text = "undefined" then
          some (.literal t.piece .nothing, rest)
        else if t.text = "this" then some (.other t.piece "this", rest)
        else if t.text = "const" then some (.other t.piece "const", rest)
        else if t.text = "keyof" then do
          let (_, after) ← parseSuffixed fuel open_ (skipComments rest)
          some (.other (pieceOf ts after) "keyof", after)
        else if t.text = "typeof" then do
          let after ← queryOperand? rest
          some (.other (pieceOf ts after) "typeof", after)
        else
          match t.text, word? "symbol" rest with
          | "unique", some after => some (.builtIn (pieceOf ts after), after)
          | _, _ =>
            let after := skipDotted rest.length rest
            let name := (pieceOf ts after).text
            match symbol? "<" after with
            | none => some (.reference (pieceOf ts after), after)
            | some inside => do
              let (arguments, after) ← parseArguments fuel inside []
              some (.generic (pieceOf ts after) name arguments, after)

def parseArguments : Nat → List Token → List TypeSyntax → Option (Followed (List TypeSyntax))
  | 0, _, _ => none
  | fuel + 1, ts, done =>
    match symbol? ">" ts with
    | some rest => some (done, rest)
    | none => do
      let (t, rest) ← parseType fuel false ts
      parseArguments fuel ((symbol? "," rest).getD rest) (done ++ [t])

/-- The elements of a tuple up to the closing bracket. -/
def parseElements : Nat → List Token → List TypeSyntax → Option (Followed (List TypeSyntax))
  | 0, _, _ => none
  | fuel + 1, ts, done =>
    match symbol? "]" ts with
    | some rest => some (done, rest)
    | none => do
      let (t, rest) ← parseElement fuel (skipComments ts)
      parseElements fuel ((symbol? "," rest).getD rest) (done ++ [t])

def parseElement : Nat → List Token → Option (Followed TypeSyntax)
  | 0, _ => none
  | fuel + 1, ts =>
    let spread := symbol? "..." ts
    let named := (anyWord? (spread.getD ts)).bind fun x => symbol? ":" x.2
    let optional := (anyWord? ts).bind fun x => (symbol? "?" x.2).bind (symbol? ":")
    let whole (construct : String) (r : Option (Followed TypeSyntax)) :
        Option (Followed TypeSyntax) :=
      r.map fun x => (.other (pieceOf ts x.2) construct, x.2)
    match named, optional, spread with
    | some type, _, _ => whole "required_parameter" (parseType fuel false type)
    | none, some type, _ => whole "optional_parameter" (parseType fuel false type)
    | none, none, some type => whole "rest_element" (parseType fuel false type)
    | none, none, none => do
      let (t, rest) ← parseType fuel false ts
      match symbol? "?" rest with
      | some after => some (.other (pieceOf ts after) "optional_element", after)
      | none => some (t, rest)

/-- The members of an object type up to the closing brace. The token is what stands directly in
front. -/
def parseMembers : Nat → Option Token → List Token → List MemberSyntax →
    Option (Followed (List MemberSyntax))
  | 0, _, _, _ => none
  | fuel + 1, before, ts, done =>
    match ts with
    | [] => none
    | t :: rest =>
      if t.isSymbol "\x7d" then some (done, rest)
      else if t.isComment || t.isSymbol "," || t.isSymbol ";" then
        parseMembers fuel (some t) rest done
      else do
        let (m, rest) ← parseMember fuel (documentation? before t.line) ts
        parseMembers fuel none rest (done ++ [m])

def parseMember : Nat → Option String → List Token → Option (Followed MemberSyntax)
  | 0, _, _ => none
  | fuel + 1, comment, ts =>
    let (readonly, own) := cutModifiers ts.length ts false
    let own := skipComments own
    let calls (rest : List Token) : Bool := (symbol? "(" rest).isSome || (symbol? "<" rest).isSome
    let constructing := match word? "new" ((word? "abstract" own).getD own) with
      | some rest => if calls rest then some rest else none
      | none => none
    match constructing, symbol? "[" own with
    | some rest, _ => do
      let rest ← parseCall fuel rest
      some (.signature (pieceOf ts rest) comment "constructor" "new()", rest)
    | none, some inside =>
      match bracketRole inside with
      | .computed => parseNamed fuel comment ts readonly own
      | role => do
        let rest ← skipTo ["]"] inside
        let rest := ((symbol? "-" rest).or (symbol? "+" rest)).getD rest
        let rest := (symbol? "?" rest).getD rest
        let rest ← match symbol? ":" rest with
          | some type => (parseType fuel true type).map Prod.snd
          | none => some rest
        let piece := pieceOf ts rest
        match role with
        | .mapped => some (.mapped piece, rest)
        | _ => some (.signature piece comment "index_signature" "[index]", rest)
    | none, none =>
      if calls own then do
        let rest ← parseCall fuel own
        some (.signature (pieceOf ts rest) comment "call_signature" "()", rest)
      else parseNamed fuel comment ts readonly own

/-- Type parameters, parameters and what is returned, up to their end. -/
def parseCall : Nat → List Token → Option (List Token)
  | 0, _ => none
  | fuel + 1, ts => do
    let rest ← brackets? "(" ")" (← skipAngles ts)
    match symbol? ":" rest with
    | some type => (parseReturn fuel true type).map Prod.snd
    | none => some rest

/-- A property or method, given the tokens of the member and those from its name on. -/
def parseNamed : Nat → Option String → List Token → Bool → List Token →
    Option (Followed MemberSyntax)
  | 0, _, _, _, _ => none
  | fuel + 1, comment, ts, readonly, own => do
    let (name, rest) ← memberName? ((symbol? "*" own).getD own)
    let mark := symbol? "?" rest
    let rest := mark.getD rest
    if ((symbol? "(" rest).isSome && !lineEnds rest) || (symbol? "<" rest).isSome then do
      let rest ← parseCall fuel rest
      some (.method (pieceOf ts rest) comment name mark.isSome readonly, rest)
    else match symbol? ":" rest with
      | none => some (.property (pieceOf ts rest) comment name none mark.isSome readonly, rest)
      | some type => do
        let (t, rest) ← parseType fuel true type
        some (.property (pieceOf ts rest) comment name (some ((leadingComment? type).getD t))
          mark.isSome readonly, rest)

end

/-- Fuel enough for any type that starts with the tokens: each token is passed by at most a fixed
number of nested steps. -/
def fuelFor (ts : List Token) : Nat := 16 * ts.length + 16

end TypeAtlas.TypeScript
