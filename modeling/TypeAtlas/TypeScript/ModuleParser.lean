import TypeAtlas.TypeScript.TypeParser

/-! # Parsing modules

The declarations and imports at the top level of a file. Interfaces, type aliases and enums count,
bare or exported; other statements are passed over. A declaration is documented by the comment
directly in front of its statement.
-/

namespace TypeAtlas.TypeScript

/-! ## Ends of statements -/

/-- Whether the token goes on with a statement at the start of a line. -/
def continuesStatement (t : Token) : Bool :=
  match t.kind with
  | .symbol => ["`", ",", ".", ";", "*", "%", "<", ">", "=", "[", "(", "?", "^", "|", "&", "/",
      ":", "=>", "+", "-", "!="].contains t.text
  | .template => true
  | .word => t.text == "in" || t.text == "instanceof"
  | _ => false

/-- The comments on the line of the last token, and the tokens after them. -/
def cutTrailing : List Token → List Token × List Token
  | [] => ([], [])
  | t :: ts =>
    if t.isComment && !t.startsLine then
      let (more, rest) := cutTrailing ts
      (t :: more, rest)
    else ([], t :: ts)

/-- The tokens after a statement that a semicolon or the end of a line closes. Comments on its last
line are part of it. -/
def closeStatement (ts : List Token) : List Token :=
  match symbol? ";" ts with
  | some rest => rest
  | none => (cutTrailing ts).2

/-- The tokens after a declaration with a body, which the end of a line may close. -/
def closeBody (ts : List Token) : List Token :=
  let rest := (cutTrailing ts).2
  let closed := match peek? rest with
    | none => true
    | some t => lineEnds rest && !continuesStatement t
  if closed then rest else ts

/-! ## Statements that are passed over -/

/-- Whether a brace after the token opens a type or value instead of a body. -/
def expectsOperand (t : Token) : Bool :=
  t.kind == .symbol && [":", "|", "&", "=>", "<", ",", "=", "?"].contains t.text

/-- Whether a declaration without a body ends in front of the token at the start of a line. -/
def endsSignature (t : Token) : Bool :=
  t.kind == .word && !(["extends", "implements"].contains t.text) || t.isSymbol "@"

/-- The tokens after the first body, or after the semicolon or line that ends a declaration without
one. The token is the last one that is no comment. -/
def skipBody : Nat → Token → List Token → List Token
  | 0, _, ts => ts
  | fuel + 1, last, ts =>
    match ts with
    | [] => []
    | t :: rest =>
      if t.startsLine && last.endsStatement && (peek? ts).any endsSignature then ts
      else if t.isComment then skipBody fuel last rest
      else if t.isSymbol ";" then rest
      else if t.isSymbol "\x7d" then ts
      else match t.kind, closer? t.text with
        | .symbol, some c =>
          match skipTo [c] rest with
          | none => []
          | some after =>
            if t.text = "\x7b" && !expectsOperand last then closeBody after
            else skipBody fuel { t with text := c, gap := "" } after
        | _, _ => skipBody fuel t rest

/-- The tokens after an expression or a list of variables. -/
def skipExpression : Nat → Token → List Token → List Token
  | 0, _, ts => ts
  | fuel + 1, last, ts =>
    match ts with
    | [] => []
    | t :: rest =>
      if t.startsLine && last.endsStatement && !(peek? ts).any continuesStatement then ts
      else if t.isComment then skipExpression fuel last rest
      else if t.isSymbol ";" then rest
      else if t.isSymbol "\x7d" then ts
      else if ["++", "--", "!"].any t.isSymbol && last.endsValue then skipExpression fuel last rest
      else match t.kind, closer? t.text with
        | .symbol, some c =>
          match skipTo [c] rest with
          | none => []
          | some after => skipExpression fuel { t with text := c, gap := "" } after
        | _, _ => skipExpression fuel t rest

/-- The tokens after a statement of no interest. -/
def skipStatement : Nat → List Token → List Token
  | 0, ts => ts
  | fuel + 1, ts =>
    match skipComments ts with
    | [] => []
    | t :: rest =>
      let body := skipBody (rest.length + 1) t rest
      let expression := skipExpression (rest.length + 2) { t with text := "=", kind := .symbol }
        (t :: rest)
      if t.isSymbol "\x7b" then (skipTo ["\x7d"] rest).getD []
      else if t.isSymbol ";" then rest
      else if t.isSymbol "@" then
        let after := match anyWord? rest with
          | some (_, after) => skipDotted after.length after
          | none => rest
        skipStatement fuel ((brackets? "(" ")" after).getD after)
      else if t.kind = .word then
        if ["if", "for", "while", "with", "switch"].contains t.text then
          let after := skipStatement fuel
            ((brackets? "(" ")" ((word? "await" rest).getD rest)).getD rest)
          match word? "else" after with
          | some alternative => if t.text = "if" then skipStatement fuel alternative else after
          | none => after
        else if t.text = "do" then
          let after := skipStatement fuel rest
          closeStatement (((word? "while" after).bind (brackets? "(" ")")).getD after)
        else if t.text = "try" || t.text = "finally" || t.text = "catch" then
          let after := skipStatement fuel ((brackets? "(" ")" rest).getD rest)
          if (word? "catch" after).isSome || (word? "finally" after).isSome then
            skipStatement fuel after
          else after
        else if t.text = "class" || t.text = "function" then body
        else if t.text = "global" && (symbol? "\x7b" rest).isSome then body
        else if (t.text = "namespace" || t.text = "module") && !lineEnds rest &&
            (peek? rest).any (fun u => u.kind == .word || u.kind == .quoted) then body
        else if ["abstract", "async", "declare"].contains t.text &&
            (peek? rest).any (·.kind == .word) && !lineEnds rest then skipStatement fuel rest
        else expression
      else expression

/-! ## Declarations -/

/-- Parts of an extension clause, with the comments between them. -/
def parseBases : Nat → List Token → List TypeSyntax → Option (Followed (List TypeSyntax))
  | 0, _, _ => none
  | fuel + 1, ts, done =>
    match ts with
    | [] => none
    | t :: rest =>
      if t.isComment then
        if (symbol? "\x7b" ts).isSome then some (done, ts)
        else parseBases fuel rest (done ++ [.other t.piece "comment"])
      else if t.isSymbol "," then parseBases fuel rest done
      else if t.isSymbol "\x7b" then some (done, ts)
      else do
        let (base, rest) ← parsePrimary (fuelFor ts) false ts
        parseBases fuel rest (done ++ [base])

/-- The value of an enum member, given the tokens taken so far in reverse, and the tokens from the
separator on. -/
def parseInitial : Nat → List Token → List Token → Option (Followed InitialSyntax)
  | 0, _, _ => none
  | fuel + 1, ts, taken =>
    match ts with
    | [] => none
    | t :: rest =>
      if t.isSymbol "," || t.isSymbol "\x7d" then
        let value : InitialSyntax := match skipComments (skipComments taken).reverse with
          | [v] =>
            match v.kind with
            | .quoted => .quoted (unquote v.text)
            | .number => .numeric v.text
            | _ => .computed
          | [s, v] =>
            -- A word may be the name of a number, such as one that is infinite.
            if (s.isSymbol "-" || s.isSymbol "+") && (v.kind = .number || v.kind = .word) then
              .numeric (s.text ++ v.gap ++ v.text)
            else .computed
          | _ => .computed
        some (value, ts)
      else match t.kind, closer? t.text with
        | .symbol, some c => do
          let after ← skipTo [c] rest
          parseInitial fuel after (t :: taken)
        | _, _ => parseInitial fuel rest (t :: taken)

/-- The members of an enum up to the closing brace. -/
def parseEnumMembers : Nat → List Token → List EnumMemberSyntax →
    Option (Followed (List EnumMemberSyntax))
  | 0, _, _ => none
  | fuel + 1, ts, done =>
    match skipComments ts with
    | [] => none
    | t :: rest =>
      if t.isSymbol "\x7d" then some (done, rest)
      else if t.isSymbol "," then parseEnumMembers fuel rest done
      else do
        let (name, after) ← memberName? (t :: rest)
        match symbol? "=" after with
        | some value => do
          let (initial, after) ← parseInitial (value.length + 1) value []
          parseEnumMembers fuel after (done ++ [⟨name, initial⟩])
        | none =>
          let counted := t.kind = .word || t.kind = .quoted
          parseEnumMembers fuel after (if counted then done ++ [⟨name, .absent⟩] else done)

/-- A declaration, given the comment in front of its statement. -/
def parseDeclaration (comment : Option String) (ts : List Token) :
    Option (Followed DeclarationSyntax) := do
  match ts with
  | [] => none
  | t :: rest =>
    if t.isWord "interface" then do
      let (name, after) ← anyWord? rest
      let head ← skipAngles after
      let (bases, open_) ← match word? "extends" head with
        | some clause => parseBases (clause.length + 1) clause []
        | none => some ([], head)
      let inside ← symbol? "\x7b" open_
      let (members, last) ← parseMembers (fuelFor inside) none inside []
      let body : TypeSyntax := .object (pieceOf (skipComments open_) last) members
      some (⟨name.text, t.line, t.column, comment, (symbol? "<" after).isSome,
        .interface bases body⟩, last)
    else if t.isWord "type" then do
      let (name, after) ← anyWord? rest
      let head ← skipAngles after
      let value ← symbol? "=" head
      let (type, last) ← parseType (fuelFor value) true value
      some (⟨name.text, t.line, t.column, comment, (symbol? "<" after).isSome, .typeAlias type⟩,
        closeStatement last)
    else do
      let after ← word? "enum" (if t.isWord "const" then rest else t :: rest)
      let (name, after) ← anyWord? after
      let inside ← symbol? "\x7b" after
      let (members, last) ← parseEnumMembers (inside.length + 1) inside []
      some (⟨name.text, t.line, t.column, comment, false, .enum members⟩, last)

/-! ## Imports -/

def parseSpecifier (ts : List Token) : Option (Followed (String × String)) := do
  let (first, rest) ← anyWord? ts
  let plain (exported : Token) (rest : List Token) : Followed (String × String) :=
    match (word? "as" rest).bind anyWord? with
    | some (renamed, after) => ((renamed.text, exported.text), after)
    | none => ((exported.text, exported.text), rest)
  if first.text = "type" || first.text = "typeof" then
    match anyWord? rest with
    | some (second, after) =>
      -- A type of this very name may be renamed, too.
      if second.text = "as" && (anyWord? after).isSome then some (plain first rest)
      else some (plain second after)
    | none => some (plain first rest)
  else some (plain first rest)

/-- The names between braces, up to the closing one. -/
def parseSpecifiers : Nat → List Token → List (String × String) →
    Option (Followed (List (String × String)))
  | 0, _, _ => none
  | fuel + 1, ts, done =>
    match skipComments ts with
    | [] => none
    | t :: rest =>
      if t.isSymbol "\x7d" then some (done, rest)
      else if t.isSymbol "," then parseSpecifiers fuel rest done
      else match parseSpecifier (t :: rest) with
        | some (names, after) => parseSpecifiers fuel after (done ++ [names])
        | none => parseSpecifiers fuel rest done

/-- The names that an import statement brings in, and the module that it names. -/
def parseImport : Nat → List Token → List (String × String) →
    Option (Followed (String × List (String × String)))
  | 0, _, _ => none
  | fuel + 1, ts, names =>
    match skipComments ts with
    | [] => none
    | t :: rest =>
      if t.kind = .quoted then some ((unquote t.text, names), rest)
      else if t.isSymbol "\x7b" then do
        let (more, after) ← parseSpecifiers (rest.length + 1) rest []
        parseImport fuel after (names ++ more)
      else if t.kind = .word || t.isSymbol "," || t.isSymbol "*" then parseImport fuel rest names
      else none

/-- An import statement; only modules beside this one count. -/
def importStatement? (ts : List Token) : Option (Followed (List ImportSyntax)) := do
  let ((module, names), rest) ← parseImport (ts.length + 1) ts []
  let imports : List ImportSyntax :=
    if ".".isPrefixOf module then names.map fun n => ⟨n.1, module, n.2⟩ else []
  let attributes := ((word? "with" rest).or (word? "assert" rest)).bind (brackets? "\x7b" "\x7d")
  some (imports, closeStatement (attributes.getD rest))

/-! ## Files -/

/-- Whether a declaration starts here that may count. -/
def startsDeclaration (ts : List Token) : Bool :=
  match ts with
  | [] => false
  | t :: rest =>
    if t.isWord "const" then (word? "enum" rest).isSome
    else if t.isWord "type" then (anyWord? rest).isSome && !lineEnds rest
    else (t.isWord "interface" || t.isWord "enum") && (anyWord? rest).isSome

/-- One statement: what it adds, and the tokens after it. -/
def parseStatement (before : Option Token) (t : Token) (rest : List Token) (m : ModuleSyntax) :
    ModuleSyntax × List Token :=
  let skipped := (m, skipStatement (rest.length + 1) (t :: rest))
  let comment := documentation? before t.line
  let declared (ts : List Token) : Option (ModuleSyntax × List Token) :=
    if startsDeclaration ts then
      (parseDeclaration comment ts).map fun x =>
        ({ m with declarations := m.declarations ++ [x.1] }, x.2)
    else none
  if t.isWord "import" then
    match importStatement? rest with
    | some (more, after) => ({ m with imports := m.imports ++ more }, after)
    | none => skipped
  else if t.isWord "export" then
    let inner := skipComments ((word? "default" rest).getD rest)
    (declared inner).getD (m, skipStatement (rest.length + 1)
      (if (peek? inner).any (·.kind == .word) then inner else t :: rest))
  else if t.isWord "declare" && startsDeclaration (skipComments rest) && !lineEnds rest then
    match parseDeclaration none (skipComments rest) with
    | some (_, after) => (m, after)
    | none => skipped
  else (declared (t :: rest)).getD skipped

/-- The statements of a file. The token is what stands directly in front. -/
def parseStatements : Nat → Option Token → List Token → ModuleSyntax → ModuleSyntax
  | 0, _, _, m => m
  | fuel + 1, before, ts, m =>
    match ts with
    | [] => m
    | t :: rest =>
      if t.isComment || t.isSymbol ";" || t.isSymbol "\x7d" then
        parseStatements fuel (some t) rest m
      else
        let (m, after) := parseStatement before t rest m
        parseStatements fuel none (if after.length < ts.length then after else rest) m

def parseModule (source : String) : ModuleSyntax :=
  let ts := tokens source
  parseStatements (ts.length + 1) none ts {}

end TypeAtlas.TypeScript
