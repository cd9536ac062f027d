import TypeAtlas.Text.Lines
import TypeAtlas.Text.Parts

/-! # Tokens

A source file as a list of tokens, comments among them. Each token knows its position and the white
space in front of it, so the tokens of a file hold its whole text.

Lines and columns count from one. A column counts bytes.
-/

namespace TypeAtlas.TypeScript

inductive TokenKind where
  | word
  | number
  /-- A text between quotes. -/
  | quoted
  | template
  | comment
  | pattern
  | symbol
deriving DecidableEq, Inhabited, Repr

structure Token where
  kind : TokenKind
  text : String
  line : Nat
  column : Nat
  /-- The line on which the token ends. -/
  endLine : Nat
  /-- The white space in front of the token. -/
  gap : String
deriving DecidableEq, Inhabited, Repr

namespace Token

def isComment (t : Token) : Bool := t.kind == .comment
def isWord (t : Token) (w : String) : Bool := t.kind == .word && t.text == w
def isSymbol (t : Token) (s : String) : Bool := t.kind == .symbol && t.text == s

/-- Whether the token stands on a later line than what comes before it. -/
def startsLine (t : Token) : Bool := t.gap.toList.any (· == '\n')

/-- Whether an expression can end with the token. -/
def endsValue (t : Token) : Bool :=
  match t.kind with
  | .word => !(["typeof", "in", "of", "instanceof", "new", "return", "void", "delete", "case",
      "throw", "await", "yield", "extends", "else", "do"].contains t.text)
  | .number | .quoted | .template | .pattern => true
  | .comment => false
  | .symbol => [")", "]", "\x7d"].contains t.text

/-- Whether a statement can end with the token. It may be the end of a type, too. -/
def endsStatement (t : Token) : Bool :=
  t.endsValue || t.isSymbol ">" || ["return", "yield", "void"].any t.isWord

/-- The text that consecutive tokens stand for, from the start of the first. -/
def source : List Token → String
  | [] => ""
  | t :: ts => ts.foldl (fun acc u => acc ++ u.gap ++ u.text) t.text

end Token

/-! ## Characters -/

def isGap (c : Char) : Bool :=
  (Text.isBlank c && !(decide (28 ≤ c.toNat) && decide (c.toNat ≤ 31))) ||
    [0xfeff, 0x2060, 0x200b].contains c.toNat

/-- The characters that are no part of a word besides controls and white space. -/
def wordBreaks : List Char := ":;`\"'@#.,|^&<=>+-*/\\%?!~()[]\x7b\x7d".toList

def isWordChar (c : Char) : Bool := decide (32 < c.toNat) && !isGap c && !wordBreaks.contains c

def isLineEnd (c : Char) : Bool := [10, 13, 0x2028, 0x2029].contains c.toNat

/-! ## Lexemes

Each function takes the characters of a lexeme and leaves those that follow it. -/

abbrev Cut := List Char × List Char

def Cut.push (c : Char) (cut : Cut) : Cut := (c :: cut.1, cut.2)

def cutWhile (p : Char → Bool) (cs : List Char) : Cut := cs.span p

def cutQuoted (quote : Char) : List Char → Cut
  | [] => ([], [])
  | '\\' :: c :: rest => Cut.push '\\' (Cut.push c (cutQuoted quote rest))
  | c :: rest => if c = quote then ([c], rest) else Cut.push c (cutQuoted quote rest)

/-- What a template is inside of, the innermost first. -/
inductive TemplateMode where
  | text
  | code
  | quoted (quote : Char)
deriving DecidableEq, Repr

/-- Up to the end of the outermost mode. -/
def cutTemplate : List TemplateMode → List Char → Cut
  | [], rest => ([], rest)
  | _, [] => ([], [])
  | .text :: modes, '\\' :: c :: rest =>
    Cut.push '\\' (Cut.push c (cutTemplate (.text :: modes) rest))
  | .quoted q :: modes, '\\' :: c :: rest =>
    Cut.push '\\' (Cut.push c (cutTemplate (.quoted q :: modes) rest))
  | .text :: modes, '$' :: '\x7b' :: rest =>
    Cut.push '$' (Cut.push '\x7b' (cutTemplate (.code :: .text :: modes) rest))
  | .text :: modes, c :: rest =>
    Cut.push c (cutTemplate (if c = '`' then modes else .text :: modes) rest)
  | .quoted q :: modes, c :: rest =>
    Cut.push c (cutTemplate (if c = q then modes else .quoted q :: modes) rest)
  | .code :: modes, c :: rest =>
    Cut.push c (cutTemplate
      (if c = '\x7d' then modes
      else if c = '\x7b' then .code :: .code :: modes
      else if c = '`' then .text :: .code :: modes
      else if c = '"' || c = '\'' then .quoted c :: .code :: modes
      else .code :: modes) rest)

def cutBlock : List Char → Cut
  | [] => ([], [])
  | '*' :: '/' :: rest => (['*', '/'], rest)
  | c :: rest => Cut.push c (cutBlock rest)

/-- Up to the end of a regular expression, inside or outside a class of characters. -/
def cutPattern : Bool → List Char → Cut
  | _, [] => ([], [])
  | inClass, '\\' :: c :: rest => Cut.push '\\' (Cut.push c (cutPattern inClass rest))
  | inClass, c :: rest =>
    if isLineEnd c then ([], c :: rest)
    else if c = '/' && !inClass then Cut.push c (cutWhile isWordChar rest)
    else Cut.push c (cutPattern (if c = '[' then true else if c = ']' then false else inClass) rest)

def isNumberChar (c : Char) : Bool := c.isDigit || c == '_'

def isRadixChar (c : Char) : Bool :=
  isNumberChar c || ('a' ≤ c && c ≤ 'f') || ('A' ≤ c && c ≤ 'F')

def cutExponent : List Char → Cut
  | [] => ([], [])
  | e :: rest =>
    if e = 'e' || e = 'E' then
      match rest with
      | s :: d :: more =>
        if (s = '+' || s = '-') && d.isDigit then
          Cut.push e (Cut.push s (cutWhile isNumberChar (d :: more)))
        else if s.isDigit then Cut.push e (cutWhile isNumberChar rest)
        else ([], e :: rest)
      | [d] => if d.isDigit then ([e, d], []) else ([], e :: rest)
      | [] => ([], [e])
    else ([], e :: rest)

def Cut.andThen (cut : Cut) (next : List Char → Cut) : Cut :=
  let more := next cut.2
  (cut.1 ++ more.1, more.2)

/-- The mark of a big integer, if there is one. -/
def cutBigMark : List Char → Cut
  | 'n' :: rest => (['n'], rest)
  | rest => ([], rest)

def cutFraction : List Char → Cut
  | '.' :: rest => Cut.push '.' (cutWhile isNumberChar rest)
  | rest => ([], rest)

def isRadixMark (c : Char) : Bool := ['x', 'X', 'o', 'O', 'b', 'B'].contains c

def cutNumber : List Char → Cut
  | '0' :: m :: rest =>
    if isRadixMark m then
      Cut.andThen (Cut.push '0' (Cut.push m (cutWhile isRadixChar rest))) cutBigMark
    else decimal ('0' :: m :: rest)
  | cs => decimal cs
where
  decimal (cs : List Char) : Cut :=
    (((cutWhile isNumberChar cs).andThen cutFraction).andThen cutExponent).andThen cutBigMark

/-- The lexeme at the start of a text that starts with no white space. After a value a slash
divides. -/
def cutLexeme (afterValue : Bool) : List Char → TokenKind × Cut
  | [] => (.symbol, [], [])
  | '/' :: '/' :: rest => (.comment, ((cutWhile (fun c => !isLineEnd c) rest).push '/').push '/')
  | '/' :: '*' :: rest => (.comment, ((cutBlock rest).push '*').push '/')
  | '`' :: rest => (.template, (cutTemplate [.text] rest).push '`')
  | '=' :: '>' :: rest => (.symbol, ['=', '>'], rest)
  | '.' :: '.' :: '.' :: rest => (.symbol, ['.', '.', '.'], rest)
  | '+' :: '+' :: rest => (.symbol, ['+', '+'], rest)
  | '-' :: '-' :: rest => (.symbol, ['-', '-'], rest)
  | '!' :: '=' :: rest => (.symbol, ['!', '='], rest)
  | c :: rest =>
    if c = '"' || c = '\'' then (.quoted, (cutQuoted c rest).push c)
    else if c.isDigit then (.number, cutNumber (c :: rest))
    else if c = '.' && (rest.head?.any Char.isDigit) then (.number, cutNumber (c :: rest))
    else if isWordChar c then (.word, (cutWhile isWordChar rest).push c)
    else if c = '/' && !afterValue then (.pattern, (cutPattern false rest).push c)
    else (.symbol, [c], rest)

/-! ## Files -/

structure Spot where
  line : Nat := 1
  column : Nat := 1
deriving DecidableEq, Inhabited, Repr

def Spot.advance (s : Spot) (cs : List Char) : Spot :=
  cs.foldl (fun s c =>
    if c = '\n' then ⟨s.line + 1, 1⟩ else ⟨s.line, s.column + c.utf8Size⟩) s

/-- The tokens from a position on; the fuel exceeds the number of characters. -/
def tokensFrom : Nat → Spot → Bool → List Char → List Token
  | 0, _, _, _ => []
  | fuel + 1, spot, afterValue, cs =>
    let (gap, start) := cs.span isGap
    match start with
    | [] => []
    | _ :: _ =>
      let spot := spot.advance gap
      let (kind, lexeme, rest) := cutLexeme afterValue start
      let after := spot.advance lexeme
      let token : Token := {
        kind, text := String.ofList lexeme, line := spot.line, column := spot.column
        endLine := after.line, gap := String.ofList gap }
      token :: tokensFrom fuel after
        (if kind = .comment then afterValue else token.endsValue) rest

def tokens (source : String) : List Token :=
  let cs := source.toList
  tokensFrom (cs.length + 1) {} false cs

end TypeAtlas.TypeScript
