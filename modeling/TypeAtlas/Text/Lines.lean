/-! # Blanks and lines

The characters that separate words, which are the white space of Unicode together with the four
information separators, and the lines of a text. A carriage return followed by a line feed is one line
break, and a break at the very end of the text opens no further line.
-/

/-! ## Blank characters -/

namespace TypeAtlas.Text

def blanks : List Nat := [
  9, 10, 11, 12, 13, 28, 29, 30, 31, 32, 133, 160, 5760, 8192, 8193, 8194, 8195, 8196, 8197, 8198,
  8199, 8200, 8201, 8202, 8232, 8233, 8239, 8287, 12288]

def isBlank (c : Char) : Bool := blanks.contains c.toNat

def trimStart (cs : List Char) : List Char := cs.dropWhile isBlank

def trimEnd (cs : List Char) : List Char := (cs.reverse.dropWhile isBlank).reverse

/-- The text without the blanks at its two ends. -/
def trim (cs : List Char) : List Char := trimEnd (trimStart cs)

/-! ## Lines -/

def lineBreaks : List Nat := [10, 11, 12, 13, 28, 29, 30, 133, 8232, 8233]

def isLineBreak (c : Char) : Bool := lineBreaks.contains c.toNat

/-- The lines of a text, given the characters of the current line in reverse. -/
def splitLines.go (line : List Char) : List Char → List (List Char)
  | [] => if line.isEmpty then [] else [line.reverse]
  | '\r' :: '\n' :: rest => line.reverse :: splitLines.go [] rest
  | c :: rest =>
    if isLineBreak c then line.reverse :: splitLines.go [] rest
    else splitLines.go (c :: line) rest

def splitLines (cs : List Char) : List (List Char) := splitLines.go [] cs

end TypeAtlas.Text
