import StackMachine.Opcode

/-!
# Tokens of assembly

A text of assembly is cut into mnemonics, identifiers, integers, colons and line ends.
Blanks and comments stand between tokens and are dropped; what begins nothing of all this
is an error, up to the next unit that begins something.  `Lexed.scan` gives the tokens and
the errors of a text in their order, with their places.
-/

namespace StackMachine

namespace Assembly

/-- The kinds of tokens. -/
inductive TokenKind where
  | mnemonic (opcode : Opcode)
  | integer
  | identifier
  | colon
  | newline
deriving DecidableEq, Repr

/-- The name of a kind of tokens. -/
def TokenKind.name : TokenKind → Text
  | mnemonic opcode => Text.ofString "Op_" ++ opcode.mnemonic
  | integer => "IntLit"
  | identifier => "Ident"
  | colon => "Colon"
  | newline => "Newline"

/-- A place in a text: the units before it, and its line and column, counted from 1. -/
structure Place where
  offset : Nat
  line : Nat
  column : Nat
deriving DecidableEq, Repr

namespace Place

/-- The beginning of a text. -/
def start : Place := ⟨0, 1, 1⟩

/-- The place some units further on the same line. -/
def advance (p : Place) (n : Nat) : Place := ⟨p.offset + n, p.line, p.column + n⟩

/-- The place after a line end of some units. -/
def nextLine (p : Place) (n : Nat) : Place := ⟨p.offset + n, p.line + 1, 1⟩

end Place

/-- A token with its text and the place where it begins. -/
structure Token where
  kind : TokenKind
  image : Text
  place : Place
deriving DecidableEq, Repr

/-- A stretch of units that begin nothing, by its first unit, its place and its length. -/
structure LexError where
  unit : CodeUnit
  place : Place
  length : Nat
deriving DecidableEq, Repr

/-- The message of a stretch of units that begin nothing. -/
def LexError.message (e : LexError) : Text :=
  Text.concat ["unexpected character: ->", [e.unit], "<- at offset: ",
    Text.ofNat e.place.offset, ", skipped ", Text.ofNat e.length, " characters."]

/-- What stands at a place of a text: blanks, a comment, or a token. -/
inductive Lexeme where
  | blank
  | comment
  | token (kind : TokenKind)
deriving DecidableEq, Repr

namespace Lexeme

/-- The blanks between tokens: space and tab. -/
def isBlank (u : CodeUnit) : Bool := u == 0x20 || u == 0x09

/-- The units that end a line or belong to its end. -/
def isLineEnd (u : CodeUnit) : Bool := u == Text.lineFeed || u == Text.carriageReturn

/-- The length of an integer without sign at the head of a text.  It has no leading zero,
and no letter, digit or `_` follows it. -/
def unsigned? : Text → Option Nat
  | [] => none
  | d :: r =>
    if d.isDigit then
      let n := if d = CodeUnit.ofChar '0' then 0 else (r.takeWhile CodeUnit.isDigit).length
      if (r.drop n).head?.any CodeUnit.isWordPart then none else some (n + 1)
    else none

/-- The length, after its first unit, of an integer that begins with the unit `u`. -/
def integer? (u : CodeUnit) (r : Text) : Option Nat :=
  if u = CodeUnit.ofChar '-' then unsigned? r
  else (unsigned? (u :: r)).map (· - 1)

/-- The kind of a word: a mnemonic only if the whole word is one. -/
def wordKind (word : Text) : TokenKind :=
  match Opcode.ofMnemonic? word with
  | some opcode => .mnemonic opcode
  | none => .identifier

/-- What begins with the unit `u`, and how many of the units `r` after it belong to it. -/
def ofText? (u : CodeUnit) (r : Text) : Option (Lexeme × Nat) :=
  if isBlank u then some (blank, (r.takeWhile isBlank).length)
  else if u = Text.lineFeed then some (token .newline, 0)
  else if u = Text.carriageReturn ∧ r.head? = some Text.lineFeed then some (token .newline, 1)
  else if u = CodeUnit.ofChar '#' then
    some (comment, (r.takeWhile fun v => !isLineEnd v).length)
  else if u.isWordStart then
    let n := (r.takeWhile CodeUnit.isWordPart).length
    some (token (wordKind (u :: r.take n)), n)
  else if u = CodeUnit.ofChar ':' then some (token .colon, 0)
  else (integer? u r).map fun n => (token .integer, n)

/-- How many units stand at the head of a text before one that begins something. -/
def junk : Text → Nat
  | [] => 0
  | u :: r => if (ofText? u r).isSome then 0 else junk r + 1

/-- The place after a lexeme of some units. -/
def placeAfter (x : Lexeme) (p : Place) (n : Nat) : Place :=
  if x = token .newline then p.nextLine n else p.advance n

end Lexeme

/-- What the scanning of a text yields. -/
inductive Lexed where
  | token (t : Token)
  | error (e : LexError)
deriving DecidableEq, Repr

namespace Lexed

/-- The tokens and errors of a text that begins at a place. -/
def scan (p : Place) : Text → List Lexed
  | [] => []
  | u :: r =>
    match Lexeme.ofText? u r with
    | some (x, n) =>
      let rest := scan (x.placeAfter p (n + 1)) (r.drop n)
      match x with
      | .token kind => token ⟨kind, u :: r.take n, p⟩ :: rest
      | _ => rest
    | none =>
      let n := Lexeme.junk r
      error ⟨u, p, n + 1⟩ :: scan (p.advance (n + 1)) (r.drop n)
termination_by s => s.length
decreasing_by all_goals simp only [List.length_drop, List.length_cons]; omega

/-- The tokens among what the scanning of a text yields. -/
def tokens (xs : List Lexed) : List Token :=
  xs.filterMap fun
    | token t => some t
    | error _ => none

/-- The errors among what the scanning of a text yields. -/
def errors (xs : List Lexed) : List LexError :=
  xs.filterMap fun
    | token _ => none
    | error e => some e

end Lexed

end Assembly

end StackMachine
