/-
# Lexemes of JSON text

A text falls into marks of punctuation, quoted strings, and words: the longest runs of all other
characters.  Blanks stand between lexemes and belong to none.
-/
namespace BinarySchema

namespace Json

/-- A mark of punctuation. -/
inductive Mark where
  /-- A bracket that opens an array. -/
  | openList
  /-- A bracket that closes an array. -/
  | closeList
  /-- A brace that opens an object. -/
  | openObject
  /-- A brace that closes an object. -/
  | closeObject
  /-- A comma. -/
  | comma
  /-- A colon. -/
  | colon
  deriving DecidableEq, Repr

/-- The mark that a character is. -/
def Mark.ofChar? : Char → Option Mark
  | '[' => some .openList
  | ']' => some .closeList
  | '\x7b' => some .openObject
  | '\x7d' => some .closeObject
  | ',' => some .comma
  | ':' => some .colon
  | _ => none

/-- A piece of JSON text. -/
inductive Lexeme where
  /-- A mark of punctuation. -/
  | mark (m : Mark)
  /-- A string, without its quotes and with its escapes as they are written. -/
  | quoted (content : List Char)
  /-- A literal or a number. -/
  | word (content : List Char)
  deriving DecidableEq, Repr

namespace Lexeme

/-- Whether a character may stand between lexemes. -/
def isBlank (c : Char) : Bool := c = ' ' || c = '\t' || c = '\n' || c = '\x0d'

/-- Where the reader of lexemes stands. -/
inductive Context where
  /-- Between lexemes. -/
  | outside
  /-- In a word; its characters so far, the last one first. -/
  | word (taken : List Char)
  /-- In a string; its characters so far, the last one first. -/
  | quoted (taken : List Char)
  /-- In a string, right after a backslash. -/
  | escaped (taken : List Char)

/-- The lexemes so far, the last one first, once a word that is under way has ended. -/
def Context.close (done : List Lexeme) : Context → List Lexeme
  | .word taken => .word taken.reverse :: done
  | _ => done

/-- The lexemes of a text, or `none` if a string is not closed.  `done` holds those before the
text, the last one first. -/
def scan (done : List Lexeme) : Context → List Char → Option (List Lexeme)
  | .quoted _, [] => none
  | .escaped _, [] => none
  | context, [] => some (context.close done).reverse
  | .escaped taken, c :: rest => scan done (.quoted (c :: taken)) rest
  | .quoted taken, c :: rest =>
    if c = '"' then scan (.quoted taken.reverse :: done) .outside rest
    else if c = '\\' then scan done (.escaped (c :: taken)) rest
    else scan done (.quoted (c :: taken)) rest
  | context, c :: rest =>
    if c = '"' then scan (context.close done) (.quoted []) rest
    else if isBlank c then scan (context.close done) .outside rest
    else
      match Mark.ofChar? c with
      | some m => scan (.mark m :: context.close done) .outside rest
      | none =>
        match context with
        | .word taken => scan done (.word (c :: taken)) rest
        | _ => scan done (.word [c]) rest

/-- The lexemes of a text, or `none` if a string is not closed. -/
def ofText? (s : List Char) : Option (List Lexeme) := scan [] .outside s

/-! ## The content of strings -/

/-- The value of a hexadecimal digit. -/
def hexDigit? (c : Char) : Option Nat :=
  if c.isDigit then some (c.toNat - '0'.toNat)
  else if 'a' ≤ c ∧ c ≤ 'f' then some (c.toNat - 'a'.toNat + 10)
  else if 'A' ≤ c ∧ c ≤ 'F' then some (c.toNat - 'A'.toNat + 10)
  else none

/-- The value of four hexadecimal digits. -/
def hexUnit? (a b c d : Char) : Option Nat := do
  return (((← hexDigit? a) * 16 + (← hexDigit? b)) * 16 + (← hexDigit? c)) * 16 + (← hexDigit? d)

/-- The character behind a backslash and a letter. -/
def letterMeaning? : Char → Option Char
  | '"' => some '"'
  | '\\' => some '\\'
  | '/' => some '/'
  | 'b' => some '\x08'
  | 'f' => some '\x0c'
  | 'n' => some '\n'
  | 'r' => some '\x0d'
  | 't' => some '\t'
  | _ => none

/-- A string element: a character, or a 16-bit unit that was written by its number. -/
inductive Element where
  /-- A character. -/
  | char (c : Char)
  /-- A 16-bit unit. -/
  | unit (n : Nat)

/-- The elements of a string, or `none` if an escape is malformed or a control character stands
bare. -/
def elements? : List Char → Option (List Element)
  | [] => some []
  | '\\' :: 'u' :: a :: b :: c :: d :: rest => do
    let n ← hexUnit? a b c d
    return .unit n :: (← elements? rest)
  | '\\' :: c :: rest => do
    let meaning ← letterMeaning? c
    return .char meaning :: (← elements? rest)
  | c :: rest => do
    if c = '\\' ∨ c.toNat < 0x20 then none
    return .char c :: (← elements? rest)

/-- The text of a string, or `none` if it holds half a surrogate pair. -/
def text? : List Element → Option (List Char)
  | [] => some []
  | .char c :: rest => (text? rest).map (c :: ·)
  | .unit high :: .unit low :: rest =>
    if 0xD800 ≤ high ∧ high < 0xDC00 then
      if 0xDC00 ≤ low ∧ low < 0xE000 then
        (text? rest).map (Char.ofNat (0x10000 + (high - 0xD800) * 0x400 + (low - 0xDC00)) :: ·)
      else none
    else if 0xDC00 ≤ high ∧ high < 0xE000 then none
    else (text? (.unit low :: rest)).map (Char.ofNat high :: ·)
  | .unit n :: rest =>
    if 0xD800 ≤ n ∧ n < 0xE000 then none else (text? rest).map (Char.ofNat n :: ·)

/-- The content of a string: `none` if it is malformed, and `some none` if it is well-formed but
holds half a surrogate pair. -/
def content? (raw : List Char) : Option (Option String) :=
  (elements? raw).map fun elements => (text? elements).map String.ofList

end Lexeme

end Json

end BinarySchema
