import EvmFlow.Text.Reader
import EvmFlow.Toml

/-!
# The grammar of settings files

* blanks, comments and keys;
* the kinds of values: dates and times, numbers, texts, arrays, tables in line;
* `Toml.expression`, `Toml.document`: one expression of a file, and the whole;
* `Toml.parts`: the parts of a file, in their order.
-/

namespace EvmFlow.Toml

open Reader

/-! ## Blanks, comments and keys -/

/-- Blanks within a line. -/
def blanks : Reader Unit := phrase do discard <| many (satisfy fun c => c == ' ' || c == '\t')

/-- One line end character. -/
def lineEnd : Reader Char := satisfy isLineEnd

/-- One line end or several. -/
def newline : Reader Unit := phrase do discard <| many1 lineEnd

/-- Blanks and line ends. -/
def blankLines : Reader Unit :=
  phrase do discard <| many (satisfy (fun c => c == ' ' || c == '\t') <|> phrase lineEnd)

/-- The characters that a comment may hold. -/
def isText (c : Char) : Bool := c == '\t' || 0x20 ≤ c.toNat

/-- A comment, up to the end of its line. -/
def comment : Reader Unit := phrase do
  char '#'
  discard <| source (many (satisfy isText))

/-- A decimal digit. -/
def digit : Reader Char := phrase (satisfy Char.isDigit)

/-- A hexadecimal digit. -/
def hexDigit : Reader Unit :=
  phrase do discard <| satisfy fun c => (hexDigit? c).isSome

/-- Four hexadecimal digits. -/
def hexQuad : Reader Unit := phrase do
  hexDigit
  hexDigit
  hexDigit
  hexDigit

/-- The backslash that starts an escape. -/
def escapeMark : Reader Unit := phrase (char '\\')

/-- A character that stands for itself between double quotes. -/
def plainChar : Reader Unit :=
  phrase do discard <| satisfy fun c => 0x20 ≤ c.toNat && c != '"' && c != '\\'

/-- An escape. -/
def escapeSequence : Reader Unit := phrase do
  escapeMark
  (do char 'u'; hexQuad) <|> (do char 'U'; hexQuad; hexQuad)
    <|> (do discard <| satisfy ("btnfr\"/\\".toList.contains ·))

/-- A character between double quotes, plain or by an escape. -/
def quotedChar : Reader Unit := phrase (plainChar <|> escapeSequence)

/-- The characters of a key without quotes. -/
def isKeyChar (c : Char) : Bool := c.isAlphanum || c == '_' || c == '-'

/-- A key, with or without quotes, as it is written. -/
def key : Reader String :=
  phrase <| source (many1 (satisfy isKeyChar))
    <|> source do
      char '"'
      discard <| many quotedChar
      char '"'

/-! ## Numbers, dates and times -/

/-- Digits, each of which may follow an underscore. -/
def moreDigit : Reader Unit := (do discard digit) <|> (do char '_'; discard digit)

/-- The sign of a number. -/
def sign : Reader Unit := do discard <| satisfy fun c => c == '-' || c == '+'

/-- The digits of an integer: no zero leads them. -/
def whole : Reader Unit :=
  phrase <| (do
      discard <| satisfy fun c => c.isDigit && c != '0'
      discard <| many1 moreDigit)
    <|> (do discard digit)

/-- An integer. -/
def integer : Reader Unit := phrase do
  optional sign
  whole

/-- The part of a number behind the point. -/
def fraction : Reader Unit := phrase do
  char '.'
  discard digit
  discard <| many moreDigit

/-- The exponent of a number. -/
def exponent : Reader Unit := phrase do
  discard <| satisfy fun c => c == 'e' || c == 'E'
  optional sign
  discard digit
  discard <| many moreDigit

/-- A number with a fraction, an exponent or both. -/
def float : Reader Unit := phrase do
  integer
  (do fraction; optional exponent) <|> (do optional fraction; exponent)

/-- The value of a decimal digit. -/
def digitValue : Reader Nat := do return (← digit).toNat - '0'.toNat

/-- A number of two digits. -/
def twoDigits : Reader Nat := phrase do
  let tens ← digitValue
  let ones ← digitValue
  return 10 * tens + ones

/-- A number of four digits. -/
def fourDigits : Reader Nat := phrase do
  let hundreds ← twoDigits
  let ones ← twoDigits
  return 100 * hundreds + ones

/-- A date. -/
def date : Reader Date := phrase do
  let year ← fourDigits
  char '-'
  let month ← twoDigits
  char '-'
  let day ← twoDigits
  return ⟨year, month, day⟩

/-- A time without its zone. -/
def time : Reader Time := phrase do
  let hour ← twoDigits
  char ':'
  let minute ← twoDigits
  char ':'
  let second ← twoDigits
  optional (phrase do
    char '.'
    many1 digit)
  return ⟨hour, minute, second⟩

/-- The hours and minutes of a zone. -/
def zoneDistance : Reader (Nat × Nat) := phrase do
  sign
  let hour ← twoDigits
  char ':'
  let minute ← twoDigits
  return (hour, minute)

/-- A zone: the universal time, or a distance from it. -/
def zone : Reader Zone := phrase <|
  (do
      char 'Z'
      return ⟨0, 0, "Z"⟩)
    <|> (do
      let ((hour, minute), text) ← withSource zoneDistance
      return ⟨hour, minute, text⟩)

/-- A time and perhaps its zone. -/
def zonedTime : Reader (Time × Option Zone) := phrase do
  let t ← time
  let z ← (do return some (← zone)) <|> pure none
  return (t, z)

/-- A date with or without a time, or a time alone. -/
def moment : Reader Moment := phrase <|
  (do
      let d ← date
      (do
          char 'T'
          let (t, z) ← zonedTime
          return .both d t z)
        <|> pure (.date d))
    <|> (do return .time (← time))

/-! ## Texts -/

/-- A text without the line ends at its start. -/
def trimLineEnds (s : String) : String :=
  String.ofList (s.toList.dropWhile fun c => c == '\r' || c == '\n')

/-- A text without the character at either end. -/
def unwrap (s : String) : String := String.ofList (s.toList.drop 1).dropLast

/-- A text between single quotes: it has no escapes. -/
def literalText : Reader Scalar := phrase do
  char '\''
  let s ← source (many (phrase (satisfy fun c => isText c && c != '\'')))
  char '\''
  return .text s

/-- A text of several lines between threefold single quotes. -/
def literalLines : Reader Scalar := phrase do
  text "'''"
  let s ← source <| phrase <| many do
    notFollowedBy (text "'''")
    (do discard <| phrase (satisfy isText)) <|> newline
  text "'''"
  return .text (trimLineEnds s)

/-- A text between double quotes. -/
def quotedText : Reader Scalar := phrase do
  let s ← source do
    char '"'
    discard <| many quotedChar
    char '"'
  return .escaped (unwrap s)

/-- A text of several lines between threefold double quotes; a backslash at the end of a line takes
the line end and the blanks behind it away. -/
def quotedLines : Reader Scalar := phrase do
  text "\"\"\""
  let pieces ← phrase <| many <|
    source (quotedChar <|> newline)
      <|> (do
        escapeMark
        newline
        blankLines
        return "")
  text "\"\"\""
  return .escaped (trimLineEnds (String.join pieces))

/-- A text of any kind. -/
def anyText : Reader Scalar :=
  phrase (literalLines <|> literalText <|> quotedLines <|> quotedText)

/-- A truth value. -/
def boolean : Reader Scalar :=
  phrase ((do text "true"; return .boolean true) <|> (do text "false"; return .boolean false))

/-! ## Values and entries -/

/-- Parts, given by what they make of the parts that follow them. Nested values are put together
this way without a copy for each level. -/
abbrev Parts := List Part → List Part

/-- The parts of a list, one after the other. -/
def joinParts (l : List Parts) : Parts :=
  fun following => l.foldr (fun parts rest => parts rest) following

/-- The event `e` at the place of the reader. -/
def happens (e : Event) : Reader Parts := do
  let part : Part := ⟨← line, e⟩
  return (part :: ·)

/-- A single value read by `r`. -/
def single (r : Reader Scalar) : Reader Parts := do happens (.value (← phrase r))

/-- An entry, given how values are read. -/
def entry (value : Reader Parts) : Reader Parts := phrase do
  let name ← happens (.key (← key))
  blanks
  char '='
  blanks
  let content ← value
  return name ∘ content ∘ (← happens .endEntry)

/-- Where comments may stand between the values of an array. -/
def arrayGap : Reader Unit := do
  blankLines
  optional comment
  blankLines

/-- The values of an array, with commas between them and perhaps one behind them. -/
def arrayValues (value : Reader Parts) : Reader Parts := phrase do
  let first ← value
  let others ← many do
    arrayGap
    phrase (char ',')
    arrayGap
    value
  blankLines
  optional (phrase (char ','))
  blankLines
  optional comment
  return first ∘ joinParts others

/-- An array. -/
def array (value : Reader Parts) : Reader Parts := phrase do
  char '['
  let start ← happens .openArray
  blankLines
  let values ← arrayValues value <|> pure id
  blankLines
  char ']'
  return start ∘ values ∘ (← happens .closeArray)

/-- A table written in line: entries with commas between them and perhaps one behind them. -/
def inlineTable (value : Reader Parts) : Reader Parts := phrase do
  char '\x7b'
  let start ← happens .openTable
  blanks
  let entries ← phrase <| many do
    let parts ← entry value
    optional (phrase do
      blanks
      char ','
      blanks)
    return parts
  blanks
  char '\x7d'
  return start ∘ joinParts entries ∘ (← happens .closeTable)

/-- A value that lies in fewer than `depth` arrays and tables. -/
def value : (depth : Nat) → Reader Parts
  | 0 => fail
  | depth + 1 => phrase <|
    single (do
        let (m, text) ← withSource moment
        return .datetime ⟨text, m⟩)
      <|> single (do return .float (← source float))
      <|> single (do return .integer (← source integer))
      <|> single anyText
      <|> single boolean
      <|> array (value depth)
      <|> inlineTable (value depth)

/-! ## Expressions -/

/-- The title of a table, as it is written, and the keys in it: points stand between them. -/
def title : Reader (List String × String) := withSource <| phrase do
  let first ← key
  let others ← many do
    phrase do
      blanks
      char '.'
      blanks
    key
  return first :: others

/-- The header of a table. -/
def header : Reader Parts := phrase <|
  (phrase do
      char '['
      blanks
      let (keys, name) ← title
      blanks
      char ']'
      happens (.header name keys))
    <|> (phrase do
      text "[["
      blanks
      let (keys, name) ← title
      blanks
      text "]]"
      happens (.element name keys))

/-- Blanks and perhaps a comment behind an expression. -/
def ending : Reader Unit := do
  blanks
  optional comment

/-- A header with the entries that follow it, an entry alone, or no more than a comment. -/
def expression (depth : Nat) : Reader Parts := phrase <|
  (phrase do
      blanks
      let head ← header
      ending
      let entries ← many do
        blankLines
        let parts ← entry (value depth)
        ending
        return parts
      return head ∘ joinParts entries)
    <|> (do
      blanks
      let parts ← entry (value depth)
      ending
      return parts)
    <|> (do
      ending
      return id)

/-- A whole file: expressions with line ends between them. -/
def document (depth : Nat) : Reader Parts := do
  let first ← expression depth
  let others ← many do
    newline
    expression depth
  optional newline
  ended
  return first ∘ joinParts others

/-- The parts of a file in their order. A value cannot lie deeper than the file is long. -/
def parts (s : String) : Except Error (List Part) :=
  match (document (s.length + 1)).run s with
  | .ok parts => .ok (parts [])
  | .error line => .error ⟨line, .malformed⟩

end EvmFlow.Toml
