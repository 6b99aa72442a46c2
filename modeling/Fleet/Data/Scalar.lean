import Fleet.Text.Decimal
import Fleet.Text.Escaped
/-!
How a string stands in a YAML document: plain where it reads back as itself, in single quotes
where it would read back as something else or break the line's form, and in double quotes with
escapes where it holds characters that are not printable.
-/

namespace Fleet.Data.Scalar
open Fleet.Text

/-! ### Strings that a reader takes for another kind of scalar -/

def isNull (s : String) : Bool := ["null", "Null", "NULL", "~"].contains s

def isBool (s : String) : Bool :=
  ["true", "True", "TRUE", "false", "False", "FALSE"].contains s

def digitValue (c : Char) : Nat :=
  if c.isDigit then c.toNat - '0'.toNat
  else if 'a' ≤ c ∧ c ≤ 'z' then c.toNat - 'a'.toNat + 10
  else if 'A' ≤ c ∧ c ≤ 'Z' then c.toNat - 'A'.toNat + 10
  else 36

/-- The number that digits of a base spell, if there are any and all are of that base. -/
def digits? (base : Nat) (cs : List Char) : Option Nat :=
  if cs.isEmpty || !cs.all (fun c => digitValue c < base) then none
  else some (cs.foldl (fun n c => base * n + digitValue c) 0)

/-- Digits after the mark of their base, or decimal digits. -/
def magnitude? : List Char → Option Nat
  | '0' :: 'x' :: cs => digits? 16 cs
  | '0' :: 'o' :: cs => digits? 8 cs
  | '0' :: 'b' :: cs => digits? 2 cs
  | cs => digits? 10 cs

/-- An integer of 128 bits, signed or not. -/
def isInteger (s : String) : Bool :=
  match s.toList with
  | '-' :: cs => (magnitude? cs).any (· ≤ Nat.pow 2 127)
  | '+' :: cs => (magnitude? cs).any (· < Nat.pow 2 128)
  | cs => (magnitude? cs).any (· < Nat.pow 2 128)

/-- More digits after a zero are no number, though they look like one. -/
def isZeroPadded (s : String) : Bool :=
  let unsigned := match s.toList with
    | '-' :: cs | '+' :: cs => cs
    | cs => cs
  match unsigned with
  | '0' :: c :: cs => (c :: cs).all Char.isDigit
  | _ => false

/-- Some power of ten has at least this many zeros more than any finite double has digits. -/
def farExponent : Nat := 400

/-- A decimal of the given digits times a power of ten is below half a step over the largest
double, so that it is read as a finite one. -/
def isFinite (digits : List Char) (exponent : Int) : Bool :=
  let significant := digits.dropWhile (· == '0')
  let top := (significant.length : Int) + exponent
  let bound := Nat.pow 2 1024 - Nat.pow 2 970
  if significant.isEmpty || top < -(farExponent : Int) then true
  else if (farExponent : Int) < top then false
  else if 0 ≤ exponent then decimalValue significant * Nat.pow 10 exponent.toNat < bound
  else decimalValue significant < bound * Nat.pow 10 (-exponent).toNat

/-- An exponent: an optional sign and digits. -/
def exponent? : List Char → Option Int
  | '-' :: cs => (digits? 10 cs).map fun n => -(n : Int)
  | '+' :: cs => (digits? 10 cs).map fun n => (n : Int)
  | cs => (digits? 10 cs).map fun n => (n : Int)

/-- Digits with a point somewhere or none, and after them an exponent or none. -/
def isFiniteDecimal (cs : List Char) : Bool :=
  let whole := cs.takeWhile Char.isDigit
  let afterWhole := cs.dropWhile Char.isDigit
  let (fraction, rest) := match afterWhole with
    | '.' :: more => (more.takeWhile Char.isDigit, more.dropWhile Char.isDigit)
    | other => ([], other)
  let mantissa := whole ++ fraction
  let shift := (fraction.length : Int)
  if mantissa.isEmpty then false
  else match rest with
    | [] => isFinite mantissa (-shift)
    | 'e' :: tail | 'E' :: tail =>
      match exponent? tail with
      | some e => isFinite mantissa (e - shift)
      | none => false
    | _ => false

def isFloat (s : String) : Bool :=
  [".nan", ".NaN", ".NAN"].contains s ||
    [".inf", ".Inf", ".INF", "+.inf", "+.Inf", "+.INF", "-.inf", "-.Inf", "-.INF"].contains s ||
    match s.toList with
    | '-' :: cs | '+' :: cs => isFiniteDecimal cs
    | cs => isFiniteDecimal cs

/-- The string would not be read back as a string. -/
def isAmbiguous (s : String) : Bool :=
  s.isEmpty || isNull s || isBool s || isInteger s || isZeroPadded s || isFloat s

/-! ### Strings that break the form of a line -/

def isUnprintable (c : Char) : Bool :=
  let n := c.toNat
  n < 0x20 || 0x7f ≤ n && n ≤ 0x9f || n == 0xfeff || n == 0xfffe || n == 0xffff

/-- The line and paragraph separators, which end a line without being line feeds. -/
def isSeparator (c : Char) : Bool := c == '\u2028' || c == '\u2029'

def hasSeparatorBesideSpace : List Char → Bool
  | a :: b :: cs =>
    isSeparator a && b == ' ' || a == ' ' && isSeparator b || hasSeparatorBesideSpace (b :: cs)
  | _ => false

/-- A colon before a space or the end begins a value, and a hash after a space a comment. -/
def hasIndicator : List Char → Bool
  | [] => false
  | [c] => c == ':'
  | a :: b :: cs => a == ':' && b == ' ' || a == ' ' && b == '#' || hasIndicator (b :: cs)

def beginsWithIndicator : List Char → Bool
  | [] => false
  | c :: cs =>
    "#,[]\x7b\x7d&*!|>'\"%@`".toList.contains c ||
      (c == '?' || c == ':' || c == '-') && (cs.isEmpty || cs.head? == some ' ')

def beginsDocument (cs : List Char) : Bool :=
  ['-', '-', '-'].isPrefixOf cs || ['.', '.', '.'].isPrefixOf cs

/-- The string cannot stand as it is. -/
def needsQuotes (cs : List Char) : Bool :=
  cs.head? == some ' ' || cs.getLast? == some ' ' || beginsDocument cs || beginsWithIndicator cs ||
    hasIndicator cs || cs.any isSeparator

/-! ### The three styles -/

inductive Style where
  | plain | singleQuoted | doubleQuoted
deriving DecidableEq, Repr

def style (s : String) : Style :=
  let cs := s.toList
  if cs.any isUnprintable || hasSeparatorBesideSpace cs then .doubleQuoted
  else if isAmbiguous s || needsQuotes cs then .singleQuoted
  else .plain

/-- At least `width` upper case hexadecimal digits. -/
def paddedHex (width n : Nat) : String :=
  let digits := (Nat.toDigits 16 n).map Char.toUpper
  String.ofList (List.replicate (width - digits.length) '0' ++ digits)

def doubleQuotedChar (c : Char) : String :=
  let n := c.toNat
  if c = '"' then "\\\""
  else if c = '\\' then "\\\\"
  else if isSeparator c then (if c = '\u2028' then "\\L" else "\\P")
  else if !isUnprintable c then c.toString
  else match n with
    | 0x00 => "\\0"
    | 0x07 => "\\a"
    | 0x08 => "\\b"
    | 0x09 => "\\t"
    | 0x0a => "\\n"
    | 0x0b => "\\v"
    | 0x0c => "\\f"
    | 0x0d => "\\r"
    | 0x1b => "\\e"
    | 0x85 => "\\N"
    | _ => if n ≤ 0xff then "\\x" ++ paddedHex 2 n else "\\u" ++ paddedHex 4 n

/-- A quote is written twice. After separators the text goes on at an indentation. -/
def singleQuotedChars (indent : String) : List Char → String
  | [] => ""
  | c :: cs =>
    let here := if c = '\'' then "''" else c.toString
    let atLineStart := isSeparator c && !(cs.head?.any isSeparator)
    here ++ (if atLineStart then indent else "") ++ singleQuotedChars indent cs

/-- The text of a string in a record or list indented by `indent`. What follows a separator is
indented deeper than the line it goes on from. -/
def render (indent s : String) : String :=
  match style s with
  | .plain => s
  | .singleQuoted => "'" ++ singleQuotedChars (indent ++ "  ") s.toList ++ "'"
  | .doubleQuoted => "\"" ++ String.join (s.toList.map doubleQuotedChar) ++ "\""

end Fleet.Data.Scalar
