/-!
Taking terminal control sequences out of a text. A terminal reads them as a machine of a few
modes; what it would print, and line feeds, are what is left.
-/

namespace Fleet.Text.ControlSequence

/-- What the terminal is in the middle of. -/
inductive Mode where
  | ground
  | escape
  | escapeIntermediate
  /-- Between `ESC [` and its final character. -/
  | control
  /-- A device string: its parameters, its intermediate characters, and what it carries. -/
  | deviceEntry | deviceParameter | deviceIntermediate | deviceBody
  /-- A command to the system, ended by the bell. -/
  | systemCommand
  /-- A string that is ignored up to its terminator. -/
  | ignoredString
deriving DecidableEq, Repr

/-- One of the bytes of the character is the string terminator of eight bit codes. -/
def holdsTerminator (c : Char) : Bool := c.toString.toUTF8.toList.contains 0x9c

/-- Whether the character is printed in the mode, and the mode after it. -/
def step (m : Mode) (c : Char) : Bool × Mode :=
  let n := c.toNat
  let lineFeed := c == '\n'
  if n = 0x18 ∨ n = 0x1a then (false, .ground)
  else if n = 0x1b then (false, .escape)
  else match m with
  | .ground => (0x20 ≤ n || lineFeed, .ground)
  | .escape =>
    if n < 0x20 then (lineFeed, .escape)
    else if 0x7f ≤ n then (false, .escape)
    else if n < 0x30 then (false, .escapeIntermediate)
    else if c = '[' then (false, .control)
    else if c = ']' then (false, .systemCommand)
    else if c = 'P' then (false, .deviceEntry)
    else if c = 'X' ∨ c = '^' ∨ c = '_' then (false, .ignoredString)
    else (false, .ground)
  | .escapeIntermediate =>
    if n < 0x20 then (lineFeed, .escapeIntermediate)
    else if 0x30 ≤ n ∧ n < 0x7f then (false, .ground)
    else (false, .escapeIntermediate)
  | .control =>
    if n < 0x20 then (lineFeed, .control)
    else if 0x40 ≤ n ∧ n < 0x7f then (false, .ground)
    else (false, .control)
  | .deviceEntry =>
    if 0x40 ≤ n ∧ n < 0x7f then (false, .deviceBody)
    else if 0x30 ≤ n ∧ n < 0x40 then (false, .deviceParameter)
    else if 0x20 ≤ n ∧ n < 0x30 then (false, .deviceIntermediate)
    else (false, .deviceEntry)
  | .deviceParameter =>
    if 0x3c ≤ n ∧ n < 0x7f then (false, .deviceBody)
    else if 0x20 ≤ n ∧ n < 0x30 then (false, .deviceIntermediate)
    else (false, .deviceParameter)
  | .deviceIntermediate =>
    if 0x30 ≤ n ∧ n < 0x7f then (false, .deviceBody) else (false, .deviceIntermediate)
  | .deviceBody => (false, if holdsTerminator c then .ground else .deviceBody)
  | .systemCommand => (false, if n = 0x07 then .ground else .systemCommand)
  | .ignoredString => (false, if holdsTerminator c then .ground else .ignoredString)

/-- The characters that are printed, from a mode on. -/
def printed : Mode → List Char → List Char
  | _, [] => []
  | m, c :: cs =>
    let (keep, next) := step m c
    if keep then c :: printed next cs else printed next cs

end Fleet.Text.ControlSequence

namespace Fleet.Text

def stripControls (text : String) : String :=
  String.ofList (ControlSequence.printed .ground text.toList)

end Fleet.Text
