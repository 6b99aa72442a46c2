/-!
Paths and file names as the system has them: bytes, which need not be text.
-/

namespace Fleet

/-- The bytes of a path, or of a name in it. -/
abbrev OsText := List UInt8

/-- What can be at a path. -/
inductive Kind where
  | file | dir | other
deriving DecidableEq, Repr

namespace OsText

/-- The bytes of a text. -/
def ofText (text : String) : OsText := text.toList.flatMap String.utf8EncodeChar

/-- The text that the bytes are, if they are one. -/
def text? (name : OsText) : Option String := String.fromUTF8? name.toByteArray

/-- Whether a byte can be the second one of a character of three bytes or four that begins with
another byte. -/
def goesOn (lead second : UInt8) : Bool :=
  if lead = 0xE0 then 0xA0 ≤ second && second ≤ 0xBF
  else if lead = 0xED then 0x80 ≤ second && second ≤ 0x9F
  else if lead = 0xF0 then 0x90 ≤ second && second ≤ 0xBF
  else if lead = 0xF4 then 0x80 ≤ second && second ≤ 0x8F
  else 0xE1 ≤ lead && lead ≤ 0xF3 && 0x80 ≤ second && second ≤ 0xBF

/-- How many bytes at the front, of those that begin no character as a whole, belong together: as
many as a character could begin with, and one at least. -/
def brokenFront : OsText → Nat
  | lead :: second :: rest =>
    if goesOn lead second then
      match rest with
      | third :: _ => if 0xF0 ≤ lead && 0x80 ≤ third && third ≤ 0xBF then 3 else 2
      | [] => 2
    else 1
  | _ => 1

theorem brokenFront_pos (bytes : OsText) : 0 < brokenFront bytes := by
  unfold brokenFront
  split
  · split
    · split
      · split <;> decide
      · decide
    · decide
  · decide

/-- The characters of bytes, with a replacement character wherever they begin none. -/
def mended : OsText → List Char
  | [] => []
  | b :: bytes =>
    match ((b :: bytes).take 4).toByteArray.utf8DecodeChar? 0 with
    | some c => c :: mended ((b :: bytes).drop c.utf8Size)
    | none => '\uFFFD' :: mended ((b :: bytes).drop (brokenFront (b :: bytes)))
termination_by bytes => bytes.length
decreasing_by
  · have := c.utf8Size_pos
    simp only [List.length_drop, List.length_cons]
    omega
  · have := brokenFront_pos (b :: bytes)
    simp only [List.length_drop, List.length_cons]
    omega

/-- The bytes for a person to read. -/
def shown (name : OsText) : String := name.text?.getD (String.ofList name.mended)

/-! ## Names -/

def slash : UInt8 := 47

/-- The name of a directory in itself. -/
def dot : OsText := [46]

/-- The name in a directory of the one above it. -/
def dots : OsText := [46, 46]

/-- The names of a path between slashes, and whether it has to end at a directory. -/
def split (path : OsText) : List OsText × Bool :=
  let parts := path.splitOn slash
  (parts.filter fun p => !p.isEmpty, parts.getLast? == some [])

/-- A path with one more name at its end. -/
def join (path name : OsText) : OsText :=
  if path.isEmpty || path.getLast? == some slash then path ++ name else path ++ slash :: name

/-- The last name of a path, or all of a path that does not end in a name. -/
def fileName (path : OsText) : OsText :=
  match (path.split.1.filter (· ≠ dot)).getLast? with
  | some name => if name = dots then path else name
  | none => path

end OsText

end Fleet
