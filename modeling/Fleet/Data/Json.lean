import Fleet.Data.Basic
import Fleet.Text.Escaped
/-!
Data as JSON over several lines, two spaces a level. A tag becomes the only key of an object.
-/

namespace Fleet.Data

/-- Only quotes, backslashes and what comes before the space are escaped. -/
def jsonChar (c : Char) : String :=
  if c = '"' then "\\\""
  else if c = '\\' then "\\\\"
  else if c = '\x08' then "\\b"
  else if c = '\x0c' then "\\f"
  else if c = '\n' then "\\n"
  else if c = '\r' then "\\r"
  else if c = '\t' then "\\t"
  else if c.toNat < 0x10 then "\\u000" ++ Text.hex c.toNat
  else if c.toNat < 0x20 then "\\u00" ++ Text.hex c.toNat
  else c.toString

def jsonText (s : String) : String := "\"" ++ String.join (s.toList.map jsonChar) ++ "\""

/-- Items between brackets, each on a line of its own, or nothing between them. -/
def jsonLines (opening closing indent : String) (items : List String) : String :=
  if items.isEmpty then opening ++ closing
  else
    opening ++ "\n" ++ ",\n".intercalate (items.map fun item => indent ++ "  " ++ item) ++ "\n" ++
      indent ++ closing

mutual

/-- The JSON of data that begins somewhere on a line indented by `indent`. -/
def toJson (indent : String) : Data → String
  | null => "null"
  | number n => toString n.toNat
  | text s => jsonText s
  | list items => jsonLines "[" "]" indent (toJsonItems (indent ++ "  ") items)
  | record fields => jsonLines "\x7b" "\x7d" indent (toJsonFields (indent ++ "  ") fields)
  | tagged tag payload =>
    jsonLines "\x7b" "\x7d" indent [jsonText tag ++ ": " ++ toJson (indent ++ "  ") payload]

def toJsonItems (indent : String) : List Data → List String
  | [] => []
  | d :: rest => toJson indent d :: toJsonItems indent rest

def toJsonFields (indent : String) : List (String × Data) → List String
  | [] => []
  | (key, d) :: rest => (jsonText key ++ ": " ++ toJson indent d) :: toJsonFields indent rest

end

end Fleet.Data
