import Fleet.Data.Basic
import Fleet.Data.Scalar
/-!
Data as YAML in block style. Lists are not indented under their key, fields are by two spaces, and
a tag stands before what it tags.
-/

namespace Fleet.Data

mutual

/-- What follows a key on a line indented by `indent`, up to the end of its last line. -/
def yamlValue (indent : String) : Data → String
  | null => " null\n"
  | number n => " " ++ toString n.toNat ++ "\n"
  | text s => " " ++ Scalar.render indent s ++ "\n"
  | list [] => " []\n"
  | list items => "\n" ++ yamlItems indent items
  | record [] => " \x7b\x7d\n"
  | record fields => "\n" ++ indent ++ "  " ++ yamlFields (indent ++ "  ") fields
  | tagged tag payload => " !" ++ tag ++ yamlValue indent payload

/-- What follows a dash at the indentation `indent`. -/
def yamlItem (indent : String) : Data → String
  | record (field :: fields) => " " ++ yamlFields (indent ++ "  ") (field :: fields)
  | list (item :: items) => "\n" ++ yamlItems (indent ++ "  ") (item :: items)
  | d => yamlValue indent d

/-- The items of a list, each after a dash. -/
def yamlItems (indent : String) : List Data → String
  | [] => ""
  | d :: rest => indent ++ "-" ++ yamlItem indent d ++ yamlItems indent rest

/-- The fields of a record, the first one at the place reached already. -/
def yamlFields (indent : String) : List (String × Data) → String
  | [] => ""
  | [(key, d)] => Scalar.render indent key ++ ":" ++ yamlValue indent d
  | (key, d) :: rest =>
    Scalar.render indent key ++ ":" ++ yamlValue indent d ++ indent ++ yamlFields indent rest

end

/-- A whole document; its outermost record is not indented. -/
def toYaml : Data → String
  | record fields => yamlFields "" fields
  | list items => yamlItems "" items
  | d => (yamlValue "" d).drop 1 |>.toString

end Fleet.Data
