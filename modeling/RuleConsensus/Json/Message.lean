import RuleConsensus.Json.Reader
import RuleConsensus.Text.Quoted

set_option autoImplicit false
set_option relaxedAutoImplicit false

namespace RuleConsensus.Json

def Found.describe : Found → String
  | null => "null"
  | boolean b => s!"boolean `{b}`"
  | integer n => s!"integer `{n}`"
  | floating x => s!"floating point `{Layout.document.text x}`"
  | text s => s!"string {Text.quoted s}"
  | sequence => "sequence"
  | map => "map"
  | bareVariant => "unit variant"

def alternatives : List String → String
  | [a] => s!"`{a}`"
  | [a, b] => s!"`{a}` or `{b}`"
  | names => "one of " ++ ", ".intercalate (names.map fun name => s!"`{name}`")

def Malformed.message : Malformed → String
  | illFormed => "syntax"
  | invalidType found expected => s!"invalid type: {found.describe}, expected {expected}"
  | invalidValue found expected => s!"invalid value: {found.describe}, expected {expected}"
  | invalidLength length expected => s!"invalid length {length}, expected {expected}"
  | unknownVariant name expected =>
    s!"unknown variant `{name}`, expected {alternatives expected}"
  | unknownField name expected => s!"unknown field `{name}`, expected {alternatives expected}"
  | missingField name => s!"missing field `{name}`"
  | duplicateField name => s!"duplicate field `{name}`"

end RuleConsensus.Json
