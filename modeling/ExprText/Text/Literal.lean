/-! # Literals

Quoted text with its escapes. -/

namespace ExprText.Text

/-- One character inside a literal that `quote` delimits. -/
def escapeChar (quote c : Char) : List Char :=
  if c = '\\' then ['\\', '\\']
  else if c = '\n' then ['\\', 'n']
  else if c = '\r' then ['\\', 'r']
  else if c = '\t' then ['\\', 't']
  else if c = '\x00' then ['\\', '0']
  else if c = quote then ['\\', quote]
  else [c]

def escape (quote : Char) (cs : List Char) : List Char :=
  cs.flatMap (escapeChar quote)

/-- The literal of a text, delimited by `quote`. -/
def quoted (quote : Char) (cs : List Char) : String :=
  String.ofList (quote :: (escape quote cs ++ [quote]))

end ExprText.Text
