/-!
# Writing comma-separated values

A field is quoted only when it has to be: when it holds a comma, a quote or a line end, or when it is
empty and alone in its row.
-/

namespace ThroughputCharts
namespace Csv

/-- Whether a character has a meaning of its own between fields. -/
def isSpecial (char : Char) : Bool :=
  char == ',' || char == '\x22' || char == '\n' || char == '\r'

/-- A field in quotes, with every quote inside written twice. -/
def quoteField (field : List Char) : List Char :=
  '\x22' :: (field.flatMap fun char => if char = '\x22' then [char, char] else [char]) ++ ['\x22']

/-- A field as it is written in a row of several. -/
def fieldText (field : List Char) : List Char :=
  if field.any isSpecial then quoteField field else field

def rowText (fields : List (List Char)) : List Char :=
  if fields = [[]] then
    quoteField [] ++ ['\n']
  else
    [','].intercalate (fields.map fieldText) ++ ['\n']

end Csv
end ThroughputCharts
