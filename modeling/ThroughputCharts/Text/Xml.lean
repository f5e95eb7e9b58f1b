/-!
# Escaped text

Inside markup the characters that open tags and entities, and the quote that ends attributes, are
written as entities.
-/

namespace ThroughputCharts
namespace Text

def escapeMarkupChar (char : Char) : List Char :=
  if char = '&' then "&amp;".toList
  else if char = '<' then "&lt;".toList
  else if char = '>' then "&gt;".toList
  else if char = '\x22' then "&quot;".toList
  else [char]

def escapeMarkup (text : String) : String :=
  String.ofList (text.toList.flatMap escapeMarkupChar)

end Text
end ThroughputCharts
