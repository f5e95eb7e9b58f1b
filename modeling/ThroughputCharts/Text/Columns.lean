/-!
# Columns

A cell is filled up with blanks to the width of its column, counted in characters.  A cell that is
already wider is kept whole.
-/

namespace ThroughputCharts
namespace Text

def padRight (width : Nat) (cell : List Char) : List Char :=
  cell ++ List.replicate (width - cell.length) ' '

def padLeft (width : Nat) (cell : List Char) : List Char :=
  List.replicate (width - cell.length) ' ' ++ cell

end Text
end ThroughputCharts
