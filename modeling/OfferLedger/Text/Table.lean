/-! # Tables as texts

Rows of texts, a line for each row and tabs between its cells. Inside a cell the backslash, the tab and
the line feed are written with a backslash before a letter. -/
namespace OfferLedger.Text

def escapeCell : List Char → List Char
  | [] => []
  | c :: rest =>
    (if c = '\\' then ['\\', '\\']
     else if c = '\t' then ['\\', 't']
     else if c = '\n' then ['\\', 'n']
     else [c]) ++ escapeCell rest

/-- The cells after the first one follow a tab each, and a line feed ends the row. -/
def tableRow : List String → List Char
  | [] => ['\n']
  | [cell] => escapeCell cell.toList ++ ['\n']
  | cell :: rest => escapeCell cell.toList ++ '\t' :: tableRow rest

def writeTable (rows : List (List String)) : String := String.ofList (rows.flatMap tableRow)

def unescape (c : Char) : Char := if c = 't' then '\t' else if c = 'n' then '\n' else c

def readTableFrom : (cell : List Char) → (row : List String) → List Char → List (List String)
  | _, _, [] => []
  | cell, row, '\\' :: c :: rest => readTableFrom (unescape c :: cell) row rest
  | cell, row, c :: rest =>
    if c = '\t' then readTableFrom [] (String.ofList cell.reverse :: row) rest
    else if c = '\n' then
      (String.ofList cell.reverse :: row).reverse :: readTableFrom [] [] rest
    else readTableFrom (c :: cell) row rest

def readTable (s : String) : List (List String) := readTableFrom [] [] s.toList

example : readTable (writeTable [["a\tb", "\\n"], ["", "\n"]]) = [["a\tb", "\\n"], ["", "\n"]] := by
  decide +kernel

end OfferLedger.Text
