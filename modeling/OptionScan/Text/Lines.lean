import OptionScan.Text.Blank

/-!
Lines, words and other pieces of a text.
-/

namespace OptionScan

/-- A line without the carriage return that may stand before its line feed. The line is given from
its end. -/
def dropReturn : (reversed : List Char) → List Char
  | '\r' :: rest => rest
  | all => all

/-- The lines of a text, after a part of the first one, which is given from its end. -/
def linesFrom (reversed : List Char) : List Char → List (List Char)
  | [] => if reversed.isEmpty then [] else [reversed.reverse]
  | c :: rest =>
    if c = '\n' then (dropReturn reversed).reverse :: linesFrom [] rest
    else linesFrom (c :: reversed) rest

def lines (text : String) : List String :=
  (linesFrom [] text.toList).map String.ofList

def unlines : List String → String
  | [] => ""
  | line :: rest => line ++ "\n" ++ unlines rest

/-- The pieces of a text, after a part of the first one, which is given from its end. -/
def piecesFrom (separates : Char → Bool) (reversed : List Char) : List Char → List (List Char)
  | [] => if reversed.isEmpty then [] else [reversed.reverse]
  | c :: rest =>
    if separates c then
      if reversed.isEmpty then piecesFrom separates [] rest
      else reversed.reverse :: piecesFrom separates [] rest
    else piecesFrom separates (c :: reversed) rest

def pieces (separates : Char → Bool) (text : String) : List String :=
  (piecesFrom separates [] text.toList).map String.ofList

def words (text : String) : List String :=
  pieces isBlank text

def textAfter? (key text : String) : Option String :=
  if key.toList.isPrefixOf text.toList then
    some (String.ofList (text.toList.drop key.toList.length))
  else
    none

end OptionScan
