/-!
# Substrings

Search for a text inside another, and cutting at each occurrence of a separator.
-/

namespace DataExpr.Text

/-- Whether `needle` occurs in `text` as consecutive characters. -/
def occursIn (needle : List Char) : List Char → Bool
  | [] => needle.isEmpty
  | c :: rest => needle.isPrefixOf (c :: rest) || occursIn needle rest

/-- The parts between the occurrences of a separator, found from the left and without
    overlap.  The separator is `head :: tail`; `skip` characters of an occurrence are
    still to be passed, and `part` is the current part, reversed. -/
def splitFrom (head : Char) (tail : List Char) (skip : Nat) (part : List Char) :
    List Char → List (List Char)
  | [] => [part.reverse]
  | c :: rest =>
    match skip with
    | k + 1 => splitFrom head tail k part rest
    | 0 =>
      if (head :: tail).isPrefixOf (c :: rest) then
        part.reverse :: splitFrom head tail tail.length [] rest
      else splitFrom head tail 0 (c :: part) rest

/-- The parts between the occurrences of a separator; none of an empty separator. -/
def splitOn? (separator text : String) : Option (List String) :=
  match separator.toList with
  | [] => none
  | head :: tail => some ((splitFrom head tail 0 [] text.toList).map String.ofList)

end DataExpr.Text
