import SchemaKeeper.Json.Basic
import SchemaKeeper.Number.Shortest
import SchemaKeeper.Text.Quoted

/-!
# Writing documents

`Json.compact` writes a document on one line without space.  `Json.pretty` gives every item and
member a line of its own, two spaces deeper than the bracket around it; an empty array or object
stays on its line.
-/
namespace SchemaKeeper.Json

/-- Joins texts with a separator between them. -/
def separated (separator : String) : List String → String
  | [] => ""
  | [s] => s
  | s :: rest => s ++ separator ++ separated separator rest

mutual

/-- The document on one line. -/
def compact : Json → String
  | .null => "null"
  | .bool b => if b then "true" else "false"
  | .int n => toString n
  | .float x => x.text
  | .string s => Text.quoted s
  | .array items => "[" ++ separated "," (compactItems items) ++ "]"
  | .object members => "\x7b" ++ separated "," (compactMembers members) ++ "\x7d"

def compactItems : List Json → List String
  | [] => []
  | j :: js => compact j :: compactItems js

def compactMembers : List (String × Json) → List String
  | [] => []
  | (k, j) :: js => (Text.quoted k ++ ":" ++ compact j) :: compactMembers js

end

/-- A line end and the space before what stands at the given depth. -/
def newLine (depth : Nat) : String := String.ofList ('\n' :: List.replicate (2 * depth) ' ')

/-- Lines between two brackets. -/
def block (depth : Nat) (opening closing : String) (lines : List String) : String :=
  match lines with
  | [] => opening ++ closing
  | lines =>
    opening ++ newLine (depth + 1) ++ separated ("," ++ newLine (depth + 1)) lines
      ++ newLine depth ++ closing

mutual

/-- The document over several lines, the first of them at the given depth. -/
def prettyAt (depth : Nat) : Json → String
  | .array items => block depth "[" "]" (prettyItems (depth + 1) items)
  | .object members => block depth "\x7b" "\x7d" (prettyMembers (depth + 1) members)
  | .null => "null"
  | .bool b => if b then "true" else "false"
  | .int n => toString n
  | .float x => x.text
  | .string s => Text.quoted s

def prettyItems (depth : Nat) : List Json → List String
  | [] => []
  | j :: js => prettyAt depth j :: prettyItems depth js

def prettyMembers (depth : Nat) : List (String × Json) → List String
  | [] => []
  | (k, j) :: js => (Text.quoted k ++ ": " ++ prettyAt depth j) :: prettyMembers depth js

end

/-- The document over several lines. -/
def pretty (j : Json) : String := prettyAt 0 j

end SchemaKeeper.Json
