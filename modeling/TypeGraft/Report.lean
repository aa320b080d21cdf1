import TypeGraft.Json.Printer
import TypeGraft.Text.Blank
import TypeGraft.Text.Quoted

/-!
# Reports

How results are shown.

* `TypeGraft.Report.location` names a place in a file.
* `TypeGraft.Report.grid?` writes rows in columns.
* `TypeGraft.Report.envelope` puts a result under the members that all results have. The time
  of the report stands apart from the result, so that results can be compared.
-/

namespace TypeGraft.Report

/-- A place in a file, whose line may not be known. -/
def location (path : String) (line : Option Int) : String :=
  match line with
  | some line => s!"{path}:{line}"
  | none => path

/-! ### Grids -/

/-- The word for a number in a grid that is not finite, and its digits otherwise. -/
def numberText (value : Binary64) : String :=
  match value.text with
  | "NaN" => "nan"
  | "Infinity" => "inf"
  | "-Infinity" => "-inf"
  | text => text

mutual

/-- The text of a value inside of another one. -/
def innerText : Json → String
  | .null => "None"
  | .bool value => if value then "True" else "False"
  | .integer value => ToString.toString value
  | .real value => numberText value
  | .string text => Text.quoted text
  | .array items => "[" ++ String.intercalate ", " (innerTexts items) ++ "]"
  | .object members => "\x7b" ++ String.intercalate ", " (memberTexts members) ++ "\x7d"

/-- The texts of the items of an array. -/
def innerTexts : List Json → List String
  | [] => []
  | item :: rest => innerText item :: innerTexts rest

/-- The texts of the members of an object. -/
def memberTexts : List (String × Json) → List String
  | [] => []
  | (name, item) :: rest => (Text.quoted name ++ ": " ++ innerText item) :: memberTexts rest

end

/-- The text of a value in a cell. -/
def cellText : Json → String
  | .string text => text
  | json => innerText json

/-- Fill a text up with spaces at its end. -/
def padded (width : Nat) (text : String) : String :=
  text ++ String.ofList (List.replicate (width - text.length) ' ')

/-- Drop blanks from the end of a line. -/
def trimmedEnd (line : String) : String :=
  String.ofList ((line.toList.reverse.dropWhile Text.isBlank).reverse)

/-- The cells of a row in columns of given widths. -/
def gridLine (widths : List Nat) (row : List String) : String :=
  trimmedEnd (String.intercalate "  " (List.zipWith padded widths row))

/-- The widths of the columns that hold some rows of `count` cells. -/
def columnWidths (count : Nat) (rows : List (List String)) : List Nat :=
  rows.foldl (fun widths row => List.zipWith (fun w cell => max w cell.length) widths row)
    (List.replicate count 0)

/-- Rows in columns, under their heads and a rule. Every row has to have as many cells as there
are heads. -/
def grid? (heads : List String) (rows : List (List String)) : Option String :=
  if rows.isEmpty then some "(none)"
  else if rows.all fun row => row.length == heads.length then
    let widths := columnWidths heads.length (heads :: rows)
    let rule := String.intercalate "  " (widths.map fun w => String.ofList (List.replicate w '-'))
    some (String.intercalate "\n" (gridLine widths heads :: rule :: rows.map (gridLine widths)))
  else none

/-! ### Envelopes -/

/-- The name of the form of envelopes. -/
def schemaName : String := "typeinline-envelope-v1"

/-- The version of the form of envelopes. -/
def schemaVersion : String := "1.0.0"

/-- What identifies the program that reports, and when it does. -/
structure Stamp where
  version : String
  time : String
deriving Repr

/-- A result of a command under the members that all results have. -/
def envelope (stamp : Stamp) (command : String) (summary payload : List (String × Json)) : Json :=
  let shared : List (String × Json) :=
    [("schema", .string schemaName), ("schema_version", .string schemaVersion),
      ("command", .string command), ("version", .string stamp.version),
      ("summary", .object summary)]
  let members := payload.foldl (fun members m => Json.putMember members m.1 m.2) shared
  .object (Json.putMember members "_meta" (.object [("timestamp", .string stamp.time)]))

end TypeGraft.Report
