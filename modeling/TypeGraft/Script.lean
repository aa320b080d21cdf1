import TypeGraft.Syntax.Script.Statements
import TypeGraft.Outline.Scan
import TypeGraft.Text.Lowercase

/-!
# Scripts

From the bytes of a script at a path to its tree and its outline.

A path tells the dialect by its extension (`TypeGraft.Script.dialect?`). A script that is not
of its dialect is refused as a whole, and the fault does not say where.
-/

namespace TypeGraft.Script

open Syntax Syntax.Script

/-- The last component of a path. -/
def baseName (path : List Char) : List Char :=
  (path.reverse.takeWhile (· != '/')).reverse

/-- The extension of a file name, with its point: from the last point on, unless nothing but
points stands before it. -/
def extension (name : List Char) : List Char :=
  let tail := (name.reverse.takeWhile (· != '.')).reverse
  let stem := name.take (name.length - tail.length - 1)
  if tail.length == name.length || stem.all (· == '.') then [] else '.' :: tail

/-- The dialect of the file at a path, `none` if the file holds no script. -/
def dialect? (path : String) : Option Dialect :=
  let name := (Text.lowercase (String.ofList (baseName path.toList))).toList
  if ".d.ts".toList.isSuffixOf name then some .plain
  else
    let ext := String.ofList (extension name)
    if [".ts", ".mts", ".cts"].contains ext then some .plain
    else if ext = ".tsx" then some .elements
    else none

/-- The tree of the script at a path. Where a script goes wrong is not found out, so the fault has
line 0, column 0 and no text, whatever is wrong with the script. -/
def tree (dialect : Dialect) (path : String) (source : Bytes) : Except Fault Node :=
  match parse dialect source with
  | some node => .ok node
  | none => .error (.malformed path 0 0 "")

/-- The outline of the script at a path, and the warnings of its scan. -/
def outline (strict : Bool) (path : String) (source : Bytes) : Outline.Scan :=
  (tree ((dialect? path).getD .plain) path source).bind (Outline.ofTree strict path source)

end TypeGraft.Script
