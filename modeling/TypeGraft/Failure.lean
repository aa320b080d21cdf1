import TypeGraft.Span
import TypeGraft.Text.Quoted

/-!
# What can go wrong

* `TypeGraft.Fault`: the errors that are reported to a user, each with its message and the
  code that the command line exits with.
* `TypeGraft.Failure`: all that may end an operation, which is a fault or a condition that
  nothing reports.
-/

namespace TypeGraft

open Text (quoted)

/-- An error that is reported to a user. -/
inductive Fault where
  /-- A source file cannot be read. -/
  | unreadable (path reason : String)
  /-- A source file is not of the language. -/
  | malformed (path : String) (line column : Nat) (snippet : String)
  /-- A file declares one name twice. -/
  | redeclared (path name : String) (first second : Nat)
  /-- The configuration cannot be used. -/
  | configuration (message : String)
  /-- Another error, with the code to exit with. -/
  | other (message : String) (exitCode : Int)
deriving DecidableEq, Repr

namespace Fault

/-- The message of an error. -/
def message : Fault → String
  | unreadable path reason =>
    "Cannot read " ++ path ++ (if reason = "" then "" else ": " ++ reason)
  | malformed path line column snippet =>
    s!"Syntax error in {path}:{line}:{column}" ++
      (if snippet = "" then "" else " near " ++ quoted snippet)
  | redeclared path name first second =>
    s!"{path}:{second}: type {quoted name} already declared at line {first}"
  | configuration message => message
  | other message _ => message

/-- The code to exit with. -/
def exitCode : Fault → Int
  | unreadable _ _ => 3
  | malformed _ _ _ _ => 4
  | redeclared _ _ _ _ => 4
  | configuration _ => 5
  | other _ code => code

end Fault

/-- The meanings of the codes that the command line exits with. -/
def exitMeaning? (code : Int) : Option String :=
  if code = 0 then some "success"
  else if code = 1 then some "unexpected error"
  else if code = 2 then some "invalid usage (bad arguments or flags)"
  else if code = 3 then some "a source file could not be read"
  else if code = 4 then some "a source file contains syntax errors"
  else if code = 5 then some "invalid configuration"
  else if code = 6 then some "partial results (some requested types stayed unresolved)"
  else none

/-- What ends an operation. -/
inductive Failure where
  | fault (fault : Fault)
  /-- A span is to be counted from the start of a span that does not contain it. -/
  | outside (span base : Span)
  /-- Two replacements share a position. -/
  | overlapping (first second : Span)
  /-- Bytes that are to be shown as text are not well-formed. -/
  | undecodable
  /-- A path to look for has no last component. -/
  | namelessPath
  /-- A path to follow holds a null character. -/
  | nullInPath
  /-- A pattern of an alias is not well-formed. -/
  | badPattern
  /-- The replacement of an alias is not well-formed, or names a group that its pattern does
  not have. -/
  | badTemplate
  /-- The replacement of an alias names a group by a name that no group has. -/
  | unknownGroup
  /-- The base of the paths in a configuration is not a text. -/
  | baseNotText
  /-- The paths in a configuration are not an object. -/
  | pathsNotObject
  /-- A search read more files than there are. -/
  | unfinished
deriving DecidableEq, Repr

/-- What is said of a failure. -/
def Failure.message : Failure → String
  | fault f => f.message
  | outside span base => s!"span {span.describe} lies outside slice {base.describe}"
  | overlapping first second =>
    s!"overlapping replacements at {first.describe} and {second.describe}"
  | undecodable => "text is not well-formed UTF-8"
  | namelessPath => "path has no last component"
  | nullInPath => "path holds a null character"
  | badPattern => "pattern of an alias is not well-formed"
  | badTemplate => "replacement of an alias is not well-formed"
  | unknownGroup => "replacement of an alias names an unknown group"
  | baseNotText => "'baseUrl' must be a path"
  | pathsNotObject => "'paths' must be a JSON object"
  | unfinished => "search was not finished"

end TypeGraft
