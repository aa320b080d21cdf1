import TypeGraft.Pattern.Template
import TypeGraft.Failure

/-!
# Aliases

A `TypeGraft.AliasRule` replaces a specifier, or the front of one, by another one. It looks for
a text, which has to be all of the specifier or to end in front of a slash, or for a pattern,
which has to match at the start.
-/

namespace TypeGraft

/-- What an alias looks for. -/
inductive Matcher where
  | text (text : String)
  | pattern (pattern : Pattern)
deriving Repr

/-- A rule for specifiers. -/
structure AliasRule where
  find : Matcher
  replacement : String
deriving Repr

namespace AliasRule

/-- A text without the slashes at its end. -/
def withoutSlashes (text : String) : List Char :=
  (text.toList.reverse.dropWhile (· == '/')).reverse

/-- What a rule makes of a specifier, if it applies to it. -/
def target? (rule : AliasRule) (specifier : String) : Except Failure (Option String) :=
  match rule.find with
  | .text find =>
    let front := withoutSlashes find
    if specifier = find then .ok (some rule.replacement)
    else if (front ++ ['/']).isPrefixOf specifier.toList then
      .ok (some (String.ofList
        (withoutSlashes rule.replacement ++ specifier.toList.drop front.length)))
    else .ok none
  | .pattern pattern =>
    match pattern.match? specifier with
    | none => .ok none
    | some matched =>
      match pattern.fill rule.replacement matched with
      | .ok text => .ok (some text)
      | .error .malformed => .error .badTemplate
      | .error .unknownName => .error .unknownGroup

/-- What the first rule that applies makes of a specifier; the specifier itself if none
does. -/
def applyFirst (rules : List AliasRule) (specifier : String) : Except Failure String :=
  match rules with
  | [] => .ok specifier
  | rule :: rest =>
    match rule.target? specifier with
    | .error failure => .error failure
    | .ok (some target) => .ok target
    | .ok none => applyFirst rest specifier

end AliasRule

end TypeGraft
