import TypeGraft.Failure

/-!
# Replacements

A `TypeGraft.Replacement` puts a text in the place of a span. `Replacement.applyAll` makes a
list of them at once, in a slice of a file that lies at a span of its own.

Spans that share a position are refused, and so are spans outside of the slice. The entries
are taken from the last to the first, so that the positions of the earlier ones stay right.
-/

namespace TypeGraft

/-- The text to put in the place of a span. -/
structure Replacement where
  span : Span
  text : String
deriving DecidableEq, Repr

namespace Replacement

/-- Replacements in reading order; entries at the same span keep their order. -/
def inOrder (entries : List Replacement) : List Replacement :=
  entries.mergeSort fun a b => a.span.le b.span

/-- The first two neighbours that share a position. -/
def clash? : List Replacement → Option (Span × Span)
  | a :: b :: rest => if a.span.overlaps b.span then some (a.span, b.span) else clash? (b :: rest)
  | _ => none

/-- Make replacements that are in order, the last one first. -/
def applyOrdered (raw : Bytes) (base : Span) : List Replacement → Except Failure Bytes
  | [] => .ok raw
  | entry :: rest =>
    match applyOrdered raw base rest with
    | .error failure => .error failure
    | .ok out =>
      match entry.span.rebased? base with
      | none => .error (.outside entry.span base)
      | some place =>
        .ok (out.take (Span.clamp out.length place.start) ++ Bytes.ofString entry.text ++
          out.drop (Span.clamp out.length place.stop))

/-- Make replacements in the bytes `raw`, which lie at `base`. -/
def applyAll (raw : Bytes) (base : Span) (entries : List Replacement) : Except Failure Bytes :=
  let ordered := inOrder entries
  match clash? ordered with
  | some (a, b) => .error (.overlapping a b)
  | none => applyOrdered raw base ordered

end Replacement

/-- The text of the members of a block, without the braces around it, ended so that further
members can follow: with a semicolon, unless it is blank or already ends in a semicolon, a
comma or a line feed. -/
def memberText (block : Bytes) : Bytes :=
  let trimmed := block.trim
  let opening : UInt8 := 0x7b
  let closing : UInt8 := 0x7d
  let inner : Bytes :=
    if trimmed.head? == some opening && trimmed.getLast? == some closing then
      ((block.dropWhile (· != opening)).drop 1).reverse.dropWhile (· != closing) |>.drop 1
        |>.reverse
    else trimmed
  let isSpace (b : UInt8) : Bool := b == 32 || b == 9
  let content : Bytes := Bytes.dropEndWhile isSpace inner
  let ended := match content.getLast? with
    | some b => b == 0x3b || b == 0x2c || b == 10
    | none => false
  if inner.trim.isEmpty || ended then inner else content ++ [0x3b]

end TypeGraft
