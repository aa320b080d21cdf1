import Mathlib.Data.List.Chain
import Mathlib.Data.List.TakeWhile
import TypeGraft.Json.Commented

/-!
# The pieces of a JSON text with comments

A text with comments is a sequence of tokens, blanks and comments
(`TypeGraft.Json.Piece`). It is written down one piece after the other
(`TypeGraft.Json.spelled`), where a line comment takes up all that is left of its line
(`TypeGraft.Json.LinesEnd`).

Taking comments and last commas out of such a text keeps the pieces that are neither a comment
nor a comma in front of a closing mark (`TypeGraft.Json.remaining`), each as it is:
`TypeGraft.Json.withoutCommentsIn_spelled`. The scan goes by characters and knows no tokens, so
this is proved piece by piece, and says for each kind of piece how the scan gets from its first
character to the one behind its last.
-/

namespace TypeGraft.Json

open Text (isBlank)

/-! ### Pieces -/

/-- The marks of JSON. -/
inductive Mark where
  | openBracket
  | closeBracket
  | openBrace
  | closeBrace
  | colon
  | comma
deriving DecidableEq, Repr

/-- A mark, as it is written. -/
def Mark.char : Mark → Char
  | openBracket => '['
  | closeBracket => ']'
  | openBrace => '\x7b'
  | closeBrace => '\x7d'
  | colon => ':'
  | comma => ','

/-- Whether a mark ends an array or an object. -/
def Mark.closes : Mark → Bool
  | closeBracket | closeBrace => true
  | _ => false

/-- What may stand between the quotes of a string: a backslash is never alone, and a quote
only stands behind one. -/
inductive Enclosed : List Char → Prop
  | nil : Enclosed []
  | plain {c : Char} {rest : List Char} (hquote : c ≠ '"') (hslash : c ≠ '\\')
      (h : Enclosed rest) : Enclosed (c :: rest)
  | escaped (c : Char) {rest : List Char} (h : Enclosed rest) : Enclosed ('\\' :: c :: rest)

/-- Whether a character may be part of a number or of a constant: it is neither blank nor a mark,
and it begins neither a string nor a comment. -/
def isWordChar (c : Char) : Bool :=
  !isBlank c && !(['[', ']', '\x7b', '\x7d', ':', ',', '"', '/'].contains c)

/-- A part of a JSON text with comments. -/
inductive Piece where
  | mark (mark : Mark)
  /-- A number or a constant. -/
  | word (chars : List Char) (nonempty : chars ≠ []) (fits : ∀ c ∈ chars, isWordChar c = true)
  | string (inside : List Char) (enclosed : Enclosed inside)
  | blank (c : Char) (isBlank : isBlank c = true)
  /-- Two slashes, with what comes after them on the line. -/
  | lineComment (inside : List Char) (inLine : '\n' ∉ inside)
  | blockComment (inside : List Char) (unclosed : ¬['*', '/'] <:+: inside)

namespace Piece

/-- A piece, as it is written. -/
def text : Piece → List Char
  | mark m => [m.char]
  | word chars _ _ => chars
  | string inside _ => '"' :: (inside ++ ['"'])
  | blank c _ => [c]
  | lineComment inside _ => '/' :: '/' :: inside
  | blockComment inside _ => '/' :: '*' :: (inside ++ ['*', '/'])

/-- Whether a piece is a comment. -/
def isComment : Piece → Bool
  | lineComment _ _ | blockComment _ _ => true
  | _ => false

/-- Whether a piece is a comment that ends with its line. -/
def isLineComment : Piece → Bool
  | lineComment _ _ => true
  | _ => false

/-- Whether a piece is a comma. -/
def isComma : Piece → Bool
  | mark .comma => true
  | _ => false

end Piece

/-- Pieces, written one after the other. -/
def spelled (pieces : List Piece) : List Char := pieces.flatMap Piece.text

@[simp] theorem spelled_nil : spelled [] = [] := rfl

@[simp] theorem spelled_cons (piece : Piece) (rest : List Piece) :
    spelled (piece :: rest) = piece.text ++ spelled rest := rfl

@[simp] theorem spelled_append (pieces rest : List Piece) :
    spelled (pieces ++ rest) = spelled pieces ++ spelled rest := List.flatMap_append

/-- **A line comment ends with its line**: a line break follows it, or nothing. -/
def LinesEnd (pieces : List Piece) : Prop :=
  pieces.IsChain fun piece next => piece.isLineComment = true → next.text = ['\n']

instance (pieces : List Piece) : Decidable (LinesEnd pieces) :=
  inferInstanceAs (Decidable (List.IsChain _ _))

theorem linesEnd_cons {piece : Piece} {rest : List Piece} :
    LinesEnd (piece :: rest) ↔
      (piece.isLineComment = true → ∀ next ∈ rest.head?, next.text = ['\n']) ∧ LinesEnd rest := by
  rw [LinesEnd, List.isChain_cons, LinesEnd]
  exact and_congr_left fun _ =>
    ⟨fun h hline next hnext => h next hnext hline, fun h next hnext hline => h hline next hnext⟩

/-! ### What remains -/

/-- Whether blanks and then a closing mark come first. -/
def closesFirst : List Piece → Bool
  | .blank _ _ :: rest => closesFirst rest
  | .mark m :: _ => m.closes
  | _ => false

/-- The pieces other than comments, and other than commas that stand in front of a closing mark
with only blanks between. -/
def remaining : List Piece → List Piece
  | [] => []
  | piece :: rest =>
    if piece.isComment || (piece.isComma && closesFirst rest) then remaining rest
    else piece :: remaining rest

/-! ### The scan of one piece -/

/-- What the scan does at a character that is part of no string, no comment and no comma. -/
theorem withoutCommentsIn_plain {c : Char} {rest : List Char} (hquote : c ≠ '"') (hslash : c ≠ '/')
    (hcomma : c ≠ ',') :
    withoutCommentsIn .content (c :: rest) = c :: withoutCommentsIn .content rest := by
  simp [withoutCommentsIn, hquote, hslash, hcomma]

theorem withoutCommentsIn_word {chars rest : List Char} (h : ∀ c ∈ chars, isWordChar c = true) :
    withoutCommentsIn .content (chars ++ rest) = chars ++ withoutCommentsIn .content rest := by
  induction chars with
  | nil => rfl
  | cons c chars ih =>
    obtain ⟨hc, hchars⟩ := List.forall_mem_cons.mp h
    rw [List.cons_append, withoutCommentsIn_plain, ih hchars, List.cons_append]
    all_goals
      rintro rfl
      exact absurd hc (by decide)

theorem stringEnds_of_enclosed {inside : List Char} (h : Enclosed inside) (rest : List Char) :
    stringEnds (inside ++ '"' :: rest) = true := by
  induction h with
  | nil => rfl
  | plain hquote hslash _ ih =>
    rw [List.cons_append, stringEnds]
    · exact ih
    · exact hquote
    · exact fun _ _ h _ => hslash h
  | escaped _ _ ih => exact ih

/-- The inside of a string is kept, with the quote behind it. -/
theorem withoutCommentsIn_string {inside : List Char} (h : Enclosed inside) (rest : List Char) :
    withoutCommentsIn .string (inside ++ '"' :: rest) =
      inside ++ '"' :: withoutCommentsIn .content rest := by
  induction h with
  | nil => simp [withoutCommentsIn]
  | plain hquote hslash _ ih => simp [withoutCommentsIn, hquote, hslash, ih]
  | escaped c _ ih => simp [withoutCommentsIn, ih]

/-- A line comment is passed over up to the line break. -/
theorem withoutCommentsIn_lineComment {inside rest : List Char} (h : '\n' ∉ inside)
    (hrest : ∀ c ∈ rest.head?, c = '\n') :
    withoutCommentsIn .lineComment (inside ++ rest) = withoutCommentsIn .content rest := by
  induction inside with
  | nil =>
    cases rest with
    | nil => rfl
    | cons c rest =>
      obtain rfl := hrest c rfl
      simp [withoutCommentsIn]
  | cons c inside ih =>
    obtain ⟨hc, hinside⟩ := not_or.mp (List.mem_cons.not.mp h)
    simp [withoutCommentsIn, Ne.symm hc, ih hinside]

theorem commentEnds_of_append (inside rest : List Char) :
    commentEnds (inside ++ '*' :: '/' :: rest) = true := by
  induction inside with
  | nil => rfl
  | cons c inside ih =>
    rw [List.cons_append]
    unfold commentEnds
    split
    · contradiction
    · rfl
    · next h =>
      obtain ⟨rfl, rfl⟩ := List.cons.inj h
      exact ih

/-- A block comment is passed over up to the mark that closes it. -/
theorem withoutCommentsIn_blockComment {inside : List Char} (h : ¬['*', '/'] <:+: inside)
    (rest : List Char) :
    withoutCommentsIn .blockComment (inside ++ '*' :: '/' :: rest) =
      withoutCommentsIn .content rest := by
  induction inside with
  | nil => simp [withoutCommentsIn]
  | cons c inside ih =>
    have hinside : ¬['*', '/'] <:+: inside := fun hin => h (List.infix_cons hin)
    have hopen : (c == '*' && (inside ++ '*' :: '/' :: rest).head? == some '/') = false := by
      rw [Bool.and_eq_false_iff, beq_eq_false_iff_ne, beq_eq_false_iff_ne]
      by_contra hboth
      rw [not_or, not_not, not_not] at hboth
      obtain ⟨rfl, hslash⟩ := hboth
      cases inside with
      | nil => exact absurd (Option.some.inj hslash) (by decide)
      | cons d inside =>
        obtain rfl := Option.some.inj hslash
        exact h ⟨[], inside, rfl⟩
    rw [List.cons_append, withoutCommentsIn, hopen, if_neg (by decide), ih hinside]

/-- A closing mark comes first in the text if it comes first among the pieces. -/
theorem closesNext_spelled (pieces : List Piece) :
    closesNext (spelled pieces) = closesFirst pieces := by
  have hvisible : ∀ {c : Char} (rest : List Char), isBlank c = false →
      closesNext (c :: rest) = (c == ']' || c == '\x7d') := by
    intro c rest hc
    rw [closesNext, List.dropWhile_cons_of_neg (by simp [hc])]
  induction pieces with
  | nil => rfl
  | cons piece rest ih =>
    rw [spelled_cons]
    cases piece with
    | mark m => cases m <;> exact hvisible _ (by decide)
    | word chars hne hfits =>
      obtain ⟨c, chars, rfl⟩ := List.exists_cons_of_ne_nil hne
      have hc := hfits c List.mem_cons_self
      have hblank : isBlank c = false := by
        unfold isWordChar at hc
        grind
      have hopen : (c == ']' || c == '\x7d') = false := by
        rw [Bool.or_eq_false_iff, beq_eq_false_iff_ne, beq_eq_false_iff_ne]
        constructor
        all_goals
          rintro rfl
          exact absurd hc (by decide)
      exact (hvisible _ hblank).trans hopen
    | string | lineComment | blockComment => exact hvisible _ (by decide)
    | blank c hc =>
      rw [closesFirst, ← ih, closesNext, closesNext, Piece.text, List.singleton_append,
        List.dropWhile_cons_of_pos hc]

/-- A closing mark comes first among the pieces if it is the first character of their text that
is no blank. -/
theorem closesFirst_iff {pieces : List Piece} :
    closesFirst pieces = true ↔ ∃ blanks c rest, spelled pieces = blanks ++ c :: rest ∧
      (∀ b ∈ blanks, isBlank b = true) ∧ (c = ']' ∨ c = '\x7d') := by
  rw [← closesNext_spelled, closesNext]
  constructor
  · intro h
    split at h
    · next c rest hrest =>
      rw [Bool.or_eq_true, beq_iff_eq, beq_iff_eq] at h
      refine ⟨(spelled pieces).takeWhile isBlank, c, rest, ?_, fun b => List.mem_takeWhile_imp, h⟩
      rw [← hrest, List.takeWhile_append_dropWhile]
    · cases h
  · rintro ⟨blanks, c, rest, htext, hblanks, hc⟩
    have hvisible : isBlank c = false := by
      rcases hc with rfl | rfl <;> rfl
    rw [htext, List.dropWhile_append_of_pos hblanks,
      List.dropWhile_cons_of_neg (by simp [hvisible])]
    simpa using hc

/-- **Taking comments and last commas out** keeps the other pieces as they are. -/
theorem withoutCommentsIn_spelled {pieces : List Piece} (h : LinesEnd pieces) :
    withoutCommentsIn .content (spelled pieces) = spelled (remaining pieces) := by
  induction pieces with
  | nil => rfl
  | cons piece rest ih =>
    obtain ⟨hline, hrest⟩ := linesEnd_cons.mp h
    have ih := ih hrest
    rw [spelled_cons, remaining]
    cases piece with
    | mark m =>
      cases m with
      | comma =>
        -- it goes if a bracket closes next
        have hcomma : withoutCommentsIn .content (',' :: spelled rest) =
            if closesFirst rest = true then withoutCommentsIn .content (spelled rest)
            else ',' :: withoutCommentsIn .content (spelled rest) := by
          simp [withoutCommentsIn, closesNext_spelled]
        rw [Piece.text, List.singleton_append, Mark.char, hcomma, ih]
        cases closesFirst rest <;> rfl
      | _ =>
        rw [Piece.text, List.singleton_append, withoutCommentsIn_plain, ih]
        · rfl
        all_goals decide
    | word chars hne hfits => exact (withoutCommentsIn_word hfits).trans (congrArg (chars ++ ·) ih)
    | string inside henclosed =>
      have hends : ('"' == '"' && stringEnds (inside ++ '"' :: spelled rest)) = true :=
        stringEnds_of_enclosed henclosed _
      rw [Piece.text, List.cons_append, List.append_assoc, List.singleton_append,
        withoutCommentsIn, hends, if_pos rfl, withoutCommentsIn_string henclosed, ih]
      simp [Piece.isComment, Piece.isComma, Piece.text]
    | blank c hc =>
      rw [Piece.text, List.singleton_append, withoutCommentsIn_plain, ih]
      · rfl
      all_goals
        rintro rfl
        exact absurd hc (by decide)
    | lineComment inside hin =>
      refine Eq.trans ?_ ih
      -- the line break that ends it is a piece of its own, which stays
      have hbreak : ∀ c ∈ (spelled rest).head?, c = '\n' := by
        intro c hc
        cases rest with
        | nil => cases hc
        | cons next rest =>
          rw [spelled_cons, hline rfl next rfl] at hc
          exact (Option.some.inj hc).symm
      rw [Piece.text, List.cons_append, List.cons_append]
      refine Eq.trans ?_ (withoutCommentsIn_lineComment hin hbreak)
      simp [withoutCommentsIn]
    | blockComment inside hin =>
      refine Eq.trans ?_ ih
      rw [Piece.text, List.cons_append, List.cons_append, List.append_assoc]
      refine Eq.trans ?_ (withoutCommentsIn_blockComment hin (spelled rest))
      simp [withoutCommentsIn, opensComment, commentEnds_of_append]

end TypeGraft.Json
