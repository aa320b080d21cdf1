import TypeGraft.Proofs.Json.Document

/-!
# Reading JSON without its comments

What is left of a document with comments is read as the value that the document stands for,
unless a comma behind a last item is held by a comment (`TypeGraft.Json.parse_withoutComments`):
such a comma is not taken out, and the reader refuses it.

The reader is followed on the text that is left. For each part of the grammar there is a lemma
that says what the reader makes of the text of the part with any other text behind it: of a number
(`TypeGraft.Json.Numeral.number?_eq`), of a string (`TypeGraft.Json.string?_eq`), and of a value,
of items and of members. A number has to be followed by something that cannot go on with it
(`TypeGraft.Json.Delimited`). The reader takes a number of steps as its bound, of which twice the
length of the text is always enough.
-/

namespace TypeGraft.Json

/-! ### Numbers -/

/-- **The end of a number**: what follows is no part of it. -/
def Delimited (rest : List Char) : Prop :=
  ∀ c ∈ rest.head?, isSpace c = true ∨ c = ',' ∨ c = ']' ∨ c = '\x7d'

theorem Delimited.not_mem {rest : List Char} (h : Delimited rest) {c : Char} (hc : c ∈ rest.head?) :
    c.isDigit = false ∧ c ≠ '.' ∧ c ≠ 'e' ∧ c ≠ 'E' := by
  rcases h c hc with h | rfl | rfl | rfl
  · simp only [isSpace, Bool.or_eq_true, beq_iff_eq] at h
    rcases h with ((rfl | rfl) | rfl) | rfl <;> decide
  all_goals decide

theorem Digit.isDigit_char : ∀ d : Digit, d.char.isDigit = true := by decide

theorem Digit.toNat_char : ∀ d : Digit, d.char.toNat - 48 = d.val := by decide

theorem Digit.char_eq_zero : ∀ d : Digit, d.char = '0' → d = 0 := by decide

theorem natOf_digits (digits : List Digit) : natOf (digits.map Digit.char) = amount digits := by
  rw [natOf, amount, List.foldl_map]
  refine congrArg (fun f => digits.foldl f 0) (funext₂ fun n d => ?_)
  rw [Digit.toNat_char, Nat.mul_comm]

/-- Digits are taken up to a character that is none. -/
theorem takeDigits_digits (digits : List Digit) {rest : List Char}
    (h : ∀ c ∈ rest.head?, c.isDigit = false) :
    takeDigits (digits.map Digit.char ++ rest) = (digits.map Digit.char, rest) := by
  have hall : ∀ c ∈ digits.map Digit.char, c.isDigit = true := by
    intro c hc
    obtain ⟨d, -, rfl⟩ := List.mem_map.mp hc
    exact d.isDigit_char
  have hrest : rest.takeWhile Char.isDigit = [] ∧ rest.dropWhile Char.isDigit = rest := by
    cases rest with
    | nil => exact ⟨rfl, rfl⟩
    | cons c rest =>
      have hc := h c rfl
      exact ⟨List.takeWhile_cons_of_neg (by simp [hc]), List.dropWhile_cons_of_neg (by simp [hc])⟩
  rw [takeDigits, List.takeWhile_append_of_pos hall, List.dropWhile_append_of_pos hall, hrest.1,
    hrest.2, List.append_nil]

/-- An exponent is read whole. -/
theorem Exponent.exponent?_eq (e : Exponent) {rest : List Char} (h : Delimited rest) :
    exponent? (e.text ++ rest) = some (e.power, rest) := by
  obtain ⟨mark, sign, digits, hmark, hsign, hne⟩ := e
  have htake := takeDigits_digits digits fun c hc => (h.not_mem hc).1
  obtain ⟨d, digits, rfl⟩ := List.exists_cons_of_ne_nil hne
  have hm : mark = 'e' ∨ mark = 'E' := hmark
  have hd : d.char ≠ '-' ∧ d.char ≠ '+' :=
    (by decide : ∀ d : Digit, d.char ≠ '-' ∧ d.char ≠ '+') d
  rw [List.map_cons, List.cons_append] at htake
  have hnat := natOf_digits (d :: digits)
  rw [List.map_cons] at hnat
  rw [Exponent.text, List.cons_append, power]
  unfold exponent?
  cases sign with
  | none => simp [hm, hd, htake, hnat]
  | some c => rcases hsign c rfl with rfl | rfl <;> simp [hm, htake, hnat]

theorem exponent?_eq_none {rest : List Char} (h : Delimited rest) : exponent? rest = none := by
  cases rest with
  | nil => rfl
  | cons c rest =>
    obtain ⟨-, -, he, hcapital⟩ := h.not_mem rfl
    simp [exponent?, he, hcapital]

namespace Numeral

variable (n : Numeral) {rest : List Char}

/-- The exponent of a number, as it is written. -/
def exponentText : List Char := (n.exponent.map Exponent.text).getD []

theorem head_exponentText (h : Delimited rest) :
    ∀ c ∈ (n.exponentText ++ rest).head?, c.isDigit = false ∧ c ≠ '.' := by
  intro c hc
  unfold exponentText at hc
  cases he : n.exponent with
  | none =>
    rw [he] at hc
    exact ⟨(h.not_mem hc).1, (h.not_mem hc).2.1⟩
  | some e =>
    rw [he] at hc
    obtain rfl := Option.some.inj hc
    rcases e.isMark with h | h <;> rw [h] <;> decide

/-- The whole part of a number is taken without what follows it. -/
theorem takeDigits_whole (hrest : ∀ c ∈ rest.head?, c.isDigit = false) :
    (match takeDigits (n.whole.map Digit.char ++ rest) with
      | ('0' :: digits, rest) => some (['0'], digits ++ rest)
      | ([], _) => none
      | found => some found) = some (n.whole.map Digit.char, rest) := by
  rw [takeDigits_digits n.whole hrest]
  have hzero := n.noLeadingZero
  obtain ⟨d, digits, hwhole⟩ := List.exists_cons_of_ne_nil n.nonempty
  rw [hwhole] at hzero ⊢
  rw [List.map_cons]
  by_cases hd : d = 0
  · subst hd
    obtain ⟨-, rfl⟩ := List.cons.inj (hzero rfl)
    rfl
  · split
    · next heq =>
      obtain ⟨hchar, -⟩ := List.cons.inj (Prod.mk.inj heq).1
      exact absurd (d.char_eq_zero hchar) hd
    · next heq => cases (Prod.mk.inj heq).1
    · rfl

/-- The decimals are read whole. -/
theorem fraction?_fractionText (h : Delimited rest) :
    (fraction? (n.fractionText ++ (n.exponentText ++ rest))).getD
      ([], n.fractionText ++ (n.exponentText ++ rest)) =
        ((n.decimals.getD []).map Digit.char, n.exponentText ++ rest) := by
  have hexp := n.head_exponentText h
  unfold fractionText
  cases hdecimals : n.decimals with
  | none =>
    dsimp only [List.nil_append]
    unfold fraction?
    split
    · next hdot =>
      rw [hdot] at hexp
      exact absurd rfl (hexp '.' rfl).2
    · rfl
  | some digits =>
    obtain ⟨d, digits, rfl⟩ :=
      List.exists_cons_of_ne_nil (n.decimals_nonempty digits (by rw [hdecimals]; rfl))
    have htake := takeDigits_digits (d :: digits) fun c hc => (hexp c hc).1
    dsimp only [List.cons_append]
    rw [fraction?, htake]
    rfl

/-- **A number is read whole**, if what follows it is no part of it. -/
theorem number?_eq (h : Delimited rest) :
    number? n.negative (n.whole.map Digit.char ++ (n.fractionText ++ (n.exponentText ++ rest))) =
      some (n.json, rest) := by
  have hhead : ∀ c ∈ (n.fractionText ++ (n.exponentText ++ rest)).head?, c.isDigit = false := by
    intro c hc
    unfold fractionText at hc
    split at hc
    · obtain rfl := Option.some.inj hc
      decide
    · exact (n.head_exponentText h c hc).1
  have hnat : ∀ digits : List Digit, natOf (n.whole.map Digit.char ++ digits.map Digit.char) =
      amount (n.whole ++ digits) := fun digits => by rw [← List.map_append, natOf_digits]
  rw [number?]
  refine (congrArg (Option.map _) (n.takeDigits_whole hhead)).trans ?_
  rw [Option.map_some]
  dsimp only
  rw [n.fraction?_fractionText h]
  dsimp only
  cases he : n.exponent with
  | some e =>
    have hread : exponent? (n.exponentText ++ rest) = some (e.power, rest) := by
      rw [exponentText, he]
      exact e.exponent?_eq h
    rw [hread]
    dsimp only
    rw [hnat, List.length_map, json, he]
    simp
  | none =>
    have hread : n.exponentText ++ rest = rest := by
      rw [exponentText, he]
      rfl
    rw [hread, exponent?_eq_none h, json, he]
    cases hdecimals : n.decimals with
    | none => simp [fractionText, hdecimals, natOf_digits]
    | some digits =>
      obtain ⟨d, digits, rfl⟩ :=
        List.exists_cons_of_ne_nil (n.decimals_nonempty digits (by rw [hdecimals]; rfl))
      rw [Option.getD_some, hnat]
      simp

end Numeral

/-! ### Scalars -/

/-- No constant begins like a number. -/
theorem constants_of_digit (negative : Bool) (d : Digit) (rest : List Char) :
    (constants.findSome? fun (word, json) =>
      (after? word ((if negative then ['-'] else []) ++ d.char :: rest)).map fun rest =>
        (json, rest)) = none := by
  have hd : ∀ d : Digit, ['n', 't', 'f', 'N', 'I', '-'].all (· != d.char) = true := by decide
  have hd := hd d
  cases negative <;> simp_all [constants, after?]

theorem Numeral.scalar_eq (n : Numeral) {rest : List Char} (h : Delimited rest) :
    Json.scalar (n.text ++ rest) = .ok (n.json, rest) := by
  have hnumber := n.number?_eq h
  have htext : n.text ++ rest = (if n.negative then ['-'] else []) ++
      (n.whole.map Digit.char ++ (n.fractionText ++ (n.exponentText ++ rest))) := by
    simp [text, exponentText]
  obtain ⟨d, digits, hwhole⟩ := List.exists_cons_of_ne_nil n.nonempty
  rw [htext]
  rw [hwhole, List.map_cons, List.cons_append] at hnumber ⊢
  unfold Json.scalar
  rw [constants_of_digit]
  cases hneg : n.negative with
  | true =>
    rw [hneg] at hnumber
    simp only [if_pos, List.singleton_append, hnumber]
  | false =>
    rw [hneg] at hnumber
    have hminus : d.char ≠ '-' := (by decide : ∀ d : Digit, d.char ≠ '-') d
    simp [hminus, hnumber]

/-! ### Strings -/

theorem HexDigit.hexValue?_char (d : HexDigit) : hexValue? d.char = some d.value.val := by
  obtain ⟨value, capital⟩ := d
  revert value capital
  decide

theorem CodeUnit.hexFour?_eq (u : CodeUnit) {rest : List Char} (h : rest ≠ []) :
    hexFour? (u.first.char :: u.second.char :: u.third.char :: u.fourth.char :: rest) =
      some (u.value, rest) := by
  obtain ⟨c, rest, rfl⟩ := List.exists_cons_of_ne_nil h
  simp [hexFour?, HexDigit.hexValue?_char, value]

/-- **A character of a string** is read as the one that is meant. -/
theorem Letter.string?_eq {letter : Letter} {c : Char} (hc : letter.char? = some c)
    (fromQuote fuel : Nat) (read : List Char) {rest : List Char} (h : rest ≠ []) :
    string? fromQuote (fuel + 1) read (letter.text ++ rest) =
      string? fromQuote fuel (c :: read) rest := by
  cases letter with
  | plain d hquote hslash hcontrol =>
    obtain rfl := Option.some.inj hc
    have hcontrol : ¬d < ' ' := Char.not_lt.mpr hcontrol
    simp [text, string?, hquote, hslash, hcontrol]
  | escape e =>
    obtain rfl := Option.some.inj hc
    cases e <;> simp [text, string?, Escape.letter, Escape.char, escaped?]
  | unit u alone =>
    obtain rfl := Option.some.inj hc
    simp [text, CodeUnit.text, string?, u.hexFour?_eq h, alone, charOf]
  | pair high low hhigh hlow =>
    obtain rfl := Option.some.inj hc
    have hmore : (low.text ++ rest) ≠ [] := by simp [CodeUnit.text]
    have hlength : ¬(low.first.char :: low.second.char :: low.third.char :: low.fourth.char ::
        rest).length < 5 := by
      have := List.length_pos_of_ne_nil h
      simp only [List.length_cons]
      omega
    have hfour := high.hexFour?_eq hmore
    simp only [CodeUnit.text, List.cons_append, List.nil_append] at hfour
    simp only [text, CodeUnit.text, List.cons_append, List.nil_append, string?, hfour, hhigh, hlow,
      low.hexFour?_eq h, if_neg hlength, if_pos]
    simp
  | half => cases hc

/-- **A string is read whole.** -/
theorem string?_eq {letters : List Letter} {chars : List Char}
    (hchars : letters.mapM Letter.char? = some chars) (fromQuote : Nat) {fuel : Nat}
    (hfuel : letters.length < fuel) (read rest : List Char) :
    string? fromQuote fuel read (lettersText letters ++ '"' :: rest) =
      .ok (String.ofList (read.reverse ++ chars), rest) := by
  induction letters generalizing fuel read chars with
  | nil =>
    obtain ⟨fuel, rfl⟩ := Nat.exists_eq_succ_of_ne_zero (Nat.ne_of_gt hfuel)
    obtain rfl : [] = chars := Option.some.inj hchars
    simp [lettersText, string?]
  | cons letter letters ih =>
    obtain ⟨fuel, rfl⟩ := Nat.exists_eq_succ_of_ne_zero (Nat.ne_of_gt (Nat.zero_lt_of_lt hfuel))
    rw [List.mapM_cons] at hchars
    obtain ⟨c, hc, hchars⟩ := Option.bind_eq_some_iff.mp hchars
    obtain ⟨more, hmore, hchars⟩ := Option.bind_eq_some_iff.mp hchars
    obtain rfl := Option.some.inj hchars
    have hne : lettersText letters ++ '"' :: rest ≠ [] := by simp
    rw [lettersText, List.flatMap_cons, List.append_assoc, ← lettersText,
      letter.string?_eq hc _ _ _ hne, ih hmore (Nat.lt_of_succ_lt_succ hfuel)]
    simp

/-! ### Values -/

mutual

/-- **A comma is held**: between a comma behind a last item and the closing mark there is a
comment. -/
def Value.holdsComma : Value → Bool
  | .scalar _ => false
  | .array items => items.holdsComma
  | .object members => members.holdsComma

@[inherit_doc Value.holdsComma]
def Items.holdsComma : Items → Bool
  | .none _ => false
  | .last _ item _ => item.holdsComma
  | .more _ item _ rest => item.holdsComma || rest.isHeld || rest.holdsComma

@[inherit_doc Value.holdsComma]
def Members.holdsComma : Members → Bool
  | .none _ => false
  | .last _ _ item _ => item.holdsComma
  | .more _ _ item _ rest => item.holdsComma || rest.isHeld || rest.holdsComma

end

@[inherit_doc Value.holdsComma]
def Document.holdsComma (d : Document) : Bool := d.value.holdsComma

theorem skipSpace_of_not {c : Char} {rest : List Char} (h : isSpace c = false) :
    skipSpace (c :: rest) = c :: rest := List.dropWhile_cons_of_neg (by simp [h])

theorem Gap.isSpace_of_mem_left {gap : Gap} {c : Char} (h : c ∈ gap.left) : isSpace c = true := by
  obtain ⟨filler, -, hc⟩ := List.mem_flatMap.mp h
  cases filler with
  | space d hd =>
    rw [List.mem_singleton.mp hc]
    exact hd
  | line =>
    rw [List.mem_singleton.mp hc]
    rfl
  | block => cases hc

/-- What is left of a gap is passed over. -/
theorem Gap.skipSpace_eq (gap : Gap) (rest : List Char) :
    skipSpace (gap.left ++ rest) = skipSpace rest :=
  List.dropWhile_append_of_pos fun _ hc => isSpace_of_mem_left hc

theorem Gap.delimited (gap : Gap) {rest : List Char} (h : Delimited rest) :
    Delimited (gap.left ++ rest) := by
  intro c hc
  cases hgap : gap.left with
  | nil =>
    rw [hgap] at hc
    exact h c hc
  | cons d left =>
    rw [hgap] at hc
    obtain rfl := Option.some.inj hc
    exact Or.inl (isSpace_of_mem_left (hgap ▸ List.mem_cons_self))

theorem delimited_cons {c : Char} (h : c = ',' ∨ c = ']' ∨ c = '\x7d') (rest : List Char) :
    Delimited (c :: rest) := by
  rintro d hd
  obtain rfl := Option.some.inj hd
  exact Or.inr h

/-- A value begins with a character that is neither white space nor a closing mark, nor a mark of
the order of bytes. -/
theorem Value.exists_head (v : Value) :
    ∃ c left, v.left = c :: left ∧ isSpace c = false ∧ c ∉ [']', '\x7d', '\uFEFF'] := by
  cases v with
  | array | object => exact ⟨_, _, rfl, rfl, by decide⟩
  | scalar s =>
    cases s with
    | null | string => exact ⟨_, _, rfl, rfl, by decide⟩
    | bool b => cases b <;> exact ⟨_, _, rfl, rfl, by decide⟩
    | number n =>
      obtain ⟨c, left, hleft⟩ := List.exists_cons_of_ne_nil n.text_ne_nil
      let p (c : Char) : Bool := !isSpace c && !([']', '\x7d', '\uFEFF'].contains c)
      have hc : p c = true :=
        n.forall_mem_text (by decide) (by decide) c (hleft ▸ List.mem_cons_self)
      obtain ⟨hspace, hmark⟩ := Bool.and_eq_true_iff.mp hc
      refine ⟨c, left, hleft, (Bool.not_eq_true' _).mp hspace, fun hmem => ?_⟩
      rw [List.contains_iff_mem.mpr hmem] at hmark
      exact absurd hmark (by decide)

theorem Value.skipSpace_eq (v : Value) (rest : List Char) :
    skipSpace (v.left ++ rest) = v.left ++ rest := by
  obtain ⟨c, left, hleft, hc, -⟩ := v.exists_head
  rw [hleft]
  exact skipSpace_of_not hc

/-- A text that begins neither like a string nor like an array nor like an object is read as a
scalar. -/
theorem value_eq_scalar (fuel : Nat) {c : Char} (rest : List Char) (hquote : c ≠ '"')
    (harray : c ≠ '[') (hobject : c ≠ '\x7b') :
    value (fuel + 1) (c :: rest) = Json.scalar (c :: rest) := by
  simp [value, hquote, harray, hobject]

theorem length_le_lettersText (letters : List Letter) :
    letters.length ≤ (lettersText letters).length := by
  induction letters with
  | nil => exact Nat.le_refl _
  | cons letter letters ih =>
    have hpos : 0 < letter.text.length := by
      cases letter <;> simp [Letter.text, CodeUnit.text]
    rw [lettersText, List.flatMap_cons, List.length_append, ← lettersText, List.length_cons]
    omega

/-- A string is read whole, with as many steps as it has characters. -/
theorem string?_piece {letters : List Letter} {name : String}
    (h : lettersString? letters = some name) (fromQuote : Nat) (rest : List Char) :
    string? fromQuote ((lettersText letters ++ '"' :: rest).length + 1) []
      (lettersText letters ++ '"' :: rest) = .ok (name, rest) := by
  obtain ⟨chars, hchars, rfl⟩ := Option.map_eq_some_iff.mp h
  refine string?_eq hchars _ ?_ [] rest
  have := length_le_lettersText letters
  rw [List.length_append]
  omega

theorem Scalar.value_eq {s : Scalar} {json : Json} (h : s.json? = some json) (fuel : Nat)
    {rest : List Char} (hrest : Delimited rest) :
    value (fuel + 1) (s.piece.text ++ rest) = .ok (json, rest) := by
  cases s with
  | null =>
    obtain rfl := Option.some.inj h
    simp [piece, Piece.text, value, Json.scalar, constants, after?]
  | bool b =>
    obtain rfl := Option.some.inj h
    cases b <;> simp [piece, Piece.text, value, Json.scalar, constants, after?]
  | number n =>
    obtain rfl := Option.some.inj h
    obtain ⟨c, left, hleft⟩ := List.exists_cons_of_ne_nil n.text_ne_nil
    have hc := n.isWordChar_of_mem_text (hleft ▸ List.mem_cons_self : c ∈ n.text)
    have hscalar := n.scalar_eq hrest
    rw [hleft, List.cons_append] at hscalar
    rw [piece, Piece.text, hleft, List.cons_append, value_eq_scalar, hscalar]
    all_goals
      rintro rfl
      exact absurd hc (by decide)
  | string letters =>
    obtain ⟨name, hname, rfl⟩ := Option.map_eq_some_iff.mp h
    rw [piece, stringPiece, Piece.text, List.cons_append, List.append_assoc, List.singleton_append,
      value, string?_piece hname]
    rfl

/-- Where an item has to begin, a closing mark is refused. -/
theorem items_closed (fuel : Nat) (read : List Json) (rest : List Char) :
    (items fuel read (']' :: rest)).toOption = none := by
  have hscalar : ∀ rest, Json.scalar (']' :: rest) = halt .value (']' :: rest) := by
    intro rest
    simp [Json.scalar, constants, after?, number?, takeDigits]
  match fuel with
  | 0 => rfl
  | 1 => rfl
  | fuel + 2 =>
    rw [items, value_eq_scalar, hscalar]
    · rfl
    all_goals decide

/-- Where a member has to begin, a closing mark is refused. -/
theorem members_closed (fuel : Nat) (read : List (String × Json)) (rest : List Char) :
    (members fuel read ('\x7d' :: rest)).toOption = none := by
  cases fuel with
  | zero => rfl
  | succ fuel => simp [members, halt, Except.toOption]

theorem eq_ok_of_toOption {ε α : Type} {result : Except ε α} {a : α}
    (h : result.toOption = some a) : result = .ok a := by
  cases result with
  | ok b => rw [Option.some.inj h]
  | error => cases h

theorem exists_error_of_toOption {ε α : Type} {result : Except ε α} (h : result.toOption = none) :
    ∃ fault, result = .error fault := by
  cases result with
  | ok b => cases h
  | error fault => exact ⟨fault, rfl⟩

/-- What is refused exactly if a comma is held ends in a fault or in its value. -/
theorem error_or_ok {ε α : Type} {result : Except ε α} {held : Bool} {a : α}
    (h : result.toOption = if held = true then none else some a) :
    held = true ∧ (∃ fault, result = .error fault) ∨ held = false ∧ result = .ok a := by
  cases held with
  | true => exact Or.inl ⟨rfl, exists_error_of_toOption h⟩
  | false => exact Or.inr ⟨rfl, eq_ok_of_toOption h⟩

/-- The first item of an array, or the first behind a comma, begins with no closing mark. -/
theorem Items.exists_skipSpace (its : Items) (hsome : ∀ inside, its ≠ .none inside)
    (rest : List Char) : ∃ c more, skipSpace (its.left ++ rest) = c :: more ∧ c ≠ ']' := by
  cases its with
  | none inside => exact absurd rfl (hsome inside)
  | last _ item _ | more _ item _ _ =>
    obtain ⟨c, left, hleft, -, hc⟩ := item.exists_head
    simp only [Items.left, List.append_assoc]
    rw [Gap.skipSpace_eq, item.skipSpace_eq, hleft, List.cons_append]
    exact ⟨c, _, rfl, fun h => hc (h ▸ List.mem_cons_self)⟩

theorem Members.exists_skipSpace (its : Members) (hsome : ∀ inside, its ≠ .none inside)
    (rest : List Char) : ∃ more, skipSpace (its.left ++ rest) = '"' :: more := by
  cases its with
  | none inside => exact absurd rfl (hsome inside)
  | last _ label _ _ | more _ label _ _ _ =>
    simp only [Members.left, Label.left, stringPiece, Piece.text, List.append_assoc,
      List.cons_append]
    rw [Gap.skipSpace_eq, skipSpace_of_not rfl]
    exact ⟨_, rfl⟩

/-- An item is followed by a comma or, if the comma falls, by the closing mark. -/
theorem Items.delimited (its : Items) (rest : List Char) :
    Delimited ((if its.isBare = true then [] else [',']) ++ (its.left ++ ']' :: rest)) := by
  cases hbare : its.isBare with
  | false => exact delimited_cons (Or.inl rfl) _
  | true =>
    cases its with
    | none inside => exact inside.delimited (delimited_cons (Or.inr (Or.inl rfl)) rest)
    | last | more => cases hbare

theorem Items.isBare_of_ne {its : Items} (hsome : ∀ inside, its ≠ .none inside) :
    its.isBare = false ∧ its.isHeld = false := by
  cases its with
  | none inside => exact absurd rfl (hsome inside)
  | last | more => exact ⟨rfl, rfl⟩

/-- What becomes of an array behind one of its items. -/
theorem items_of_value {fuel : Nat} {read : List Json} {text rest : List Char} {item : Json}
    (h : value fuel text = .ok (item, rest)) :
    items (fuel + 1) read text =
      match skipSpace rest with
      | ']' :: rest => .ok (array (item :: read).reverse, rest)
      | ',' :: rest => items fuel (item :: read) (skipSpace rest)
      | rest => halt .comma rest := by
  rw [items]
  generalize value fuel text = outcome at h
  subst h
  rfl

theorem Members.delimited (its : Members) (rest : List Char) :
    Delimited ((if its.isBare = true then [] else [',']) ++ (its.left ++ '\x7d' :: rest)) := by
  cases hbare : its.isBare with
  | false => exact delimited_cons (Or.inl rfl) _
  | true =>
    cases its with
    | none inside => exact inside.delimited (delimited_cons (Or.inr (Or.inr rfl)) rest)
    | last | more => cases hbare

theorem Members.isBare_of_ne {its : Members} (hsome : ∀ inside, its ≠ .none inside) :
    its.isBare = false ∧ its.isHeld = false := by
  cases its with
  | none inside => exact absurd rfl (hsome inside)
  | last | more => exact ⟨rfl, rfl⟩

/-- What becomes of an object at the name of a member. -/
theorem members_label {label : Label} {name : String}
    (h : lettersString? label.letters = some name) (fuel : Nat) (read : List (String × Json))
    (text : List Char) :
    members (fuel + 1) read (label.left ++ text) =
      match value fuel (skipSpace text) with
      | .error halt => .error halt
      | .ok (item, rest) =>
        match skipSpace rest with
        | '\x7d' :: rest => .ok (object (putMember read name item), rest)
        | ',' :: rest => members fuel (putMember read name item) (skipSpace rest)
        | rest => halt .comma rest := by
  have htext : label.left ++ text = '"' :: (lettersText label.letters ++
      '"' :: (label.beforeColon.left ++ ':' :: (label.behindColon.left ++ text))) := by
    simp [Label.left, stringPiece, Piece.text]
  have hskip : skipSpace (label.beforeColon.left ++ ':' :: (label.behindColon.left ++ text)) =
      ':' :: (label.behindColon.left ++ text) := by
    rw [Gap.skipSpace_eq, skipSpace_of_not rfl]
  rw [htext, ← label.behindColon.skipSpace_eq text, members, string?_piece h]
  dsimp only
  generalize skipSpace (label.beforeColon.left ++ ':' :: (label.behindColon.left ++ text)) = behind
    at hskip
  subst hskip
  rfl

mutual

/-- **A value is read** if it holds no comma, and is refused otherwise. -/
theorem Value.toOption_value (v : Value) {json : Json} (h : v.json? = some json) (fuel : Nat)
    (hfuel : 2 * v.left.length ≤ fuel) {rest : List Char} (hrest : Delimited rest) :
    (value fuel (v.left ++ rest)).toOption =
      if v.holdsComma = true then none else some (json, rest) := by
  obtain ⟨fuel, rfl⟩ : ∃ n, fuel = n + 1 := by
    obtain ⟨c, left, hleft, -⟩ := v.exists_head
    rw [hleft, List.length_cons] at hfuel
    exact Nat.exists_eq_succ_of_ne_zero (by omega)
  cases v with
  | scalar s =>
    rw [Value.left, Scalar.value_eq h fuel hrest]
    rfl
  | array its =>
    obtain ⟨list, hlist, rfl⟩ := Option.map_eq_some_iff.mp h
    rw [Value.left, List.length_cons, List.length_append, List.length_singleton] at hfuel
    rw [Value.left, List.cons_append, List.append_assoc, List.singleton_append, Value.holdsComma]
    by_cases hnone : ∃ inside, its = .none inside
    · obtain ⟨inside, rfl⟩ := hnone
      obtain rfl := Option.some.inj hlist
      rw [value, Items.left, Gap.skipSpace_eq, skipSpace_of_not rfl]
      rfl
    · have hsome : ∀ inside, its ≠ .none inside := fun inside hits => hnone ⟨inside, hits⟩
      obtain ⟨c, more, hskip, hc⟩ := its.exists_skipSpace hsome (']' :: rest)
      have hitems := Items.toOption_items its hsome hlist fuel (by omega) [] rest
      rw [hskip] at hitems
      simpa [value, hskip, hc] using hitems
  | object its =>
    obtain ⟨list, hlist, rfl⟩ := Option.map_eq_some_iff.mp h
    rw [Value.left, List.length_cons, List.length_append, List.length_singleton] at hfuel
    rw [Value.left, List.cons_append, List.append_assoc, List.singleton_append, Value.holdsComma]
    by_cases hnone : ∃ inside, its = .none inside
    · obtain ⟨inside, rfl⟩ := hnone
      obtain rfl := Option.some.inj hlist
      rw [value, Members.left, Gap.skipSpace_eq, skipSpace_of_not rfl]
      rfl
    · have hsome : ∀ inside, its ≠ .none inside := fun inside hits => hnone ⟨inside, hits⟩
      obtain ⟨more, hskip⟩ := its.exists_skipSpace hsome ('\x7d' :: rest)
      have hmembers := Members.toOption_members its hsome hlist fuel (by omega) [] rest
      rw [hskip] at hmembers
      simpa [value, hskip] using hmembers

/-- **Items are read** if they hold no comma, and are refused otherwise. -/
theorem Items.toOption_items (its : Items) (hsome : ∀ inside, its ≠ .none inside)
    {list : List Json} (h : its.list? = some list) (fuel : Nat)
    (hfuel : 2 * its.left.length + 1 ≤ fuel) (read : List Json) (rest : List Char) :
    (items fuel read (skipSpace (its.left ++ ']' :: rest))).toOption =
      if its.holdsComma = true then none else some (.array (read.reverse ++ list), rest) := by
  obtain ⟨fuel, rfl⟩ : ∃ n, fuel = n + 1 := Nat.exists_eq_succ_of_ne_zero (by omega)
  cases its with
  | none inside => exact absurd rfl (hsome inside)
  | last before item behind =>
    obtain ⟨json, hjson, rfl⟩ := Option.map_eq_some_iff.mp h
    simp only [Items.left, List.length_append] at hfuel
    have hitem := Value.toOption_value item hjson fuel (by omega)
      (behind.delimited (delimited_cons (Or.inr (Or.inl rfl)) rest))
    rw [Items.left, List.append_assoc, List.append_assoc, Gap.skipSpace_eq, Value.skipSpace_eq,
      Items.holdsComma]
    rcases error_or_ok hitem with ⟨hheld, fault, herror⟩ | ⟨hheld, hok⟩
    · rw [hheld, items, herror]
      rfl
    · rw [hheld, items_of_value hok, Gap.skipSpace_eq,
        skipSpace_of_not rfl]
      simp [Except.toOption]
  | more before item behind more =>
    obtain ⟨json, hjson, h⟩ := Option.bind_eq_some_iff.mp h
    obtain ⟨list, hlist, rfl⟩ := Option.map_eq_some_iff.mp h
    simp only [Items.left, List.length_append] at hfuel
    have hitem := Value.toOption_value item hjson fuel (by omega)
      (behind.delimited (more.delimited rest))
    simp only [Items.left, List.append_assoc]
    rw [Gap.skipSpace_eq, Value.skipSpace_eq, Items.holdsComma]
    rcases error_or_ok hitem with ⟨hheld, fault, herror⟩ | ⟨hheld, hok⟩
    · rw [hheld, items, herror]
      rfl
    · rw [hheld, items_of_value hok, Gap.skipSpace_eq]
      by_cases hnone : ∃ inside, more = .none inside
      · -- the comma is the last one, and falls or is refused
        obtain ⟨inside, rfl⟩ := hnone
        obtain rfl := Option.some.inj hlist
        cases hcomment : inside.hasComment with
        | true =>
          simpa [Items.isBare, Items.isHeld, Items.left, hcomment, skipSpace_of_not, isSpace,
            Gap.skipSpace_eq] using items_closed fuel (json :: read) rest
        | false =>
          simp [Items.isBare, Items.isHeld, Items.holdsComma, Items.left, hcomment,
            Gap.skipSpace_eq, skipSpace_of_not, isSpace, Except.toOption]
      · have hsome : ∀ inside, more ≠ .none inside := fun inside hmore => hnone ⟨inside, hmore⟩
        obtain ⟨hbare, hnotHeld⟩ := more.isBare_of_ne hsome
        rw [hbare, if_neg (by decide)] at hfuel
        have hmore := Items.toOption_items more hsome hlist fuel
          (by rw [List.length_singleton] at hfuel; omega) (json :: read) rest
        rw [hbare, hnotHeld, if_neg (by decide), List.singleton_append, skipSpace_of_not rfl]
        simpa using hmore

theorem Members.toOption_members (its : Members) (hsome : ∀ inside, its ≠ .none inside)
    {list : List (String × Json)} (h : its.list? = some list) (fuel : Nat)
    (hfuel : 2 * its.left.length + 1 ≤ fuel) (read : List (String × Json)) (rest : List Char) :
    (members fuel read (skipSpace (its.left ++ '\x7d' :: rest))).toOption =
      if its.holdsComma = true then none
      else some (.object (list.foldl (fun ms m => putMember ms m.1 m.2) read), rest) := by
  obtain ⟨fuel, rfl⟩ : ∃ n, fuel = n + 1 := Nat.exists_eq_succ_of_ne_zero (by omega)
  have hlabel : ∀ (label : Label) (text : List Char),
      skipSpace (label.left ++ text) = label.left ++ text := by
    intro label text
    simp only [Label.left, stringPiece, Piece.text, List.append_assoc, List.cons_append]
    exact skipSpace_of_not rfl
  cases its with
  | none inside => exact absurd rfl (hsome inside)
  | last before label item behind =>
    obtain ⟨name, hname, h⟩ := Option.bind_eq_some_iff.mp h
    obtain ⟨json, hjson, rfl⟩ := Option.map_eq_some_iff.mp h
    simp only [Members.left, List.length_append] at hfuel
    have hitem := Value.toOption_value item hjson fuel (by omega)
      (behind.delimited (delimited_cons (Or.inr (Or.inr rfl)) rest))
    simp only [Members.left, List.append_assoc]
    rw [Gap.skipSpace_eq, hlabel, members_label hname, Value.skipSpace_eq, Members.holdsComma]
    rcases error_or_ok hitem with ⟨hheld, fault, herror⟩ | ⟨hheld, hok⟩
    · rw [hheld, herror]
      rfl
    · rw [hheld, hok]
      dsimp only
      rw [Gap.skipSpace_eq, skipSpace_of_not rfl]
      rfl
  | more before label item behind more =>
    obtain ⟨name, hname, h⟩ := Option.bind_eq_some_iff.mp h
    obtain ⟨json, hjson, h⟩ := Option.bind_eq_some_iff.mp h
    obtain ⟨list, hlist, rfl⟩ := Option.map_eq_some_iff.mp h
    simp only [Members.left, List.length_append] at hfuel
    have hitem := Value.toOption_value item hjson fuel (by omega)
      (behind.delimited (more.delimited rest))
    simp only [Members.left, List.append_assoc]
    rw [Gap.skipSpace_eq, hlabel, members_label hname, Value.skipSpace_eq, Members.holdsComma]
    rcases error_or_ok hitem with ⟨hheld, fault, herror⟩ | ⟨hheld, hok⟩
    · rw [hheld, herror]
      rfl
    · rw [hheld, hok]
      dsimp only
      rw [Gap.skipSpace_eq]
      by_cases hnone : ∃ inside, more = .none inside
      · -- the comma is the last one, and falls or is refused
        obtain ⟨inside, rfl⟩ := hnone
        obtain rfl := Option.some.inj hlist
        cases hcomment : inside.hasComment with
        | true =>
          simpa [Members.isBare, Members.isHeld, Members.left, hcomment, skipSpace_of_not, isSpace,
            Gap.skipSpace_eq] using members_closed fuel (putMember read name json) rest
        | false =>
          simp [Members.isBare, Members.isHeld, Members.holdsComma, Members.left, hcomment,
            Gap.skipSpace_eq, skipSpace_of_not, isSpace, Except.toOption]
      · have hsome : ∀ inside, more ≠ .none inside := fun inside hmore => hnone ⟨inside, hmore⟩
        obtain ⟨hbare, hnotHeld⟩ := more.isBare_of_ne hsome
        rw [hbare, if_neg (by decide)] at hfuel
        have hmore := Members.toOption_members more hsome hlist fuel
          (by rw [List.length_singleton] at hfuel; omega) (putMember read name json) rest
        rw [hbare, hnotHeld, if_neg (by decide), List.singleton_append, skipSpace_of_not rfl]
        simpa using hmore

end

/-! ### Documents -/

theorem Gap.skipSpace_left (gap : Gap) : skipSpace gap.left = [] := by
  have hskip := gap.skipSpace_eq []
  rwa [List.append_nil] at hskip

/-- A text begins with no mark of the order of bytes. -/
theorem Document.exists_left (d : Document) : ∃ c left, d.left = c :: left ∧ c ≠ '\uFEFF' := by
  obtain ⟨c, left, hleft, -, hc⟩ := d.value.exists_head
  rw [Document.left, hleft]
  cases hbefore : d.before.left with
  | nil =>
    refine ⟨c, _, rfl, ?_⟩
    rintro rfl
    exact hc (by decide)
  | cons b before =>
    refine ⟨b, _, rfl, ?_⟩
    rintro rfl
    have hspace : '\uFEFF' ∈ d.before.left := hbefore ▸ List.mem_cons_self
    exact absurd (Gap.isSpace_of_mem_left hspace) (by decide)

/-- **What is left of a document** is read if the document holds no comma, and is refused
otherwise. -/
theorem Document.toOption_parse {d : Document} {json : Json} (h : d.json? = some json) :
    (parse (String.ofList d.left)).toOption = if d.holdsComma = true then none else some json := by
  have hskip : skipSpace d.left = d.value.left ++ d.behind.left := by
    rw [left, List.append_assoc, Gap.skipSpace_eq, Value.skipSpace_eq]
  have hdelimited : Delimited d.behind.left := by
    have hend : Delimited [] := fun _ hc => by cases hc
    simpa using d.behind.delimited hend
  have hvalue := d.value.toOption_value h (2 * d.left.length + 2)
    (by rw [left, List.length_append, List.length_append]; omega) hdelimited
  rw [← hskip] at hvalue
  obtain ⟨c, left, hleft, hc⟩ := d.exists_left
  rw [parse, String.toList_ofList, holdsComma]
  rw [hleft] at hvalue ⊢
  split
  · next heq => exact absurd (List.cons.inj heq).1 hc
  · rcases error_or_ok hvalue with ⟨hheld, fault, herror⟩ | ⟨hheld, hok⟩
    · rw [hheld, herror]
      rfl
    · rw [hheld, hok]
      dsimp only
      rw [Gap.skipSpace_left]
      rfl

/-- **A document with comments is read** as the value that it stands for, unless a comma behind a
last item is held by a comment. Then it is refused. -/
theorem parse_withoutComments {d : Document} {json : Json} (h : d.json? = some json) :
    (d.holdsComma = false → parse (withoutComments d.text) = .ok json) ∧
      (d.holdsComma = true → ∃ fault, parse (withoutComments d.text) = .error fault) := by
  rw [d.withoutComments_text]
  have hread := Document.toOption_parse h
  constructor
  · intro hfree
    rw [hfree, if_neg Bool.false_ne_true] at hread
    exact eq_ok_of_toOption hread
  · intro hheld
    rw [hheld, if_pos rfl] at hread
    exact exists_error_of_toOption hread

/-- The number one. -/
def Numeral.one : Numeral :=
  ⟨false, [1], none, none, by decide, by decide, by simp⟩

/-- An object in all ways of writing: a name with an escape, comments between all parts, and two
commas that fall. -/
theorem parse_withoutComments_adorned : ∃ d : Document,
    d.text = "// \"\n/***/\x7b/*,*/\"//\\u0041\"//\n:\t[1/**/, ]//\x7d\n,\x7d\n//!" ∧
      d.json? = some (object [("//A", array [integer 1])]) ∧ d.holdsComma = false ∧
      parse (withoutComments d.text) = .ok (object [("//A", array [integer 1])]) := by
  let label : Label := ⟨[.plain '/' (by decide) (by decide) (by decide),
    .plain '/' (by decide) (by decide) (by decide),
    .unit ⟨⟨0, false⟩, ⟨0, false⟩, ⟨4, true⟩, ⟨1, false⟩⟩ (by decide)],
    [.line [] (by decide)], [.space '\t' rfl]⟩
  let d : Document := {
    before := [.line [' ', '"'] (by decide), .block ['*'] (by decide)]
    value := .object (.more [.block [','] (by decide)] label
      (.array (.more [] (.scalar (.number .one)) [.block [] (by decide)] (.none [.space ' ' rfl])))
      [.line ['\x7d'] (by decide)] (.none []))
    behind := [.space '\n' rfl]
    tail := some ⟨['!'], by decide⟩ }
  have hjson : d.json? = some (object [("//A", array [integer 1])]) := rfl
  have hheld : d.holdsComma = false := rfl
  exact ⟨d, rfl, hjson, hheld, (parse_withoutComments hjson).1 hheld⟩

/-- **A comma behind which a comment stands** is not taken out, and the text is refused. -/
theorem exists_refused : ∃ d : Document,
    d.text = "[1, /* c */]" ∧ d.json? = some (array [integer 1]) ∧
      withoutComments d.text = "[1, ]" ∧
      parse (withoutComments d.text) = .error ⟨.value, 1, 5, 4⟩ := by
  have hleft : withoutComments "[1, /* c */]" = "[1, ]" := rfl
  have hrefused : parse "[1, ]" = .error ⟨.value, 1, 5, 4⟩ := rfl
  refine ⟨{
    before := []
    value := .array (.more [] (.scalar (.number .one)) []
      (.none [.space ' ' rfl, .block [' ', 'c', ' '] (by decide)]))
    behind := []
    tail := none }, rfl, rfl, hleft, ?_⟩
  exact (congrArg parse hleft).trans hrefused

end TypeGraft.Json
