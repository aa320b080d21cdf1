import TypeGraft.Proofs.Component
import TypeGraft.Proofs.Table

/-!
# Attributes of a script

An opening tag is found first, and its attributes are read from what was found. The tag is taken to
end at the first `>`, while a value in quotes may hold any character but its own quote. The two
agree as long as no value holds a `>`, and only then
(`TypeGraft.ScriptElement.all_writtenScript_iff`): a script that is written with attributes is found
with exactly these attributes and its content, or its content is taken to start in the middle of a
value, as in `generic="T extends Array<string>"`.

What is read from the text of the attributes is right in any case
(`TypeGraft.ScriptElement.attributesOf_written`), so it is only the tag that ends too early.
-/

namespace TypeGraft

/-! ### Blanks and words -/

namespace CodePoints

variable {set other : CodePoints} {point : Nat}

theorem exists_of_has (h : set.has point = true) :
    ∃ range ∈ set, range.1 ≤ point ∧ point ≤ range.2 := by
  induction set with
  | nil => exact absurd h (by simp [has])
  | cons range rest ih =>
    rw [has] at h
    split at h
    · next hlast => exact ⟨range, List.mem_cons_self, of_decide_eq_true h, hlast⟩
    · obtain ⟨range', hmem, hin⟩ := ih h
      exact ⟨range', List.mem_cons_of_mem _ hmem, hin⟩

/-- Sets whose ranges do not overlap have no code point in common. -/
theorem has_eq_false (hapart : (set.all fun a => other.all fun b => a.2 < b.1 || b.2 < a.1) = true)
    (h : set.has point = true) : other.has point = false := by
  rw [Bool.eq_false_iff]
  intro h'
  obtain ⟨a, ha, hfirst, hlast⟩ := exists_of_has h
  obtain ⟨b, hb, hfirst', hlast'⟩ := exists_of_has h'
  have hranges := List.all_eq_true.mp (List.all_eq_true.mp hapart a ha) b hb
  simp only [Bool.or_eq_true, decide_eq_true_eq] at hranges
  omega

end CodePoints

theorem Text.isWord_of_isBlank {c : Char} (h : Text.isBlank c = true) : Text.isWord c = false :=
  CodePoints.has_eq_false (by decide +kernel) h

namespace ScriptElement

open Text

/-! ### Attributes as they are written -/

/-- A value in quotes, which may hold all but its own quote. -/
structure QuotedValue where
  quote : Char
  text : List Char
  quote_mem : quote ∈ ['"', '\'']
  free : quote ∉ text

/-- **An attribute**, behind the blanks that set it apart: a name in lower case, with a value in
quotes or without one. -/
structure WrittenAttribute where
  blanks : List Char
  name : List Char
  value : Option QuotedValue
  blanks_ne : blanks ≠ []
  isBlank_blanks : ∀ c ∈ blanks, isBlank c = true
  name_ne : name ≠ []
  isNameChar_name : ∀ c ∈ name, isNameChar c = true
  lowercase_name : lowercase (String.ofList name) = String.ofList name

/-- The text of a value behind its name. -/
def QuotedValue.written (v : QuotedValue) : List Char := '=' :: v.quote :: (v.text ++ [v.quote])

namespace WrittenAttribute

/-- The text behind a name. -/
def writtenValue (a : WrittenAttribute) : List Char := (a.value.map QuotedValue.written).getD []

/-- The text of an attribute. -/
def written (a : WrittenAttribute) : List Char := a.blanks ++ (a.name ++ a.writtenValue)

/-- What an attribute says: its name, and its value or nothing. -/
def entry (a : WrittenAttribute) : String × String :=
  (String.ofList a.name, String.ofList ((a.value.map QuotedValue.text).getD []))

end WrittenAttribute

variable {blanks content attributes body rest : List Char} {found : Table String String}
    {steps : Nat}

/-! ### Reading attributes -/

theorem value?_written (v : QuotedValue) (rest : List Char) :
    value? (v.written ++ rest) = some (v.text, rest) := by
  have hquote : isBlank v.quote = false ∧ (v.quote == '"' || v.quote == '\'') = true := by
    rcases List.mem_cons.mp v.quote_mem with h | h
    · rw [h]
      decide
    · rw [List.mem_singleton.mp h]
      decide
  have hfree : ∀ c ∈ v.text, (c != v.quote) = true := by
    intro c hc
    rw [bne_iff_ne]
    rintro rfl
    exact v.free hc
  have hequals : (v.written ++ rest).dropWhile isBlank =
      '=' :: v.quote :: (v.text ++ v.quote :: rest) := by
    rw [QuotedValue.written, List.cons_append, List.dropWhile_cons_of_neg (by decide)]
    simp
  have hback : (v.text ++ v.quote :: rest).dropWhile (· != v.quote) = v.quote :: rest := by
    rw [List.dropWhile_append_of_pos hfree, List.dropWhile_cons_of_neg (by simp)]
  have hfront : (v.text ++ v.quote :: rest).takeWhile (· != v.quote) = v.text := by
    rw [List.takeWhile_append_of_pos hfree, List.takeWhile_cons_of_neg (by simp), List.append_nil]
  rw [value?, hequals]
  simp only [List.dropWhile_cons, hquote.1, hquote.2, hback, hfront, Bool.false_eq_true,
    if_false, if_true]

/-- **A text that ends a name without a value**: it does not go on with the name, nor with a
value. -/
structure EndsName (rest : List Char) : Prop where
  head : ∀ c ∈ rest.head?, isNameChar c = false
  value : value? rest = none

theorem isNameChar_of_isBlank {c : Char} (h : isBlank c = true) : isNameChar c = false := by
  rw [isNameChar, h]
  rfl

/-- A name is ended by blanks with anything but an equals sign behind them, or with nothing. -/
theorem endsName_of_blanks (hblanks : ∀ c ∈ blanks, isBlank c = true)
    (hhead : ∀ c ∈ (blanks ++ rest).head?, isBlank c = true)
    (hrest : ∀ c ∈ rest.head?, isBlank c = false ∧ c ≠ '=') : EndsName (blanks ++ rest) where
  head c hc := isNameChar_of_isBlank (hhead c hc)
  value := by
    rw [value?, List.dropWhile_append_of_pos hblanks]
    cases rest with
    | nil => rfl
    | cons c rest =>
      obtain ⟨hvisible, hequals⟩ := hrest c rfl
      rw [List.dropWhile_cons_of_neg (by simp [hvisible])]
      split
      · next h => exact absurd (List.cons.inj h).1 hequals
      · rfl

theorem endsName_written {written : List WrittenAttribute}
    (hblanks : ∀ c ∈ blanks, isBlank c = true) :
    EndsName (written.flatMap WrittenAttribute.written ++ blanks) := by
  cases written with
  | nil =>
    have hhead : ∀ c ∈ (blanks ++ []).head?, isBlank c = true := by
      rw [List.append_nil]
      exact fun c hc => hblanks c (List.mem_of_mem_head? hc)
    simpa using endsName_of_blanks hblanks hhead (by simp)
  | cons a written =>
    obtain ⟨b, bs, hbs⟩ := List.exists_cons_of_ne_nil a.blanks_ne
    obtain ⟨n, ns, hns⟩ := List.exists_cons_of_ne_nil a.name_ne
    have hname : isNameChar n = true := a.isNameChar_name n (hns ▸ List.mem_cons_self)
    rw [List.flatMap_cons, WrittenAttribute.written, List.append_assoc, List.append_assoc]
    refine endsName_of_blanks a.isBlank_blanks ?_ ?_
    · intro c hc
      rw [hbs] at hc
      exact a.isBlank_blanks c (hbs ▸ Option.some.inj hc ▸ List.mem_cons_self)
    · intro c hc
      rw [hns] at hc
      obtain rfl : n = c := Option.some.inj hc
      refine ⟨?_, ?_⟩
      · rw [Bool.eq_false_iff]
        exact fun h => absurd hname (by rw [isNameChar_of_isBlank h]; simp)
      · rintro rfl
        exact absurd hname (by decide)

/-- Blanks are passed over. -/
theorem exists_readAttributes_blanks (found : Table String String) (rest : List Char)
    (hblanks : ∀ c ∈ blanks, isBlank c = true)
    (hsteps : (blanks ++ rest).length ≤ steps) : ∃ steps', rest.length ≤ steps' ∧
      readAttributes steps found (blanks ++ rest) = readAttributes steps' found rest := by
  induction blanks generalizing steps with
  | nil => exact ⟨steps, hsteps, rfl⟩
  | cons c blanks ih =>
    obtain ⟨hblank, hblanks⟩ := List.forall_mem_cons.mp hblanks
    obtain ⟨n, rfl⟩ := exists_succ_of_mem List.mem_cons_self hsteps
    obtain ⟨steps', hlength, hread⟩ := ih hblanks (Nat.le_of_succ_le_succ hsteps)
    refine ⟨steps', hlength, ?_⟩
    rw [List.cons_append, readAttributes, isNameChar_of_isBlank hblank]
    exact hread

/-- **An attribute is read** in one step once its name begins. -/
theorem readAttributes_written (a : WrittenAttribute) (hnew : found.get? a.entry.1 = none)
    (hrest : EndsName rest) :
    readAttributes (steps + 1) found (a.name ++ (a.writtenValue ++ rest)) =
      readAttributes steps (found ++ [a.entry]) rest := by
  obtain ⟨c, name, hname⟩ := List.exists_cons_of_ne_nil a.name_ne
  have hchars : ∀ d ∈ name, isNameChar d = true := fun d hd =>
    a.isNameChar_name d (hname ▸ List.mem_cons_of_mem c hd)
  have hend : ∀ d ∈ (a.writtenValue ++ rest).head?, isNameChar d = false := by
    unfold WrittenAttribute.writtenValue
    cases a.value with
    | none => exact hrest.head
    | some v =>
      intro d hd
      obtain rfl : '=' = d := Option.some.inj hd
      decide
  have hspan : (name ++ (a.writtenValue ++ rest)).takeWhile isNameChar = name ∧
      (name ++ (a.writtenValue ++ rest)).dropWhile isNameChar = a.writtenValue ++ rest := by
    rw [List.takeWhile_append_of_pos hchars, List.dropWhile_append_of_pos hchars]
    cases hbehind : a.writtenValue ++ rest with
    | nil => simp
    | cons d behind =>
      have hd := hend d (by rw [hbehind]; rfl)
      rw [List.takeWhile_cons_of_neg (by simp [hd]), List.dropWhile_cons_of_neg (by simp [hd])]
      simp
  have hvalue : (value? (a.writtenValue ++ rest)).getD ([], a.writtenValue ++ rest) =
      ((a.value.map QuotedValue.text).getD [], rest) := by
    unfold WrittenAttribute.writtenValue
    cases a.value with
    | none => simp [hrest.value]
    | some v => simp [value?_written]
  have hlower : lowercase (String.ofList (c :: name)) = a.entry.1 := by
    rw [← hname, a.lowercase_name]
    rfl
  have hhas : found.has a.entry.1 = false := by rw [Table.has, hnew]; rfl
  have hc : isNameChar c = true := a.isNameChar_name c (hname ▸ List.mem_cons_self)
  rw [hname, List.cons_append, readAttributes]
  simp only [hc, if_true, hspan.1, hspan.2, hvalue, hlower, hhas, Bool.false_eq_true, if_false]
  rw [Table.put_eq_append _ hnew]
  rfl

theorem readAttributes_flatMap_written {written : List WrittenAttribute}
    (hblanks : ∀ c ∈ blanks, isBlank c = true)
    (hnames : (found.keys ++ written.map fun a => a.entry.1).Nodup)
    (hsteps : (written.flatMap WrittenAttribute.written ++ blanks).length ≤ steps) :
    readAttributes steps found (written.flatMap WrittenAttribute.written ++ blanks) =
      found ++ written.map WrittenAttribute.entry := by
  induction written generalizing found steps with
  | nil =>
    obtain ⟨steps', -, hread⟩ := exists_readAttributes_blanks found [] hblanks
      (by simpa using hsteps)
    rw [List.append_nil] at hread
    rw [List.flatMap_nil, List.nil_append, hread, List.map_nil, List.append_nil]
    cases steps' <;> rfl
  | cons a written ih =>
    have htext : (a :: written).flatMap WrittenAttribute.written ++ blanks =
        a.blanks ++ (a.name ++ (a.writtenValue ++
          (written.flatMap WrittenAttribute.written ++ blanks))) := by
      rw [List.flatMap_cons, WrittenAttribute.written]
      simp only [List.append_assoc]
    rw [htext] at hsteps ⊢
    obtain ⟨steps', hlength, hread⟩ := exists_readAttributes_blanks found _ a.isBlank_blanks hsteps
    obtain ⟨c, hc⟩ := List.exists_mem_of_ne_nil _ a.name_ne
    obtain ⟨n, rfl⟩ := exists_succ_of_mem hc hlength
    have hnew : found.get? a.entry.1 = none := by
      rw [Option.eq_none_iff_forall_ne_some]
      intro value hvalue
      have hkey : a.entry.1 ∈ found.keys := List.mem_map.mpr ⟨_, Table.mem_of_get? hvalue, rfl⟩
      exact (List.nodup_append.mp hnames).2.2 _ hkey _ List.mem_cons_self rfl
    have hrest : (written.flatMap WrittenAttribute.written ++ blanks).length ≤ n := by
      have hname := List.length_pos_of_mem hc
      simp only [List.length_append] at hlength ⊢
      omega
    have hnames' : (Table.keys (found ++ [a.entry]) ++ written.map fun a => a.entry.1).Nodup := by
      simpa [Table.keys] using hnames
    rw [hread, readAttributes_written a hnew (endsName_written hblanks), ih hnames' hrest]
    simp

/-- **The attributes that are read** from a text are those that it was written with. -/
theorem attributesOf_written {written : List WrittenAttribute}
    (hblanks : ∀ c ∈ blanks, isBlank c = true) (hnames : (written.map fun a => a.entry.1).Nodup) :
    attributesOf (written.flatMap WrittenAttribute.written ++ blanks) =
      written.map WrittenAttribute.entry :=
  readAttributes_flatMap_written hblanks hnames (Nat.le_refl _)

/-! ### Scripts as they are written -/

/-- The text of an opening tag in front of its end. -/
def writtenTag (attributes : List WrittenAttribute) (blanks : List Char) : List Char :=
  "<script".toList ++ (attributes.flatMap WrittenAttribute.written ++ blanks)

/-- **A script as it is written**, with blanks before the end of its opening tag or without. -/
def writtenScript (attributes : List WrittenAttribute) (blanks content : List Char) : String :=
  String.ofList (writtenTag attributes blanks ++ '>' :: (content ++ "</script>".toList))

theorem spells_self (word : List Char) : Spells word word := by
  induction word with
  | nil => exact List.Forall₂.nil
  | cons c word ih =>
    refine List.Forall₂.cons ?_ ih
    unfold variants
    split
    · next h => simp [h]
    · split
      · next h => simp [h]
      · simp

theorem isClosingTag_script : IsClosingTag "</script>".toList :=
  ⟨"</script".toList, [], spells_self _, by simp, rfl⟩

/-- An element at the front of a component is the first one. -/
theorem exists_all_eq_cons {opening attributes closing : List Char} (after : List Char)
    (hopening : IsOpeningTag opening attributes) (hcontent : ¬HoldsClosingTag content)
    (hclosing : IsClosingTag closing) : ∃ steps position,
      all (String.ofList (opening ++ (content ++ (closing ++ after)))) =
        elementAt 0 opening attributes content :: allFrom steps position after := by
  have hfirst := first?_eq 0 after hopening hcontent hclosing
  obtain ⟨n, hn⟩ := exists_succ_of_mem hopening.mem
    (Nat.le_refl (opening ++ (content ++ (closing ++ after))).length)
  exact ⟨n, _, by rw [all, String.toList_ofList, hn, allFrom_of_some hfirst]⟩

/-- What stands in an opening tag behind its name starts with a blank, if there is any of it. -/
theorem isBlank_of_mem_head? (attributes : List WrittenAttribute)
    (hblanks : ∀ c ∈ blanks, isBlank c = true) :
    ∀ c ∈ (attributes.flatMap WrittenAttribute.written ++ blanks).head?, isBlank c = true := by
  cases attributes with
  | nil => exact fun c hc => hblanks c (List.mem_of_mem_head? hc)
  | cons a attributes =>
    intro c hc
    obtain ⟨b, bs, hbs⟩ := List.exists_cons_of_ne_nil a.blanks_ne
    rw [List.flatMap_cons, WrittenAttribute.written, hbs] at hc
    exact a.isBlank_blanks c (hbs ▸ Option.some.inj hc ▸ List.mem_cons_self)

/-- **A `>` in front of the end** of an opening tag stands in the value of an attribute. -/
theorem mem_written_iff {attributes : List WrittenAttribute}
    (hblanks : ∀ c ∈ blanks, isBlank c = true) :
    '>' ∈ attributes.flatMap WrittenAttribute.written ++ blanks ↔
      ∃ a ∈ attributes, ∃ v ∈ a.value, '>' ∈ v.text := by
  have hblank : ∀ blanks : List Char, (∀ c ∈ blanks, isBlank c = true) → '>' ∉ blanks :=
    fun blanks h hmem => absurd (h _ hmem) (by decide)
  have hone : ∀ a : WrittenAttribute, '>' ∈ a.written ↔ ∃ v ∈ a.value, '>' ∈ v.text := by
    intro a
    have hname : '>' ∉ a.name := fun hmem => absurd (a.isNameChar_name _ hmem) (by decide)
    rw [WrittenAttribute.written, List.mem_append, List.mem_append,
      or_iff_right (hblank _ a.isBlank_blanks), or_iff_right hname, WrittenAttribute.writtenValue]
    cases a.value with
    | none => simp
    | some v =>
      have hquote : '>' ≠ v.quote := by
        rintro h
        exact absurd (h ▸ v.quote_mem) (by decide)
      simp [QuotedValue.written, hquote]
  rw [List.mem_append, or_iff_left (hblank _ hblanks), List.mem_flatMap]
  exact exists_congr fun a => and_congr_right fun _ => hone a

/-- **The content is taken to start behind the first `>`**, whatever stands there. -/
theorem exists_start_of_mem {attributes body : List Char}
    (hhead : ∀ c ∈ attributes.head?, isBlank c = true)
    (hmem : '>' ∈ attributes) (hbody : HoldsClosingTag body) :
    ∃ e rest, all (String.ofList ("<script".toList ++ attributes ++ '>' :: body)) = e :: rest ∧
      e.start < ("<script".toList ++ attributes).length + 1 := by
  obtain ⟨front, back, rfl, hfront⟩ := List.eq_append_cons_of_mem hmem
  have hopening : IsOpeningTag ("<script".toList ++ front ++ ['>']) front := by
    refine ⟨_, spells_self _, fun c hc => isWord_of_isBlank (hhead c ?_), hfront, rfl⟩
    rw [List.head?_append, hc]
    rfl
  have hholds : HoldsClosingTag (back ++ '>' :: body) := by
    obtain ⟨tag, htag, hin⟩ := hbody
    exact ⟨tag, htag,
      (hin.trans (List.infix_cons List.infix_rfl)).trans (List.suffix_append _ _).isInfix⟩
  obtain ⟨⟨content, after⟩, hup⟩ := Option.isSome_iff_exists.mp (holdsClosingTag_iff.mp hholds)
  obtain ⟨hcontent, closing, hclosing, hsplit⟩ := upToClosing?_eq_some_iff.mp hup
  obtain ⟨steps, position, hall⟩ := exists_all_eq_cons after hopening hcontent hclosing
  have htext : "<script".toList ++ (front ++ '>' :: back) ++ '>' :: body =
      "<script".toList ++ front ++ ['>'] ++ (content ++ (closing ++ after)) := by
    rw [← hsplit]
    simp only [List.append_assoc, List.cons_append, List.nil_append]
  refine ⟨_, _, by rw [htext, hall], ?_⟩
  simp only [elementAt, List.length_append, List.length_cons, List.length_nil]
  omega

/-- A script at the front of a component is found as it was written, if no value of its attributes
holds a `>`. -/
theorem exists_all_written {attributes : List WrittenAttribute} (after : List Char)
    (hnames : (attributes.map fun a => a.entry.1).Nodup) (hblanks : ∀ c ∈ blanks, isBlank c = true)
    (hcontent : ¬HoldsClosingTag content) (hfree : ∀ a ∈ attributes, ∀ v ∈ a.value, '>' ∉ v.text) :
    ∃ steps position, all (String.ofList (writtenTag attributes blanks ++
      '>' :: (content ++ ("</script>".toList ++ after)))) = {
        content := String.ofList content
        start := (writtenTag attributes blanks).length + 1
        stop := (writtenTag attributes blanks).length + 1 + content.length
        attributes := attributes.map WrittenAttribute.entry } :: allFrom steps position after := by
  have hfree : '>' ∉ attributes.flatMap WrittenAttribute.written ++ blanks := by
    rintro hmem
    obtain ⟨a, ha, v, hv, hmem⟩ := (mem_written_iff hblanks).mp hmem
    exact hfree a ha v hv hmem
  have hopening : IsOpeningTag (writtenTag attributes blanks ++ ['>']) _ :=
    ⟨_, spells_self _, fun c hc => isWord_of_isBlank (isBlank_of_mem_head? attributes hblanks c hc),
      hfree, rfl⟩
  have helement : elementAt 0 (writtenTag attributes blanks ++ ['>'])
      (attributes.flatMap WrittenAttribute.written ++ blanks) content = {
        content := String.ofList content
        start := (writtenTag attributes blanks).length + 1
        stop := (writtenTag attributes blanks).length + 1 + content.length
        attributes := attributes.map WrittenAttribute.entry } := by
    rw [elementAt, attributesOf_written hblanks hnames, Nat.zero_add, List.length_append]
    rfl
  obtain ⟨steps, position, hall⟩ := exists_all_eq_cons after hopening hcontent isClosingTag_script
  rw [List.append_assoc, List.singleton_append, helement] at hall
  exact ⟨steps, position, hall⟩

/-- **A script is found as it was written** if no value of its attributes holds a `>`, and only
then. -/
theorem all_writtenScript_iff {attributes : List WrittenAttribute}
    (hnames : (attributes.map fun a => a.entry.1).Nodup) (hblanks : ∀ c ∈ blanks, isBlank c = true)
    (hcontent : ¬HoldsClosingTag content) :
    all (writtenScript attributes blanks content) = [{
      content := String.ofList content
      start := (writtenTag attributes blanks).length + 1
      stop := (writtenTag attributes blanks).length + 1 + content.length
      attributes := attributes.map WrittenAttribute.entry }] ↔
    ∀ a ∈ attributes, ∀ v ∈ a.value, '>' ∉ v.text := by
  constructor
  · -- otherwise the content would start in front of the end of the tag
    intro hall a ha v hv hmem
    have hholds : HoldsClosingTag (content ++ "</script>".toList) :=
      ⟨_, isClosingTag_script, (List.suffix_append _ _).isInfix⟩
    obtain ⟨e, rest, hfirst, hstart⟩ :=
      exists_start_of_mem (isBlank_of_mem_head? attributes hblanks)
        ((mem_written_iff hblanks).mpr ⟨a, ha, v, hv, hmem⟩) hholds
    have he := (List.cons.inj (hfirst.symm.trans hall)).1
    rw [he] at hstart
    exact absurd hstart (Nat.lt_irrefl _)
  · intro hfree
    obtain ⟨steps, position, hall⟩ := exists_all_written [] hnames hblanks hcontent hfree
    have hrest : allFrom steps position [] = [] := by cases steps <;> rfl
    rw [List.append_nil, hrest] at hall
    exact hall

theorem isBlank_space : ∀ c ∈ [' '], isBlank c = true := List.all_eq_true.mp (by decide)

/-- The attribute of a setup script. -/
def WrittenAttribute.setup : WrittenAttribute :=
  ⟨[' '], "setup".toList, none, by decide, isBlank_space, by decide,
    List.all_eq_true.mp (by decide), by decide +kernel⟩

/-- The attribute of a script in the typed language. -/
def WrittenAttribute.lang : WrittenAttribute :=
  ⟨[' '], "lang".toList, some ⟨'"', "ts".toList, by decide, by decide⟩, by decide, isBlank_space,
    by decide, List.all_eq_true.mp (by decide), by decide +kernel⟩

open WrittenAttribute in
/-- A value may hold the other quote, blanks and what looks like a further attribute. -/
theorem all_writtenScript_iff_quoted :
    all "<script setup lang=\"ts\" data-x='a \"b\" / lang=\"js\"'>let a</script>" =
      [⟨"let a", 51, 56,
        [("setup", ""), ("lang", "ts"), ("data-x", "a \"b\" / lang=\"js\"")]⟩] := by
  let data : WrittenAttribute :=
    ⟨[' '], "data-x".toList, some ⟨'\'', "a \"b\" / lang=\"js\"".toList, by decide, by decide⟩,
      by decide, isBlank_space, by decide, List.all_eq_true.mp (by decide), by decide +kernel⟩
  have hnames : ([setup, lang, data].map fun a => a.entry.1).Nodup := by decide
  have hblanks : ∀ c ∈ [], isBlank c = true := by simp
  have hcontent : ¬HoldsClosingTag "let a".toList := by decide
  have hfree : ∀ a ∈ [setup, lang, data], ∀ v ∈ a.value, '>' ∉ v.text := by decide
  have htext : writtenScript [setup, lang, data] [] "let a".toList =
      "<script setup lang=\"ts\" data-x='a \"b\" / lang=\"js\"'>let a</script>" := by decide
  have hall := (all_writtenScript_iff hnames hblanks hcontent).mpr hfree
  rw [htext] at hall
  exact hall

/-- **A value may end the tag**: what stands behind the `>` in it is taken for the content. -/
theorem all_generic :
    all "<script setup lang=\"ts\" generic=\"T extends Array<string>\">let a</script>" =
      [⟨"\">let a", 56, 63, [("setup", ""), ("lang", "ts"), ("generic", ""), ("t", ""),
        ("extends", ""), ("array", ""), ("string", "")]⟩] := by
  decide +kernel

end ScriptElement

end TypeGraft
