import Mathlib.Data.List.Induction
import Mathlib.Data.List.Forall2
import Mathlib.Data.Option.Basic
import TypeGraft.Component

/-!
# Where elements are found

`TypeGraft.ScriptElement.first?` reads an element off the front of a text: an opening tag, the text
up to the first closing tag, and that tag (`TypeGraft.ScriptElement.first?_eq_some_iff`). The first
closing tag cannot be one that starts in the content and ends behind it, since `<` stands only at
the front of a closing tag.

So the setup script is found again when something else is written in its place
(`TypeGraft.ScriptElement.setup?_replaced`), at the same position and with the same attributes, as
long as no closing tag is written. The point to see is that no earlier element comes into being: an
opening tag in front of the script ends there too, and the element that it opens is closed, at the
latest, where the script is closed.
-/

namespace TypeGraft.ScriptElement

open Text

variable {word text rest after content tag attributes : List Char} {position : Nat}
    {e : ScriptElement}

/-! ### Tags -/

/-- A text that reads as a word in any case. -/
def Spells (word text : List Char) : Prop := List.Forall₂ (fun w c => c ∈ variants w) word text

/-- A closing tag, with blanks before its end or without. -/
def IsClosingTag (tag : List Char) : Prop :=
  ∃ name blanks, Spells "</script".toList name ∧ (∀ c ∈ blanks, isBlank c = true) ∧
    tag = name ++ blanks ++ ['>']

/-- A text in which a closing tag stands somewhere. -/
def HoldsClosingTag (text : List Char) : Prop := ∃ tag, IsClosingTag tag ∧ tag <:+: text

/-- An opening tag, and what stands in it behind its name. -/
def IsOpeningTag (tag attributes : List Char) : Prop :=
  ∃ name, Spells "<script".toList name ∧ (∀ c ∈ attributes.head?, isWord c = false) ∧
    '>' ∉ attributes ∧ tag = name ++ attributes ++ ['>']

theorem afterWord?_eq_some_iff :
    afterWord? word text = some rest ↔ ∃ name, Spells word name ∧ text = name ++ rest := by
  induction word generalizing text with
  | nil =>
    refine ⟨fun h => ⟨[], List.Forall₂.nil, Option.some.inj h⟩, ?_⟩
    rintro ⟨name, hname, rfl⟩
    cases hname
    rfl
  | cons w word ih =>
    constructor
    · intro h
      cases text with
      | nil => exact absurd h (by simp [afterWord?])
      | cons c text =>
        rw [afterWord?] at h
        split at h
        · next hc =>
          obtain ⟨name, hname, rfl⟩ := ih.mp h
          exact ⟨c :: name, List.Forall₂.cons (List.contains_iff_mem.mp hc) hname, rfl⟩
        · exact absurd h (by simp)
    · rintro ⟨name, hname, rfl⟩
      cases hname with
      | cons hc hname =>
        rw [List.cons_append, afterWord?, if_pos (List.contains_iff_mem.mpr hc)]
        exact ih.mpr ⟨_, hname, rfl⟩

/-- A character that does not stand in a word in any case does not stand in a text that spells
it. -/
theorem Spells.not_mem {c : Char} (h : Spells word text)
    (hc : (word.all fun w => !(variants w).contains c) = true) : c ∉ text := by
  induction h with
  | nil => exact List.not_mem_nil
  | cons hfirst _ ih =>
    rw [List.all_cons, Bool.and_eq_true, Bool.not_eq_true'] at hc
    intro hmem
    rcases List.mem_cons.mp hmem with rfl | hmem
    · exact absurd (List.contains_iff_mem.mpr hfirst) (by rw [hc.1]; simp)
    · exact ih hc.2 hmem

/-- A closing tag has `<` at its front, and nowhere else. -/
theorem IsClosingTag.front (h : IsClosingTag tag) : ∃ rest, tag = '<' :: rest ∧ '<' ∉ rest := by
  obtain ⟨name, blanks, hname, hblanks, rfl⟩ := h
  have hword : "</script".toList = '<' :: "/script".toList := by decide
  rw [hword] at hname
  cases hname with
  | @cons _ c _ name hc hname =>
    obtain rfl : c = '<' := by simpa [variants] using hc
    refine ⟨name ++ blanks ++ ['>'], rfl, ?_⟩
    simp only [List.mem_append, List.mem_singleton, not_or]
    refine ⟨⟨Spells.not_mem hname (by decide), fun hmem => ?_⟩, by decide⟩
    exact absurd (hblanks _ hmem) (by decide)

theorem afterClosing?_eq_some_iff :
    afterClosing? text = some after ↔ ∃ tag, IsClosingTag tag ∧ text = tag ++ after := by
  constructor
  · intro h
    unfold afterClosing? at h
    split at h
    · next rest hrest =>
      obtain ⟨name, hname, rfl⟩ := afterWord?_eq_some_iff.mp hrest
      split at h
      · next after' hend =>
        obtain rfl := Option.some.inj h
        refine ⟨_, ⟨name, rest.takeWhile isBlank, hname,
          fun c hc => List.all_eq_true.mp List.all_takeWhile c hc, rfl⟩, ?_⟩
        rw [List.append_assoc, List.append_assoc, List.singleton_append, ← hend,
          List.takeWhile_append_dropWhile]
      · exact absurd h (by simp)
    · exact absurd h (by simp)
  · rintro ⟨_, ⟨name, blanks, hname, hblanks, rfl⟩, rfl⟩
    have hword : afterWord? "</script".toList (name ++ blanks ++ ['>'] ++ after) =
        some (blanks ++ '>' :: after) :=
      afterWord?_eq_some_iff.mpr ⟨name, hname, by simp⟩
    have hend : (blanks ++ '>' :: after).dropWhile isBlank = '>' :: after := by
      rw [List.dropWhile_append_of_pos hblanks]
      exact List.dropWhile_cons_of_neg (by decide)
    rw [afterClosing?, hword]
    dsimp only
    rw [hend]
    rfl

theorem holdsClosingTag_cons {c : Char} :
    HoldsClosingTag (c :: text) ↔ (afterClosing? (c :: text)).isSome ∨ HoldsClosingTag text := by
  constructor
  · rintro ⟨tag, htag, hin⟩
    rcases List.infix_cons_iff.mp hin with ⟨after, hfront⟩ | hin
    · exact Or.inl (Option.isSome_iff_exists.mpr
        ⟨after, afterClosing?_eq_some_iff.mpr ⟨tag, htag, hfront.symm⟩⟩)
    · exact Or.inr ⟨tag, htag, hin⟩
  · rintro (hfront | ⟨tag, htag, hin⟩)
    · obtain ⟨after, hafter⟩ := Option.isSome_iff_exists.mp hfront
      obtain ⟨tag, htag, hfront⟩ := afterClosing?_eq_some_iff.mp hafter
      exact ⟨tag, htag, hfront ▸ (List.prefix_append tag after).isInfix⟩
    · exact ⟨tag, htag, List.infix_cons hin⟩

theorem holdsClosingTag_iff : HoldsClosingTag text ↔ (upToClosing? text).isSome := by
  induction text with
  | nil =>
    refine ⟨?_, fun h => absurd h (by simp [upToClosing?])⟩
    rintro ⟨tag, htag, hin⟩
    obtain ⟨rest, rfl, -⟩ := htag.front
    exact absurd (List.infix_nil.mp hin) (by simp)
  | cons c text ih =>
    rw [holdsClosingTag_cons, upToClosing?]
    cases afterClosing? (c :: text) with
    | some after => simp
    | none => simpa using ih

instance : DecidablePred HoldsClosingTag := fun _ => decidable_of_iff _ holdsClosingTag_iff.symm

/-- **No closing tag starts before another one and ends behind its front.** -/
theorem afterClosing?_eq_none {c : Char} (htag : IsClosingTag tag)
    (hcontent : ¬HoldsClosingTag (c :: content)) :
    afterClosing? (c :: content ++ (tag ++ after)) = none := by
  rw [Option.eq_none_iff_forall_not_mem]
  intro after' hafter
  obtain ⟨tag', htag', heq⟩ := afterClosing?_eq_some_iff.mp hafter
  rcases List.append_eq_append_iff.mp heq with ⟨behind, rfl, hbehind⟩ | ⟨behind, hfront, -⟩
  · -- the tag reaches behind the content, so the `<` of the other one stands in it, or nothing does
    cases behind with
    | nil => exact hcontent ⟨_, htag', by simp⟩
    | cons b behind =>
      obtain ⟨rest, rfl, -⟩ := htag.front
      obtain ⟨rest', htag', hrest'⟩ := htag'.front
      obtain rfl : '<' = b := (List.cons.inj hbehind).1
      refine hrest' ?_
      rw [← (List.cons.inj htag').2]
      simp
  · exact hcontent ⟨tag', htag', hfront ▸ (List.prefix_append tag' behind).isInfix⟩

/-- **What stands up to the first closing tag** holds none, and the tag comes right behind it. -/
theorem upToClosing?_eq_some_iff : upToClosing? text = some (content, after) ↔
    ¬HoldsClosingTag content ∧ ∃ tag, IsClosingTag tag ∧ text = content ++ (tag ++ after) := by
  constructor
  · intro h
    induction text generalizing content with
    | nil => exact absurd h (by simp [upToClosing?])
    | cons c text ih =>
      rw [upToClosing?] at h
      split at h
      · next after' hafter =>
        obtain ⟨rfl, rfl⟩ := Prod.mk.inj (Option.some.inj h)
        exact ⟨by simp [holdsClosingTag_iff, upToClosing?],
          afterClosing?_eq_some_iff.mp hafter⟩
      · next hnone =>
        obtain ⟨⟨content', after'⟩, hrest, heq⟩ := Option.map_eq_some_iff.mp h
        obtain ⟨rfl, rfl⟩ := Prod.mk.inj heq
        obtain ⟨hcontent, tag, htag, rfl⟩ := ih hrest
        refine ⟨?_, tag, htag, rfl⟩
        rw [holdsClosingTag_cons, not_or]
        refine ⟨fun hsome => ?_, hcontent⟩
        -- a closing tag at the front of the content is one at the front of the text
        obtain ⟨between, hbetween⟩ := Option.isSome_iff_exists.mp hsome
        obtain ⟨tag', htag', heq⟩ := afterClosing?_eq_some_iff.mp hbetween
        have hfront : afterClosing? (c :: (content' ++ (tag ++ after'))) =
            some (between ++ (tag ++ after')) :=
          afterClosing?_eq_some_iff.mpr ⟨tag', htag', by rw [← List.cons_append, heq]; simp⟩
        exact absurd (hnone.symm.trans hfront) (by simp)
  · rintro ⟨hcontent, tag, htag, rfl⟩
    induction content with
    | nil =>
      have hfront : afterClosing? (tag ++ after) = some after :=
        afterClosing?_eq_some_iff.mpr ⟨tag, htag, rfl⟩
      obtain ⟨rest, rfl, -⟩ := htag.front
      rw [List.nil_append, List.cons_append, upToClosing?, ← List.cons_append, hfront]
    | cons c content ih =>
      rw [List.cons_append, upToClosing?, ← List.cons_append, afterClosing?_eq_none htag hcontent,
        ih fun h => hcontent (holdsClosingTag_cons.mpr (Or.inr h))]
      rfl

/-! ### Elements -/

/-- An opening tag has `>` at its end, and nowhere else. -/
theorem IsOpeningTag.back (h : IsOpeningTag tag attributes) :
    ∃ front, tag = front ++ ['>'] ∧ '>' ∉ front := by
  obtain ⟨name, hname, -, hattributes, rfl⟩ := h
  refine ⟨name ++ attributes, rfl, ?_⟩
  rw [List.mem_append, not_or]
  exact ⟨hname.not_mem (by decide), hattributes⟩

/-- The element behind an opening tag with some attributes. -/
def elementAt (position : Nat) (opening attributes content : List Char) : ScriptElement :=
  ⟨String.ofList content, position + opening.length, position + opening.length + content.length,
    attributesOf attributes⟩

/-- A text that is cut at its first `>` is what stands in front of that, the `>` and the rest. -/
theorem eq_takeWhile_append_of_dropWhile {tag body : List Char}
    (hend : tag.dropWhile (· != '>') ≠ []) (hbody : (tag.dropWhile (· != '>')).drop 1 = body) :
    tag = tag.takeWhile (· != '>') ++ '>' :: body := by
  have hhead : (tag.dropWhile (· != '>')).head hend = '>' := by
    simpa using List.head_dropWhile_not (· != '>') hend
  have hsplit : tag.dropWhile (· != '>') = '>' :: body := by
    rw [← List.cons_head_tail hend, hhead, ← List.drop_one, hbody]
  rw [← hsplit, List.takeWhile_append_dropWhile]

theorem exists_of_first? (h : first? position text = some (e, after)) :
    ∃ opening attributes content closing, IsOpeningTag opening attributes ∧
      ¬HoldsClosingTag content ∧ IsClosingTag closing ∧
      text = opening ++ (content ++ (closing ++ after)) ∧
      e = elementAt position opening attributes content := by
  unfold first? at h
  simp only [Option.bind_eq_bind, Option.bind_eq_some_iff] at h
  obtain ⟨tag, htag, _, hword, _, hend, ⟨content, after'⟩, hcontent, heq⟩ := h
  obtain ⟨rfl, rfl⟩ := Prod.mk.inj (Option.some.inj heq)
  obtain ⟨name, hname, rfl⟩ := afterWord?_eq_some_iff.mp htag
  obtain ⟨hcontent, closing, hclosing, hbody⟩ := upToClosing?_eq_some_iff.mp hcontent
  have hend : tag.dropWhile (· != '>') ≠ [] := by simpa using (Option.guard_eq_some' _).mp hend
  have htag := eq_takeWhile_append_of_dropWhile hend hbody
  have hlength : (name ++ tag).length - (content ++ (closing ++ after')).length =
      (name ++ tag.takeWhile (· != '>') ++ ['>']).length := by
    have := congrArg List.length htag
    simp only [List.length_append, List.length_cons, List.length_nil] at this ⊢
    omega
  refine ⟨_, tag.takeWhile (· != '>'), content, closing, ⟨name, hname, fun c hc => ?_, ?_, rfl⟩,
    hcontent, hclosing, ?_, ?_⟩
  · -- what stands behind the name is what the tag starts with
    cases tag with
    | nil => exact absurd rfl hend
    | cons b tag =>
      rw [List.takeWhile_cons] at hc
      split at hc
      · obtain rfl := Option.some.inj hc
        simpa using (Option.guard_eq_some' _).mp hword
      · exact absurd hc (by simp)
  · intro hmem
    exact absurd (List.all_eq_true.mp List.all_takeWhile _ hmem) (by simp)
  · conv_lhs => rw [htag]
    simp
  · rw [hbody, hlength]
    rfl

theorem first?_eq (position : Nat) (after : List Char) {opening closing : List Char}
    (hopening : IsOpeningTag opening attributes) (hcontent : ¬HoldsClosingTag content)
    (hclosing : IsClosingTag closing) :
    first? position (opening ++ (content ++ (closing ++ after))) =
      some (elementAt position opening attributes content, after) := by
  obtain ⟨name, hname, hword, hattributes, rfl⟩ := hopening
  have htag : afterWord? "<script".toList
      (name ++ attributes ++ ['>'] ++ (content ++ (closing ++ after))) =
        some (attributes ++ '>' :: (content ++ (closing ++ after))) :=
    afterWord?_eq_some_iff.mpr ⟨name, hname, by simp⟩
  have hbehind : ((attributes ++ '>' :: (content ++ (closing ++ after))).head?.map isWord).getD
      false = false := by
    cases attributes with
    | nil => exact show isWord '>' = false by decide
    | cons c attributes => exact hword c rfl
  -- the attributes hold no `>`, so the tag is cut behind them
  have hfront : ∀ c ∈ attributes, (c != '>') = true := by
    intro c hc
    rw [bne_iff_ne]
    rintro rfl
    exact hattributes hc
  have hback : (attributes ++ '>' :: (content ++ (closing ++ after))).dropWhile (· != '>') =
      '>' :: (content ++ (closing ++ after)) := by
    rw [List.dropWhile_append_of_pos hfront]
    exact List.dropWhile_cons_of_neg (by decide)
  have hattributes' : (attributes ++ '>' :: (content ++ (closing ++ after))).takeWhile (· != '>') =
      attributes := by
    rw [List.takeWhile_append_of_pos hfront]
    simp
  have hfirst : upToClosing? (content ++ (closing ++ after)) = some (content, after) :=
    upToClosing?_eq_some_iff.mpr ⟨hcontent, closing, hclosing, rfl⟩
  have hlength : (name ++ attributes ++ ['>'] ++ (content ++ (closing ++ after))).length -
      (content ++ (closing ++ after)).length = (name ++ attributes ++ ['>']).length := by
    rw [List.length_append, Nat.add_sub_cancel]
  unfold first?
  simp only [htag, hbehind, hback, hattributes', Option.bind_eq_bind, Option.bind_some,
    List.drop_succ_cons, List.drop_zero, hfirst, hlength, Bool.not_false, guard_true]
  rfl

/-- **An element at the front of a text** is an opening tag, the text up to the first closing tag,
and that tag. -/
theorem first?_eq_some_iff : first? position text = some (e, after) ↔
    ∃ opening attributes content closing, IsOpeningTag opening attributes ∧
      ¬HoldsClosingTag content ∧ IsClosingTag closing ∧
      text = opening ++ (content ++ (closing ++ after)) ∧
      e = elementAt position opening attributes content := by
  refine ⟨exists_of_first?, ?_⟩
  rintro ⟨opening, attributes, content, closing, hopening, hcontent, hclosing, rfl, rfl⟩
  exact first?_eq position after hopening hcontent hclosing

/-- **An opening tag that starts before a `>`** ends there at the latest. -/
theorem IsOpeningTag.prefix_of_append {front back : List Char} (h : IsOpeningTag tag attributes)
    (heq : tag ++ rest = front ++ back) (hend : '>' ∈ front) : tag <+: front := by
  rcases List.append_eq_append_iff.mp heq with ⟨behind, rfl, -⟩ | ⟨behind, htag, -⟩
  · exact List.prefix_append tag behind
  · obtain ⟨name, rfl, hname⟩ := h.back
    cases behind using List.reverseRecOn with
    | nil => exact (htag.trans (List.append_nil front)) ▸ List.prefix_rfl
    | append_singleton behind c =>
      rw [← List.append_assoc] at htag
      obtain rfl : name = front ++ behind := (List.append_inj' htag rfl).1
      exact absurd (List.mem_append_left _ hend) hname

theorem IsOpeningTag.mem (h : IsOpeningTag tag attributes) : '>' ∈ tag := by
  obtain ⟨name, rfl, -⟩ := h.back
  simp

theorem exists_succ_of_mem {c : Char} {front back : List Char} {steps : Nat} (hc : c ∈ front)
    (hsteps : (front ++ back).length ≤ steps) : ∃ n, steps = n + 1 := by
  have hfront := List.length_pos_of_mem hc
  rw [List.length_append] at hsteps
  exact Nat.exists_eq_succ_of_ne_zero (by omega)

theorem allFrom_of_some {steps : Nat} (h : first? position text = some (e, after)) :
    allFrom (steps + 1) position text =
      e :: allFrom steps (position + (text.length - after.length)) after := by
  cases text with
  | nil =>
    obtain ⟨opening, _, _, _, hopening, -, -, heq, -⟩ := first?_eq_some_iff.mp h
    obtain ⟨name, rfl, -⟩ := hopening.back
    exact absurd heq (by simp)
  | cons c text => rw [allFrom, h]

/-- **No element starts before another one** and is closed behind its front: it would be closed, at
the latest, where the other one is. -/
theorem first?_eq_none {front closing : List Char} (hclosing : IsClosingTag closing)
    (hend : '>' ∈ front) (h : first? position (front ++ (content ++ (closing ++ after))) = none)
    (other : List Char) : first? position (front ++ (other ++ (closing ++ after))) = none := by
  rw [Option.eq_none_iff_forall_ne_some]
  rintro ⟨e', after'⟩ hsome
  obtain ⟨opening, attributes, _, _, hopening, -, -, heq, -⟩ := first?_eq_some_iff.mp hsome
  obtain ⟨between, rfl⟩ := hopening.prefix_of_append heq.symm hend
  have hholds : HoldsClosingTag (between ++ (content ++ (closing ++ after))) :=
    ⟨closing, hclosing, between ++ content, after, by simp only [List.append_assoc]⟩
  obtain ⟨⟨content', after'⟩, hfirst⟩ := Option.isSome_iff_exists.mp (holdsClosingTag_iff.mp hholds)
  obtain ⟨hcontent', closing', hclosing', hbody⟩ := upToClosing?_eq_some_iff.mp hfirst
  have hread : opening ++ between ++ (content ++ (closing ++ after)) =
      opening ++ (content' ++ (closing' ++ after')) := by rw [List.append_assoc, hbody]
  rw [hread, first?_eq position after' hopening hcontent' hclosing'] at h
  exact absurd h (by simp)

/-- The component with another content of the element. -/
def replaced (e : ScriptElement) (code content : String) : String :=
  String.ofList (code.toList.take e.start) ++ content ++ String.ofList (code.toList.drop e.stop)

/-- The element with another content, in the component with that content. -/
def filled (e : ScriptElement) (content : String) : ScriptElement :=
  { e with content, stop := e.start + content.length }

/-- **Where an element stands** in a text at a position: behind `front`, with `content` in it and
`back` behind that. Of the elements that have a property `p`, it is the first one, whatever other
content it has. -/
structure Stands (p : ScriptElement → Bool) (position : Nat) (e : ScriptElement)
    (front content back : List Char) : Prop where
  opened : '>' ∈ front
  closed : ∃ closing after, IsClosingTag closing ∧ back = closing ++ after
  content_eq : e.content = String.ofList content
  start_eq : e.start = position + front.length
  stop_eq : e.stop = e.start + content.length
  again : ∀ (other : String) (steps : Nat), ¬HoldsClosingTag other.toList →
    (front ++ (other.toList ++ back)).length ≤ steps →
      (allFrom steps position (front ++ (other.toList ++ back))).find? p = some (e.filled other)

namespace Stands

variable {p : ScriptElement → Bool} {front back opening closing : List Char}

/-- An element at the front is the first one. -/
theorem first (hp : ∀ a b : ScriptElement, a.attributes = b.attributes → p a = p b)
    (hopening : IsOpeningTag opening attributes) (hclosing : IsClosingTag closing)
    (hfound : p (elementAt position opening attributes content) = true) :
    Stands p position (elementAt position opening attributes content) opening content
      (closing ++ after) where
  opened := hopening.mem
  closed := ⟨closing, after, hclosing, rfl⟩
  content_eq := rfl
  start_eq := rfl
  stop_eq := rfl
  again other steps hother hsteps := by
    obtain ⟨steps, rfl⟩ := exists_succ_of_mem hopening.mem hsteps
    have hsame : p (elementAt position opening attributes other.toList) =
        p (elementAt position opening attributes content) := hp _ _ rfl
    rw [allFrom_of_some (first?_eq position after hopening hother hclosing),
      List.find?_cons_of_pos (hsame.trans hfound)]
    simp [filled, elementAt, String.length_toList]

/-- What stands behind an element that is passed over stands in the whole text. -/
theorem behind {passed : List Char} (hopening : IsOpeningTag opening attributes)
    (hpassed : ¬HoldsClosingTag passed) (hclosing : IsClosingTag closing)
    (hother : p (elementAt position opening attributes passed) = false)
    (h : Stands p (position + (opening.length + passed.length + closing.length)) e front content
      back) : Stands p position e (opening ++ (passed ++ (closing ++ front))) content back where
  opened := List.mem_append_left _ hopening.mem
  closed := h.closed
  content_eq := h.content_eq
  start_eq := by
    rw [h.start_eq]
    simp only [List.length_append]
    omega
  stop_eq := h.stop_eq
  again other steps hclosed hsteps := by
    obtain ⟨steps, rfl⟩ := exists_succ_of_mem (List.mem_append_left _ hopening.mem) hsteps
    simp only [List.append_assoc] at hsteps ⊢
    rw [allFrom_of_some (first?_eq position _ hopening hpassed hclosing),
      List.find?_cons_of_neg (by rw [hother]; simp)]
    have hbehind : ∀ rest : List Char,
        (opening ++ (passed ++ (closing ++ rest))).length - rest.length =
          opening.length + passed.length + closing.length := by
      intro rest
      simp only [List.length_append]
      omega
    have hopens := List.length_pos_of_mem hopening.mem
    rw [hbehind]
    refine h.again other steps hclosed ?_
    rw [List.length_append] at hsteps
    simp only [List.length_append] at hsteps ⊢
    omega

/-- What stands behind a character at which no element starts stands in the whole text. -/
theorem cons {c : Char} (hnone : first? position (c :: front ++ (content ++ back)) = none)
    (h : Stands p (position + 1) e front content back) :
    Stands p position e (c :: front) content back where
  opened := List.mem_cons_of_mem _ h.opened
  closed := h.closed
  content_eq := h.content_eq
  start_eq := by
    rw [h.start_eq, List.length_cons]
    omega
  stop_eq := h.stop_eq
  again other steps hclosed hsteps := by
    have hopened := List.mem_cons_of_mem c h.opened
    obtain ⟨closing, after, hclosing, rfl⟩ := h.closed
    obtain ⟨steps, rfl⟩ := exists_succ_of_mem hopened hsteps
    rw [List.cons_append, allFrom, ← List.cons_append, first?_eq_none hclosing hopened hnone]
    refine h.again other steps hclosed ?_
    rw [List.cons_append, List.length_cons] at hsteps
    exact Nat.le_of_succ_le_succ hsteps

end Stands

/-- **The first element that has a property of its attributes** stands somewhere in the text. -/
theorem exists_stands {p : ScriptElement → Bool}
    (hp : ∀ a b : ScriptElement, a.attributes = b.attributes → p a = p b) {steps : Nat}
    (h : (allFrom steps position text).find? p = some e) :
    ∃ front content back, text = front ++ (content ++ back) ∧
      Stands p position e front content back := by
  induction steps generalizing position text with
  | zero => exact absurd h (by simp [allFrom])
  | succ steps ih =>
    cases text with
    | nil => exact absurd h (by simp [allFrom])
    | cons c text =>
      rw [allFrom] at h
      split at h
      · next element after hfirst =>
        obtain ⟨opening, attributes, content, closing, hopening, hcontent, hclosing, htext, rfl⟩ :=
          first?_eq_some_iff.mp hfirst
        rw [List.find?_cons] at h
        split at h
        · next hfound =>
          obtain rfl := Option.some.inj h
          exact ⟨opening, content, closing ++ after, htext, .first hp hopening hclosing hfound⟩
        · next hother =>
          obtain ⟨front, content', back, rfl, hstands⟩ := ih h
          have hlength : (c :: text).length - (front ++ (content' ++ back)).length =
              opening.length + content.length + closing.length := by
            rw [htext]
            simp only [List.length_append]
            omega
          rw [hlength] at hstands
          refine ⟨opening ++ (content ++ (closing ++ front)), content', back, ?_,
            hstands.behind hopening hcontent hclosing hother⟩
          rw [htext]
          simp only [List.append_assoc]
      · next hnone =>
        obtain ⟨front, content, back, rfl, hstands⟩ := ih h
        exact ⟨c :: front, content, back, rfl, hstands.cons hnone⟩

/-- Whether an element is a setup script in the typed language can be told from its attributes. -/
theorem isSetup_and_language_eq (a b : ScriptElement) (h : a.attributes = b.attributes) :
    (a.isSetup && a.language == "ts") = (b.isSetup && b.language == "ts") := by
  rw [isSetup, language, h]
  rfl

/-- **The setup script is found again** when its content is replaced by one without a closing tag:
at the same position, and with the same attributes. -/
theorem setup?_replaced {code : String} (h : setup? code = some e) :
    e.replaced code e.content = code ∧
      ∀ content : String, ¬HoldsClosingTag content.toList →
        setup? (e.replaced code content) = some (e.filled content) := by
  unfold setup? all at h
  obtain ⟨front, content, back, hcode, hstands⟩ := exists_stands isSetup_and_language_eq h
  have hfront : code.toList.take e.start = front := by
    rw [hcode, hstands.start_eq, Nat.zero_add, List.take_left]
  have hback : code.toList.drop e.stop = back := by
    rw [hcode, hstands.stop_eq, hstands.start_eq, Nat.zero_add, ← List.drop_drop, List.drop_left,
      List.drop_left]
  have hreplaced : ∀ other : String,
      (e.replaced code other).toList = front ++ (other.toList ++ back) := by
    intro other
    rw [replaced, hfront, hback]
    simp
  refine ⟨?_, fun other hother => ?_⟩
  · rw [← String.toList_inj, hreplaced, hstands.content_eq, String.toList_ofList, hcode]
  · unfold setup? all
    rw [hreplaced]
    exact hstands.again other _ hother (Nat.le_refl _)

end TypeGraft.ScriptElement
