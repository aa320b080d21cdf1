import TypeGraft.Outline
import TypeGraft.Proofs.Component
import TypeGraft.Proofs.Text.Utf8

/-!
# Lines of a component

A script counts its lines from its own first byte, and stands in a component that has lines of its
own. A line feed is one byte in UTF-8, and no byte of another character is one, so the two counts
differ by the line feeds in front of the script, wherever in a line it starts
(`TypeGraft.ScriptElement.lineIn_eq`).
-/

namespace TypeGraft

namespace Bytes

/-- **Line feeds as bytes** are line feeds as characters. -/
theorem count_utf8EncodeChar (c : Char) :
    (String.utf8EncodeChar c).count 10 = if c = '\n' then 1 else 0 := by
  split
  · next hc =>
    subst hc
    decide
  · next hc =>
    rw [List.count_eq_zero]
    intro hfeed
    obtain ⟨b, tail, hbytes, hfirst⟩ := Glyph.first_encode c []
    rw [hbytes] at hfeed
    rcases List.mem_cons.mp hfeed with rfl | hfeed
    · -- a first byte that is a line feed is read as one
      rw [List.append_nil, Glyph.first, if_pos (by decide)] at hfirst
      exact hc (Option.some.inj (congrArg Glyph.scalar hfirst)).symm
    · exact absurd (Glyph.le_of_mem_tail hbytes 10 hfeed) (by decide)

theorem count_ofString (text : String) : (ofString text).count 10 = text.toList.count '\n' := by
  rw [ofString]
  induction text.toList with
  | nil => rfl
  | cons c chars ih =>
    rw [List.flatMap_cons, List.count_append, ih, count_utf8EncodeChar, List.count_cons,
      Nat.add_comm]
    simp

/-- Behind other bytes, their line feeds count as well. -/
theorem lineFeeds_append (front bytes back : Bytes) {position : Nat} (h : position ≤ bytes.length) :
    lineFeeds (front ++ (bytes ++ back)) (front.length + position) =
      front.count 10 + lineFeeds bytes position := by
  rw [lineFeeds, lineFeeds, List.take_length_add_append, List.take_append_of_le_length h,
    List.count_append]

end Bytes

namespace ScriptElement

variable {e : ScriptElement} {code : String}

/-- The number of bytes in front of the content. -/
def offset (e : ScriptElement) (code : String) : Nat :=
  (Bytes.ofString (String.ofList (code.toList.take e.start))).length

/-- The line of a component on which a position of its script stands: one more than the line feeds
in front of it. -/
def lineIn (e : ScriptElement) (code : String) (position : Int) : Nat :=
  Outline.lineAt (Bytes.ofString code) (e.offset code + position)

/-- **A line of a component** is a line of its script, behind those in front of the script. -/
theorem lineIn_eq (h : setup? code = some e) {position : Int}
    (hposition : 0 ≤ position ∧ position ≤ (Bytes.ofString e.content).length) :
    e.lineIn code position =
      Outline.lineAt (Bytes.ofString e.content) position + e.linesBefore code := by
  obtain ⟨position, rfl⟩ := Int.eq_ofNat_of_zero_le hposition.1
  let front := Bytes.ofString (String.ofList (code.toList.take e.start))
  let back := Bytes.ofString (String.ofList (code.toList.drop e.stop))
  have hcode : Bytes.ofString code = front ++ (Bytes.ofString e.content ++ back) := by
    conv_lhs => rw [← (setup?_replaced h).1]
    rw [replaced, Bytes.ofString_append, Bytes.ofString_append, List.append_assoc]
  have hbefore : front.count 10 = e.linesBefore code := by
    rw [Bytes.count_ofString, String.toList_ofList, linesBefore]
  have hoffset : ((e.offset code : Int) + (position : Int)).toNat = front.length + position := by
    rw [show e.offset code = front.length from rfl]
    omega
  have hlast : position ≤ (Bytes.ofString e.content).length := by omega
  rw [lineIn, Outline.lineAt, Outline.lineAt, hoffset, hcode,
    Bytes.lineFeeds_append _ _ _ hlast, hbefore, Int.toNat_natCast]
  omega

end ScriptElement

end TypeGraft
