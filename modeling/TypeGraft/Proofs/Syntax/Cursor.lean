import TypeGraft.Proofs.Syntax.Layout
import TypeGraft.Syntax.Cursor

/-!
# Positions of a script

A cursor that stands in a script (`TypeGraft.Syntax.Cursor.At`) has before it what is left to read
there, and the script can be cut where it stands. Reading on keeps that.

The trivia between two tokens consist of comments, one behind the other
(`TypeGraft.Syntax.Trivia.Between`). No comment starts with a line break, and no token that stands
behind trivia does.
-/

namespace TypeGraft.Syntax

variable {source : Bytes} {c d : Cursor} {g : Glyph} {rest : List Glyph} {offset count : Nat}

/-- **A position in a script.** -/
structure Cursor.At (source : Bytes) (c : Cursor) : Prop where
  rest : Glyph.ofBytes (source.drop c.offset) = c.rest
  offset : c.offset ≤ source.length
  encoded : source.Encoded → Bytes.Encoded (source.take c.offset)

namespace Cursor.At

/-- What stands at a position that is not the end. -/
theorem exists_bytes (h : At source ⟨g :: rest, offset⟩) : ∃ b bytes,
    source.drop offset = b :: bytes ∧ Glyph.first b bytes = g ∧
      Glyph.ofBytes (source.drop (offset + g.width)) = rest := by
  have hrest := h.rest
  dsimp only at hrest
  cases hbytes : source.drop offset with
  | nil =>
    rw [hbytes] at hrest
    exact absurd hrest (by simp [Glyph.ofBytes, Glyph.read])
  | cons b bytes =>
    rw [hbytes, Glyph.ofBytes_cons] at hrest
    obtain ⟨rfl, rfl⟩ := List.cons.inj hrest
    exact ⟨b, bytes, rfl, rfl, by rw [← List.drop_drop, hbytes]⟩

theorem width_pos (h : At source ⟨g :: rest, offset⟩) : 1 ≤ g.width := by
  obtain ⟨b, bytes, -, rfl, -⟩ := h.exists_bytes
  exact (Glyph.width_first b bytes).1

/-- **Behind a glyph.** -/
theorem next (h : At source ⟨g :: rest, offset⟩) : At source ⟨rest, offset + g.width⟩ := by
  obtain ⟨b, bytes, hbytes, hfirst, hrest⟩ := h.exists_bytes
  refine ⟨hrest, ?_, fun henc => ?_⟩
  · have hwidth := (Glyph.width_first b bytes).2
    have hlength := congrArg List.length hbytes
    rw [List.length_drop] at hlength
    have hoffset : offset ≤ source.length := h.offset
    rw [hfirst] at hwidth
    change offset + g.width ≤ source.length
    omega
  · have hcut : Bytes.Encoded (source.take offset) := h.encoded henc
    obtain ⟨text, htext⟩ : Bytes.Encoded (b :: bytes) := by
      rw [← hbytes]
      refine Bytes.Encoded.of_append (a := source.take offset) ?_ hcut
      rwa [List.take_append_drop]
    -- the glyph is the first character of what stands there
    obtain ⟨char, hchar⟩ : ∃ char, g.scalar = some char := by
      have hglyphs := h.rest
      dsimp only at hglyphs
      rw [hbytes, ← htext, Glyph.ofBytes_ofString] at hglyphs
      cases hchars : text.toList with
      | nil => rw [hchars] at hglyphs; exact absurd hglyphs (by simp)
      | cons char chars =>
        rw [hchars] at hglyphs
        exact ⟨char, by rw [← (List.cons.inj hglyphs).1]; rfl⟩
    have hpiece : (b :: bytes).take g.width = String.utf8EncodeChar char :=
      Glyph.take_of_first (by rw [hfirst, ← hchar])
    change Bytes.Encoded (source.take (offset + g.width))
    rw [List.take_add, hbytes, hpiece]
    refine hcut.append ⟨String.ofList [char], ?_⟩
    rw [Bytes.ofString, String.toList_ofList, List.flatMap_cons, List.flatMap_nil, List.append_nil]

theorem start (source : Bytes) : (Cursor.start source).At source := by
  have hfront : At source ⟨Glyph.ofBytes source, 0⟩ :=
    ⟨rfl, Nat.zero_le _, fun _ => Bytes.encoded_nil⟩
  unfold Cursor.start
  split
  · next g rest hglyphs =>
    rw [hglyphs] at hfront
    split
    · simpa using hfront.next
    · exact hfront
  · next hglyphs =>
    rw [hglyphs] at hfront
    exact hfront

/-- **Reading on.** -/
theorem advance (h : c.At source) (count : Nat) :
    (c.advance count).At source ∧ c.offset ≤ (c.advance count).offset := by
  induction count generalizing c with
  | zero => exact ⟨h, Nat.le_refl _⟩
  | succ count ih =>
    obtain ⟨rest, offset⟩ := c
    cases rest with
    | nil => exact ⟨h, Nat.le_refl _⟩
    | cons g rest =>
      obtain ⟨hat, hle⟩ := ih h.next
      exact ⟨hat, (Nat.le_add_right _ _).trans hle⟩

theorem lt_advance (h : c.At source) (hrest : c.rest ≠ []) (hcount : count ≠ 0) :
    c.offset < (c.advance count).offset := by
  obtain ⟨rest, offset⟩ := c
  cases rest with
  | nil => exact absurd rfl hrest
  | cons g rest =>
    obtain ⟨count, rfl⟩ := Nat.exists_eq_succ_of_ne_zero hcount
    have hwidth := h.width_pos
    have hle : offset + g.width ≤ (Cursor.advance count ⟨rest, offset + g.width⟩).offset :=
      (h.next.advance count).2
    change offset < (Cursor.advance count ⟨rest, offset + g.width⟩).offset
    omega

/-- What is read as characters is encoded. -/
theorem encoded_advance (h : c.At source)
    (hscalars : ∀ g ∈ c.rest.take count, g.scalar.isSome) :
    Bytes.Encoded ((source.drop c.offset).take ((c.advance count).offset - c.offset)) := by
  induction count generalizing c with
  | zero => simpa [Cursor.advance] using Bytes.encoded_nil
  | succ count ih =>
    obtain ⟨rest, offset⟩ := c
    cases rest with
    | nil => simpa [Cursor.advance] using Bytes.encoded_nil
    | cons g rest =>
      obtain ⟨b, bytes, hbytes, hfirst, -⟩ := h.exists_bytes
      obtain ⟨char, hchar⟩ := Option.isSome_iff_exists.mp (hscalars g (by simp))
      have hpiece : (b :: bytes).take g.width = String.utf8EncodeChar char :=
        Glyph.take_of_first (by rw [hfirst, ← hchar])
      have hrest := ih h.next fun g' hg' => hscalars g' (by
        rw [List.take_succ_cons]
        exact List.mem_cons_of_mem _ hg')
      have hle : offset + g.width ≤ (Cursor.advance count ⟨rest, offset + g.width⟩).offset :=
        (h.next.advance count).2
      change Bytes.Encoded ((source.drop offset).take
        ((Cursor.advance count ⟨rest, offset + g.width⟩).offset - offset))
      generalize (Cursor.advance count ⟨rest, offset + g.width⟩).offset = stop at hrest hle
      dsimp only at hrest
      rw [show stop - offset = g.width + (stop - (offset + g.width)) by omega, List.take_add,
        List.drop_drop, hbytes, hpiece]
      refine Bytes.Encoded.append ⟨String.ofList [char], ?_⟩ hrest
      rw [Bytes.ofString, String.toList_ofList, List.flatMap_cons, List.flatMap_nil,
        List.append_nil]

/-- What lies between two positions. -/
theorem cuts (h : c.At source) (h' : d.At source) (hle : c.offset ≤ d.offset) :
    Span.Cuts source ⟨c.offset, d.offset⟩ := by
  refine ⟨⟨Int.natCast_nonneg _, Int.ofNat_le.mpr hle, Int.ofNat_le.mpr h'.offset⟩,
    fun henc => ⟨?_, ?_⟩⟩
  · simpa [Slots.CutAt, Span.whole] using h.encoded henc
  · simpa [Slots.CutAt, Span.whole] using h'.encoded henc

theorem slice_spanTo (h : c.At source) (h' : d.At source) :
    (c.spanTo d).slice source = (source.drop c.offset).take (d.offset - c.offset) := by
  have hclamp : ∀ n : Nat, n ≤ source.length → Span.clamp source.length (n : Int) = n := by
    intro n hn
    rw [Span.clamp, if_neg (by omega), Int.toNat_natCast, Nat.min_eq_left hn]
  rw [Span.slice, Cursor.spanTo]
  dsimp only
  rw [hclamp _ h.offset, hclamp _ h'.offset, List.drop_take]

/-- **Where no glyph ends a line**, no line break stands. -/
theorem not_breaksLine (h : c.At source)
    (hglyph : ∀ g, c.rest.head? = some g → isLineBreak g.char = false) :
    ¬Node.BreaksLine source c.offset := by
  have hbyte : ∀ b : UInt8, b = 10 ∨ b = 13 → (source.drop c.offset).head? ≠ some b := by
    intro b hb hhead
    obtain ⟨bytes, hbytes⟩ := List.head?_eq_some_iff.mp hhead
    have hrest := h.rest
    rw [hbytes, Glyph.ofBytes_cons] at hrest
    have hbreak := hglyph (Glyph.first b bytes) (by rw [← hrest]; rfl)
    rcases hb with rfl | rfl
    · exact absurd hbreak (by rw [Glyph.first, if_pos (by decide)]; decide)
    · exact absurd hbreak (by rw [Glyph.first, if_pos (by decide)]; decide)
  rintro (hhead | hhead)
  · exact hbyte 10 (Or.inl rfl) (by simpa using hhead)
  · exact hbyte 13 (Or.inr rfl) (by simpa using hhead)

end Cursor.At

/-! ### Trivia -/

/-- A comment that stands in a script. -/
structure Node.IsCommentIn (source : Bytes) (node : Node) : Prop where
  eq : node = .mk .comment none node.span []
  cuts : node.span.Cuts source
  starts : ¬Node.BreaksLine source node.span.start

namespace Trivia

/-- **What is passed over** on the way from an offset to the next token. -/
structure Between (source : Bytes) (start : Nat) (t : Trivia) : Prop where
  cursor : t.cursor.At source
  afterComments : t.afterComments.At source
  ge : start ≤ t.afterComments.offset
  le : t.afterComments.offset ≤ t.cursor.offset
  row : Span.Row ⟨start, t.afterComments.offset⟩ (t.comments.map (·.span))
  comments : ∀ node ∈ t.comments, node.IsCommentIn source

/-- The comments that were seen so far, the latest first. -/
structure Seen.Fits (source : Bytes) (start : Nat) (seen : Seen) : Prop where
  afterComments : seen.afterComments.At source
  ge : start ≤ seen.afterComments.offset
  row : Span.Row ⟨start, seen.afterComments.offset⟩ (seen.comments.reverse.map (·.span))
  comments : ∀ node ∈ seen.comments, node.IsCommentIn source

/-- A slash at an offset, which may begin a comment. -/
def SlashAt (source : Bytes) (offset : Nat) : Prop :=
  ∃ g rest, Cursor.At source ⟨g :: rest, offset⟩ ∧ g.char = '/'

/-- Where a reading of trivia stands, at an offset, when the last comment ended at `last`. -/
inductive Mode.Fits (source : Bytes) (last offset : Nat) : Mode → Prop where
  | blank (hlast : last ≤ offset) : Fits source last offset .blank
  | slash {c : Cursor} (hc : c.At source) (hhead : ∃ g rest, c.rest = g :: rest ∧ g.char = '/')
      (hlast : last ≤ c.offset) (hle : c.offset ≤ offset) : Fits source last offset (.slash c)
  | line {start : Nat} (hopens : SlashAt source start) (hlast : last ≤ start)
      (hle : start ≤ offset) : Fits source last offset (.line start)
  | block {start : Nat} (star : Bool) (hopens : SlashAt source start) (hlast : last ≤ start)
      (hle : start ≤ offset) : Fits source last offset (.block start star)

variable {start : Nat} {seen : Seen}

theorem Seen.Fits.stop (h : seen.Fits source start) (hc : c.At source)
    (hle : seen.afterComments.offset ≤ c.offset) {t : Trivia} (ht : seen.stop c = some t) :
    t.cursor = c ∧ Between source start t := by
  obtain rfl := Option.some.inj ht
  refine ⟨rfl, hc, h.afterComments, h.ge, hle, h.row, fun node hnode => ?_⟩
  exact h.comments node (List.mem_reverse.mp hnode)

/-- A comment ends. -/
theorem Seen.Fits.close (h : seen.Fits source start) {from_ : Nat} (hslash : SlashAt source from_)
    (hc : c.At source) (hge : seen.afterComments.offset ≤ from_) (hle : from_ ≤ c.offset) :
    (seen.close from_ c).Fits source start := by
  obtain ⟨g, rest, hat, hchar⟩ := hslash
  have hstart := h.ge
  have hin : Span.In ⟨seen.afterComments.offset, c.offset⟩ ⟨start, c.offset⟩ :=
    ⟨Int.ofNat_le.mpr hstart, Int.ofNat_le.mpr (hge.trans hle), le_rfl⟩
  refine ⟨hc, hstart.trans (hge.trans hle), ?_, fun node hnode => ?_⟩
  · have hlast : Span.In ⟨from_, c.offset⟩ ⟨start, c.offset⟩ :=
      ⟨Int.ofNat_le.mpr (hstart.trans hge), Int.ofNat_le.mpr hle, le_rfl⟩
    have hbefore : Span.In ⟨start, seen.afterComments.offset⟩ ⟨start, c.offset⟩ :=
      ⟨le_rfl, Int.ofNat_le.mpr hstart, Int.ofNat_le.mpr (hge.trans hle)⟩
    rw [Seen.close, List.reverse_cons, List.map_append]
    refine (h.row.mono hbefore).append (Span.Row.single hlast) fun a ha b hb => ?_
    rw [List.mem_singleton.mp hb]
    exact (h.row.inside a ha).2.2.trans (Int.ofNat_le.mpr hge)
  · rcases List.mem_cons.mp hnode with rfl | hnode
    · refine ⟨rfl, hat.cuts hc hle, hat.not_breaksLine fun g' hg' => ?_⟩
      rw [← Option.some.inj hg', hchar]
      decide
    · exact h.comments node hnode

theorem Seen.Fits.cross (h : seen.Fits source start) : seen.cross.Fits source start :=
  ⟨h.afterComments, h.ge, h.row, h.comments⟩

/-- **Reading trivia.** Unless it stays on the line, it stops in front of no line break. -/
theorem between_of_read {inLine : Bool} {mode : Mode} {t : Trivia}
    (hat : Cursor.At source ⟨rest, offset⟩) (hseen : seen.Fits source start)
    (hmode : mode.Fits source seen.afterComments.offset offset)
    (h : read inLine mode seen rest offset = some t) :
    Between source start t ∧ (inLine = false →
      ∀ g, t.cursor.rest.head? = some g → isLineBreak g.char = false) := by
  -- every way to stop is told by where it stops and what stands there
  have hstop : ∀ {seen : Seen} {c : Cursor}, seen.Fits source start → c.At source →
      seen.afterComments.offset ≤ c.offset →
      (inLine = false → ∀ g, c.rest.head? = some g → isLineBreak g.char = false) →
      seen.stop c = some t → Between source start t ∧ (inLine = false →
        ∀ g, t.cursor.rest.head? = some g → isLineBreak g.char = false) := by
    intro seen c hseen hc hle hhead h
    obtain ⟨rfl, hbetween⟩ := hseen.stop hc hle h
    exact ⟨hbetween, hhead⟩
  have hslash : ∀ {c : Cursor}, (∃ g rest, c.rest = g :: rest ∧ g.char = '/') →
      ∀ g, c.rest.head? = some g → isLineBreak g.char = false := by
    rintro c ⟨g, rest, hrest, hchar⟩ g' hg'
    rw [hrest] at hg'
    rw [← Option.some.inj hg', hchar]
    decide
  -- on the glyphs that are left: in each mode what was read so far fits, and the next glyph keeps
  -- this
  induction rest generalizing offset mode seen with
  | nil =>
    cases hmode with
    | blank hlast => exact hstop hseen hat hlast (fun _ g hg => absurd hg (by simp)) h
    | slash hc hhead hlast => exact hstop hseen hc hlast (fun _ => hslash hhead) h
    | line hopens hlast hle =>
      exact hstop (hseen.close hopens hat hlast hle) hat (Nat.le_refl _)
        (fun _ g hg => absurd hg (by simp)) h
    | block => exact absurd h (by simp [read])
  | cons g rest ih =>
    have hnext := hat.next
    cases hmode with
    | blank hlast =>
      rw [read] at h
      split at h
      · split at h
        · next hline => exact hstop hseen hat hlast (fun hfalse => by simp [hline] at hfalse) h
        · exact ih hnext hseen.cross (.blank (Nat.le_add_right_of_le hlast)) h
      · next hbreak =>
        split at h
        · exact ih hnext hseen (.blank (Nat.le_add_right_of_le hlast)) h
        · split at h
          · next hchar =>
            exact ih hnext hseen (.slash hat ⟨g, rest, rfl, hchar⟩ hlast (Nat.le_add_right _ _)) h
          · refine hstop hseen hat hlast (fun _ g' hg' => ?_) h
            rw [← Option.some.inj hg']
            exact Bool.not_eq_true _ ▸ hbreak
    | @slash c hc hhead hlast hle =>
      -- the slash opens a comment, or the trivia stopped in front of it
      have hopens : SlashAt source c.offset := by
        obtain ⟨g', rest', hrest, hchar⟩ := hhead
        exact ⟨g', rest', by rw [← hrest]; exact hc, hchar⟩
      rw [read] at h
      split at h
      · exact ih hnext hseen (.line hopens hlast (Nat.le_add_right_of_le hle)) h
      · split at h
        · exact ih hnext hseen (.block false hopens hlast (Nat.le_add_right_of_le hle)) h
        · exact hstop hseen hc hlast (fun _ => hslash hhead) h
    | line hopens hlast hle =>
      have hclosed := hseen.close hopens hat hlast hle
      rw [read] at h
      split at h
      · split at h
        · next hline =>
          exact hstop hclosed hat (Nat.le_refl _) (fun hfalse => by simp [hline] at hfalse) h
        · exact ih hnext hclosed.cross (.blank (Nat.le_add_right _ _)) h
      · exact ih hnext hseen (.line hopens hlast (Nat.le_add_right_of_le hle)) h
    | block star hopens hlast hle =>
      have hle' := Nat.le_add_right_of_le (k := g.width) hle
      rw [read] at h
      split at h
      · exact ih hnext (hseen.close hopens hnext hlast hle') (.blank (Nat.le_refl _)) h
      · split at h
        · exact ih hnext hseen.cross (.block _ hopens hlast hle') h
        · exact ih hnext hseen (.block _ hopens hlast hle') h

/-- **The trivia in front of a token**, which does not start with a line break. -/
theorem between_of_upToToken {t : Trivia} (hc : c.At source) (h : upToToken c = some t) :
    Between source c.offset t ∧ ¬Node.BreaksLine source t.cursor.offset := by
  have hseen : Seen.Fits source c.offset ⟨[], false, c⟩ :=
    ⟨hc, Nat.le_refl _, Span.Row.nil _, fun _ h => absurd h List.not_mem_nil⟩
  obtain ⟨hbetween, hhead⟩ := between_of_read hc hseen (.blank (Nat.le_refl _)) h
  exact ⟨hbetween, hbetween.cursor.not_breaksLine (hhead rfl)⟩

/-- The trivia that stand on the line. -/
theorem between_of_upToLineBreak {t : Trivia} (hc : c.At source) (h : upToLineBreak c = some t) :
    Between source c.offset t := by
  have hseen : Seen.Fits source c.offset ⟨[], false, c⟩ :=
    ⟨hc, Nat.le_refl _, Span.Row.nil _, fun _ h => absurd h List.not_mem_nil⟩
  exact (between_of_read hc hseen (.blank (Nat.le_refl _)) h).1

end Trivia

end TypeGraft.Syntax
