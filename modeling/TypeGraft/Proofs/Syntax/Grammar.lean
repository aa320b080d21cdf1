import Mathlib.Data.List.TakeWhile
import TypeGraft.Proofs.Syntax.Cursor
import TypeGraft.Syntax.Grammar

/-!
# What a reading yields

A grammar reads a script in so many ways as `TypeGraft.Syntax.Grammar.Reads` says, which leaves open
what is tried first, how far a repetition goes and how deep the steps are nested. The reading that a
script gets is one of them (`TypeGraft.Syntax.Grammar.reads_of_run`), so what holds of all of them
can be shown step by step.

The nodes of a reading lie between the positions where it starts and ends, one behind the other, and
so do the children of each of them in it (`TypeGraft.Syntax.Grammar.Reads.spread`).
-/

namespace TypeGraft.Syntax

variable {ρ : Type} {rules : ρ → Grammar ρ} {source : Bytes} {c d e : Cursor} {nodes : List Node}

/-! ### Nodes that are put together -/

namespace Node

/-- How parts are gathered. -/
theorem exists_gather (kind : Kind) (parts : List Node) (stop : Nat) : ∃ before rest,
    parts = before ++ rest ∧ (∀ n ∈ before, n.isComment = true) ∧
    (∀ n, rest.head? = some n → n.isComment = false) ∧ gather kind parts stop =
      before ++ [.mk kind none ⟨(rest.head?.map (·.span.start)).getD stop, stop⟩ rest] := by
  refine ⟨parts.takeWhile isComment, parts.dropWhile isComment,
    List.takeWhile_append_dropWhile.symm, fun n hn => List.mem_takeWhile_imp hn,
    fun n hn => ?_, ?_⟩
  · have hnot := List.head?_dropWhile_not isComment parts
    rw [hn] at hnot
    exact hnot
  · rw [gather, splitComments]
    cases parts.dropWhile isComment with
    | nil => rfl
    | cons part rest => rfl

/-- How an operand is put into the node that is built upon it. -/
theorem extend_eq (operand : Node) (step : List Node) : operand.extend step = operand ∨
    ∃ before n rest, step = before ++ n :: rest ∧ (∀ b ∈ before, b.isComment = true) ∧
      n.isComment = false ∧ operand.extend step =
        .mk n.kind n.field ⟨operand.span.start, n.span.stop⟩
          (operand.withField (operandField n.kind) :: before ++ n.children) := by
  have hsplit : step = step.takeWhile isComment ++ step.dropWhile isComment :=
    List.takeWhile_append_dropWhile.symm
  have hnot := List.head?_dropWhile_not isComment step
  rw [extend, splitComments]
  cases hrest : step.dropWhile isComment with
  | nil => exact Or.inl rfl
  | cons n rest =>
    rw [hrest] at hsplit hnot
    obtain ⟨kind, field, span, children⟩ := n
    exact Or.inr ⟨_, _, _, hsplit, fun b hb => List.mem_takeWhile_imp hb,
      hnot, rfl⟩

end Node

/-! ### Readings -/

namespace Grammar

/-- What may be read by reading nothing. -/
inductive Idle : Grammar ρ → Prop where
  | empty : Idle empty
  | many (item : Grammar ρ) : Idle (many item)
  | ahead (item : Grammar ρ) : Idle (ahead item)
  | absent (item : Grammar ρ) : Idle (absent item)
  | sameLine : Idle sameLine

/-- What a grammar may come down to. -/
inductive Unfolds (rules : ρ → Grammar ρ) : Grammar ρ → Grammar ρ → Prop where
  | first (first second : Grammar ρ) : Unfolds rules (alt first second) first
  | second (first second : Grammar ρ) : Unfolds rules (alt first second) second
  | again (item : Grammar ρ) : Unfolds rules (many item) (seq item (many item))
  | semicolon : Unfolds rules terminator (leaf (.token ";") (.sign ";"))
  | operand (operand step : Grammar ρ) : Unfolds rules (chain operand step) operand
  | rule (name : ρ) : Unfolds rules (rule name) (rules name)

/-- **The readings of a script by a grammar**, each from one position to another one. -/
inductive Reads (rules : ρ → Grammar ρ) : Grammar ρ → Cursor → List Node → Cursor → Prop where
  | idle {g : Grammar ρ} {c : Cursor} (hidle : Idle g) : Reads rules g c [] c
  | leaf {kind : Kind} {lexeme : Lexeme} {c : Cursor} {t : Trivia} {count : Nat}
      (htrivia : Trivia.upToToken c = some t) (hcount : lexeme.length? t.cursor.rest = some count) :
      Reads rules (leaf kind lexeme) c
        (t.comments ++ [.mk kind none (t.cursor.spanTo (t.cursor.advance count)) []])
        (t.cursor.advance count)
  | raw {kind : Kind} {lexeme : Lexeme} {c : Cursor} {count : Nat}
      (hcount : lexeme.length? c.rest = some count) :
      Reads rules (raw kind lexeme) c [.mk kind none (c.spanTo (c.advance count)) []]
        (c.advance count)
  | endOfLine {c : Cursor} {t : Trivia} (htrivia : Trivia.upToLineBreak c = some t) :
      Reads rules terminator c t.comments t.afterComments
  | unfold {g g' : Grammar ρ} {c d : Cursor} {nodes : List Node} (hunfolds : Unfolds rules g g')
      (h : Reads rules g' c nodes d) : Reads rules g c nodes d
  | seq {first second : Grammar ρ} {c d e : Cursor} {nodes more : List Node}
      (hfirst : Reads rules first c nodes d) (hsecond : Reads rules second d more e) :
      Reads rules (seq first second) c (nodes ++ more) e
  | node {kind : Kind} {parts : Grammar ρ} {c d : Cursor} {nodes : List Node}
      (hparts : Reads rules parts c nodes d) :
      Reads rules (node kind parts) c (Node.gather kind nodes d.offset) d
  | labelled {field : Field} {parts : Grammar ρ} {c d : Cursor} {nodes : List Node}
      (hparts : Reads rules parts c nodes d) :
      Reads rules (labelled field parts) c (Node.label field nodes) d
  | chain {operand step : Grammar ρ} {c d e : Cursor} {before nodes : List Node} {first : Node}
      (hbefore : Reads rules (chain operand step) c (before ++ [first]) d)
      (hstep : Reads rules step d nodes e) :
      Reads rules (chain operand step) c (before ++ [first.extend nodes]) e

theorem exists_of_andThen {first : Outcome} {next : List Node → Cursor → Outcome}
    (h : first.andThen next = .read nodes d) :
    ∃ front c, first = .read front c ∧ next front c = .read nodes d := by
  cases first with
  | read front c => exact ⟨front, c, rfl, h⟩
  | refused => exact absurd h (by simp [Outcome.andThen])
  | exhausted => exact absurd h (by simp [Outcome.andThen])

theorem advance_of_readLeaf {kind : Kind} {lexeme : Lexeme} {comments : List Node}
    (h : readLeaf kind lexeme comments c = .read nodes d) :
    ∃ count, lexeme.length? c.rest = some count ∧ d = c.advance count ∧
      nodes = comments ++ [.mk kind none (c.spanTo d) []] := by
  unfold readLeaf at h
  split at h
  · exact absurd h (by simp)
  · next count hcount =>
    obtain ⟨hnodes, rfl⟩ := Outcome.read.inj h
    exact ⟨count, hcount, rfl, hnodes.symm⟩

theorem reads_of_endOfLine (h : endOfLine c = .read nodes d) :
    Reads rules terminator c nodes d := by
  unfold endOfLine at h
  split at h
  · exact absurd h (by simp)
  · next t ht =>
    obtain ⟨rfl, rfl⟩ := Outcome.read.inj h
    exact .endOfLine ht

theorem reads_of_endOfStatement (h : endOfStatement c = .read nodes d) :
    Reads rules terminator c nodes d := by
  unfold endOfStatement at h
  split at h
  · exact absurd h (by simp)
  · next t ht =>
    split at h
    · split at h
      · obtain ⟨count, hcount, rfl, rfl⟩ := advance_of_readLeaf h
        exact .unfold .semicolon (.leaf ht hcount)
      · split at h
        · exact reads_of_endOfLine h
        · exact absurd h (by simp)
    · exact reads_of_endOfLine h

section Repetition

variable {item operand step : Grammar ρ} {read : Cursor → Outcome} {limit : Nat}

theorem reads_of_many
    (hitem : ∀ {c nodes d}, read c = .read nodes d → Reads rules item c nodes d)
    (h : Outcome.many read limit c = .read nodes d) : Reads rules (many item) c nodes d := by
  induction limit generalizing c nodes d with
  | zero => exact absurd h (by simp [Outcome.many])
  | succ limit ih =>
    rw [Outcome.many] at h
    split at h
    · next front e hfront =>
      split at h
      · obtain ⟨rfl, rfl⟩ := Outcome.read.inj h
        rw [← List.append_nil front]
        exact .unfold (.again item) (.seq (hitem hfront) (.idle (.many item)))
      · obtain ⟨more, e', hmore, h⟩ := exists_of_andThen h
        obtain ⟨rfl, rfl⟩ := Outcome.read.inj h
        exact .unfold (.again item) (.seq (hitem hfront) (ih hmore))
    · obtain ⟨rfl, rfl⟩ := Outcome.read.inj h
      exact .idle (.many item)
    · exact absurd h (by simp)

theorem reads_of_chain {before : List Node} {first : Node}
    (hstep : ∀ {c nodes d}, read c = .read nodes d → Reads rules step c nodes d)
    (hbefore : Reads rules (chain operand step) c (before ++ [first]) d)
    (h : Outcome.chain read before limit first d = .read nodes e) :
    Reads rules (chain operand step) c nodes e := by
  induction limit generalizing first d with
  | zero => exact absurd h (by simp [Outcome.chain])
  | succ limit ih =>
    rw [Outcome.chain] at h
    split at h
    · next front d' hfront =>
      split at h
      · obtain ⟨rfl, rfl⟩ := Outcome.read.inj h
        exact hbefore
      · exact ih (.chain hbefore (hstep hfront)) h
    · obtain ⟨rfl, rfl⟩ := Outcome.read.inj h
      exact hbefore
    · exact absurd h (by simp)

end Repetition

/-- **The reading of a script** is one of its readings. -/
theorem reads_of_run {depth : Nat} {g : Grammar ρ} (h : run rules depth g c = .read nodes d) :
    Reads rules g c nodes d := by
  -- on the depth: what is run inside of a construct is run one level further down
  induction depth generalizing g c nodes d with
  | zero => exact absurd h (by simp [run])
  | succ depth ih =>
    have hidle : Idle g → Outcome.read [] c = .read nodes d → Reads rules g c nodes d := by
      intro hg h
      obtain ⟨rfl, rfl⟩ := Outcome.read.inj h
      exact .idle hg
    cases g with
    | empty => exact hidle .empty h
    | leaf kind lexeme =>
      rw [run] at h
      split at h
      · exact absurd h (by simp)
      · next t ht =>
        obtain ⟨count, hcount, rfl, rfl⟩ := advance_of_readLeaf h
        exact .leaf ht hcount
    | raw kind lexeme =>
      obtain ⟨count, hcount, rfl, rfl⟩ := advance_of_readLeaf h
      exact .raw hcount
    | seq first second =>
      obtain ⟨front, d', hfront, h⟩ := exists_of_andThen h
      obtain ⟨more, e, hmore, h⟩ := exists_of_andThen h
      obtain ⟨rfl, rfl⟩ := Outcome.read.inj h
      exact .seq (ih hfront) (ih hmore)
    | alt first second =>
      -- the second is only tried where the first does not fit
      rw [run] at h
      split at h
      · exact .unfold (.second first second) (ih h)
      · exact .unfold (.first first second) (ih h)
    | many item => exact reads_of_many ih h
    | ahead item =>
      obtain ⟨_, _, -, h⟩ := exists_of_andThen h
      exact hidle (.ahead item) h
    | absent item =>
      rw [run] at h
      split at h
      · exact absurd h (by simp)
      · exact hidle (.absent item) h
      · exact absurd h (by simp)
    | sameLine =>
      rw [run] at h
      split at h
      · exact absurd h (by simp)
      · split at h
        · exact absurd h (by simp)
        · exact hidle .sameLine h
    | terminator => exact reads_of_endOfStatement h
    | node kind parts =>
      obtain ⟨front, d', hfront, h⟩ := exists_of_andThen h
      obtain ⟨rfl, rfl⟩ := Outcome.read.inj h
      exact .node (ih hfront)
    | labelled field parts =>
      obtain ⟨front, d', hfront, h⟩ := exists_of_andThen h
      obtain ⟨rfl, rfl⟩ := Outcome.read.inj h
      exact .labelled (ih hfront)
    | chain operand step =>
      obtain ⟨front, d', hfront, h⟩ := exists_of_andThen h
      split at h
      · exact absurd h (by simp)
      · next first hfirst =>
        have hlast : front.dropLast ++ [first] = front :=
          List.dropLast_append_getLast? first hfirst
        refine reads_of_chain ih (.unfold (.operand operand step) ?_) h
        rw [hlast]
        exact ih hfront
    | rule name => exact .unfold (.rule name) (ih h)

end Grammar

/-! ### Where the nodes of a reading stand -/

/-- A node that starts and ends where the text can be cut, with its children in it. -/
structure Node.Framed (source : Bytes) (node : Node) : Prop where
  cuts : node.span.Cuts source
  row : Span.Row node.span (node.children.map (·.span))

theorem Node.Framed.withField {node : Node} (h : node.Framed source) (field : Option Field) :
    (node.withField field).Framed source := ⟨h.cuts, h.row⟩

theorem Node.IsCommentIn.framed {node : Node} (h : node.IsCommentIn source) :
    node.Framed source := by
  refine ⟨h.cuts, ?_⟩
  rw [h.eq]
  exact .nil _

/-- **The nodes of a reading** stand between its two positions, one behind the other. -/
structure Spread (source : Bytes) (c : Cursor) (nodes : List Node) (d : Cursor) : Prop where
  at_ : d.At source
  le : c.offset ≤ d.offset
  row : Span.Row ⟨c.offset, d.offset⟩ (nodes.map (·.span))
  framed : ∀ n ∈ nodes, n.Framed source

namespace Spread

theorem nil (hc : c.At source) : Spread source c [] c :=
  ⟨hc, le_rfl, .nil _, fun _ h => absurd h List.not_mem_nil⟩

theorem append {more : List Node} (h : Spread source c nodes d) (h' : Spread source d more e) :
    Spread source c (nodes ++ more) e := by
  have hle := h.le
  have hle' := h'.le
  have hin : Span.In ⟨c.offset, d.offset⟩ ⟨c.offset, e.offset⟩ :=
    ⟨le_rfl, Int.ofNat_le.mpr hle, Int.ofNat_le.mpr hle'⟩
  have hin' : Span.In ⟨d.offset, e.offset⟩ ⟨c.offset, e.offset⟩ :=
    ⟨Int.ofNat_le.mpr hle, Int.ofNat_le.mpr hle', le_rfl⟩
  refine ⟨h'.at_, hle.trans hle', ?_, fun n hn => (List.mem_append.mp hn).elim (h.framed n)
    (h'.framed n)⟩
  rw [List.map_append]
  exact (h.row.mono hin).append (h'.row.mono hin') fun a ha b hb =>
    (h.row.inside a ha).2.2.trans (h'.row.inside b hb).1

/-- Nothing more is read on the way to a later position. -/
theorem upTo (h : Spread source c nodes d) (he : e.At source) (hle : d.offset ≤ e.offset) :
    Spread source c nodes e := by
  have hrest : Spread source d [] e := ⟨he, hle, .nil _, fun _ h => absurd h List.not_mem_nil⟩
  simpa using h.append hrest

theorem of_between {t : Trivia} (h : Trivia.Between source c.offset t) :
    Spread source c t.comments t.afterComments :=
  ⟨h.afterComments, h.ge, h.row, fun n hn => (h.comments n hn).framed⟩

theorem leaf (hc : c.At source) (kind : Kind) (count : Nat) :
    Spread source c [.mk kind none (c.spanTo (c.advance count)) []] (c.advance count) := by
  obtain ⟨hd, hle⟩ := hc.advance count
  refine ⟨hd, hle, .single ⟨le_rfl, Int.ofNat_le.mpr hle, le_rfl⟩, fun n hn => ?_⟩
  rw [List.mem_singleton.mp hn]
  exact ⟨hc.cuts hd hle, .nil _⟩

theorem gather (h : Spread source c nodes d) (hc : c.At source) (kind : Kind) :
    Spread source c (Node.gather kind nodes d.offset) d := by
  obtain ⟨before, rest, rfl, -, -, hgather⟩ := Node.exists_gather kind nodes d.offset
  have hrow := h.row
  rw [List.map_append] at hrow
  have hbefore := hrow.sublist (List.sublist_append_left _ _)
  have hrest := hrow.sublist (List.sublist_append_right _ _)
  have hend := hc.cuts h.at_ h.le
  -- the node starts with its first part, if it has one
  obtain ⟨start, hstart, hin, hcuts, hinner, hafter⟩ : ∃ start,
      (rest.head?.map (·.span.start)).getD (d.offset : Int) = start ∧
      Span.In ⟨start, d.offset⟩ ⟨c.offset, d.offset⟩ ∧ Span.Cuts source ⟨start, d.offset⟩ ∧
      Span.Row ⟨start, d.offset⟩ (rest.map (·.span)) ∧
      ∀ b ∈ before, b.span.stop ≤ start := by
    cases rest with
    | nil =>
      refine ⟨d.offset, rfl, ⟨Int.ofNat_le.mpr h.le, le_rfl, le_rfl⟩,
        h.at_.cuts h.at_ le_rfl, .nil _, fun b hb => ?_⟩
      exact (hbefore.inside _ (List.mem_map_of_mem hb)).2.2
    | cons part rest =>
      have hpart := hrest.inside part.span List.mem_cons_self
      have hcuts := (h.framed part (List.mem_append_right _ List.mem_cons_self)).cuts
      have horder := List.pairwise_cons.mp hrest.inOrder
      refine ⟨part.span.start, rfl, ⟨hpart.1, hpart.2.1.trans hpart.2.2, le_rfl⟩,
        ⟨⟨hcuts.inside.1, hpart.2.1.trans hpart.2.2, hend.inside.2.2⟩,
          fun henc => ⟨(hcuts.encoded henc).1, (hend.encoded henc).2⟩⟩,
        ⟨fun a ha => ?_, hrest.inOrder⟩, fun b hb => ?_⟩
      · rcases List.mem_cons.mp ha with rfl | ha'
        · exact ⟨le_rfl, hpart.2.1, hpart.2.2⟩
        · have ha := hrest.inside a (List.mem_cons_of_mem _ ha')
          exact ⟨hpart.2.1.trans (horder.1 a ha'), ha.2.1, ha.2.2⟩
      · exact (List.pairwise_append.mp hrow.inOrder).2.2 _ (List.mem_map_of_mem hb) _
          List.mem_cons_self
  rw [hgather, hstart]
  refine ⟨h.at_, h.le, ?_, fun n hn => ?_⟩
  · rw [List.map_append]
    refine hbefore.append (.single hin) fun a ha b hb => ?_
    obtain ⟨x, hx, rfl⟩ := List.mem_map.mp ha
    rw [List.mem_singleton.mp hb]
    exact hafter x hx
  · rcases List.mem_append.mp hn with hn | hn
    · exact h.framed n (List.mem_append_left _ hn)
    · rw [List.mem_singleton.mp hn]
      exact ⟨hcuts, hinner⟩

theorem label (h : Spread source c nodes d) (field : Field) :
    Spread source c (Node.label field nodes) d := by
  have hspan : (Node.label field nodes).map (·.span) = nodes.map (·.span) := by
    rw [Node.label, List.map_map]
    refine List.map_congr_left fun n _ => ?_
    rw [Function.comp_apply]
    split
    · rfl
    · rfl
  refine ⟨h.at_, h.le, hspan ▸ h.row, fun n hn => ?_⟩
  obtain ⟨m, hm, rfl⟩ := List.mem_map.mp hn
  split
  · exact h.framed m hm
  · exact (h.framed m hm).withField _

theorem extend {before more : List Node} {first : Node}
    (h : Spread source c (before ++ [first]) d) (hmore : Spread source d more e) :
    Spread source c (before ++ [first.extend more]) e := by
  have hfirst := h.framed first (List.mem_append_right _ (List.mem_singleton.mpr rfl))
  rcases Node.extend_eq first more with heq | ⟨comments, n, rest, rfl, -, -, heq⟩
  · rw [heq]
    exact h.upTo hmore.at_ hmore.le
  · have hn := hmore.framed n (List.mem_append_right _ List.mem_cons_self)
    -- in the row of all nodes, the comments stand between the one that is extended and what it
    -- takes in
    have hall := (h.append hmore).row
    rw [show before ++ [first] ++ (comments ++ n :: rest) =
      before ++ (first :: (comments ++ n :: rest)) by simp, List.map_append] at hall
    have hleft := hall.sublist (List.sublist_append_left _ _)
    have hright := hall.sublist (List.sublist_append_right _ _)
    have hcross := (List.pairwise_append.mp hall.inOrder).2.2
    rw [List.map_cons, List.map_append, List.map_cons] at hright
    have hafter := (List.pairwise_cons.mp hright.inOrder).1
    have hcomments := hright.tail.sublist (List.sublist_append_left _ _)
    have hbehind := (List.pairwise_append.mp hright.tail.inOrder).2.2
    have hspan := hright.inside first.span List.mem_cons_self
    have hspan' := hright.inside n.span (by simp)
    have hbefore : first.span.Before n.span := hafter n.span (by simp)
    have hin : Span.In ⟨first.span.start, n.span.stop⟩ ⟨c.offset, e.offset⟩ :=
      ⟨hspan.1, (hspan.2.1.trans hbefore).trans hspan'.2.1, hspan'.2.2⟩
    rw [heq]
    refine ⟨hmore.at_, h.le.trans hmore.le, ?_, fun m hm => ?_⟩
    · -- it starts where it did before, so that what stands in front of it still does
      rw [List.map_append]
      refine hleft.append (.single hin) fun a ha b hb => ?_
      rw [List.mem_singleton.mp hb]
      exact hcross a ha first.span (by simp)
    · rcases List.mem_append.mp hm with hm | hm
      · exact h.framed m (List.mem_append_left _ hm)
      · rw [List.mem_singleton.mp hm]
        have hself : first.span.In ⟨first.span.start, n.span.stop⟩ :=
          ⟨le_rfl, hspan.2.1, hbefore.trans hspan'.2.1⟩
        have hlast : n.span.In ⟨first.span.start, n.span.stop⟩ :=
          ⟨hspan.2.1.trans hbefore, hspan'.2.1, le_rfl⟩
        refine ⟨⟨⟨hfirst.cuts.inside.1, hin.2.1, hn.cuts.inside.2.2⟩,
          fun henc => ⟨(hfirst.cuts.encoded henc).1, (hn.cuts.encoded henc).2⟩⟩, ?_⟩
        -- its children are the node itself, the comments, and the children of what it takes in
        change Span.Row ⟨first.span.start, n.span.stop⟩
          (([first.span] ++ (comments ++ n.children).map (·.span)))
        rw [List.map_append]
        refine (Span.Row.single hself).append (Span.Row.append ⟨fun a ha => ?_, hcomments.inOrder⟩
          (hn.row.mono hlast) fun a ha b hb => ?_) fun a ha b hb => ?_
        · exact ⟨hspan.2.1.trans (hafter a (List.mem_append_left _ ha)),
            (hcomments.inside a ha).2.1,
            (hbehind a ha n.span List.mem_cons_self).trans hspan'.2.1⟩
        · exact (hbehind a ha n.span List.mem_cons_self).trans (hn.row.inside b hb).1
        · rw [List.mem_singleton.mp ha]
          rcases List.mem_append.mp hb with hb | hb
          · exact hafter b (List.mem_append_left _ hb)
          · exact hbefore.trans (hn.row.inside b hb).1

end Spread

/-- **Where the nodes of a reading stand.** -/
theorem Grammar.Reads.spread {g : Grammar ρ} (h : Reads rules g c nodes d) (hc : c.At source) :
    Spread source c nodes d := by
  induction h with
  | idle => exact .nil hc
  | leaf htrivia =>
    have hbetween := (Trivia.between_of_upToToken hc htrivia).1
    exact ((Spread.of_between hbetween).upTo hbetween.cursor hbetween.le).append
      (.leaf hbetween.cursor _ _)
  | raw => exact .leaf hc _ _
  | endOfLine htrivia => exact .of_between (Trivia.between_of_upToLineBreak hc htrivia)
  | unfold _ _ ih => exact ih hc
  | seq _ _ ih ih' => exact (ih hc).append (ih' (ih hc).at_)
  | node _ ih => exact (ih hc).gather hc _
  | labelled _ ih => exact (ih hc).label _
  | chain _ _ ih ih' => exact (ih hc).extend (ih' (ih hc).at_)

end TypeGraft.Syntax
