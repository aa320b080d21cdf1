import TypeGraft.Proofs.Syntax.Grammar

/-!
# What a grammar may read

What can be told of the nodes of a reading by a look at the grammar, where a table tells it of the
rules:

* `TypeGraft.Syntax.Grammar.may`: whether a node of a kind, or in a role, may be among them;
* `TypeGraft.Syntax.Grammar.apart`: whether nodes of two sorts come in one order only;
* `TypeGraft.Syntax.Grammar.starts`: whether none of them starts with a line break.

The look does not enter the nodes, so it is a short one, and whether the table is right is decided
once for all rules.
-/

namespace TypeGraft.Syntax

variable {ρ : Type} {rules : ρ → Grammar ρ} {source : Bytes} {c d : Cursor} {nodes : List Node}
  {g : Grammar ρ} {table : Mark → ρ → Bool}

/-! ### Marks -/

/-- What may be told of a node by a look at it alone: its kind or its role. -/
inductive Mark where
  | kind (kind : Kind)
  | role (field : Field)
deriving DecidableEq

/-- Whether a node bears a mark. -/
def Mark.On : Mark → Node → Prop
  | kind k, n => n.kind = k
  | role f, n => n.field = some f

theorem Mark.On.of_eq {mark : Mark} {n m : Node} (h : mark.On n) (hkind : m.kind = n.kind)
    (hfield : m.field = n.field) : mark.On m := by
  cases mark with
  | kind k => exact hkind.trans h
  | role f => exact hfield.trans h

/-- A leaf has no role. -/
theorem Mark.eq_of_on {mark : Mark} {kind : Kind} {span : Span} {children : List Node}
    (h : mark.On (.mk kind none span children)) : mark = .kind kind := by
  cases mark with
  | kind k => exact congrArg Mark.kind h.symm
  | role f => exact absurd (show none = some f from h) (by simp)

namespace Grammar

/-- Comments have no role. -/
theorem Reads.field_of_isComment (h : Reads rules g c nodes d) (hc : c.At source) {n : Node}
    (hn : n ∈ nodes) (hcomment : n.isComment = true) : n.field = none := by
  -- only a label gives a role, and it passes over comments
  induction h generalizing n with
  | idle => exact absurd hn List.not_mem_nil
  | leaf htrivia =>
    rcases List.mem_append.mp hn with hn | hn
    · rw [((Trivia.between_of_upToToken hc htrivia).1.comments n hn).eq]
      rfl
    · rw [List.mem_singleton.mp hn]
      rfl
  | raw =>
    rw [List.mem_singleton.mp hn]
    rfl
  | endOfLine htrivia =>
    rw [((Trivia.between_of_upToLineBreak hc htrivia).comments n hn).eq]
    rfl
  | unfold _ _ ih => exact ih hc hn hcomment
  | seq hfirst _ ih ih' =>
    rcases List.mem_append.mp hn with hn | hn
    · exact ih hc hn hcomment
    · exact ih' (hfirst.spread hc).at_ hn hcomment
  | @node kind _ _ d nodes _ ih =>
    obtain ⟨before, rest, rfl, -, -, hgather⟩ := Node.exists_gather kind nodes d.offset
    rw [hgather] at hn
    rcases List.mem_append.mp hn with hn | hn
    · exact ih hc (List.mem_append_left _ hn) hcomment
    · rw [List.mem_singleton.mp hn]
      rfl
  | labelled _ ih =>
    obtain ⟨m, hm, rfl⟩ := List.mem_map.mp hn
    split at hcomment
    · next hm' =>
      rw [if_pos hm']
      exact ih hc hm hcomment
    · next hm' => exact absurd hcomment hm'
  | @chain _ _ _ _ _ _ more first hbefore _ ih ih' =>
    rcases List.mem_append.mp hn with hn | hn
    · exact ih hc (List.mem_append_left _ hn) hcomment
    · rw [List.mem_singleton.mp hn] at hcomment ⊢
      rcases Node.extend_eq first more with heq | ⟨_, m, _, -, -, hm, heq⟩
      · rw [heq] at hcomment ⊢
        exact ih hc (List.mem_append_right _ (List.mem_singleton.mpr rfl)) hcomment
      · rw [heq] at hcomment
        exact absurd (hm.symm.trans hcomment) (by simp)

theorem Reads.not_on_of_isComment {mark : Mark} (h : Reads rules g c nodes d) (hc : c.At source)
    (hmark : mark ≠ .kind .comment) {n : Node} (hn : n ∈ nodes) (hcomment : n.isComment = true) :
    ¬mark.On n := by
  intro hon
  cases mark with
  | kind k => exact hmark (congrArg Mark.kind (hon.symm.trans (beq_iff_eq.mp hcomment)))
  | role f => exact absurd (hon.symm.trans (h.field_of_isComment hc hn hcomment)) (by simp)

/-- Whether a node that bears a mark may be read. -/
def may (table : Mark → ρ → Bool) (mark : Mark) : Grammar ρ → Bool
  | leaf kind _ | raw kind _ | node kind _ => mark == .kind kind
  | terminator => mark == .kind (.token ";")
  | seq first second | alt first second | chain first second =>
    may table mark first || may table mark second
  | many item => may table mark item
  | labelled field parts => mark == .role field || may table mark parts
  | rule name => table mark name
  | empty | ahead _ | absent _ | sameLine => false

/-- **Only what may be read is read.** -/
theorem Reads.may_of_mem {mark : Mark} (h : Reads rules g c nodes d) (hc : c.At source)
    (htable : ∀ name, (rules name).may table mark = true → table mark name = true)
    (hmark : mark ≠ .kind .comment) {n : Node} (hn : n ∈ nodes) (hon : mark.On n) :
    g.may table mark = true := by
  -- comments bear no mark, so they are set aside first
  by_cases hcomment : n.isComment = true
  · exact absurd hon (h.not_on_of_isComment hc hmark hn hcomment)
  induction h generalizing n with
  | idle => exact absurd hn List.not_mem_nil
  | leaf htrivia =>
    rcases List.mem_append.mp hn with hn | hn
    · refine absurd ?_ hcomment
      rw [((Trivia.between_of_upToToken hc htrivia).1.comments n hn).eq]
      rfl
    · rw [List.mem_singleton.mp hn] at hon
      exact beq_iff_eq.mpr (Mark.eq_of_on hon)
  | raw =>
    rw [List.mem_singleton.mp hn] at hon
    exact beq_iff_eq.mpr (Mark.eq_of_on hon)
  | endOfLine htrivia =>
    refine absurd ?_ hcomment
    rw [((Trivia.between_of_upToLineBreak hc htrivia).comments n hn).eq]
    rfl
  | unfold hunfolds _ ih =>
    have hmay := ih hc hn hon hcomment
    cases hunfolds with
    | first first second => exact (Bool.or_eq_true _ _).mpr (Or.inl hmay)
    | second first second => exact (Bool.or_eq_true _ _).mpr (Or.inr hmay)
    | again item => exact ((Bool.or_eq_true _ _).mp hmay).elim id id
    | semicolon => exact hmay
    | operand operand step => exact (Bool.or_eq_true _ _).mpr (Or.inl hmay)
    | rule name => exact htable name hmay
  | seq hfirst _ ih ih' =>
    rw [may, Bool.or_eq_true]
    rcases List.mem_append.mp hn with hn | hn
    · exact Or.inl (ih hc hn hon hcomment)
    · exact Or.inr (ih' (hfirst.spread hc).at_ hn hon hcomment)
  | @node kind _ _ d nodes hparts ih =>
    obtain ⟨before, rest, rfl, hbefore, -, hgather⟩ := Node.exists_gather kind nodes d.offset
    rw [hgather] at hn
    rcases List.mem_append.mp hn with hn | hn
    · exact absurd (hbefore n hn) hcomment
    · rw [List.mem_singleton.mp hn] at hon
      exact beq_iff_eq.mpr (Mark.eq_of_on hon)
  | labelled hparts ih =>
    obtain ⟨m, hm, rfl⟩ := List.mem_map.mp hn
    rw [may, Bool.or_eq_true, beq_iff_eq]
    by_cases hm' : m.isComment = true
    · rw [if_pos hm'] at hcomment
      exact absurd hm' hcomment
    · rw [if_neg hm'] at hon
      cases mark with
      | kind k => exact Or.inr (ih hc hm hon hm')
      | role f => exact Or.inl (congrArg Mark.role (Option.some.inj hon).symm)
  | @chain _ _ _ _ _ _ more first hbefore hstep ih ih' =>
    rw [may, Bool.or_eq_true]
    rcases List.mem_append.mp hn with hn | hn
    · exact (Bool.or_eq_true _ _).mp (ih hc (List.mem_append_left _ hn) hon hcomment)
    · rw [List.mem_singleton.mp hn] at hon hcomment
      rcases Node.extend_eq first more with heq | ⟨_, m, _, rfl, -, hm, heq⟩
      · rw [heq] at hon hcomment
        exact (Bool.or_eq_true _ _).mp
          (ih hc (List.mem_append_right _ (List.mem_singleton.mpr rfl)) hon hcomment)
      · rw [heq] at hon
        refine Or.inr (ih' (hbefore.spread hc).at_ (List.mem_append_right _ List.mem_cons_self)
          (hon.of_eq rfl rfl) ?_)
        rw [hm]
        exact Bool.false_ne_true

/-! ### Order -/

/-- Whether no node that bears the mark `x` is one that bears `y`, or stands in front of one. -/
def apart (table : Mark → ρ → Bool) (x y : Mark) : Grammar ρ → Bool
  | seq first second =>
    apart table x y first && apart table x y second && !(may table x first && may table y second)
  | alt first second => apart table x y first && apart table x y second
  | g => !(may table x g && may table y g)

/-- One node after another one of a reading in which they are apart. -/
structure InTurn (x y : Mark) (nodes : List Node) : Prop where
  pairwise : nodes.Pairwise fun a b => ¬(x.On a ∧ y.On b)
  alone : ∀ n ∈ nodes, ¬(x.On n ∧ y.On n)

/-- **Nodes of two sorts** come in one order only. -/
theorem Reads.inTurn {x y : Mark} (h : Reads rules g c nodes d) (hc : c.At source)
    (hx : ∀ name, (rules name).may table x = true → table x name = true)
    (hy : ∀ name, (rules name).may table y = true → table y name = true)
    (hmarks : x ≠ .kind .comment ∧ y ≠ .kind .comment) (hapart : g.apart table x y = true) :
    InTurn x y nodes := by
  have hlook : ∀ {g : Grammar ρ} {c d : Cursor} {nodes : List Node}, Reads rules g c nodes d →
      c.At source → (may table x g && may table y g) = false → InTurn x y nodes := by
    intro g c d nodes h hc hmay
    have hboth : ∀ a ∈ nodes, ∀ b ∈ nodes, ¬(x.On a ∧ y.On b) := by
      rintro a ha b hb ⟨hon, hon'⟩
      rw [h.may_of_mem hc hx hmarks.1 ha hon, h.may_of_mem hc hy hmarks.2 hb hon'] at hmay
      exact absurd hmay (by decide)
    exact ⟨List.pairwise_of_forall_mem_list hboth, fun n hn => hboth n hn n hn⟩
  induction g generalizing c nodes d with
  | seq first second ih ih' =>
    rw [apart, Bool.and_eq_true, Bool.and_eq_true, Bool.not_eq_true'] at hapart
    cases h with
    | idle hidle => cases hidle
    | unfold hunfolds => cases hunfolds
    | seq hfirst hsecond =>
      have hd := (hfirst.spread hc).at_
      obtain ⟨hpair, halone⟩ := ih hfirst hc hapart.1.1
      obtain ⟨hpair', halone'⟩ := ih' hsecond hd hapart.1.2
      refine ⟨List.pairwise_append.mpr ⟨hpair, hpair', ?_⟩,
        fun n hn => (List.mem_append.mp hn).elim (halone n) (halone' n)⟩
      rintro a ha b hb ⟨hon, hon'⟩
      have hmay := hapart.2
      rw [hfirst.may_of_mem hc hx hmarks.1 ha hon,
        hsecond.may_of_mem hd hy hmarks.2 hb hon'] at hmay
      exact absurd hmay (by decide)
  | alt first second ih ih' =>
    rw [apart, Bool.and_eq_true] at hapart
    cases h with
    | idle hidle => cases hidle
    | unfold hunfolds h =>
      cases hunfolds with
      | first => exact ih h hc hapart.1
      | second => exact ih' h hc hapart.2
  | _ => exact hlook h hc (by simpa only [apart, Bool.not_eq_true'] using hapart)

/-! ### Where nodes start -/

mutual

/-- Whether no node starts with a line break. -/
def starts : Grammar ρ → Bool
  | raw _ .interpreterLine => true
  | raw _ _ => false
  | node _ parts => leads parts
  | seq first second | alt first second => starts first && starts second
  | many item | labelled _ item | chain item _ => starts item
  | leaf _ _ | rule _ | empty | ahead _ | absent _ | sameLine | terminator => true

/-- Whether there is a node other than a comment, and the first one does not start with a line
break. -/
def leads : Grammar ρ → Bool
  | leaf kind _ => kind != .comment
  | node kind parts => kind != .comment && leads parts
  | seq first second => leads first || (starts first && leads second)
  | alt first second => leads first && leads second
  | labelled _ item | chain item _ => leads item
  | rule _ => true
  | raw _ _ | many _ | empty | ahead _ | absent _ | sameLine | terminator => false

end

/-- Behind comments stands a node that does not start with a line break. -/
inductive Led (source : Bytes) : List Node → Prop where
  | here {n : Node} {rest : List Node} (hkind : n.isComment = false)
      (hstart : ¬Node.BreaksLine source n.span.start) : Led source (n :: rest)
  | behind {n : Node} {rest : List Node} (hkind : n.isComment = true)
      (hstart : ¬Node.BreaksLine source n.span.start) (h : Led source rest) : Led source (n :: rest)

namespace Led

variable {more before rest : List Node} {first : Node}

theorem append_right (h : Led source nodes) : Led source (nodes ++ more) := by
  induction h with
  | here hkind hstart => exact .here hkind hstart
  | behind hkind hstart _ ih => exact .behind hkind hstart ih

theorem append_left (hnodes : ∀ n ∈ nodes, ¬Node.BreaksLine source n.span.start)
    (h : Led source more) : Led source (nodes ++ more) := by
  induction nodes with
  | nil => exact h
  | cons n nodes ih =>
    have hstart := hnodes n List.mem_cons_self
    cases hkind : n.isComment with
    | false => exact .here hkind hstart
    | true => exact .behind hkind hstart (ih fun m hm => hnodes m (List.mem_cons_of_mem _ hm))

/-- The comments in front, and the node behind them. -/
theorem of_append (h : Led source (before ++ rest)) (hbefore : ∀ n ∈ before, n.isComment = true) :
    (∀ n ∈ before, ¬Node.BreaksLine source n.span.start) ∧ Led source rest := by
  induction before with
  | nil => exact ⟨fun _ hn => absurd hn List.not_mem_nil, h⟩
  | cons n before ih =>
    have hcomment := hbefore n List.mem_cons_self
    cases h with
    | here hkind => exact absurd (hkind.symm.trans hcomment) (by decide)
    | behind _ hstart h =>
      obtain ⟨hstarts, hrest⟩ := ih h fun m hm => hbefore m (List.mem_cons_of_mem _ hm)
      exact ⟨List.forall_mem_cons.mpr ⟨hstart, hstarts⟩, hrest⟩

theorem gather {kind : Kind} {stop : Nat} (h : Led source nodes) :
    (∀ n ∈ Node.gather kind nodes stop, ¬Node.BreaksLine source n.span.start) ∧
      (kind ≠ .comment → Led source (Node.gather kind nodes stop)) := by
  obtain ⟨before, rest, rfl, hbefore, hrest, hgather⟩ := Node.exists_gather kind nodes stop
  obtain ⟨hstarts, hled⟩ := h.of_append hbefore
  -- the node starts with the first of its parts
  have hstart : ¬Node.BreaksLine source ((rest.head?.map (·.span.start)).getD (stop : Int)) := by
    cases hled with
    | here _ hstart => exact hstart
    | behind _ hstart => exact hstart
  rw [hgather]
  refine ⟨fun n hn => ?_, fun hkind => append_left hstarts (.here (beq_false_of_ne hkind) hstart)⟩
  rcases List.mem_append.mp hn with hn | hn
  · exact hstarts n hn
  · rw [List.mem_singleton.mp hn]
    exact hstart

theorem label (field : Field) (h : Led source nodes) : Led source (Node.label field nodes) := by
  induction h with
  | @here n _ hkind hstart =>
    rw [Node.label, List.map_cons, if_neg (by rw [hkind]; exact Bool.false_ne_true)]
    exact .here hkind hstart
  | @behind n _ hkind hstart _ ih =>
    rw [Node.label, List.map_cons, if_pos hkind]
    exact .behind hkind hstart ih

theorem extend (h : Led source (before ++ [first])) :
    Led source (before ++ [first.extend more]) := by
  induction before with
  | nil =>
    cases h with
    | here hkind hstart =>
      rcases Node.extend_eq first more with heq | ⟨_, m, _, -, -, hm, heq⟩
      · rw [heq]
        exact .here hkind hstart
      · rw [heq]
        exact .here hm hstart
    | behind _ _ h => cases h
  | cons n before ih =>
    cases h with
    | here hkind hstart => exact .here hkind hstart
    | behind hkind hstart h => exact .behind hkind hstart (ih h)

end Led

theorem starts_label (field : Field)
    (h : ∀ n ∈ nodes, ¬Node.BreaksLine source n.span.start) :
    ∀ n ∈ Node.label field nodes, ¬Node.BreaksLine source n.span.start := by
  intro n hn
  obtain ⟨m, hm, rfl⟩ := List.mem_map.mp hn
  split
  · exact h m hm
  · exact h m hm

theorem start_extend (first : Node) (more : List Node) :
    (first.extend more).span.start = first.span.start := by
  rcases Node.extend_eq first more with heq | ⟨_, _, _, -, -, -, heq⟩
  · rw [heq]
  · rw [heq]
    rfl

theorem not_breaksLine_of_interpreterLine {count : Nat} (hc : c.At source)
    (hcount : Lexeme.interpreterLine.length? c.rest = some count) :
    ¬Node.BreaksLine source c.offset := by
  refine hc.not_breaksLine fun g' hg' => ?_
  rw [Lexeme.length?] at hcount
  split at hcount
  · next hstarts =>
    obtain ⟨rest, hrest⟩ := List.head?_eq_some_iff.mp hg'
    rw [hrest, Lexeme.startsWith, Bool.and_eq_true, beq_iff_eq] at hstarts
    rw [← hstarts.1]
    decide
  · exact absurd hcount (by simp)

/-- **Where the nodes of a reading start.** -/
theorem Reads.starts_and_led (h : Reads rules g c nodes d) (hc : c.At source)
    (hrules : ∀ name, (rules name).starts = true ∧ (rules name).leads = true) :
    (g.starts = true → ∀ n ∈ nodes, ¬Node.BreaksLine source n.span.start) ∧
      (g.leads = true → Led source nodes) := by
  -- both at once: a node starts where the first token of its parts does
  induction h with
  | idle hidle =>
    refine ⟨fun _ n hn => absurd hn List.not_mem_nil, fun hleads => ?_⟩
    cases hidle <;> exact absurd hleads Bool.false_ne_true
  | @leaf kind _ _ t count htrivia _ =>
    obtain ⟨hbetween, hstart⟩ := Trivia.between_of_upToToken hc htrivia
    have hcomments : ∀ n ∈ t.comments, ¬Node.BreaksLine source n.span.start :=
      fun n hn => (hbetween.comments n hn).starts
    refine ⟨fun _ n hn => ?_, fun hleads => .append_left hcomments (.here ?_ hstart)⟩
    · rcases List.mem_append.mp hn with hn | hn
      · exact hcomments n hn
      · rw [List.mem_singleton.mp hn]
        exact hstart
    · rw [leads, bne_iff_ne] at hleads
      exact beq_false_of_ne hleads
  | @raw kind lexeme c count hcount =>
    refine ⟨fun hstarts n hn => ?_, fun hleads => absurd hleads Bool.false_ne_true⟩
    -- of what is read without its trivia, only this has to start with no line break
    have hlexeme : lexeme = .interpreterLine := by
      cases lexeme <;> first | rfl | exact absurd hstarts Bool.false_ne_true
    subst hlexeme
    rw [List.mem_singleton.mp hn]
    exact not_breaksLine_of_interpreterLine hc hcount
  | endOfLine htrivia =>
    have hbetween := Trivia.between_of_upToLineBreak hc htrivia
    exact ⟨fun _ n hn => (hbetween.comments n hn).starts,
      fun hleads => absurd hleads Bool.false_ne_true⟩
  | unfold hunfolds _ ih =>
    obtain ⟨hstarts, hled⟩ := ih hc
    cases hunfolds with
    | first first second =>
      exact ⟨fun h => hstarts ((Bool.and_eq_true _ _).mp h).1,
        fun h => hled ((Bool.and_eq_true _ _).mp h).1⟩
    | second first second =>
      exact ⟨fun h => hstarts ((Bool.and_eq_true _ _).mp h).2,
        fun h => hled ((Bool.and_eq_true _ _).mp h).2⟩
    | again item =>
      exact ⟨fun h => hstarts ((Bool.and_eq_true _ _).mpr ⟨h, h⟩),
        fun h => absurd h Bool.false_ne_true⟩
    | semicolon => exact ⟨fun _ => hstarts rfl, fun h => absurd h Bool.false_ne_true⟩
    | operand operand step => exact ⟨hstarts, hled⟩
    | rule name => exact ⟨fun _ => hstarts (hrules name).1, fun _ => hled (hrules name).2⟩
  | seq hfirst _ ih ih' =>
    obtain ⟨hstarts, hled⟩ := ih hc
    obtain ⟨hstarts', hled'⟩ := ih' (hfirst.spread hc).at_
    refine ⟨fun h n hn => ?_, fun h => ?_⟩
    · rw [starts, Bool.and_eq_true] at h
      exact (List.mem_append.mp hn).elim (hstarts h.1 n) (hstarts' h.2 n)
    · rw [leads, Bool.or_eq_true, Bool.and_eq_true] at h
      rcases h with h | h
      · exact (hled h).append_right
      · exact .append_left (hstarts h.1) (hled' h.2)
  | node _ ih =>
    refine ⟨fun h => ((ih hc).2 h).gather.1, fun h => ?_⟩
    rw [leads, Bool.and_eq_true, bne_iff_ne] at h
    exact ((ih hc).2 h.2).gather.2 h.1
  | labelled _ ih => exact ⟨fun h => starts_label _ ((ih hc).1 h), fun h => ((ih hc).2 h).label _⟩
  | @chain _ _ _ _ _ before more first _ _ ih _ =>
    refine ⟨fun h n hn => ?_, fun h => ((ih hc).2 h).extend⟩
    have hstarts := (ih hc).1 h
    rcases List.mem_append.mp hn with hn | hn
    · exact hstarts n (List.mem_append_left _ hn)
    · rw [List.mem_singleton.mp hn, start_extend]
      exact hstarts first (List.mem_append_right _ (List.mem_singleton.mpr rfl))

end Grammar

end TypeGraft.Syntax
