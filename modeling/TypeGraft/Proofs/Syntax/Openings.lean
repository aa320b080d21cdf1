import TypeGraft.Proofs.Syntax.Script

/-!
# What statements begin with

An object type begins with a brace, and an alias, an interface or an import with its word
(`TypeGraft.Syntax.Kind.opening?`). In the tree of a script this holds of every node
(`TypeGraft.Syntax.Node.Opened`), since it holds of the rules by which the nodes are read
(`TypeGraft.Syntax.Grammar.opens`), and the members of an interface are an object type.

So all that such a node is made of stands behind the token at its front
(`TypeGraft.Syntax.Node.BeginsWith.behind`).
-/

namespace TypeGraft

namespace Syntax

variable {ρ : Type} {rules : ρ → Grammar ρ} {source : Bytes} {c d : Cursor} {nodes : List Node}
  {g : Grammar ρ} {table : Mark → ρ → Bool} {isBlock : ρ → Bool}

/-! ### Marks and words -/

/-- **A mark or a word that is read** stands there, letter by letter. -/
theorem Cursor.At.slice_of_startsWith {expected : List Char} (h : c.At source)
    (hlegible : '\uFFFD' ∉ expected) (hstarts : Lexeme.startsWith expected c.rest = true) :
    (source.drop c.offset).take ((c.advance expected.length).offset - c.offset) =
      expected.flatMap String.utf8EncodeChar := by
  induction expected generalizing c with
  | nil => simp [Cursor.advance]
  | cons char expected ih =>
    obtain ⟨rest, offset⟩ := c
    cases rest with
    | nil => exact absurd hstarts Bool.false_ne_true
    | cons g rest =>
      rw [Lexeme.startsWith, Bool.and_eq_true, beq_iff_eq] at hstarts
      obtain ⟨b, bytes, hbytes, hfirst, -⟩ := h.exists_bytes
      -- the glyph is the letter, and no replacement for something unreadable
      have hscalar : g.scalar = some char := by
        have hchar := hstarts.1
        rw [Glyph.char] at hchar
        cases hs : g.scalar with
        | none =>
          rw [hs] at hchar
          exact absurd (hchar ▸ List.mem_cons_self) hlegible
        | some char' =>
          rw [hs] at hchar
          exact congrArg some hchar.symm
      have hpiece : (b :: bytes).take g.width = String.utf8EncodeChar char :=
        Glyph.take_of_first (by rw [hfirst, ← hscalar])
      have hrest := ih h.next (fun hmem => hlegible (List.mem_cons_of_mem _ hmem)) hstarts.2
      have hle : offset + g.width ≤
          (Cursor.advance expected.length ⟨rest, offset + g.width⟩).offset :=
        (h.next.advance expected.length).2
      change (source.drop offset).take
        ((Cursor.advance expected.length ⟨rest, offset + g.width⟩).offset - offset) = _
      generalize (Cursor.advance expected.length ⟨rest, offset + g.width⟩).offset = stop
        at hrest hle
      dsimp only at hrest
      rw [show stop - offset = g.width + (stop - (offset + g.width)) by omega, List.take_add,
        List.drop_drop, hbytes, hpiece, hrest, List.flatMap_cons]

/-! ### Openings -/

/-- The mark or word that a node of a kind begins with. -/
def Kind.opening? : Kind → Option String
  | .objectType => some "\x7b"
  | .interface => some "interface"
  | .typeAlias => some "type"
  | .importStatement => some "import"
  | _ => none

/-- The kinds of nodes that begin with a mark or word. -/
def Kind.opened : List Kind := [.objectType, .interface, .typeAlias, .importStatement]

theorem Kind.opening?_of_not_mem {kind : Kind} (h : kind ∉ Kind.opened) : kind.opening? = none := by
  unfold opening?
  split
  · exact absurd (show Kind.objectType ∈ opened by decide) h
  · exact absurd (show Kind.interface ∈ opened by decide) h
  · exact absurd (show Kind.typeAlias ∈ opened by decide) h
  · exact absurd (show Kind.importStatement ∈ opened by decide) h
  · rfl

/-- **A node that begins with a text**: a token at its front reads so. -/
structure Node.BeginsWith (source : Bytes) (text : String) (node first : Node)
    (rest : List Node) : Prop where
  children : node.children = first :: rest
  named : first.kind.named = false
  field : first.field = none
  start : first.span.start = node.span.start
  slice : first.span.slice source = Bytes.ofString text

/-- **A tree in which nodes begin as their kinds say**, and the members of interfaces are object
types. -/
inductive Node.Opened (source : Bytes) : Node → Prop where
  | intro {node : Node} (begins : ∀ text, node.kind.opening? = some text →
        ∃ first rest, node.BeginsWith source text first rest)
      (block : node.kind = .interface → ∀ block ∈ node.children, block.field = some .body →
        block.kind = .objectType)
      (children : ∀ child ∈ node.children, child.Opened source) : node.Opened source

namespace Node

variable {node first : Node} {rest : List Node} {text : String}

namespace Opened

theorem begins (h : node.Opened source) (htext : node.kind.opening? = some text) :
    ∃ first rest, node.BeginsWith source text first rest := by
  cases h with
  | intro begins => exact begins text htext

theorem block (h : node.Opened source) (hkind : node.kind = .interface) {block : Node}
    (hblock : node.child? .body = some block) : block.kind = .objectType := by
  cases h with
  | intro _ blocks =>
    exact blocks hkind block (List.mem_of_find?_eq_some hblock)
      (by simpa using List.find?_some hblock)

theorem child (h : node.Opened source) {child : Node} (hchild : child ∈ node.children) :
    child.Opened source := by
  cases h with
  | intro _ _ children => exact children child hchild

theorem of_not_mem (hkind : node.kind ∉ Kind.opened)
    (hchildren : ∀ child ∈ node.children, child.Opened source) : node.Opened source := by
  refine .intro (fun text htext => ?_) (fun hinterface => ?_) hchildren
  · rw [Kind.opening?_of_not_mem hkind] at htext
    exact absurd htext (by simp)
  · exact absurd (show node.kind ∈ Kind.opened by rw [hinterface]; decide) hkind

theorem withField (h : node.Opened source) (field : Option Field) :
    (node.withField field).Opened source := by
  refine .intro (fun text htext => ?_) (fun hkind => ?_) fun _ hchild => h.child hchild
  · obtain ⟨first, rest, hbegins⟩ := h.begins htext
    exact ⟨first, rest, hbegins.children, hbegins.named, hbegins.field, hbegins.start,
      hbegins.slice⟩
  · cases h with
    | intro _ blocks => exact blocks hkind

theorem of_comment (h : node.IsCommentIn source) : node.Opened source := by
  rw [h.eq]
  exact .of_not_mem (show Kind.comment ∉ _ by decide) fun _ h => absurd h List.not_mem_nil

end Opened

namespace BeginsWith

/-- **All other parts** of a node stand behind its first token. -/
theorem behind (h : node.BeginsWith source text first rest) (hwell : node.WellFormed source)
    {child : Node} (hchild : child ∈ node.children)
    (hother : child.kind.named = true ∨ child.field ≠ none) : first.span.Before child.span := by
  have hrow := hwell.row
  rw [h.children] at hchild hrow
  rcases List.mem_cons.mp hchild with rfl | hchild
  · rcases hother with hnamed | hfield
    · exact absurd (h.named.symm.trans hnamed) Bool.false_ne_true
    · exact absurd h.field hfield
  · exact (List.pairwise_cons.mp hrow.inOrder).1 _ (List.mem_map_of_mem hchild)

theorem length (h : node.BeginsWith source text first rest) (hwell : node.WellFormed source) :
    first.span.stop = node.span.start + (Bytes.ofString text).length := by
  have hcuts := (hwell.child (h.children ▸ List.mem_cons_self)).wellFormed.cuts.inside
  have hlength := Span.length_slice hcuts.1 hcuts.2.1 hcuts.2.2
  rw [h.slice] at hlength
  rw [← h.start]
  omega

end BeginsWith

end Node

namespace Grammar

/-! ### A look at the rules -/

/-- The mark or word that is read first. -/
def front? : Grammar ρ → Option String
  | seq (leaf (.token _) (.sign text)) _ | seq (leaf (.token _) (.word text)) _ => some text
  | _ => none

/-- Whether all that is read in the role of a body is a block of members. -/
def blocks (table : Mark → ρ → Bool) (isBlock : ρ → Bool) : Grammar ρ → Bool
  | seq first second => blocks table isBlock first && blocks table isBlock second
  | labelled .body (rule name) => isBlock name
  | g => !may table (.role .body) g

/-- Whether a node of a kind begins as it should, when it is read as these parts. -/
def opensAs (table : Mark → ρ → Bool) (isBlock : ρ → Bool) (parts : Grammar ρ) (kind : Kind) :
    Bool :=
  (kind.opening?.all fun text => parts.front? == some text && !text.toList.contains '\uFFFD') &&
    (kind != .interface || parts.blocks table isBlock)

/-- Whether every node that is read begins as it should. -/
def opens (table : Mark → ρ → Bool) (isBlock : ρ → Bool) : Grammar ρ → Bool
  | leaf kind _ | raw kind _ => !Kind.opened.contains kind
  | seq first second | alt first second =>
    opens table isBlock first && opens table isBlock second
  | many item | labelled _ item => opens table isBlock item
  | node kind parts => opens table isBlock parts && opensAs table isBlock parts kind
  | chain operand step => opens table isBlock operand && opens table isBlock step &&
      Kind.opened.all fun kind => !may table (.kind kind) step
  | rule _ | empty | ahead _ | absent _ | sameLine | terminator => true

/-- What is known of the rules of a grammar. -/
structure Opens (rules : ρ → Grammar ρ) (table : Mark → ρ → Bool) (isBlock : ρ → Bool) : Prop where
  may : ∀ mark name, (rules name).may table mark = true → table mark name = true
  opens : ∀ name, (rules name).opens table isBlock = true
  block : ∀ name, isBlock name = true → ∃ parts, rules name = node .objectType parts

/-! ### Readings -/

/-- A rule is read as what it says. -/
theorem Reads.of_rule {name : ρ} (h : Reads rules (.rule name) c nodes d) :
    Reads rules (rules name) c nodes d := by
  cases h with
  | idle hidle => cases hidle
  | unfold hunfolds h =>
    cases hunfolds
    exact h

/-- What is read as the members of an interface is an object type. -/
theorem Reads.kind_of_blocks (h : Reads rules g c nodes d) (hc : c.At source)
    (hrules : Opens rules table isBlock) (hblocks : g.blocks table isBlock = true) {n : Node}
    (hn : n ∈ nodes) (hbody : n.field = some .body) : n.kind = .objectType := by
  have hlook : ∀ {g : Grammar ρ} {c d : Cursor} {nodes : List Node}, Reads rules g c nodes d →
      c.At source → (!may table (.role .body) g) = true → ∀ n ∈ nodes, n.field ≠ some .body := by
    intro g c d nodes h hc hmay n hn hbody
    have hread : g.may table (.role .body) = true :=
      h.may_of_mem hc (hrules.may _) (by decide) hn hbody
    rw [hread] at hmay
    exact absurd hmay Bool.false_ne_true
  induction g generalizing c nodes d with
  | seq first second ih ih' =>
    rw [blocks, Bool.and_eq_true] at hblocks
    cases h with
    | idle hidle => cases hidle
    | unfold hunfolds => cases hunfolds
    | seq hfirst hsecond =>
      rcases List.mem_append.mp hn with hn | hn
      · exact ih hfirst hc hblocks.1 hn
      · exact ih' hsecond (hfirst.spread hc).at_ hblocks.2 hn
  | labelled field item _ =>
    unfold blocks at hblocks
    split at hblocks
    · next heq => exact absurd heq (by simp)
    · next name heq =>
      obtain ⟨rfl, rfl⟩ := Grammar.labelled.inj heq
      cases h with
      | idle hidle => cases hidle
      | unfold hunfolds => cases hunfolds
      | labelled hparts =>
        obtain ⟨m, hm, rfl⟩ := List.mem_map.mp hn
        obtain ⟨parts, hparts'⟩ := hrules.block name hblocks
        by_cases hcomment : m.isComment = true
        · rw [if_pos hcomment] at hbody
          exact absurd (hbody.symm.trans (hparts.field_of_isComment hc hm hcomment)) (by simp)
        · have hnode := hparts.of_rule
          rw [hparts'] at hnode
          have hkind : m.kind = .objectType :=
            hnode.kind_of_node hc hm (Bool.eq_false_of_not_eq_true hcomment)
          rw [if_neg hcomment]
          exact hkind
    · exact absurd hbody (hlook h hc hblocks n hn)
  | _ => exact absurd hbody (hlook h hc (by simpa only [blocks] using hblocks) n hn)

/-- There is one way to set the comments in front apart. -/
theorem rest_eq_of_append {before before' rest rest' : List Node}
    (heq : before ++ rest = before' ++ rest') (hbefore : ∀ n ∈ before, n.isComment = true)
    (hbefore' : ∀ n ∈ before', n.isComment = true)
    (hrest : ∀ n, rest.head? = some n → n.isComment = false)
    (hrest' : ∀ n, rest'.head? = some n → n.isComment = false) : rest = rest' := by
  have hdrop : ∀ rest : List Node, (∀ n, rest.head? = some n → n.isComment = false) →
      rest.dropWhile Node.isComment = rest := by
    intro rest hrest
    cases rest with
    | nil => rfl
    | cons n rest => rw [List.dropWhile_cons_of_neg (by rw [hrest n rfl]; exact Bool.false_ne_true)]
  have hcut := congrArg (List.dropWhile Node.isComment) heq
  rwa [List.dropWhile_append_of_pos hbefore, List.dropWhile_append_of_pos hbefore',
    hdrop rest hrest, hdrop rest' hrest'] at hcut

/-- A mark or word that is read first is the first token. -/
theorem Reads.exists_front {text : String} {before rest : List Node}
    (h : Reads rules g c (before ++ rest) d) (hc : c.At source)
    (hbefore : ∀ n ∈ before, n.isComment = true)
    (hrest : ∀ n, rest.head? = some n → n.isComment = false) (hfront : g.front? = some text)
    (hlegible : '\uFFFD' ∉ text.toList) :
    ∃ first more, rest = first :: more ∧ first.kind.named = false ∧ first.field = none ∧
      first.span.slice source = Bytes.ofString text := by
  -- what is read as a leaf is the text itself, behind comments only
  have hleaf : ∀ {mark : String} {lexeme : Lexeme} {second : Grammar ρ},
      Reads rules (Grammar.seq (Grammar.leaf (.token mark) lexeme) second) c (before ++ rest) d →
      (∀ glyphs count, lexeme.length? glyphs = some count →
        Lexeme.startsWith text.toList glyphs = true ∧ count = text.toList.length) →
      ∃ first more, rest = first :: more ∧ first.kind.named = false ∧ first.field = none ∧
        first.span.slice source = Bytes.ofString text := by
    intro mark lexeme second h hlength
    generalize hnodes : before ++ rest = nodes at h
    cases h with
    | idle hidle => cases hidle
    | unfold hunfolds => cases hunfolds
    | seq hfirst hsecond =>
      cases hfirst with
      | idle hidle => cases hidle
      | unfold hunfolds => cases hunfolds
      | leaf htrivia hcount =>
        have hbetween := (Trivia.between_of_upToToken hc htrivia).1
        obtain ⟨hstarts, rfl⟩ := hlength _ _ hcount
        rw [List.append_assoc, List.singleton_append] at hnodes
        have hrest' := rest_eq_of_append hnodes hbefore
          (fun n hn => by rw [(hbetween.comments n hn).eq]; rfl) hrest
          (fun n hn => by rw [← Option.some.inj hn]; rfl)
        refine ⟨_, _, hrest', rfl, rfl, ?_⟩
        refine (hbetween.cursor.slice_spanTo (hbetween.cursor.advance _).1).trans ?_
        exact hbetween.cursor.slice_of_startsWith hlegible hstarts
  unfold front? at hfront
  split at hfront
  · obtain rfl := Option.some.inj hfront
    refine hleaf h fun glyphs count hcount => ?_
    rw [Lexeme.length?] at hcount
    split at hcount
    · next hstarts => exact ⟨hstarts, (Option.some.inj hcount).symm.trans String.length_toList.symm⟩
    · exact absurd hcount (by simp)
  · obtain rfl := Option.some.inj hfront
    refine hleaf h fun glyphs count hcount => ?_
    rw [Lexeme.length?] at hcount
    split at hcount
    · next hstarts =>
      rw [Bool.and_eq_true] at hstarts
      exact ⟨hstarts.1, (Option.some.inj hcount).symm.trans String.length_toList.symm⟩
    · exact absurd hcount (by simp)
  · exact absurd hfront (by simp)

/-- **The parts of a node** begin as they should. -/
theorem Reads.opened_gather {kind : Kind} (h : Reads rules g c nodes d) (hc : c.At source)
    (hrules : Opens rules table isBlock) (hopens : opensAs table isBlock g kind = true)
    (hnodes : ∀ n ∈ nodes, n.Opened source) :
    ∀ n ∈ Node.gather kind nodes d.offset, n.Opened source := by
  obtain ⟨before, rest, rfl, hbefore, hrest, hgather⟩ := Node.exists_gather kind nodes d.offset
  rw [opensAs, Bool.and_eq_true, Bool.or_eq_true, bne_iff_ne] at hopens
  rw [hgather]
  intro n hn
  rcases List.mem_append.mp hn with hn | hn
  · exact hnodes n (List.mem_append_left _ hn)
  rw [List.mem_singleton.mp hn]
  refine .intro (fun text htext => ?_) (fun hkind block hblock hbody => ?_)
    fun child hchild => hnodes child (List.mem_append_right _ hchild)
  · have hfront := hopens.1
    rw [show kind.opening? = some text from htext, Option.all_some, Bool.and_eq_true,
      beq_iff_eq] at hfront
    obtain ⟨first, more, rfl, hnamed, hfield, hslice⟩ :=
      h.exists_front hc hbefore hrest hfront.1 (by simpa using hfront.2)
    exact ⟨first, more, rfl, hnamed, hfield, rfl, hslice⟩
  · exact h.kind_of_blocks hc hrules (hopens.2.resolve_left fun hno => hno hkind)
      (List.mem_append_right _ hblock) hbody

/-- What a grammar comes down to begins as it should as well. -/
theorem Opens.unfold {g' : Grammar ρ} (hrules : Opens rules table isBlock)
    (hunfolds : Unfolds rules g g') (hopens : g.opens table isBlock = true) :
    g'.opens table isBlock = true := by
  cases hunfolds with
  | first first second => exact ((Bool.and_eq_true _ _).mp hopens).1
  | second first second => exact ((Bool.and_eq_true _ _).mp hopens).2
  | again item => exact (Bool.and_eq_true _ _).mpr ⟨hopens, hopens⟩
  | semicolon => rfl
  | operand operand step =>
    rw [Grammar.opens, Bool.and_eq_true, Bool.and_eq_true] at hopens
    exact hopens.1.1
  | rule name => exact hrules.opens name

/-- What is built upon an operand is none of the nodes that begin with a mark or word. -/
theorem Reads.opened_extend {step : Grammar ρ} {first : Node} (h : Reads rules step c nodes d)
    (hc : c.At source) (hrules : Opens rules table isBlock)
    (hmay : (Kind.opened.all fun kind => !may table (.kind kind) step) = true)
    (hfirst : first.Opened source) (hnodes : ∀ n ∈ nodes, n.Opened source) :
    (first.extend nodes).Opened source := by
  rcases Node.extend_eq first nodes with heq | ⟨before, n, rest, rfl, hbefore, hn, heq⟩
  · rw [heq]
    exact hfirst
  have hmem : n ∈ before ++ n :: rest := List.mem_append_right _ List.mem_cons_self
  rw [heq]
  refine .of_not_mem (fun hkind => ?_) fun child hchild => ?_
  · have hread : step.may table (.kind n.kind) = true :=
      h.may_of_mem hc (hrules.may _) (kind_ne_comment hn) hmem rfl
    have hno := List.all_eq_true.mp hmay _ hkind
    change (!may table (.kind n.kind) step) = true at hno
    rw [hread] at hno
    exact absurd hno Bool.false_ne_true
  · rcases List.mem_append.mp hchild with hchild | hchild
    · rcases List.mem_cons.mp hchild with rfl | hchild
      · exact hfirst.withField _
      · exact hnodes child (List.mem_append_left _ hchild)
    · exact (hnodes n hmem).child hchild

/-- **What is read** begins as it should. -/
theorem Reads.opened (h : Reads rules g c nodes d) (hc : c.At source)
    (hrules : Opens rules table isBlock) (hopens : g.opens table isBlock = true) :
    ∀ n ∈ nodes, n.Opened source := by
  have hleaf : ∀ (kind : Kind) (span : Span), (!Kind.opened.contains kind) = true →
      (Node.mk kind none span []).Opened source := fun kind span hkind =>
    .of_not_mem (show kind ∉ _ by simpa using hkind) fun _ h => absurd h List.not_mem_nil
  induction h with
  | idle => exact fun n hn => absurd hn List.not_mem_nil
  | leaf htrivia =>
    have hbetween := (Trivia.between_of_upToToken hc htrivia).1
    refine fun n hn => (List.mem_append.mp hn).elim
      (fun hn => .of_comment (hbetween.comments n hn)) fun hn => ?_
    rw [List.mem_singleton.mp hn]
    exact hleaf _ _ hopens
  | raw =>
    intro n hn
    rw [List.mem_singleton.mp hn]
    exact hleaf _ _ hopens
  | endOfLine htrivia =>
    exact fun n hn => .of_comment ((Trivia.between_of_upToLineBreak hc htrivia).comments n hn)
  | unfold hunfolds _ ih => exact ih hc (hrules.unfold hunfolds hopens)
  | seq hfirst _ ih ih' =>
    rw [opens, Bool.and_eq_true] at hopens
    exact fun n hn => (List.mem_append.mp hn).elim (ih hc hopens.1 n)
      (ih' (hfirst.spread hc).at_ hopens.2 n)
  | node hparts ih =>
    rw [opens, Bool.and_eq_true] at hopens
    exact hparts.opened_gather hc hrules hopens.2 (ih hc hopens.1)
  | labelled _ ih =>
    intro n hn
    obtain ⟨m, hm, rfl⟩ := List.mem_map.mp hn
    split
    · exact ih hc hopens m hm
    · exact (ih hc hopens m hm).withField _
  | chain hbefore hstep ih ih' =>
    have hall := ih hc hopens
    rw [opens, Bool.and_eq_true, Bool.and_eq_true] at hopens
    have hd := (hbefore.spread hc).at_
    refine fun n hn => (List.mem_append.mp hn).elim (fun hn => hall n (List.mem_append_left _ hn))
      fun hn => ?_
    rw [List.mem_singleton.mp hn]
    exact hstep.opened_extend hd hrules hopens.2
      (hall _ (List.mem_append_right _ (List.mem_singleton.mpr rfl))) (ih' hd hopens.1.2)

end Grammar

/-! ### Scripts -/

namespace Script

open Grammar

theorem opens_grammar (dialect : Dialect) :
    Opens (Rule.grammar dialect) Script.table (fun name => name == .objectType) where
  may := (sound_grammar dialect).may
  opens name := by cases dialect <;> cases name <;> rfl
  block name h := by
    obtain rfl := beq_iff_eq.mp h
    exact ⟨_, rfl⟩

end Script

end Syntax

/-- **In the tree of a script** nodes begin as their kinds say. -/
theorem Script.opened_of_tree {dialect : Syntax.Script.Dialect} {path : String} {source : Bytes}
    {tree : Syntax.Node} (h : Script.tree dialect path source = .ok tree) : tree.Opened source := by
  unfold Script.tree at h
  split at h
  · next node hparse =>
    obtain rfl := Except.ok.inj h
    obtain ⟨nodes, d, hreads, hmem, -⟩ := exists_reads_of_parse hparse
    exact hreads.opened (Syntax.Cursor.At.start source) (Syntax.Script.opens_grammar dialect) rfl _
      hmem
  · exact absurd h (by simp)

end TypeGraft
