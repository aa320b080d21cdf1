import TypeGraft.Proofs.Outline.Lines
import TypeGraft.Proofs.Splice.Encoding
import TypeGraft.Proofs.Syntax.Script

/-!
# What declarations mention

The mentions of a declaration are the slots that new names are written into. So no two of them may
meet, and each has to read like the name that is looked for. In a well-formed tree all of this holds
of whatever is declared there, however types are nested in types
(`TypeGraft.Outline.orderly_of_ofTree`).

* `TypeGraft.Mention.Spells`: a mention is called what stands in its slot.
* `TypeGraft.Mention.StandsIn`: the places of mentions. They are the body, the names of what is
  extended, and the type arguments behind these names.
* `TypeGraft.Declaration.Orderly`: the mentions that no type parameter hides stand one behind the
  other, and among them there is one for each type that is extended.

**Why the order of children is not enough.** Mentions are listed by role: the name of an applied
type comes ahead of its arguments and what an interface extends ahead of its members, wherever they
stand. So in a well-formed tree (`TypeGraft.Syntax.Node.WellFormed`) they also stand in this order,
and names are not empty. Each tree that is read off a script is like that
(`TypeGraft.Script.isScript_of_tree`).
-/

namespace TypeGraft

open Syntax Syntax.Node

variable {source : Bytes} {path : String} {d : Declaration} {m : Mention} {base : Heritage}

/-! ### Spelling -/

/-- **A mention spells its name**: its slot lies in the source and holds the name, byte for byte if
the source is encoded. -/
structure Mention.Spells (source : Bytes) (m : Mention) : Prop where
  inside : m.span.In (.whole source)
  name : m.name = Bytes.toStringLossy (m.span.slice source)
  bytes : source.Encoded → Bytes.ofString m.name = m.span.slice source

theorem Mention.spells_of_cuts (h : m.span.Cuts source)
    (hname : m.name = Bytes.toStringLossy (m.span.slice source)) : m.Spells source := by
  refine ⟨h.inside, hname, fun henc => ?_⟩
  obtain ⟨text, htext⟩ := h.encoded_slice henc
  rw [hname, ← htext, Bytes.toStringLossy_ofString]

/-! ### Places -/

/-- **Where a mention stands**: in the body of its declaration, or as the name of a base, or in the
type arguments of a base. -/
inductive Mention.StandsIn (d : Declaration) (m : Mention) : Prop where
  | body (kind : m.kind ≠ .extends_) (inside : m.span.In d.body)
  | base (base : Heritage) (mem : base ∈ d.bases) (eq : m = base.mention)
  | argument (base : Heritage) (mem : base ∈ d.bases) (arguments : Node)
      (eq : base.arguments = some arguments) (kind : m.kind = .member)
      (inside : m.span.In arguments.span)

/-- **What a declaration mentions** is in order, once type parameters hide what they are named
like. -/
structure Declaration.Orderly (source : Bytes) (d : Declaration) : Prop where
  inOrder : (d.freeMentions source).Pairwise fun a b =>
    a.span.start < b.span.start ∧ a.span.Before b.span
  nonempty : ∀ m ∈ d.freeMentions source, m.span.start < m.span.stop
  spells : ∀ m ∈ d.freeMentions source, m.Spells source
  stands : ∀ m ∈ d.freeMentions source, m.StandsIn d
  /-- Each type that is extended is mentioned once by its name, in the order in which they are
  listed. -/
  heads : (d.freeMentions source).filter (fun m => m.kind == .extends_) =
    d.bases.map Heritage.mention
  /-- The list of what is extended stands in front of the body. -/
  listed : Span.Row d.statement (d.bases.map (·.span))
  bases : ∀ base ∈ d.bases, base.Orderly source ∧ base.span.Before d.body
  unhidden : ∀ m ∈ d.freeMentions source, m.kind ≠ .extends_ → m.name ∉ d.parameterNames

namespace Declaration.Laid

variable (h : d.Laid source)
include h

/-- A mention of a declaration stands in one of its places. -/
theorem standsIn (hbases : ∀ base ∈ d.bases, base.Orderly source) (hm : m ∈ d.mentions source) :
    m.StandsIn d := by
  -- the bases are gone through first, each with its arguments, and then the body
  rw [d.mentions_eq] at hm
  rcases List.mem_append.mp hm with hm | hm
  · obtain ⟨base, hbase, hm⟩ := List.mem_flatMap.mp hm
    rcases Mention.mem_ofBase.mp hm with rfl | ⟨arguments, harguments, hm⟩
    · exact .base base hbase rfl
    · have hlies := ((hbases base hbase).arguments arguments harguments).1
      have hrow := (Mention.row_ofType hlies.wellFormed .member).1
      exact .argument base hbase arguments harguments (Harvest.kind_of_mem_ofType hm)
        (hrow.inside _ (List.mem_map_of_mem hm))
  · exact .body (Harvest.kind_of_mem_bodyMentions hm)
      (h.members.inside _ (List.mem_map_of_mem hm))

/-- The mentions that are followed stand one behind the other. -/
theorem pairwise_freeMentions : (d.freeMentions source).Pairwise fun a b =>
    a.span.start < b.span.start ∧ a.span.Before b.span := by
  -- what is hidden leaves the others in their order
  have hfree : (d.freeMentions source).Sublist (d.mentions source) := List.filter_sublist
  have hbefore := (List.pairwise_map.mp h.row_mentions.inOrder).sublist hfree
  refine hbefore.imp_of_mem fun {a b} ha _ hab => ⟨?_, hab⟩
  have hlong := (h.names a (hfree.subset ha)).2
  unfold Span.Before at hab
  omega

end Declaration.Laid

namespace Outline

/-- **What is declared in a well-formed tree** mentions in order what it does. -/
theorem Writes.orderly {tree : Node} (h : Writes path source tree d)
    (htree : tree.WellFormed source) :
    d.Orderly source := by
  obtain ⟨statement, node, hstatement, hnode, hd⟩ := h
  have hwell := (htree.under hstatement).wellFormed
  have hlies := hwell.under hnode
  obtain ⟨hlaid, -⟩ := laid_of_declaration? hwell hlies hd
  have hbases : ∀ base ∈ d.bases, base.Orderly source := by
    intro base hbase
    obtain ⟨clause, hclause, -, type, htype, hreads⟩ := exists_readsBase_of_mem_bases
      ((declaredAt_of_declaration? hd).declaredAs.mem_bases hbase)
    have htype := (hlies.wellFormed.child hclause).wellFormed.namedChild htype
    exact (orderly_of_readsBase htype.wellFormed hreads).1
  have hname := fun m => Declaration.name_of_mem_mentions (m := m) fun base hbase =>
    (spelled_of_declaration? hd base hbase).symm
  -- what is followed is mentioned
  have hfree : ∀ m ∈ d.freeMentions source, m ∈ d.mentions source ∧
      (m.kind ≠ .extends_ → m.name ∉ d.parameterNames) := by
    intro m hm
    obtain ⟨hm, hkept⟩ := List.mem_filter.mp hm
    refine ⟨hm, fun hkind hname => ?_⟩
    simp [hkind, hname] at hkept
  exact {
    inOrder := hlaid.pairwise_freeMentions
    nonempty := fun m hm => (hlaid.names m (hfree m hm).1).2
    spells :=
      fun m hm => Mention.spells_of_cuts (hlaid.names m (hfree m hm).1).1 (hname m (hfree m hm).1)
    stands := fun m hm => hlaid.standsIn hbases (hfree m hm).1
    heads := d.filter_freeMentions source
    listed := hlaid.head
    bases := fun base hbase => ⟨hbases base hbase, hlaid.ahead base hbase⟩
    unhidden := fun m hm => (hfree m hm).2 }

/-- **What declarations mention is in order.** The tree of a script is well-formed. In a well-formed
tree, all that a scan lists is written there, and whatever is written there, also a declaration that
a later one of its name replaces, mentions types in slots that do not meet and that read like the
names in them. -/
theorem orderly_of_ofTree (path : String) (source : Bytes) (tree : Node) :
    (∀ dialect, Script.tree dialect path source = .ok tree → tree.WellFormed source) ∧
    (tree.WellFormed source →
      (∀ strict o events, ofTree strict path source tree = .ok (o, events) →
        ∀ name d, o.declarations.get? name = some d → Writes path source tree d) ∧
      ∀ d, Writes path source tree d → d.Orderly source) := by
  refine ⟨fun dialect h => (Script.isScript_of_tree h).wellFormed, fun htree => ⟨?_, ?_⟩⟩
  · intro strict o events h name d hd
    have hsource := (sound_ofTree h).1
    obtain ⟨-, hwrites⟩ := (lined_ofTree htree h).1.declarations name d hd
    rwa [hsource, (wellFormed_ofTree h).1] at hwrites
  · exact fun d hd => hd.orderly htree

/-- A declaration of which something is expected, in a script that is read without faults. -/
theorem exists_declared {path name : String} {source : Bytes} {expected : Declaration → Bool}
    (h : (match Script.tree .plain path source with
      | .error _ => false
      | .ok tree => match ofTree false path source tree with
        | .error _ => false
        | .ok (o, _) => (o.declarations.get? name).any expected) = true) :
    ∃ tree o events d, Script.tree .plain path source = .ok tree ∧
      ofTree false path source tree = .ok (o, events) ∧ o.declarations.get? name = some d ∧
      expected d = true := by
  split at h
  · exact absurd h (by simp)
  · next tree htree =>
    split at h
    · exact absurd h (by simp)
    · next o events hscan =>
      obtain ⟨d, hd, hexpected⟩ := (Option.any_eq_true _ _).mp h
      exact ⟨tree, o, events, d, htree, hscan, hd, hexpected⟩

/-- An interface with a type parameter that is named in the arguments of a base, in those of an
applied type and as all of the type of a property. -/
def nestedArguments : Bytes := Bytes.ofString
  "interface P<T> extends B<T, I<T>[]>, m.O<A> \x7b a: F<G | [T]>[]; b: C; c: T \x7d\n"

set_option maxRecDepth 100000 in
/-- Two bases with arguments and three properties, one of which is the type parameter. -/
theorem orderly_of_ofTree_nestedArguments : ∃ tree o events d,
    Script.tree .plain "/w/a.ts" nestedArguments = .ok tree ∧ tree.WellFormed nestedArguments ∧
    ofTree false "/w/a.ts" nestedArguments tree = .ok (o, events) ∧
    o.declarations.get? "P" = some d ∧ Writes "/w/a.ts" nestedArguments tree d ∧
    d.Orderly nestedArguments ∧ d.freeMentions nestedArguments =
      [⟨"B", ⟨23, 24⟩, .extends_, false⟩, ⟨"I", ⟨28, 29⟩, .member, false⟩,
        ⟨"m.O", ⟨37, 40⟩, .extends_, false⟩, ⟨"A", ⟨41, 42⟩, .member, false⟩,
        ⟨"F", ⟨49, 50⟩, .property, false⟩, ⟨"G", ⟨51, 52⟩, .property, false⟩,
        ⟨"C", ⟨66, 67⟩, .property, true⟩] := by
  obtain ⟨tree, o, events, d, htree, hscan, hd, hmentions⟩ : ∃ tree o events d,
      Script.tree .plain "/w/a.ts" nestedArguments = .ok tree ∧
      ofTree false "/w/a.ts" nestedArguments tree = .ok (o, events) ∧
      o.declarations.get? "P" = some d ∧ (d.freeMentions nestedArguments == [
        ⟨"B", ⟨23, 24⟩, .extends_, false⟩, ⟨"I", ⟨28, 29⟩, .member, false⟩,
        ⟨"m.O", ⟨37, 40⟩, .extends_, false⟩, ⟨"A", ⟨41, 42⟩, .member, false⟩,
        ⟨"F", ⟨49, 50⟩, .property, false⟩, ⟨"G", ⟨51, 52⟩, .property, false⟩,
        ⟨"C", ⟨66, 67⟩, .property, true⟩]) = true := by
    refine exists_declared ?_
    decide +kernel
  obtain ⟨hread, hmentioned⟩ := orderly_of_ofTree "/w/a.ts" nestedArguments tree
  have hwell := hread .plain htree
  have hwrites := (hmentioned hwell).1 false o events hscan "P" d hd
  exact ⟨tree, o, events, d, htree, hwell, hscan, hd, hwrites, (hmentioned hwell).2 d hwrites,
    beq_iff_eq.mp hmentions⟩

end Outline

end TypeGraft
