import Mathlib.Logic.Relation
import TypeGraft.Proofs.Outline
import TypeGraft.Proofs.Syntax.Layout

/-!
# A scan, change by change

A scan is a chain of small changes to an outline, each made for one node of the tree, and
declarations are noted in the order in which they are written (`TypeGraft.Outline.scans_ofTree`).
What each change keeps is kept by the scan, so an invariant of outlines is proved by an induction on
the chain, and need not be followed through exports and ambient declarations.
-/

namespace TypeGraft

open Syntax

/-- A node that stands in a tree, at the top of it or further down. -/
def Syntax.Node.Under (node tree : Node) : Prop :=
  Relation.ReflTransGen (fun parent child : Node => child ∈ parent.children) tree node

namespace Syntax.Node

variable {node tree part : Node} {source : Bytes}

theorem Under.refl (tree : Node) : tree.Under tree := Relation.ReflTransGen.refl

theorem Under.trans {middle : Node} (h : node.Under middle) (h' : middle.Under tree) :
    node.Under tree :=
  Relation.ReflTransGen.trans h' h

theorem Under.child (h : node.Under tree) (hpart : part ∈ node.children) : part.Under tree :=
  Relation.ReflTransGen.tail h hpart

theorem Under.namedChild (h : node.Under tree) (hpart : part ∈ node.namedChildren) :
    part.Under tree :=
  h.child (List.mem_of_mem_filter hpart)

/-- A node of a well-formed tree lies in it. -/
theorem WellFormed.under (h : tree.WellFormed source) (hnode : node.Under tree) :
    node.LiesIn source tree.span := by
  induction hnode with
  | refl => exact h.self
  | tail _ hchild ih => exact (ih.wellFormed.child hchild).mono ih.inside

end Syntax.Node

namespace Outline

variable {strict : Bool} {tree : Node} {o o' : Outline} {events : List Event} {path : String}
  {source : Bytes}

/-- **What a scan does** for a part of a tree, change by change, and what it warns of. Only a
declaration needs a place of its own. -/
inductive Scans (strict : Bool) (tree : Node) : Span → Outline → List Event → Outline → Prop where
  | nothing {o : Outline} (position : Int) : Scans strict tree ⟨position, position⟩ o [] o
  /-- A name is exported as the default. -/
  | default {o : Outline} (name : String) (position : Int) :
      Scans strict tree ⟨position, position⟩ o [] (exportDefault name o)
  /-- An import is noted. -/
  | imports {o : Outline} {node : Node} (hnode : node.Under tree) (position : Int) :
      Scans strict tree ⟨position, position⟩ o [] (addImport node o)
  /-- Exports are noted. -/
  | exports {o : Outline} {node : Node} (hnode : node.Under tree) (position : Int) :
      Scans strict tree ⟨position, position⟩ o [] (addExports node o)
  /-- A declaration is noted. -/
  | declares {o o' : Outline} {statement node : Node} {d : Declaration} {events : List Event}
      (hstatement : statement.Under tree) (hnode : node.Under statement)
      (hd : declaration? o.path o.source statement node = some d)
      (h : declare strict d o = .ok (o', events)) : Scans strict tree node.span o events o'
  /-- One thing is done after the other, further on. -/
  | both {o o₁ o' : Outline} {events more : List Event} {first last middle : Int}
      (h : Scans strict tree ⟨first, middle⟩ o events o₁)
      (h' : Scans strict tree ⟨middle, last⟩ o₁ more o') :
      Scans strict tree ⟨first, last⟩ o (events ++ more) o'
  | within {o o' : Outline} {events : List Event} {base wide : Span}
      (h : Scans strict tree base o events o') (hwide : base.In wide) :
      Scans strict tree wide o events o'

theorem Scans.silent {base : Span} {position : Int}
    (h : Scans strict tree ⟨position, position⟩ o events o')
    (hposition : base.start ≤ position ∧ position ≤ base.stop) :
    Scans strict tree base o events o' :=
  h.within ⟨hposition.1, le_rfl, hposition.2⟩

mutual

theorem scans_visit {strict : Bool} {tree statement : Node} (htree : tree.WellFormed source)
    (hstatement : statement.Under tree) {o o' : Outline} {events : List Event}
    {name : Option String} :
    (node : Node) → node.Under statement → visit strict statement o node = .ok (o', events, name) →
      Scans strict tree node.span o events o'
  | .mk kind field span children, hnode, h => by
    have hwell := (htree.under (hnode.trans hstatement)).wellFormed
    have hstart : span.start ≤ span.start ∧ span.start ≤ span.stop := ⟨le_rfl, hwell.range⟩
    cases visited_of_visit h with
    | imports => exact (Scans.imports (hnode.trans hstatement) span.start).silent hstart
    | exports _ hparts =>
      exact scans_visitExport htree (hnode.trans hstatement) children
        (fun _ hc => (Node.Under.refl _).child hc) hparts
    | ambient _ hparts =>
      exact scans_visitAmbient htree hstatement hwell.range children (fun _ hc => hnode.child hc)
        hwell.row hparts
    | nothing => exact (Scans.nothing span.start).silent hstart
    | declares d hd hdeclare => exact .declares hstatement hnode hd hdeclare

theorem scans_visitExport {strict : Bool} {tree node : Node} (htree : tree.WellFormed source)
    (hnode : node.Under tree) {o o' : Outline} {events : List Event} {name : Option String} :
    (children : List Node) → (∀ child ∈ children, child.Under node) →
      visitExport strict node o children = .ok (o', events, name) →
        Scans strict tree node.span o events o'
  | [], _, h => by
    have hstart : node.span.start ≤ node.span.start ∧ node.span.start ≤ node.span.stop :=
      ⟨le_rfl, (htree.under hnode).wellFormed.range⟩
    cases exportVisited_of_visitExport h with
    | nothing => exact (Scans.nothing node.span.start).silent hstart
    | default text => exact (Scans.default text node.span.start).silent hstart
    | exports => exact (Scans.exports hnode node.span.start).silent hstart
  | child :: rest, hchildren, h => by
    have hchild := hchildren child List.mem_cons_self
    have hinside := ((htree.under hnode).wellFormed.under hchild).inside
    cases exportVisited_of_visitExport h with
    | declares _ hvisit => exact (scans_visit htree hnode child hchild hvisit).within hinside
    | @declaresDefault _ _ o₁ _ text _ hvisit =>
      -- what is declared is noted as the default behind it
      refine Scans.within ?_ hinside
      rw [← List.append_nil events]
      exact (scans_visit htree hnode child hchild hvisit).both (.default text child.span.stop)
    | later _ hparts =>
      exact scans_visitExport htree hnode rest
        (fun c hc => hchildren c (List.mem_cons_of_mem _ hc)) hparts

theorem scans_visitAmbient {strict : Bool} {tree statement : Node} (htree : tree.WellFormed source)
    (hstatement : statement.Under tree) {o o' : Outline} {events : List Event}
    {name : Option String} {base : Span} (hbase : base.start ≤ base.stop) :
    (children : List Node) → (∀ child ∈ children, child.Under statement) →
      Span.Row base (children.map (·.span)) →
      visitAmbient strict statement o children = .ok (o', events, name) →
        Scans strict tree base o events o'
  | [], _, _, h => by
    cases ambientVisited_of_visitAmbient h with
    | nothing => exact (Scans.nothing base.start).silent ⟨le_rfl, hbase⟩
  | child :: rest, hchildren, hrow, h => by
    have hrest := fun c hc => hchildren c (List.mem_cons_of_mem _ hc)
    have hchild := hchildren child List.mem_cons_self
    have hinside := hrow.inside child.span List.mem_cons_self
    cases ambientVisited_of_visitAmbient h with
    | declares hvisit => exact (scans_visit htree hstatement child hchild hvisit).within hinside
    | both hvisit hparts =>
      have hfirst : child.span.In ⟨base.start, child.span.stop⟩ := ⟨hinside.1, hinside.2.1, le_rfl⟩
      exact ((scans_visit htree hstatement child hchild hvisit).within hfirst).both
        (scans_visitAmbient htree hstatement hinside.2.2 rest hrest hrow.behind hparts)
    | later hparts => exact scans_visitAmbient htree hstatement hbase rest hrest hrow.tail hparts

end

/-- **A scan of a tree** is a chain of changes, each made for one node of it. -/
theorem scans_ofTree (htree : tree.WellFormed source)
    (h : ofTree strict path source tree = .ok (o, events)) :
    Scans strict tree tree.span (empty path source) events o := by
  have hall : ∀ (nodes : List Node) (base : Span) (o₀ : Outline) (events : List Event),
      base.start ≤ base.stop → (∀ node ∈ nodes, node.Under tree) →
      Span.Row base (nodes.map (·.span)) →
        visitAll strict o₀ nodes = .ok (o, events) → Scans strict tree base o₀ events o := by
    intro nodes
    induction nodes with
    | nil =>
      intro base o₀ events hbase _ _ h
      obtain ⟨rfl, rfl⟩ := Prod.mk.inj (Except.ok.inj h)
      exact (Scans.nothing base.start).silent ⟨le_rfl, hbase⟩
    | cons node rest ih =>
      intro base o₀ events _ hnodes hrow h
      have hnode := hnodes node List.mem_cons_self
      have hinside := hrow.inside node.span List.mem_cons_self
      obtain ⟨o₁, first, name, more, hvisit, hmore, rfl⟩ := exists_of_visitAll_cons h
      have hfirst : node.span.In ⟨base.start, node.span.stop⟩ := ⟨hinside.1, hinside.2.1, le_rfl⟩
      exact ((scans_visit htree hnode node (.refl node) hvisit).within hfirst).both
        (ih _ o₁ _ hinside.2.2 (fun n hn => hnodes n (List.mem_cons_of_mem _ hn)) hrow.behind hmore)
  refine hall _ _ _ _ htree.range (fun node hnode => (Node.Under.refl tree).namedChild hnode) ?_ h
  exact htree.row.sublist (List.filter_sublist.map _)

end Outline

end TypeGraft
