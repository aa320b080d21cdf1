import TypeGraft.Proofs.Syntax.Shape
import TypeGraft.Script

/-!
# The trees of scripts

The grammar of the script language is proper (`TypeGraft.Syntax.Script.sound_grammar`), as a look at
each rule tells. So the tree of a script is well-formed, and no statement of it starts with a line
break (`TypeGraft.Script.isScript_of_tree`).
-/

namespace TypeGraft

namespace Syntax.Script

open Grammar

/-- What the rules may read: imports and exports are statements, and what an interface extends and
what has a role stand in nodes. -/
def table : Mark → Rule → Bool
  | .kind .importStatement, name | .kind .exportStatement, name => name == .statement
  | .kind .extendsClause, _ | .role _, _ => false
  | .kind _, _ => true

theorem may_of_kind (dialect : Dialect) (kind : Kind) (name : Rule) :
    (Rule.grammar dialect name).may table (.kind kind) = true → table (.kind kind) name = true := by
  intro h
  by_cases himport : kind = .importStatement
  · subst himport
    revert h
    cases dialect <;> cases name <;> decide +kernel
  by_cases hexport : kind = .exportStatement
  · subst hexport
    revert h
    cases dialect <;> cases name <;> decide +kernel
  by_cases hextends : kind = .extendsClause
  · subst hextends
    revert h
    cases dialect <;> cases name <;> decide +kernel
  · unfold table
    split <;> simp_all

theorem may_role (dialect : Dialect) (field : Field) (name : Rule) :
    (Rule.grammar dialect name).may table (.role field) = false := by
  cases field <;> cases dialect <;> cases name <;> rfl

theorem proper_grammar (dialect : Dialect) (name : Rule) :
    (Rule.grammar dialect name).proper table = true := by
  cases dialect <;> cases name <;> rfl

theorem whole_grammar (dialect : Dialect) (name : Rule) :
    (Rule.grammar dialect name).whole = true := by
  cases dialect <;> cases name <;> rfl

theorem starts_grammar (dialect : Dialect) (name : Rule) :
    (Rule.grammar dialect name).starts = true ∧ (Rule.grammar dialect name).leads = true := by
  cases dialect <;> cases name <;> exact ⟨rfl, rfl⟩

/-- **The grammar of the script language** reads well-formed nodes. -/
theorem sound_grammar (dialect : Dialect) : Sound (Rule.grammar dialect) table where
  may mark name h := by
    cases mark with
    | kind kind => exact may_of_kind dialect kind name h
    | role field => exact absurd ((may_role dialect field name).symm.trans h) (by decide)
  proper := proper_grammar dialect
  whole := whole_grammar dialect

/-- The statements of a program do not start with line breaks. -/
theorem starts_of_program {dialect : Dialect} {source : Bytes} {c d : Cursor} {nodes : List Node}
    {tree : Node} (h : Reads (Rule.grammar dialect) (.rule .program) c nodes d) (hc : c.At source)
    (htree : tree ∈ nodes) (hkind : tree.kind = .program) :
    ∀ stmt ∈ tree.children, ¬Node.BreaksLine source stmt.span.start := by
  cases h with
  | idle hidle => cases hidle
  | unfold hunfolds h =>
    cases hunfolds
    cases h with
    | idle hidle => cases hidle
    | unfold hunfolds => cases hunfolds
    | @node kind _ _ _ parts hparts =>
      have hstarts := (hparts.starts_and_led hc (starts_grammar dialect)).1 rfl
      obtain ⟨before, rest, rfl, hbefore, -, hgather⟩ := Node.exists_gather .program parts d.offset
      rw [hgather] at htree
      rcases List.mem_append.mp htree with htree | htree
      · have hcomment : tree.kind = .comment := beq_iff_eq.mp (hbefore tree htree)
        exact absurd (hkind.symm.trans hcomment) (by decide)
      · rw [List.mem_singleton.mp htree]
        exact fun stmt hstmt => hstarts stmt (List.mem_append_right _ hstmt)

end Syntax.Script

namespace Script

open Syntax Syntax.Script

theorem exists_reads_of_parse {dialect : Dialect} {source : Bytes} {tree : Node}
    (h : parse dialect source = some tree) : ∃ nodes d,
      Grammar.Reads (Rule.grammar dialect) (.rule .program) (Cursor.start source) nodes d ∧
      tree ∈ nodes ∧ tree.kind = .program := by
  unfold parse at h
  split at h
  · next nodes d hrun =>
    exact ⟨nodes, d, Grammar.reads_of_run hrun, List.mem_of_find?_eq_some h,
      by simpa using List.find?_some h⟩
  · exact absurd h (by simp)
  · exact absurd h (by simp)

/-- **The tree of a script** is well-formed, and no statement of it starts with a line break. -/
theorem isScript_of_tree {dialect : Dialect} {path : String} {source : Bytes} {tree : Node}
    (h : Script.tree dialect path source = .ok tree) : tree.IsScript source := by
  unfold Script.tree at h
  split at h
  · next node hparse =>
    obtain rfl := Except.ok.inj h
    obtain ⟨nodes, d, hreads, hmem, hkind⟩ := exists_reads_of_parse hparse
    have hc := Cursor.At.start source
    exact ⟨hreads.wellFormed hc (sound_grammar dialect) rfl rfl _ hmem, fun stmt hstmt =>
      starts_of_program hreads hc hmem hkind stmt (List.mem_of_mem_filter hstmt)⟩
  · exact absurd h (by simp)

end Script

end TypeGraft
