import TypeGraft.Proofs.Component
import TypeGraft.Proofs.Splice.Apart
import TypeGraft.Proofs.Splice.Block

/-!
# What stays of a component

A run that inlines types writes only in the setup script of a component. What comes of the script
(`TypeGraft.Reworked`) is its text with some spans replaced, and the block in front of that, if
there is one; all that stands before and behind the script is kept. What is counted in bytes here
are the edits, in the encoded script, and what is counted in characters is the place of the script
in the component.

The component can be searched for its setup script again after that, with whatever content
(`TypeGraft.ScriptElement.setup?_replaced`), unless a closing tag is written into the script.
-/

namespace TypeGraft

variable {world : World} {project : Project} {strict : Bool} {path code : String}

/-- **A script that was edited in its component**: the result is the component, with the edited
script in the place of the script, and with a block that is not empty in front of that, on lines of
its own. What stands between the edits is kept, in order. -/
structure Reworked (element : ScriptElement) (code block : String) (edits : List Replacement)
    (result : String) : Prop where
  laid : Slots.Laid (.whole (Bytes.ofString element.content)) (edits.map Replacement.slot)
  replaced : ∃ text, Bytes.ofString text =
      Slots.fill (Bytes.ofString element.content) 0 0 (edits.map Replacement.slot) ∧
    result = element.replaced code ((if block = "" then "" else "\n" ++ block ++ "\n") ++ text)
  idle : block = "" → edits = [] → result = code

/-- A component that is left as it is, without edits. -/
theorem reworked_refl {element : ScriptElement} (h : ScriptElement.setup? code = some element) :
    Reworked element code "" [] code where
  laid := Span.Row.nil _
  replaced := by
    refine ⟨element.content, rfl, ?_⟩
    rw [if_pos rfl, String.empty_append, (ScriptElement.setup?_replaced h).1]
  idle := fun _ _ => rfl

/-- Edits that can be made at once are. -/
theorem Harvest.Editable.applyAll_eq {source : Bytes} {edits : List Replacement}
    (h : Harvest.Editable source edits) :
    Slots.Laid (.whole source) (edits.map Replacement.slot) ∧
      Replacement.applyAll source (.whole source) edits =
        .ok (Slots.fill source 0 0 (edits.map Replacement.slot)) := by
  have hapart : edits.Pairwise fun a b => a.span.Apart b.span := h.apart.imp Span.Before.apart
  have hsame : Replacement.inOrder edits = edits := List.mergeSort_of_pairwise h.sorted
  have hlaid := Replacement.laid_inOrder h.inside hapart
  have hlength : (Span.whole source).stop - (Span.whole source).start ≤ source.length := by
    simp [Span.whole]
  have happly := Replacement.applyAll_eq h.inside hapart hlength
  rw [hsame] at hlaid happly
  exact ⟨hlaid, happly⟩

/-- **What is made of a script** by its edits and its block. -/
theorem SetupScript.reworked_of_newCode {script : SetupScript} {spliced : Splice} {result : String}
    (helement : ScriptElement.setup? code = some script.element)
    (hsource : script.source = Bytes.ofString script.element.content)
    (heditable : Harvest.Editable script.source spliced.edits)
    (h : script.newCode code spliced = .ok result) :
    Reworked script.element code spliced.block spliced.edits result := by
  obtain ⟨hlaid, happly⟩ := heditable.applyAll_eq
  obtain ⟨bytes, hbytes, hencoded⟩ := heditable.applies
  obtain rfl := Except.ok.inj (hbytes.symm.trans happly)
  obtain ⟨text, htext⟩ := hencoded (hsource ▸ Bytes.encoded_ofString _)
  rw [hsource] at hlaid htext
  unfold newCode at h
  split at h
  · next hnothing =>
    obtain ⟨hblock, hedits⟩ := hnothing
    obtain rfl := Except.ok.inj h
    rw [hblock, hedits]
    exact reworked_refl helement
  · next hsomething =>
    refine ⟨hlaid, ⟨text, htext, ?_⟩, fun hblock hedits => absurd ⟨hblock, hedits⟩ hsomething⟩
    unfold edited at h
    rw [happly, hsource, ← htext] at h
    dsimp only at h
    rw [Bytes.toString?_ofString] at h
    dsimp only at h
    rw [← Except.ok.inj h]
    split
    · rw [String.empty_append]
      rfl
    · rfl

/-- Nothing is emitted just where the block is empty. -/
theorem Harvest.block_eq_empty_iff {s : Harvest} {bodies : Table Key Bytes} {keys : List Key}
    {block : String} (hkeys : ∀ key ∈ keys, (s.graft? key).isSome)
    (h : s.block bodies keys = .ok block) : block = "" ↔ keys = [] := by
  have hrendered :
      ∀ (e : Graft) (bases : List String) (body : String), rendered e bases body ≠ "" := by
    intro e bases body
    unfold rendered
    dsimp only
    split <;> simp [toString]
  unfold Harvest.block at h
  cases hlines : keys.mapM (s.render bodies) with
  | error failure =>
    rw [hlines] at h
    exact absurd h (by simp [Except.map])
  | ok lines =>
    rw [hlines] at h
    obtain rfl := Except.ok.inj h
    have hall := forall₂_of_mapM hlines
    cases hall with
    | nil => simp
    | @cons key line keys lines hline =>
      obtain ⟨e, he⟩ := Option.isSome_iff_exists.mp (hkeys key List.mem_cons_self)
      have hwritten : line ≠ "" := by
        unfold render at hline
        rw [he] at hline
        dsimp only at hline
        split at hline
        · exact absurd hline (by simp)
        · split at hline
          · rw [← Except.ok.inj hline]
            exact hrendered _ _ _
          · exact absurd hline (by simp)
      refine ⟨fun hempty => absurd hempty ?_, fun h => absurd h (by simp)⟩
      cases lines with
      | nil => rwa [String.intercalate_singleton]
      | cons other lines =>
        rw [String.intercalate_cons_cons]
        simp

namespace Inlining

variable {element : ScriptElement}

/-- The run for a component is about its setup script. -/
theorem element_eq (run : Inlining world project strict path code)
    (h : ScriptElement.setup? code = some element) :
    run.script.element = element ∧ run.script.source = Bytes.ofString element.content := by
  have hstands := SetupScript.ofComponent?_eq_iff.mp run.component
  obtain rfl : run.script.element = element := Option.some.inj (hstands.element.symm.trans h)
  exact ⟨rfl, hstands.source⟩

/-- **What a run makes of its component.** -/
theorem reworked (run : Inlining world project strict path code)
    (h : ScriptElement.setup? code = some element) :
    (run.splice.block = "" ↔ run.splice.emitted = []) ∧
      Reworked element code run.splice.block run.splice.edits run.newCode := by
  obtain ⟨rfl, hsource⟩ := run.element_eq h
  obtain ⟨found, hsearch, horders, hsplice⟩ := Harvest.exists_search_of_searchAndSplice run.ends
  constructor
  · obtain ⟨-, -, hemitted, own, -, hblock⟩ := Harvest.exists_splice hsplice
    rw [Harvest.block_eq_empty_iff (fun key hkey => (Harvest.of_mem_blockKeys hkey).2) hblock,
      hemitted, List.map_eq_nil_iff]
  · rw [← horders] at hsplice
    have heditable := run.session.session.editable_of_splice hsearch hsplice
    rw [(SetupScript.opened world run.opens).2.2.2] at heditable
    exact SetupScript.reworked_of_newCode h hsource heditable run.inserts

end Inlining

/-- **Only the script changes.** When types are inlined into a component with a setup script, and
without an error, nothing but the script is changed: some spans of it are replaced, and the block is
put in front of it if anything is emitted. The component is left as it is where there is neither a
block nor an edit. And whatever is written into the script, it is found at the same position, with
the same attributes and as it was written, unless that is a closing tag. -/
theorem reworked_of_inlineTypes {element : ScriptElement}
    (helement : ScriptElement.setup? code = some element) :
    (∀ inlined, (inlineTypes world project strict path code).outcome = .ok inlined →
      inlined.error = none → ∃ block edits, (block = "" ↔ inlined.emitted = []) ∧
        Reworked element code block edits inlined.code ∧
        (inlined = .unchanged code none ∧ edits = [] ∨
          ∃ run : Inlining world project strict path code, run.result = inlined ∧
            run.script.element = element ∧ run.splice.block = block ∧
            run.splice.edits = edits)) ∧
      ∀ content : String, ¬ScriptElement.HoldsClosingTag content.toList →
        ScriptElement.setup? (element.replaced code content) = some (element.filled content) := by
  refine ⟨fun inlined hinlined herror => ?_, (ScriptElement.setup?_replaced helement).2⟩
  rcases eq_unchanged_or_exists_inlining hinlined herror with rfl | ⟨run, rfl⟩
  · exact ⟨"", [], by simp [Inlined.unchanged], reworked_refl helement, Or.inl ⟨rfl, rfl⟩⟩
  · obtain ⟨hemitted, hreworked⟩ := run.reworked helement
    exact ⟨run.splice.block, run.splice.edits, hemitted, hreworked,
      Or.inr ⟨run, rfl, (run.element_eq helement).1, rfl, rfl⟩⟩

/-- A component with another script in front of its setup script. -/
def twoScripts : String := "<SCRIPT>let a = 'é'\n</SCRIPT >\n" ++ componentOf fourEdits

set_option maxRecDepth 100000 in
/-- The setup script gets a block and four edits, and is found behind the other script. -/
theorem reworked_of_inlineTypes_twoScripts :
    ∃ element inlined block, ScriptElement.setup? twoScripts = some element ∧ element.start = 55 ∧
      (inlineTypes World.baseModule .standard false "/w/App.vue" twoScripts).outcome = .ok inlined ∧
      block ≠ "" ∧ Reworked element twoScripts block
        [⟨⟨1, 37⟩, ""⟩, ⟨⟨49, 51⟩, "G"⟩, ⟨⟨54, 89⟩, ""⟩, ⟨⟨119, 121⟩, "G"⟩] inlined.code ∧
      ScriptElement.setup? (element.replaced twoScripts "'</script' > 1") =
        some (element.filled "'</script' > 1") := by
  have helement : ScriptElement.setup? twoScripts =
      some ⟨fourEdits, 55, 55 + fourEdits.length, [("setup", ""), ("lang", "ts")]⟩ := by
    decide +kernel
  obtain ⟨run, hexpected, honly⟩ := Inlining.exists_of_comesTo helement
    (show Inlining.comesTo World.baseModule .standard false "/w/App.vue" twoScripts _
      (fun _ _ _ _ spliced _ => decide (spliced.emitted ≠ [] ∧ spliced.edits =
        [⟨⟨1, 37⟩, ""⟩, ⟨⟨49, 51⟩, "G"⟩, ⟨⟨54, 89⟩, ""⟩, ⟨⟨119, 121⟩, "G"⟩])) = true by
      decide +kernel)
  obtain ⟨hemits, hedits⟩ := of_decide_eq_true hexpected
  obtain ⟨hreworked, hfound⟩ :=
    @reworked_of_inlineTypes World.baseModule .standard false "/w/App.vue" _ _ helement
  obtain ⟨block, edits, hblock, hreworked, hsame⟩ := hreworked run.result run.outcome_eq rfl
  refine ⟨_, run.result, block, helement, rfl, run.outcome_eq,
    fun hempty => hemits (hblock.mp hempty), ?_, hfound _ ?_⟩
  · rcases hsame with ⟨hunchanged, -⟩ | ⟨run', -, -, -, rfl⟩
    · exact absurd (congrArg Inlined.emitted hunchanged) hemits
    · rw [honly run', hedits] at hreworked
      exact hreworked
  · decide +kernel

end TypeGraft
