import TypeGraft.Files.World
import TypeGraft.Proofs.Inlining
import TypeGraft.Proofs.Splice.Quiet

/-!
# Inlining again

To inline types into what inlining left is not to change nothing more
(`TypeGraft.exists_inlineTypes_twice`). A declaration may mention a name that its own file does not
know. Such a name is left as it is, and when the declaration has come into the script, an import of
the script may give the name a meaning.

What is left alone is a component that is *at rest* (`TypeGraft.AtRest.exists_outcome`): whatever
its script needs is declared in it, as an alias or as an interface that extends no type with
members, or is not imported, or comes from a module that is not there. This is asked of the
component that is given. What inlining makes of a component may be at rest
(`TypeGraft.exists_atRest_extendsForeign`), but need not be, and a component may be left alone
without being at rest.
-/

namespace TypeGraft

variable {world : World} {project : Project} {strict : Bool} {path code : String}

/-- **A component that is at rest**: it has no setup script, or one that is at home. -/
inductive AtRest (world : World) (project : Project) (strict : Bool) (path code : String) :
    Prop where
  | scriptless (hcomponent : SetupScript.ofComponent? project.macros path code = .ok none)
  | script {script : SetupScript} {opened : Harvest} {outline : Outline}
      (hcomponent : SetupScript.ofComponent? project.macros path code = .ok (some script))
      (hopens : script.open_ strict path = .ok (opened, outline))
      (hhome : outline.AtHome world script.rootRequests)

/-- **Nothing is inlined into a component that is at rest.** -/
theorem AtRest.exists_outcome (h : AtRest world project strict path code) :
    ∃ inlined, (inlineTypes world project strict path code).outcome = .ok inlined ∧
      inlined.code = code ∧ inlined.changed = false ∧ inlined.error = none := by
  cases h with
  | scriptless hcomponent =>
    refine ⟨.unchanged code none, ?_, rfl, rfl, rfl⟩
    rw [inlineTypes, hcomponent]
  | @script script opened outline hcomponent hopens hhome =>
    cases hasks : script.requests.isEmpty with
    | true =>
      refine ⟨.unchanged code none, ?_, rfl, rfl, rfl⟩
      rw [inlineTypes, hcomponent]
      dsimp only
      rw [if_pos hasks]
    | false =>
      obtain ⟨hopened, hentry, -, -⟩ := SetupScript.opened world hopens
      obtain ⟨ended, orders, hends⟩ :=
        Harvest.exists_searchAndSplice_of_atHome hopened hentry hhome project.cleaning
      have hinserts : script.newCode code ⟨"", [], []⟩ = .ok code := by
        rw [SetupScript.newCode, if_pos ⟨rfl, rfl⟩]
      let run : Inlining world project strict path code :=
        ⟨script, opened, outline, ended, orders, ⟨"", [], []⟩, code, hcomponent, hasks, hopens,
          hends, hinserts⟩
      exact ⟨run.result, run.outcome_eq, rfl, bne_self_eq_false code, rfl⟩

/-! ### A component that is at rest, and one that is not -/

/-- Whether the script of a component is at home, seen from the names that it needs. -/
def ScriptElement.settles (world : World) (project : Project) (strict : Bool) (path : String)
    (element : ScriptElement) (names : List String) : Bool :=
  let source := Bytes.ofString element.content
  match Script.tree .plain path source with
  | .error _ => false
  | .ok tree =>
    let script : SetupScript := ⟨element, source, tree, Request.ofTree project.macros source tree⟩
    match script.open_ strict path with
    | .error _ => false
    | .ok (_, outline) =>
      script.rootRequests.all (fun r => names.contains r.name) &&
        names.all (outline.settles world names)

theorem atRest_of_settles {element : ScriptElement} {names : List String}
    (helement : ScriptElement.setup? code = some element)
    (h : element.settles world project strict path names = true) :
    AtRest world project strict path code := by
  unfold ScriptElement.settles at h
  dsimp only at h
  split at h
  · exact absurd h (by simp)
  · next tree htree =>
    split at h
    · exact absurd h (by simp)
    · next opened outline hopens =>
      obtain ⟨hrequests, hsettles⟩ := Bool.and_eq_true_iff.mp h
      refine .script ?_ hopens (Outline.atHome_of_settles hrequests hsettles)
      exact SetupScript.ofComponent?_eq_iff.mpr ⟨helement, rfl, htree, rfl⟩

/-- A module with an interface and an alias that it mentions. -/
def World.ownAlias : World :=
  World.ofTree ⟨["w"], [(["w", "a.ts"], Bytes.ofString
    "export interface Foo \x7b f: Bar[] \x7d\ntype Bar = string\n")]⟩ []

/-- A script with an interface that extends the one of the module, and mentions it. -/
def extendsForeign : String :=
  "\nimport \x7b Ref \x7d from 'vue'\nimport \x7b Foo \x7d from './a'\n" ++
    "interface Props extends Foo \x7b g: Ref<Foo> \x7d\ndefineProps<Props>()\n"

/-- What it becomes. The package of the other import is not there. -/
def extendsForeignInlined : String :=
  "\ntype _INLINE_Bar = string;\ninterface _INLINE_Foo \x7b f: _INLINE_Bar[] \x7d\n" ++
    "interface Props \x7b f: _INLINE_Bar[]; g: Ref<_INLINE_Foo> \x7d\n\n" ++
    "import \x7b Ref \x7d from 'vue'\n\n\ndefineProps<Props>()\n"

set_option maxRecDepth 100000 in
/-- **What inlining leaves may be at rest**: all that the script needs has come into it. -/
theorem exists_atRest_extendsForeign :
    ∃ first, (inlineTypes World.ownAlias .standard false "/w/App.vue"
        (componentOf extendsForeign)).outcome = .ok first ∧ first.changed = true ∧
      first.code = componentOf extendsForeignInlined ∧
      AtRest World.ownAlias .standard false "/w/App.vue" first.code := by
  have helement : ScriptElement.setup? (componentOf extendsForeign) =
      some (elementOf extendsForeign) :=
    ScriptElement.setup?_componentOf (by decide +kernel)
  have hinlined : ScriptElement.setup? (componentOf extendsForeignInlined) =
      some (elementOf extendsForeignInlined) :=
    ScriptElement.setup?_componentOf (by decide +kernel)
  obtain ⟨run, hexpected, -⟩ := Inlining.exists_of_comesTo helement
    (show Inlining.comesTo World.ownAlias .standard false "/w/App.vue" (componentOf extendsForeign)
      (elementOf extendsForeign) (fun _ _ _ _ _ newCode =>
        newCode == componentOf extendsForeignInlined && newCode != componentOf extendsForeign) =
          true by decide +kernel)
  obtain ⟨hcode, hchanged⟩ := Bool.and_eq_true_iff.mp hexpected
  have hcode : run.result.code = componentOf extendsForeignInlined := beq_iff_eq.mp hcode
  refine ⟨run.result, run.outcome_eq, hchanged, hcode, ?_⟩
  rw [hcode]
  exact atRest_of_settles hinlined
    (show (elementOf extendsForeignInlined).settles World.ownAlias .standard false "/w/App.vue"
      ["Props", "Ref", "_INLINE_Foo", "_INLINE_Bar"] = true by decide +kernel)

/-- Two modules: an interface that mentions a name that its file does not know, and an alias of that
name. -/
def World.looseMention : World :=
  World.ofTree ⟨["w"],
    [(["w", "a.ts"], Bytes.ofString "export interface Foo \x7b b: Bar[] \x7d\n"),
      (["w", "b.ts"], Bytes.ofString "export type Bar = string\n")]⟩ []

/-- A script that takes both from their modules, and asks for the interface. -/
def takesBoth : String :=
  "\nimport \x7b Foo \x7d from './a'\nimport \x7b Bar \x7d from './b'\ndefineProps<Foo>()\n"

/-- What it becomes. -/
def takesBothInlined : String :=
  "\ninterface Foo \x7b b: Bar[] \x7d\n\n\nimport \x7b Bar \x7d from './b'\ndefineProps<Foo>()\n"

set_option maxRecDepth 100000 in
/-- **Inlining twice may be more than inlining once**: in the script, the name that was not known in
the file of the interface is that of an import. -/
theorem exists_inlineTypes_twice :
    ∃ first second, (inlineTypes World.looseMention .standard false "/w/App.vue"
        (componentOf takesBoth)).outcome = .ok first ∧ first.error = none ∧
      (inlineTypes World.looseMention .standard false "/w/App.vue" first.code).outcome =
        .ok second ∧ second.error = none ∧ second.code ≠ first.code ∧ second.changed = true := by
  have helement : ScriptElement.setup? (componentOf takesBoth) = some (elementOf takesBoth) :=
    ScriptElement.setup?_componentOf (by decide +kernel)
  have hinlined : ScriptElement.setup? (componentOf takesBothInlined) =
      some (elementOf takesBothInlined) :=
    ScriptElement.setup?_componentOf (by decide +kernel)
  obtain ⟨first, hfirst, -⟩ := Inlining.exists_of_comesTo helement
    (show Inlining.comesTo World.looseMention .standard false "/w/App.vue" (componentOf takesBoth)
      (elementOf takesBoth) (fun _ _ _ _ _ newCode => newCode == componentOf takesBothInlined) =
        true by decide +kernel)
  obtain ⟨second, hsecond, -⟩ := Inlining.exists_of_comesTo hinlined
    (show Inlining.comesTo World.looseMention .standard false "/w/App.vue"
      (componentOf takesBothInlined) (elementOf takesBothInlined)
      (fun _ _ _ _ _ newCode => newCode != componentOf takesBothInlined) = true by decide +kernel)
  have hfirst : first.result.code = componentOf takesBothInlined := beq_iff_eq.mp hfirst
  have hsecond : second.result.code ≠ componentOf takesBothInlined := bne_iff_ne.mp hsecond
  refine ⟨first.result, second.result, first.outcome_eq, rfl, ?_, rfl, ?_, ?_⟩
  · rw [hfirst]
    exact second.outcome_eq
  · rw [hfirst]
    exact hsecond
  · exact bne_iff_ne.mpr hsecond

end TypeGraft
