import TypeGraft.Proofs.Inlining
import TypeGraft.Proofs.Outline.Strictness
import TypeGraft.Proofs.Resolution.Reading
import TypeGraft.Proofs.Splice.Apart

/-!
# Strict runs and lenient ones

A strict run differs from a lenient one in two ways: a file that declares a name twice is a fault,
and a fault ends the run, where a lenient one reports it and hands the component back as it was. Up
to the first name that is declared twice the two go side by side (`TypeGraft.Harvest.Beside`), one
step of the search after the other, and so a strict run that comes to a result comes to the lenient
one (`TypeGraft.strict_and_lenient_agree`). A lenient run says nothing about such names, so a strict
one may fail where the lenient one succeeds, and it may fail earlier than the lenient one, at
another fault.

Errors are compared by their messages. The message for a script that is not of its dialect names the
file, but not the place in it (`TypeGraft.Script.tree`), so two such messages for a file are the
same here wherever it goes wrong.
-/

namespace TypeGraft

variable {world : World} {project : Project} {path code : String}

namespace Harvest

variable {α : Type} {s s' : Harvest} {o : Outline} {requests : List RootRequest} {external : Bool}
  {clean : Cleaning}

/-- The same harvest, but names that are declared twice are no error. -/
def lenient (s : Harvest) : Harvest := { s with strict := false }

/-- **A strict search beside a lenient one**: the two come to the same, or the strict one fails at a
name that a file declares twice. -/
def Beside (strict lenient : Harvest × Except Failure α) : Prop :=
  lenient = (strict.1.lenient, strict.2) ∨
    ∃ fault, strict.2 = .error (.fault fault) ∧ fault.IsRedeclaration

theorem strict_look (s : Harvest) (o : Outline) (q : Query) : (s.look o q).1.strict = s.strict :=
  congrArg (fun p => p.1.strict) (look_under s s.strict s.reads o q)

theorem look_lenient (s : Harvest) (o : Outline) (q : Query) :
    s.lenient.look o q = ((s.look o q).1.lenient, (s.look o q).2) := by
  have hsame : (s.look o q).1.lenient = (s.look o q).1.under false s.reads := by
    rw [← reads_look s o q]
    rfl
  rw [hsame]
  exact look_under s false s.reads o q

/-- **The outline of a file**, which a strict search may fail to find. -/
theorem beside_outlineOf (world : World) (hs : s.strict = true) (path : String) :
    Beside (s.outlineOf world path) (s.lenient.outlineOf world path) := by
  have hfiles : s.lenient.files = s.files := rfl
  unfold outlineOf
  rw [hfiles]
  cases s.files.get? path with
  | some o => exact Or.inl rfl
  | none =>
    dsimp only
    cases world.read path with
    | error fault => exact Or.inl rfl
    | ok source =>
      dsimp only
      rw [hs]
      rcases Script.stricter_outline path source with heq | ⟨fault, hfault, hre⟩
      · have hlenient : Script.outline s.lenient.strict path source =
            Script.outline true path source :=
          heq.symm
        rw [hlenient]
        cases Script.outline true path source <;> exact Or.inl rfl
      · rw [hfault]
        exact Or.inr ⟨fault, rfl, hre⟩

theorem beside_moduleOutline (world : World) (hs : s.strict = true) (origin specifier : String)
    (queries : List Query) : Beside (s.moduleOutline world origin specifier queries)
      (s.lenient.moduleOutline world origin specifier queries) := by
  unfold moduleOutline
  generalize world.locate specifier origin = located
  obtain ⟨result, events⟩ := located
  cases result with
  | error failure => exact Or.inl rfl
  | ok found =>
    cases found with
    | none => exact Or.inl rfl
    | some path =>
      rcases beside_outlineOf (s := s.log events) world hs path with heq | ⟨fault, hfault, hre⟩
      · have heq : (s.lenient.log events).outlineOf world path = _ := heq
        dsimp only
        rw [heq]
        exact Or.inl rfl
      · dsimp only
        rw [hfault]
        exact Or.inr ⟨fault, rfl, hre⟩

theorem strict_moduleOutline (world : World) (s : Harvest) (origin specifier : String)
    (queries : List Query) :
    (s.moduleOutline world origin specifier queries).1.strict = s.strict := by
  obtain ⟨files, reads, events, heq⟩ := exists_moduleOutline world s origin specifier queries
  rw [heq]

end Harvest

namespace Resolution

variable {r : Resolution}

/-- The same search, but names that are declared twice are no error. -/
def lenient (r : Resolution) : Resolution := { r with harvest := r.harvest.lenient }

/-- The same, but names that are declared twice are no error. -/
def Progress.lenient : Progress → Progress
  | running r => running r.lenient
  | finished s => finished s.lenient
  | failed s failure => failed s.lenient failure

/-- A strict step beside a lenient one. -/
def Progress.Beside (strict lenient : Progress) : Prop :=
  lenient = strict.lenient ∨
    ∃ s fault, strict = .failed s (.fault fault) ∧ fault.IsRedeclaration

theorem strict_step (world : World) (r : Resolution) :
    (step world r).harvest.strict = r.harvest.strict := by
  generalize hstep : step world r = p
  cases step_eq_iff.mp hstep with
  | done | regroup | stars => rfl
  | leave => rfl
  | @names s s' o q _ _ _ _ _ hlook =>
    change s'.strict = s.strict
    rw [← Harvest.strict_look s o q, hlook]
  | module henter | star _ henter =>
    rw [henter.harvest_eq]
    exact Harvest.strict_moduleOutline world _ _ _ _

/-- **Going into a module** in a strict search, beside doing so in a lenient one. -/
theorem beside_enter (world : World) {s : Harvest} (hs : s.strict = true) (frame : Frame)
    (rest : List Frame) (specifier : String) (queries : List Query) :
    (enter world s frame rest specifier queries).Beside
      (enter world s.lenient frame rest specifier queries) := by
  unfold enter
  rcases Harvest.beside_moduleOutline world hs frame.outline.path specifier queries with
    heq | ⟨fault, hfault, hre⟩
  · rw [heq]
    obtain ⟨s', result⟩ := s.moduleOutline world frame.outline.path specifier queries
    cases result with
    | error failure => exact Or.inl rfl
    | ok found => cases found <;> exact Or.inl rfl
  · generalize s.moduleOutline world frame.outline.path specifier queries = found at hfault ⊢
    obtain ⟨s', result⟩ := found
    obtain rfl : result = _ := hfault
    exact Or.inr ⟨s', fault, rfl, hre⟩

/-- **A step** of a strict search, beside that of a lenient one. -/
theorem beside_step (world : World) (hr : r.harvest.strict = true) :
    (step world r).Beside (step world r.lenient) := by
  generalize hstep : step world r = p
  cases step_eq_iff.mp hstep with
  | done => exact Or.inl Stepped.done.step_eq
  | @names s s' o q _ _ _ _ found hlook =>
    have hlook : s.lenient.look o q = (s'.lenient, found) := by rw [Harvest.look_lenient, hlook]
    exact Or.inl (Stepped.names hlook).step_eq
  | regroup => exact Or.inl Stepped.regroup.step_eq
  | module henter =>
    rw [← enter_eq_iff.mpr henter]
    exact beside_enter world hr _ _ _ _
  | stars => exact Or.inl Stepped.stars.step_eq
  | @star s o specifier specifiers pending rest _ hmissing henter =>
    have hlenient : Stepped world ⟨s.lenient, ⟨o, .stars (specifier :: specifiers) pending⟩ :: rest⟩
        (enter world s.lenient ⟨o, .stars specifiers (s.stillMissing pending)⟩ rest specifier
          (s.stillMissing pending)) := .star hmissing (enter_eq_iff.mp rfl)
    rw [lenient, hlenient.step_eq, ← enter_eq_iff.mpr henter]
    exact beside_enter world hr _ _ _ _
  | @leave s _ specifiers pending _ hend =>
    have hend : specifiers = [] ∨ s.lenient.stillMissing pending = [] := hend
    exact Or.inl (Stepped.leave hend).step_eq

/-- Going on with a strict search, beside going on with a lenient one. -/
theorem beside_advance (world : World) (steps : Nat) (hr : r.harvest.strict = true) :
    (advance world steps r).Beside (advance world steps r.lenient) ∧
      (advance world steps r).harvest.strict = true := by
  induction steps generalizing r with
  | zero => exact ⟨Or.inl rfl, hr⟩
  | succ steps ih =>
    have hstrict := (strict_step world r).trans hr
    rw [advance, advance]
    rcases beside_step world hr with heq | ⟨s, fault, hfault, hre⟩
    · rw [heq]
      cases hstep : step world r with
      | running next =>
        rw [hstep] at hstrict
        have hfiles : r.lenient.harvest.files.length = r.harvest.files.length := rfl
        have hfiles' : next.lenient.harvest.files.length = next.harvest.files.length := rfl
        dsimp only [Progress.lenient]
        rw [hfiles, hfiles']
        split
        · exact ih hstrict
        · exact ⟨Or.inl rfl, hstrict⟩
      | finished s =>
        rw [hstep] at hstrict
        exact ⟨Or.inl rfl, hstrict⟩
      | failed s failure =>
        rw [hstep] at hstrict
        exact ⟨Or.inl rfl, hstrict⟩
    · rw [hfault] at hstrict ⊢
      exact ⟨Or.inr ⟨s, fault, rfl, hre⟩, hstrict⟩

/-- **A strict run beside a lenient one.** -/
theorem beside_run (world : World) (reads : Nat) (hr : r.harvest.strict = true) :
    Harvest.Beside (run world reads r).outcome (run world reads r.lenient).outcome := by
  induction reads generalizing r with
  | zero => exact Or.inl rfl
  | succ reads ih =>
    have hallowance : r.lenient.allowance = r.allowance := rfl
    obtain ⟨hbeside, hstrict⟩ := beside_advance world r.allowance hr
    rw [run, run, hallowance]
    rcases hbeside with heq | ⟨s, fault, hfault, hre⟩
    · rw [heq]
      cases hadvance : advance world r.allowance r with
      | running next =>
        rw [hadvance] at hstrict
        exact ih hstrict
      | finished s => exact Or.inl rfl
      | failed s failure => exact Or.inl rfl
    · rw [hfault]
      exact Or.inr ⟨fault, rfl, hre⟩

end Resolution

namespace Harvest

variable {s : Harvest} {o : Outline} {requests : List RootRequest} {external : Bool}
    {clean : Cleaning}

theorem beside_search (world : World) (hs : s.strict = true) (o : Outline)
    (requests : List RootRequest) (external : Bool) : Beside (s.search world o requests external)
      (s.lenient.search world o requests external) := by
  rw [search_eq, search_eq]
  exact Resolution.beside_run world _ (r := s.begun o requests external) hs

theorem splice_lenient (s : Harvest) (orders : Orders) (clean : Cleaning) :
    s.lenient.splice orders clean = (s.splice orders clean).map fun p => (p.1.lenient, p.2) := by
  have hunder := splice_under s false s.reads orders clean
  cases hsplice : s.splice orders clean with
  | error failure =>
    rw [hsplice] at hunder
    exact hunder
  | ok spliced =>
    obtain ⟨⟨grafts, events, heq⟩, -⟩ := exists_splice hsplice
    have hreads : spliced.1.reads = s.reads := by rw [heq]
    rw [hsplice] at hunder
    refine hunder.trans (congrArg Except.ok (Prod.ext ?_ rfl))
    change spliced.1.under false s.reads = spliced.1.lenient
    rw [← hreads]
    rfl

/-- **A strict search that is spliced, beside a lenient one.** Splicing does not ask whether the
search was strict. -/
theorem beside_searchAndSplice (world : World) (hs : s.strict = true) (o : Outline)
    (requests : List RootRequest) (external : Bool) (clean : Cleaning) :
    Beside (s.searchAndSplice world o requests external clean)
      (s.lenient.searchAndSplice world o requests external clean) := by
  unfold searchAndSplice
  rcases beside_search world hs o requests external with heq | ⟨fault, hfault, hre⟩
  · rw [heq]
    obtain ⟨found, result⟩ := s.search world o requests external
    cases result with
    | error failure => exact Or.inl rfl
    | ok =>
      have horders : found.lenient.orders = (found.orders.1.lenient, found.orders.2) := rfl
      dsimp only
      rw [horders]
      dsimp only
      rw [splice_lenient]
      cases found.orders.1.splice found.orders.2 clean with
      | error failure => exact Or.inl rfl
      | ok spliced => exact Or.inl rfl
  · generalize s.search world o requests external = found at hfault ⊢
    obtain ⟨s', result⟩ := found
    obtain rfl : result = _ := hfault
    exact Or.inr ⟨fault, rfl, hre⟩

end Harvest

/-! ### Inlining -/

/-- **A script that is opened strictly**, or not, is the same to a search. -/
theorem SetupScript.open_lenient (script : SetupScript) (path : String) :
    script.open_ false path = (script.open_ true path).map (fun p => (p.1.lenient, p.2)) ∨
      ∃ fault, script.open_ true path = .error fault ∧ fault.IsRedeclaration := by
  unfold open_
  rcases Outline.stricter_ofTree path script.source script.tree with heq | ⟨fault, hfault, hre⟩
  · rw [heq]
    refine Or.inl ?_
    cases Outline.ofTree false path script.source script.tree <;> rfl
  · rw [hfault]
    exact Or.inr ⟨fault, rfl, hre⟩

theorem SetupScript.strict_of_open {script : SetupScript} {strict : Bool} {s : Harvest}
    {o : Outline} (h : script.open_ strict path = .ok (s, o)) : s.strict = strict := by
  obtain ⟨events, -, rfl⟩ := exists_scan_of_open h
  rfl

/-- **A strict run beside a lenient one.** -/
inductive Run.Beside (code : String) (strict lenient : Run Inlined) : Prop
  /-- Both come to the same. -/
  | same (inlined : Inlined) (h : strict.outcome = .ok inlined) (herror : inlined.error = none)
    (heq : lenient = strict)
  /-- The strict run fails, and the lenient one leaves the component as it is. -/
  | told (fault : Fault) (h : strict.outcome = .error (.fault fault))
    (hlenient : lenient.outcome = .ok (.unchanged code (some fault.message)))
  /-- The strict run fails at a name that is declared twice. -/
  | redeclared (fault : Fault) (h : strict.outcome = .error (.fault fault))
    (hre : fault.IsRedeclaration)
  /-- Both fail in the same way, with an error that is not told. -/
  | untold (failure : Failure) (h : strict.outcome = .error failure)
    (hfault : ∀ fault, failure ≠ .fault fault) (hlenient : lenient.outcome = .error failure)

theorem Run.beside_giveUp (fault : Fault) (reads reads' : List String)
    (events events' : List Event) :
    Run.Beside code (giveUp true path code reads events fault)
      (giveUp false path code reads' events' fault) :=
  .told fault rfl rfl

/-- **The types of a script**, inlined strictly and otherwise. -/
theorem SetupScript.beside_inlineTypes {macros : List String} {script : SetupScript} (world : World)
    (clean : Cleaning) (hcomponent : ofComponent? macros path code = .ok (some script)) :
    Run.Beside code (script.inlineTypes world clean true path code)
      (script.inlineTypes world clean false path code) := by
  rcases script.open_lenient path with heq | ⟨fault, hfault, hre⟩
  · cases hopen : script.open_ true path with
    | error fault =>
      rw [hopen] at heq
      unfold inlineTypes
      rw [hopen, heq]
      exact Run.beside_giveUp _ _ _ _ _
    | ok opened =>
      obtain ⟨s, o⟩ := opened
      rw [hopen] at heq
      have hbeside :=
        Harvest.beside_searchAndSplice world (strict_of_open hopen) o script.rootRequests
          false clean
      cases hends : s.searchAndSplice world o script.rootRequests false clean with
      | mk ended result =>
        rw [hends] at hbeside
        unfold inlineTypes
        rw [hopen, heq]
        dsimp only [Except.map]
        rw [hends]
        rcases hbeside with hlenient | ⟨fault, hfault, hre⟩
        · rw [hlenient]
          cases result with
          | error failure =>
            cases failure with
            | fault fault => exact Run.beside_giveUp _ _ _ _ _
            | _ => exact .untold _ rfl (fun _ => by simp) rfl
          | ok spliced =>
            obtain ⟨orders, spliced⟩ := spliced
            obtain ⟨newCode, hnewCode⟩ := exists_newCode hcomponent hopen hends
            dsimp only
            rw [hnewCode]
            exact .same _ rfl rfl rfl
        · obtain rfl : result = _ := hfault
          exact .redeclared fault rfl hre
  · refine .redeclared fault ?_ hre
    unfold inlineTypes
    rw [hfault]
    rfl

theorem beside_inlineTypes (world : World) (project : Project) (path code : String) :
    Run.Beside code (inlineTypes world project true path code)
      (inlineTypes world project false path code) := by
  unfold inlineTypes
  cases hcomponent : SetupScript.ofComponent? project.macros path code with
  | error fault => exact Run.beside_giveUp _ _ _ _ _
  | ok script? =>
    cases script? with
    | none => exact .same _ rfl rfl rfl
    | some script =>
      dsimp only
      split
      · exact .same _ rfl rfl rfl
      · exact SetupScript.beside_inlineTypes world project.cleaning hcomponent

/-- **Strict runs and lenient ones agree.** If a strict run comes to a component, a lenient one does
the same, without an error. If a lenient run tells an error, a strict one fails with that error, or
at a name that a file declares twice. If a strict run fails with another error than that, a lenient
one leaves the component as it is and tells the error. What is not told as an error ends both. That
it is the same error is meant up to the place in a file that is no script. -/
theorem strict_and_lenient_agree (world : World) (project : Project) (path code : String) :
    (∀ inlined, (inlineTypes world project true path code).outcome = .ok inlined →
      inlined.error = none ∧
        inlineTypes world project false path code = inlineTypes world project true path code) ∧
    (∀ inlined message, (inlineTypes world project false path code).outcome = .ok inlined →
      inlined.error = some message →
        ∃ fault, (inlineTypes world project true path code).outcome = .error (.fault fault) ∧
          (fault.message = message ∨ fault.IsRedeclaration)) ∧
    (∀ fault, (inlineTypes world project true path code).outcome = .error (.fault fault) →
      ¬fault.IsRedeclaration → (inlineTypes world project false path code).outcome =
        .ok (.unchanged code (some fault.message))) ∧
    ∀ failure, (inlineTypes world project true path code).outcome = .error failure →
      (∀ fault, failure ≠ .fault fault) →
        (inlineTypes world project false path code).outcome = .error failure := by
  have hbeside := beside_inlineTypes world project path code
  generalize inlineTypes world project true path code = strict at hbeside ⊢
  generalize inlineTypes world project false path code = lenient at hbeside ⊢
  refine ⟨fun inlined hinlined => ?_, fun inlined message hinlined hmessage => ?_,
    fun fault hfault hother => ?_, fun failure hfailure hother => ?_⟩
  · cases hbeside with
    | same inlined' h herror heq =>
      obtain rfl := Except.ok.inj (h.symm.trans hinlined)
      exact ⟨herror, heq⟩
    | told fault h => exact absurd (h.symm.trans hinlined) (by simp)
    | redeclared fault h => exact absurd (h.symm.trans hinlined) (by simp)
    | untold failure h => exact absurd (h.symm.trans hinlined) (by simp)
  · cases hbeside with
    | same inlined' h herror heq =>
      rw [heq, h] at hinlined
      rw [Except.ok.inj hinlined, hmessage] at herror
      exact absurd herror (by simp)
    | told fault h hlenient =>
      refine ⟨fault, h, Or.inl (Option.some.inj (Eq.trans ?_ hmessage))⟩
      rw [← Except.ok.inj (hlenient.symm.trans hinlined)]
      rfl
    | redeclared fault h hre => exact ⟨fault, h, Or.inr hre⟩
    | untold failure h _ hlenient => exact absurd (hlenient.symm.trans hinlined) (by simp)
  · cases hbeside with
    | same inlined h => exact absurd (h.symm.trans hfault) (by simp)
    | told fault' h hlenient =>
      rw [Failure.fault.inj (Except.error.inj (h.symm.trans hfault))] at hlenient
      exact hlenient
    | redeclared fault' h hre =>
      rw [Failure.fault.inj (Except.error.inj (h.symm.trans hfault))] at hre
      exact absurd hre hother
    | untold failure h hnot =>
      exact absurd (Except.error.inj (h.symm.trans hfault)) (hnot fault)
  · cases hbeside with
    | same inlined h => exact absurd (h.symm.trans hfailure) (by simp)
    | told fault h => exact absurd (Except.error.inj (hfailure.symm.trans h)) (hother fault)
    | redeclared fault h => exact absurd (Except.error.inj (hfailure.symm.trans h)) (hother fault)
    | untold failure' h _ hlenient =>
      rw [Except.error.inj (h.symm.trans hfailure)] at hlenient
      exact hlenient

/-! ### A module that is no script -/

/-- A module that is no script. -/
def World.brokenModule : World :=
  .ofTree ⟨["w"], [(["w", "a.ts"], Bytes.ofString "export type =\n")]⟩ []

/-- A script that asks for what is in a module. -/
def importsOne : String := "\nimport \x7b A \x7d from './a'\ndefineProps<A>()\n"

set_option maxRecDepth 100000 in
/-- Where the module is a script, both runs come to the same. Where it is not, the strict one fails,
and the lenient one tells the error. -/
theorem strict_and_lenient_agree_brokenModule :
    (∃ inlined, (inlineTypes World.baseModule .standard true "/w/App.vue"
        (componentOf fourEdits)).outcome = .ok inlined ∧ inlined.error = none ∧
      inlineTypes World.baseModule .standard false "/w/App.vue" (componentOf fourEdits) =
        inlineTypes World.baseModule .standard true "/w/App.vue" (componentOf fourEdits)) ∧
    ∃ fault, fault = .malformed "/w/a.ts" 0 0 "" ∧
      (inlineTypes World.brokenModule .standard true "/w/App.vue"
        (componentOf importsOne)).outcome = .error (.fault fault) ∧
      (inlineTypes World.brokenModule .standard false "/w/App.vue"
        (componentOf importsOne)).outcome =
        .ok (.unchanged (componentOf importsOne) (some fault.message)) ∧
      ∃ fault', (inlineTypes World.brokenModule .standard true "/w/App.vue"
        (componentOf importsOne)).outcome = .error (.fault fault') ∧
          (fault'.message = fault.message ∨ fault'.IsRedeclaration) := by
  have helement : ScriptElement.setup? (componentOf fourEdits) = some (elementOf fourEdits) :=
    ScriptElement.setup?_componentOf (by decide +kernel)
  obtain ⟨run, -, -⟩ := Inlining.exists_of_comesTo helement
    (show Inlining.comesTo World.baseModule .standard true "/w/App.vue" (componentOf fourEdits)
      (elementOf fourEdits) (fun _ _ _ _ _ _ => true) = true by decide +kernel)
  have hfault : (inlineTypes World.brokenModule .standard true "/w/App.vue"
      (componentOf importsOne)).failure? = some (.fault (.malformed "/w/a.ts" 0 0 "")) := by
    decide +kernel
  have hstrict := Run.outcome_of_failure? hfault
  obtain ⟨hsame, -, -, -⟩ :=
    strict_and_lenient_agree World.baseModule .standard "/w/App.vue" (componentOf fourEdits)
  obtain ⟨-, htold, hlenient, -⟩ :=
    strict_and_lenient_agree World.brokenModule .standard "/w/App.vue" (componentOf importsOne)
  obtain ⟨herror, heq⟩ := hsame run.result run.outcome_eq
  have hlenient :=
    hlenient _ hstrict (by rintro ⟨path, name, first, second, h⟩; exact absurd h (by simp))
  exact ⟨⟨run.result, run.outcome_eq, herror, heq⟩, _, rfl, hstrict, hlenient,
    htold _ _ hlenient rfl⟩

end TypeGraft
