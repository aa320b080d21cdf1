import TypeGraft.Proofs.Files.Astray
import TypeGraft.Proofs.Reading
import TypeGraft.Proofs.Resolution.Failing
import TypeGraft.Proofs.Splice.Encoding

/-!
# Runs that end without a result

A lenient run reports what is wrong with a file and hands the component back as it was. A specifier
that leads to no file is not even reported as a fault: the search goes on without it. So a lenient
run should always have a result, and there are just two ways in which it has none
(`TypeGraft.Entered.Breaks`, `TypeGraft.inlineTypes_fails_iff`).

* **A specifier leads astray.** The search comes to a specifier for which a place without a name is
  looked at, as it is for `/`, or to which an alias applies that cannot be filled in
  (`TypeGraft.FileTree.Astray`).
* **A text is not encoded.** The block is to be written with a body, or with a type that an
  interface extends, that holds bytes of no character. This takes a file that is not well-formed
  UTF-8.

Nothing else ends a run. All slots can be filled and all edits can be made, and the new script is
always well-formed text.
-/

namespace TypeGraft

variable {t : FileTree} {world : World} {project : Project} {path code : String} {failure : Failure}

/-! ### Up to the search -/

/-- **A lenient run up to its search**: the component has a script that asks for types, and the
script was entered. -/
structure Entered (project : Project) (path code : String) where
  script : SetupScript
  opened : Harvest
  outline : Outline
  component : SetupScript.ofComponent? project.macros path code = .ok (some script)
  asks : script.requests.isEmpty = false
  opens : script.open_ false path = .ok (opened, outline)

namespace Entered

variable (run : Entered project path code)

/-- The search of a run, before its first step. -/
def begun : Resolution := run.opened.begun run.outline run.script.rootRequests false

/-- **What ends a run** in a tree of files without a result. -/
inductive Breaks (t : FileTree) : Failure → Prop where
  /-- The search comes to a specifier that leads astray. -/
  | astray {r : Resolution} {specifier origin : String} {failure : Failure}
      (comes : Resolution.Steps (World.ofTree t project.aliases) run.begun r)
      (asks : r.Asks specifier origin)
      (astray : t.Astray project.aliases specifier origin failure) : Breaks t failure
  /-- A text that is to be printed is not encoded. -/
  | illegible {found : Harvest} {bytes : Bytes}
      (finds : run.opened.search (World.ofTree t project.aliases) run.outline
        run.script.rootRequests false = (found, .ok ()))
      (printed : found.Printed bytes) (illegible : ¬bytes.Encoded) : Breaks t .undecodable

theorem session (world : World) : Harvest.Session world run.opened run.outline
    run.script.rootRequests false :=
  SetupScript.session world run.component run.opens

/-- A run that was entered fails where its search or its splicing does, but not at a fault. -/
theorem outcome_eq_error_iff (world : World) :
    (inlineTypes world project false path code).outcome = .error failure ↔
      (run.opened.searchAndSplice world run.outline run.script.rootRequests false
        project.cleaning).2 = .error failure ∧ ∀ fault, failure ≠ .fault fault := by
  rw [inlineTypes_eq_script world false run.component run.asks, SetupScript.inlineTypes, run.opens]
  dsimp only
  split
  · next fault hends =>
    rw [hends]
    simp only [giveUp, Bool.false_eq_true, if_false, reduceCtorEq, false_iff, not_and,
      Except.error.injEq]
    exact fun heq hfault => hfault fault heq.symm
  · next failure' hreported hends =>
    rw [hends]
    simp only [Harvest.finish, Except.error.injEq]
    exact ⟨fun heq => ⟨heq, fun fault hfault => hreported fault (heq.trans hfault)⟩, fun h => h.1⟩
  · next orders spliced hends =>
    obtain ⟨newCode, hnew⟩ := SetupScript.exists_newCode run.component run.opens hends
    rw [hends, hnew]
    simp [Harvest.finish, Except.map]

end Entered

/-- **A run that has no result** was entered. -/
theorem exists_entered_of_error
    (h : (inlineTypes world project false path code).outcome = .error failure) :
    Nonempty (Entered project path code) := by
  generalize hrun : inlineTypes world project false path code = run at h
  cases inlines hrun with
  | unreadable => exact absurd h (by simp [giveUp])
  | silent => exact absurd h (by simp)
  | script hcomponent hasks hscript =>
    cases hscript with
    | unopened => exact absurd h (by simp [giveUp])
    | faulty hopen | failed hopen | spliced hopen => exact ⟨_, _, _, hcomponent, hasks, hopen⟩

/-- Searching and splicing fails where one of the two does. -/
theorem Harvest.searchAndSplice_eq_error_iff {s : Harvest} {o : Outline}
    {requests : List RootRequest} {external : Bool} {clean : Cleaning} :
    (s.searchAndSplice world o requests external clean).2 = .error failure ↔
      (s.search world o requests external).2 = .error failure ∨
        ∃ found, s.search world o requests external = (found, .ok ()) ∧
          found.orders.1.splice found.orders.2 clean = .error failure := by
  unfold searchAndSplice
  split
  · next found failure' hsearch => simp [hsearch]
  · next found hsearch =>
    rw [hsearch]
    dsimp only
    split
    · next hsplice => simp [hsplice]
    · next hsplice => simp [hsplice]

/-! ### What ends a run -/

namespace Entered

variable (run : Entered project path code)

theorem breaks_iff (hworking : Path.normalParts t.workingDirectory = t.workingDirectory) :
    (inlineTypes (World.ofTree t project.aliases) project false path code).outcome =
      .error failure ↔
      run.Breaks t failure := by
  have hsession := run.session (World.ofTree t project.aliases)
  have hbounded := World.bounded_ofTree hworking project.aliases
  rw [run.outcome_eq_error_iff, Harvest.searchAndSplice_eq_error_iff]
  constructor
  · rintro ⟨hsearch | ⟨found, hfound, hsplice⟩, hfailure⟩
    · obtain ⟨r, specifier, origin, hsteps, hasks, hlocate⟩ :=
        (Harvest.search_eq_error_iff hbounded hsession.opened hfailure).mp hsearch
      exact .astray hsteps hasks (FileTree.locate_eq_error_iff.mp hlocate)
    · obtain ⟨rfl, bytes, hprinted, hillegible⟩ := (hsession.splice_eq_error_iff hfound).mp hsplice
      exact .illegible hfound hprinted hillegible
  · intro h
    cases h with
    | astray hsteps hasks hastray =>
      refine ⟨Or.inl ?_, hastray.ne_fault⟩
      exact (Harvest.search_eq_error_iff hbounded hsession.opened hastray.ne_fault).mpr
        ⟨_, _, _, hsteps, hasks, FileTree.locate_eq_error_iff.mpr hastray⟩
    | illegible hfinds hprinted hillegible =>
      refine ⟨Or.inr ⟨_, hfinds, ?_⟩, by simp⟩
      exact (hsession.splice_eq_error_iff hfinds).mpr ⟨rfl, _, hprinted, hillegible⟩

/-- **What is printed** of files that are encoded is encoded. -/
theorem encoded_of_printed {found : Harvest} {bytes : Bytes}
    (hfinds : run.opened.search world run.outline run.script.rootRequests false = (found, .ok ()))
    (hread : ∀ p ∈ (inlineTypes world project false path code).reads, ∀ source,
      world.read p = .ok source → source.Encoded)
    (hprinted : found.Printed bytes) : bytes.Encoded := by
  have hsession := run.session world
  obtain ⟨-, hentry, -, hsource⟩ := SetupScript.opened world run.opens
  refine hsession.encoded_of_printed hfinds (fun p o' ho' => ?_) hprinted
  by_cases hp : p = run.outline.path
  · -- the script is part of a text
    have hsame : o' = run.outline := by
      have hchanges := (Harvest.searching_of_search hsession.opened hfinds).2
      have hfile : found.files.get? run.outline.path = some run.outline :=
        hchanges.file (Harvest.begun_eq hsession.opened.unsearched run.script.rootRequests false ▸
          hsession.opened.unsearched.file)
      rw [hp] at ho'
      exact Option.some.inj (ho'.symm.trans hfile)
    rw [hsame, hsource, (SetupScript.ofComponent?_eq_iff.mp run.component).source]
    exact Bytes.encoded_ofString _
  · have hsources :=
      (Harvest.read_of_search hsession.opened hfinds ho').resolve_left fun h => hp h.1
    have hall := (Harvest.asked_of_search hsession.opened hsession.opened.readAll
      run.script.rootRequests false).2.2 found hfinds
    have hloaded : p ∈ found.loaded := by
      rw [Harvest.loaded_eq]
      refine List.mem_filter.mpr ⟨List.mem_map_of_mem (Table.mem_of_get? ho'), ?_⟩
      rw [Harvest.isEntryFile, hall.entry_eq, hentry]
      simpa using Ne.symm hp
    rw [hall.loaded] at hloaded
    refine hread p ?_ o'.source hsources
    obtain ⟨inherits, grafts, events, hsplices⟩ :=
      Harvest.exists_searchAndSplice_eq world run.opened
        run.outline run.script.rootRequests false project.cleaning
    have hreads : (inlineTypes world project false path code).reads = found.reads := by
      rw [inlineTypes_eq_script world false run.component run.asks,
        SetupScript.reads_inlineTypes world project.cleaning code run.opens, hsplices, hfinds]
    rwa [hreads]

end Entered

/-- **When a lenient run has no result.** It has none exactly if its search comes to a specifier
that leads astray, or a text that it is to print is not encoded; the second is so only if a file
that was read is not encoded. A specifier that leads to no file is passed over. A run that reports
an error has left the component as it was. -/
theorem inlineTypes_fails_iff (project : Project) (path code : String)
    (hworking : Path.normalParts t.workingDirectory = t.workingDirectory) :
    (∀ failure, (inlineTypes (World.ofTree t project.aliases) project false path code).outcome =
        .error failure ↔ ∃ run : Entered project path code, run.Breaks t failure) ∧
    ((∀ p ∈ (inlineTypes (World.ofTree t project.aliases) project false path code).reads, ∀ source,
        t.source p = .ok source → source.Encoded) →
      (inlineTypes (World.ofTree t project.aliases) project false path code).outcome ≠
        .error .undecodable) ∧
    (∀ (run : Entered project path code) r specifier origin,
      Resolution.Steps (World.ofTree t project.aliases) run.begun r → r.Asks specifier origin →
      (t.locate project.aliases specifier origin).1 = .ok none →
        ∃ next, Resolution.step (World.ofTree t project.aliases) r = .running next) ∧
    ∀ inlined message,
      (inlineTypes (World.ofTree t project.aliases) project false path code).outcome = .ok inlined →
      inlined.error = some message → inlined.code = code ∧ inlined.changed = false := by
  refine ⟨fun failure => ⟨fun h => ?_, ?_⟩, fun hread h => ?_, ?_, ?_⟩
  · obtain ⟨run⟩ := exists_entered_of_error h
    exact ⟨run, (run.breaks_iff hworking).mp h⟩
  · rintro ⟨run, hbreaks⟩
    exact (run.breaks_iff hworking).mpr hbreaks
  · obtain ⟨run⟩ := exists_entered_of_error h
    have hbreaks := (run.breaks_iff hworking).mp h
    cases hbreaks with
    | astray _ _ hastray => exact absurd hastray.failure_eq (by simp)
    | illegible hfinds hprinted hillegible =>
      exact hillegible (run.encoded_of_printed hfinds hread hprinted)
  · exact fun run r specifier origin _ hasks hlocate => Resolution.exists_step_of_asks hasks hlocate
  · intro inlined message hinlined herror
    rcases exists_unchanged_or_exists_inlining hinlined with ⟨error, rfl⟩ | ⟨run, rfl⟩
    · exact ⟨rfl, rfl⟩
    · exact absurd herror (by simp [Inlining.result])

/-! ### The root -/

/-- A script that asks for what is in the root. -/
def importsRoot : String := "\nimport \x7b Foo \x7d from '/'\ndefineProps<Foo>()\n"

set_option maxRecDepth 100000 in
theorem failure?_importsRoot :
    (inlineTypes (World.ofTree ⟨["w"], []⟩ []) .standard false "/w/App.vue"
      (componentOf importsRoot)).failure? = some .namelessPath := by
  decide +kernel

/-- The search for what is in the root comes to a place without a name. -/
theorem inlineTypes_fails_iff_importsRoot :
    (inlineTypes (World.ofTree ⟨["w"], []⟩ []) .standard false "/w/App.vue"
      (componentOf importsRoot)).outcome = .error .namelessPath ∧
    ∃ run : Entered .standard "/w/App.vue" (componentOf importsRoot),
      run.Breaks ⟨["w"], []⟩ .namelessPath := by
  have hfails := Run.outcome_of_failure? failure?_importsRoot
  exact ⟨hfails, ((inlineTypes_fails_iff .standard "/w/App.vue" (componentOf importsRoot)
    (show Path.normalParts ["w"] = ["w"] by decide)).1 .namelessPath).mp hfails⟩

/-- **A lenient run may have no result**, although all that is wrong is that a specifier leads to no
file. -/
theorem exists_inlineTypes_fails : ∃ t project path code,
    Path.normalParts t.workingDirectory = t.workingDirectory ∧
      ¬∃ inlined, (inlineTypes (World.ofTree t project.aliases) project false path code).outcome =
        .ok inlined := by
  refine ⟨⟨["w"], []⟩, .standard, "/w/App.vue", componentOf importsRoot, by decide, ?_⟩
  rintro ⟨inlined, hinlined⟩
  exact absurd (hinlined.symm.trans (Run.outcome_of_failure? failure?_importsRoot)) (by simp)

end TypeGraft
