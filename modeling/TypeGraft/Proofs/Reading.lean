import TypeGraft.Proofs.Files.Alike
import TypeGraft.Proofs.Inlining

/-!
# What inlining and extraction read

Neither asks for a file twice, and what comes of them depends on no other files than those that they
ask for (`TypeGraft.only_reads_matter`). A file is asked for where a specifier leads to it under
which a name is still missing, so a module that nothing needs may hold anything, or may be missing
altogether as far as its contents go. Which files there are is another matter: a specifier may lead
elsewhere if a file is removed.

Errors are among the things that are compared. The one for a file that is no script names the file,
but not the place in it (`TypeGraft.Script.tree`).
-/

namespace TypeGraft

variable {world : World} {read : String → Except Fault Bytes} {project : Project} {strict : Bool}
  {path code : String}

namespace Harvest

variable {s : Harvest} {o : Outline} {requests : List RootRequest} {external : Bool}
    {clean : Cleaning}

/-- Splicing what was found reads nothing. -/
theorem exists_searchAndSplice_eq (world : World) (s : Harvest) (o : Outline)
    (requests : List RootRequest) (external : Bool) (clean : Cleaning) :
    ∃ inherits grafts events, (s.searchAndSplice world o requests external clean).1 =
      { (s.search world o requests external).1 with inherits, grafts, events } := by
  unfold searchAndSplice
  split
  · next h =>
    rw [h]
    exact ⟨_, _, _, rfl⟩
  · next found h =>
    rw [h]
    dsimp only
    split
    · exact ⟨_, _, _, rfl⟩
    · next hsplice =>
      obtain ⟨⟨grafts, events, rfl⟩, -⟩ := exists_splice hsplice
      exact ⟨_, _, _, rfl⟩

/-- What was read when a search was made and spliced. -/
theorem asked_of_searchAndSplice (hopened : Opened world s o) (hs : s.ReadAll s.entry)
    (requests : List RootRequest) (external : Bool) (clean : Cleaning) :
    s.reads <+: (s.searchAndSplice world o requests external clean).1.reads ∧
      (s.searchAndSplice world o requests external clean).1.Asked s.entry ∧
      ∀ s' result, s.searchAndSplice world o requests external clean = (s', .ok result) →
        s'.loaded = s'.reads := by
  obtain ⟨hgrows, hasked, hread⟩ := asked_of_search hopened hs requests external
  obtain ⟨inherits, grafts, events, heq⟩ :=
    exists_searchAndSplice_eq world s o requests external clean
  refine ⟨heq ▸ hgrows, heq ▸ ⟨hasked.nodup, hasked.foreign⟩, fun s' result hresult => ?_⟩
  obtain ⟨found, hfound, -⟩ := exists_search_of_searchAndSplice hresult
  rw [hresult, hfound] at heq
  obtain rfl : s' = _ := heq
  exact (hread found hfound).loaded

theorem searchAndSplice_congr
    (h : ∀ p ∈ (s.searchAndSplice world o requests external clean).1.reads, read p = world.read p) :
    s.searchAndSplice (world.reading read) o requests external clean =
      s.searchAndSplice world o requests external clean := by
  obtain ⟨inherits, grafts, events, heq⟩ :=
    exists_searchAndSplice_eq world s o requests external clean
  rw [heq] at h
  unfold searchAndSplice
  rw [search_congr h]

/-- A search begins where all that was asked for was read. -/
theorem Opened.readAll (h : Opened world s o) : s.ReadAll s.entry := by
  cases h with
  | @script strict path source tree _ events hscan =>
    obtain ⟨rfl, -⟩ := Outline.wellFormed_ofTree hscan
    refine ⟨rfl, ?_, List.nodup_singleton _, fun p hp => ?_⟩
    · simp [loaded_eq, log, Harvest.enter, addFile, start, Table.put, Table.keys, isEntryFile]
    · obtain rfl := Option.some.inj hp
      exact List.mem_singleton.mpr rfl
  | @file strict path s o hread =>
    have hstart : (start strict none).ReadAll none :=
      ⟨rfl, rfl, List.nodup_nil, fun _ hp => absurd hp (by simp)⟩
    have hs := hstart.of_outlineOf hread
    rw [hs.entry_eq]
    exact hs

end Harvest

/-! ### Inlining -/

theorem reads_giveUp (reads : List String) (events : List Event) (fault : Fault) :
    (giveUp strict path code reads events fault).reads = reads := by
  unfold giveUp
  split <;> rfl

namespace SetupScript

variable {script : SetupScript} {clean : Cleaning} {s : Harvest} {o : Outline}

/-- A script that was opened reads what its search reads. -/
theorem reads_inlineTypes (world : World) (clean : Cleaning) (code : String)
    (hopen : script.open_ strict path = .ok (s, o)) :
    (script.inlineTypes world clean strict path code).reads =
      (s.searchAndSplice world o script.rootRequests false clean).1.reads := by
  generalize hrun : script.inlineTypes world clean strict path code = run
  cases inlines hrun with
  | unopened hopen' => exact absurd (hopen'.symm.trans hopen) (by simp)
  | faulty hopen' hends =>
    obtain ⟨rfl, rfl⟩ := Prod.mk.inj (Except.ok.inj (hopen'.symm.trans hopen))
    rw [reads_giveUp, hends]
  | failed hopen' _ hends | spliced hopen' hends =>
    obtain ⟨rfl, rfl⟩ := Prod.mk.inj (Except.ok.inj (hopen'.symm.trans hopen))
    rw [hends]
    rfl

/-- **What the types of a script are inlined to** depends only on the files that are asked for. -/
theorem inlineTypes_congr
    (h : ∀ p ∈ (script.inlineTypes world clean strict path code).reads, read p = world.read p) :
    script.inlineTypes (world.reading read) clean strict path code =
      script.inlineTypes world clean strict path code := by
  cases hopen : script.open_ strict path with
  | error fault =>
    unfold inlineTypes
    rw [hopen]
  | ok opened =>
    obtain ⟨s, o⟩ := opened
    rw [reads_inlineTypes world clean code hopen] at h
    unfold inlineTypes
    rw [hopen]
    dsimp only
    rw [Harvest.searchAndSplice_congr h]

/-- **What is read for the types of a script**: no file twice, and never the script itself. -/
theorem asked_of_inlineTypes (script : SetupScript) (world : World) (clean : Cleaning)
    (strict : Bool) (path code : String) :
    (script.inlineTypes world clean strict path code).reads.Nodup ∧
      path ∉ (script.inlineTypes world clean strict path code).reads ∧
      ∀ inlined, (script.inlineTypes world clean strict path code).outcome = .ok inlined →
        inlined.error = none →
          inlined.loaded = (script.inlineTypes world clean strict path code).reads := by
  have hasked : ∀ {s s' : Harvest} {o : Outline} {result : Except Failure (Orders × Splice)},
      script.open_ strict path = .ok (s, o) →
      s.searchAndSplice world o script.rootRequests false clean = (s', result) →
        s'.reads.Nodup ∧ path ∉ s'.reads ∧ ∀ spliced, result = .ok spliced →
          s'.loaded = s'.reads := by
    intro s s' o result hopen hends
    obtain ⟨hopened, hentry, rfl, -⟩ := SetupScript.opened world hopen
    obtain ⟨-, hasked, hloaded⟩ :=
      Harvest.asked_of_searchAndSplice hopened hopened.readAll script.rootRequests false clean
    rw [hends] at hasked
    refine ⟨hasked.nodup, fun hpath => hasked.foreign _ hpath hentry, ?_⟩
    rintro spliced rfl
    exact hloaded s' _ hends
  -- a run that ends at a fault tells it
  have htold : ∀ {reads : List String} {events : List Event} {fault : Fault} {inlined : Inlined},
      (giveUp strict path code reads events fault).outcome = .ok inlined →
      inlined.error ≠ none := by
    intro reads events fault inlined hinlined
    rw [eq_unchanged_of_giveUp hinlined]
    exact Option.some_ne_none _
  generalize hrun : script.inlineTypes world clean strict path code = run
  cases inlines hrun with
  | unopened =>
    rw [reads_giveUp]
    exact ⟨List.nodup_nil, List.not_mem_nil, fun inlined h herror => absurd herror (htold h)⟩
  | faulty hopen hends =>
    obtain ⟨hnodup, hforeign, -⟩ := hasked hopen hends
    rw [reads_giveUp]
    exact ⟨hnodup, hforeign, fun inlined h herror => absurd herror (htold h)⟩
  | failed hopen _ hends =>
    obtain ⟨hnodup, hforeign, -⟩ := hasked hopen hends
    exact ⟨hnodup, hforeign, fun inlined h => absurd h (by simp [Harvest.finish])⟩
  | @spliced s s' o orders splice hopen hends =>
    obtain ⟨hnodup, hforeign, hloaded⟩ := hasked hopen hends
    refine ⟨hnodup, hforeign, fun inlined h _ => ?_⟩
    cases hcode : script.newCode code splice with
    | error failure =>
      rw [hcode] at h
      exact absurd h (by simp [Harvest.finish, Except.map])
    | ok newCode =>
      rw [hcode] at h
      rw [← Except.ok.inj h]
      exact hloaded _ rfl

end SetupScript

/-- **A component** is left as it is, whatever the world, or the types of its script are inlined. -/
theorem inlineTypes_cases (project : Project) (strict : Bool) (path code : String) :
    (∃ run : Run Inlined, run.reads = [] ∧
      (∀ inlined, run.outcome = .ok inlined → ∃ error, inlined = .unchanged code error) ∧
      ∀ world, inlineTypes world project strict path code = run) ∨
    ∃ script : SetupScript, ∀ world, inlineTypes world project strict path code =
      script.inlineTypes world project.cleaning strict path code := by
  unfold inlineTypes
  cases SetupScript.ofComponent? project.macros path code with
  | error fault =>
    exact Or.inl ⟨_, reads_giveUp [] [] fault, fun inlined h => ⟨_, eq_unchanged_of_giveUp h⟩,
      fun _ => rfl⟩
  | ok script? =>
    cases script? with
    | none => exact Or.inl ⟨_, rfl, fun inlined h => ⟨none, (Except.ok.inj h).symm⟩, fun _ => rfl⟩
    | some script =>
      dsimp only
      cases script.requests.isEmpty with
      | true => exact Or.inl ⟨_, rfl, fun inlined h => ⟨none, (Except.ok.inj h).symm⟩, fun _ => rfl⟩
      | false => exact Or.inr ⟨script, fun _ => rfl⟩

/-! ### Extraction -/

/-- A file that is searched reads what its search reads. -/
theorem reads_extract {s : Harvest} {o : Outline} (names : List String)
    (hread : (Harvest.start strict none).outlineOf world path = (s, .ok o)) :
    (extract world strict path names).reads =
      (s.searchAndSplice world o (exportRequests names) true .none).1.reads := by
  unfold extract
  rw [hread]
  dsimp only
  split
  · next h => rw [h]; rfl
  · next h => rw [h]; rfl

theorem extract_of_error {s : Harvest} {failure : Failure} (names : List String)
    (hread : (Harvest.start strict none).outlineOf world path = (s, .error failure)) :
    extract world strict path names = s.finish (.error failure) := by
  unfold extract
  rw [hread]

/-- **What a file is read for** begins with the file, which is read once, as are all others. -/
theorem asked_of_extract (world : World) (strict : Bool) (path : String) (names : List String) :
    (extract world strict path names).reads.Nodup ∧
      (extract world strict path names).reads.head? = some path ∧
      ∀ extraction, (extract world strict path names).outcome = .ok extraction →
        extraction.loaded = (extract world strict path names).reads := by
  have hfirst : ((Harvest.start strict none).outlineOf world path).1.reads = [path] :=
    Harvest.reads_outlineOf_of_none rfl
  cases hread : (Harvest.start strict none).outlineOf world path with
  | mk s result =>
    rw [hread] at hfirst
    cases result with
    | error failure =>
      rw [extract_of_error names hread]
      refine ⟨?_, ?_, fun extraction h => absurd h (by simp [Harvest.finish])⟩
      · rw [show (s.finish (.error failure) : Run Extraction).reads = [path] from hfirst]
        exact List.nodup_singleton path
      · exact congrArg List.head? hfirst
    | ok o =>
      have hopened : Harvest.Opened world s o := .file hread
      obtain ⟨⟨more, hmore⟩, hasked, hloaded⟩ :=
        Harvest.asked_of_searchAndSplice hopened hopened.readAll (exportRequests names) true .none
      rw [reads_extract names hread]
      refine ⟨hasked.nodup, ?_, fun extraction h => ?_⟩
      · rw [← hmore, hfirst]
        rfl
      · unfold extract at h
        rw [hread] at h
        dsimp only at h
        split at h
        · exact absurd h (by simp [Harvest.finish])
        · next s' orders splice hends =>
          rw [hends, ← Except.ok.inj h]
          exact hloaded s' _ hends

/-- **What a file is read for** depends only on the files that are asked for. -/
theorem extract_congr {names : List String}
    (h : ∀ p ∈ (extract world strict path names).reads, read p = world.read p) :
    extract (world.reading read) strict path names = extract world strict path names := by
  have hfirst : (Harvest.start strict none).outlineOf (world.reading read) path =
      (Harvest.start strict none).outlineOf world path := by
    refine Harvest.outlineOf_congr fun p hp => h p ?_
    rw [Harvest.reads_outlineOf_of_none rfl] at hp
    rw [List.mem_singleton.mp hp]
    exact List.mem_of_mem_head? (asked_of_extract world strict path names).2.1
  cases hread : (Harvest.start strict none).outlineOf world path with
  | mk s result =>
    cases result with
    | error failure =>
      rw [extract_of_error names hread, extract_of_error names (hfirst.trans hread)]
    | ok o =>
      rw [reads_extract names hread] at h
      unfold extract
      rw [hfirst, hread]
      dsimp only
      rw [Harvest.searchAndSplice_congr h]

/-- **Each module is read once, and only what is read matters.** Inlining and extraction ask for no
file twice; the script that is inlined into is never asked for, and the file that is extracted from
is asked for first. If they succeed, all that was asked for is what they report as loaded. With any
other contents of files that were not asked for, they come to the same, up to the place that an
error tells in a file that is no script. -/
theorem only_reads_matter (world : World) (project : Project) (strict : Bool)
    (path code file : String) (names : List String) (read : String → Except Fault Bytes) :
    ((inlineTypes world project strict path code).reads.Nodup ∧
      path ∉ (inlineTypes world project strict path code).reads ∧
      (∀ inlined, (inlineTypes world project strict path code).outcome = .ok inlined →
        inlined.error = none →
          inlined.loaded = (inlineTypes world project strict path code).reads) ∧
      ((∀ p ∈ (inlineTypes world project strict path code).reads, read p = world.read p) →
        inlineTypes (world.reading read) project strict path code =
          inlineTypes world project strict path code)) ∧
    (extract world strict file names).reads.Nodup ∧
      (extract world strict file names).reads.head? = some file ∧
      (∀ extraction, (extract world strict file names).outcome = .ok extraction →
        extraction.loaded = (extract world strict file names).reads) ∧
      ((∀ p ∈ (extract world strict file names).reads, read p = world.read p) →
        extract (world.reading read) strict file names = extract world strict file names) := by
  obtain ⟨hnodup, hhead, hloaded⟩ := asked_of_extract world strict file names
  refine ⟨?_, hnodup, hhead, hloaded, extract_congr⟩
  rcases inlineTypes_cases project strict path code with ⟨run, hreads, hsame, hrun⟩ | ⟨script, hrun⟩
  · rw [hrun, hrun, hreads]
    refine ⟨List.nodup_nil, List.not_mem_nil, fun inlined hinlined _ => ?_, fun _ => rfl⟩
    obtain ⟨error, rfl⟩ := hsame inlined hinlined
    rfl
  · rw [hrun, hrun]
    obtain ⟨hnodup, hforeign, hloaded⟩ :=
      script.asked_of_inlineTypes world project.cleaning strict path code
    exact ⟨hnodup, hforeign, hloaded, SetupScript.inlineTypes_congr⟩

/-! ### A module that is not needed -/

/-- A module with an interface, and another one. -/
def twoModules (other : Bytes) : FileTree :=
  ⟨["w"], [(["w", "a.ts"], Bytes.ofString "export interface A \x7b x: string \x7d\n"),
    (["w", "b.ts"], other)]⟩

/-- A script that imports from two modules, and asks for what is in one of them. -/
def importsBoth : String :=
  "\nimport \x7b A \x7d from './a'\nimport \x7b B \x7d from './b'\ndefineProps<A>()\n"

theorem alike_twoModules (other other' : Bytes) : (twoModules other).Alike (twoModules other') where
  workingDirectory := rfl
  keys := rfl
  described parts hparts := by
    have hne : ∀ name, name ≠ "package.json" → ["w", name] ≠ parts := by
      rintro name hname rfl
      exact hname (Option.some.inj hparts)
    simp [twoModules, Table.get?, hne "b.ts" (by decide)]

set_option maxRecDepth 100000 in
/-- The other module is not asked for, so it may hold anything. -/
theorem only_reads_matter_twoModules :
    (∃ inlined, (inlineTypes (World.ofTree (twoModules []) []) .standard false "/w/App.vue"
        (componentOf importsBoth)).outcome = .ok inlined ∧ inlined.error = none ∧
      inlined.emitted = ["A"] ∧ inlined.loaded = ["/w/a.ts"]) ∧
    ∀ other : Bytes, inlineTypes (World.ofTree (twoModules other) []) .standard false "/w/App.vue"
        (componentOf importsBoth) =
      inlineTypes (World.ofTree (twoModules []) []) .standard false "/w/App.vue"
        (componentOf importsBoth) := by
  have helement : ScriptElement.setup? (componentOf importsBoth) = some (elementOf importsBoth) :=
    ScriptElement.setup?_componentOf (by decide +kernel)
  obtain ⟨run, hexpected, -⟩ := Inlining.exists_of_comesTo helement
    (show Inlining.comesTo (World.ofTree (twoModules []) []) .standard false "/w/App.vue"
      (componentOf importsBoth) (elementOf importsBoth)
      (fun _ _ ended _ spliced _ => decide (ended.reads = ["/w/a.ts"] ∧ spliced.emitted = ["A"])) =
        true by decide +kernel)
  obtain ⟨hreads, hemitted⟩ := of_decide_eq_true hexpected
  have hreads := run.reads_eq.trans hreads
  have hmatter : ∀ other : Bytes, _ := fun other =>
    only_reads_matter (World.ofTree (twoModules []) []) .standard false "/w/App.vue"
      (componentOf importsBoth) "/w/a.ts" ["A"] (twoModules other).source
  refine ⟨⟨run.result, run.outcome_eq, rfl, hemitted, ?_⟩, fun other => ?_⟩
  · rw [(hmatter []).1.2.2.1 run.result run.outcome_eq rfl, hreads]
  · rw [World.ofTree_alike (alike_twoModules [] other) []]
    refine (hmatter other).1.2.2.2 fun p hp => ?_
    rw [hreads] at hp
    rw [List.mem_singleton.mp hp]
    rfl

end TypeGraft
