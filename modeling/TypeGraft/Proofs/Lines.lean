import TypeGraft.CommandLine
import TypeGraft.Proofs.Component.Lines
import TypeGraft.Proofs.Inlining
import TypeGraft.Proofs.Resolution.Lines
import TypeGraft.Proofs.Splice.Apart

/-!
# Lines that are reported of a component

The requests of a component are listed with their lines in the component. Where types are inlined,
what is said of the component is said with lines of its script, which the component counts from
another place. So the two differ by the lines in front of the script, and only by these
(`TypeGraft.located_of_inlineTypes`): a warning of a name that is declared twice, or of two names
that stand for one declaration, tells the lines of the declarations, the imports or the mentions
that it is about if the script starts on the first line, and lines above them otherwise.
-/

namespace TypeGraft

open Syntax

/-! ### What following a specifier tells -/

namespace FileTree

variable {t : FileTree}

/-- A search for a file that tells no line. -/
def Lineless (search : Search) : Prop := ∀ e ∈ search.2, e.lineless = true

theorem lineless_nil (found : Except Failure (Option Path)) : Lineless (found, []) :=
  fun _ h => absurd h List.not_mem_nil

theorem Lineless.orSearch {first : Search} {second : Unit → Search} (h : Lineless first)
    (h' : Lineless (second ())) : Lineless (orSearch first second) := by
  unfold FileTree.orSearch
  split
  · exact fun e he => (List.mem_append.mp he).elim (h e) (h' e)
  · exact h

theorem lineless_typesOfPackage (t : FileTree) (package : Path) :
    Lineless (t.typesOfPackage package) := by
  have hstated : ∀ e ∈ (t.statedTypes package).2, e.lineless = true := by
    intro e he
    unfold statedTypes at he
    dsimp only at he
    split at he
    · exact absurd he List.not_mem_nil
    · split at he
      · rw [List.mem_singleton.mp he]
        rfl
      · split at he
        · rw [List.mem_singleton.mp he]
          rfl
        · exact absurd he List.not_mem_nil
  exact hstated

theorem lineless_searchIn (t : FileTree) (specifier : String) (directory : Path) :
    Lineless (t.searchIn specifier directory) := by
  have hpackage : ∀ package : Path,
      Lineless (if t.isDirectory package then t.typesOfPackage package else (.ok none, [])) := by
    intro package
    split
    · exact t.lineless_typesOfPackage package
    · exact lineless_nil _
  exact (hpackage _).orSearch (Lineless.orSearch (lineless_nil _) (hpackage _))

theorem lineless_searchAll (t : FileTree) (specifier : String) (directories : List Path) :
    Lineless (t.searchAll specifier directories) := by
  induction directories with
  | nil => exact lineless_nil _
  | cons directory rest ih => exact (t.lineless_searchIn specifier directory).orSearch ih

theorem lineless_searchTarget (t : FileTree) (target : String) (directory : Path) :
    Lineless (t.searchTarget target directory) := by
  unfold searchTarget
  split
  · exact lineless_nil _
  · split
    · exact t.lineless_searchAll target _
    · exact lineless_nil _

end FileTree

/-- **Following a specifier** in a tree of files tells no lines. -/
theorem World.lineless_ofTree (t : FileTree) (rules : List AliasRule) :
    (World.ofTree t rules).Lineless := by
  intro specifier origin e he
  change e ∈ (t.locate rules specifier origin).2 at he
  unfold FileTree.locate at he
  split at he
  · exact absurd he List.not_mem_nil
  · next target _ =>
    have hsearch := t.lineless_searchTarget target (Path.ofString origin).parent
    generalize t.searchTarget target (Path.ofString origin).parent = search at he hsearch
    obtain ⟨found, events⟩ := search
    cases found with
    | error failure => exact hsearch e he
    | ok found =>
      cases found with
      | none =>
        refine (List.mem_append.mp he).elim (hsearch e) fun he => ?_
        rw [List.mem_singleton.mp he]
        rfl
      | some path => exact hsearch e he

/-! ### The lines of a script -/

theorem Request.line_of_mem_ofTree {macros : List String} {source : Bytes} {tree : Node}
    {r : TypeGraft.Request} (h : r ∈ Request.ofTree macros source tree) :
    r.line = Outline.lineAt source r.span.start := by
  obtain ⟨expression, -, h⟩ := List.mem_filterMap.mp h
  unfold Request.ofExpression? at h
  obtain ⟨call, -, h⟩ := Option.bind_eq_some_iff.mp h
  obtain ⟨-, -, h⟩ := Option.bind_eq_some_iff.mp h
  obtain ⟨name, -, h⟩ := Option.bind_eq_some_iff.mp h
  obtain ⟨-, -, h⟩ := Option.bind_eq_some_iff.mp h
  obtain ⟨arguments, -, h⟩ := Option.bind_eq_some_iff.mp h
  obtain ⟨argument, -, h⟩ := Option.bind_eq_some_iff.mp h
  obtain ⟨-, -, h⟩ := Option.bind_eq_some_iff.mp h
  rw [← Option.some.inj h]

namespace SetupScript

variable {macros : List String} {path code name : String} {script : SetupScript} {led : Prop}
  {strict : Bool} {o : Outline} {events : List Event}

/-- A declaration that is written in the script. -/
def Writes (script : SetupScript) (path : String) (d : Declaration) : Prop :=
  Outline.Writes path script.source script.tree d

/-- **The places of a script on which a name can be seen**: where it is asked for or mentioned. If
other files can be led to the component, as `led` says, they may ask it for a name that stands for
another one there, or for one that they mention themselves; then it is seen where the other name
stands, or where it is imported, passed on or declared, and at the start of the script if it is none
of these. -/
inductive Shows (script : SetupScript) (led : Prop) (strict : Bool) (path name : String) :
    Int → Prop where
  | request {r : Request} (hr : r ∈ script.requests) (hname : r.name = name ∨ led) :
      Shows script led strict path name r.span.start
  | mention {d : Declaration} {m : Mention} (hd : script.Writes path d)
      (hm : m ∈ d.freeMentions script.source) (hname : m.name = name ∨ led) :
      Shows script led strict path name m.span.start
  | declaration {d : Declaration} (hled : led) (hd : script.Writes path d) (hname : d.name = name) :
      Shows script led strict path name d.span.start
  | imported {o : Outline} {events : List Event} {b : Binding} (hled : led)
      (ho : Outline.ofTree strict path script.source script.tree = .ok (o, events))
      (hb : o.imports.get? name = some b) : Shows script led strict path name b.span.start
  | passedOn {o : Outline} {events : List Event} {b : Binding} (hled : led)
      (ho : Outline.ofTree strict path script.source script.tree = .ok (o, events))
      (hb : o.reexports.get? name = some b) : Shows script led strict path name b.span.start
  | unseen {o : Outline} {events : List Event} (hled : led)
      (ho : Outline.ofTree strict path script.source script.tree = .ok (o, events))
      (himports : o.imports.get? name = none) (hreexports : o.reexports.get? name = none)
      (hdeclarations : o.declarations.get? name = none) : Shows script led strict path name 0

/-- A line on which a name can be seen, by the lines of the script. -/
def Told (script : SetupScript) (led : Prop) (strict : Bool) (path name : String) (line : Nat) :
    Prop :=
  ∃ position, script.Shows led strict path name position ∧
    line = Outline.lineAt script.source position

/-- Two declarations of one name in a script, one behind the other. -/
structure WritesTwice (script : SetupScript) (path name : String) (d d' : Declaration) : Prop where
  first : script.Writes path d
  last : script.Writes path d'
  names : d.name = name ∧ d'.name = name
  before : d.span.Before d'.span

/-- The lines of two declarations of one name, by the lines of the script. -/
def ToldTwice (script : SetupScript) (path name : String) (first line : Nat) : Prop :=
  ∃ d d', script.WritesTwice path name d d' ∧ first = Outline.lineAt script.source d.span.start ∧
    line = Outline.lineAt script.source d'.span.start

theorem wellFormed (h : ofComponent? macros path code = .ok (some script)) :
    script.tree.WellFormed script.source :=
  (Script.isScript_of_tree (ofComponent?_eq_iff.mp h).tree).wellFormed

/-- A declaration that is written in the script lies there. -/
theorem Writes.inside (h : ofComponent? macros path code = .ok (some script)) {d : Declaration}
    (hd : script.Writes path d) : 0 ≤ d.span.start ∧ d.span.start ≤ script.source.length := by
  obtain ⟨-, hspan, -⟩ := hd.lined (wellFormed h)
  exact ⟨hspan.1, hspan.2.1.trans hspan.2.2⟩

/-- **A place on which a name can be seen** lies in the script. -/
theorem Shows.inside (h : ofComponent? macros path code = .ok (some script)) {position : Int}
    (hshows : script.Shows led strict path name position) :
    0 ≤ position ∧ position ≤ script.source.length := by
  have htree := wellFormed h
  have hspan : ∀ {a : Span}, a.In (.whole script.source) →
      0 ≤ a.start ∧ a.start ≤ script.source.length := fun ha => ⟨ha.1, ha.2.1.trans ha.2.2⟩
  cases hshows with
  | request hr =>
    rw [(ofComponent?_eq_iff.mp h).requests] at hr
    exact hspan (((Request.row_ofTree htree).inside _ (List.mem_map_of_mem hr)).trans
      htree.cuts.inside)
  | mention hd hm => exact hspan ((hd.lined htree).2.2 _ (List.mem_of_mem_filter hm))
  | declaration _ hd => exact hd.inside h
  | imported _ ho hb =>
    obtain ⟨hlined, -⟩ := Outline.lined_ofTree htree ho
    rw [← (Outline.sound_ofTree ho).1] at hspan ⊢
    exact hspan (hlined.imports _ _ hb).inside
  | passedOn _ ho hb =>
    obtain ⟨hlined, -⟩ := Outline.lined_ofTree htree ho
    rw [← (Outline.sound_ofTree ho).1] at hspan ⊢
    exact hspan (hlined.reexports _ _ hb).inside
  | unseen => exact ⟨le_rfl, Int.natCast_nonneg _⟩

/-- **A line of the component** is a line of the script, behind those in front of the script. -/
theorem lineIn_eq (h : ofComponent? macros path code = .ok (some script)) {position : Int}
    (hposition : 0 ≤ position ∧ position ≤ script.source.length) :
    Outline.lineAt script.source position + script.element.linesBefore code =
      script.element.lineIn code position := by
  have hstands := ofComponent?_eq_iff.mp h
  rw [hstands.source] at hposition ⊢
  exact (ScriptElement.lineIn_eq hstands.element hposition).symm

/-- **What the outline of the script shows** is told with lines of the script. -/
theorem tells_outline (h : ofComponent? macros path code = .ok (some script))
    (ho : Outline.ofTree strict path script.source script.tree = .ok (o, events)) :
    o.Tells led (script.Told led strict path) := by
  obtain ⟨hlined, -⟩ := Outline.lined_ofTree (wellFormed h) ho
  have hsource := (Outline.sound_ofTree ho).1
  have hpath := (Outline.wellFormed_ofTree ho).1
  have hwrites : ∀ name d, o.declarations.get? name = some d → d.name = name ∧
      script.Writes path d := by
    intro name d hd
    obtain ⟨hname, hwritten⟩ := hlined.declarations name d hd
    rw [hsource, hpath] at hwritten
    exact ⟨hname, hwritten⟩
  constructor
  · -- a reference of another file is shown where this one has its name from
    intro hled name r hr
    unfold Harvest.shownLine
    rw [if_neg hr]
    cases himport : o.imports.get? name with
    | some b => exact ⟨_, .imported hled ho himport, hsource ▸ (hlined.imports name b himport).line⟩
    | none =>
      cases hreexport : o.reexports.get? name with
      | some b =>
        exact ⟨_, .passedOn hled ho hreexport, hsource ▸ (hlined.reexports name b hreexport).line⟩
      | none =>
        cases hd : o.declarations.get? name with
        | some d =>
          obtain ⟨hname, hwritten⟩ := hwrites name d hd
          exact ⟨_, .declaration hled hwritten hname, (hwritten.lined (wellFormed h)).1⟩
        | none => exact ⟨0, .unseen hled ho himport hreexport hd, rfl⟩
  · intro name d hd m hm name' hname
    rw [hsource] at hm ⊢
    exact ⟨_, .mention (hwrites name d hd).2 hm hname, rfl⟩

/-- **Where the search for a script begins**, only lines of the script are told. -/
theorem tells_begun (world : World) (h : ofComponent? macros path code = .ok (some script))
    {s : Harvest} (hopen : script.open_ strict path = .ok (s, o)) :
    o.Tells led (script.Told led strict path) ∧
      (s.begun o script.rootRequests false).harvest.Tells o.path led (script.Told led strict path)
        (script.ToldTwice path) := by
  have hunsearched := (SetupScript.opened world hopen).1.unsearched
  obtain ⟨events, hscan, rfl⟩ := exists_scan_of_open hopen
  refine ⟨tells_outline h hscan, ?_⟩
  rw [Harvest.begun_eq hunsearched]
  have htree := wellFormed h
  refine ⟨?_, Synonyms.tells_empty, ?_⟩
  · intro r hr _ name hname
    obtain ⟨r', hr', rfl⟩ := List.mem_map.mp hr
    obtain ⟨root, hroot, rfl⟩ := List.mem_map.mp hr'
    obtain ⟨request, hrequest, rfl⟩ := List.mem_map.mp hroot
    refine ⟨_, .request hrequest hname, ?_⟩
    rw [(ofComponent?_eq_iff.mp h).requests] at hrequest
    exact Request.line_of_mem_ofTree hrequest
  · intro e he
    obtain ⟨first, d, hfirst, hd, hname, hbefore, rfl⟩ := (Outline.lined_ofTree htree hscan).2 e he
    exact fun _ => ⟨first, d, ⟨hfirst, hd, ⟨hname, rfl⟩, hbefore⟩, (hfirst.lined htree).1,
      (hd.lined htree).1⟩

/-- **What is logged while the types of a script are inlined**, however that ends, tells lines of
the script. -/
theorem tells_inlineTypes {world : World} (hworld : world.Lineless)
    (h : ofComponent? macros path code = .ok (some script)) (clean : Cleaning) (strict : Bool) :
    ∀ e ∈ (script.inlineTypes world clean strict path code).events,
      e.Tells path (script.Told (world.LeadsTo path) strict path) (script.ToldTwice path) := by
  have hgiveUp : ∀ (reads : List String) (events : List Event) (fault : Fault),
      (∀ e ∈ events, e.Tells path (script.Told (world.LeadsTo path) strict path)
        (script.ToldTwice path)) →
      ∀ e ∈ (giveUp strict path code reads events fault).events,
        e.Tells path (script.Told (world.LeadsTo path) strict path) (script.ToldTwice path) := by
    intro reads events fault hevents e he
    unfold giveUp at he
    split at he
    · exact hevents e he
    · refine (List.mem_append.mp he).elim (hevents e) fun he => ?_
      rw [List.mem_singleton.mp he]
      trivial
  have hends : ∀ {s s' : Harvest} {o : Outline} {result : Except Failure (Orders × Splice)},
      script.open_ strict path = .ok (s, o) →
      s.searchAndSplice world o script.rootRequests false clean = (s', result) →
        s'.Tells path (world.LeadsTo path) (script.Told (world.LeadsTo path) strict path)
          (script.ToldTwice path) := by
    intro s s' o result hopen hends
    obtain ⟨hopened, -, rfl, -⟩ := SetupScript.opened world hopen
    obtain ⟨ho, hbegun⟩ := tells_begun world h hopen
    have htells := Harvest.tells_searchAndSplice hopened hworld ho hbegun clean
    rwa [hends] at htells
  generalize hrun : script.inlineTypes world clean strict path code = run
  cases SetupScript.inlines hrun with
  | unopened => exact hgiveUp [] [] _ fun _ he => absurd he List.not_mem_nil
  | faulty hopen hend => exact hgiveUp _ _ _ (hends hopen hend).event
  | failed hopen _ hend => exact (hends hopen hend).event
  | spliced hopen hend =>
    -- beside what was logged before, a reference that was left unresolved is told
    refine fun e he => (List.mem_append.mp he).elim ((hends hopen hend).event e) fun he => ?_
    obtain ⟨r, hr, rfl⟩ := List.mem_map.mp he
    obtain ⟨ref, -, hr⟩ := List.mem_filterMap.mp hr
    exact fun hfile => (hends hopen hend).reference hr hfile (Or.inl rfl)

end SetupScript

/-- **What is logged while types are inlined** tells lines of the script. -/
theorem tells_inlineTypes {world : World} {project : Project} {path code : String}
    {script : SetupScript} (hworld : world.Lineless)
    (h : SetupScript.ofComponent? project.macros path code = .ok (some script)) (strict : Bool) :
    ∀ e ∈ (inlineTypes world project strict path code).events,
      e.Tells path (script.Told (world.LeadsTo path) strict path) (script.ToldTwice path) := by
  generalize hrun : inlineTypes world project strict path code = run
  cases inlines hrun with
  | unreadable hcomponent => exact absurd (h.symm.trans hcomponent) (by simp)
  | silent => exact fun _ he => absurd he List.not_mem_nil
  | script hcomponent hasks =>
    rw [← hrun, inlineTypes_eq_script world strict hcomponent hasks]
    obtain rfl := Option.some.inj (Except.ok.inj (h.symm.trans hcomponent))
    exact SetupScript.tells_inlineTypes hworld h project.cleaning strict

/-! ### The lines of a component -/

theorem Event.Tells.mono {file : String} {told told' : String → Nat → Prop}
    {twice twice' : String → Nat → Nat → Prop} {e : Event} (h : e.Tells file told twice)
    (htold : ∀ name line, told name line → told' name line)
    (htwice : ∀ name first line, twice name first line → twice' name first line) :
    e.Tells file told' twice' := by
  cases e with
  | redeclared path line name first => exact fun hfile => htwice _ _ _ (h hfile)
  | redundantAlias path line name first firstLine =>
    exact fun hfile => ⟨htold _ _ (h hfile).1, htold _ _ (h hfile).2⟩
  | notFound path line name => exact fun hfile => htold _ _ (h hfile)
  | leftUnresolved path line name => exact fun hfile => htold _ _ (h hfile)
  | _ => trivial

/-- **The lines that are reported of a component.** The line that is listed for a request is the
line of the component on which the request stands. All that is logged of the component while types
are inlined, among it each warning of a name that is declared twice and of a name that stands for
the same as another one, tells lines that fall short of those of the component by the number of
lines in front of the script: with that number added, they are the lines of the component on which
the two declarations, or the places where the names can be seen, stand. -/
theorem located_of_inlineTypes {project : Project} {path code : String} {script : SetupScript}
    (h : SetupScript.ofComponent? project.macros path code = .ok (some script)) (t : FileTree)
    (read : String → Except Fault Bytes) (strict : Bool) :
    (∀ r line, (r, line) ∈ CommandLine.locatedRequests script code →
      line = script.element.lineIn code r.span.start) ∧
    ∀ e ∈ (inlineTypes ((World.ofTree t project.aliases).reading read) project strict path
      code).events,
      e.Tells path
        (fun name line => ∃ position,
          script.Shows ((World.ofTree t project.aliases).LeadsTo path) strict path name position ∧
            line + script.element.linesBefore code = script.element.lineIn code position)
        fun name first line => ∃ d d', script.WritesTwice path name d d' ∧
          first + script.element.linesBefore code = script.element.lineIn code d.span.start ∧
          line + script.element.linesBefore code = script.element.lineIn code d'.span.start := by
  constructor
  · intro r line hr
    obtain ⟨r', hr', heq⟩ := List.mem_map.mp hr
    obtain ⟨rfl, rfl⟩ := Prod.mk.inj heq
    have hshows : script.Shows False strict path r'.name r'.span.start := .request hr' (Or.inl rfl)
    rw [← SetupScript.lineIn_eq h (hshows.inside h)]
    rw [(SetupScript.ofComponent?_eq_iff.mp h).requests] at hr'
    rw [Request.line_of_mem_ofTree hr']
  · have hworld : ((World.ofTree t project.aliases).reading read).Lineless :=
      World.lineless_ofTree t project.aliases
    intro e he
    refine (tells_inlineTypes hworld h strict e he).mono ?_ ?_
    · rintro name line ⟨position, hshows, rfl⟩
      exact ⟨position, hshows, SetupScript.lineIn_eq h (hshows.inside h)⟩
    · rintro name first line ⟨d, d', htwice, rfl, rfl⟩
      exact ⟨d, d', htwice, SetupScript.lineIn_eq h (htwice.first.inside h),
        SetupScript.lineIn_eq h (htwice.last.inside h)⟩

/-! ### A component that warns of lines above -/

/-- A component that declares a type twice, behind a line of its own. -/
def declaresTwice : String :=
  "<template></template>\n" ++ componentOf
    "\ninterface P \x7b a: string \x7d\ninterface P \x7b b: string \x7d\ndefineProps<P>()\n"

set_option maxRecDepth 100000 in
/-- The warning has the lines of the script, which starts on the second line. -/
theorem exists_warning_declaresTwice : ∃ script,
    SetupScript.ofComponent? Project.standard.macros "/w/App.vue" declaresTwice =
      .ok (some script) ∧
      script.element.linesBefore declaresTwice = 1 ∧
      .redeclared "/w/App.vue" 3 "P" 2 ∈
        (inlineTypes (World.ofTree ⟨["w"], []⟩ []) .standard false "/w/App.vue"
          declaresTwice).events := by
  let content :=
    "\ninterface P \x7b a: string \x7d\ninterface P \x7b b: string \x7d\ndefineProps<P>()\n"
  have helement : ScriptElement.setup? declaresTwice =
      some ⟨content, 46, 46 + content.length, [("setup", ""), ("lang", "ts")]⟩ := by
    decide +kernel
  obtain ⟨run, hexpected, -⟩ := Inlining.exists_of_comesTo helement
    (show Inlining.comesTo (World.ofTree ⟨["w"], []⟩ []) .standard false "/w/App.vue" declaresTwice
      _ (fun script _ ended _ _ _ => decide (script.element.linesBefore declaresTwice = 1 ∧
        .redeclared "/w/App.vue" 3 "P" 2 ∈ ended.events)) = true by decide +kernel)
  obtain ⟨hbefore, hwarned⟩ := of_decide_eq_true hexpected
  refine ⟨run.script, run.component, hbefore, ?_⟩
  rw [inlineTypes_eq_script _ _ run.component run.asks, SetupScript.inlineTypes, run.opens]
  dsimp only
  rw [run.ends]
  exact List.mem_append_left _ hwarned

/-- Of the component, the warning told lines that are one line short. -/
theorem located_of_inlineTypes_declaresTwice : ∃ script,
    SetupScript.ofComponent? Project.standard.macros "/w/App.vue" declaresTwice =
      .ok (some script) ∧
      (∀ r line, (r, line) ∈ CommandLine.locatedRequests script declaresTwice →
        line = script.element.lineIn declaresTwice r.span.start) ∧
      ∃ d d', script.WritesTwice "/w/App.vue" "P" d d' ∧
        2 + 1 = script.element.lineIn declaresTwice d.span.start ∧
        3 + 1 = script.element.lineIn declaresTwice d'.span.start := by
  obtain ⟨script, hcomponent, hbefore, hwarned⟩ := exists_warning_declaresTwice
  obtain ⟨hlisted, hlogged⟩ := located_of_inlineTypes hcomponent ⟨["w"], []⟩
    (World.ofTree ⟨["w"], []⟩ []).read false
  obtain ⟨d, d', htwice, hfirst, hlast⟩ := hlogged _ hwarned rfl
  rw [hbefore] at hfirst hlast
  exact ⟨script, hcomponent, hlisted, d, d', htwice, hfirst, hlast⟩

/-- **A warning of other lines**: it tells of the lines 2 and 3 of a component that has the two
declarations on the lines 3 and 4. -/
theorem warned_of_other_lines : ∃ script d d',
    SetupScript.ofComponent? Project.standard.macros "/w/App.vue" declaresTwice =
      .ok (some script) ∧
      .redeclared "/w/App.vue" 3 "P" 2 ∈
        (inlineTypes (World.ofTree ⟨["w"], []⟩ []) .standard false "/w/App.vue"
          declaresTwice).events ∧
      script.WritesTwice "/w/App.vue" "P" d d' ∧
      script.element.lineIn declaresTwice d.span.start = 3 ∧
      script.element.lineIn declaresTwice d'.span.start = 4 := by
  obtain ⟨script, hcomponent, hbefore, hwarned⟩ := exists_warning_declaresTwice
  have hworld : (World.ofTree ⟨["w"], []⟩ []).Lineless := World.lineless_ofTree _ _
  obtain ⟨d, d', htwice, hfirst, hlast⟩ := tells_inlineTypes hworld hcomponent false _ hwarned rfl
  refine ⟨script, d, d', hcomponent, hwarned, htwice, ?_, ?_⟩
  · rw [← SetupScript.lineIn_eq hcomponent (htwice.first.inside hcomponent), hbefore, ← hfirst]
  · rw [← SetupScript.lineIn_eq hcomponent (htwice.last.inside hcomponent), hbefore, ← hlast]

end TypeGraft
