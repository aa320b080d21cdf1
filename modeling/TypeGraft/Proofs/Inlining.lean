import TypeGraft.Inlining
import TypeGraft.Proofs.Component.Attributes
import TypeGraft.Proofs.Harvest.Circles
import TypeGraft.Proofs.Resolution.Session
import TypeGraft.Proofs.Splice.Edits
import TypeGraft.Proofs.Splice.Merge

/-!
# Runs that inline types

When types are inlined into a component without an error, either the component is left as it is,
since it has no script that asks for anything, or its script is searched and spliced
(`TypeGraft.Inlining`). What comes out of the second can be told from the run
(`TypeGraft.Inlining.outcome_eq`), so what holds of all such runs holds of all components.
-/

namespace TypeGraft

variable {world : World} {project : Project} {strict : Bool} {path code : String}

/-- **A script that stands in a component**: its source is the content of the element, the tree is
that of the source, and what it asks for is read from the tree. -/
structure SetupScript.StandsIn (script : SetupScript) (macros : List String) (path code : String) :
    Prop where
  element : ScriptElement.setup? code = some script.element
  source : script.source = Bytes.ofString script.element.content
  tree : Script.tree .plain path script.source = .ok script.tree
  requests : script.requests = Request.ofTree macros script.source script.tree

theorem SetupScript.ofComponent?_eq_iff {macros : List String} {script : SetupScript} :
    ofComponent? macros path code = .ok (some script) ↔ script.StandsIn macros path code := by
  constructor
  · intro h
    unfold ofComponent? at h
    split at h
    · exact absurd h (by simp)
    · next element helement =>
      dsimp only at h
      split at h
      · exact absurd h (by simp)
      · next tree htree =>
        rw [← Option.some.inj (Except.ok.inj h)]
        exact ⟨helement, rfl, htree, rfl⟩
  · intro h
    unfold ofComponent?
    rw [h.element]
    dsimp only
    rw [← h.source, h.tree]
    dsimp only
    rw [← h.requests]

/-- A script that is opened is scanned and entered. -/
theorem SetupScript.exists_scan_of_open {script : SetupScript} {s : Harvest} {o : Outline}
    (h : script.open_ strict path = .ok (s, o)) :
    ∃ events, Outline.ofTree strict path script.source script.tree = .ok (o, events) ∧
      s = ((Harvest.start strict (some path)).enter o).log events := by
  unfold open_ at h
  cases hscan : Outline.ofTree strict path script.source script.tree with
  | error fault =>
    rw [hscan] at h
    exact absurd h (by simp [Except.map])
  | ok scanned =>
    obtain ⟨o', events⟩ := scanned
    rw [hscan] at h
    obtain ⟨rfl, rfl⟩ := Prod.mk.inj (Except.ok.inj h)
    exact ⟨events, rfl, rfl⟩

/-- A script is opened as one that asks for types. -/
theorem SetupScript.opened (world : World) {script : SetupScript} {s : Harvest} {o : Outline}
    (h : script.open_ strict path = .ok (s, o)) :
    Harvest.Opened world s o ∧ s.entry = some o.path ∧ o.path = path ∧
      o.source = script.source := by
  obtain ⟨events, hscan, rfl⟩ := exists_scan_of_open h
  exact ⟨Harvest.Opened.script hscan, rfl, (Outline.wellFormed_ofTree hscan).1,
    (Outline.sound_ofTree hscan).1⟩

/-- **A run that inlines types** into the component at a path, from its script to its new code. -/
structure Inlining (world : World) (project : Project) (strict : Bool) (path code : String) where
  script : SetupScript
  opened : Harvest
  outline : Outline
  ended : Harvest
  orders : Orders
  splice : Splice
  newCode : String
  component : SetupScript.ofComponent? project.macros path code = .ok (some script)
  asks : script.requests.isEmpty = false
  opens : script.open_ strict path = .ok (opened, outline)
  ends : opened.searchAndSplice world outline script.rootRequests false project.cleaning =
    (ended, .ok (orders, splice))
  inserts : script.newCode code splice = .ok newCode

/-- What is reported of a script whose types were inlined. -/
def SetupScript.report (script : SetupScript) (ended : Harvest) (orders : Orders) (splice : Splice)
    (code newCode : String) : Inlined where
  code := newCode
  changed := newCode != code
  requested := script.requests.map (·.name)
  emitted := splice.emitted
  unresolved := ended.logUnbound.missingRequests
  loaded := ended.logUnbound.loaded
  cycles := ended.logUnbound.circleNames orders
  error := none

/-- A run that ends at a fault leaves the component as it is, and tells the fault, or fails. -/
theorem eq_unchanged_of_giveUp {reads : List String} {events : List Event} {fault : Fault}
    {inlined : Inlined} (h : (giveUp strict path code reads events fault).outcome = .ok inlined) :
    inlined = .unchanged code (some fault.message) := by
  unfold giveUp at h
  split at h
  · exact absurd h (by simp)
  · exact (Except.ok.inj h).symm

/-- **What comes of inlining the types of a script.** -/
inductive SetupScript.Inlines (script : SetupScript) (world : World) (clean : Cleaning)
    (strict : Bool) (path code : String) : Run Inlined → Prop where
  /-- The script cannot be entered. -/
  | unopened {fault : Fault} (hopen : script.open_ strict path = .error fault) :
      script.Inlines world clean strict path code (giveUp strict path code [] [] fault)
  /-- The search or the splicing comes to a fault. -/
  | faulty {s s' : Harvest} {o : Outline} {fault : Fault}
      (hopen : script.open_ strict path = .ok (s, o))
      (hends : s.searchAndSplice world o script.rootRequests false clean =
        (s', .error (.fault fault))) :
      script.Inlines world clean strict path code (giveUp strict path code s'.reads s'.events fault)
  /-- One of them fails for a reason that is no fault. -/
  | failed {s s' : Harvest} {o : Outline} {failure : Failure}
      (hopen : script.open_ strict path = .ok (s, o)) (hfailure : ∀ fault, failure ≠ .fault fault)
      (hends : s.searchAndSplice world o script.rootRequests false clean = (s', .error failure)) :
      script.Inlines world clean strict path code (s'.finish (.error failure))
  /-- The types are put in. -/
  | spliced {s s' : Harvest} {o : Outline} {orders : Orders} {splice : Splice}
      (hopen : script.open_ strict path = .ok (s, o))
      (hends : s.searchAndSplice world o script.rootRequests false clean =
        (s', .ok (orders, splice))) :
      script.Inlines world clean strict path code
        (s'.logUnbound.finish
          ((script.newCode code splice).map (script.report s' orders splice code)))

theorem SetupScript.inlines {script : SetupScript} {clean : Cleaning} {run : Run Inlined}
    (h : script.inlineTypes world clean strict path code = run) :
    script.Inlines world clean strict path code run := by
  subst h
  unfold inlineTypes
  split
  · next hopen => exact .unopened hopen
  · next hopen =>
    split
    · next hends => exact .faulty hopen hends
    · next hfailure hends => exact .failed hopen hfailure hends
    · next hends => exact .spliced hopen hends

/-- **What comes of inlining types.** -/
inductive Inlines (world : World) (project : Project) (strict : Bool) (path code : String) :
    Run Inlined → Prop where
  /-- The setup script cannot be read. -/
  | unreadable {fault : Fault}
      (hcomponent : SetupScript.ofComponent? project.macros path code = .error fault) :
      Inlines world project strict path code (giveUp strict path code [] [] fault)
  /-- No script asks for types. -/
  | silent (hcomponent : ∀ script,
      SetupScript.ofComponent? project.macros path code = .ok (some script) →
      script.requests.isEmpty = true) :
      Inlines world project strict path code ⟨.ok (.unchanged code none), [], []⟩
  /-- The types of the script are inlined. -/
  | script {script : SetupScript} {run : Run Inlined}
      (hcomponent : SetupScript.ofComponent? project.macros path code = .ok (some script))
      (hasks : script.requests.isEmpty = false)
      (hrun : script.Inlines world project.cleaning strict path code run) :
      Inlines world project strict path code run

theorem inlines {run : Run Inlined} (h : inlineTypes world project strict path code = run) :
    Inlines world project strict path code run := by
  subst h
  unfold inlineTypes
  split
  · next hcomponent => exact .unreadable hcomponent
  · next hcomponent =>
    refine .silent fun script hscript => ?_
    rw [hcomponent] at hscript
    exact absurd hscript (by simp)
  · next script hcomponent =>
    split
    · next hnothing =>
      refine .silent fun script' hscript => ?_
      rw [hcomponent] at hscript
      obtain rfl := Option.some.inj (Except.ok.inj hscript)
      exact hnothing
    · next hasks => exact .script hcomponent (by simpa using hasks) (SetupScript.inlines rfl)

/-- A component with a script that asks for types has these inlined. -/
theorem inlineTypes_eq_script {script : SetupScript} (world : World) (strict : Bool)
    (hcomponent : SetupScript.ofComponent? project.macros path code = .ok (some script))
    (hasks : script.requests.isEmpty = false) : inlineTypes world project strict path code =
      script.inlineTypes world project.cleaning strict path code := by
  unfold inlineTypes
  rw [hcomponent]
  dsimp only
  rw [hasks, if_neg (by simp)]

namespace Inlining

/-- What a run comes to. -/
def result (run : Inlining world project strict path code) : Inlined where
  code := run.newCode
  changed := run.newCode != code
  requested := run.script.requests.map (·.name)
  emitted := run.splice.emitted
  unresolved := run.ended.logUnbound.missingRequests
  loaded := run.ended.logUnbound.loaded
  cycles := run.ended.logUnbound.circleNames run.orders
  error := none

/-- **What types are inlined to** is what the run comes to. -/
theorem outcome_eq (run : Inlining world project strict path code) :
    (inlineTypes world project strict path code).outcome = .ok run.result := by
  rw [inlineTypes_eq_script world strict run.component run.asks, SetupScript.inlineTypes, run.opens]
  dsimp only
  rw [run.ends]
  dsimp only
  rw [run.inserts]
  rfl

theorem reads_eq (run : Inlining world project strict path code) :
    (inlineTypes world project strict path code).reads = run.ended.reads := by
  rw [inlineTypes_eq_script world strict run.component run.asks, SetupScript.inlineTypes, run.opens]
  dsimp only
  rw [run.ends]
  rfl

/-- The run for a component, if it comes to its end. -/
def of? (world : World) (project : Project) (strict : Bool) (path code : String) :
    Option (Inlining world project strict path code) :=
  match component : SetupScript.ofComponent? project.macros path code with
  | .error _ => none
  | .ok none => none
  | .ok (some script) =>
    if asks : script.requests.isEmpty = false then
      match opens : script.open_ strict path with
      | .error _ => none
      | .ok (opened, outline) =>
        match ends : opened.searchAndSplice world outline script.rootRequests false
            project.cleaning with
        | (_, .error _) => none
        | (ended, .ok (orders, splice)) =>
          match inserts : script.newCode code splice with
          | .error _ => none
          | .ok newCode => some
            ⟨script, opened, outline, ended, orders, splice, newCode, component, asks, opens, ends,
              inserts⟩
    else none

/-- There is only one run for a component. -/
theorem of?_eq (run : Inlining world project strict path code) :
    of? world project strict path code = some run := by
  obtain ⟨script, opened, outline, ended, orders, splice, newCode, component, asks, opens, ends,
    inserts⟩ := run
  unfold of?
  split
  · next h => exact absurd (component.symm.trans h) (by simp)
  · next h => exact absurd (component.symm.trans h) (by simp)
  · next script' h =>
    obtain rfl : script = script' := by simpa using component.symm.trans h
    rw [dif_pos asks]
    split
    · next h => exact absurd (opens.symm.trans h) (by simp)
    · next opened' outline' h =>
      obtain ⟨rfl, rfl⟩ : opened = opened' ∧ outline = outline' := by
        simpa using opens.symm.trans h
      split
      · next h => exact absurd (ends.symm.trans h) (by simp)
      · next ended' orders' splice' h =>
        obtain ⟨rfl, rfl, rfl⟩ : ended = ended' ∧ orders = orders' ∧ splice = splice' := by
          simpa using ends.symm.trans h
        split
        · next h => exact absurd (inserts.symm.trans h) (by simp)
        · next newCode' h =>
          obtain rfl : newCode = newCode' := by simpa using inserts.symm.trans h
          rfl

end Inlining

/-- **What types are inlined to** is the component as it is, with an error or without one, or there
is a run that comes to the same. -/
theorem exists_unchanged_or_exists_inlining {inlined : Inlined}
    (h : (inlineTypes world project strict path code).outcome = .ok inlined) :
    (∃ error, inlined = .unchanged code error) ∨
      ∃ run : Inlining world project strict path code, run.result = inlined := by
  generalize hrun : inlineTypes world project strict path code = run at h
  cases inlines hrun with
  | unreadable => exact Or.inl ⟨_, eq_unchanged_of_giveUp h⟩
  | silent => exact Or.inl ⟨none, (Except.ok.inj h).symm⟩
  | @script script _ hcomponent hasks hscript =>
    cases hscript with
    | unopened | faulty => exact Or.inl ⟨_, eq_unchanged_of_giveUp h⟩
    | failed => exact absurd h (by simp [Harvest.finish])
    | @spliced opened ended outline orders splice hopens hends =>
      cases hinserts : script.newCode code splice with
      | error failure =>
        rw [hinserts] at h
        exact absurd h (by simp [Harvest.finish, Except.map])
      | ok newCode =>
        rw [hinserts] at h
        exact Or.inr ⟨⟨script, opened, outline, ended, orders, splice, newCode, hcomponent,
          hasks, hopens, hends, hinserts⟩, Except.ok.inj h⟩

/-- **Types that are inlined without an error** leave the component as it is, or there is a run that
comes to the same. -/
theorem eq_unchanged_or_exists_inlining {inlined : Inlined}
    (h : (inlineTypes world project strict path code).outcome = .ok inlined)
    (herror : inlined.error = none) : inlined = .unchanged code none ∨
      ∃ run : Inlining world project strict path code, run.result = inlined := by
  refine (exists_unchanged_or_exists_inlining h).imp_left ?_
  rintro ⟨error, rfl⟩
  exact congrArg (Inlined.unchanged code) herror

/-! ### Trying a run -/

/-- Why a run failed, if it did. -/
def Run.failure? {α : Type} (run : Run α) : Option Failure :=
  match run.outcome with
  | .error failure => some failure
  | .ok _ => none

theorem Run.outcome_of_failure? {α : Type} {run : Run α} {failure : Failure}
    (h : run.failure? = some failure) : run.outcome = .error failure := by
  unfold failure? at h
  split at h
  · next hfailure => rw [hfailure, Option.some.inj h]
  · exact absurd h (by simp)

/-- A run leaves the entry script as it was entered. -/
theorem Harvest.entry_of_searchAndSplice {s s' : Harvest} {o : Outline}
    {requests : List RootRequest} {external : Bool} {clean : Cleaning} {orders : Orders}
    {splice : Splice} (hopened : Opened world s o) (hentry : s.entry = some o.path)
    (h : s.searchAndSplice world o requests external clean = (s', .ok (orders, splice))) :
    s'.entry = some o.path ∧ s'.files.get? o.path = some o ∧
      splice.edits = s'.edits orders clean := by
  obtain ⟨found, hfound, -, hspliced⟩ := exists_search_of_searchAndSplice h
  obtain ⟨-, hchanges⟩ := searching_of_search hopened hfound
  have hbegun := begun_eq hopened.unsearched requests external
  have hfile : found.files.get? o.path = some o :=
    hchanges.file (hbegun ▸ hopened.unsearched.file)
  have hentry : found.entry = some o.path := by
    rw [hchanges.entry, hbegun]
    exact hentry
  obtain ⟨⟨grafts, events, rfl⟩, -⟩ := exists_splice hspliced
  exact ⟨hentry, hfile, edits_of_splice hspliced⟩

/-- The new code of a component, from edits that are in order. -/
def SetupScript.codeFrom (script : SetupScript) (code block : String) (edits : List Replacement) :
    Option String :=
  if block = "" ∧ edits = [] then some code
  else if (Replacement.clash? edits).isSome then none
  else
    match Replacement.applyOrdered script.source (.whole script.source) edits with
    | .error _ => none
    | .ok bytes => bytes.toString?.map fun text =>
      script.inserted code (if block = "" then text else "\n" ++ block ++ "\n" ++ text)

theorem SetupScript.newCode_eq {script : SetupScript} {splice : Splice} {result : String}
    (hordered : Replacement.Ordered splice.edits)
    (h : script.codeFrom code splice.block splice.edits = some result) :
    script.newCode code splice = .ok result := by
  have hsame : Replacement.inOrder splice.edits = splice.edits :=
    Replacement.inOrder_eq (List.Perm.refl _) hordered
  unfold codeFrom at h
  unfold newCode
  split at h
  · next hnothing => rw [if_pos hnothing, Option.some.inj h]
  · next hsomething =>
    rw [if_neg hsomething, edited, Replacement.applyAll, hsame]
    split at h
    · exact absurd h (by simp)
    · next hclash =>
      rw [Option.not_isSome_iff_eq_none.mp hclash]
      dsimp only
      cases hbytes : Replacement.applyOrdered script.source (.whole script.source) splice.edits with
      | error failure =>
        rw [hbytes] at h
        exact absurd h (by simp)
      | ok bytes =>
        rw [hbytes] at h
        obtain ⟨text, htext, rfl⟩ := Option.map_eq_some_iff.mp h
        simp only [htext, Except.map]

namespace Inlining

/-- Whether the run for a component comes to what is expected of it. The edits are put in order by
insertion, as are the circles. -/
def comesTo (world : World) (project : Project) (strict : Bool) (path code : String)
    (element : ScriptElement)
    (expected : SetupScript → Outline → Harvest → Orders → Splice → String → Bool) : Bool :=
  let source := Bytes.ofString element.content
  match Script.tree .plain path source with
  | .error _ => false
  | .ok tree =>
    let script : SetupScript :=
      ⟨element, source, tree, Request.ofTree project.macros source tree⟩
    match script.open_ strict path with
    | .error _ => false
    | .ok (opened, outline) =>
      match opened.searchAndSpliceInserted world outline script.rootRequests false
          project.cleaning with
      | (_, .error _) => false
      | (ended, .ok (orders, splice)) =>
        let edits := (ended.rawEdits orders project.cleaning outline).insertionSort
          fun a b => a.span.le b.span = true
        match script.codeFrom code splice.block edits with
        | none => false
        | some newCode => !script.requests.isEmpty && decide (Replacement.Ordered edits) &&
          expected script outline ended orders { splice with edits } newCode

theorem exists_of_comesTo {element : ScriptElement}
    {expected : SetupScript → Outline → Harvest → Orders → Splice → String → Bool}
    (helement : ScriptElement.setup? code = some element)
    (h : comesTo world project strict path code element expected = true) :
    ∃ run : Inlining world project strict path code,
      expected run.script run.outline run.ended run.orders run.splice run.newCode = true ∧
      ∀ run' : Inlining world project strict path code, run' = run := by
  unfold comesTo at h
  dsimp only at h
  split at h
  · exact absurd h (by simp)
  · next tree htree =>
    split at h
    · exact absurd h (by simp)
    · next opened outline hopens =>
      split at h
      · exact absurd h (by simp)
      · next ended orders splice hends =>
        rw [← Harvest.searchAndSplice_eq] at hends
        split at h
        · exact absurd h (by simp)
        · next newCode hcode =>
          obtain ⟨h, hexpected⟩ := Bool.and_eq_true_iff.mp h
          obtain ⟨hasks, hordered⟩ := Bool.and_eq_true_iff.mp h
          have hordered := of_decide_eq_true hordered
          obtain ⟨hopened, hentry, -, -⟩ := SetupScript.opened world hopens
          obtain ⟨hentry, hfile, hedits⟩ := Harvest.entry_of_searchAndSplice hopened hentry hends
          have hsorted : splice.edits =
              (ended.rawEdits orders project.cleaning outline).insertionSort
                fun a b => a.span.le b.span = true := by
            rw [hedits, Harvest.edits_eq hentry hfile]
            exact Replacement.inOrder_eq (List.perm_insertionSort _ _) hordered
          rw [← hsorted] at hordered hcode hexpected
          have hcomponent : SetupScript.ofComponent? project.macros path code = .ok (some
              ⟨element, Bytes.ofString element.content, tree,
                Request.ofTree project.macros (Bytes.ofString element.content) tree⟩) :=
            SetupScript.ofComponent?_eq_iff.mpr ⟨helement, rfl, htree, rfl⟩
          let run : Inlining world project strict path code :=
            ⟨_, opened, outline, ended, orders, splice, newCode, hcomponent, by simpa using hasks,
              hopens, hends, SetupScript.newCode_eq hordered hcode⟩
          exact ⟨run, hexpected, fun run' =>
            Option.some.inj ((of?_eq run').symm.trans (of?_eq run))⟩

end Inlining

/-- A component with a setup script in the typed language, and nothing else. -/
def componentOf (script : String) : String :=
  "<script setup lang=\"ts\">" ++ script ++ "</script>\n"

/-- The element of the script in such a component. -/
def elementOf (script : String) : ScriptElement :=
  ⟨script, 24, 24 + script.length, [("setup", ""), ("lang", "ts")]⟩

theorem append_append_eq_ofList (front script back : String) :
    front ++ script ++ back =
      String.ofList (front.toList ++ (script.toList ++ back.toList)) := by
  rw [← String.toList_inj]
  simp

open ScriptElement in
/-- The script is found in such a component, unless it closes the element itself. -/
theorem ScriptElement.setup?_componentOf {script : String}
    (hfree : ¬HoldsClosingTag script.toList) :
    setup? (componentOf script) = some (elementOf script) := by
  have hnames : ([WrittenAttribute.setup, WrittenAttribute.lang].map fun a => a.entry.1).Nodup :=
    by decide
  have hvalues :
      ∀ a ∈ [WrittenAttribute.setup, WrittenAttribute.lang], ∀ v ∈ a.value, '>' ∉ v.text := by
    decide
  have hcode : componentOf script = String.ofList (writtenTag [.setup, .lang] [] ++
      '>' :: (script.toList ++ ("</script>".toList ++ ['\n']))) :=
    append_append_eq_ofList _ script _
  have hblanks : ∀ c ∈ [], Text.isBlank c = true := by simp
  obtain ⟨steps, position, hall⟩ := exists_all_written ['\n'] hnames hblanks hfree hvalues
  rw [setup?, hcode, hall, elementOf, ← String.length_toList, String.ofList_toList]
  exact List.find?_cons_of_pos rfl

end TypeGraft
