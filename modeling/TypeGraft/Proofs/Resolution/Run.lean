import TypeGraft.Extraction
import TypeGraft.Proofs.Harvest.Change

/-!
# Runs of a search

A run is any number of steps, one after the other (`TypeGraft.Resolution.Steps`).
`TypeGraft.Resolution.run` takes as many of them as it has steps to spend, and comes to an end
only where no work is left (`TypeGraft.Harvest.exists_steps_of_search`). So what every step keeps
holds at the end of each search, however many steps were granted.

What a step does is said once, as a relation with one case for each of the things it can do
(`TypeGraft.Resolution.Stepped`, and `TypeGraft.Resolution.Enters` for the two that go into a
module). That a step is one of these is `TypeGraft.Resolution.step_eq_iff`, so whatever a step keeps
is proved by cases on the relation.

`TypeGraft.Harvest.Opened` says how the harvest of a search is made: for a script that asks for
types, or for a file whose exports are asked for.

What comes of asking for a file is said once (`TypeGraft.Harvest.Outlined`), and so is what comes of
following a specifier (`TypeGraft.Harvest.Led`). Whatever such a request keeps is proved by cases on
these.
-/

namespace TypeGraft

/-- How the work in a file goes on when a name was looked for. -/
def Found.stage (q : Query) (queue : List Query) (missing : List (Query × Binding))
    (starred : List Query) : Found → Stage
  | .settled => .names queue missing starred
  | .elsewhere binding => .names queue (missing ++ [(q, binding)]) starred
  | .starred => .names queue missing (starred ++ [q])
  | .declared mentioned => .names (queue ++ mentioned) missing starred

namespace Resolution

variable {world : World} {r r' : Resolution} {p : Progress} {s : Harvest} {frame : Frame}
  {rest : List Frame} {specifier : String} {queries : List Query}

/-! ### What a step does -/

/-- **What comes of going into a module**: the specifier leads astray, or to no file, or the names
are looked for in the file that it leads to. -/
inductive Enters (world : World) (s : Harvest) (frame : Frame) (rest : List Frame)
    (specifier : String) (queries : List Query) : Progress → Prop where
  | astray {s' : Harvest} {failure : Failure} (hmodule : s.moduleOutline world frame.outline.path
      specifier queries = (s', .error failure)) :
      Enters world s frame rest specifier queries (.failed s' failure)
  | nowhere {s' : Harvest} (hmodule : s.moduleOutline world frame.outline.path specifier queries =
      (s', .ok none)) : Enters world s frame rest specifier queries (.running ⟨s', frame :: rest⟩)
  | file {s' : Harvest} {o : Outline} (hmodule : s.moduleOutline world frame.outline.path specifier
      queries = (s', .ok (some o))) : Enters world s frame rest specifier queries
        (.running ⟨s', ⟨o, .names queries [] []⟩ :: frame :: rest⟩)

theorem enter_eq_iff : enter world s frame rest specifier queries = p ↔
    Enters world s frame rest specifier queries p := by
  constructor
  · rintro rfl
    unfold enter
    split
    · next hmodule => exact .astray hmodule
    · next hmodule => exact .nowhere hmodule
    · next hmodule => exact .file hmodule
  · intro h
    cases h with
    | astray hmodule | nowhere hmodule | file hmodule => rw [enter, hmodule]

/-- **What a step does**: it looks for the next name in a file, puts those that come from other
files in order, goes into the next module, or leaves the file. -/
inductive Stepped (world : World) : Resolution → Progress → Prop where
  | done {s : Harvest} : Stepped world ⟨s, []⟩ (.finished s)
  | names {s s' : Harvest} {o : Outline} {q : Query} {queue : List Query}
      {missing : List (Query × Binding)} {starred : List Query} {rest : List Frame} {found : Found}
      (hlook : s.look o q = (s', found)) :
      Stepped world ⟨s, ⟨o, .names (q :: queue) missing starred⟩ :: rest⟩
        (.running ⟨s', ⟨o, found.stage q queue missing starred⟩ :: rest⟩)
  | regroup {s : Harvest} {o : Outline} {missing : List (Query × Binding)} {starred : List Query}
      {rest : List Frame} : Stepped world ⟨s, ⟨o, .names [] missing starred⟩ :: rest⟩
        (.running ⟨s, ⟨o, .modules (s.groups missing) starred⟩ :: rest⟩)
  | module {s : Harvest} {o : Outline} {specifier : String} {queries : List Query}
      {groups : List (String × List Query)} {starred : List Query} {rest : List Frame}
      {p : Progress}
      (henter : Enters world s ⟨o, .modules groups starred⟩ rest specifier queries p) :
      Stepped world ⟨s, ⟨o, .modules ((specifier, queries) :: groups) starred⟩ :: rest⟩ p
  | stars {s : Harvest} {o : Outline} {starred : List Query} {rest : List Frame} :
      Stepped world ⟨s, ⟨o, .modules [] starred⟩ :: rest⟩
        (.running ⟨s, ⟨o, .stars o.starExports starred⟩ :: rest⟩)
  | star {s : Harvest} {o : Outline} {specifier : String} {specifiers : List String}
      {pending : List Query} {rest : List Frame} {p : Progress}
      (hmissing : s.stillMissing pending ≠ [])
      (henter : Enters world s ⟨o, .stars specifiers (s.stillMissing pending)⟩ rest specifier
        (s.stillMissing pending) p) :
      Stepped world ⟨s, ⟨o, .stars (specifier :: specifiers) pending⟩ :: rest⟩ p
  | leave {s : Harvest} {o : Outline} {specifiers : List String} {pending : List Query}
      {rest : List Frame} (hend : specifiers = [] ∨ s.stillMissing pending = []) :
      Stepped world ⟨s, ⟨o, .stars specifiers pending⟩ :: rest⟩ (.running ⟨s, rest⟩)

theorem Stepped.step_eq (h : Stepped world r p) : step world r = p := by
  cases h with
  | done | regroup | stars => rfl
  | @names s s' o q queue missing starred rest found hlook =>
    unfold step
    dsimp only
    rw [hlook]
    cases found <;> rfl
  | module henter => exact enter_eq_iff.mpr henter
  | star hmissing henter =>
    obtain ⟨query, pending, hpending⟩ := List.exists_cons_of_ne_nil hmissing
    rw [hpending] at henter
    unfold step
    dsimp only
    rw [hpending]
    exact enter_eq_iff.mpr henter
  | @leave s o specifiers pending rest hend =>
    rcases hend with rfl | hend
    · rfl
    · unfold step
      dsimp only
      rw [hend]
      cases specifiers <;> rfl

theorem exists_stepped (world : World) (r : Resolution) : ∃ p, Stepped world r p := by
  obtain ⟨s, frames⟩ := r
  cases frames with
  | nil => exact ⟨_, .done⟩
  | cons frame rest =>
    obtain ⟨o, stage⟩ := frame
    cases stage with
    | names queue missing starred =>
      cases queue with
      | nil => exact ⟨_, .regroup⟩
      | cons q queue => exact ⟨_, .names rfl⟩
    | modules groups starred =>
      cases groups with
      | nil => exact ⟨_, .stars⟩
      | cons group groups => exact ⟨_, .module (enter_eq_iff.mp rfl)⟩
    | stars specifiers pending =>
      cases specifiers with
      | nil => exact ⟨_, .leave (Or.inl rfl)⟩
      | cons specifier specifiers =>
        by_cases hmissing : s.stillMissing pending = []
        · exact ⟨_, .leave (Or.inr hmissing)⟩
        · exact ⟨_, .star hmissing (enter_eq_iff.mp rfl)⟩

/-- **A step does one of these things**, so what holds of a step is proved by cases on them. -/
theorem step_eq_iff : step world r = p ↔ Stepped world r p := by
  constructor
  · rintro rfl
    obtain ⟨p, h⟩ := exists_stepped world r
    rw [h.step_eq]
    exact h
  · exact Stepped.step_eq

/-- Some steps of a search, one after the other. -/
def Steps (world : World) : Resolution → Resolution → Prop :=
  Relation.ReflTransGen fun r r' => step world r = .running r'

/-- A search is finished where no work is left. -/
theorem finished_of_step (h : step world r = .finished s) : r.frames = [] ∧ r.harvest = s := by
  cases step_eq_iff.mp h with
  | done => exact ⟨rfl, rfl⟩
  | module henter => cases henter
  | star _ henter => cases henter

theorem steps_of_advance {steps : Nat} (h : advance world steps r = .running r') :
    Steps world r r' := by
  induction steps generalizing r with
  | zero => rw [Progress.running.inj h]; exact Relation.ReflTransGen.refl
  | succ steps ih =>
    rw [advance] at h
    split at h
    · next next hstep =>
      split at h
      · exact (ih h).head hstep
      · rw [← Progress.running.inj h]
        exact Relation.ReflTransGen.single hstep
    · next hstep => exact absurd h (hstep r')

theorem exists_steps_of_advance {steps : Nat} (h : advance world steps r = .finished s) :
    ∃ r', Steps world r r' ∧ r'.frames = [] ∧ r'.harvest = s := by
  induction steps generalizing r with
  | zero => exact absurd h (by simp [advance])
  | succ steps ih =>
    rw [advance] at h
    split at h
    · next next hstep =>
      split at h
      · obtain ⟨r', hr', hend⟩ := ih h
        exact ⟨r', hr'.head hstep, hend⟩
      · exact absurd h (by simp)
    · exact ⟨r, Relation.ReflTransGen.refl, finished_of_step h⟩

/-- **A run that finishes has taken steps to a state in which no work is left.** -/
theorem exists_steps_of_run {reads : Nat} (h : run world reads r = .finished s) :
    ∃ r', Steps world r r' ∧ r'.frames = [] ∧ r'.harvest = s := by
  induction reads generalizing r with
  | zero => exact absurd h (by simp [run])
  | succ reads ih =>
    rw [run] at h
    split at h
    · next next hadvance =>
      obtain ⟨r', hr', hend⟩ := ih h
      exact ⟨r', Relation.ReflTransGen.trans (steps_of_advance hadvance) hr', hend⟩
    · next s' hadvance =>
      rw [← Result.finished.inj h]
      exact exists_steps_of_advance hadvance
    · exact absurd h (by simp)

/-- The harvest that a run ends with, and why it failed if it did. -/
def Result.outcome : Result → Harvest × Except Failure Unit
  | finished s => (s, .ok ())
  | failed s failure => (s, .error failure)
  | unfinished r => (r.harvest, .error .unfinished)

end Resolution

namespace Harvest

variable {world : World} {s s' : Harvest} {o : Outline} {path : String}

/-- The search for some requests, before its first step. -/
def begun (s : Harvest) (o : Outline) (requests : List RootRequest) (external : Bool) :
    Resolution :=
  Resolution.begin_ s o (requests.map fun r => (r.name, r.span, r.line)) external

/-- **A search** is a run, of which only the harvest and the failure are told. -/
theorem search_eq (world : World) (s : Harvest) (o : Outline) (requests : List RootRequest)
    (external : Bool) : s.search world o requests external =
      (Resolution.run world (world.places.length + 2) (s.begun o requests external)).outcome := by
  unfold search begun
  dsimp only
  cases Resolution.run world (world.places.length + 2) (Resolution.begin_ s o
    (requests.map fun r => (r.name, r.span, r.line)) external) <;> rfl

/-- **What a search comes to**, it comes to by steps. -/
theorem exists_steps_of_search {requests : List RootRequest} {external : Bool}
    (h : s.search world o requests external = (s', .ok ())) :
    ∃ r, Resolution.Steps world (s.begun o requests external) r ∧ r.frames = [] ∧
      r.harvest = s' := by
  unfold search at h
  dsimp only at h
  split at h
  · next hrun =>
    obtain ⟨rfl, -⟩ := Prod.mk.inj h
    exact Resolution.exists_steps_of_run hrun
  · exact absurd (Prod.mk.inj h).2 (by simp)
  · exact absurd (Prod.mk.inj h).2 (by simp)

/-- **How a search is opened**: by a script that asks for types, or for a file whose exports
are asked for. -/
inductive Opened (world : World) : Harvest → Outline → Prop where
  | script {strict : Bool} {path : String} {source : Bytes} {tree : Syntax.Node} {o : Outline}
      {events : List Event} (h : Outline.ofTree strict path source tree = .ok (o, events)) :
      Opened world (((start strict (some path)).enter o).log events) o
  | file {strict : Bool} {path : String} {s : Harvest} {o : Outline}
      (h : (start strict none).outlineOf world path = (s, .ok o)) : Opened world s o

/-! ### Reading files -/

/-- What is scanned is the tree of the text, in the dialect of its path. -/
theorem exists_tree_of_outline {strict : Bool} {source : Bytes} {events : List Event}
    (h : Script.outline strict path source = .ok (o, events)) :
    ∃ tree, Script.tree ((Script.dialect? path).getD .plain) path source = .ok tree ∧
      Outline.ofTree strict path source tree = .ok (o, events) := by
  unfold Script.outline at h
  cases htree : Script.tree ((Script.dialect? path).getD .plain) path source with
  | error fault => rw [htree] at h; exact absurd h (by simp [Except.bind])
  | ok tree =>
    rw [htree] at h
    exact ⟨tree, rfl, h⟩

theorem wellFormed_of_outline {strict : Bool} {source : Bytes} {events : List Event}
    (h : Script.outline strict path source = .ok (o, events)) : o.path = path ∧ o.WellFormed := by
  obtain ⟨tree, -, hscan⟩ := exists_tree_of_outline h
  exact Outline.wellFormed_ofTree hscan

/-- **What comes of asking for a file.** -/
inductive Outlined (world : World) (s : Harvest) (path : String) :
    Harvest → Except Failure Outline → Prop where
  /-- It was read before. -/
  | known {o : Outline} (hfile : s.files.get? path = some o) : Outlined world s path s (.ok o)
  /-- It cannot be read, or something is wrong with what is in it. -/
  | faulty {fault : Fault} (hnew : s.files.get? path = none) :
      Outlined world s path { s with reads := s.reads ++ [path] } (.error (.fault fault))
  /-- It is read now. -/
  | read {source : Bytes} {o : Outline} {events : List Event} (hnew : s.files.get? path = none)
      (hread : world.read path = .ok source)
      (hscan : Script.outline s.strict path source = .ok (o, events)) :
      Outlined world s path
        ((addFile { s with reads := s.reads ++ [path] } o).log
          (events ++ [.loaded path o.declarations.length])) (.ok o)

theorem outlined {result : Except Failure Outline} (h : s.outlineOf world path = (s', result)) :
    Outlined world s path s' result := by
  unfold outlineOf at h
  split at h
  · next hfile =>
    obtain ⟨rfl, rfl⟩ := Prod.mk.inj h
    exact .known hfile
  · next hnew =>
    dsimp only at h
    split at h
    · obtain ⟨rfl, rfl⟩ := Prod.mk.inj h
      exact .faulty hnew
    · next hread =>
      split at h
      · obtain ⟨rfl, rfl⟩ := Prod.mk.inj h
        exact .faulty hnew
      · next hscan =>
        obtain ⟨rfl, rfl⟩ := Prod.mk.inj h
        exact .read hnew hread hscan

/-- What is in a file, as far as a search can tell, is what comes of asking for it. -/
theorem outlined_of_sources (h : s.sources world path = some o) :
    ∃ s', Outlined world s path s' (.ok o) := by
  rw [sources] at h
  cases houtline : s.outlineOf world path with
  | mk s' result =>
    rw [houtline] at h
    cases result with
    | error failure => exact absurd h (by simp [Except.toOption])
    | ok o' =>
      obtain rfl : o' = o := Option.some.inj h
      exact ⟨s', outlined houtline⟩

/-- Asking for a file changes nothing but what was read. -/
theorem exists_outlineOf (world : World) (s : Harvest) (path : String) : ∃ files reads events,
    (s.outlineOf world path).1 = { s with files, reads, events } := by
  cases houtline : s.outlineOf world path with
  | mk s' result => cases outlined houtline <;> exact ⟨_, _, _, rfl⟩

/-- **What comes of looking into the module** that a specifier leads to. -/
inductive Led (world : World) (s : Harvest) (origin specifier : String) :
    Harvest → Except Failure (Option Outline) → Prop where
  /-- The world cannot tell where it leads to. -/
  | astray {failure : Failure} {events : List Event}
      (hlocate : (world.locate specifier origin).1 = .error failure) :
      Led world s origin specifier (s.log events) (.error failure)
  /-- It leads to no file. -/
  | nowhere {events more : List Event} (hlocate : (world.locate specifier origin).1 = .ok none) :
      Led world s origin specifier ((s.log events).log more) (.ok none)
  /-- Something is wrong with the file that it leads to. -/
  | faulty {path : String} {s' : Harvest} {fault : Fault} {events : List Event}
      (houtline : (s.log events).outlineOf world path = (s', .error (.fault fault))) :
      Led world s origin specifier s' (.error (.fault fault))
  /-- It leads to a file with an outline. -/
  | outlined {path : String} {s' : Harvest} {o : Outline} {events : List Event}
      (hlocate : (world.locate specifier origin).1 = .ok (some path))
      (houtline : (s.log events).outlineOf world path = (s', .ok o)) :
      Led world s origin specifier s' (.ok (some o))

theorem led {origin specifier : String} {queries : List Query}
    {result : Except Failure (Option Outline)}
    (h : s.moduleOutline world origin specifier queries = (s', result)) :
    Led world s origin specifier s' result := by
  unfold moduleOutline at h
  cases hlocated : world.locate specifier origin with
  | mk found events =>
    have hlocate := congrArg Prod.fst hlocated
    rw [hlocated] at h
    dsimp only at h
    split at h
    · obtain ⟨rfl, rfl⟩ := Prod.mk.inj h
      exact .astray hlocate
    · obtain ⟨rfl, rfl⟩ := Prod.mk.inj h
      exact .nowhere hlocate
    · next path =>
      cases houtline : (s.log events).outlineOf world path with
      | mk s₁ result₁ =>
        rw [houtline] at h
        obtain ⟨rfl, rfl⟩ := Prod.mk.inj h
        have houtlined := outlined houtline
        cases result₁ with
        | ok o => exact .outlined hlocate houtline
        | error failure =>
          obtain ⟨fault, rfl⟩ : ∃ fault, failure = .fault fault := by
            cases houtlined with
            | faulty => exact ⟨_, rfl⟩
          exact .faulty houtline

/-- Looking into a module changes nothing but what was read. -/
theorem exists_moduleOutline (world : World) (s : Harvest) (origin specifier : String)
    (queries : List Query) : ∃ files reads events,
      (s.moduleOutline world origin specifier queries).1 = { s with files, reads, events } := by
  cases hmodule : s.moduleOutline world origin specifier queries with
  | mk s' result =>
    cases led hmodule with
    | astray => exact ⟨_, _, _, rfl⟩
    | nowhere => exact ⟨_, _, _, rfl⟩
    | @faulty path _ _ events houtline | @outlined path _ _ events _ houtline =>
      obtain ⟨files, reads, events, heq⟩ := exists_outlineOf world (s.log events) path
      rw [houtline] at heq
      exact ⟨files, reads, events, heq⟩

/-- **A file that is asked for is read**, or was read before. -/
theorem changes_of_outlineOf (hgrounded : s.Grounded)
    (h : s.outlineOf world path = (s', .ok o)) :
    Changes world s s' ∧ s'.references = s.references ∧ s'.synonyms = s.synonyms ∧
      s'.files.get? path = some o ∧ o.path = path := by
  have hsource : s.sources world path = some o := by
    rw [sources, h]
    rfl
  cases outlined h with
  | known hfile =>
    exact ⟨Relation.ReflTransGen.refl, rfl, rfl, hfile, (hgrounded.outline _ _ hfile).1⟩
  | read hnew _ hscan =>
    obtain ⟨rfl, hw⟩ := wellFormed_of_outline hscan
    let noted : Harvest := { s with reads := s.reads ++ [o.path] }
    have hnote : Change world s noted :=
      Change.note s.synonyms s.events (s.reads ++ [o.path]) s.parentRefs
    have hnoted : noted.sources world o.path = s.sources world o.path := sources_congr rfl rfl
    have hload : Change world noted (noted.addFile o) := Change.load hw hnew (hnoted.trans hsource)
    exact ⟨((Relation.ReflTransGen.single hnote).tail hload).tail (Change.note _ _ _ _), rfl, rfl,
      Table.get?_put_self _ _ _, rfl⟩

/-- **A module that names are looked for in** is the file that its specifier leads to. -/
theorem changes_of_moduleOutline {origin specifier : String} {queries : List Query}
    {found : Option Outline} (hgrounded : s.Grounded)
    (h : s.moduleOutline world origin specifier queries = (s', .ok found)) :
    Changes world s s' ∧ s'.references = s.references ∧ s'.synonyms = s.synonyms ∧
      (world.locate specifier origin).1 = .ok (found.map (·.path)) ∧
      ∀ o, found = some o → s'.files.get? o.path = some o := by
  have hlog : ∀ events, Change world s (s.log events) :=
    fun _ => Change.note s.synonyms _ s.reads s.parentRefs
  cases led h with
  | nowhere hlocate =>
    exact ⟨(Relation.ReflTransGen.single (hlog _)).tail (Change.note _ _ _ _), rfl, rfl, hlocate,
      fun _ h => absurd h (by simp)⟩
  | outlined hlocate houtline =>
    obtain ⟨hchanges, hreferences, hsynonyms, hfile, rfl⟩ :=
      changes_of_outlineOf (hgrounded.change (hlog _)) houtline
    refine ⟨hchanges.head (hlog _), hreferences, hsynonyms, hlocate, ?_⟩
    intro o' ho'
    obtain rfl := Option.some.inj ho'
    exact hfile

end Harvest

end TypeGraft
