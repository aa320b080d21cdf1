import TypeGraft.Proofs.Harvest.Lines
import TypeGraft.Proofs.Harvest.Literal
import TypeGraft.Proofs.Outline.Lines
import TypeGraft.Proofs.Resolution.Reading
import TypeGraft.Proofs.Resolution.Scope
import TypeGraft.Proofs.Syntax.Script

/-!
# Lines in the log of a search

A search tells lines of a file only where it looks for names there, or where it scans the file. So
of a file that was read before the search begins, it tells lines that may be told
(`TypeGraft.Harvest.tells_searchAndSplice`): the file is not scanned again, and what a file that is
scanned later has to warn of are its own lines. The rest of the log names no lines.

A file that no specifier leads to is asked only for what stands in it, and under the name that
stands there: what it exports is asked for only where a specifier leads
(`TypeGraft.Searching.isLed_steps`), and what its own scope is asked for stands there
(`TypeGraft.Resolution.Scoped`).
-/

namespace TypeGraft

variable {file : String} {led : Prop} {told : String → Nat → Prop}
    {twice : String → Nat → Nat → Prop} {world : World}

/-- Whether an event tells no line. -/
def Event.lineless : Event → Bool
  | .redeclared .. | .redundantAlias .. | .notFound .. | .leftUnresolved .. => false
  | _ => true

theorem Event.tells_of_lineless {e : Event} (h : e.lineless = true) : e.Tells file told twice := by
  cases e with
  | redeclared | redundantAlias | notFound | leftUnresolved => exact absurd h (by simp [lineless])
  | _ => trivial

/-- **A world that tells no lines** where it follows a specifier. -/
def World.Lineless (world : World) : Prop :=
  ∀ specifier origin, ∀ e ∈ (world.locate specifier origin).2, e.lineless = true

/-- Whether some specifier leads to a path. -/
def World.LeadsTo (world : World) (path : String) : Prop :=
  ∃ specifier origin, (world.locate specifier origin).1 = .ok (some path)

namespace Harvest

variable {s s' : Harvest} {o : Outline} {requests : List RootRequest} {external : Bool}

namespace Tells

theorem log (h : s.Tells file led told twice) {events : List Event}
    (hevents : ∀ e ∈ events, e.Tells file told twice) : (s.log events).Tells file led told twice :=
  ⟨h.mention, h.synonyms, fun e he => (List.mem_append.mp he).elim (h.event e) (hevents e)⟩

theorem of_eq (h : s.Tells file led told twice) (hreferences : s'.references = s.references)
    (hsynonyms : s'.synonyms = s.synonyms) (hevents : s'.events = s.events) :
    s'.Tells file led told twice := by
  refine ⟨?_, hsynonyms ▸ h.synonyms, hevents ▸ h.event⟩
  rw [mentions, hreferences]
  exact h.mention

/-- **Reading a file** tells no lines of one that was read before. -/
theorem outlineOf (h : s.Tells file led told twice) (hfile : (s.files.get? file).isSome)
    (path : String) :
    (s.outlineOf world path).1.Tells file led told twice := by
  cases houtline : s.outlineOf world path with
  | mk s' result =>
    cases outlined houtline with
    | known => exact h
    | faulty => exact h.of_eq rfl rfl rfl
    | @read source o events hnew hread hscan =>
      obtain ⟨tree, htree, hscan⟩ := exists_tree_of_outline hscan
      have hwarned := (Outline.lined_ofTree (Script.isScript_of_tree htree).wellFormed hscan).2
      -- the file is known, so this is another one
      have hother : path ≠ file := by
        rintro rfl
        rw [hnew] at hfile
        exact absurd hfile (by simp)
      have hread : (addFile { s with reads := s.reads ++ [path] } o).Tells file led told twice :=
        h.of_eq rfl rfl rfl
      refine hread.log fun e he => (List.mem_append.mp he).elim (fun he => ?_) fun he => ?_
      · obtain ⟨first, d, -, -, -, -, rfl⟩ := hwarned e he
        exact fun hpath => absurd hpath hother
      · rw [List.mem_singleton.mp he]
        trivial

theorem moduleOutline (h : s.Tells file led told twice) (hworld : world.Lineless)
    (hfile : (s.files.get? file).isSome) (origin specifier : String) (queries : List Query) :
    (s.moduleOutline world origin specifier queries).1.Tells file led told twice := by
  have hlocate := hworld specifier origin
  unfold Harvest.moduleOutline
  generalize world.locate specifier origin = located at hlocate ⊢
  obtain ⟨found, events⟩ := located
  have hlogged : (s.log events).Tells file led told twice :=
    h.log fun e he => Event.tells_of_lineless (hlocate e he)
  cases found with
  | error failure => exact hlogged
  | ok found =>
    cases found with
    | none =>
      refine hlogged.log fun e he => ?_
      rw [List.mem_singleton.mp he]
      trivial
    | some path => exact hlogged.outlineOf hfile path

end Tells

end Harvest

/-! ### Steps -/

/-- **What a file exports** is asked for only if a specifier leads there. -/
def Frame.IsLed (world : World) (frame : Frame) : Prop :=
  match frame.stage with
  | .names queue _ _ => ∀ q ∈ queue, q.external = true → world.LeadsTo frame.outline.path
  | _ => True

namespace Searching

open Harvest

variable {files : String → Option Outline} {external : Bool} {r r' : Resolution} {o : Outline}
  {s : Harvest} {frame : Frame} {frames rest : List Frame} {specifier : String}
  {queries : List Query}

theorem isLed_enter (h : Searching world files external ⟨s, frames⟩)
    (henter : Resolution.Enters world s frame rest specifier queries (.running r'))
    (hled : ∀ f ∈ frame :: rest, f.IsLed world) : ∀ f ∈ r'.frames, f.IsLed world := by
  cases henter with
  | nowhere => exact hled
  | file hmodule =>
    obtain ⟨-, -, -, hlocate, -⟩ := changes_of_moduleOutline h.grounded hmodule
    intro f hf
    rcases List.mem_cons.mp hf with rfl | hf
    · exact fun _ _ _ => ⟨_, _, hlocate⟩
    · exact hled f hf

/-- **A step of a search** goes only where a specifier leads. -/
theorem isLed_step (h : Searching world files external r) (hled : ∀ f ∈ r.frames, f.IsLed world)
    (hstep : Resolution.step world r = .running r') : ∀ f ∈ r'.frames, f.IsLed world := by
  have hnext : ∀ {frame frame' : Frame} {rest : List Frame}, r.frames = frame :: rest →
      frame'.IsLed world → ∀ f ∈ frame' :: rest, f.IsLed world := by
    intro frame frame' rest hframes hframe' f hf
    rcases List.mem_cons.mp hf with rfl | hf
    · exact hframe'
    · exact hled f (hframes ▸ List.mem_cons_of_mem _ hf)
  cases Resolution.step_eq_iff.mp hstep with
  | @names s s' outline q queue _ _ _ found hlook =>
    refine hnext rfl ?_
    have hqueue : ∀ query ∈ queue, query.external = true → world.LeadsTo outline.path :=
      fun query hquery => hled _ List.mem_cons_self query (List.mem_cons_of_mem _ hquery)
    cases found with
    | settled | elsewhere | starred => exact hqueue
    | declared mentioned =>
      intro query hquery hexternal
      rcases List.mem_append.mp hquery with hquery | hquery
      · exact hqueue query hquery hexternal
      · -- a declaration asks its own file for what it mentions
        rw [((h.looks_of_look hlook).named query hquery).1] at hexternal
        exact absurd hexternal (by simp)
  | regroup | stars => exact hnext rfl trivial
  | module henter | star _ henter => exact h.isLed_enter henter (hnext rfl trivial)
  | leave => exact fun f hf => hled f (List.mem_cons_of_mem _ hf)

theorem isLed_steps (h : Searching world files external r) (hled : ∀ f ∈ r.frames, f.IsLed world)
    (hsteps : Resolution.Steps world r r') : ∀ f ∈ r'.frames, f.IsLed world := by
  induction hsteps with
  | refl => exact hled
  | tail hsteps hstep ih => exact (h.steps hsteps).1.isLed_step ih hstep

/-- **A step of a search** tells lines that may be told. -/
theorem tells_step (h : Searching world files external r) (hworld : world.Lineless)
    (hscoped : r.Scoped external) (hled : ∀ f ∈ r.frames, f.IsLed world)
    (hfile : r.harvest.files.get? file = some o) (ho : o.Tells (world.LeadsTo file) told)
    (hr : r.harvest.Tells file (world.LeadsTo file) told twice) :
    (Resolution.step world r).harvest.Tells file (world.LeadsTo file) told twice := by
  generalize hstep : Resolution.step world r = p
  cases Resolution.step_eq_iff.mp hstep with
  | done | regroup | stars => exact hr
  | leave => exact hr
  | @names s _ o' q _ _ _ _ _ hlook =>
    have hfile' : s.files.get? o'.path = some o' := (h.orderly _ List.mem_cons_self).file
    refine hr.looks (h.grounded.outline _ o' hfile').2 (fun hpath => ?_) (fun x hx hpath => ?_)
      (h.looks_of_look hlook)
    · rw [hpath, hfile] at hfile'
      exact Option.some.inj hfile' ▸ ho
    · -- what the scope of a file is asked for stands there, and its exports are asked for if it is
      -- led to
      cases hexternal : q.external with
      | true =>
        exact Or.inr (hpath ▸ hled _ List.mem_cons_self q List.mem_cons_self hexternal)
      | false =>
        have hplace := hscoped.frames _ List.mem_cons_self q List.mem_cons_self hexternal x
          hx.reference hx.unresolved
        exact Or.inl ⟨(congrArg Waypoint.file hplace).symm.trans hpath,
          (congrArg Waypoint.name hplace).symm⟩
  | module henter | star _ henter =>
    rw [henter.harvest_eq]
    exact hr.moduleOutline hworld (by rw [hfile]; rfl) _ _ _

end Searching

/-! ### Searching and splicing -/

namespace Harvest

variable {s s' : Harvest} {o : Outline} {requests : List RootRequest} {external : Bool}
  {clean : Cleaning}

/-- **Along a whole search** in the scope of a file, lines are told that may be told. -/
theorem tells_steps (hopened : Opened world s o) (hworld : world.Lineless)
    (ho : o.Tells (world.LeadsTo o.path) told)
    (hs : (s.begun o requests false).harvest.Tells o.path (world.LeadsTo o.path) told twice)
    {r : Resolution} (hsteps : Resolution.Steps world (s.begun o requests false) r) :
    (Resolution.step world r).harvest.Tells o.path (world.LeadsTo o.path) told twice ∧
      r.harvest.Tells o.path (world.LeadsTo o.path) told twice := by
  have hsearching := hopened.unsearched.searching world requests false
  have hled : ∀ f ∈ (s.begun o requests false).frames, f.IsLed world := by
    rw [begun_eq hopened.unsearched]
    intro f hf
    rw [List.mem_singleton.mp hf]
    intro q hq hexternal
    obtain ⟨_, -, rfl⟩ := List.mem_map.mp hq
    exact absurd hexternal (by simp)
  have hstep : ∀ {r : Resolution}, Resolution.Steps world (s.begun o requests false) r →
      r.harvest.Tells o.path (world.LeadsTo o.path) told twice →
      (Resolution.step world r).harvest.Tells o.path (world.LeadsTo o.path) told twice := by
    intro r hsteps hr
    obtain ⟨hsearching', hchanges⟩ := hsearching.steps hsteps
    refine hsearching'.tells_step hworld (scoped_of_steps hopened hsteps)
      (hsearching.isLed_steps hled hsteps) (hchanges.file ?_) ho hr
    rw [begun_eq hopened.unsearched]
    exact hopened.unsearched.file
  have hr : r.harvest.Tells o.path (world.LeadsTo o.path) told twice := by
    induction hsteps with
    | refl => exact hs
    | tail hsteps hnext ih =>
      have hnow := hstep hsteps ih
      rw [hnext] at hnow
      exact hnow
  exact ⟨hstep hsteps hr, hr⟩

/-- **A search** in the scope of a file, however it ends, tells lines that may be told. -/
theorem tells_search (hopened : Opened world s o) (hworld : world.Lineless)
    (ho : o.Tells (world.LeadsTo o.path) told)
    (hs : (s.begun o requests false).harvest.Tells o.path (world.LeadsTo o.path) told twice) :
    (s.search world o requests false).1.Tells o.path (world.LeadsTo o.path) told twice := by
  rw [search_eq]
  obtain ⟨r', hsteps, hend⟩ := Resolution.exists_steps_run_eq world (world.places.length + 2)
    (s.begun o requests false)
  obtain ⟨hnext, hr'⟩ := tells_steps hopened hworld ho hs hsteps
  rcases hend with hend | hend
  · rw [hend]
    exact hr'
  · rw [hend]
    exact hnext

/-- **Splicing** tells no lines. -/
theorem Tells.splice (h : s.Tells file led told twice) {orders : Orders} {splice : Splice}
    (hsplice : s.splice orders clean = .ok (s', splice)) : s'.Tells file led told twice := by
  unfold Harvest.splice at hsplice
  split at hsplice
  · exact absurd hsplice (by simp)
  · next own hown =>
    obtain ⟨grafts, heq, -⟩ := s.exists_inheritDependencies orders.absorbOrder
    have hmerged : (s.absorbParents orders own).1.Tells file led told twice := by
      rw [show (s.absorbParents orders own).1 = { s with grafts } from heq]
      exact h.of_eq rfl rfl rfl
    dsimp only at hsplice
    split at hsplice
    · exact absurd hsplice (by simp)
    · rw [← (Prod.mk.inj (Except.ok.inj hsplice)).1]
      split
      · exact hmerged
      · refine hmerged.log fun e he => ?_
        rw [List.mem_singleton.mp he]
        trivial

/-- **A search that is spliced**, however it ends, tells lines that may be told. -/
theorem tells_searchAndSplice (hopened : Opened world s o) (hworld : world.Lineless)
    (ho : o.Tells (world.LeadsTo o.path) told)
    (hs : (s.begun o requests false).harvest.Tells o.path (world.LeadsTo o.path) told twice)
    (clean : Cleaning) : (s.searchAndSplice world o requests false clean).1.Tells o.path
      (world.LeadsTo o.path) told twice := by
  have hsearch := tells_search hopened hworld ho hs
  unfold searchAndSplice
  split
  · next hend =>
    rw [hend] at hsearch
    exact hsearch
  · next found hend =>
    rw [hend] at hsearch
    have horders : found.orders.1.Tells o.path (world.LeadsTo o.path) told twice := by
      refine (Tells.log (s := { found with
        inherits := found.inherits.cut (found.inherits.circles Key.le 1) }) ?_ fun e he => ?_)
      · exact hsearch.of_eq rfl rfl rfl
      · obtain ⟨c, -, rfl⟩ := List.mem_map.mp he
        trivial
    dsimp only
    split
    · exact horders
    · next hsplice => exact horders.splice hsplice

end Harvest

end TypeGraft
