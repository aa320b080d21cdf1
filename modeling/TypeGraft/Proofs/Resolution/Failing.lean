import TypeGraft.Proofs.Resolution.Names
import TypeGraft.Proofs.Resolution.Walks

/-!
# Where a search fails

A search asks where specifiers lead to (`TypeGraft.Resolution.Asks`), and reads and scans the files
that they lead to. It fails there or nowhere: a specifier that leads to no file is passed over
(`TypeGraft.Resolution.exists_step_of_asks`), and a search in a bounded world fails with a failure
that is no fault exactly if it comes to a specifier of which the world cannot tell where it leads
(`TypeGraft.Harvest.search_eq_error_iff`).
-/

namespace TypeGraft

namespace Resolution

/-- **The next step of a search asks** where a specifier in a file leads to. -/
inductive Asks : Resolution → (specifier origin : String) → Prop where
  | module {s : Harvest} {o : Outline} {rest : List Frame} {specifier : String}
      {queries : List Query} {groups : List (String × List Query)} {starred : List Query} :
      Asks ⟨s, ⟨o, .modules ((specifier, queries) :: groups) starred⟩ :: rest⟩ specifier o.path
  | star {s : Harvest} {o : Outline} {rest : List Frame} {specifier : String}
      {specifiers : List String} {pending : List Query} (missing : s.stillMissing pending ≠ []) :
      Asks ⟨s, ⟨o, .stars (specifier :: specifiers) pending⟩ :: rest⟩ specifier o.path

variable {world : World} {s s' : Harvest} {r : Resolution} {frame : Frame} {rest : List Frame}
  {specifier origin : String} {queries : List Query} {failure : Failure} {p : Progress}

/-- A step that asks where a specifier leads to goes into what is there. -/
theorem Asks.enters (world : World) (h : r.Asks specifier origin) :
    ∃ frame rest queries, frame.outline.path = origin ∧
      Enters world r.harvest frame rest specifier queries (step world r) := by
  generalize hstep : step world r = p
  cases h with
  | module =>
    cases step_eq_iff.mp hstep with
    | module henter => exact ⟨_, _, _, rfl, henter⟩
  | star hmissing =>
    cases step_eq_iff.mp hstep with
    | star _ henter => exact ⟨_, _, _, rfl, henter⟩
    | leave hend => exact absurd (hend.resolve_left (List.cons_ne_nil _ _)) hmissing

/-- A search fails where it asks where a specifier leads to. -/
theorem asks_of_failed (h : step world r = .failed s failure) :
    ∃ frame rest specifier queries, r.Asks specifier frame.outline.path ∧
      Enters world r.harvest frame rest specifier queries (.failed s failure) := by
  cases step_eq_iff.mp h with
  | module henter => exact ⟨_, _, _, _, .module, henter⟩
  | star hmissing henter => exact ⟨_, _, _, _, .star hmissing, henter⟩

/-- A module is not entered if the world cannot tell which one it is. -/
theorem Enters.exists_failed (henter : Enters world s frame rest specifier queries p)
    (h : (world.locate specifier frame.outline.path).1 = .error failure) :
    ∃ s', p = .failed s' failure := by
  refine ⟨(s.moduleOutline world frame.outline.path specifier queries).1, ?_⟩
  rw [← enter_eq_iff.mpr henter, enter, Harvest.moduleOutline]
  generalize world.locate specifier frame.outline.path = located at h ⊢
  obtain ⟨found, events⟩ := located
  obtain rfl : found = .error failure := h
  rfl

/-- For a reason that is no fault, this is the only way not to enter it. -/
theorem Enters.locate_eq (henter : Enters world s frame rest specifier queries (.failed s' failure))
    (hfailure : ∀ fault, failure ≠ .fault fault) :
    (world.locate specifier frame.outline.path).1 = .error failure := by
  cases henter with
  | astray hmodule =>
    cases Harvest.led hmodule with
    | astray hlocate => exact hlocate
    | faulty => exact absurd rfl (hfailure _)

/-- **A step fails for a reason that is no fault** exactly if it asks for what the world cannot
tell. -/
theorem exists_failed_iff (hfailure : ∀ fault, failure ≠ .fault fault) :
    (∃ s, step world r = .failed s failure) ↔
      ∃ specifier origin, r.Asks specifier origin ∧
        (world.locate specifier origin).1 = .error failure := by
  constructor
  · rintro ⟨s, hstep⟩
    obtain ⟨frame, rest, specifier, queries, hasks, henter⟩ := asks_of_failed hstep
    exact ⟨specifier, _, hasks, henter.locate_eq hfailure⟩
  · rintro ⟨specifier, origin, hasks, hlocate⟩
    obtain ⟨frame, rest, queries, rfl, henter⟩ := hasks.enters world
    exact henter.exists_failed hlocate

/-- **A specifier that leads to no file** is passed over. -/
theorem exists_step_of_asks (hasks : r.Asks specifier origin)
    (hlocate : (world.locate specifier origin).1 = .ok none) :
    ∃ next, step world r = .running next := by
  obtain ⟨frame, rest, queries, rfl, henter⟩ := hasks.enters world
  rw [← enter_eq_iff.mpr henter, enter, Harvest.moduleOutline]
  generalize world.locate specifier frame.outline.path = located at hlocate ⊢
  obtain ⟨found, events⟩ := located
  obtain rfl : found = .ok none := hlocate
  exact ⟨_, rfl⟩

end Resolution

namespace Harvest

variable {world : World} {s : Harvest} {o : Outline} {requests : List RootRequest} {external : Bool}
  {failure : Failure}

/-- **A search in a bounded world** fails for a reason that is no fault exactly if it comes to a
specifier of which the world cannot tell where it leads. -/
theorem search_eq_error_iff (hbounded : world.Bounded) (hopened : Opened world s o)
    (hfailure : ∀ fault, failure ≠ .fault fault) :
    (s.search world o requests external).2 = .error failure ↔
      ∃ r specifier origin, Resolution.Steps world (s.begun o requests external) r ∧
        r.Asks specifier origin ∧ (world.locate specifier origin).1 = .error failure := by
  obtain ⟨last, hlast, hend⟩ := exists_end_of_search requests external hbounded hopened
  constructor
  · intro h
    rcases hend with ⟨s', -, hsearch⟩ | ⟨s', failure', hstep, hsearch⟩
    · rw [hsearch] at h
      exact absurd h (by simp)
    · rw [hsearch] at h
      obtain rfl := Except.error.inj h
      obtain ⟨specifier, origin, hasks, hlocate⟩ :=
        (Resolution.exists_failed_iff hfailure).mp ⟨s', hstep⟩
      exact ⟨last, specifier, origin, hlast, hasks, hlocate⟩
  · rintro ⟨r, specifier, origin, hsteps, hasks, hlocate⟩
    obtain ⟨s₁, hstep⟩ :=
      (Resolution.exists_failed_iff hfailure).mpr ⟨specifier, origin, hasks, hlocate⟩
    -- no search goes on from a step that fails, so this is where it ends
    obtain rfl : last = r := by
      rcases hsteps.total hlast with hback | hback
      · exact hback.eq_of_stopped fun next hnext => by simp [hstep] at hnext
      · refine (hback.eq_of_stopped fun next hnext => ?_).symm
        rcases hend with ⟨_, hstep', -⟩ | ⟨_, _, hstep', -⟩ <;> simp [hstep'] at hnext
    rcases hend with ⟨s', hstep', -⟩ | ⟨s', failure', hstep', hsearch⟩
    · exact absurd (hstep.symm.trans hstep') (by simp)
    · rw [hsearch]
      exact congrArg Except.error (Resolution.Progress.failed.inj (hstep'.symm.trans hstep)).2

end Harvest

end TypeGraft
