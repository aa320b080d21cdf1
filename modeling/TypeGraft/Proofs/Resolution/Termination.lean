import Mathlib.Tactic.Ring
import TypeGraft.Proofs.Files.Places
import TypeGraft.Proofs.Harvest.Release
import TypeGraft.Proofs.Resolution.Potential

/-!
# Searches end

In a bounded world every search comes to an end, however the files import and export from each
other (`TypeGraft.Resolution.exists_ends_run`). Two bounds are put together for this.

* **Reading files.** No file is read twice, and there are no more of them than there are places
  (`TypeGraft.Harvest.Enclosed`). This bounds how often `TypeGraft.Resolution.run` goes on.
* **Between two files.** Each step makes the potential smaller, and the potential is less than the
  allowance (`TypeGraft.Resolution.potential_lt_allowance`). So what `TypeGraft.Resolution.advance`
  is given is enough to come to the next file, or to the end.

The end is one of the search and not of what it was granted: it is where a step finishes or fails.
-/

namespace TypeGraft

namespace Resolution

variable {world : World} {r r' : Resolution}

/-! ### Between two files -/

/-- All names that a search may meet while it reads no file. -/
def vocabulary (r : Resolution) : List String :=
  r.frames.flatMap Frame.names ++ r.harvest.files.flatMap (·.2.vocabulary)

theorem within_vocabulary (r : Resolution) : r.Within r.vocabulary :=
  ⟨fun frame hframe _ hname =>
      List.mem_append_left _ (List.mem_flatMap.mpr ⟨frame, hframe, hname⟩),
    fun f hf _ hname => List.mem_append_right _ (List.mem_flatMap.mpr ⟨f, hf, hname⟩)⟩

theorem length_vocabulary_le (r : Resolution) :
    r.vocabulary.length ≤ total (r.frames.map Frame.weight) + r.harvest.fileWeight := by
  rw [vocabulary, List.length_append, length_flatMap_eq_total, length_flatMap_eq_total]
  exact Nat.add_le_add (total_map_le fun frame _ => frame.length_names_le)
    (total_map_le fun f _ => f.2.length_vocabulary_le)

/-- A frame costs no more than its weight, times five times any bound for the names in it and for
the modules that it may open. -/
theorem cost_le {frame : Frame} {n : Nat} (hstars : frame.outline.starExports.length ≤ n)
    (hweight : frame.weight ≤ n) : frame.cost ≤ 5 * n * frame.weight := by
  obtain ⟨o, stage⟩ := frame
  have hn : ∀ k : Nat, 0 < n → k ≤ n * k := fun k hn => Nat.le_mul_of_pos_left k hn
  cases stage with
  | names queue missing starred =>
    simp only [Frame.cost, Frame.weight] at hstars hweight ⊢
    have hmodules := Nat.mul_le_mul_right starred.length hstars
    have hqueue := hn queue.length (by omega)
    have hmissing := hn missing.length (by omega)
    rw [Nat.mul_assoc 5, Nat.mul_assoc 5]
    simp only [Nat.mul_add]
    omega
  | modules groups starred =>
    simp only [Frame.cost, Frame.weight] at hstars hweight ⊢
    have hmodules := Nat.mul_le_mul_right starred.length hstars
    have hgroups :
        total (groups.map (·.2.length + 4)) ≤ 4 * total (groups.map (·.2.length + 1)) := by
      clear hweight
      induction groups with
      | nil => exact Nat.le_refl _
      | cons g groups ih =>
        simp only [List.map_cons, total_cons]
        omega
    have htotal := hn (total (groups.map (·.2.length + 1))) (by omega)
    rw [Nat.mul_assoc 5, Nat.mul_assoc 5]
    simp only [Nat.mul_add]
    omega
  | stars specifiers pending =>
    simp only [Frame.cost, Frame.weight] at hstars hweight ⊢
    have hpending : specifiers.length * pending.length ≤ n * pending.length :=
      Nat.mul_le_mul_right _ (by omega)
    rw [Nat.mul_assoc 5, Nat.mul_assoc 5]
    simp only [Nat.mul_add]
    omega

/-- The visits that lie ahead: one for each reference that there is or may come, and for each
place. -/
theorem ahead_le (s : Harvest) (places : Finset Waypoint) :
    s.ahead places ≤ (s.references.length + s.fileWeight) * places.card := by
  have hvisits : total (s.visits.map (Harvest.unseen places)) ≤
      s.references.length * places.card := by
    refine (total_map_le fun w _ => Harvest.unseen_le_card places w).trans (Nat.le_of_eq ?_)
    rw [total_map_const, Harvest.visits, List.length_map]
  have hopen : s.openMentions ≤ s.fileWeight := by
    rw [Harvest.openMentions, Harvest.fileWeight, Harvest.declared]
    induction s.files with
    | nil => exact Nat.le_refl _
    | cons f files ih =>
      rw [List.flatMap_cons, List.map_append, total_append, List.map_cons, total_cons, List.map_map]
      refine Nat.add_le_add ?_ ih
      have hle : total (f.2.declarations.map fun d =>
          if (s.graft? d.2.key).isSome then 0 else (Harvest.mentioned f.2 d.2).length) ≤
          total (f.2.declarations.map fun d => (d.2.freeMentions f.2.source).length + 1) := by
        refine total_map_le fun d _ => ?_
        rw [Harvest.mentioned, List.length_map]
        split <;> omega
      refine Nat.le_trans hle ?_
      rw [Outline.weight]
      omega
  have hmul := Nat.mul_le_mul_right places.card hopen
  rw [Harvest.ahead, Nat.add_mul]
  omega

/-- The size of a search: of the files that it has read, of its references and of the work in its
frames. -/
def size (r : Resolution) : Nat :=
  8 + r.harvest.fileWeight + r.harvest.references.length + total (r.frames.map Frame.weight)

theorem total_cost_le (hstars : ∀ frame ∈ r.frames,
    frame.outline.starExports.length ≤ r.harvest.fileWeight) :
    total (r.frames.map Frame.cost) ≤ 5 * (r.size * r.size) := by
  have hframes : total (r.frames.map Frame.cost) ≤
      total (r.frames.map fun frame => 5 * r.size * frame.weight) := by
    refine total_map_le fun frame hframe => cost_le ?_ ?_
    · have hle := hstars frame hframe
      rw [size]
      omega
    · have hle := le_total_of_mem (f := Frame.weight) hframe
      rw [size]
      omega
  rw [total_map_mul, Nat.mul_assoc] at hframes
  refine hframes.trans (Nat.mul_le_mul_left 5 (Nat.mul_le_mul_left r.size ?_))
  rw [size]
  omega

theorem card_places_le (r : Resolution) :
    (r.places r.vocabulary).card ≤ 2 * (r.size * r.size) := by
  have hfiles : r.harvest.files.length ≤ r.harvest.fileWeight := by
    have hone : total (r.harvest.files.map fun _ => 1) ≤ r.harvest.fileWeight :=
      total_map_le fun f _ => by rw [Outline.weight]; exact Nat.le_add_left _ _
    rw [total_map_const, Nat.mul_one] at hone
    exact hone
  have hnames := r.length_vocabulary_le
  refine (card_placesOf_le _ _).trans ?_
  rw [List.length_map, ← Nat.mul_assoc, Nat.mul_comm]
  refine Nat.mul_le_mul_left 2 (Nat.mul_le_mul ?_ ?_) <;> rw [size] <;> omega

/-- **The allowance is enough**: a search has less to do until it reads a file than it is granted
steps for. -/
theorem potential_lt_allowance (hstars : ∀ frame ∈ r.frames,
    frame.outline.starExports.length ≤ r.harvest.fileWeight) :
    r.potential (r.places r.vocabulary) < r.allowance := by
  have hcosts := total_cost_le hstars
  have hplaces := r.card_places_le
  have hcount : r.harvest.references.length + r.harvest.fileWeight ≤ r.size := by
    rw [size]
    omega
  have hstride : r.harvest.stride ≤ 5 * r.size := by
    rw [Harvest.stride, size]
    omega
  have height : 8 ≤ r.size := by
    rw [size]
    omega
  have hallowance : r.allowance = r.size * r.size * r.size * r.size * r.size * r.size := rfl
  rw [potential, hallowance]
  generalize r.size = n at *
  have hahead : r.harvest.ahead (r.places r.vocabulary) * r.harvest.stride ≤
      10 * ((n * n) * (n * n)) :=
    calc
      _ ≤ n * (2 * (n * n)) * (5 * n) := Nat.mul_le_mul
        ((ahead_le _ _).trans (Nat.mul_le_mul hcount hplaces)) hstride
      _ = 10 * ((n * n) * (n * n)) := by ring
  -- ten times the square of `m` and five times `m` are less than its cube, when `m` is at least 64
  obtain ⟨m, hm⟩ : ∃ m, m = n * n := ⟨_, rfl⟩
  have hlarge : 64 ≤ m := hm ▸ Nat.mul_le_mul height height
  have hsquare : 64 * m ≤ m * m := Nat.mul_le_mul_right m hlarge
  have hcube : 64 * (m * m) ≤ m * (m * m) := Nat.mul_le_mul_right (m * m) hlarge
  rw [show n * n * n * n * n * n = m * (m * m) by rw [hm]; ring]
  rw [← hm] at hahead hcosts
  omega

end Resolution

/-! ### What a step does -/

/-- **The two kinds of steps**: one looks for a name in a file, and the others leave all that was
found as it is, but may read a file. -/
inductive Resolution.Moves (world : World) : Resolution → Resolution → Prop where
  | look {s s' : Harvest} {o : Outline} {q : Query} {found : Found} {queue : List Query}
      {missing : List (Query × Binding)} {starred : List Query} {rest frames : List Frame}
      (hfile : s.files.get? o.path = some o) (hlooks : s.Looks o q s' found) :
      Moves world ⟨s, ⟨o, .names (q :: queue) missing starred⟩ :: rest⟩ ⟨s', frames⟩
  | turn {r r' : Resolution} (hnext : r.next? = none)
      (hkept : ∃ files reads events, r'.harvest = { r.harvest with files, reads, events })
      (hfiles : r'.harvest.files = r.harvest.files ∨ ∃ (o : Outline) (specifier origin : String),
        r.harvest.files.get? o.path = none ∧
          (world.locate specifier origin).1 = .ok (some o.path) ∧
          r'.harvest.files = r.harvest.files ++ [(o.path, o)]) :
      Moves world r r'

namespace Searching

open Harvest Resolution

variable {world : World} {files : String → Option Outline} {external : Bool} {r r' : Resolution}

theorem moves_enter {s : Harvest} {frame : Frame} {frames rest : List Frame} {specifier : String}
    {queries : List Query} (hnext : (⟨s, frames⟩ : Resolution).next? = none)
    (henter : Resolution.Enters world s frame rest specifier queries (.running r')) :
    Moves world ⟨s, frames⟩ r' := by
  cases henter with
  | nowhere hmodule | file hmodule =>
    have hkept := exists_moduleOutline world s frame.outline.path specifier queries
    rw [hmodule] at hkept
    refine Moves.turn hnext hkept ((files_of_moduleOutline hmodule).imp_right ?_)
    rintro ⟨o, -, hnew, hlocate, hread⟩
    exact ⟨o, _, _, hnew, hlocate, hread⟩

/-- **Every step is of one of the two kinds.** -/
theorem moves (h : Searching world files external r)
    (hstep : Resolution.step world r = .running r') :
    Moves world r r' := by
  cases Resolution.step_eq_iff.mp hstep with
  | names hlook =>
    exact Moves.look (h.orderly _ List.mem_cons_self).file (h.looks_of_look hlook)
  | regroup | stars => exact Moves.turn rfl ⟨_, _, _, rfl⟩ (Or.inl rfl)
  | leave => exact Moves.turn rfl ⟨_, _, _, rfl⟩ (Or.inl rfl)
  | module henter | star _ henter => exact moves_enter rfl henter

end Searching

/-! ### Reading files -/

namespace Harvest

variable {world : World} {s s' : Harvest} {first : String}

/-- **Each file is read once**, and stands at a place of the world or is the first one. -/
structure Enclosed (world : World) (first : String) (s : Harvest) : Prop where
  nodup : s.files.keys.Nodup
  place : ∀ path ∈ s.files.keys, path = first ∨ path ∈ world.places

/-- No more files are read than there are places. -/
theorem Enclosed.length_le (h : s.Enclosed world first) :
    s.files.length ≤ world.places.length + 1 := by
  have hsub : s.files.keys ⊆ first :: world.places := fun path hpath =>
    List.mem_cons.mpr (h.place path hpath)
  have hle := (h.nodup.subperm hsub).length_le
  rwa [Table.keys, List.length_map, List.length_cons] at hle

theorem Enclosed.of_files (h : s.Enclosed world first) (hfiles : s'.files = s.files) :
    s'.Enclosed world first :=
  ⟨by rw [hfiles]; exact h.nodup, by rw [hfiles]; exact h.place⟩

/-- Reading a file at a place that was not read before. -/
theorem Enclosed.read (h : s.Enclosed world first) {o : Outline}
    (hnew : s.files.get? o.path = none) (hplace : o.path ∈ world.places)
    (hfiles : s'.files = s.files ++ [(o.path, o)]) : s'.Enclosed world first := by
  have hkeys : s'.files.keys = s.files.keys ++ [o.path] := by
    rw [hfiles, Table.keys, List.map_append]
    rfl
  constructor
  · rw [hkeys]
    refine List.nodup_append.mpr ⟨h.nodup, List.nodup_singleton _, ?_⟩
    rintro path hpath _ hlast rfl
    exact Table.not_mem_keys hnew (List.mem_singleton.mp hlast ▸ hpath)
  · intro path hpath
    rw [hkeys] at hpath
    rcases List.mem_append.mp hpath with hpath | hpath
    · exact h.place path hpath
    · rw [List.mem_singleton.mp hpath]
      exact Or.inr hplace

end Harvest

namespace Resolution

open Harvest

variable {world : World} {files : String → Option Outline} {external : Bool} {r r' : Resolution}
  {first : String}

/-- A step keeps the files within bounds. It reads one more, or none. -/
theorem Moves.enclosed (h : Moves world r r') (hbounded : world.Bounded)
    (he : r.harvest.Enclosed world first) : r'.harvest.Enclosed world first ∧
      (r'.harvest.files = r.harvest.files ∨ r.harvest.files.length < r'.harvest.files.length) := by
  cases h with
  | look _ hlooks =>
    exact ⟨he.of_files hlooks.records.files, Or.inl hlooks.records.files⟩
  | turn _ _ hfiles =>
    rcases hfiles with hfiles | ⟨o, specifier, origin, hnew, hlocate, hfiles⟩
    · exact ⟨he.of_files hfiles, Or.inl hfiles⟩
    · refine ⟨he.read hnew (hbounded specifier origin _ hlocate) hfiles, Or.inr ?_⟩
      rw [hfiles, List.length_append]
      exact Nat.lt_succ_self _

/-! ### The end of a search -/

/-- **The end**: a step finishes the search, or fails, and this is what the search comes to. -/
def EndsWith (world : World) (r : Resolution) (result : Result) : Prop :=
  (∃ s, step world r = .finished s ∧ result = .finished s) ∨
    ∃ s failure, step world r = .failed s failure ∧ result = .failed s failure

/-- **Going on until a file is read** takes no more steps than there is to do. -/
theorem exists_steps_advance {names : List String} {steps : Nat}
    (h : Searching world files external r) (hwithin : r.Within names)
    (hsteps : r.potential (r.places names) < steps) :
    ∃ r', Steps world r r' ∧ r'.harvest.files = r.harvest.files ∧
      advance world steps r = step world r' ∧
      ∀ next, step world r' = .running next →
        next.harvest.files.length ≠ r'.harvest.files.length := by
  induction steps generalizing r with
  | zero => exact absurd hsteps (Nat.not_lt_zero _)
  | succ steps ih =>
    rw [advance]
    cases hstep : step world r with
    | finished s =>
      exact ⟨r, Relation.ReflTransGen.refl, rfl, hstep.symm, fun next hnext => by
        rw [hstep] at hnext; exact absurd hnext (by simp)⟩
    | failed s failure =>
      exact ⟨r, Relation.ReflTransGen.refl, rfl, hstep.symm, fun next hnext => by
        rw [hstep] at hnext; exact absurd hnext (by simp)⟩
    | running next =>
      dsimp only
      by_cases hsame : next.harvest.files.length = r.harvest.files.length
      · rw [if_pos hsame]
        obtain ⟨hfiles, hwithin', hlt⟩ := h.lighter_step hwithin hstep hsame
        have hplaces : next.places names = r.places names := by rw [places, hfiles, places]
        obtain ⟨r', hr', hfiles', hend⟩ := ih (h.step hstep).1 hwithin' (by rw [hplaces]; omega)
        exact ⟨r', hr'.head hstep, hfiles'.trans hfiles, hend⟩
      · rw [if_neg hsame]
        refine ⟨r, Relation.ReflTransGen.refl, rfl, hstep.symm, fun next' hnext' => ?_⟩
        rw [hstep] at hnext'
        rw [← Progress.running.inj hnext']
        exact hsame

theorem enclosed_steps (hbounded : world.Bounded) (h : Searching world files external r)
    (he : r.harvest.Enclosed world first) (hsteps : Steps world r r') :
    r'.harvest.Enclosed world first := by
  induction hsteps with
  | refl => exact he
  | tail hsteps hstep ih => exact (((h.steps hsteps).1.moves hstep).enclosed hbounded ih).1

/-- **A run comes to the end of the search** when it may read as many files as are left. -/
theorem exists_ends_run (hbounded : world.Bounded) (reads : Nat)
    (h : Searching world files external r) (he : r.harvest.Enclosed world first)
    (hreads : world.places.length + 2 ≤ reads + r.harvest.files.length) :
    ∃ r', Steps world r r' ∧ r'.EndsWith world (run world reads r) := by
  induction reads generalizing r with
  | zero =>
    have hle := he.length_le
    omega
  | succ reads ih =>
    have hstars : ∀ frame ∈ r.frames,
        frame.outline.starExports.length ≤ r.harvest.fileWeight := by
      intro frame hframe
      have hweight := weight_le_fileWeight (h.orderly frame hframe).file
      rw [Outline.weight] at hweight
      omega
    obtain ⟨r₁, hsteps, hfiles, hadvance, hread⟩ :=
      exists_steps_advance h r.within_vocabulary (potential_lt_allowance hstars)
    rw [run, hadvance]
    cases hstep : step world r₁ with
    | finished s => exact ⟨r₁, hsteps, Or.inl ⟨s, hstep, rfl⟩⟩
    | failed s failure => exact ⟨r₁, hsteps, Or.inr ⟨s, failure, hstep, rfl⟩⟩
    | running next =>
      -- one more file was read, so there is one less to read
      have h₁ := (h.steps hsteps).1
      have he₁ := enclosed_steps hbounded h he hsteps
      obtain ⟨he', hgrown⟩ := (h₁.moves hstep).enclosed hbounded he₁
      have hlt : r.harvest.files.length < next.harvest.files.length := by
        rw [← hfiles]
        refine hgrown.resolve_left fun hsame => hread next hstep ?_
        rw [hsame]
      obtain ⟨r', hr', hend⟩ := ih (h₁.step hstep).1 he' (by omega)
      exact ⟨r', hsteps.trans (hr'.head hstep), hend⟩

end Resolution

end TypeGraft
