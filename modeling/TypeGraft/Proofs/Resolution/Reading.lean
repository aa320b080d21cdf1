import TypeGraft.Proofs.Harvest.Reading
import TypeGraft.Proofs.Resolution.Potential

/-!
# What a search reads

A search asks for a file only where a specifier leads to one that it has no outline of
(`TypeGraft.Harvest.outlineOf`), and it remembers that it asked.
-/

namespace TypeGraft

/-- The world with other contents of its files. -/
def World.reading (world : World) (read : String → Except Fault Bytes) : World :=
  { world with read }

variable {world : World} {read : String → Except Fault Bytes}

namespace Harvest

variable {s : Harvest} {path : String}

/-- Looking for a name in a file reads nothing. -/
theorem reads_look (s : Harvest) (o : Outline) (q : Query) : (s.look o q).1.reads = s.reads :=
  congrArg (fun p => p.1.reads) (look_under s s.strict s.reads o q)

theorem reads_outlineOf_of_some {o : Outline} (h : s.files.get? path = some o) :
    (s.outlineOf world path).1.reads = s.reads := by
  rw [outlineOf, h]

theorem reads_outlineOf_of_none (h : s.files.get? path = none) :
    (s.outlineOf world path).1.reads = s.reads ++ [path] := by
  rw [outlineOf, h]
  dsimp only
  split
  · rfl
  · split <;> rfl

theorem prefix_reads_outlineOf (world : World) (s : Harvest) (path : String) :
    s.reads <+: (s.outlineOf world path).1.reads := by
  cases hfile : s.files.get? path with
  | some o => exact (reads_outlineOf_of_some hfile).symm ▸ List.prefix_rfl
  | none =>
    rw [reads_outlineOf_of_none hfile]
    exact List.prefix_append _ _

/-- **The outline of a file** depends only on the files that are asked for. -/
theorem outlineOf_congr (h : ∀ p ∈ (s.outlineOf world path).1.reads, read p = world.read p) :
    s.outlineOf (world.reading read) path = s.outlineOf world path := by
  cases hfile : s.files.get? path with
  | some o => rw [outlineOf, outlineOf, hfile]
  | none =>
    have hsame : (world.reading read).read path = world.read path := by
      refine h path ?_
      rw [reads_outlineOf_of_none hfile]
      exact List.mem_append_right _ (List.mem_singleton.mpr rfl)
    rw [outlineOf, outlineOf, hsame]

theorem prefix_reads_moduleOutline (world : World) (s : Harvest) (origin specifier : String)
    (queries : List Query) :
    s.reads <+: (s.moduleOutline world origin specifier queries).1.reads := by
  cases hmodule : s.moduleOutline world origin specifier queries with
  | mk s' result =>
    cases led hmodule with
    | astray => exact List.prefix_rfl
    | nowhere => exact List.prefix_rfl
    | @faulty path _ _ events houtline | @outlined path _ _ events _ houtline =>
      have hgrows := prefix_reads_outlineOf world (s.log events) path
      rw [houtline] at hgrows
      exact hgrows

/-- **The outline of a module** depends only on the files that are asked for. -/
theorem moduleOutline_congr {origin specifier : String} {queries : List Query}
    (h : ∀ p ∈ (s.moduleOutline world origin specifier queries).1.reads, read p = world.read p) :
    s.moduleOutline (world.reading read) origin specifier queries =
      s.moduleOutline world origin specifier queries := by
  have hlocate : (world.reading read).locate specifier origin = world.locate specifier origin := rfl
  unfold moduleOutline at h ⊢
  rw [hlocate]
  generalize world.locate specifier origin = located at h ⊢
  obtain ⟨result, events⟩ := located
  cases result with
  | error failure => rfl
  | ok found =>
    cases found with
    | none => rfl
    | some path =>
      dsimp only
      rw [outlineOf_congr h]

end Harvest

namespace Resolution

/-- The harvest that a step comes to. -/
def Progress.harvest : Progress → Harvest
  | running r => r.harvest
  | finished s => s
  | failed s _ => s

variable {r : Resolution} {p : Progress} {s : Harvest} {frame : Frame} {rest : List Frame}
  {specifier : String} {queries : List Query}

theorem Enters.harvest_eq (henter : Enters world s frame rest specifier queries p) :
    p.harvest = (s.moduleOutline world frame.outline.path specifier queries).1 := by
  cases henter with
  | astray hmodule | nowhere hmodule | file hmodule =>
    rw [hmodule]
    rfl

theorem Enters.congr (henter : Enters world s frame rest specifier queries p)
    (h : ∀ path ∈ p.harvest.reads, read path = world.read path) :
    Enters (world.reading read) s frame rest specifier queries p := by
  rw [henter.harvest_eq] at h
  have hsame := Harvest.moduleOutline_congr h
  cases henter with
  | astray hmodule => exact .astray (hsame.trans hmodule)
  | nowhere hmodule => exact .nowhere (hsame.trans hmodule)
  | file hmodule => exact .file (hsame.trans hmodule)

/-- **A step** forgets nothing of what was read. -/
theorem prefix_reads_step (world : World) (r : Resolution) :
    r.harvest.reads <+: (step world r).harvest.reads := by
  generalize hstep : step world r = p
  cases step_eq_iff.mp hstep with
  | done | regroup | stars => exact List.prefix_rfl
  | leave => exact List.prefix_rfl
  | @names s s' o q _ _ _ _ _ hlook =>
    have hreads : s'.reads = s.reads := by
      rw [← Harvest.reads_look s o q, hlook]
    exact hreads.symm ▸ List.prefix_rfl
  | module henter | star _ henter =>
    rw [henter.harvest_eq]
    exact Harvest.prefix_reads_moduleOutline world _ _ _ _

/-- **A step** depends only on the files that are asked for. -/
theorem step_congr (h : ∀ p ∈ (step world r).harvest.reads, read p = world.read p) :
    step (world.reading read) r = step world r := by
  refine Stepped.step_eq ?_
  generalize hstep : step world r = p at h ⊢
  cases step_eq_iff.mp hstep with
  | done => exact .done
  | names hlook => exact .names hlook
  | regroup => exact .regroup
  | module henter => exact .module (henter.congr h)
  | stars => exact .stars
  | star hmissing henter => exact .star hmissing (henter.congr h)
  | leave hend => exact .leave hend

/-! ### Runs -/

theorem prefix_reads_advance (world : World) (steps : Nat) (r : Resolution) :
    r.harvest.reads <+: (advance world steps r).harvest.reads := by
  induction steps generalizing r with
  | zero => exact List.prefix_rfl
  | succ steps ih =>
    have hstep := prefix_reads_step world r
    rw [advance]
    cases hnext : step world r with
    | running next =>
      rw [hnext] at hstep
      dsimp only
      split
      · exact hstep.trans (ih next)
      · exact hstep
    | finished s =>
      rw [hnext] at hstep
      exact hstep
    | failed s failure =>
      rw [hnext] at hstep
      exact hstep

theorem advance_congr {steps : Nat}
    (h : ∀ p ∈ (advance world steps r).harvest.reads, read p = world.read p) :
    advance (world.reading read) steps r = advance world steps r := by
  induction steps generalizing r with
  | zero => rfl
  | succ steps ih =>
    have hgrows : (step world r).harvest.reads <+: (advance world (steps + 1) r).harvest.reads := by
      rw [advance]
      cases hnext : step world r with
      | running next =>
        dsimp only
        split
        · exact prefix_reads_advance world steps next
        · exact List.prefix_rfl
      | finished s => exact List.prefix_rfl
      | failed s failure => exact List.prefix_rfl
    have hstep := step_congr fun p hp => h p (hgrows.subset hp)
    rw [advance] at h
    rw [advance, advance, hstep]
    cases hnext : step world r with
    | running next =>
      rw [hnext] at h
      dsimp only at h ⊢
      split at h
      · next hsame => rw [if_pos hsame, if_pos hsame, ih h]
      · next hmore => rw [if_neg hmore, if_neg hmore]
    | finished s => rfl
    | failed s failure => rfl

theorem prefix_reads_run (world : World) (reads : Nat) (r : Resolution) :
    r.harvest.reads <+: (run world reads r).outcome.1.reads := by
  induction reads generalizing r with
  | zero => exact List.prefix_rfl
  | succ reads ih =>
    have hadvance := prefix_reads_advance world r.allowance r
    rw [run]
    cases hnext : advance world r.allowance r with
    | running next =>
      rw [hnext] at hadvance
      exact hadvance.trans (ih next)
    | finished s =>
      rw [hnext] at hadvance
      exact hadvance
    | failed s failure =>
      rw [hnext] at hadvance
      exact hadvance

/-- **A run depends only on the files that are asked for.** -/
theorem run_congr {reads : Nat}
    (h : ∀ p ∈ (run world reads r).outcome.1.reads, read p = world.read p) :
    run (world.reading read) reads r = run world reads r := by
  induction reads generalizing r with
  | zero => rfl
  | succ reads ih =>
    have hgrows : (advance world r.allowance r).harvest.reads <+:
        (run world (reads + 1) r).outcome.1.reads := by
      rw [run]
      cases hnext : advance world r.allowance r with
      | running next => exact prefix_reads_run world reads next
      | finished s => exact List.prefix_rfl
      | failed s failure => exact List.prefix_rfl
    have hadvance := advance_congr fun p hp => h p (hgrows.subset hp)
    rw [run] at h
    rw [run, run, hadvance]
    cases hnext : advance world r.allowance r with
    | running next =>
      rw [hnext] at h
      exact ih h
    | finished s => rfl
    | failed s failure => rfl

/-- Going on with a search takes steps, to the state that is left or to the last one but one. -/
theorem exists_steps_advance_eq (world : World) (steps : Nat) (r : Resolution) :
    ∃ r', Steps world r r' ∧
      (advance world steps r = .running r' ∨ advance world steps r = step world r') := by
  induction steps generalizing r with
  | zero => exact ⟨r, Relation.ReflTransGen.refl, Or.inl rfl⟩
  | succ steps ih =>
    rw [advance]
    cases hstep : step world r with
    | running next =>
      dsimp only
      split
      · obtain ⟨r', hsteps, hend⟩ := ih next
        exact ⟨r', hsteps.head hstep, hend⟩
      · exact ⟨next, Relation.ReflTransGen.single hstep, Or.inl rfl⟩
    | finished s => exact ⟨r, Relation.ReflTransGen.refl, Or.inr hstep.symm⟩
    | failed s failure => exact ⟨r, Relation.ReflTransGen.refl, Or.inr hstep.symm⟩

/-- **The harvest that a run ends with**, however it ends, is that of a state or of the step from
there. -/
theorem exists_steps_run_eq (world : World) (reads : Nat) (r : Resolution) :
    ∃ r', Steps world r r' ∧ ((run world reads r).outcome.1 = r'.harvest ∨
      (run world reads r).outcome.1 = (step world r').harvest) := by
  induction reads generalizing r with
  | zero => exact ⟨r, Relation.ReflTransGen.refl, Or.inl rfl⟩
  | succ reads ih =>
    obtain ⟨r', hsteps, hend⟩ := exists_steps_advance_eq world r.allowance r
    rw [run]
    cases hadvance : advance world r.allowance r with
    | running next =>
      obtain ⟨r'', hsteps', hend'⟩ := ih next
      exact ⟨r'', (steps_of_advance hadvance).trans hsteps', hend'⟩
    | finished s =>
      rw [hadvance] at hend
      exact ⟨r', hsteps,
        Or.inr (hend.elim (fun h => absurd h (by simp)) (congrArg Progress.harvest))⟩
    | failed s failure =>
      rw [hadvance] at hend
      exact ⟨r', hsteps,
        Or.inr (hend.elim (fun h => absurd h (by simp)) (congrArg Progress.harvest))⟩

end Resolution

/-! ### Once for each file -/

namespace Harvest

variable {entry : Option String} {s s' : Harvest} {o : Outline} {path : String}

/-- **No file is asked for twice**, and the entry script is not asked for. -/
structure Asked (entry : Option String) (s : Harvest) : Prop where
  nodup : s.reads.Nodup
  foreign : ∀ path ∈ s.reads, entry ≠ some path

/-- **What was asked for was read**: the files that were asked for are those that were read, in
order. -/
structure ReadAll (entry : Option String) (s : Harvest) : Prop where
  entry_eq : s.entry = entry
  loaded : s.loaded = s.reads
  nodup : s.files.keys.Nodup
  entered : ∀ path, entry = some path → path ∈ s.files.keys

theorem loaded_eq (s : Harvest) :
    s.loaded = s.files.keys.filter fun path => !s.isEntryFile path := rfl

theorem ReadAll.asked (h : s.ReadAll entry) : s.Asked entry := by
  constructor
  · rw [← h.loaded, loaded_eq]
    exact h.nodup.filter _
  · rintro path hpath rfl
    rw [← h.loaded, loaded_eq] at hpath
    have hforeign := (List.mem_filter.mp hpath).2
    rw [isEntryFile, h.entry_eq] at hforeign
    exact absurd hforeign (by simp)

theorem ReadAll.of_eq (h : s.ReadAll entry) (hentry : s'.entry = s.entry)
    (hfiles : s'.files = s.files) (hreads : s'.reads = s.reads) : s'.ReadAll entry := by
  refine ⟨hentry.trans h.entry_eq, ?_, by rw [hfiles]; exact h.nodup,
    by rw [hfiles]; exact h.entered⟩
  rw [loaded_eq, hfiles, hreads, ← h.loaded, loaded_eq]
  simp only [isEntryFile, hentry]

theorem ReadAll.log (h : s.ReadAll entry) (events : List Event) : (s.log events).ReadAll entry :=
  h.of_eq rfl rfl rfl

/-- A file that is asked for was not asked for before, and is not the entry script. -/
theorem ReadAll.not_mem (h : s.ReadAll entry) (hnew : s.files.get? path = none) :
    path ∉ s.reads ∧ entry ≠ some path := by
  have hnot := Table.not_mem_keys hnew
  refine ⟨fun hpath => ?_, fun hentry => hnot (h.entered path hentry)⟩
  rw [← h.loaded, loaded_eq] at hpath
  exact hnot (List.mem_filter.mp hpath).1

/-- Asking for a file, whatever is in it. -/
theorem ReadAll.asked_outlineOf (h : s.ReadAll entry) (world : World) (path : String) :
    (s.outlineOf world path).1.Asked entry := by
  cases hfile : s.files.get? path with
  | some o =>
    refine ⟨?_, ?_⟩ <;> rw [reads_outlineOf_of_some hfile]
    · exact h.asked.nodup
    · exact h.asked.foreign
  | none =>
    obtain ⟨hreads, hforeign⟩ := h.not_mem hfile
    refine ⟨?_, ?_⟩ <;> rw [reads_outlineOf_of_none hfile]
    · refine List.nodup_append.mpr ⟨h.asked.nodup, List.nodup_singleton _, ?_⟩
      rintro a ha b hb rfl
      exact hreads (List.mem_singleton.mp hb ▸ ha)
    · intro p hp
      rcases List.mem_append.mp hp with hp | hp
      · exact h.asked.foreign p hp
      · rw [List.mem_singleton.mp hp]
        exact hforeign

/-- **A file that was asked for** and whose outline was found is read. -/
theorem ReadAll.of_outlineOf (h : s.ReadAll entry) (hread : s.outlineOf world path = (s', .ok o)) :
    s'.ReadAll entry := by
  cases outlined hread with
  | known => exact h
  | read hnew _ hscan =>
    obtain ⟨rfl, -⟩ := wellFormed_of_outline hscan
    have hkeys : (s.files.put o.path o).keys = s.files.keys ++ [o.path] := by
      rw [Table.put_eq_append _ hnew, Table.keys, List.map_append]
      rfl
    have hforeign : s.isEntryFile o.path = false := by
      rw [isEntryFile, h.entry_eq, beq_eq_false_iff_ne]
      exact (h.not_mem hnew).2
    refine ⟨h.entry_eq, ?_, ?_, fun p hp => ?_⟩
    · change (s.files.put o.path o).keys.filter (fun path => !s.isEntryFile path) =
        s.reads ++ [o.path]
      rw [hkeys, List.filter_append, ← loaded_eq, h.loaded, List.filter_singleton, hforeign]
      rfl
    · change (s.files.put o.path o).keys.Nodup
      rw [hkeys]
      refine List.nodup_append.mpr ⟨h.nodup, List.nodup_singleton _, ?_⟩
      rintro a ha b hb rfl
      exact Table.not_mem_keys hnew (List.mem_singleton.mp hb ▸ ha)
    · change p ∈ (s.files.put o.path o).keys
      rw [hkeys]
      exact List.mem_append_left _ (h.entered p hp)

/-- **Asking for a module**, whatever comes of it. -/
theorem ReadAll.moduleOutline (h : s.ReadAll entry) (world : World) (origin specifier : String)
    (queries : List Query) : (s.moduleOutline world origin specifier queries).1.Asked entry ∧
      ∀ s' found, s.moduleOutline world origin specifier queries = (s', .ok found) →
        s'.ReadAll entry := by
  cases hmodule : s.moduleOutline world origin specifier queries with
  | mk s' result =>
    cases led hmodule with
    | astray => exact ⟨(h.log _).asked, fun _ _ heq => absurd (Prod.mk.inj heq).2 (by simp)⟩
    | @nowhere events more =>
      have hlogged := (h.log events).log more
      exact ⟨hlogged.asked, fun _ _ heq => (Prod.mk.inj heq).1 ▸ hlogged⟩
    | @faulty path _ _ events houtline =>
      have hasked := (h.log events).asked_outlineOf world path
      rw [houtline] at hasked
      exact ⟨hasked, fun _ _ heq => absurd (Prod.mk.inj heq).2 (by simp)⟩
    | outlined _ houtline =>
      have hread := (h.log _).of_outlineOf houtline
      exact ⟨hread.asked, fun _ _ heq => (Prod.mk.inj heq).1 ▸ hread⟩

end Harvest

namespace Searching

variable {files : String → Option Outline} {external : Bool} {entry : Option String}
  {r r' : Resolution}

/-- **Going into a module** asks for one file at most, which was not asked for before. -/
theorem readAll_enter {s : Harvest} {frame : Frame} {rest : List Frame} {specifier : String}
    {queries : List Query} {p : Resolution.Progress} (hs : s.ReadAll entry)
    (henter : Resolution.Enters world s frame rest specifier queries p) :
    p.harvest.Asked entry ∧ ∀ r', p = .running r' → r'.harvest.ReadAll entry := by
  obtain ⟨hasked, hread⟩ := hs.moduleOutline world frame.outline.path specifier queries
  refine ⟨by rwa [henter.harvest_eq], ?_⟩
  rintro r' rfl
  cases henter with
  | nowhere hmodule | file hmodule => exact hread _ _ hmodule

/-- **A step of a search** asks for one file at most, which was not asked for before. -/
theorem readAll_step (h : Searching world files external r) (hr : r.harvest.ReadAll entry) :
    (Resolution.step world r).harvest.Asked entry ∧
      ∀ r', Resolution.step world r = .running r' → r'.harvest.ReadAll entry := by
  have hturn : ∀ next : Resolution, next.harvest.ReadAll entry →
      (Resolution.Progress.running next).harvest.Asked entry ∧
        ∀ r', Resolution.Progress.running next = .running r' → r'.harvest.ReadAll entry := by
    refine fun next hnext => ⟨hnext.asked, fun r' hr' => ?_⟩
    rwa [← Resolution.Progress.running.inj hr']
  generalize hstep : Resolution.step world r = p
  cases Resolution.step_eq_iff.mp hstep with
  | done => exact ⟨hr.asked, fun _ hr' => absurd hr' (by simp)⟩
  | @names s s' o q _ _ _ _ _ hlook =>
    have hreads : s'.reads = s.reads := by
      rw [← s.reads_look o q, hlook]
    exact hturn _ (hr.of_eq (h.step hstep).2.entry (h.looks_of_look hlook).records.files hreads)
  | regroup | stars => exact hturn _ hr
  | leave => exact hturn _ hr
  | module henter | star _ henter => exact readAll_enter hr henter

/-- **Along a whole search** no file is asked for twice, and all that was asked for was read. -/
theorem readAll_steps (h : Searching world files external r) (hr : r.harvest.ReadAll entry)
    (hsteps : Resolution.Steps world r r') : r'.harvest.ReadAll entry := by
  induction hsteps with
  | refl => exact hr
  | tail hsteps hstep ih => exact ((h.steps hsteps).1.readAll_step ih).2 _ hstep

end Searching

namespace Harvest

variable {s s' : Harvest} {o : Outline} {requests : List RootRequest} {external : Bool}

/-- **What a search reads**: no file twice, and not the entry script. A search that ends has read
all that it asked for. -/
theorem asked_of_search (hopened : Opened world s o) (hs : s.ReadAll s.entry)
    (requests : List RootRequest) (external : Bool) :
    s.reads <+: (s.search world o requests external).1.reads ∧
      (s.search world o requests external).1.Asked s.entry ∧
      ∀ s', s.search world o requests external = (s', .ok ()) → s'.ReadAll s.entry := by
  have hsearching := hopened.unsearched.searching world requests external
  have hbegun : (s.begun o requests external).harvest.ReadAll s.entry := hs.of_eq rfl rfl rfl
  refine ⟨?_, ?_, fun s' hs' => ?_⟩
  · rw [search_eq]
    exact Resolution.prefix_reads_run world _ (s.begun o requests external)
  · rw [search_eq]
    obtain ⟨r', hsteps, hend⟩ := Resolution.exists_steps_run_eq world (world.places.length + 2)
      (s.begun o requests external)
    have hr' := hsearching.readAll_steps hbegun hsteps
    rcases hend with hend | hend
    · rw [hend]
      exact hr'.asked
    · rw [hend]
      exact ((hsearching.steps hsteps).1.readAll_step hr').1
  · obtain ⟨r', hsteps, -, rfl⟩ := exists_steps_of_search hs'
    exact hsearching.readAll_steps hbegun hsteps

/-- **A search depends only on the files that are asked for.** -/
theorem search_congr
    (h : ∀ p ∈ (s.search world o requests external).1.reads, read p = world.read p) :
    s.search (world.reading read) o requests external = s.search world o requests external := by
  rw [search_eq] at h
  rw [search_eq, search_eq]
  exact congrArg Resolution.Result.outcome (Resolution.run_congr h)

end Harvest

end TypeGraft
