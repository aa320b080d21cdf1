import TypeGraft.Files.World
import TypeGraft.Proofs.Table

/-!
# Where specifiers lead to

A search ends because there are only so many files that it can read. In a world of finitely many
places this takes that no specifier leads anywhere else (`TypeGraft.World.Bounded`), and the world
of a tree of files is such a world (`TypeGraft.World.bounded_ofTree`): what a specifier leads to
is a file of the tree, and the path that is given out for it is the one under which the tree holds
the file, however many points it was written with.
-/

namespace TypeGraft

/-- **A bounded world**: specifiers lead nowhere but to its places. -/
def World.Bounded (world : World) : Prop :=
  ∀ specifier origin path, (world.locate specifier origin).1 = .ok (some path) →
    path ∈ world.places

namespace FileTree

variable {t : FileTree}

/-- The directory that components lead to from another one. -/
def walk (here : List String) (parts : List String) : List String :=
  parts.foldl (fun here part => if part = ".." then here.dropLast else here ++ [part]) here

/-- What components lead to, if it is a file, stands in the tree. -/
theorem get?_walk_of_follow {here parts : List String} {bytes : Bytes}
    (h : t.follow here parts = .ok (.file bytes)) :
    t.files.get? (walk here parts) = some bytes := by
  induction parts generalizing here with
  | nil =>
    rw [follow, entryAt] at h
    cases hget : t.files.get? here with
    | some bytes' =>
      rw [hget] at h
      rw [← FileEntry.file.inj (Except.ok.inj h)]
      exact hget
    | none =>
      rw [hget] at h
      cases hdirectory : t.isDirectoryAt here <;> simp [hdirectory] at h
  | cons part parts ih =>
    rw [follow] at h
    split at h
    · exact ih h
    · exact absurd h (by simp)
    · exact absurd h (by simp)

/-- **To drop points is to follow them**, whatever is there. -/
theorem reverse_foldl_normal (parts above : List String) :
    (parts.foldl (fun above p => if p = ".." then above.drop 1 else p :: above) above).reverse =
      walk above.reverse parts := by
  induction parts generalizing above with
  | nil => rfl
  | cons p parts ih =>
    rw [List.foldl_cons, ih, walk, walk, List.foldl_cons]
    split
    · rw [List.drop_one, List.dropLast_reverse]
    · rw [List.reverse_cons]

theorem normalParts_append (parts more : List String) :
    Path.normalParts (parts ++ more) = walk (Path.normalParts parts) more := by
  rw [Path.normalParts, List.foldl_append, reverse_foldl_normal]
  rfl

/-- The path that is given out for a file is the one under which the tree holds it. -/
theorem exists_absolute_of_isFile (hworking : Path.normalParts t.workingDirectory =
    t.workingDirectory) {p : Path} (h : t.isFile p = true) :
    ∃ file ∈ t.files, t.absolute p = ⟨"/", file.1⟩ := by
  unfold isFile find at h
  by_cases habsolute : p.isAbsolute = true
  · rw [if_pos habsolute] at h
    split at h
    · next bytes hfollow =>
      refine ⟨_, Table.mem_of_get? (get?_walk_of_follow hfollow), ?_⟩
      rw [absolute, if_pos habsolute]
      exact congrArg (Path.mk "/") (reverse_foldl_normal p.parts [])
    · exact absurd h (by simp)
  · rw [if_neg habsolute] at h
    split at h
    · next bytes hfollow =>
      refine ⟨_, Table.mem_of_get? (get?_walk_of_follow hfollow), ?_⟩
      rw [absolute, if_neg habsolute, normalParts_append, hworking]
    · exact absurd h (by simp)

/-! ### What a search for a file comes to -/

theorem isFile_of_scriptAt {base p : Path} (h : t.scriptAt base = .ok (some p)) :
    t.isFile p = true := by
  unfold scriptAt at h
  split at h
  · exact absurd h (by simp)
  · rcases Option.or_eq_some_iff.mp (Except.ok.inj h) with hbeside | ⟨-, hinside⟩
    · exact List.find?_some hbeside
    · split at hinside
      · exact List.find?_some hinside
      · exact absurd hinside (by simp)

theorem isFile_of_scriptAtAny {bases : List Path} {p : Path}
    (h : t.scriptAtAny bases = .ok (some p)) : t.isFile p = true := by
  induction bases with
  | nil => exact absurd h (by simp [scriptAtAny])
  | cons base bases ih =>
    rw [scriptAtAny] at h
    split at h
    · exact ih h
    · exact isFile_of_scriptAt h

/-- Whether a search comes to files only. -/
def FindsFiles (t : FileTree) (search : Search) : Prop :=
  ∀ p, search.1 = .ok (some p) → t.isFile p = true

theorem findsFiles_nothing (events : List Event) : t.FindsFiles (.ok none, events) :=
  fun _ h => absurd h (by simp)

theorem FindsFiles.orSearch {first : Search} {second : Unit → Search} (h : t.FindsFiles first)
    (h' : t.FindsFiles (second ())) : t.FindsFiles (orSearch first second) := by
  unfold FileTree.orSearch
  split
  · exact h'
  · exact h

theorem findsFiles_typesOfPackage (package : Path) : t.FindsFiles (t.typesOfPackage package) :=
  fun _ h => isFile_of_scriptAtAny h

theorem findsFiles_searchIn (specifier : String) (directory : Path) :
    t.FindsFiles (t.searchIn specifier directory) := by
  have hpackage : ∀ package : Path,
      t.FindsFiles (if t.isDirectory package then t.typesOfPackage package
        else (.ok none, [])) := by
    intro package
    split
    · exact findsFiles_typesOfPackage package
    · exact findsFiles_nothing []
  exact (hpackage _).orSearch
    (FindsFiles.orSearch (fun _ h => isFile_of_scriptAt h) (hpackage _))

theorem findsFiles_searchAll (specifier : String) (directories : List Path) :
    t.FindsFiles (t.searchAll specifier directories) := by
  induction directories with
  | nil => exact findsFiles_nothing []
  | cons directory directories ih => exact (findsFiles_searchIn specifier directory).orSearch ih

/-- **A target is a file** of the tree, if anything. -/
theorem findsFiles_searchTarget (target : String) (directory : Path) :
    t.FindsFiles (t.searchTarget target directory) := by
  unfold searchTarget
  split
  · exact fun _ h => isFile_of_scriptAt h
  · split
    · exact findsFiles_searchAll target _
    · exact fun _ h => isFile_of_scriptAt h

end FileTree

/-- **The world of a tree is bounded**: a specifier leads to a file of the tree, under its own
path. -/
theorem World.bounded_ofTree {t : FileTree}
    (hworking : Path.normalParts t.workingDirectory = t.workingDirectory) (rules : List AliasRule) :
    (World.ofTree t rules).Bounded := by
  intro specifier origin path h
  have h : (t.locate rules specifier origin).1 = .ok (some path) := h
  unfold FileTree.locate at h
  split at h
  · exact absurd h (by simp)
  · next target _ =>
    split at h
    · exact absurd h (by simp)
    · exact absurd h (by simp)
    · next p events hsearch =>
      have hfile : t.isFile p = true :=
        FileTree.findsFiles_searchTarget target _ p (by rw [hsearch])
      obtain ⟨file, hmem, habsolute⟩ := FileTree.exists_absolute_of_isFile hworking hfile
      refine List.mem_map.mpr ⟨file, hmem, ?_⟩
      rw [← habsolute]
      exact Option.some.inj (Except.ok.inj h)

end TypeGraft
