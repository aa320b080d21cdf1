import Mathlib.Tactic.SplitIfs
import TypeGraft.Files.World
import TypeGraft.Proofs.Resolution.Reading

/-!
# Trees with the same files

Where a specifier leads depends on which files and directories there are, and on what the packages
say of their types, but on nothing else that is in the files. So two trees of files that agree on
all that (`TypeGraft.FileTree.Alike`) are the same world but for the contents of its files
(`TypeGraft.World.ofTree_alike`).
-/

namespace TypeGraft

namespace FileTree

/-- **Two trees with the same files and directories**, in which the packages are described alike. -/
structure Alike (t t' : FileTree) : Prop where
  workingDirectory : t'.workingDirectory = t.workingDirectory
  keys : t'.files.keys = t.files.keys
  described : ∀ parts : List String, parts.getLast? = some "package.json" →
    t'.files.get? parts = t.files.get? parts

end FileTree

namespace FileTree.Alike

variable {t t' : FileTree}

theorem isDirectoryAt (h : t.Alike t') (parts : List String) :
    t'.isDirectoryAt parts = t.isDirectoryAt parts := by
  have hany :
      ∀ t : FileTree, (t.files.any fun f => parts.isPrefixOf f.1 && parts.length < f.1.length) =
      t.files.keys.any fun k => parts.isPrefixOf k && parts.length < k.length := by
    intro t
    rw [Table.keys, List.any_map]
    rfl
  rw [FileTree.isDirectoryAt, FileTree.isDirectoryAt, h.workingDirectory, hany, hany, h.keys]

/-- **The same components lead to a file**, or to a directory. -/
theorem entryAt (h : t.Alike t') (parts : List String) :
    (∃ bytes bytes', t.entryAt parts = some (.file bytes) ∧
      t'.entryAt parts = some (.file bytes')) ∨
      t'.entryAt parts = t.entryAt parts ∧ ∀ bytes, t.entryAt parts ≠ some (.file bytes) := by
  by_cases hkey : parts ∈ t.files.keys
  · have hfile : ∀ t : FileTree, parts ∈ t.files.keys →
        ∃ bytes, t.entryAt parts = some (.file bytes) := by
      intro t hkey
      cases hget : t.files.get? parts with
      | none => exact absurd hkey (Table.not_mem_keys hget)
      | some bytes => exact ⟨bytes, by rw [FileTree.entryAt, hget]⟩
    obtain ⟨bytes, hbytes⟩ := hfile t hkey
    obtain ⟨bytes', hbytes'⟩ := hfile t' (h.keys ▸ hkey)
    exact Or.inl ⟨bytes, bytes', hbytes, hbytes'⟩
  · have hnone : ∀ t : FileTree, parts ∉ t.files.keys →
        t.entryAt parts = if t.isDirectoryAt parts then some .directory else none := by
      intro t hkey
      cases hget : t.files.get? parts with
      | none => rw [FileTree.entryAt, hget]
      | some bytes => exact absurd (List.mem_map.mpr ⟨_, Table.mem_of_get? hget, rfl⟩) hkey
    rw [hnone t hkey, hnone t' (h.keys ▸ hkey), h.isDirectoryAt]
    refine Or.inr ⟨rfl, fun bytes => ?_⟩
    split <;> simp

/-- The description of a package is the same. -/
theorem entryAt_described (h : t.Alike t') (here : List String) :
    t'.entryAt (here ++ ["package.json"]) = t.entryAt (here ++ ["package.json"]) := by
  unfold FileTree.entryAt
  rw [h.described _ (by simp), h.isDirectoryAt]

/-- **The same path leads to a file**, or to a directory, or nowhere for the same reason. -/
theorem follow (h : t.Alike t') (here parts : List String) :
    (∃ bytes bytes', t.follow here parts = .ok (.file bytes) ∧
      t'.follow here parts = .ok (.file bytes')) ∨
    t'.follow here parts = t.follow here parts ∧
      ∀ bytes, t.follow here parts ≠ .ok (.file bytes) := by
  induction parts generalizing here with
  | nil =>
    unfold FileTree.follow
    rcases h.entryAt here with ⟨bytes, bytes', hbytes, hbytes'⟩ | ⟨hsame, hnot⟩
    · rw [hbytes, hbytes']
      exact Or.inl ⟨bytes, bytes', rfl, rfl⟩
    · rw [hsame]
      refine Or.inr ⟨rfl, fun bytes hfile => hnot bytes ?_⟩
      split at hfile
      · next entry hentry => rw [hentry, Except.ok.inj hfile]
      · exact absurd hfile (by simp)
  | cons part parts ih =>
    unfold FileTree.follow
    rcases h.entryAt here with ⟨bytes, bytes', hbytes, hbytes'⟩ | ⟨hsame, -⟩
    · rw [hbytes, hbytes']
      exact Or.inr ⟨rfl, fun _ => by simp⟩
    · rw [hsame]
      split
      · exact ih _
      · exact Or.inr ⟨rfl, fun _ => by simp⟩
      · exact Or.inr ⟨rfl, fun _ => by simp⟩

/-- **The description of a package** is the same, wherever it is looked for. -/
theorem follow_described (h : t.Alike t') (here parts : List String) :
    t'.follow here (parts ++ ["package.json"]) = t.follow here (parts ++ ["package.json"]) := by
  have hnext : ∀ (here : List String) (part : String) (parts : List String),
      (∀ here, t'.follow (here ++ [part]) parts = t.follow (here ++ [part]) parts) →
      (∀ here, part = ".." → t'.follow here parts = t.follow here parts) →
        t'.follow here (part :: parts) = t.follow here (part :: parts) := by
    intro here part parts hdown hup
    unfold FileTree.follow
    rcases h.entryAt here with ⟨bytes, bytes', hbytes, hbytes'⟩ | ⟨hsame, -⟩
    · rw [hbytes, hbytes']
    · rw [hsame]
      split_ifs with hpart
      · rw [hup _ hpart]
      · rw [hdown]
  induction parts generalizing here with
  | nil =>
    refine hnext here _ [] (fun here => ?_) fun _ hup => absurd hup (by decide)
    unfold FileTree.follow
    rw [h.entryAt_described]
  | cons part parts ih => exact hnext here part _ (fun _ => ih _) fun _ _ => ih _

/-! ### Specifiers -/

theorem find (h : t.Alike t') (p : Path) :
    (∃ bytes bytes', t.find p = .ok (.file bytes) ∧ t'.find p = .ok (.file bytes')) ∨
      t'.find p = t.find p ∧ ∀ bytes, t.find p ≠ .ok (.file bytes) := by
  unfold FileTree.find
  rw [h.workingDirectory]
  split
  · exact h.follow _ _
  · exact h.follow _ _

theorem isFile (h : t.Alike t') : t'.isFile = t.isFile := by
  funext p
  unfold FileTree.isFile
  rcases h.find p with ⟨bytes, bytes', hbytes, hbytes'⟩ | ⟨hsame, -⟩
  · rw [hbytes, hbytes']
  · rw [hsame]

theorem isDirectory (h : t.Alike t') : t'.isDirectory = t.isDirectory := by
  funext p
  unfold FileTree.isDirectory
  rcases h.find p with ⟨bytes, bytes', hbytes, hbytes'⟩ | ⟨hsame, -⟩
  · rw [hbytes, hbytes']
  · rw [hsame]

theorem statedTypes (h : t.Alike t') : t'.statedTypes = t.statedTypes := by
  funext package
  have hread : t'.read (package.join "package.json") = t.read (package.join "package.json") := by
    have hjoin : package.join "package.json" =
        { package with parts := package.parts ++ ["package.json"] } := rfl
    unfold FileTree.read FileTree.find
    rw [hjoin, h.workingDirectory, h.follow_described, h.follow_described]
  unfold FileTree.statedTypes
  dsimp only
  rw [hread]

theorem scriptAt (h : t.Alike t') : t'.scriptAt = t.scriptAt := by
  funext base
  rw [FileTree.scriptAt, FileTree.scriptAt, h.isFile, h.isDirectory]

theorem typesOfPackage (h : t.Alike t') : t'.typesOfPackage = t.typesOfPackage := by
  funext package
  have hany : t'.scriptAtAny = t.scriptAtAny := by
    funext bases
    induction bases with
    | nil => rfl
    | cons base bases ih => rw [FileTree.scriptAtAny, FileTree.scriptAtAny, h.scriptAt, ih]
  rw [FileTree.typesOfPackage, FileTree.typesOfPackage, h.statedTypes, hany]

/-- **A specifier leads to the same file.** -/
theorem locate (h : t.Alike t') (rules : List AliasRule) : t'.locate rules = t.locate rules := by
  have hall : t'.searchAll = t.searchAll := by
    funext specifier directories
    induction directories with
    | nil => rfl
    | cons directory directories ih =>
      rw [FileTree.searchAll, FileTree.searchAll, ih, FileTree.searchIn, FileTree.searchIn,
        h.isDirectory, h.typesOfPackage, h.scriptAt]
  have htarget : t'.searchTarget = t.searchTarget := by
    funext target directory
    rw [FileTree.searchTarget, FileTree.searchTarget, hall, h.scriptAt]
  have habsolute : t'.absolute = t.absolute := by
    funext p
    rw [FileTree.absolute, FileTree.absolute, h.workingDirectory]
  funext specifier origin
  unfold FileTree.locate
  rw [htarget, habsolute]

end FileTree.Alike

/-- **Trees with the same files** are the same world, but for what is in the files. -/
theorem World.ofTree_alike {t t' : FileTree} (h : t.Alike t') (rules : List AliasRule) :
    World.ofTree t' rules = (World.ofTree t rules).reading t'.source := by
  have hplaces : ∀ t : FileTree, t.files.map (fun file => (Path.mk "/" file.1).toString) =
      t.files.keys.map fun parts => (Path.mk "/" parts).toString := by
    intro t
    rw [Table.keys, List.map_map]
    rfl
  rw [World.ofTree, h.locate, hplaces, h.keys, ← hplaces]
  rfl

end TypeGraft
