import TypeGraft.Proofs.Files.Astray
import TypeGraft.Project.Settings

/-!
# The file that a specifier leads to

A specifier leads to the first file of one list (`TypeGraft.FileTree.locate_eq_first`). The list is
that of the candidates of all places that the target of the specifier stands for
(`TypeGraft.FileTree.targetPlaces`), in the order of the places.

The search itself goes about it in another way. It breaks off at the first file, looks for an index
in directories only, comes to a package in a directory twice, once by its description and once by
its place alone, and passes over a package that is no directory. None of this shows in the answer:
where there is no directory there is no index (`TypeGraft.FileTree.find?_candidates`), and to ask
the same place again changes nothing (`TypeGraft.orAnswer_again`).
-/

namespace TypeGraft

/-! ### Targets -/

/-- **What a specifier stands for** by some rules: what the first rule that applies makes of it, and
itself if none applies. -/
inductive AliasRule.Leads (rules : List AliasRule) (specifier : String) : String → Prop where
  | replaced {before after : List AliasRule} {rule : AliasRule} {target : String}
      (order : rules = before ++ rule :: after)
      (first : ∀ r ∈ before, r.target? specifier = .ok none)
      (applies : rule.target? specifier = .ok (some target)) : Leads rules specifier target
  | kept (none : ∀ r ∈ rules, r.target? specifier = .ok none) : Leads rules specifier specifier

theorem AliasRule.Leads.applyFirst_eq {rules : List AliasRule} {specifier target : String}
    (h : Leads rules specifier target) : applyFirst rules specifier = .ok target := by
  have hpassed : ∀ before after : List AliasRule, (∀ r ∈ before, r.target? specifier = .ok none) →
      applyFirst (before ++ after) specifier = applyFirst after specifier := by
    intro before after hbefore
    induction before with
    | nil => rfl
    | cons rule before ih =>
      obtain ⟨hrule, hbefore⟩ := List.forall_mem_cons.mp hbefore
      rw [List.cons_append, applyFirst, hrule]
      exact ih hbefore
  cases h with
  | replaced order first applies =>
    rw [order, hpassed _ _ first, applyFirst, applies]
  | kept none =>
    have hall := hpassed rules [] none
    rwa [List.append_nil] at hall

/-! ### Candidates -/

namespace Path

/-- **The candidates of a place**, the first choice first. -/
def candidates (base : Path) : List Path := base.besides ++ base.indices

end Path

section FirstAnswer

variable {β : Type}

/-- **To ask again** for what was asked for just before changes nothing. -/
theorem orAnswer_again (first second : Except Failure (Option β)) :
    orAnswer first (orAnswer first second) = orAnswer first second := by
  rcases first with failure | _ | found <;> rfl

end FirstAnswer

namespace FileTree

variable {t : FileTree} {rules : List AliasRule} {specifier target origin : String}

/-- What holds a file is a directory. -/
theorem isDirectory_of_isFile {base : Path} (name : String)
    (h : t.isFile { base with parts := base.parts ++ [name] } = true) :
    t.isDirectory base = true := by
  have hfollow : ∀ (parts here : List String) (bytes : Bytes),
      t.follow here (parts ++ [name]) = .ok (.file bytes) →
        t.follow here parts = .ok .directory := by
    intro parts
    induction parts with
    | nil =>
      intro here bytes h
      rw [List.nil_append, follow] at h
      split at h
      · next hentry => rw [follow, hentry]
      · exact absurd h (by simp)
      · exact absurd h (by simp)
    | cons part parts ih =>
      intro here bytes h
      rw [List.cons_append, follow] at h
      rw [follow]
      cases hentry : t.entryAt here with
      | none => exact absurd (hentry ▸ h) (by simp)
      | some entry =>
        rw [hentry] at h
        cases entry with
        | file bytes => exact absurd h (by simp)
        | directory => exact ih _ bytes h
  have hfind : ∀ bytes, t.find { base with parts := base.parts ++ [name] } = .ok (.file bytes) →
      t.find base = .ok .directory := by
    intro bytes h
    unfold find at h ⊢
    by_cases habsolute : base.isAbsolute = true
    · rw [if_pos (show Path.isAbsolute ⟨base.root, base.parts ++ [name]⟩ = true
        from habsolute)] at h
      rw [if_pos habsolute]
      exact hfollow _ _ bytes h
    · rw [if_neg (show ¬Path.isAbsolute ⟨base.root, base.parts ++ [name]⟩ = true
        from habsolute)] at h
      rw [if_neg habsolute]
      exact hfollow _ _ bytes h
  unfold isFile at h
  split at h
  · next bytes hfile => rw [isDirectory, hfind bytes hfile]
  · exact absurd h (by simp)

/-- **An index is found in a directory only.** -/
theorem find?_candidates (t : FileTree) (base : Path) : base.candidates.find? t.isFile =
    (base.besides.find? t.isFile).or
      (if t.isDirectory base then base.indices.find? t.isFile else none) := by
  rw [Path.candidates, List.find?_append]
  split
  · rfl
  · next hdirectory =>
    have hnone : base.indices.find? t.isFile = none := by
      rw [List.find?_eq_none]
      intro p hp hfile
      obtain rfl | rfl : p = base.join "index.ts" ∨ p = base.join "index.d.ts" := by
        simpa [Path.indices] using hp
      · exact hdirectory (isDirectory_of_isFile "index.ts" hfile)
      · exact hdirectory (isDirectory_of_isFile "index.d.ts" hfile)
    rw [hnone]

/-- At a place stands the first file among its candidates. -/
theorem scriptAt_eq {base : Path} (h : base.name ≠ "") :
    t.scriptAt base = .ok (base.candidates.find? t.isFile) := by
  rw [scriptAt, if_neg h, find?_candidates]

/-! ### Places -/

/-- The description of a package, if it can be read. -/
def manifest? (t : FileTree) (package : Path) : Option Json :=
  (t.read (package.join "package.json")).toOption.bind fun bytes =>
    bytes.toString?.bind fun text =>
      (Json.parse (String.ofList (unifyLineBreaks text.toList))).toOption

/-- The places that the description of a package states for its types, where there is a directory
with a description. -/
def statedPlaces (t : FileTree) (package : Path) : List Path :=
  if t.isDirectory package then
    ["types", "typings"].filterMap fun name =>
      (((t.manifest? package).bind (·.get? name)).bind Settings.text?).map package.join
  else []

/-- **The places of a package** in the modules of one directory. Types that are installed apart
count only where there is a directory with them. -/
def modulePlaces (t : FileTree) (package : String) (directory : Path) : List Path :=
  let modules := directory.join "node_modules"
  let own := modules.join package
  let typed := (modules.join "@types").join package
  t.statedPlaces own ++ [own] ++ if t.isDirectory typed then t.statedPlaces typed ++ [typed] else []

/-- **The places that a target stands for**, seen from a directory: one place, or for a package its
places from there upwards. -/
def targetPlaces (t : FileTree) (target : String) (directory : Path) : List Path :=
  if (Path.ofString target).isAbsolute then [Path.ofString target]
  else if namesPackage target then directory.upwards.flatMap (t.modulePlaces target)
  else [directory.join target]

theorem statedPlaces_eq (package : Path) : t.statedPlaces package =
    if t.isDirectory package then (t.statedTypes package).1.map package.join else [] := by
  have hstated : (t.statedTypes package).1 = ["types", "typings"].filterMap fun name =>
      ((t.manifest? package).bind (·.get? name)).bind Settings.text? := by
    unfold statedTypes
    cases hread : t.read (package.join "package.json") with
    | error problem => simp [manifest?, hread, Except.toOption]
    | ok bytes =>
      cases htext : bytes.toString? with
      | none => simp [manifest?, hread, htext, Except.toOption]
      | some text =>
        cases hparse : Json.parse (String.ofList (unifyLineBreaks text.toList)) with
        | error fault => simp [manifest?, hread, htext, hparse, Except.toOption]
        | ok json =>
          have hmanifest : t.manifest? package = some json := by
            simp [manifest?, hread, htext, hparse, Except.toOption]
          simp only [hread, htext, hparse, hmanifest, Option.bind_some]
          refine List.filterMap_congr fun name _ => ?_
          cases json.get? name with
          | none => rfl
          | some value => cases value <;> rfl
  rw [statedPlaces, hstated, List.map_filterMap]

/-- The search comes to the places of a target, and to some of them twice. -/
theorem firstAnswer_placesFor (target : String) (directory : Path) :
    firstAnswer t.scriptAt (t.placesFor target directory) =
      firstAnswer t.scriptAt (t.targetPlaces target directory) := by
  have hgroup : ∀ package : Path, (if t.isDirectory package then t.packagePlaces package else []) =
      if t.isDirectory package then t.statedPlaces package ++ [package] else [] := by
    intro package
    split
    · next hdirectory => rw [packagePlaces, statedPlaces_eq, if_pos hdirectory]
    · rfl
  have hin : ∀ directory : Path, firstAnswer t.scriptAt (t.placesIn target directory) =
      firstAnswer t.scriptAt (t.modulePlaces target directory) := by
    intro directory
    rw [placesIn, modulePlaces, hgroup, hgroup]
    generalize (directory.join "node_modules").join target = own
    split
    · -- the package itself is looked at by its description, and at once again
      rw [List.append_assoc, List.append_assoc, firstAnswer_append _ (t.statedPlaces own),
        firstAnswer_append _ (t.statedPlaces own)]
      exact congrArg (orAnswer _) (orAnswer_again (t.scriptAt own) (firstAnswer t.scriptAt _))
    · next hdirectory =>
      have hstated : t.statedPlaces own = [] := if_neg hdirectory
      rw [hstated]
      rfl
  have hall : ∀ directories : List Path,
      firstAnswer t.scriptAt (directories.flatMap (t.placesIn target)) =
        firstAnswer t.scriptAt (directories.flatMap (t.modulePlaces target)) := by
    intro directories
    induction directories with
    | nil => rfl
    | cons directory directories ih =>
      rw [List.flatMap_cons, List.flatMap_cons, firstAnswer_append, firstAnswer_append, hin, ih]
  unfold placesFor targetPlaces
  split
  · rfl
  · split
    · exact hall _
    · rfl

/-- **The places that are looked at**: those with no file at any place in front of them. -/
def LooksAt (t : FileTree) (places : List Path) (place : Path) : Prop :=
  ∃ before after, places = before ++ place :: after ∧
    ∀ p ∈ before, ∀ c ∈ p.candidates, t.isFile c = false

/-- **The first answer** of some places is the first file among their candidates. -/
theorem firstAnswer_eq_find? {places : List Path}
    (h : ∀ place, t.LooksAt places place → place.name ≠ "") :
    firstAnswer t.scriptAt places = .ok ((places.flatMap Path.candidates).find? t.isFile) := by
  induction places with
  | nil => rfl
  | cons place places ih =>
    have hname : place.name ≠ "" := h place ⟨[], places, rfl, by simp⟩
    rw [firstAnswer, scriptAt_eq hname, List.flatMap_cons, List.find?_append]
    cases hfind : place.candidates.find? t.isFile with
    | some file => rfl
    | none =>
      have hnone : ∀ c ∈ place.candidates, t.isFile c = false := by
        simpa using List.find?_eq_none.mp hfind
      refine ih fun p hp => h p ?_
      obtain ⟨before, after, rfl, hbefore⟩ := hp
      exact ⟨place :: before, after, rfl, List.forall_mem_cons.mpr ⟨hnone, hbefore⟩⟩

/-- **A specifier leads to the first file among the candidates of its target**, under the absolute
path of that file, and to no file if there is none. No place without a name may be looked at on the
way. -/
theorem locate_eq_first (hleads : AliasRule.Leads rules specifier target)
    (hnamed : ∀ place, t.LooksAt (t.targetPlaces target (Path.ofString origin).parent) place →
      place.name ≠ "") :
    (t.locate rules specifier origin).1 =
      .ok ((((t.targetPlaces target (Path.ofString origin).parent).flatMap Path.candidates).find?
        t.isFile).map fun file => (t.absolute file).toString) := by
  have hsearch : (t.searchTarget target (Path.ofString origin).parent).1 =
      .ok (((t.targetPlaces target (Path.ofString origin).parent).flatMap Path.candidates).find?
        t.isFile) := by
    rw [fst_searchTarget, firstAnswer_placesFor, firstAnswer_eq_find? hnamed]
  unfold locate
  rw [hleads.applyFirst_eq]
  dsimp only
  split
  · next hfailed => exact absurd (hsearch.symm.trans (congrArg Prod.fst hfailed)) (by simp)
  · next hnone =>
    rw [← Except.ok.inj ((congrArg Prod.fst hnone).symm.trans hsearch)]
    rfl
  · next hsome =>
    rw [← Except.ok.inj ((congrArg Prod.fst hsome).symm.trans hsearch)]
    rfl

/-- The description of the package in the modules of the file states a type that is not there, and
then one that is. The alias in front does not apply, and the directory of the file itself has no
modules. -/
theorem locate_eq_first_stated :
    let t : FileTree := ⟨["work"], [
      (["work", "node_modules", "lib", "package.json"],
        Bytes.ofString "\x7b\"typings\": \"dist/main\", \"types\": \"gone.d.ts\"\x7d"),
      (["work", "node_modules", "lib", "dist", "main.d.ts"], []),
      (["work", "node_modules", "lib", "index.d.ts"], [])]⟩
    let rules : List AliasRule := [⟨.text "~", "/work/src"⟩, ⟨.text "#lib", "lib"⟩]
    (t.locate rules "#lib" "/work/src/App.vue").1 =
      .ok (some "/work/node_modules/lib/dist/main.d.ts") := by
  intro t rules
  have hleads : AliasRule.Leads rules "#lib" "lib" :=
    .replaced (show rules = [⟨.text "~", "/work/src"⟩] ++ ⟨.text "#lib", "lib"⟩ :: [] from rfl)
      (by decide) (by decide)
  have hnamed : ∀ place ∈ t.targetPlaces "lib" (Path.ofString "/work/src/App.vue").parent,
      place.name ≠ "" := by
    decide +kernel
  rw [t.locate_eq_first hleads fun place ⟨before, after, order, _⟩ =>
    hnamed place (order ▸ List.mem_append_right before List.mem_cons_self)]
  decide +kernel

end FileTree

end TypeGraft
