import TypeGraft.Proofs.Files.Places

/-!
# Specifiers that lead astray

Most specifiers lead to a file or to none. Two kinds lead astray (`TypeGraft.FileTree.Astray`), and
there are no others (`TypeGraft.FileTree.locate_eq_error_iff`).

* The first alias that applies replaces the specifier by a template that is not well-formed, or that
  names a group that its pattern does not have. Only templates of patterns can be like that, and
  only once they are filled in.
* A place without a name is looked at before a file was found. A specifier names such a place itself
  if it leads to the root, and the description of a package may state one for its types.

A place without a name is the only one at which no file is looked for, so the places that come after
it do not count. Those that a target stands for are `TypeGraft.FileTree.placesFor`, in the order in
which they are looked at.
-/

namespace TypeGraft

/-! ### The first answer -/

section FirstAnswer

variable {α β : Type} {items : List α} {failure : Failure}

/-- The first one of two answers. -/
def orAnswer (first second : Except Failure (Option β)) : Except Failure (Option β) :=
  match first with
  | .ok none => second
  | found => found

/-- The first answer that one of some items gives. -/
def firstAnswer (answer : α → Except Failure (Option β)) : List α → Except Failure (Option β)
  | [] => .ok none
  | item :: rest => orAnswer (answer item) (firstAnswer answer rest)

theorem firstAnswer_append (answer : α → Except Failure (Option β)) (items more : List α) :
    firstAnswer answer (items ++ more) = orAnswer (firstAnswer answer items)
      (firstAnswer answer more) := by
  induction items with
  | nil => rfl
  | cons item items ih =>
    rw [List.cons_append, firstAnswer, firstAnswer, ih]
    cases answer item with
    | error failure => rfl
    | ok found => cases found <;> rfl

/-- **Asking for an answer fails** where an item fails and none in front of it gives an answer. -/
theorem firstAnswer_eq_error_iff (answer : α → Except Failure (Option β)) :
    firstAnswer answer items = .error failure ↔ ∃ before item after,
      items = before ++ item :: after ∧ (∀ b ∈ before, answer b = .ok none) ∧
        answer item = .error failure := by
  induction items with
  | nil => simp [firstAnswer]
  | cons item items ih =>
    -- an item at the front that does not pass the question on is the one that fails
    have hfront : answer item ≠ .ok none → ((∃ before failing after,
        item :: items = before ++ failing :: after ∧ (∀ b ∈ before, answer b = .ok none) ∧
          answer failing = .error failure) ↔ answer item = .error failure) := by
      intro hanswer
      constructor
      · rintro ⟨before, failing, after, hitems, hbefore, hfailing⟩
        rcases List.cons_eq_append_iff.mp hitems with ⟨rfl, hrest⟩ | ⟨more, rfl, -⟩
        · rwa [(List.cons.inj hrest).1] at hfailing
        · exact absurd (hbefore item List.mem_cons_self) hanswer
      · exact fun h => ⟨[], item, items, rfl, by simp, h⟩
    rw [firstAnswer]
    unfold orAnswer
    split
    · next hnone =>
      rw [ih]
      constructor
      · rintro ⟨before, failing, after, rfl, hbefore, hfailing⟩
        exact ⟨item :: before, failing, after, rfl,
          List.forall_mem_cons.mpr ⟨hnone, hbefore⟩, hfailing⟩
      · rintro ⟨before, failing, after, hitems, hbefore, hfailing⟩
        rcases List.cons_eq_append_iff.mp hitems with ⟨rfl, hrest⟩ | ⟨more, rfl, rfl⟩
        · rw [(List.cons.inj hrest).1, hnone] at hfailing
          exact absurd hfailing (by simp)
        · exact ⟨more, failing, after, rfl, (List.forall_mem_cons.mp hbefore).2, hfailing⟩
    · next hanswer => exact (hfront hanswer).symm

end FirstAnswer

namespace AliasRule

variable {rules : List AliasRule} {rule : AliasRule} {specifier : String} {failure : Failure}

/-- **A rule that applies but cannot be filled in.** -/
inductive Unfillable (rule : AliasRule) (specifier : String) : Failure → Prop where
  | template {pattern : Pattern} {matched : Pattern.Spot} (find : rule.find = .pattern pattern)
      (applies : pattern.match? specifier = some matched)
      (fill : pattern.fill rule.replacement matched = .error .malformed) :
      Unfillable rule specifier .badTemplate
  | group {pattern : Pattern} {matched : Pattern.Spot} (find : rule.find = .pattern pattern)
      (applies : pattern.match? specifier = some matched)
      (fill : pattern.fill rule.replacement matched = .error .unknownName) :
      Unfillable rule specifier .unknownGroup

theorem target?_eq_error_iff :
    rule.target? specifier = .error failure ↔ rule.Unfillable specifier failure := by
  constructor
  · intro h
    unfold target? at h
    split at h
    · dsimp only at h
      split at h
      · exact absurd h (by simp)
      · split at h <;> exact absurd h (by simp)
    · next pattern hfind =>
      split at h
      · exact absurd h (by simp)
      · next matched hmatch =>
        split at h
        · exact absurd h (by simp)
        · next hfill => exact Except.error.inj h ▸ .template hfind hmatch hfill
        · next hfill => exact Except.error.inj h ▸ .group hfind hmatch hfill
  · intro h
    unfold target?
    cases h with
    | template hfind hmatch hfill => simp only [hfind, hmatch, hfill]
    | group hfind hmatch hfill => simp only [hfind, hmatch, hfill]

theorem applyFirst_eq (rules : List AliasRule) (specifier : String) : applyFirst rules specifier =
    (firstAnswer (fun rule => rule.target? specifier) rules).map fun target =>
      target.getD specifier := by
  induction rules with
  | nil => rfl
  | cons rule rules ih =>
    rw [applyFirst, firstAnswer, ih]
    cases rule.target? specifier with
    | error failure => rfl
    | ok target => cases target <;> rfl

/-- **No target is found for a specifier** only if the first rule that applies cannot be filled
in. -/
theorem applyFirst_eq_error_iff : applyFirst rules specifier = .error failure ↔
    ∃ before rule after, rules = before ++ rule :: after ∧
      (∀ r ∈ before, r.target? specifier = .ok none) ∧ rule.Unfillable specifier failure := by
  have hfirst : applyFirst rules specifier = .error failure ↔
      firstAnswer (fun rule => rule.target? specifier) rules = .error failure := by
    rw [applyFirst_eq]
    cases firstAnswer (fun rule => rule.target? specifier) rules <;> simp [Except.map]
  rw [hfirst, firstAnswer_eq_error_iff]
  simp only [target?_eq_error_iff]

end AliasRule

namespace FileTree

variable {t : FileTree} {failure : Failure}

/-! ### Places -/

/-- The places that are looked at for the types of a package in a directory. -/
def packagePlaces (t : FileTree) (package : Path) : List Path :=
  (t.statedTypes package).1.map package.join ++ [package]

/-- The places that are looked at for a package in the modules of one directory. -/
def placesIn (t : FileTree) (specifier : String) (directory : Path) : List Path :=
  let modules := directory.join "node_modules"
  let package := modules.join specifier
  let typed := (modules.join "@types").join specifier
  (if t.isDirectory package then t.packagePlaces package else []) ++ package ::
    (if t.isDirectory typed then t.packagePlaces typed else [])

/-- **The places that a target stands for**, seen from a directory. -/
def placesFor (t : FileTree) (target : String) (directory : Path) : List Path :=
  if (Path.ofString target).isAbsolute then [Path.ofString target]
  else if namesPackage target then directory.upwards.flatMap (t.placesIn target)
  else [directory.join target]

theorem scriptAtAny_eq (places : List Path) :
    t.scriptAtAny places = firstAnswer t.scriptAt places := by
  induction places with
  | nil => rfl
  | cons place places ih =>
    rw [scriptAtAny, firstAnswer, ih]
    cases t.scriptAt place with
    | error failure => rfl
    | ok found => cases found <;> rfl

theorem firstAnswer_singleton (place : Path) :
    firstAnswer t.scriptAt [place] = t.scriptAt place := by
  rw [firstAnswer]
  cases t.scriptAt place with
  | error failure => rfl
  | ok found => cases found <;> rfl

theorem fst_orSearch (first : Search) (second : Unit → Search) :
    (orSearch first second).1 = orAnswer first.1 (second ()).1 := by
  obtain ⟨found, events⟩ := first
  cases found with
  | error failure => rfl
  | ok found => cases found <;> rfl

theorem fst_searchIn (specifier : String) (directory : Path) : (t.searchIn specifier directory).1 =
    firstAnswer t.scriptAt (t.placesIn specifier directory) := by
  have hpackage : ∀ package : Path,
      (if t.isDirectory package then t.typesOfPackage package else (.ok none, [])).1 =
        firstAnswer t.scriptAt (if t.isDirectory package then t.packagePlaces package else []) := by
    intro package
    rw [← scriptAtAny_eq]
    split <;> rfl
  rw [searchIn, placesIn, fst_orSearch, fst_orSearch, firstAnswer_append]
  exact congrArg₂ orAnswer (hpackage _) (congrArg _ (hpackage _))

/-- **A target is looked for** at one place after the other. -/
theorem fst_searchTarget (target : String) (directory : Path) :
    (t.searchTarget target directory).1 =
      firstAnswer t.scriptAt (t.placesFor target directory) := by
  have hall : ∀ directories : List Path, (t.searchAll target directories).1 =
      firstAnswer t.scriptAt (directories.flatMap (t.placesIn target)) := by
    intro directories
    induction directories with
    | nil => rfl
    | cons directory directories ih =>
      rw [searchAll, fst_orSearch, fst_searchIn, ih, List.flatMap_cons, firstAnswer_append]
  unfold searchTarget placesFor
  split
  · exact (firstAnswer_singleton _).symm
  · split
    · exact hall _
    · exact (firstAnswer_singleton _).symm

/-- No file is looked for at a place without a name, and at no other. -/
theorem scriptAt_eq_error_iff {place : Path} :
    t.scriptAt place = .error failure ↔ place.name = "" ∧ failure = .namelessPath := by
  unfold scriptAt
  by_cases hname : place.name = ""
  · simp [hname, eq_comm]
  · simp [hname]

theorem scriptAt_first_eq_error_iff {places : List Path} :
    firstAnswer t.scriptAt places = .error failure ↔ failure = .namelessPath ∧
      ∃ before place after, places = before ++ place :: after ∧
        (∀ p ∈ before, t.scriptAt p = .ok none) ∧ place.name = "" := by
  rw [firstAnswer_eq_error_iff]
  constructor
  · rintro ⟨before, place, after, order, first, hplace⟩
    obtain ⟨hname, hfailure⟩ := scriptAt_eq_error_iff.mp hplace
    exact ⟨hfailure, before, place, after, order, first, hname⟩
  · rintro ⟨hfailure, before, place, after, order, first, hname⟩
    exact ⟨before, place, after, order, first, scriptAt_eq_error_iff.mpr ⟨hname, hfailure⟩⟩

/-! ### Specifiers -/

/-- **A specifier that leads astray.** -/
inductive Astray (t : FileTree) (rules : List AliasRule) (specifier origin : String) :
    Failure → Prop where
  /-- The first alias that applies cannot be filled in. -/
  | unfillable {failure : Failure} {before after : List AliasRule} {rule : AliasRule}
      (order : rules = before ++ rule :: after)
      (first : ∀ r ∈ before, r.target? specifier = .ok none)
      (rule : rule.Unfillable specifier failure) : Astray t rules specifier origin failure
  /-- A place without a name is looked at, and no file stands at the places before it. -/
  | nameless {target : String} {before after : List Path} {place : Path}
      (leads : AliasRule.applyFirst rules specifier = .ok target)
      (order : t.placesFor target (Path.ofString origin).parent = before ++ place :: after)
      (first : ∀ p ∈ before, t.scriptAt p = .ok none)
      (nameless : place.name = "") : Astray t rules specifier origin .namelessPath

/-- **Specifiers fail to lead anywhere or nowhere** only if they lead astray. -/
theorem locate_eq_error_iff {rules : List AliasRule} {specifier origin : String} :
    (t.locate rules specifier origin).1 = .error failure ↔
      t.Astray rules specifier origin failure := by
  unfold locate
  cases htarget : AliasRule.applyFirst rules specifier with
  | error failure' =>
    dsimp only
    constructor
    · intro h
      obtain rfl : failure' = failure := Except.error.inj h
      obtain ⟨before, rule, after, order, first, hrule⟩ :=
        AliasRule.applyFirst_eq_error_iff.mp htarget
      exact .unfillable order first hrule
    · intro h
      cases h with
      | unfillable order first hrule =>
        have hfailure := AliasRule.applyFirst_eq_error_iff.mpr ⟨_, _, _, order, first, hrule⟩
        rw [Except.error.inj (htarget.symm.trans hfailure)]
      | nameless htarget' => exact absurd (htarget.symm.trans htarget') (by simp)
  | ok target =>
    have hplaces := fst_searchTarget (t := t) target (Path.ofString origin).parent
    have hsame : firstAnswer t.scriptAt (t.placesFor target (Path.ofString origin).parent) =
        .error failure ↔ t.Astray rules specifier origin failure := by
      rw [scriptAt_first_eq_error_iff]
      constructor
      · rintro ⟨rfl, before, place, after, order, first, hname⟩
        exact .nameless htarget order first hname
      · intro h
        cases h with
        | unfillable order first hrule =>
          exact absurd (htarget.symm.trans
            (AliasRule.applyFirst_eq_error_iff.mpr ⟨_, _, _, order, first, hrule⟩)) (by simp)
        | nameless htarget' order first hname =>
          obtain rfl := Except.ok.inj (htarget.symm.trans htarget')
          exact ⟨rfl, _, _, _, order, first, hname⟩
    dsimp only
    rw [← hsame, ← hplaces]
    split <;> next hsearch => simp [hsearch]

/-- **What comes of a specifier that leads astray.** -/
theorem Astray.failure_eq {rules : List AliasRule} {specifier origin : String} {failure : Failure}
    (h : t.Astray rules specifier origin failure) :
    failure = .badTemplate ∨ failure = .unknownGroup ∨ failure = .namelessPath := by
  cases h with
  | unfillable _ _ hrule =>
    cases hrule with
    | template => exact Or.inl rfl
    | group => exact Or.inr (Or.inl rfl)
  | nameless => exact Or.inr (Or.inr rfl)

/-- What comes of it is not reported. -/
theorem Astray.ne_fault {rules : List AliasRule} {specifier origin : String} {failure : Failure}
    (h : t.Astray rules specifier origin failure) (fault : Fault) : failure ≠ .fault fault := by
  rcases h.failure_eq with rfl | rfl | rfl <;> simp

end FileTree

end TypeGraft
