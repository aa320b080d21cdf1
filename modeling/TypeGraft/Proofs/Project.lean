import TypeGraft.Project.Reader
import TypeGraft.Proofs.Table
import TypeGraft.Proofs.Text.Utf8

/-!
# Projects that cannot be read

What is wrong with the files of a project is to be reported as a fault of its configuration. Most of
it is: files that cannot be opened, texts that are no JSON, and settings with a value of the wrong
kind. But some files end the reading of their project with a failure that nothing reports, and
`TypeGraft.FileTree.project_unreported_iff` says which ones these are
(`TypeGraft.FileTree.Misread`).

* A file of the project is not well-formed UTF-8 (`TypeGraft.FileTree.Illegible`). It was opened, so
  this is no problem of the file, and it has not come to its JSON, so it is no problem of that.
* An alias cannot be used (`TypeGraft.AliasRule.Unusable`). The settings are looked through for
  texts, but not for patterns or paths.
* The options of the compiler cannot be used (`TypeGraft.OptionsUnusable`). They are not looked
  through at all.

They are tried in this order, so one that comes later counts only where the ones before it do not
hold.

All of this is said of the files as they are read here. In two points this is not how they are meant
to be read. A pattern with a character that is given by its name, as in `\N{EM DASH}`, is none for
`TypeGraft.Pattern.ofString?`, so an alias with such a pattern counts as one that cannot be used.
And an escaped surrogate without its partner is U+FFFD for `TypeGraft.Json.parse`, so it makes no
text or path unusable.
-/

namespace TypeGraft

/-- **Failures that nothing reports**: all but the faults of a configuration. -/
def Failure.Unreported (failure : Failure) : Prop :=
  ∀ message, failure ≠ .fault (.configuration message)

/-- Two steps fail where one of them does. -/
theorem bind_eq_error_iff {ε α β : Type} {first : Except ε α} {next : α → Except ε β}
    {failure : ε} :
    (first >>= next) = .error failure ↔
      first = .error failure ∨ ∃ a, first = .ok a ∧ next a = .error failure := by
  cases first <;> simp [bind, Except.bind]

/-- **A list of steps fails** where one of them does and all in front of it succeed. -/
theorem mapM_eq_error_iff {ε α β : Type} {f : α → Except ε β} {items : List α} {failure : ε} :
    items.mapM f = .error failure ↔ ∃ before item after, items = before ++ item :: after ∧
      (∀ b ∈ before, ∃ result, f b = .ok result) ∧ f item = .error failure := by
  induction items with
  | nil => simp [pure, Except.pure]
  | cons item items ih =>
    rw [List.mapM_cons]
    cases hitem : f item with
    | error failure' =>
      constructor
      · intro h
        obtain rfl : failure' = failure := Except.error.inj h
        exact ⟨[], item, items, rfl, by simp, hitem⟩
      · rintro ⟨before, failing, after, hitems, hbefore, hfailing⟩
        rcases List.cons_eq_append_iff.mp hitems with ⟨rfl, hrest⟩ | ⟨more, rfl, -⟩
        · rw [(List.cons.inj hrest).1, hitem] at hfailing
          exact congrArg _ (Except.error.inj hfailing)
        · obtain ⟨result, hresult⟩ := hbefore item List.mem_cons_self
          exact absurd (hitem.symm.trans hresult) (by simp)
    | ok result =>
      have hrest : (do let b ← Except.ok result; let bs ← items.mapM f; pure (b :: bs)) =
          Except.error failure ↔ items.mapM f = .error failure := by
        cases items.mapM f <;> simp [bind, Except.bind, pure, Except.pure]
      rw [hrest, ih]
      constructor
      · rintro ⟨before, failing, after, rfl, hbefore, hfailing⟩
        exact ⟨item :: before, failing, after, rfl,
          List.forall_mem_cons.mpr ⟨⟨result, hitem⟩, hbefore⟩, hfailing⟩
      · rintro ⟨before, failing, after, hitems, hbefore, hfailing⟩
        rcases List.cons_eq_append_iff.mp hitems with ⟨rfl, hrest⟩ | ⟨more, rfl, rfl⟩
        · rw [(List.cons.inj hrest).1, hitem] at hfailing
          exact absurd hfailing (by simp)
        · exact ⟨more, failing, after, rfl, (List.forall_mem_cons.mp hbefore).2, hfailing⟩

/-! ### Aliases -/

/-- **An alias that cannot be used**: its pattern is none, or its replacement is a path in the
project that no file can have. -/
inductive AliasRule.Unusable (find replacement : String) : Failure → Prop where
  | pattern {source : String} (between : betweenSlashes? find = some source)
      (malformed : Pattern.ofString? source = none) : Unusable find replacement .badPattern
  | null (text : betweenSlashes? find = none) (inProject : replacement.toList.head? = some '.')
      (null : replacement.contains '\u0000' = true) : Unusable find replacement .nullInPath

/-- A text that settings state for an alias. -/
def AliasRule.Usable (find replacement : String) : Prop :=
  ∀ failure, ¬Unusable find replacement failure

section Rules

variable {t : FileTree} {root base file : Path} {find replacement text : String} {failure : Failure}

theorem FileTree.placeFrom_eq_error_iff : t.placeFrom base text = .error failure ↔
    text.contains '\u0000' = true ∧ failure = .nullInPath := by
  unfold placeFrom
  split <;> next h => simp [h, eq_comm]

theorem FileTree.aliasRule_eq_error_iff (t : FileTree) (root : Path) :
    t.aliasRule root find replacement = .error failure ↔
      AliasRule.Unusable find replacement failure := by
  unfold aliasRule
  constructor
  · intro h
    split at h
    · next source hbetween =>
      split at h
      · exact absurd h (by simp)
      · next hmalformed => exact Except.error.inj h ▸ .pattern hbetween hmalformed
    · next htext =>
      split at h
      · next hhead =>
        have hplace : t.placeFrom root replacement = .error failure := by
          cases hplace : t.placeFrom root replacement with
          | error failure' => rw [hplace] at h; exact congrArg _ (Except.error.inj h)
          | ok path => rw [hplace] at h; exact absurd h (by simp [Except.map])
        obtain ⟨hnull, rfl⟩ := placeFrom_eq_error_iff.mp hplace
        exact .null htext (by simpa using hhead) hnull
      · exact absurd h (by simp)
  · intro h
    cases h with
    | pattern between malformed => simp only [between, malformed]
    | null text inProject null =>
      simp only [text, inProject, BEq.rfl, if_true, placeFrom_eq_error_iff.mpr ⟨null, rfl⟩,
        Except.map]

theorem FileTree.exists_aliasRule_iff : (∃ rule, t.aliasRule root find replacement = .ok rule) ↔
    AliasRule.Usable find replacement := by
  unfold AliasRule.Usable
  simp only [← FileTree.aliasRule_eq_error_iff t root]
  cases t.aliasRule root find replacement <;> simp

/-- **Options of the compiler that cannot be used**: the base of the paths is no path, or the paths
are no object, where something that counts as absent is passed over. -/
inductive OptionsUnusable (options : Json) : Failure → Prop where
  | base {value : Json} (stated : options.get? "baseUrl" = some value)
      (kind : ∀ text, value ≠ .string text) : OptionsUnusable options .baseNotText
  | null {text : String} (stated : options.get? "baseUrl" = some (.string text))
      (null : text.contains '\u0000' = true) : OptionsUnusable options .nullInPath
  | paths {value : Json} (stated : options.get? "paths" = some value)
      (kind : ∀ members, value ≠ .object members) (present : value.isTruthy = true)
      (base : ∀ value, options.get? "baseUrl" = some value →
        ∃ text, value = .string text ∧ text.contains '\u0000' = false) :
      OptionsUnusable options .pathsNotObject

theorem FileTree.pathBase_eq_error_iff {options : Json} : t.pathBase file options = .error failure ↔
    ∃ value, options.get? "baseUrl" = some value ∧
      ((∀ text, value ≠ .string text) ∧ failure = .baseNotText ∨
        ∃ text, value = .string text ∧ text.contains '\u0000' = true ∧ failure = .nullInPath) := by
  unfold pathBase
  cases options.get? "baseUrl" with
  | none => simp [placeFrom_eq_error_iff]
  | some value =>
    cases value with
    | string text => simp [placeFrom_eq_error_iff]
    | _ => simp [eq_comm]

theorem FileTree.statedPaths_eq_error_iff {options : Json} : statedPaths options = .error failure ↔
    ∃ value, options.get? "paths" = some value ∧ (∀ members, value ≠ .object members) ∧
      value.isTruthy = true ∧ failure = .pathsNotObject := by
  unfold statedPaths
  split
  · next habsent => simp [habsent]
  · next members hmembers => simp [hmembers]
  · next json hkind hjson =>
    split
    · next htruthy =>
      constructor
      · intro h
        exact ⟨json, hjson, fun members h => hkind members h, htruthy, (Except.error.inj h).symm⟩
      · rintro ⟨-, -, -, -, rfl⟩
        rfl
    · next hfalsy =>
      constructor
      · exact fun h => absurd h (by simp)
      · rintro ⟨value, hvalue, -, htruthy, -⟩
        rw [← Option.some.inj (hjson.symm.trans hvalue)] at htruthy
        exact absurd htruthy hfalsy

theorem FileTree.exists_pathBase_iff {options : Json} :
    (∃ base, t.pathBase file options = .ok base) ↔
    ∀ value, options.get? "baseUrl" = some value →
      ∃ text, value = .string text ∧ text.contains '\u0000' = false := by
  unfold pathBase
  cases options.get? "baseUrl" with
  | none => simp [placeFrom]
  | some value =>
    cases value with
    | string text => cases hnull : text.contains '\u0000' <;> simp_all [placeFrom]
    | _ => simp

theorem FileTree.optionsUnusable_iff (t : FileTree) (file : Path) {options : Json} :
    OptionsUnusable options failure ↔
    t.pathBase file options = .error failure ∨
      ∃ base, t.pathBase file options = .ok base ∧ statedPaths options = .error failure := by
  rw [exists_and_right, exists_pathBase_iff, pathBase_eq_error_iff, statedPaths_eq_error_iff]
  constructor
  · intro h
    cases h with
    | base stated kind => exact Or.inl ⟨_, stated, Or.inl ⟨kind, rfl⟩⟩
    | null stated null => exact Or.inl ⟨_, stated, Or.inr ⟨_, rfl, null, rfl⟩⟩
    | paths stated kind present base => exact Or.inr ⟨base, _, stated, kind, present, rfl⟩
  · rintro (⟨value, stated, ⟨kind, rfl⟩ | ⟨text, rfl, null, rfl⟩⟩ | ⟨base, value, stated, kind,
      present, rfl⟩)
    · exact .base stated kind
    · exact .null stated null
    · exact .paths stated kind present base

end Rules

/-! ### Files -/

namespace FileTree

variable {t : FileTree} {root file start : Path} {failure : Failure} {toJson : String → String}

/-- **A file that is not well-formed UTF-8.** -/
def Illegible (t : FileTree) (file : Path) : Prop :=
  ∃ bytes, t.read file = .ok bytes ∧ ¬bytes.Encoded

theorem settingsText_unreported_iff : t.settingsText file = .error failure ∧ failure.Unreported ↔
    t.Illegible file ∧ failure = .undecodable := by
  unfold settingsText Illegible
  cases hread : t.read file with
  | error problem =>
    simp only [Except.error.injEq, reduceCtorEq, false_and, exists_false, iff_false, not_and]
    exact fun h hunreported => hunreported _ h.symm
  | ok bytes =>
    cases htext : bytes.toString? with
    | none =>
      have hillegible : ¬bytes.Encoded := Bytes.toString?_eq_none_iff.mp htext
      simp only [htext, Except.error.injEq, Except.ok.injEq, exists_eq_left', hillegible,
        not_false_eq_true, true_and]
      exact ⟨fun h => h.1.symm, fun h => ⟨h.symm, h ▸ fun _ => by simp⟩⟩
    | some text =>
      have hencoded : bytes.Encoded := by
        by_contra hillegible
        exact absurd (htext.symm.trans (Bytes.toString?_eq_none_iff.mpr hillegible)) (by simp)
      simp [htext, hencoded]

/-- **No value is read from a file**, and nothing is reported, only if it is illegible. -/
theorem jsonIn_unreported_iff (toJson : String → String) :
    t.jsonIn file toJson = .error failure ∧ failure.Unreported ↔
    t.Illegible file ∧ failure = .undecodable := by
  rw [← settingsText_unreported_iff]
  unfold jsonIn
  cases t.settingsText file with
  | error failure' => simp
  | ok text =>
    dsimp only
    cases Json.parse (toJson text) with
    | ok json => simp
    | error problem =>
      simp only [Except.error.injEq, reduceCtorEq, false_and, iff_false, not_and]
      exact fun h hunreported => hunreported _ h.symm

theorem settingsIn_unreported_iff : t.settingsIn file = .error failure ∧ failure.Unreported ↔
    t.Illegible file ∧ failure = .undecodable := by
  rw [← jsonIn_unreported_iff id]
  unfold settingsIn
  cases t.jsonIn file id with
  | error failure' => simp
  | ok json =>
    dsimp only
    cases Settings.ofJson json with
    | ok settings => simp
    | error problem =>
      simp only [Except.error.injEq, reduceCtorEq, false_and, iff_false, not_and]
      exact fun h hunreported => hunreported _ h.symm

theorem exists_of_read {bytes : Bytes} (h : t.read file = .ok bytes) : t.exists_ file = true := by
  unfold read at h
  unfold exists_
  split at h
  · next hfind => rw [hfind]
  · exact absurd h (by simp)
  · exact absurd h (by simp)

theorem exists_of_jsonIn {json : Json} (h : t.jsonIn file toJson = .ok json) :
    t.exists_ file = true := by
  unfold jsonIn settingsText at h
  cases hread : t.read file with
  | error problem =>
    rw [hread] at h
    exact absurd h (by simp)
  | ok bytes => exact exists_of_read hread

/-- The options of the compiler in a file. -/
def OptionsIn (t : FileTree) (file : Path) (options : Json) : Prop :=
  ∃ json members, t.jsonIn file Json.withoutComments = .ok json ∧
    json.get? "compilerOptions" = some (.object members) ∧ options = .object members

theorem unreported_of_optionsUnusable {options : Json} (h : OptionsUnusable options failure) :
    failure.Unreported := by
  cases h <;> exact fun _ => by simp

theorem pathRulesIn_unreported_iff : t.pathRulesIn file = .error failure ∧ failure.Unreported ↔
    (t.Illegible file ∧ failure = .undecodable) ∨
      ∃ options, t.OptionsIn file options ∧ OptionsUnusable options failure := by
  unfold pathRulesIn OptionsIn
  rw [bind_eq_error_iff, or_and_right, jsonIn_unreported_iff]
  refine or_congr Iff.rfl ⟨?_, ?_⟩
  · rintro ⟨⟨json, hjson, h⟩, -⟩
    split at h
    · next members hmembers =>
      refine ⟨.object members, ⟨json, members, hjson, hmembers, rfl⟩,
        (optionsUnusable_iff t file).mpr ?_⟩
      simpa [bind_eq_error_iff] using h
    · exact absurd h (by simp)
  · rintro ⟨_, ⟨json, members, hjson, hmembers, rfl⟩, hunusable⟩
    refine ⟨⟨json, hjson, ?_⟩, unreported_of_optionsUnusable hunusable⟩
    rw [hmembers]
    simpa [bind_eq_error_iff] using (optionsUnusable_iff t file).mp hunusable

/-- **The settings of a project**: those in its file, or the usual ones if there is no such file. -/
def settingsAt (t : FileTree) (root : Path) : Except Failure Settings :=
  if t.exists_ (root.join settingsName) then t.settingsIn (root.join settingsName)
  else .ok .standard

/-- **A project that cannot be read**, and nothing says so. -/
inductive Misread (t : FileTree) (root : Path) : Failure → Prop where
  | settings (illegible : t.Illegible (root.join settingsName)) : Misread t root .undecodable
  | rule {failure : Failure} {settings : Settings} {before after : List (String × String)}
      {find replacement : String} (states : t.settingsAt root = .ok settings)
      (order : settings.aliases = before ++ (find, replacement) :: after)
      (first : ∀ entry ∈ before, AliasRule.Usable entry.1 entry.2)
      (unusable : AliasRule.Unusable find replacement failure) : Misread t root failure
  | compiler {settings : Settings} (states : t.settingsAt root = .ok settings)
      (aliases : ∀ entry ∈ settings.aliases, AliasRule.Usable entry.1 entry.2)
      (illegible : t.Illegible (root.join settings.compilerOptions)) : Misread t root .undecodable
  | options {failure : Failure} {settings : Settings} {options : Json}
      (states : t.settingsAt root = .ok settings)
      (aliases : ∀ entry ∈ settings.aliases, AliasRule.Usable entry.1 entry.2)
      (stated : t.OptionsIn (root.join settings.compilerOptions) options)
      (unusable : OptionsUnusable options failure) : Misread t root failure

theorem settingsAt_unreported_iff : t.settingsAt root = .error failure ∧ failure.Unreported ↔
    t.Illegible (root.join settingsName) ∧ failure = .undecodable := by
  unfold settingsAt
  split
  · exact settingsIn_unreported_iff
  · next hmissing =>
    simp only [reduceCtorEq, false_and, false_iff, not_and]
    exact fun ⟨_, hread, _⟩ => absurd (exists_of_read hread) hmissing

/-- The aliases for the paths in the options of the compiler, if there are options. -/
def pathRulesAt (t : FileTree) (file : Path) : Except Failure (List (Event ⊕ AliasRule)) :=
  if t.exists_ file then t.pathRulesIn file else .ok []

theorem pathRulesAt_unreported_iff : t.pathRulesAt file = .error failure ∧ failure.Unreported ↔
    (t.Illegible file ∧ failure = .undecodable) ∨
      ∃ options, t.OptionsIn file options ∧ OptionsUnusable options failure := by
  unfold pathRulesAt
  split
  · exact pathRulesIn_unreported_iff
  · next hmissing =>
    simp only [reduceCtorEq, false_and, false_iff]
    rintro (⟨⟨_, hread, -⟩, -⟩ | ⟨_, ⟨json, _, hjson, -⟩, -⟩)
    · exact hmissing (exists_of_read hread)
    · exact hmissing (exists_of_jsonIn hjson)

theorem projectAt_eq (t : FileTree) (root : Path) : t.projectAt root = (do
    let settings ← t.settingsAt root
    let stated ← settings.aliases.mapM fun entry => t.aliasRule root entry.1 entry.2
    let paths ← t.pathRulesAt (root.join settings.compilerOptions)
    .ok (⟨some root, stated ++ paths.filterMap Sum.getRight?, settings.macros, settings.cleaning⟩,
      paths.filterMap Sum.getLeft?)) := by
  have hpaths :
      ∀ (file : Path) (next : List (Event ⊕ AliasRule) → Except Failure (Project × List Event)),
      t.pathRulesAt file >>= next =
        if t.exists_ file then t.pathRulesIn file >>= next else .ok [] >>= next := by
    intro file next
    unfold pathRulesAt
    split <;> rfl
  unfold projectAt settingsAt
  simp only [hpaths]
  split <;> rfl

theorem unreported_of_unusable {find replacement : String}
    (h : AliasRule.Unusable find replacement failure) :
    failure.Unreported := by
  cases h <;> exact fun _ => by simp

theorem mapM_aliasRule_eq_error_iff {aliases : List (String × String)} :
    (aliases.mapM fun entry => t.aliasRule root entry.1 entry.2) = .error failure ↔
      ∃ before find replacement after, aliases = before ++ (find, replacement) :: after ∧
        (∀ entry ∈ before, AliasRule.Usable entry.1 entry.2) ∧
          AliasRule.Unusable find replacement failure := by
  simp only [mapM_eq_error_iff, exists_aliasRule_iff, aliasRule_eq_error_iff, Prod.exists]

theorem exists_mapM_aliasRule_iff (t : FileTree) (root : Path) {aliases : List (String × String)} :
    (∃ stated, (aliases.mapM fun entry => t.aliasRule root entry.1 entry.2) = .ok stated) ↔
      ∀ entry ∈ aliases, AliasRule.Usable entry.1 entry.2 := by
  constructor
  · rintro ⟨stated, hstated⟩ entry hentry
    obtain ⟨rule, -, hrule⟩ := exists_of_mem_of_mapM hstated hentry
    exact exists_aliasRule_iff.mp ⟨rule, hrule⟩
  · exact fun h => exists_mapM fun entry hentry => exists_aliasRule_iff.mpr (h entry hentry)

theorem projectAt_unreported_iff : t.projectAt root = .error failure ∧ failure.Unreported ↔
    t.Misread root failure := by
  rw [projectAt_eq]
  simp only [bind_eq_error_iff, mapM_aliasRule_eq_error_iff, reduceCtorEq, and_false,
    exists_false, or_false]
  constructor
  · rintro ⟨hsettings | ⟨settings, hstates,
      ⟨before, find, replacement, after, horder, hfirst, hunusable⟩ |
      ⟨stated, hstated, hoptions⟩⟩, hunreported⟩
    · obtain ⟨hillegible, rfl⟩ := settingsAt_unreported_iff.mp ⟨hsettings, hunreported⟩
      exact .settings hillegible
    · exact .rule hstates horder hfirst hunusable
    · have haliases := (exists_mapM_aliasRule_iff t root).mp ⟨stated, hstated⟩
      rcases pathRulesAt_unreported_iff.mp ⟨hoptions, hunreported⟩ with
        ⟨hillegible, rfl⟩ | ⟨options, hoptions, hunusable⟩
      · exact .compiler hstates haliases hillegible
      · exact .options hstates haliases hoptions hunusable
  · intro h
    cases h with
    | settings illegible =>
      obtain ⟨hsettings, hunreported⟩ := settingsAt_unreported_iff.mpr ⟨illegible, rfl⟩
      exact ⟨Or.inl hsettings, hunreported⟩
    | rule states order first unusable =>
      exact ⟨Or.inr ⟨_, states, Or.inl ⟨_, _, _, _, order, first, unusable⟩⟩,
        unreported_of_unusable unusable⟩
    | compiler states aliases illegible =>
      obtain ⟨stated, hstated⟩ := (exists_mapM_aliasRule_iff t root).mpr aliases
      obtain ⟨hoptions, hunreported⟩ := pathRulesAt_unreported_iff.mpr (Or.inl ⟨illegible, rfl⟩)
      exact ⟨Or.inr ⟨_, states, Or.inr ⟨stated, hstated, hoptions⟩⟩, hunreported⟩
    | options states aliases stated' unusable =>
      obtain ⟨stated, hstated⟩ := (exists_mapM_aliasRule_iff t root).mpr aliases
      obtain ⟨hoptions, hunreported⟩ :=
        pathRulesAt_unreported_iff.mpr (Or.inr ⟨_, stated', unusable⟩)
      exact ⟨Or.inr ⟨_, states, Or.inr ⟨stated, hstated, hoptions⟩⟩, hunreported⟩

/-- **A project is read**, or what is wrong with it is reported, unless it is misread. For this, a
pattern that gives a character by its name is none, and an escaped surrogate without its partner is
U+FFFD. -/
theorem project_unreported_iff (t : FileTree) (start : Path) (failure : Failure) :
    t.project start = .error failure ∧ failure.Unreported ↔
      ∃ root, t.projectRoot? start = some root ∧ t.Misread root failure := by
  unfold project
  cases t.projectRoot? start with
  | none => simp
  | some root =>
    simp only [Option.some.injEq, exists_eq_left']
    exact projectAt_unreported_iff

/-- A byte that starts no character is enough. -/
theorem exists_project_unreported : ∃ (t : FileTree) (start : Path) (failure : Failure),
    t.project start = .error failure ∧ failure.Unreported :=
  ⟨⟨["work"], [(["work", "typeinline.json"], [0xff])]⟩, Path.ofString "/work", .undecodable, rfl,
    fun _ => by simp⟩

/-- So is an alias for a pattern with a group that is not closed. -/
example : ((⟨["work"], [(["work", "typeinline.json"],
    Bytes.ofString "\x7b\"aliases\": \x7b\"/(/\": \"lib\"\x7d\x7d")]⟩ : FileTree).project
      (Path.ofString "/work")).map (fun _ => ()) = .error .badPattern := by
  decide +kernel

end FileTree

end TypeGraft
