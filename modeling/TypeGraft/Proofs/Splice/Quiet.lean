import TypeGraft.Proofs.Resolution.Home
import TypeGraft.Proofs.Splice.Cleanup

/-!
# Nothing to write

If a script is at home, then what is found for it is *quiet* (`TypeGraft.Harvest.Quiet`): all of it
is declared in the script under its own name, no slot reads otherwise than it should, no interface
has members to take in, and no import brings in what was found. A quiet harvest leaves nothing to
splice: the block is empty and there are no edits (`TypeGraft.Harvest.Quiet.exists_splice`).
-/

namespace TypeGraft

namespace Harvest

variable {world : World} {s s' found : Harvest} {o : Outline} {orders : Orders} {clean : Cleaning}
  {requests : List RootRequest}

/-! ### Splicing nothing -/

/-- **A harvest that leaves nothing to splice.** -/
structure Quiet (o : Outline) (s : Harvest) : Prop where
  entry : s.entry = some o.path
  file : s.files.get? o.path = some o
  /-- All that was found is an alias or an interface of the entry script, with nothing written into
  its slots. -/
  grafts : ∀ entry ∈ s.grafts, s.isEntryFile entry.2.declaration.file = true ∧
    entry.2.declaration.isEnumeration = false ∧ entry.2.replacements = []
  rootEdits : s.rootEdits = []
  inherits : s.inherits.edges = []
  targets : ∀ ref key, s.targetOf ref = some key → s.isEntryFile key.file = true
  /-- What is imported was not found. -/
  imports : ∀ stmt ∈ o.importList, ∀ name ∈ stmt.names,
    (s.synonyms.knownNames o.path).get? name = none

namespace Quiet

variable (h : s.Quiet o)
include h

theorem moved_eq (d : Declaration) : s.moved orders d = false := by
  rw [moved, absorbsParents, Digraph.outDegree, Digraph.successors, h.inherits]
  simp

theorem stays_eq {entry : Key × Graft} (hentry : entry ∈ s.grafts) :
    s.stays orders entry.2.declaration = true := by
  obtain ⟨hfile, hplain, -⟩ := h.grafts entry hentry
  rw [stays, hfile, hplain, h.moved_eq]
  rfl

theorem blockKeys_eq : s.blockKeys orders = [] := by
  refine List.filter_eq_nil_iff.mpr fun key _ => ?_
  cases he : s.graft? key with
  | none => simp
  | some e =>
    dsimp only
    rw [h.stays_eq (Table.mem_of_get? he)]
    simp

theorem ancestors_eq (key : Key) : s.ancestors key = [] := by
  refine List.eq_nil_iff_forall_not_mem.mpr fun base hbase => ?_
  obtain ⟨hpath, hne⟩ := path_of_mem_ancestors hbase
  rcases Relation.ReflTransGen.cases_head hpath with rfl | ⟨next, hedge, -⟩
  · exact hne rfl
  · rw [Digraph.Edge, h.inherits] at hedge
    exact absurd hedge List.not_mem_nil

theorem filledBody_eq {key : Key} {e : Graft} (he : (key, e) ∈ s.grafts) :
    filledBody e = .ok e.declaration.content := by
  rw [filledBody, Graft.replacementsInBody, (h.grafts _ he).2.2, List.filter_nil,
    Replacement.applyAll_nil]

theorem absorbParents_eq (own : Table Key Bytes) : (s.absorbParents orders own).1 = s := by
  have hsame : ∀ key, s.inheritDependencies key = s := by
    intro key
    rw [inheritDependencies, h.ancestors_eq]
    rfl
  change orders.absorbOrder.foldl inheritDependencies s = s
  induction orders.absorbOrder with
  | nil => rfl
  | cons key keys ih => rw [List.foldl_cons, hsame, ih]

theorem edits_eq : s.edits orders clean = [] := by
  refine List.eq_nil_iff_forall_not_mem.mpr fun x hx => ?_
  rcases (mem_edits_iff h.entry h.file).mp hx with hx | ⟨key, e, he, -, hx⟩ | ⟨stmt, hstmt, hx⟩
  · rw [h.rootEdits] at hx
    exact absurd hx List.not_mem_nil
  · -- the declaration stays in its place, and all of its bases are declared beside it
    have hidle : (s.idleInterfaces orders clean).contains e.declaration.key = false := by
      have hbase : ∀ key, s.inherits.inDegree key = 0 := by
        intro key
        rw [Digraph.inDegree, h.inherits]
        rfl
      simp [idleInterfaces, hbase]
    have hrenamed : s.renamedParents (s.blockKeys orders) e.declaration = [] := by
      have hnone : s.foreignParents (s.blockKeys orders) e.declaration = [] := by
        refine List.filterMap_eq_nil_iff.mpr fun clause _ => ?_
        obtain ⟨heritage, ref⟩ := clause
        cases htarget : s.targetOf ref with
        | none => simp [htarget]
        | some key => simp [htarget, h.targets ref key htarget]
      rw [renamedParents, hnone, List.filterMap_nil]
    rw [editsOf, declarationEdits, hidle, h.moved_eq, h.stays_eq he, (h.grafts _ he).2.2,
      hrenamed] at hx
    exact absurd hx (by simp)
  · have hnames : (stmt.without (s.drops (s.synonyms.knownNames o.path)
        (s.keptNames orders clean))).names = stmt.names := by
      rw [Import.names_without, List.filter_eq_self]
      intro name hname
      rw [drops, h.imports stmt hstmt name hname]
      rfl
    rw [trimmed?, trimming?_eq] at hx
    dsimp only at hx
    rw [if_pos hnames] at hx
    exact absurd hx (by simp)

/-- **A quiet harvest** leaves nothing to splice. -/
theorem exists_splice : ∃ s', s.splice orders clean = .ok (s', ⟨"", [], []⟩) := by
  obtain ⟨own, hown⟩ := exists_filledBodies fun _ _ he => ⟨_, h.filledBody_eq he⟩
  unfold Harvest.splice
  rw [hown]
  dsimp only
  rw [h.absorbParents_eq own, h.blockKeys_eq]
  refine ⟨s, ?_⟩
  change Except.ok (s, (⟨"", s.edits orders clean, []⟩ : Splice)) = _
  rw [h.edits_eq]

/-- Breaking circles keeps a harvest quiet. -/
theorem orders_fst : s.orders.1.Quiet o := by
  refine ⟨h.entry, h.file, h.grafts, h.rootEdits, ?_, h.targets, h.imports⟩
  change (s.inherits.cut _).edges = []
  rw [Digraph.cut, h.inherits]
  rfl

end Quiet

/-! ### What is found at home -/

namespace AtHome

variable {key : Key} {e : Graft} {ref : RefId} {r : Reference}

/-- All that was found at home is declared in the script, and is needed. -/
theorem of_graft? (h : s.AtHome o requests) (hgrounded : s.Grounded) (he : s.graft? key = some e) :
    e.declaration.key = key ∧ key.file = o.path ∧
      o.declarations.get? key.name = some e.declaration ∧ o.Needs requests key.name := by
  obtain ⟨hfile, hneeds⟩ := h.taken key (by rw [he]; rfl)
  have hkey : key = ⟨o.path, key.name⟩ := by rw [← hfile]
  refine ⟨hgrounded.key_eq (hgrounded.graft key e he), hfile, ?_, hneeds⟩
  rw [hkey] at he
  exact hgrounded.mirrors h.file _ e he

/-- A reference is resolved to what has its own name. -/
theorem of_target (h : s.AtHome o requests) (hr : s.reference? ref = some r)
    (htarget : r.target = some key) : r.name = key.name ∧ ∃ e, s.graft? key = some e := by
  obtain ⟨hname, hsome⟩ := h.literal.resolved ref key ((targetOf_of_reference? hr).trans htarget)
  rw [nameOf_of_reference? hr] at hname
  exact ⟨Option.some.inj hname, Option.isSome_iff_exists.mp hsome⟩

/-- **No slot is written into**: what is found at home goes by the name that stands there. -/
theorem written_eq (h : s.AtHome o requests) (hhome : o.AtHome world requests) (hsound : o.Sound)
    (hgrounded : s.Grounded) (hlinked : s.Linked) (htidy : s.Tidy) (hnamed : s.WellNamed o)
    (hfilled : s.Filled) (owner : Option Key) : s.written owner = [] := by
  refine List.eq_nil_iff_forall_not_mem.mpr fun x hx => ?_
  obtain ⟨ref, r, key, hr, howner, htarget, hfilling⟩ := (hfilled owner x).mp hx
  obtain ⟨hname, e, he⟩ := h.of_target hr htarget
  obtain ⟨hkey, hfile, hd, hneeds⟩ := h.of_graft? hgrounded he
  have hnew : s.newNameOf key = r.name := by
    rw [newNameOf_of_graft? he, hname]
    exact hnamed.own key e he (h.isEntryFile_eq hfile) (hhome.plain key.name _ hneeds hd)
  have hkept : s.isLeftOut r key = false := by
    rw [isLeftOut, hgrounded.graft key e he, Option.any_some]
    exact h.leavesOut_eq (by rw [hkey]; exact hfile) r
  obtain ⟨span, hspan, hfilling⟩ := Option.bind_eq_some_iff.mp hfilling
  rw [howner, hkept, hnew] at hfilling
  cases owner with
  | none =>
    dsimp only at hfilling
    rw [if_pos (Or.inr rfl)] at hfilling
    exact absurd hfilling (by simp)
  | some owner =>
    -- the slot is where the owner mentions the name
    obtain ⟨e₀, he₀⟩ := Option.isSome_iff_exists.mp (hlinked.owner ref r owner hr howner)
    obtain ⟨-, hfile₀, hd₀, -⟩ := h.of_graft? hgrounded he₀
    have hheld : r.bare ∈ s.heldBy owner := List.mem_filter.mpr
      ⟨List.mem_map.mpr ⟨r, List.mem_of_getElem? hr, rfl⟩, by
        rw [show r.bare.owner = r.owner from rfl, howner]
        simp⟩
    rw [htidy.held owner, mentionedBy, get?_names, he₀, Option.map_some, hfile₀, h.file] at hheld
    obtain ⟨m, hm, hbare⟩ := List.mem_map.mp hheld
    have htext : s.textOf owner.file span = r.name := by
      have hmspan : m.span = span := by
        have hspans : some m.span = r.span := congrArg (fun r => r.span) hbare
        exact Option.some.inj (hspans.trans hspan)
      rw [textOf, hfile₀, h.file, ← hmspan]
      exact (hsound.text_of_mem_mentions hd₀ (List.mem_filter.mp hm).1).trans
        (congrArg (fun r => r.name) hbare)
    dsimp only at hfilling
    rw [if_neg (by simp), htext, if_pos rfl] at hfilling
    split at hfilling <;> exact absurd hfilling (by simp)

/-- **Nothing is inherited** by what is found at home. -/
theorem inherits_eq (h : s.AtHome o requests) (hhome : o.AtHome world requests)
    (hgrounded : s.Grounded) (hlinked : s.Linked) (hclauses : s.Clauses)
    (hmembers : s.InheritsMembers) : s.inherits.edges = [] := by
  refine List.eq_nil_iff_forall_not_mem.mpr fun edge hedge => ?_
  obtain ⟨owner, base⟩ := edge
  obtain ⟨hbase, ref, r, hr, howner, hkind, htarget⟩ := hmembers owner base hedge
  obtain ⟨hname, e, he⟩ := h.of_target hr htarget
  obtain ⟨-, -, hd, -⟩ := h.of_graft? hgrounded he
  obtain ⟨e₀, he₀⟩ := Option.isSome_iff_exists.mp (hlinked.owner ref r owner hr howner)
  obtain ⟨hkey₀, -, hd₀, hneeds₀⟩ := h.of_graft? hgrounded he₀
  obtain ⟨heritage, hmem, hspelled, -⟩ := hclauses.exists_heritage he₀ hkey₀ hr howner hkind
  have hflat := hhome.flat owner.name e₀.declaration heritage e.declaration hneeds₀ hd₀
    (List.of_mem_zip hmem).1 (by rw [hspelled, hname]; exact hd)
  rw [hasMembers_of_graft? he, hflat] at hbase
  exact absurd hbase (by simp)

/-- What is imported was not found at home. -/
theorem knownNames_eq (h : s.AtHome o requests) (hhome : o.AtHome world requests)
    (hsound : o.Sound) (hgrounded : s.Grounded) {stmt : Import} (hstmt : stmt ∈ o.importList)
    {name : String} (hname : name ∈ stmt.names) :
    (s.synonyms.knownNames o.path).get? name = none := by
  cases hknown : (s.synonyms.knownNames o.path).get? name with
  | none => rfl
  | some key =>
    obtain ⟨record, hrecord, hstands⟩ := List.mem_filterMap.mp (Table.mem_of_get? hknown)
    split at hstands
    · obtain ⟨key', hkey', heq⟩ := Option.map_eq_some_iff.mp hstands
      obtain ⟨hplace, rfl⟩ := Prod.mk.inj heq
      obtain ⟨id, hid⟩ := List.mem_iff_getElem?.mp hrecord
      obtain ⟨hown, hsome⟩ := h.literal.synonyms.target id record key' hid hkey'
      obtain ⟨e, he⟩ := Option.isSome_iff_exists.mp hsome
      obtain ⟨-, -, hd, hneeds⟩ := h.of_graft? hgrounded he
      rw [← hown, hplace] at hd hneeds
      obtain ⟨binding, hbinding⟩ := Option.isSome_iff_exists.mp
        (hsound.imported stmt hstmt name hname)
      rw [(hhome.absent name binding hneeds hbinding).1] at hd
      exact absurd hd (by simp)
    · exact absurd hstands (by simp)

end AtHome

/-- **What is found for a script that is at home is quiet.** -/
theorem exists_search_quiet (hopened : Opened world s o) (hentry : s.entry = some o.path)
    (hhome : o.AtHome world requests) :
    ∃ found, s.search world o requests false = (found, .ok ()) ∧ found.Quiet o := by
  obtain ⟨found, hfound, hat⟩ := exists_search_of_atHome hopened hentry hhome
  refine ⟨found, hfound, ?_⟩
  have hunsearched := hopened.unsearched
  obtain ⟨hsearching, hchanges⟩ := searching_of_search hopened hfound
  obtain ⟨last, hsteps, -, rfl⟩ := exists_steps_of_search hfound
  have hgrounded := hsearching.grounded
  have hlinked := (hunsearched.linked requests false).changes hchanges
  have hnamed : last.harvest.WellNamed o :=
    ((hunsearched.apart requests false).changes hchanges).wellNamed (title_of_steps hopened hsteps)
  have hwritten := hat.written_eq hhome hopened.sound hgrounded hlinked
    (tidy_of_steps hopened hsteps) hnamed (filledOnce_of_search hopened hfound).filled
  refine ⟨hat.entry, hat.file, fun entry hmem => ?_, hwritten none, ?_, fun ref key htarget => ?_,
    fun stmt hstmt name hname => hat.knownNames_eq hhome hopened.sound hgrounded hstmt hname⟩
  · have hkeys : last.harvest.grafts.keys.Nodup := by
      have honce := hnamed.once
      rw [names, Table.keys, List.map_map] at honce
      exact honce
    have he := Table.get?_of_mem hkeys hmem
    obtain ⟨hkey, hpath, hd, hneeds⟩ := hat.of_graft? hgrounded he
    refine ⟨hat.isEntryFile_eq ((congrArg Key.file hkey).trans hpath),
      hhome.plain _ _ hneeds hd, ?_⟩
    · have hnone := hwritten (some entry.1)
      rw [written, show last.harvest.graft? entry.1 = some entry.2 from he] at hnone
      exact hnone
  · exact hat.inherits_eq hhome hgrounded hlinked (clauses_of_search hopened hfound)
      (inheritsMembers_of_changes hopened hchanges)
  · obtain ⟨r, hr, htarget⟩ := Option.bind_eq_some_iff.mp htarget
    obtain ⟨-, e, he⟩ := hat.of_target hr htarget
    exact hat.isEntryFile_eq (hat.of_graft? hgrounded he).2.1

/-- **For a script that is at home, nothing is spliced.** -/
theorem exists_searchAndSplice_of_atHome (hopened : Opened world s o)
    (hentry : s.entry = some o.path) (hhome : o.AtHome world requests) (clean : Cleaning) :
    ∃ s' orders, s.searchAndSplice world o requests false clean =
      (s', .ok (orders, ⟨"", [], []⟩)) := by
  obtain ⟨found, hfound, hquiet⟩ := exists_search_quiet hopened hentry hhome
  obtain ⟨s', hsplice⟩ : ∃ s', found.orders.1.splice found.orders.2 clean =
      .ok (s', ⟨"", [], []⟩) := hquiet.orders_fst.exists_splice
  refine ⟨s', found.orders.2, ?_⟩
  rw [searchAndSplice, hfound]
  dsimp only
  rw [hsplice]

end Harvest

end TypeGraft
