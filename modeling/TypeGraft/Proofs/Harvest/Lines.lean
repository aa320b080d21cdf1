import TypeGraft.Proofs.Harvest.Visits

/-!
# Lines in what was found

A search tells lines in two ways. A reference has the line of its mention, and a name that was
looked for in a file has the line on which it can be seen there (`TypeGraft.Harvest.shownLine`). All
that the log says of a file while names are looked for comes from one of these, so if these are
right, what the log says is right (`TypeGraft.Harvest.Tells.looks`).

What it is for a line to be right is left open here: `told` says which lines may be told for a name
in one file, and `twice` which two lines for a name that the file declares twice. What stands in the
file is told under its own name, unless other files can ask for it: `led` says whether anything
leads them there.
-/

namespace TypeGraft

variable {file : String} {led : Prop} {told : String → Nat → Prop}
    {twice : String → Nat → Nat → Prop}

/-- **What an event says of the lines of a file** may be told. -/
def Event.Tells (file : String) (told : String → Nat → Prop) (twice : String → Nat → Nat → Prop) :
    Event → Prop
  | .redeclared path line name first => path = file → twice name first line
  | .redundantAlias path line name first firstLine =>
    path = file → told name line ∧ told first firstLine
  | .notFound path line name | .leftUnresolved path line name => path = file → told name line
  | _ => True

/-- All lines that may be told for the names that are seen in a file. -/
structure Outline.Tells (led : Prop) (told : String → Nat → Prop) (o : Outline) : Prop where
  shown : led → ∀ name (r : Reference), r.file ≠ o.path → told name (Harvest.shownLine o name r)
  mentions : ∀ name d, o.declarations.get? name = some d → ∀ m ∈ d.freeMentions o.source, ∀ name',
    m.name = name' ∨ led → told name' (Outline.lineAt o.source m.span.start)

/-! ### Names -/

namespace Synonyms

variable {a : Synonyms}

/-- **The lines of the names in a file** may be told. What represents a name is a name of the same
file, since a warning tells its line as well. -/
structure Tells (file : String) (told : String → Nat → Prop) (a : Synonyms) : Prop where
  record : ∀ id x, a.get? id = some x → x.place.file = file → told x.place.name x.line
  representative : ∀ slot id, a.representatives.get? slot = some id →
    ∃ x, a.get? id = some x ∧ x.place.file = slot.1

theorem tells_empty : Tells file told .empty :=
  ⟨fun _ _ h => absurd h (by simp [get?, empty]), fun _ _ h => absurd h (by simp [empty])⟩

namespace Tells

theorem modify (h : a.Tells file told) (id : SynonymId) {change : Synonym → Synonym}
    (hchange : ∀ x, (change x).place = x.place ∧ (change x).line = x.line) :
    (a.modify id change).Tells file told := by
  constructor
  · intro i x hx
    rw [get?_modify] at hx
    split at hx
    · obtain ⟨x₀, hx₀, rfl⟩ := Option.map_eq_some_iff.mp hx
      rw [(hchange x₀).1, (hchange x₀).2]
      exact h.record i x₀ hx₀
    · exact h.record i x hx
  · intro slot i hslot
    obtain ⟨x, hx, hfile⟩ := h.representative slot i hslot
    rw [get?_modify]
    split
    · exact ⟨change x, by rw [hx]; rfl, by rw [(hchange x).1, hfile]⟩
    · exact ⟨x, hx, hfile⟩

theorem follow (h : a.Tells file told) (ref : RefId) (id : SynonymId) :
    (a.follow ref id).Tells file told := by
  constructor
  · intro i x hx
    rw [get?_follow] at hx
    exact h.record i x hx
  · intro slot i hslot
    rw [representatives_follow] at hslot
    rw [get?_follow]
    exact h.representative slot i hslot

/-- **A name that is looked for** has the line that it is looked for with. -/
theorem wait (h : a.Tells file told) (ref : RefId) (place : Waypoint) {line : Nat}
    (hline : place.file = file → told place.name line) :
    (a.wait false ref place line).1.Tells file told := by
  have hrecorded : (a.recordAt place line).1.Tells file told := by
    rcases recordAt_cases a place line with ⟨id, r, heq, -, -⟩ | heq
    · rw [heq]
      exact h
    · rw [heq]
      refine ⟨fun i x hx => ?_, fun slot i hslot => ?_⟩
      · rw [get?_add] at hx
        split at hx
        · rw [← Option.some.inj hx]
          exact hline
        · exact h.record i x hx
      · obtain ⟨x, hx, hfile⟩ := h.representative slot i hslot
        exact ⟨x, get?_add_of_get? hx place line, hfile⟩
  refine Tells.follow (Tells.modify hrecorded _ fun _ => ?_) _ _
  exact ⟨rfl, rfl⟩

theorem settle (h : a.Tells file told) (ref : RefId) (key : Key) :
    (a.settle ref key).Tells file told := by
  rw [settle_eq]
  refine List.foldlRecOn (motive := fun b : Synonyms => b.Tells file told) _ _ h fun b hb id _ => ?_
  exact hb.modify id fun x => by split <;> exact ⟨rfl, rfl⟩

/-- What represents a name is a name of its file, found before or this one. -/
theorem represent (h : a.Tells file told) {id : SynonymId} {x : Synonym} (hx : a.get? id = some x)
    (key : Key) : (a.representative id x.place key).1.Tells file told ∧
      ∃ first, (a.representative id x.place key).1.get? (a.representative id x.place key).2 =
        some first ∧ first.place.file = x.place.file := by
  unfold Synonyms.representative
  dsimp only
  split
  · next other hother => exact ⟨h, h.representative _ other hother⟩
  · refine ⟨⟨h.record, fun slot i hslot => ?_⟩, x, hx, rfl⟩
    rw [Table.get?_put] at hslot
    split at hslot
    · next heq =>
      rw [← Option.some.inj hslot, ← heq]
      exact ⟨x, hx, rfl⟩
    · exact h.representative slot i hslot

/-- **A name that is absorbed** is told with its line, and so is the one that represents it. -/
theorem absorb (h : a.Tells file told) {id into : SynonymId} {record first : Synonym}
    (hrecord : record.place.file = file → told record.place.name record.line)
    (hfirst : record.place.file = file → told first.place.name first.line) :
    (a.absorb id record into first).1.Tells file told ∧
      ∀ e ∈ (a.absorb id record into first).2, e.Tells file told twice := by
  refine ⟨Tells.modify (Tells.modify h id ?_) into ?_, fun e he => ?_⟩
  · exact fun _ => ⟨rfl, rfl⟩
  · exact fun _ => ⟨rfl, rfl⟩
  · unfold Synonyms.absorb at he
    dsimp only at he
    split at he
    · exact absurd he List.not_mem_nil
    · rw [List.mem_singleton.mp he]
      exact fun hfile => ⟨hrecord hfile, hfirst hfile⟩

/-- **A name that stands for a declaration** is told with its line, and so is the one that
represents it. -/
theorem identify (h : a.Tells file told) (isResolved : RefId → Bool) (id : SynonymId) (key : Key) :
    (a.identify isResolved id key).1.Tells file told ∧
      ∀ e ∈ (a.identify isResolved id key).2.2, e.Tells file told twice := by
  have hsilent : ∀ e ∈ ([] : List Event), e.Tells file told twice :=
    fun _ h => absurd h List.not_mem_nil
  generalize hfound : a.identify isResolved id key = found
  cases identifying hfound with
  | unknown => exact ⟨h, hsilent⟩
  | @known record a₂ a₃ into _ hid hrep habsorbs =>
    let targeted (r : Synonym) : Synonym := { r with target := some key }
    have htargeted : (a.modify id targeted).Tells file told := h.modify id fun _ => ⟨rfl, rfl⟩
    have hget : (a.modify id targeted).get? id = some (targeted record) := by
      rw [get?_modify, if_pos rfl, hid]
      rfl
    have hrepresent := htargeted.represent hget key
    rw [show (a.modify id targeted).representative id (targeted record).place key = (a₂, into)
      from hrep] at hrepresent
    obtain ⟨htells, first, hfirst, hfile⟩ := hrepresent
    cases habsorbs with
    | taken hfirst' =>
      obtain rfl := Option.some.inj (hfirst'.symm.trans hfirst)
      obtain ⟨hlast, hevents⟩ := htells.absorb (h.record id record hid) fun hrecord =>
        htells.record _ _ hfirst (hfile.trans hrecord)
      exact ⟨hlast.modify _ fun _ => ⟨rfl, rfl⟩, hevents⟩
    | kept => exact ⟨htells.modify _ fun _ => ⟨rfl, rfl⟩, hsilent⟩

end Tells

end Synonyms

/-! ### Looking for a name -/

namespace Harvest

variable {s s' : Harvest} {o : Outline} {q : Query} {found : Found} {key : Key}

/-- **The lines that a harvest tells** of a file may be told. -/
structure Tells (file : String) (led : Prop) (told : String → Nat → Prop)
    (twice : String → Nat → Nat → Prop) (s : Harvest) : Prop where
  mention : ∀ r ∈ s.mentions, r.file = file → ∀ name, r.name = name ∨ led → told name r.line
  synonyms : s.synonyms.Tells file told
  event : ∀ e ∈ s.events, e.Tells file told twice

theorem events_deliver (s : Harvest) (d : Declaration) (key : Key) (ref : RefId) :
    (s.deliver d key ref).events = s.events := by
  obtain ⟨_, _, _, _, _, _, heq⟩ := exists_deliver s d key ref
  rw [heq]

namespace Tells

/-- A mention that is looked for has a line that may be told. -/
theorem reference (h : s.Tells file led told twice) {ref : RefId} {r : Reference}
    (hr : s.reference? ref = some r) (hfile : r.file = file) {name : String}
    (hname : r.name = name ∨ led) : told name r.line :=
  h.mention r.bare (List.mem_map_of_mem (List.mem_of_getElem? hr)) hfile name hname

/-- **Resolving references** tells lines of names only. -/
theorem fulfil (h : s.Tells file led told twice) (id : SynonymId) (key : Key) :
    (s.fulfil id key).Tells file led told twice := by
  have hkept : (s.fulfil id key).synonyms.Tells file told ∧
      ∀ e ∈ (s.fulfil id key).events, e.Tells file told twice := by
    refine fulfil_rec (motive := fun s => s.synonyms.Tells file told ∧
      ∀ e ∈ s.events, e.Tells file told twice) (fun s id hs => ?_) (fun s d ref hs => ?_)
      ⟨h.synonyms, h.event⟩
    · obtain ⟨htold, hwarned⟩ := hs.1.identify s.isResolved id key
      exact ⟨htold, fun e he => (List.mem_append.mp he).elim (hs.2 e) (hwarned e)⟩
    · rw [synonyms_deliver, events_deliver]
      exact hs
  refine ⟨?_, hkept.1, hkept.2⟩
  rw [(sameRecords_fulfil s id key).mentions]
  exact h.mention

theorem arrive (h : s.Tells file led told twice) (ho : o.path = file → o.Tells led told)
    {r : Reference}
    (hr : s.Fresh o q r) (hplace : o.path = file → r.file = file ∧ r.name = q.name ∨ led) :
    (s.arrive o q r).Tells file led told twice := by
  refine ⟨?_, h.synonyms.wait q.ref (q.placeIn o) fun hfile => ?_, h.event⟩
  · rw [mentions_arrive]
    exact h.mention
  · -- a name is shown where the mention stands, if that is in the file
    by_cases hown : r.file = o.path
    · rw [shownLine, if_pos hown]
      exact h.reference hr.reference (hown.trans hfile) ((hplace hfile).imp_left And.right)
    · -- what stands elsewhere comes here only if it is led here
      refine (ho hfile).shown ((hplace hfile).resolve_left fun hown' => ?_) q.name r hown
      exact hown (hown'.1.trans hfile.symm)

theorem tookIn (h : s.Tells file led told twice) {d : Declaration} (request : Option String)
    (hg : s.graft? d.key = none) : (s.tookIn d request).Tells file led told twice := by
  obtain ⟨_, _, heq⟩ := exists_tookIn s d request hg
  rw [heq]
  exact ⟨h.mention, h.synonyms, h.event⟩

/-- **Looking for a name** tells lines that may be told, if a file that nothing leads to is asked
only for what stands there, under its own name. -/
theorem looks (h : s.Tells file led told twice) (hw : o.WellFormed)
    (ho : o.path = file → o.Tells led told)
    (hplace : ∀ r, s.Fresh o q r → o.path = file → r.file = file ∧ r.name = q.name ∨ led)
    (hlooks : Looks s o q s' found) : s'.Tells file led told twice := by
  cases hlooks with
  | passed => exact h
  | elsewhere hr ha => exact h.arrive ho hr (hplace _ hr)
  | starred hr ha => exact h.arrive ho hr (hplace _ hr)
  | @unknown r hr ha =>
    obtain ⟨hmention, hsynonyms, hevent⟩ := h.arrive ho hr (hplace _ hr)
    refine ⟨hmention, hsynonyms, fun e he => (List.mem_append.mp he).elim (hevent e) fun he => ?_⟩
    rw [List.mem_singleton.mp he]
    exact fun hfile => h.reference hr.reference hfile (Or.inl rfl)
  | @leftOut r d hr ha hl =>
    have harrive := h.arrive ho hr (hplace _ hr)
    refine ⟨?_, ?_, ?_⟩
    · change ∀ r' ∈ ((s.arrive o q r).leaveOut q.ref d.key).mentions, _
      rw [(sameRecords_leaveOut (s.arrive o q r) q.ref d.key).mentions]
      exact harrive.mention
    · refine Synonyms.Tells.settle ?_ _ _
      rw [(delivered_leaveOut (s.arrive o q r) d.key q.ref).synonyms]
      exact harrive.synonyms
    · obtain ⟨_, _, heq⟩ := exists_leaveOut (s.arrive o q r) q.ref d.key
      change ∀ e ∈ ((s.arrive o q r).leaveOut q.ref d.key).events, _
      rw [heq]
      exact harrive.event
  | again hr ha hl hg => exact (h.arrive ho hr (hplace _ hr)).fulfil _ _
  | @first r d hr ha hl hg =>
    have hfilled :=
      ((h.arrive ho hr (hplace _ hr)).tookIn (requestOf r) hg).fulfil (s.arrival o q r).2 d.key
    obtain ⟨parentRefs, hmeet⟩ :=
      exists_meet (s.arrive o q r) o d (s.arrival o q r).2 (requestOf r)
    rw [hmeet]
    refine ⟨fun m hm hfile name hname => ?_, hfilled.synonyms, hfilled.event⟩
    have hm :
        m ∈ (((s.arrive o q r).tookIn d (requestOf r)).fulfil (s.arrival o q r).2 d.key).mentions ++
        (mentioned o d).map (·.bare) := by
      rw [mentions, ← List.map_append]
      exact hm
    rcases List.mem_append.mp hm with hm | hm
    · exact hfilled.mention m hm hfile name hname
    · -- the declaration stands in the file that was looked into
      obtain ⟨m', hm', rfl⟩ := List.mem_map.mp hm
      obtain ⟨mention, hmention, rfl⟩ := List.mem_map.mp hm'
      obtain ⟨own, hown⟩ := Outline.exists_get?_of_answer ha
      have hkey : d.key = ⟨o.path, own⟩ := hw own d hown
      have hpath : o.path = file := (congrArg Key.file hkey).symm.trans hfile
      exact (ho hpath).mentions own d hown mention hmention name hname

end Tells

end Harvest

end TypeGraft
