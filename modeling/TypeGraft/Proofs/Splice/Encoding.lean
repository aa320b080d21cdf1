import TypeGraft.Proofs.Splice.Apart

/-!
# What is written of encoded files

Splicing fails at most at a text that is not encoded
(`TypeGraft.Harvest.Session.splice_eq_error_iff`). The names and texts that are written into slots
are encoded anyhow, and slots start and end where their file can be cut. The members of bases are
cut out of bodies at braces and blanks, which are characters of one byte each. So if the files that
were read are encoded, all that is written of them is, and splicing does not fail
(`TypeGraft.Harvest.Sited.encoded_of_prints`).
-/

namespace TypeGraft

/-! ### Cutting out -/

namespace Span.Cuts

variable {source : Bytes} {a : Span} (h : a.Cuts source)
include h

theorem slice_eq : a.slice source = (source.take a.stop.toNat).drop a.start.toNat := by
  have hstart : 0 ≤ a.start := h.inside.1
  have hrange : a.start ≤ a.stop := h.inside.2.1
  have hstop : a.stop ≤ source.length := h.inside.2.2
  have hclamp : clamp source.length a.start = a.start.toNat := by
    rw [clamp, if_neg (by omega), Nat.min_eq_left (by omega)]
  rw [slice, take_clamp (by omega), hclamp]

/-- What stands at a span of an encoded text is encoded. -/
theorem encoded_slice (henc : source.Encoded) : Bytes.Encoded (a.slice source) := by
  obtain ⟨hstart, hstop⟩ := h.encoded henc
  have hrange : a.start ≤ a.stop := h.inside.2.1
  rw [h.slice_eq]
  refine Bytes.Encoded.between (by omega) ?_ ?_
  · simpa [Slots.CutAt, whole] using hstart
  · simpa [Slots.CutAt, whole] using hstop

/-- Where a text can be cut, what stands at a span of it can be cut. -/
theorem cutAt_slice (henc : source.Encoded) {p : Int} (hp : Slots.CutAt source (.whole source) p)
    (hstart : a.start ≤ p) (hstop : p ≤ a.stop) : Slots.CutAt (a.slice source) a p := by
  have hcut : Bytes.Encoded (source.take p.toNat) := by simpa [Slots.CutAt, whole] using hp
  have hfirst : Bytes.Encoded (source.take a.start.toNat) := by
    simpa [Slots.CutAt, whole] using (h.encoded henc).1
  have hnonneg : 0 ≤ a.start := h.inside.1
  have hsame : (source.take a.stop.toNat).take p.toNat = source.take p.toNat := by
    rw [List.take_take, Nat.min_eq_left (by omega)]
  rw [Slots.CutAt, h.slice_eq, List.take_drop,
    show a.start.toNat + (p - a.start).toNat = p.toNat by omega, hsame]
  exact Bytes.Encoded.between (by omega) hfirst hcut

end Span.Cuts

/-! ### Members -/

theorem Bytes.Encoded.trim {bytes : Bytes} (h : bytes.Encoded) : bytes.trim.Encoded := by
  have hblank : ∀ b, isBlank b = true → b.toNat < 0x80 := by
    intro b hb
    simp only [isBlank, Bool.or_eq_true, beq_iff_eq, Bool.and_eq_true, decide_eq_true_eq] at hb
    rcases hb with rfl | ⟨-, hb⟩
    · decide
    · have hle : b.toNat ≤ 13 := UInt8.le_iff_toNat_le.mp hb
      omega
  exact (h.dropWhile hblank).dropEndWhile hblank

/-- **The members of an encoded body** are encoded. -/
theorem encoded_memberText {block : Bytes} (h : block.Encoded) : (memberText block).Encoded := by
  have hspace : ∀ b : UInt8, (b == 32 || b == 9) = true → b.toNat < 0x80 := by
    intro b hb
    rcases Bool.or_eq_true_iff.mp hb with hb | hb <;> rw [beq_iff_eq.mp hb] <;> decide
  have hsemicolon : Bytes.Encoded [0x3b] := ⟨";", by decide⟩
  unfold memberText
  extract_lets trimmed opening closing inner isSpace content ended
  have hinner : inner.Encoded := by
    dsimp only [inner]
    split
    · exact (h.behind (by decide)).before (by decide)
    · exact h.trim
  split
  · exact hinner
  · exact (hinner.dropEndWhile hspace).append hsemicolon

theorem Harvest.encoded_insertMembers {members body : Bytes} (hmembers : members.Encoded)
    (hbody : body.Encoded) : (insertMembers members body).Encoded := by
  unfold insertMembers
  dsimp only
  split
  · next hbrace =>
    have hsplit := Bytes.takeWhile_append_cons hbrace
    have hparted := hbody
    rw [← hsplit] at hparted
    obtain ⟨hbefore, hbehind⟩ := hparted.parted (by decide)
    have hopening : Bytes.Encoded [0x7b] := ⟨"\x7b", by decide⟩
    exact ((hbefore.append hopening).append hmembers).append hbehind
  · exact hmembers.append hbody

namespace Harvest

variable {world : World} {s s' : Harvest} {o : Outline} {requests : List RootRequest}
  {external : Bool} {key : Key} {e : Graft} {bodies own : Table Key Bytes} {keys : List Key}
  {orders : Orders} {clean : Cleaning}

/-- **All files that were read** are encoded. -/
def Encoded (s : Harvest) : Prop := ∀ path o, s.files.get? path = some o → o.source.Encoded

/-- All bodies are encoded. -/
def EncodedBodies (bodies : Table Key Bytes) : Prop :=
  ∀ key body, bodies.get? key = some body → body.Encoded

theorem EncodedBodies.getD (h : EncodedBodies bodies) (key : Key) :
    ((bodies.get? key).getD []).Encoded := by
  cases hbody : bodies.get? key with
  | none => exact Bytes.encoded_nil
  | some body => exact h key body hbody

/-- **Merging encoded bodies.** -/
theorem EncodedBodies.absorbParents (h : EncodedBodies own) (s : Harvest) (orders : Orders) :
    EncodedBodies (s.absorbParents orders own).2 := by
  intro key body hbody
  have hget : (s.absorbParents orders own).2.get? key = (own.get? key).map fun body =>
      if key ∈ orders.absorbOrder then s.inheritedBody own key else body :=
    Table.get?_mapEntry
      (fun entry => if entry.1 ∈ orders.absorbOrder then s.inheritedBody own entry.1 else entry.2)
      own key
  rw [hget] at hbody
  obtain ⟨unmerged, hunmerged, rfl⟩ := Option.map_eq_some_iff.mp hbody
  split
  · unfold inheritedBody
    split
    · exact h.getD key
    · refine encoded_insertMembers ?_ (h.getD key)
      generalize s.ancestors key = bases
      induction bases with
      | nil => exact Bytes.encoded_nil
      | cons base bases ih => exact (encoded_memberText (h.getD base)).append ih
  · exact h key _ hunmerged

/-! ### What is written -/

namespace Sited

variable (h : s.Sited o requests) (hs : s.Encoded)
include h hs

/-- What a declaration lies in, in a file that is encoded. -/
theorem exists_encoded (he : s.graft? key = some e) :
    ∃ o', s.files.get? key.file = some o' ∧ e.declaration.Laid o'.source ∧ o'.source.Encoded := by
  obtain ⟨o', ho', hlaid, -⟩ := h.exists_outline he
  exact ⟨o', ho', hlaid, hs _ _ ho'⟩

/-- **The body of a declaration** with its slots filled. -/
theorem encoded_body (he : s.graft? key = some e) {body : Bytes} (hbody : filledBody e = .ok body) :
    body.Encoded := by
  obtain ⟨o', body', hbody', hreads⟩ := h.exists_reads he
  obtain rfl : body = body' := Except.ok.inj (hbody.symm.trans hbody')
  obtain ⟨o₁, ho₁, hlaid, henc⟩ := h.exists_encoded hs he
  obtain rfl : o₁ = o' := Option.some.inj (ho₁.symm.trans hreads.file)
  have hcontent : e.declaration.content.Encoded := by
    rcases hlaid.content with hcopied | hinvented
    · rw [hcopied]
      exact hlaid.copied.encoded_slice henc
    · exact hlaid.invented hinvented
  have hplaced : ∀ r ∈ s.bodyReferences key e.declaration, r.place.Cuts o₁.source := by
    intro r hr
    obtain ⟨m, hm, hspan, -⟩ := h.exists_mention he ho₁ hr
    rw [Reference.place, hspan, Option.getD_some]
    refine (hlaid.names m ?_).1
    rw [Declaration.mentions_eq]
    exact List.mem_append_right _ hm
  have hslots : Slots.Laid e.declaration.body
      ((s.bodyReferences key e.declaration).map fun r => (r.place, s.reading o₁ r)) := by
    rw [Slots.Laid, List.map_map]
    exact hreads.laid
  rw [hreads.eq]
  refine Slots.encoded_fill hslots hcontent (fun slot hslot => ?_) (fun slot hslot => ?_) le_rfl ?_
    fun slot hslot => (hslots.inside _ (List.mem_map_of_mem hslot)).1
  · obtain ⟨r, hr, rfl⟩ := List.mem_map.mp hslot
    have hcopied := hreads.content.resolve_right (List.ne_nil_of_mem hr)
    obtain ⟨hstart, hrange, hstop⟩ := hreads.laid.inside _ (List.mem_map_of_mem hr)
    obtain ⟨hcutStart, hcutStop⟩ := (hplaced r hr).encoded henc
    rw [hcopied]
    exact ⟨hlaid.copied.cutAt_slice henc hcutStart hstart (hrange.trans hstop),
      hlaid.copied.cutAt_slice henc hcutStop (hstart.trans hrange) hstop⟩
  · obtain ⟨r, hr, rfl⟩ := List.mem_map.mp hslot
    dsimp only [reading]
    split
    · exact (hplaced r hr).encoded_slice henc
    · exact Bytes.encoded_ofString _
  · rw [Slots.CutAt, Int.sub_self]
    exact Bytes.encoded_nil

/-- **What the head of a declaration extends**, with its slots filled. -/
theorem encoded_heritage (he : s.graft? key = some e) {base : Heritage}
    (hbase : base ∈ e.declaration.bases) {bytes : Bytes}
    (hbytes : Replacement.applyAll (Bytes.ofString base.text) base.span
      (e.replacements.filter fun x => base.span.contains x.span) = .ok bytes) : bytes.Encoded := by
  obtain ⟨o', ho', hlaid, henc⟩ := h.exists_encoded hs he
  obtain ⟨hapart, o₁, ho₁, hplaces⟩ := h.replacements he
  obtain rfl : o₁ = o' := Option.some.inj (ho₁.symm.trans ho')
  obtain ⟨hcuts, hworded⟩ := hlaid.worded base hbase
  have htext : Bytes.ofString base.text = base.span.slice o₁.source := by
    obtain ⟨text, htext⟩ := hcuts.encoded_slice henc
    rw [hworded, ← htext, Bytes.toStringLossy_ofString]
  have hinside : ∀ x ∈ e.replacements.filter fun x => base.span.contains x.span,
      x.span.In base.span ∧ x.span.Cuts o₁.source := by
    intro x hx
    obtain ⟨hx, hcontains⟩ := List.mem_filter.mp hx
    rw [Span.contains, Bool.and_eq_true, decide_eq_true_eq, decide_eq_true_eq] at hcontains
    exact ⟨⟨hcontains.1, (hplaces x hx).1.inside.2.1, hcontains.2⟩, (hplaces x hx).1⟩
  have hin := fun x hx => (hinside x hx).1
  have hlength : base.span.stop - base.span.start ≤ (Bytes.ofString base.text).length := by
    rw [htext, Span.length_slice hcuts.inside.1 hcuts.inside.2.1 hcuts.inside.2.2]
  have hlaidIn := Replacement.laid_inOrder hin (hapart.filter _)
  rw [Replacement.applyAll_eq hin (hapart.filter _) hlength] at hbytes
  rw [← Except.ok.inj hbytes]
  have hslots : ∀ slot ∈ (Replacement.inOrder
      (e.replacements.filter fun x => base.span.contains x.span)).map Replacement.slot,
      slot.1.In base.span ∧ slot.1.Cuts o₁.source ∧ slot.2.Encoded := by
    intro slot hslot
    obtain ⟨x, hx, rfl⟩ := List.mem_map.mp hslot
    obtain ⟨hin, hcuts⟩ := hinside x ((List.mergeSort_perm _ _).mem_iff.mp hx)
    exact ⟨hin, hcuts, Bytes.encoded_ofString x.text⟩
  refine Slots.encoded_fill hlaidIn (Bytes.encoded_ofString _) (fun slot hslot => ?_)
    (fun slot hslot => (hslots slot hslot).2.2) le_rfl ?_ fun slot hslot => (hslots slot hslot).1.1
  · obtain ⟨⟨hstart, hrange, hstop⟩, hslot, -⟩ := hslots slot hslot
    obtain ⟨hcutStart, hcutStop⟩ := hslot.encoded henc
    rw [htext]
    exact ⟨hcuts.cutAt_slice henc hcutStart hstart (hrange.trans hstop),
      hcuts.cutAt_slice henc hcutStop (hstart.trans hrange) hstop⟩
  · rw [Slots.CutAt, Int.sub_self]
    exact Bytes.encoded_nil

/-- All bodies of encoded files. -/
theorem encoded_filledBodies (hown : s.filledBodies = .ok own) : EncodedBodies own := by
  intro key body hbody
  obtain ⟨entry, hmem, hentry⟩ := (mem_iff_of_mapM hown).mp (Table.mem_of_get? hbody)
  obtain ⟨key', e⟩ := entry
  dsimp only at hentry
  cases hfilled : filledBody e with
  | error failure =>
    rw [hfilled] at hentry
    exact absurd hentry (by simp [Except.map])
  | ok body' =>
    rw [hfilled] at hentry
    obtain ⟨rfl, rfl⟩ := Prod.mk.inj (Except.ok.inj hentry)
    exact h.encoded_body hs (Table.get?_of_mem h.once hmem) hfilled

/-- **All that is printed of encoded files** is encoded. -/
theorem encoded_of_prints (hbodies : EncodedBodies bodies) {bytes : Bytes}
    (hprints : s.Prints bodies keys bytes) : bytes.Encoded := by
  cases hprints with
  | body => exact hbodies.getD _
  | base listed taken extended kept filled =>
    exact h.encoded_heritage hs taken (List.of_mem_zip extended).1 filled

end Sited

/-- **All that is printed of what a search has found** is encoded, if the files that it read are. -/
theorem Session.encoded_of_printed {found : Harvest} {bytes : Bytes}
    (hsession : Session world s o requests external)
    (h : s.search world o requests external = (found, .ok ())) (hfound : found.Encoded)
    (hprinted : found.Printed bytes) : bytes.Encoded := by
  have hordered := (sited_of_search hsession h).ordered
  obtain ⟨own, hown, hprints⟩ := hprinted
  obtain ⟨grafts, hmerged, -⟩ :=
    found.orders.1.exists_inheritDependencies found.orders.2.absorbOrder
  have hfiles : (found.orders.1.absorbParents found.orders.2 own).1.files = found.files := by
    have hsame := congrArg files hmerged
    exact hsame
  have hbodies :=
    (hordered.encoded_filledBodies hfound hown).absorbParents found.orders.1 found.orders.2
  refine (hordered.absorbParents found.orders.2 own).encoded_of_prints
    (fun path o' ho' => ?_) hbodies hprints
  rw [hfiles] at ho'
  exact hfound path o' ho'

/-! ### What was read -/

/-- The outline of each file that a search has read is that of what the world holds there. -/
theorem read_of_search (hopened : Opened world s o)
    (h : s.search world o requests external = (s', .ok ())) {path : String} {o' : Outline}
    (ho' : s'.files.get? path = some o') :
    path = o.path ∧ o' = o ∨ world.read path = .ok o'.source := by
  refine (files_of_search hopened h ho').imp_right fun ⟨source, events, hread, houtline⟩ => ?_
  obtain ⟨tree, -, hscan⟩ := exists_tree_of_outline houtline
  rw [(Outline.sound_ofTree hscan).1]
  exact hread

end Harvest

end TypeGraft
