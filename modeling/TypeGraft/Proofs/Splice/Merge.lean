import TypeGraft.Proofs.Digraph.Reach
import TypeGraft.Proofs.Harvest.Change
import TypeGraft.Splice

/-!
# What is merged into an interface

* `TypeGraft.Harvest.path_of_mem_ancestors`: all that is merged into an interface is extended by
  it, directly or not, and the interface is not merged into itself.
* `TypeGraft.Harvest.exists_splice`: splicing takes nothing back of what was found. The block is
  what is written for the harvest that it ends with.
-/

namespace TypeGraft.Harvest

variable {s s' : Harvest}

/-! ### Bases -/

theorem mem_parentsOf_iff {key base : Key} :
    base ∈ s.parentsOf key ↔ s.inherits.Edge key base := by
  rw [parentsOf, List.mem_mergeSort, Digraph.mem_successors_iff]

/-- **A walk lists what can be reached**, and was not met before. -/
theorem ancestorsFrom_sound (depth : Nat) (walk : AncestorWalk) (key : Key) :
    walk.met ⊆ (s.ancestorsFrom depth walk key).met ∧
    ∀ base ∈ (s.ancestorsFrom depth walk key).listed,
      base ∈ walk.listed ∨ (s.inherits.Path key base ∧ base ∉ walk.met) := by
  induction depth generalizing walk key with
  | zero => exact ⟨List.Subset.refl _, fun base hbase => Or.inl hbase⟩
  | succ depth ih =>
    let motive : AncestorWalk → Prop := fun walk' => walk.met ⊆ walk'.met ∧
      ∀ base ∈ walk'.listed, base ∈ walk.listed ∨ (s.inherits.Path key base ∧ base ∉ walk.met)
    rw [ancestorsFrom]
    refine List.foldlRecOn (s.parentsOf key) _ (motive := motive)
      ⟨List.Subset.refl _, fun base hbase => Or.inl hbase⟩ ?_
    -- what one more base adds can be reached from that base
    rintro walk' ⟨hmet, hlisted⟩ parent hparent
    have hedge : s.inherits.Edge key parent := mem_parentsOf_iff.mp hparent
    dsimp only
    split
    · exact ⟨hmet, hlisted⟩
    · next hfresh =>
      obtain ⟨hmet', hlisted'⟩ := ih { walk' with met := parent :: walk'.met } parent
      refine ⟨fun v hv => hmet' (List.mem_cons_of_mem _ (hmet hv)), ?_⟩
      intro base hbase
      rcases List.mem_append.mp hbase with hbase | hbase
      · rcases hlisted' base hbase with hbase | ⟨hpath, hnew⟩
        · exact hlisted base hbase
        · exact Or.inr ⟨hpath.head hedge,
            fun hold => hnew (List.mem_cons_of_mem _ (hmet hold))⟩
      · rw [List.mem_singleton.mp hbase]
        exact Or.inr ⟨Relation.ReflTransGen.single hedge, fun hold => hfresh (hmet hold)⟩

/-- **What is merged into an interface** is extended by it, directly or not. -/
theorem path_of_mem_ancestors {key base : Key} (h : base ∈ s.ancestors key) :
    s.inherits.Path key base ∧ base ≠ key := by
  rcases (ancestorsFrom_sound _ _ key).2 base h with hnil | ⟨hpath, hmet⟩
  · exact absurd hnil List.not_mem_nil
  · exact ⟨hpath, fun he => hmet (List.mem_singleton.mpr he)⟩

/-! ### Merging -/

/-- What is merged depends only on what extends what. -/
theorem ancestorsFrom_congr (hinherits : s'.inherits = s.inherits)
    (hparents : s'.parentOrder = s.parentOrder) (depth : Nat) :
    s'.ancestorsFrom depth = s.ancestorsFrom depth := by
  induction depth with
  | zero => rfl
  | succ depth ih =>
    funext walk key
    simp only [ancestorsFrom, parentsOf, hinherits, hparents, ih]

theorem ancestors_congr (hinherits : s'.inherits = s.inherits)
    (hparents : s'.parentOrder = s.parentOrder) : s'.ancestors = s.ancestors := by
  funext key
  rw [ancestors, ancestors, hinherits, ancestorsFrom_congr hinherits hparents]

theorem absorbParents_congr (s s' : Harvest) (orders : Orders) (own : Table Key Bytes)
    (hinherits : s'.inherits = s.inherits) (hparents : s'.parentOrder = s.parentOrder) :
    (s'.absorbParents orders own).2 = (s.absorbParents orders own).2 := by
  simp only [absorbParents, inheritedBody, ancestors_congr hinherits hparents]

/-- A change that keeps the slots of a declaration keeps the bodies. -/
theorem filledBodies_modifyGraft (s : Harvest) (key : Key) (change : Graft → Graft)
    (h : ∀ e, filledBody (change e) = filledBody e) :
    (s.modifyGraft key change).filledBodies = s.filledBodies := by
  let filled : Key × Graft → Except Failure (Key × Bytes) := fun g =>
    (filledBody g.2).map fun body => (g.1, body)
  -- the bodies are an observation of the entries, one by one
  have hmap : ∀ s : Harvest, s.filledBodies = (s.grafts.map filled).mapM id := by
    intro s
    rw [List.mapM_map]
    rfl
  rw [hmap, hmap]
  refine congrArg (List.mapM id) (Table.map_adjust filled change ?_ s.grafts key)
  intro key e
  simp only [filled, h]

/-- Letting an interface depend on what its bases depend on changes nothing else. -/
theorem exists_inheritDependencies (s : Harvest) (keys : List Key) :
    ∃ grafts, keys.foldl inheritDependencies s = { s with grafts } ∧
      (keys.foldl inheritDependencies s).names = s.names ∧
      (keys.foldl inheritDependencies s).filledBodies = s.filledBodies := by
  let motive : Harvest → Prop := fun s' => ∃ grafts, s' = { s with grafts } ∧
    s'.names = s.names ∧ s'.filledBodies = s.filledBodies
  have hmodify : ∀ s', motive s' → ∀ (key : Key) (change : Graft → Graft),
      (∀ e, (change e).declaration = e.declaration) → (∀ e, (change e).newName = e.newName) →
        (∀ e, filledBody (change e) = filledBody e) → motive (s'.modifyGraft key change) := by
    rintro _ ⟨grafts, rfl, hnames, hbodies⟩ key change hd hn hbody
    exact ⟨_, rfl, (names_modifyGraft _ key change hd hn).trans hnames,
      (filledBodies_modifyGraft _ key change hbody).trans hbodies⟩
  refine List.foldlRecOn keys inheritDependencies (motive := motive) ⟨s.grafts, rfl, rfl, rfl⟩ ?_
  intro s' hs' key _
  refine List.foldlRecOn (s'.ancestors key) _ (motive := motive) hs' ?_
  intro s₁ hs₁ base _
  exact hmodify s₁ hs₁ key _ (fun _ => rfl) (fun _ => rfl) fun _ => rfl

/-- **Splicing** takes nothing back of what was found: it lets interfaces depend on more, and
adds to the log. The block is what is written for the harvest that it ends with. -/
theorem exists_splice {orders : Orders} {clean : Cleaning} {splice : Splice}
    (h : s.splice orders clean = .ok (s', splice)) :
    (∃ grafts events, s' = { s with grafts, events }) ∧ s'.names = s.names ∧
      splice.emitted = (s'.blockKeys orders).map s'.newNameOf ∧
      ∃ own, s'.filledBodies = .ok own ∧
        s'.block (s'.absorbParents orders own).2 (s'.blockKeys orders) = .ok splice.block := by
  unfold Harvest.splice at h
  split at h
  · exact absurd h (by simp)
  · next own hown =>
    obtain ⟨grafts, heq, hnames, hbodies⟩ := s.exists_inheritDependencies orders.absorbOrder
    dsimp only at h
    split at h
    · exact absurd h (by simp)
    · next block hblock =>
      obtain ⟨hs, hsplice⟩ := Prod.mk.inj (Except.ok.inj h)
      have hmerged : (s.absorbParents orders own).1 = { s with grafts } := heq
      rw [hs, hmerged] at hsplice
      rw [hmerged] at hs hblock
      rw [heq] at hnames hbodies
      obtain ⟨events, rfl⟩ : ∃ events, s' = { s with grafts, events } := by
        rw [← hs]
        split
        · exact ⟨s.events, rfl⟩
        · exact ⟨_, rfl⟩
      subst hsplice
      refine ⟨⟨grafts, events, rfl⟩, hnames, rfl, own, hbodies.trans hown, ?_⟩
      rw [absorbParents_congr s { s with grafts, events } orders own rfl rfl]
      exact hblock

end TypeGraft.Harvest
