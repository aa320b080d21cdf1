import Mathlib.Data.Finset.Prod
import Mathlib.Data.Finset.Card
import Mathlib.Logic.Relation
import TypeGraft.Digraph.Order
import TypeGraft.Proofs.Table

/-!
# Walks in breadth over a graph without circles

`TypeGraft.Digraph.layered` lists what can be reached from some starts, each number after
those that it leads to. It puts a number into its queue once more whenever a longer path to it
is found, so this has to be shown to end, and the last mention of each number has to be the
right one.

**What was ever put in.** A walk is described by the list of all entries that were ever put
into its queue (`TypeGraft.Digraph.Layering.History`): the queue is the end of that list, the
depth of a number is the greatest that it was put in with, and the entries stand in the order
of their depths. The last is what a walk in breadth is for, and it makes the last mention of a
number that leads on stand before the last mention of what it leads to.

**The end.** Where there are no circles, a number has a rank that grows along every edge
(`TypeGraft.Digraph.exists_rank`), and no depth exceeds it. So only so many entries can be put
in, each once, and the walk ends by itself (`TypeGraft.Digraph.ends_layered`): the steps that
`TypeGraft.Digraph.layered` counts are never used up.
-/

namespace TypeGraft.Digraph

/-- What a step from one number to the next is. -/
def Leads (next : Nat → List Nat) (a b : Nat) : Prop := b ∈ next a

open Classical in
/-- **A finite relation without circles has a rank**, which grows with every step. -/
theorem exists_rank {r : Nat → Nat → Prop} (count : Nat) (h : ∀ a, ¬Relation.TransGen r a a) :
    ∃ rank : Nat → Nat, (∀ a, a < count → rank a < count) ∧
      ∀ a b, a < count → r a b → rank a < rank b := by
  let before (b : Nat) := (Finset.range count).filter fun a => Relation.TransGen r a b
  refine ⟨fun b => (before b).card, ?_, ?_⟩
  · intro a ha
    have hsub : before a ⊂ Finset.range count := by
      refine (Finset.filter_ssubset).mpr ⟨a, Finset.mem_range.mpr ha, h a⟩
    exact (Finset.card_lt_card hsub).trans_eq (Finset.card_range count)
  · intro a b ha hab
    refine Finset.card_lt_card ((Finset.ssubset_iff_of_subset ?_).mpr ⟨a, ?_, ?_⟩)
    · intro c hc
      obtain ⟨hc, hca⟩ := Finset.mem_filter.mp hc
      exact Finset.mem_filter.mpr ⟨hc, hca.tail hab⟩
    · exact Finset.mem_filter.mpr ⟨Finset.mem_range.mpr ha, Relation.TransGen.single hab⟩
    · exact fun hc => h a (Finset.mem_filter.mp hc).2

namespace Layering

/-! ### The history of a walk -/

/-- **The history of a walk**: all entries that were ever put into its queue, in order. -/
structure History (layers : Layering) (pushed : List (Nat × Nat)) : Prop where
  visits : layers.visits = pushed.map Prod.fst
  queue : layers.queue <:+ pushed
  sorted : pushed.Pairwise fun a b => a.2 ≤ b.2
  nodup : pushed.Nodup
  mem_of_depth : ∀ c d, layers.depth.get? c = some d → (c, d) ∈ pushed
  exists_depth : ∀ c d, (c, d) ∈ pushed → ∃ e, layers.depth.get? c = some e ∧ d ≤ e

namespace History

variable {layers : Layering} {pushed : List (Nat × Nat)}

theorem empty : History ⟨[], [], []⟩ [] :=
  ⟨rfl, List.suffix_refl _, List.Pairwise.nil, List.nodup_nil, by simp, by simp⟩

/-- No entry of a number is deeper than the number is. -/
theorem le_depth (h : History layers pushed) {c d e : Nat} (hc : layers.depth.get? c = some e)
    (hmem : (c, d) ∈ pushed) : d ≤ e := by
  obtain ⟨e', he', hle⟩ := h.exists_depth c d hmem
  rw [hc] at he'
  rw [Option.some.inj he']
  exact hle

/-- Putting a number in with a depth that is no less than any before, and greater than its
own. -/
theorem push (h : History layers pushed) {c d : Nat} (hlast : ∀ a ∈ pushed, a.2 ≤ d)
    (hnew : ∀ e, layers.depth.get? c = some e → e < d) :
    History ⟨layers.queue ++ [(c, d)], layers.depth.put c d, layers.visits ++ [c]⟩
      (pushed ++ [(c, d)]) where
  visits := by rw [h.visits, List.map_append]; rfl
  queue := by
    obtain ⟨front, hfront⟩ := h.queue
    exact ⟨front, by rw [← hfront, List.append_assoc]⟩
  sorted := List.pairwise_append.mpr ⟨h.sorted, List.pairwise_singleton _ _,
    fun a ha b hb => by rw [List.mem_singleton.mp hb]; exact hlast a ha⟩
  nodup := by
    refine List.nodup_append.mpr ⟨h.nodup, by simp, ?_⟩
    -- an entry that was put in before is less deep than the new one
    intro a ha b hb
    rintro rfl
    rw [List.mem_singleton.mp hb] at ha
    obtain ⟨e, he, hle⟩ := h.exists_depth c d ha
    have hlt := hnew e he
    omega
  mem_of_depth c' d' hd' := by
    rw [Table.get?_put] at hd'
    split at hd'
    · next hc =>
      rw [← hc, ← Option.some.inj hd']
      simp
    · exact List.mem_append_left _ (h.mem_of_depth c' d' hd')
  exists_depth c' d' hmem := by
    rw [Table.get?_put]
    rcases List.mem_append.mp hmem with hmem | hmem
    · obtain ⟨e, he, hle⟩ := h.exists_depth c' d' hmem
      split
      · next hc =>
        subst hc
        have hlt := hnew e he
        exact ⟨d, rfl, by omega⟩
      · exact ⟨e, he, hle⟩
    · obtain ⟨rfl, rfl⟩ := Prod.mk.inj (List.mem_singleton.mp hmem)
      exact ⟨d', if_pos rfl, Nat.le_refl d'⟩

/-- **Deepening a number** puts it in, or finds it as deep as that already. -/
theorem deepen (h : History layers pushed) {c d : Nat} (hlast : ∀ a ∈ pushed, a.2 ≤ d) :
    ∃ more, History (layers.deepen c d) (pushed ++ more) ∧
      (layers.deepen c d).queue = layers.queue ++ more ∧ (∀ a ∈ more, a = (c, d)) ∧
      ∃ e, (layers.deepen c d).depth.get? c = some e ∧ d ≤ e := by
  have hpush : (∀ e, layers.depth.get? c = some e → e < d) → ∃ more,
      History (deepen.enter layers c d) (pushed ++ more) ∧
        (deepen.enter layers c d).queue = layers.queue ++ more ∧ (∀ a ∈ more, a = (c, d)) ∧
        ∃ e, (deepen.enter layers c d).depth.get? c = some e ∧ d ≤ e := fun hnew =>
    ⟨[(c, d)], h.push hlast hnew, rfl, by simp, d, Table.get?_put_self _ _ _, Nat.le_refl d⟩
  rw [Layering.deepen]
  cases hc : layers.depth.get? c with
  | none => exact hpush (by simp [hc])
  | some found =>
    dsimp only
    split
    · next hlt =>
      refine hpush ?_
      intro e he
      rw [hc] at he
      rw [← Option.some.inj he]
      exact hlt
    · next hge => exact ⟨[], by simpa using h, by simp, by simp, found, hc, by omega⟩

/-- Deepening some numbers, all to one depth. -/
theorem deepenAll (h : History layers pushed) {d : Nat} (hlast : ∀ a ∈ pushed, a.2 ≤ d)
    (cs : List Nat) : ∃ more, History (cs.foldl (fun l c => l.deepen c d) layers) (pushed ++ more) ∧
      (cs.foldl (fun l c => l.deepen c d) layers).queue = layers.queue ++ more ∧
      (∀ a ∈ more, a.1 ∈ cs ∧ a.2 = d) ∧
      ∀ c ∈ cs, ∃ e, (cs.foldl (fun l c => l.deepen c d) layers).depth.get? c = some e ∧ d ≤ e := by
  induction cs generalizing layers pushed with
  | nil => exact ⟨[], by simpa using h, by simp, by simp, by simp⟩
  | cons c cs ih =>
    obtain ⟨more, hhist, hqueue, hmore, e, he, hde⟩ := h.deepen (c := c) hlast
    have hlast' : ∀ a ∈ pushed ++ more, a.2 ≤ d := fun a ha => by
      rcases List.mem_append.mp ha with ha | ha
      · exact hlast a ha
      · rw [hmore a ha]
    obtain ⟨more', hhist', hqueue', hmore', hdeep'⟩ := ih hhist hlast'
    rw [List.append_assoc] at hhist'
    refine ⟨more ++ more', hhist', by rw [List.foldl_cons, hqueue', hqueue, List.append_assoc],
      ?_, ?_⟩
    · intro a ha
      rcases List.mem_append.mp ha with ha | ha
      · rw [hmore a ha]
        exact ⟨List.mem_cons_self, rfl⟩
      · exact ⟨List.mem_cons_of_mem _ (hmore' a ha).1, (hmore' a ha).2⟩
    · -- later numbers make no number less deep
      intro x hx
      rcases List.mem_cons.mp hx with rfl | hx
      · have hmem : (x, e) ∈ pushed ++ (more ++ more') := by
          rw [← List.append_assoc]
          exact List.mem_append_left _ (hhist.mem_of_depth x e he)
        obtain ⟨e', he', hle⟩ := hhist'.exists_depth x e hmem
        exact ⟨e', he', Nat.le_trans hde hle⟩
      · exact hdeep' x hx

end History

/-! ### The walk -/

section Walk

variable {next : Nat → List Nat} {starts : List Nat} {count : Nat} {rank : Nat → Nat}

/-- What a walk does with the entry that it takes off its queue: the number makes deeper what
it leads to, unless it was made deeper itself since the entry was put in. -/
def visit (next : Nat → List Nat) (c d : Nat) (layers : Layering) : Layering :=
  if layers.depth.get? c = some d then (next c).foldl (fun l n => l.deepen n (d + 1)) layers
  else layers

theorem run_cons {steps c d : Nat} {queue : List (Nat × Nat)} {depth : Table Nat Nat}
    {visits : List Nat} :
    Layering.run next (steps + 1) ⟨(c, d) :: queue, depth, visits⟩ =
      Layering.run next steps (visit next c d ⟨queue, depth, visits⟩) := by
  rw [Layering.run, visit]
  dsimp only
  split <;> rfl

/-- **A walk that ends by itself**: the entry at the front of the queue is taken off and visited,
until there is none. -/
inductive Ends (next : Nat → List Nat) : Layering → Layering → Prop where
  /-- The queue is empty. -/
  | done {layers : Layering} (h : layers.queue = []) : Ends next layers layers
  /-- The entry at the front is visited. -/
  | visit {c d : Nat} {queue : List (Nat × Nat)} {depth : Table Nat Nat} {visits : List Nat}
      {last : Layering} (h : Ends next (visit next c d ⟨queue, depth, visits⟩) last) :
      Ends next ⟨(c, d) :: queue, depth, visits⟩ last

/-- A walk ends in one way only. -/
theorem Ends.unique {layers last last' : Layering} (h : Ends next layers last)
    (h' : Ends next layers last') : last = last' := by
  induction h with
  | done h =>
    cases h' with
    | done => rfl
    | visit => cases h
  | visit _ ih =>
    cases h' with
    | done h => cases h
    | visit h' => exact ih h'

/-- A walk that empties its queue within some steps ends by itself. -/
theorem ends_run {steps : Nat} {layers : Layering}
    (h : (Layering.run next steps layers).queue = []) :
    Ends next layers (Layering.run next steps layers) := by
  induction steps generalizing layers with
  | zero => exact Ends.done h
  | succ steps ih =>
    obtain ⟨queue, depth, visits⟩ := layers
    cases queue with
    | nil => exact Ends.done h
    | cons entry queue =>
      obtain ⟨c, d⟩ := entry
      rw [run_cons] at h ⊢
      exact Ends.visit (ih h)

/-- **What every step of a walk keeps**: an entry was put in for a path from a start, and a
number whose deepest entry is not in the queue any more has made deeper all that it leads
to. -/
structure Sound (next : Nat → List Nat) (starts : List Nat) (count : Nat) (rank : Nat → Nat)
    (layers : Layering) (pushed : List (Nat × Nat)) : Prop extends History layers pushed where
  near : ∀ a ∈ layers.queue, ∀ b ∈ pushed, b.2 ≤ a.2 + 1
  path : ∀ a ∈ pushed, ∃ s ∈ starts, Relation.ReflTransGen (Leads next) s a.1
  bound : ∀ a ∈ pushed, a.1 < count ∧ a.2 ≤ rank a.1
  settled : ∀ c d, layers.depth.get? c = some d → (c, d) ∉ layers.queue →
    ∀ n ∈ next c, ∃ e, layers.depth.get? n = some e ∧ d < e

namespace Sound

variable {layers : Layering} {pushed : List (Nat × Nat)}

/-- The walk as it begins. -/
theorem start (next : Nat → List Nat) (rank : Nat → Nat) (hstarts : ∀ s ∈ starts, s < count) :
    ∃ pushed, Sound next starts count rank (starts.foldl Layering.start ⟨[], [], []⟩) pushed ∧
      ∀ s ∈ starts, ∃ e, (starts.foldl Layering.start ⟨[], [], []⟩).depth.get? s = some e := by
  have hstart : ∀ (layers : Layering) (c : Nat), layers.start c = layers.deepen c 0 := by
    intro layers c
    rw [Layering.start]
    split
    · next hhas =>
      obtain ⟨d, hd⟩ := Table.has_iff.mp hhas
      simp [Layering.deepen, hd]
    · rfl
  have hfold : starts.foldl Layering.start ⟨[], [], []⟩ =
      starts.foldl (fun l c => l.deepen c 0) ⟨[], [], []⟩ :=
    List.foldl_ext _ _ _ fun l c _ => hstart l c
  -- the starts are put in as if something led to them with depth zero
  obtain ⟨more, hhist, hqueue, hmore, hdeep⟩ :=
    History.empty.deepenAll (d := 0) (by simp) starts
  rw [← hfold, List.nil_append] at *
  refine ⟨more, ⟨hhist, ?_, ?_, ?_, ?_⟩,
    fun s hs => (hdeep s hs).imp fun _ h => h.1⟩
  · intro a _ b hb
    rw [(hmore b hb).2]
    exact Nat.zero_le _
  · intro a ha
    exact ⟨a.1, (hmore a ha).1, Relation.ReflTransGen.refl⟩
  · intro a ha
    exact ⟨hstarts a.1 (hmore a ha).1, by rw [(hmore a ha).2]; exact Nat.zero_le _⟩
  · intro c d hd hq
    rw [hqueue] at hq
    exact absurd (hhist.mem_of_depth c d hd) hq

/-- **A step of a walk**: the entry at the front of the queue is taken off and visited. -/
theorem step (hnext : ∀ a b, a < count → Leads next a b → b < count ∧ rank a < rank b)
    {c d : Nat} {queue : List (Nat × Nat)} {depth : Table Nat Nat} {visits : List Nat}
    (h : Sound next starts count rank ⟨(c, d) :: queue, depth, visits⟩ pushed) :
    ∃ more, Sound next starts count rank (visit next c d ⟨queue, depth, visits⟩)
        (pushed ++ more) ∧
      (visit next c d ⟨queue, depth, visits⟩).queue = queue ++ more := by
  have hhist : History ⟨queue, depth, visits⟩ pushed :=
    ⟨h.visits, (List.suffix_cons _ _).trans h.queue, h.sorted, h.nodup, h.mem_of_depth,
      h.exists_depth⟩
  have hcd : (c, d) ∈ pushed := h.queue.subset List.mem_cons_self
  have hlast : ∀ a ∈ pushed, a.2 ≤ d + 1 := h.near (c, d) List.mem_cons_self
  have hqueue : ∀ a ∈ queue, d ≤ a.2 :=
    (List.pairwise_cons.mp (h.sorted.sublist h.queue.sublist)).1
  rw [visit]
  split
  · next hc =>
    obtain ⟨more, hhist', hq, hmore, hdeep⟩ := hhist.deepenAll hlast (next c)
    refine ⟨more, ⟨hhist', ?_, ?_, ?_, ?_⟩, hq⟩
    · -- what is put in is one deeper than what was taken off
      intro a ha b hb
      have hb' : b.2 ≤ d + 1 := by
        rcases List.mem_append.mp hb with hb | hb
        · exact hlast b hb
        · exact Nat.le_of_eq (hmore b hb).2
      rw [hq] at ha
      rcases List.mem_append.mp ha with ha | ha
      · have hd := hqueue a ha
        omega
      · rw [(hmore a ha).2]
        omega
    · -- a path to what was taken off goes on to what it leads to
      intro a ha
      rcases List.mem_append.mp ha with ha | ha
      · exact h.path a ha
      · obtain ⟨s, hs, hp⟩ := h.path _ hcd
        exact ⟨s, hs, hp.tail (hmore a ha).1⟩
    · intro a ha
      rcases List.mem_append.mp ha with ha | ha
      · exact h.bound a ha
      · have hbound : c < count ∧ d ≤ rank c := h.bound _ hcd
        have hstep := hnext c a.1 hbound.1 (hmore a ha).1
        have hdepth := (hmore a ha).2
        exact ⟨hstep.1, by omega⟩
    · intro c' d' hd' hq' n hn
      rw [hq] at hq'
      have hmem : (c', d') ∈ pushed :=
        (List.mem_append.mp (hhist'.mem_of_depth c' d' hd')).resolve_right fun hm =>
          hq' (List.mem_append_right _ hm)
      -- the depth of the number is what it was before this step
      obtain ⟨e, he, hde⟩ := hhist.exists_depth c' d' hmem
      have hed : e ≤ d' := hhist'.le_depth hd' (List.mem_append_left _ (hhist.mem_of_depth c' e he))
      obtain rfl : d' = e := Nat.le_antisymm hde hed
      by_cases hsame : (c', d') = (c, d)
      · obtain ⟨rfl, rfl⟩ := Prod.mk.inj hsame
        obtain ⟨e', he', hle⟩ := hdeep n hn
        exact ⟨e', he', hle⟩
      · obtain ⟨e', he', hlt⟩ := h.settled c' d' he (fun hm => by
          rcases List.mem_cons.mp hm with heq | hm
          · exact hsame heq
          · exact hq' (List.mem_append_left _ hm)) n hn
        obtain ⟨e'', he'', hle⟩ := hhist'.exists_depth n e'
          (List.mem_append_left _ (hhist.mem_of_depth n e' he'))
        exact ⟨e'', he'', by omega⟩
  · next hc =>
    -- the number was made deeper since it was put in, so there is nothing to do
    refine ⟨[], ⟨by simpa using hhist, ?_, ?_, ?_,
      ?_⟩, by simp⟩
    · intro a ha b hb
      exact h.near a (List.mem_cons_of_mem _ ha) b (by simpa using hb)
    · intro a ha
      exact h.path a (by simpa using ha)
    · intro a ha
      exact h.bound a (by simpa using ha)
    · intro c' d' hd' hq' n hn
      refine h.settled c' d' hd' ?_ n hn
      intro hm
      rcases List.mem_cons.mp hm with heq | hm
      · obtain ⟨rfl, rfl⟩ := Prod.mk.inj heq
        exact hc hd'
      · exact hq' hm

/-- Only so many entries can be put in, each once. -/
theorem length_le (hrank : ∀ a, a < count → rank a < count)
    (h : Sound next starts count rank layers pushed) : pushed.length ≤ count * count := by
  have hsub : pushed.toFinset ⊆ Finset.range count ×ˢ Finset.range count := by
    intro a ha
    have hbound := h.bound a (List.mem_toFinset.mp ha)
    have hlt := hrank a.1 hbound.1
    exact Finset.mem_product.mpr ⟨Finset.mem_range.mpr hbound.1, Finset.mem_range.mpr (by omega)⟩
  calc pushed.length = pushed.toFinset.card := (List.toFinset_card_of_nodup h.nodup).symm
    _ ≤ (Finset.range count ×ˢ Finset.range count).card := Finset.card_le_card hsub
    _ = count * count := by rw [Finset.card_product, Finset.card_range]

/-- **A walk with enough steps empties its queue.** -/
theorem run (hrank : ∀ a, a < count → rank a < count)
    (hnext : ∀ a b, a < count → Leads next a b → b < count ∧ rank a < rank b) (steps : Nat)
    (h : Sound next starts count rank layers pushed)
    (hsteps : count * count + layers.queue.length ≤ steps + pushed.length) :
    ∃ more, Sound next starts count rank (Layering.run next steps layers) (pushed ++ more) ∧
      (Layering.run next steps layers).queue = [] := by
  induction steps generalizing layers pushed with
  | zero =>
    -- all steps are used up, and so is all that can be put in
    have hle := h.length_le hrank
    have hnil : layers.queue = [] := List.eq_nil_of_length_eq_zero (by omega)
    exact ⟨[], by simpa [Layering.run] using h, by simpa [Layering.run] using hnil⟩
  | succ steps ih =>
    obtain ⟨queue, depth, visits⟩ := layers
    cases queue with
    | nil => exact ⟨[], by simpa [Layering.run] using h, rfl⟩
    | cons entry queue =>
      obtain ⟨c, d⟩ := entry
      obtain ⟨more, hsound, hqueue⟩ := h.step hnext
      have hlen := congrArg List.length hqueue
      rw [List.length_append] at hlen
      rw [List.length_cons] at hsteps
      obtain ⟨more', hsound', hnil⟩ := ih hsound (by rw [List.length_append]; omega)
      rw [run_cons]
      exact ⟨more ++ more', by rw [← List.append_assoc]; exact hsound', hnil⟩

end Sound

end Walk

end Layering

/-! ### The order that a walk comes to -/

section Layered

variable {next : Nat → List Nat} {starts : List Nat} {count : Nat}

/-- The state in which a walk ends, with its history. -/
theorem exists_history (hstarts : ∀ s ∈ starts, s < count)
    (hnext : ∀ a b, a < count → Leads next a b → b < count)
    (hacyclic : ∀ a, ¬Relation.TransGen (Leads next) a a) :
    ∃ (layers : Layering) (rank : Nat → Nat) (pushed : List (Nat × Nat)),
      Layering.Ends next (starts.foldl Layering.start ⟨[], [], []⟩) layers ∧
        layered next count starts = distinct layers.visits.reverse ∧
        Layering.Sound next starts count rank layers pushed ∧ layers.queue = [] ∧
        ∀ s ∈ starts, ∃ e, layers.depth.get? s = some e := by
  obtain ⟨rank, hrank, hup⟩ := exists_rank count hacyclic
  obtain ⟨pushed, hsound, hdeep⟩ := Layering.Sound.start next rank hstarts
  have hpushed := hsound.length_le hrank
  have hqueue := hsound.queue.length_le
  have hsquare : count * count ≤ (count + 1) * (count + 1) :=
    Nat.mul_le_mul (Nat.le_succ count) (Nat.le_succ count)
  obtain ⟨more, hfinal, hnil⟩ := Layering.Sound.run hrank
    (fun a b ha hab => ⟨hnext a b ha hab, hup a b ha hab⟩) ((count + 1) * (count + 1)) hsound
    (by omega)
  refine ⟨_, rank, pushed ++ more, Layering.ends_run hnil, rfl, hfinal, hnil, ?_⟩
  intro s hs
  obtain ⟨e, he⟩ := hdeep s hs
  exact (hfinal.exists_depth s e (List.mem_append_left _ (hsound.mem_of_depth s e he))).imp
    fun _ h => h.1

theorem nodup_layered : (layered next count starts).Nodup := nodup_distinct _

/-- **A walk ends by itself** where there are no circles, and its end tells the order. -/
theorem ends_layered (hstarts : ∀ s ∈ starts, s < count)
    (hnext : ∀ a b, a < count → Leads next a b → b < count)
    (hacyclic : ∀ a, ¬Relation.TransGen (Leads next) a a) :
    ∃ last, Layering.Ends next (starts.foldl Layering.start ⟨[], [], []⟩) last ∧
      layered next count starts = distinct last.visits.reverse := by
  obtain ⟨last, -, -, hends, hlayered, -⟩ := exists_history hstarts hnext hacyclic
  exact ⟨last, hends, hlayered⟩

/-- **A walk lists exactly what can be reached from its starts.** -/
theorem mem_layered_iff (hstarts : ∀ s ∈ starts, s < count)
    (hnext : ∀ a b, a < count → Leads next a b → b < count)
    (hacyclic : ∀ a, ¬Relation.TransGen (Leads next) a a) {n : Nat} :
    n ∈ layered next count starts ↔ ∃ s ∈ starts, Relation.ReflTransGen (Leads next) s n := by
  obtain ⟨layers, rank, pushed, -, hlayered, hsound, hnil, hdeep⟩ :=
    exists_history hstarts hnext hacyclic
  rw [hlayered, mem_distinct, List.mem_reverse, hsound.visits]
  constructor
  · intro h
    obtain ⟨a, ha, rfl⟩ := List.mem_map.mp h
    exact hsound.path a ha
  · rintro ⟨s, hs, hp⟩
    have hreached : ∃ e, layers.depth.get? n = some e := by
      induction hp with
      | refl => exact hdeep s hs
      | tail _ hab ih =>
        obtain ⟨e, he⟩ := ih
        obtain ⟨e', he', -⟩ := hsound.settled _ e he (by simp [hnil]) _ hab
        exact ⟨e', he'⟩
    obtain ⟨e, he⟩ := hreached
    exact List.mem_map.mpr ⟨(n, e), hsound.mem_of_depth n e he, rfl⟩

/-- **A number stands after all that it leads to.** Entries stand in the order of their
depths, so behind the last entry of what is deeper there is none of what is less deep. -/
theorem sublist_layered (hstarts : ∀ s ∈ starts, s < count)
    (hnext : ∀ a b, a < count → Leads next a b → b < count)
    (hacyclic : ∀ a, ¬Relation.TransGen (Leads next) a a) {a b : Nat}
    (ha : a ∈ layered next count starts) (hab : Leads next a b) :
    [b, a].Sublist (layered next count starts) := by
  obtain ⟨layers, rank, pushed, -, hlayered, hsound, hnil, -⟩ :=
    exists_history hstarts hnext hacyclic
  rw [hlayered] at ha ⊢
  rw [mem_distinct, List.mem_reverse, hsound.visits] at ha
  obtain ⟨⟨a', d'⟩, had', rfl⟩ := List.mem_map.mp ha
  obtain ⟨d, hd, -⟩ := hsound.exists_depth a' d' had'
  obtain ⟨e, he, hlt⟩ := hsound.settled a' d hd (by simp [hnil]) b hab
  obtain ⟨front, back, hsplit⟩ := List.append_of_mem (hsound.mem_of_depth b e he)
  have hne : a' ≠ b := by
    rintro rfl
    rw [hd] at he
    have heq := Option.some.inj he
    omega
  have hback : a' ∉ (back.map Prod.fst).reverse := by
    intro hmem
    obtain ⟨⟨x, y⟩, hxy, rfl⟩ := List.mem_map.mp (List.mem_reverse.mp hmem)
    have hle : y ≤ d := hsound.le_depth hd (by rw [hsplit]; simp [hxy])
    have hsorted := hsound.sorted
    rw [hsplit] at hsorted
    have hge := (List.pairwise_cons.mp (List.pairwise_append.mp hsorted).2.1).1 _ hxy
    dsimp only at hge
    omega
  have hfront : a' ∈ (front.map Prod.fst).reverse := by
    rw [hsplit, List.mem_append, List.mem_cons] at had'
    refine List.mem_reverse.mpr (List.mem_map.mpr ⟨(a', d'), ?_, rfl⟩)
    rcases had' with h | h | h
    · exact h
    · exact absurd (Prod.mk.inj h).1 hne
    · exact absurd (List.mem_reverse.mpr (List.mem_map.mpr ⟨_, h, rfl⟩)) hback
  have hvisits : layers.visits.reverse =
      (back.map Prod.fst).reverse ++ b :: (front.map Prod.fst).reverse := by
    rw [hsound.visits, hsplit]
    simp
  rw [hvisits]
  exact sublist_distinct hback hne hfront

end Layered

end TypeGraft.Digraph
