import TypeGraft.Files.World
import TypeGraft.Proofs.Resolution.Session

/-!
# Whose declaration a reference gets

Behind every reference that is resolved there is one that found the declaration by its own
lookup, up to which there is a chain of references that met. A reference that found nothing may
have met it as well: all that waits for a name is resolved together, and so is what waits for the
other names that these references passed through, in modules in which their lookup came to
nothing.

So whether all references get what they denote is a question about those that met
(`TypeGraft.Harvest.refDenotes_iff_of_search`): of two that met and got the same declaration, both
or none denote it. There are files with which this fails
(`TypeGraft.Harvest.exists_not_refDenotes`).
-/

namespace TypeGraft

namespace Harvest

variable {world : World} {files : String → Option Outline} {external : Bool} {s s' : Harvest}
  {o : Outline} {requests : List RootRequest} {key : Key}

/-- **References that met agree**: of two that got one declaration, both or none denote it. -/
def Agrees (world : World) (files : String → Option Outline) (external : Bool) (s : Harvest) :
    Prop :=
  ∀ ref ref' key, s.targetOf ref = some key → s.targetOf ref' = some key → s.Met ref ref' →
    (s.RefDenotes world files external ref key ↔ s.RefDenotes world files external ref' key)

/-- Along a chain of references that met and agree, all of them denote the declaration. -/
theorem Chained.refDenotes (hagrees : s.Agrees world files external) {finder ref : RefId}
    (hchain : s.Chained key finder ref) (hfinder : s.targetOf finder = some key)
    (hd : s.RefDenotes world files external finder key) (ht : s.targetOf ref = some key) :
    s.RefDenotes world files external ref key := by
  induction hchain using Relation.ReflTransGen.head_induction_on with
  | refl => exact hd
  | @head ref ref' hfollows _ ih =>
    obtain ⟨hmet, hnext⟩ := hfollows
    have ht' : s.targetOf ref' = some key := by
      rcases hnext with rfl | ht'
      · exact hfinder
      · exact ht'
    exact (hagrees ref ref' key ht ht' hmet).mpr (ih ht')

/-- **What a search knows of its references.** Each that is resolved got a declaration that is
denoted by a reference up to which there is a chain of references that met. All of them denote
what they got exactly if those that met agree. -/
theorem refDenotes_iff_of_search (hopened : Opened world s o)
    (h : s.search world o requests external = (s', .ok ())) :
    (∀ ref key, s'.targetOf ref = some key →
      s'.Traced world (s.sources world) external ref key) ∧
    ((∀ ref key, s'.targetOf ref = some key →
        s'.RefDenotes world (s.sources world) external ref key) ↔
      s'.Agrees world (s.sources world) external) := by
  obtain ⟨hsearching, -⟩ := searching_of_search hopened h
  refine ⟨hsearching.tracked.traced, ?_, ?_⟩
  · intro hall ref ref' key ht ht' _
    exact ⟨fun _ => hall ref' key ht', fun _ => hall ref key ht⟩
  · intro hagrees ref key ht
    obtain ⟨finder, hd, hfinder, hchain⟩ := hsearching.tracked.traced ref key ht
    exact hchain.refDenotes hagrees hfinder hd ht

end Harvest

/-! ### References that met -/

/-- Three modules: the first one exports all that the second one exports, and one name of it under
another name as well. The second one has everything from the third one, which declares the name. -/
def World.joined : World :=
  World.ofTree ⟨["w"],
    [(["w", "m.ts"], Bytes.ofString "export \x7b F as G \x7d from './a'\nexport * from './a'"),
      (["w", "a.ts"], Bytes.ofString "export * from './b'"),
      (["w", "b.ts"], Bytes.ofString "export type F = string")]⟩ []

set_option maxRecDepth 100000 in
/-- Two references meet in the second module. They agree, and both denote what they got. -/
theorem Harvest.refDenotes_iff_of_search_joined :
    ∃ s o s', Opened World.joined s o ∧
      s.search World.joined o (exportRequests ["G", "F"]) true = (s', .ok ()) ∧ s'.Met 0 1 ∧
      ∀ ref ∈ [0, 1], s'.targetOf ref = some ⟨"/w/b.ts", "F"⟩ ∧
        s'.RefDenotes World.joined (s.sources World.joined) true ref ⟨"/w/b.ts", "F"⟩ := by
  obtain ⟨s, o, s', hopened, hsearch, hexpected⟩ := Harvest.exists_of_comesTo
    (show Harvest.comesTo World.joined (.file "/w/m.ts") ["G", "F"] true (fun s _ s' =>
      decide (s'.references.length = 2) &&
      (s'.synonyms.trail 0).any (s'.synonyms.trail 1).contains &&
      [0, 1].all fun ref => decide (s'.targetOf ref = some ⟨"/w/b.ts", "F"⟩) &&
        (s'.reference? ref).any fun r =>
          lookup? World.joined (s.sources World.joined) 20 [] [.visit (r.origin true)] ==
            some (some ⟨"/w/b.ts", "F"⟩)) = true by decide +kernel)
  simp only [Bool.and_eq_true, decide_eq_true_eq, List.any_eq_true, List.contains_iff_mem,
    List.all_eq_true, Option.any_eq_true, beq_iff_eq] at hexpected
  obtain ⟨⟨hlength, id, hid, hid'⟩, hfound⟩ := hexpected
  have hmet : s'.Met 0 1 :=
    ⟨id, ⟨id, hid, Relation.ReflTransGen.refl⟩, ⟨id, hid', Relation.ReflTransGen.refl⟩⟩
  have honly : ∀ ref key, s'.targetOf ref = some key → ref ∈ [0, 1] := by
    intro ref key ht
    obtain ⟨r, hr, -⟩ := Option.bind_eq_some_iff.mp ht
    have hlt : ref < s'.references.length := (List.getElem?_eq_some_iff.mp hr).1
    rw [hlength] at hlt
    rcases Nat.le_one_iff_eq_zero_or_eq_one.mp (Nat.lt_succ_iff.mp hlt) with rfl | rfl <;> simp
  have hlookup : ∀ ref ∈ [0, 1],
      s'.RefDenotes World.joined (s.sources World.joined) true ref ⟨"/w/b.ts", "F"⟩ := by
    intro ref href
    obtain ⟨-, r, hr, hlookup⟩ := hfound ref href
    exact ⟨r, hr, Lookup.of_lookup? hlookup⟩
  have hagrees : s'.Agrees World.joined (s.sources World.joined) true := by
    intro ref ref' key ht ht' _
    have hkey := Option.some.inj ((hfound ref (honly ref key ht)).1.symm.trans ht)
    rw [← hkey]
    exact iff_of_true (hlookup ref (honly ref key ht)) (hlookup ref' (honly ref' key ht'))
  refine ⟨s, o, s', hopened, hsearch, hmet, fun ref href => ?_⟩
  have htarget := (hfound ref href).1
  exact ⟨htarget, (Harvest.refDenotes_iff_of_search hopened hsearch).2.mpr hagrees ref _ htarget⟩

/-! ### References that should not have met -/

/-- Three modules: the first one imports a name from the second one, which is empty, and exports
everything of the second and the third one, which declares the name. -/
def World.crossed : World :=
  World.ofTree ⟨["w"],
    [(["w", "m.ts"], Bytes.ofString
        "import \x7b F as B \x7d from './a'\nexport * from './a'\nexport * from './b'"),
      (["w", "a.ts"], []),
      (["w", "b.ts"], Bytes.ofString "export type F = string")]⟩ []

set_option maxRecDepth 100000 in
/-- A reference that denotes nothing is resolved, because one that it met in an empty module
finds the declaration elsewhere. -/
theorem Harvest.exists_not_refDenotes :
    ∃ s o s', Opened World.crossed s o ∧
      s.search World.crossed o (exportRequests ["B", "F"]) true = (s', .ok ()) ∧
      s'.targetOf 0 = some ⟨"/w/b.ts", "F"⟩ ∧
      ¬s'.RefDenotes World.crossed (s.sources World.crossed) true 0 ⟨"/w/b.ts", "F"⟩ := by
  obtain ⟨s, o, s', hopened, hsearch, hexpected⟩ := Harvest.exists_of_comesTo
    (show Harvest.comesTo World.crossed (.file "/w/m.ts") ["B", "F"] true (fun s _ s' =>
      s'.targetOf 0 = some ⟨"/w/b.ts", "F"⟩ ∧
      (s'.reference? 0).map (·.origin true) = some ⟨"/w/m.ts", "B", true⟩ ∧
      lookup? World.crossed (s.sources World.crossed) 20 [] [.visit ⟨"/w/m.ts", "B", true⟩] =
        some none) = true by decide +kernel)
  obtain ⟨htarget, horigin, hlookup⟩ := of_decide_eq_true hexpected
  refine ⟨s, o, s', hopened, hsearch, htarget, ?_⟩
  rintro ⟨r, hr, hdenotes⟩
  rw [hr] at horigin
  have horigin : r.origin true = ⟨"/w/m.ts", "B", true⟩ := Option.some.inj horigin
  rw [horigin] at hdenotes
  exact absurd ((Lookup.of_lookup? hlookup).unique hdenotes) (by simp)

end TypeGraft
