import TypeGraft.Files.World
import TypeGraft.Proofs.Resolution.Session
import TypeGraft.Proofs.Splice.Merge

/-!
# A search finds what there is

A reference whose lookup comes to a declaration is resolved when the search is over, and so is
one from which a declaration can be reached at all, however the files import from each other
(`TypeGraft.Harvest.isResolved_of_search`). So a requested name is reported as missing only where
no declaration can be reached for it.

A search keeps this by what it has left to do for each reference (`TypeGraft.Searching`): a
reference is never dropped, it is handed on to the errands that its file sends it on. When no
errands are left, its lookup has come to nothing, and a lookup that comes to nothing has been
everywhere (`TypeGraft.Lookup.not_declares`).
-/

namespace TypeGraft

namespace Harvest

variable {world : World} {s s' s'' : Harvest} {o : Outline} {requests : List RootRequest}
  {external : Bool} {clean : Cleaning} {orders : Orders} {spliced : Splice}

/-- What is reported as missing after splicing is what the search did not find. -/
theorem missingRequests_of_searchAndSplice
    (h : s.search world o requests external = (s', .ok ()))
    (hsplice : s.searchAndSplice world o requests external clean = (s'', .ok (orders, spliced))) :
    s''.missingRequests = s'.missingRequests := by
  obtain ⟨found, hfound, -, hspliced⟩ := exists_search_of_searchAndSplice hsplice
  obtain rfl : found = s' := (Prod.mk.inj (hfound.symm.trans h)).1
  obtain ⟨⟨grafts, events, rfl⟩, -⟩ := exists_splice hspliced
  rfl

/-- **A search is complete.** What a lookup comes to is found, and so is what can be reached. No
declaration can be reached for a requested name that is reported as missing. -/
theorem isResolved_of_search (hopened : Opened world s o)
    (h : s.search world o requests external = (s', .ok ())) :
    (∀ ref r key, s'.reference? ref = some r →
      Denotes world (s.sources world) (r.origin external) key → s'.isResolved ref = true) ∧
    (∀ ref r place key, s'.reference? ref = some r →
      Reaches world (s.sources world) (r.origin external) place →
        Declares (s.sources world) place key → s'.isResolved ref = true) ∧
    (∀ name ∈ s'.missingRequests, ∀ place key,
      Reaches world (s.sources world) ⟨o.path, name, external⟩ place →
        ¬Declares (s.sources world) place key) ∧
    ∀ clean s'' orders spliced,
      s.searchAndSplice world o requests external clean = (s'', .ok (orders, spliced)) →
        s''.missingRequests = s'.missingRequests := by
  obtain ⟨hsearching, hc⟩ := searching_of_search hopened h
  have hreached : ∀ ref r place key, s'.reference? ref = some r →
      Reaches world (s.sources world) (r.origin external) place →
        Declares (s.sources world) place key → s'.isResolved ref = true := by
    intro ref r place key hr hreach hdeclares
    rw [isResolved, targetOf_of_reference? hr]
    by_contra hopen
    have hnone := hsearching.lookup_none hr (by simpa using hopen)
    exact hnone.not_declares hreach hdeclares
  refine ⟨?_, hreached, ?_,
    fun clean s'' orders spliced => missingRequests_of_searchAndSplice h⟩
  · intro ref r key hr hdenotes
    obtain ⟨place, hreach, hdeclares⟩ := hdenotes.exists_reaches
    exact hreached ref r place key hr hreach hdeclares
  · intro name hname place key hreach
    obtain ⟨ref, hroot, r, hr, rfl, hopen⟩ := exists_of_mem_missingRequests hname
    obtain ⟨-, horigin⟩ := origin_of_mem_roots hopened hc hroot hr
    have hnone := hsearching.lookup_none hr hopen
    rw [horigin] at hnone
    exact hnone.not_declares hreach

end Harvest

/-! ### Modules that export each other -/

/-- Three modules of which two export everything of each other, and one of them what the third
declares. -/
def World.tangle : World :=
  World.ofTree ⟨["w"],
    [(["w", "a.ts"], Bytes.ofString "export * from './b'"),
      (["w", "b.ts"], Bytes.ofString "export * from './a'\nexport * from './c'"),
      (["w", "c.ts"], Bytes.ofString "export type T = U\nimport \x7b U \x7d from './a'")]⟩ []

set_option maxRecDepth 100000 in
/-- What is declared is found behind the modules that export each other, and what is not
declared anywhere is reported. -/
theorem Harvest.isResolved_of_search_tangle :
    ∃ s o s', Opened World.tangle s o ∧
      s.search World.tangle o (exportRequests ["T", "U"]) true = (s', .ok ()) ∧
      Denotes World.tangle (s.sources World.tangle) ⟨"/w/a.ts", "T", true⟩ ⟨"/w/c.ts", "T"⟩ ∧
      s'.isResolved 0 = true ∧ s'.missingRequests = ["U"] ∧
      ∀ place key, Reaches World.tangle (s.sources World.tangle) ⟨"/w/a.ts", "U", true⟩ place →
        ¬Declares (s.sources World.tangle) place key := by
  obtain ⟨s, o, s', hopened, hsearch, hexpected⟩ := Harvest.exists_of_comesTo
    (show Harvest.comesTo World.tangle (.file "/w/a.ts") ["T", "U"] true (fun s o s' =>
      o.path = "/w/a.ts" ∧ s'.missingRequests = ["U"] ∧
      (s'.reference? 0).map (·.origin true) = some ⟨"/w/a.ts", "T", true⟩ ∧
      lookup? World.tangle (s.sources World.tangle) 20 [] [.visit ⟨"/w/a.ts", "T", true⟩] =
        some (some ⟨"/w/c.ts", "T"⟩)) = true by decide +kernel)
  obtain ⟨hpath, hmissing, horigin, hlookup⟩ := of_decide_eq_true hexpected
  obtain ⟨r, hr, horigin⟩ := Option.map_eq_some_iff.mp horigin
  have hdenotes := Lookup.of_lookup? hlookup
  obtain ⟨hresolved, -, hmissed, -⟩ := Harvest.isResolved_of_search hopened hsearch
  refine ⟨s, o, s', hopened, hsearch, hdenotes, hresolved 0 r ⟨"/w/c.ts", "T"⟩ hr ?_, hmissing, ?_⟩
  · rw [horigin]
    exact hdenotes
  · rw [← hpath]
    exact hmissed "U" (by rw [hmissing]; exact List.mem_singleton_self _)

end TypeGraft
