import Mathlib

/-!
# Trails

A walk along the edges of a graph that uses no edge twice. `trail_iff` compares the walk,
which carries the edges used so far, to the list of its edges.
-/

namespace Lib

variable {V E : Type*} (src tgt : E → V) (edges : Set E)

/-- A walk from a vertex along edges that were not used. -/
inductive Trail : Set E → V → List E → Prop where
  | nil {used : Set E} {v : V} : Trail used v []
  | cons {used : Set E} {e : E} {l : List E} (hmem : e ∈ edges) (hnew : e ∉ used) (hrest : Trail (insert e used) (tgt e) l) :
    Trail used (src e) (e :: l)

/-- A list of edges, each from where the one before it ends, none of them twice. -/
structure IsPath (l : List E) : Prop where
  edges : ∀ e ∈ l, e ∈ edges
  chain : l.IsChain fun e e' => tgt e = src e'
  nodup : l.Nodup

variable {src tgt edges}

/-- **A trail is a path of unused edges** that starts where it does. -/
theorem trail_iff {used : Set E} {v : V} {l : List E} :
    Trail src tgt edges used v l ↔ IsPath src tgt edges l ∧ (∀ e ∈ l, e ∉ used) ∧ ∀ e ∈ l.head?, src e = v := by
  induction l generalizing used v with
  | nil => exact ⟨fun _ => ⟨⟨nofun, .nil, .nil⟩, nofun, nofun⟩, fun _ => .nil⟩
  | cons e l ih =>
    constructor
    · intro h
      cases h with
      | cons hmem hnew hrest =>
        obtain ⟨h1, h2, h3⟩ := ih.1 hrest
        have hne : e ∉ l := fun hm => h2 e hm (Set.mem_insert _ _)
        refine ⟨⟨?_, ?_, List.nodup_cons.2 ⟨hne, h1.nodup⟩⟩, ?_, fun e' he' => ?_⟩
        · exact List.forall_mem_cons.2 ⟨hmem, h1.edges⟩
        · exact List.isChain_cons.2 ⟨fun e' he' => (h3 e' he').symm, h1.chain⟩
        · exact List.forall_mem_cons.2 ⟨hnew, fun e' he' hu => h2 e' he' (Set.mem_insert_of_mem _ hu)⟩
        · rw [List.head?_cons, Option.mem_some_iff] at he'
          rw [he']
    · rintro ⟨h1, h2, h3⟩
      obtain ⟨hne, hnodup⟩ := List.nodup_cons.1 h1.nodup
      obtain ⟨hhead, hchain⟩ := List.isChain_cons.1 h1.chain
      obtain ⟨hmem, hedges⟩ := List.forall_mem_cons.1 h1.edges
      obtain ⟨hnew, hused⟩ := List.forall_mem_cons.1 h2
      have hv : src e = v := h3 e (by simp)
      subst hv
      refine .cons hmem hnew (ih.2 ⟨⟨hedges, hchain, hnodup⟩, fun e' he' hu => ?_, fun e' he' => (hhead e' he').symm⟩)
      rcases Set.mem_insert_iff.1 hu with rfl | hu
      · exact hne he'
      · exact hused e' he' hu

/-- A trail, by its first edge. -/
theorem trail_cons_iff {used : Set E} {v : V} {e : E} {l : List E} :
    Trail src tgt edges used v (e :: l) ↔
      (src e = v ∧ e ∈ edges ∧ e ∉ used) ∧ Trail src tgt edges (insert e used) (tgt e) l := by
  constructor
  · intro h
    cases h with
    | cons hmem hnew hrest => exact ⟨⟨rfl, hmem, hnew⟩, hrest⟩
  · rintro ⟨⟨rfl, hmem, hnew⟩, hrest⟩
    exact .cons hmem hnew hrest

end Lib
