import K2Cache.Lib.Act

/-!
# Results in pages

A producer is asked for pages until one says it is the last. `Read`: the pages of a whole
run. `Pages`: those of a run after each page of which the producer says whether it is through.

`Pages.exists_of_left`: a producer whose pages are cut off the front of what it still has,
and whose last page is the one behind which nothing is left, delivers all of it.
-/

namespace Lib

variable {ε σ ρ β : Type}

/-- The pages from a state on, up to the first for which `last` holds. -/
inductive Read (next : Act ε σ ρ) (last : ρ → Bool) : σ → List ρ → σ → Prop
  | final {s s' : σ} {r : ρ} (h : next s = (.ok r, s')) (hlast : last r = true) : Read next last s [r] s'
  | more {s s' s'' : σ} {r : ρ} {rs : List ρ} (h : next s = (.ok r, s')) (hlast : last r = false)
      (hs : Read next last s' rs s'') : Read next last s (r :: rs) s''

/-- There is one run. -/
theorem Read.unique {next : Act ε σ ρ} {last : ρ → Bool} {s s' s'' : σ} {rs rs' : List ρ} (h : Read next last s rs s')
    (h' : Read next last s rs' s'') : rs = rs' ∧ s' = s'' := by
  induction h generalizing rs' with
  | final h hlast =>
    cases h' with
    | final h' _ =>
      obtain ⟨hr, rfl⟩ := Prod.mk.inj (h.symm.trans h')
      exact ⟨by rw [Except.ok.inj hr], rfl⟩
    | more h' hlast' _ =>
      obtain ⟨hr, -⟩ := Prod.mk.inj (h.symm.trans h')
      rw [← Except.ok.inj hr, hlast] at hlast'
      simp at hlast'
  | more h hlast _ ih =>
    cases h' with
    | final h' hlast' =>
      obtain ⟨hr, -⟩ := Prod.mk.inj (h.symm.trans h')
      rw [← Except.ok.inj hr, hlast] at hlast'
      simp at hlast'
    | more h' _ hs' =>
      obtain ⟨hr, rfl⟩ := Prod.mk.inj (h.symm.trans h')
      obtain ⟨rfl, rfl⟩ := ih hs'
      exact ⟨by rw [Except.ok.inj hr], rfl⟩

/-- The pages from a state on: `last` holds of the final page, and `sent` of the state after
it, and of no page and no state before. -/
inductive Pages (next : Act ε σ ρ) (last : ρ → Bool) (sent : σ → Bool) : σ → List ρ → σ → Prop
  | final {s s' : σ} {r : ρ} (h : next s = (.ok r, s')) (hlast : last r = true) (hsent : sent s' = true) :
      Pages next last sent s [r] s'
  | more {s s' s'' : σ} {r : ρ} {rs : List ρ} (h : next s = (.ok r, s')) (hlast : last r = false)
      (hsent : sent s' = false) (hs : Pages next last sent s' rs s'') : Pages next last sent s (r :: rs) s''

namespace Pages

variable {next : Act ε σ ρ} {last : ρ → Bool} {sent : σ → Bool} {s s' s'' : σ} {rs rs' : List ρ}

theorem read (h : Pages next last sent s rs s') : Read next last s rs s' := by
  induction h with
  | final h hlast _ => exact .final h hlast
  | more h hlast _ _ ih => exact .more h hlast ih

/-- There is one run. -/
theorem unique (h : Pages next last sent s rs s') (h' : Pages next last sent s rs' s'') : rs = rs' ∧ s' = s'' :=
  h.read.unique h'.read

/-- A run depends on what the first page comes from. -/
theorem of_eq (h : Pages next last sent s rs s') {t : σ} (ht : next t = next s) : Pages next last sent t rs s' := by
  cases h with
  | final h hlast hsent => exact .final (ht.trans h) hlast hsent
  | more h hlast hsent hs => exact .more (ht.trans h) hlast hsent hs

/-- A run has ended. -/
theorem sent_final (h : Pages next last sent s rs s') : sent s' = true := by
  induction h with
  | final _ _ hsent => exact hsent
  | more _ _ _ _ ih => exact ih

/-- What one page does to what is left: its items are the first ones, and it is the last one if
they are all. -/
structure Step (Inv : σ → Prop) (rest : σ → List β) (items : ρ → List β) (last : ρ → Bool) (sent : σ → Bool)
    (s : σ) (r : ρ) (s' : σ) : Prop where
  inv : Inv s'
  split : rest s = items r ++ rest s'
  last_iff : last r = true ↔ rest s' = []
  sent_eq : sent s' = last r
  progress : rest s' ≠ [] → (rest s').length < (rest s).length

/-- **All of it is delivered**, where `left` counts what the producer has not looked at: a page
may be the last one of what is delivered and not of what is looked at. -/
theorem exists_of_left {Inv : σ → Prop} {rest : σ → List β} {items : ρ → List β} (left : σ → ℕ)
    (hstep : ∀ s, Inv s → ∃ r s', next s = (.ok r, s') ∧ Inv s' ∧ rest s = items r ++ rest s' ∧
      (last r = true ↔ left s' = 0) ∧ sent s' = last r ∧ (left s' ≠ 0 → left s' < left s))
    (hend : ∀ s, Inv s → left s = 0 → rest s = []) (hs : Inv s) :
    ∃ rs s', Pages next last sent s rs s' ∧ rs.flatMap items = rest s := by
  induction hn : left s using Nat.strong_induction_on generalizing s with
  | _ n ih =>
    obtain ⟨r, s', h, hinv, hsplit, hiff, hsent, hless⟩ := hstep s hs
    by_cases hleft : left s' = 0
    · have hlast := hiff.2 hleft
      refine ⟨[r], s', .final h hlast (by rw [hsent, hlast]), ?_⟩
      rw [hsplit, hend s' hinv hleft]
      simp
    · have hlast : last r = false := by
        rw [← Bool.not_eq_true]
        exact fun hl => hleft (hiff.1 hl)
      obtain ⟨rs, s'', hpages, hitems⟩ := ih (left s') (by rw [← hn]; exact hless hleft) hinv rfl
      refine ⟨r :: rs, s'', .more h hlast (by rw [hsent, hlast]) hpages, ?_⟩
      rw [List.flatMap_cons, hitems, hsplit]

/-- **All of it is delivered**, where everything that is looked at is. -/
theorem exists_of_step {Inv : σ → Prop} {rest : σ → List β} {items : ρ → List β}
    (hstep : ∀ s, Inv s → ∃ r s', next s = (.ok r, s') ∧ Step Inv rest items last sent s r s') (hs : Inv s) :
    ∃ rs s', Pages next last sent s rs s' ∧ rs.flatMap items = rest s := by
  refine exists_of_left (fun s => (rest s).length) (fun s hs => ?_) (fun s _ h => List.length_eq_zero_iff.1 h) hs
  obtain ⟨r, s', h, hst⟩ := hstep s hs
  refine ⟨r, s', h, hst.inv, hst.split, hst.last_iff.trans List.length_eq_zero_iff.symm, hst.sent_eq, fun hne => ?_⟩
  exact hst.progress fun hnil => hne (by rw [hnil]; rfl)

end Pages

end Lib
