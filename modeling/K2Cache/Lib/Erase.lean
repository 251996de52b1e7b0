import K2Cache.Lib.Act

/-!
# Actions that agree once part of the state is erased

`Erases π x y`: the action `x` on the larger state returns or throws what `y` does on the
state without the part that `π` erases, and leaves what `y` leaves. There is a rule for every
way actions are composed; what is known of `y` is then known of `x` (`Erases.returns`).
-/

namespace Lib

namespace Act

variable {ε σ σ' τ τ' α β : Type} {π : σ' → σ}

/-- **`x` is `y` on a state with more in it.** -/
def Erases (π : σ' → σ) (x : Act ε σ' α) (y : Act ε σ α) : Prop := ∀ s, (x s).1 = (y (π s)).1 ∧ π (x s).2 = (y (π s)).2

theorem Erases.returns {x : Act ε σ' α} {y : Act ε σ α} (h : Erases π x y) {s : σ'} {t : σ} {a : α}
    (hy : y (π s) = (.ok a, t)) : ∃ s', x s = (.ok a, s') ∧ π s' = t := by
  obtain ⟨h1, h2⟩ := h s
  rw [hy] at h1 h2
  exact ⟨(x s).2, Prod.ext h1 rfl, h2⟩

theorem erases_pure (a : α) : Erases π (Pure.pure a : Act ε σ' α) (Pure.pure a) := fun _ => ⟨rfl, rfl⟩

theorem erases_throw (e : ε) : Erases π (throw e : Act ε σ' α) (throw e) := fun _ => ⟨rfl, rfl⟩

theorem erases_modify {f : σ' → σ'} {g : σ → σ} (h : ∀ s, π (f s) = g (π s)) :
    Erases π (modify f : Act ε σ' Unit) (modify g) := fun s => ⟨rfl, h s⟩

theorem Erases.bind {x : Act ε σ' α} {y : Act ε σ α} {f : α → Act ε σ' β} {g : α → Act ε σ β} (hx : Erases π x y)
    (hf : ∀ a, Erases π (f a) (g a)) : Erases π (x >>= f) (y >>= g) := by
  intro s
  obtain ⟨h1, h2⟩ := hx s
  rw [bind_run, bind_run]
  rcases hxs : x s with ⟨r, s'⟩
  rcases hys : y (π s) with ⟨r', t⟩
  rw [hxs, hys] at h1 h2
  obtain rfl : r = r' := h1
  obtain rfl : π s' = t := h2
  cases r with
  | ok a => exact hf a s'
  | error e => exact ⟨rfl, rfl⟩

/-- Each looks at its own state. -/
theorem erases_get_bind {f : σ' → Act ε σ' β} {g : σ → Act ε σ β} (h : ∀ s, Erases π (f s) (g (π s))) :
    Erases π (get >>= f) (get >>= g) := fun s => h s s

theorem Erases.ite {p q : Prop} [Decidable p] [Decidable q] {x x' : Act ε σ' α} {y y' : Act ε σ α} (hpq : p ↔ q)
    (hx : Erases π x y) (hx' : Erases π x' y') : Erases π (if p then x else x') (if q then y else y') := by
  by_cases hp : p
  · rw [if_pos hp, if_pos (hpq.1 hp)]
    exact hx
  · rw [if_neg hp, if_neg (fun hq => hp (hpq.2 hq))]
    exact hx'

theorem Erases.when {b b' : Bool} {x : Act ε σ' Unit} {y : Act ε σ Unit} (hb : b = b') (hx : Erases π x y) :
    Erases π (when b x) (when b' y) := by
  subst hb
  cases b with
  | true => exact hx
  | false => exact erases_pure ()

theorem Erases.forSome {f : β → Act ε σ' Unit} {g : β → Act ε σ Unit} (h : ∀ b, Erases π (f b) (g b)) (o : Option β) :
    Erases π (forSome o f) (forSome o g) := by
  cases o with
  | none => exact erases_pure ()
  | some b => exact h b

theorem Erases.forEach {f : β → Act ε σ' Unit} {g : β → Act ε σ Unit} (h : ∀ b, Erases π (f b) (g b)) (l : List β) :
    Erases π (forEach l f) (forEach l g) := by
  induction l with
  | nil => exact erases_pure ()
  | cons b l ih => exact (h b).bind fun _ => ih

/-- What is erased of the state is what is erased of a part of it. -/
theorem Erases.focus {ρ : τ' → τ} {view' : σ' → τ'} {put' : τ' → σ' → σ'} {view : σ → τ} {put : τ → σ → σ}
    {x : Act ε τ' α} {y : Act ε τ α} (hview : ∀ s, ρ (view' s) = view (π s)) (hput : ∀ t s, π (put' t s) = put (ρ t) (π s))
    (hx : Erases ρ x y) : Erases π (focus view' put' x) (focus view put y) := by
  intro s
  obtain ⟨h1, h2⟩ := hx (view' s)
  rw [hview] at h1 h2
  refine ⟨h1, ?_⟩
  show π (put' (x (view' s)).2 s) = put (y (view (π s))).2 (π s)
  rw [hput, h2]

end Act

end Lib
