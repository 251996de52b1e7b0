import Mathlib

/-!
# Runs of a machine

A machine takes a step per command; a step may end the run. `invariant` is the
rule for runs whose every step meets a condition on the state it starts in: what
such steps preserve holds in every state such a run reaches. `simulation` is the rule
for a machine that follows an abstract one step by step.
-/

namespace Lib

/-- A machine with states `σ` and commands `ι`; `none` ends the run. -/
structure Machine (σ ι : Type*) where
  step : σ → ι → Option σ

namespace Machine

variable {σ ι : Type*} (M : Machine σ ι)

/-- The state after a list of commands, if the run gets there. -/
def run : List ι → σ → Option σ
  | [], s => some s
  | i :: is, s => (M.step s i).bind (run is)

/-- Every step of the run meets the condition. -/
def Meets (C : σ → ι → Prop) : List ι → σ → Prop
  | [], _ => True
  | i :: is, s => C s i ∧ ∀ s', M.step s i = some s' → Meets C is s'

variable {M}

theorem run_cons {i : ι} {is : List ι} {s s' : σ} (h : M.run (i :: is) s = some s') :
    ∃ s₁, M.step s i = some s₁ ∧ M.run is s₁ = some s' := by
  simpa [run, Option.bind_eq_some_iff] using h

theorem run_append (is is' : List ι) (s : σ) : M.run (is ++ is') s = (M.run is s).bind (M.run is') := by
  induction is generalizing s with
  | nil => rfl
  | cons i is ih =>
    simp only [List.cons_append, run, Option.bind_assoc]
    exact congrArg _ (funext ih)

/-- A run with one more step. -/
theorem run_concat {is : List ι} {i : ι} {s s' : σ} :
    M.run (is ++ [i]) s = some s' ↔ ∃ s₁, M.run is s = some s₁ ∧ M.step s₁ i = some s' := by
  simp [run_append, run, Option.bind_eq_some_iff]

theorem Meets.of_forall_mem {C : σ → ι → Prop} {is : List ι} (h : ∀ i ∈ is, ∀ s, C s i) (s : σ) : M.Meets C is s := by
  induction is generalizing s with
  | nil => trivial
  | cons i is ih => exact ⟨h i List.mem_cons_self s, fun s' _ => ih (fun i hi => h i (List.mem_cons_of_mem _ hi)) s'⟩

theorem Meets.of_forall {C : σ → ι → Prop} (h : ∀ s i, C s i) (is : List ι) (s : σ) : M.Meets C is s :=
  .of_forall_mem (fun i _ s => h s i) s

theorem Meets.append_iff {C : σ → ι → Prop} {is is' : List ι} {s : σ} :
    M.Meets C (is ++ is') s ↔ M.Meets C is s ∧ ∀ s', M.run is s = some s' → M.Meets C is' s' := by
  induction is generalizing s with
  | nil => simp [Meets, run]
  | cons i is ih =>
    constructor
    · rintro ⟨h1, h2⟩
      refine ⟨⟨h1, fun s₁ hs₁ => (ih.1 (h2 s₁ hs₁)).1⟩, fun s' hs' => ?_⟩
      obtain ⟨s₁, hs₁, hrun⟩ := run_cons hs'
      exact (ih.1 (h2 s₁ hs₁)).2 s' hrun
    · rintro ⟨⟨h1, h2⟩, h3⟩
      refine ⟨h1, fun s₁ hs₁ => ih.2 ⟨h2 s₁ hs₁, fun s' hs' => h3 s' ?_⟩⟩
      rw [run, hs₁]
      exact hs'

/-- **The invariant rule.** -/
theorem invariant {I : σ → Prop} {C : σ → ι → Prop} (hstep : ∀ s i s', C s i → M.step s i = some s' → I s → I s')
    {is : List ι} {s s' : σ} (hm : M.Meets C is s) (hr : M.run is s = some s') (h0 : I s) : I s' := by
  induction is generalizing s with
  | nil =>
    obtain rfl : s = s' := Option.some.inj hr
    exact h0
  | cons i is ih =>
    obtain ⟨s₁, h1, h2⟩ := run_cons hr
    exact ih (hm.2 s₁ h1) h2 (hstep s i s₁ hm.1 h1 h0)

/-- What every step preserves holds in every state a run reaches. -/
theorem always {I : σ → Prop} (hstep : ∀ s i s', M.step s i = some s' → I s → I s') {is : List ι} {s s' : σ}
    (hr : M.run is s = some s') (h0 : I s) : I s' :=
  invariant (C := fun _ _ => True) (fun s i s' _ => hstep s i s') (Meets.of_forall (fun _ _ => trivial) is s) hr h0

/-- **Simulation.** If every step of the machine is possible and matched by a step of
an abstract one, every run is possible, and ends in a state related to the abstract
one's. -/
theorem simulation {α : Type*} {R : σ → α → Prop} {next : α → ι → α}
    (hstep : ∀ s a i, R s a → ∃ s', M.step s i = some s' ∧ R s' (next a i)) (is : List ι) {s : σ} {a : α}
    (h0 : R s a) : ∃ s', M.run is s = some s' ∧ R s' (is.foldl next a) := by
  induction is generalizing s a with
  | nil => exact ⟨s, rfl, h0⟩
  | cons i is ih =>
    obtain ⟨s₁, h1, h2⟩ := hstep s a i h0
    obtain ⟨s', h3, h4⟩ := ih h2
    exact ⟨s', by rw [run, h1]; exact h3, h4⟩

/-- Simulation of the runs whose every step meets a condition. -/
theorem simulation_of_meets {α : Type*} {R : σ → α → Prop} {next : α → ι → α} {C : σ → ι → Prop}
    (hstep : ∀ s a i, C s i → R s a → ∃ s', M.step s i = some s' ∧ R s' (next a i)) {is : List ι} {s : σ} {a : α}
    (hm : M.Meets C is s) (h0 : R s a) : ∃ s', M.run is s = some s' ∧ R s' (is.foldl next a) := by
  induction is generalizing s a with
  | nil => exact ⟨s, rfl, h0⟩
  | cons i is ih =>
    obtain ⟨s₁, h1, h2⟩ := hstep s a i hm.1 h0
    obtain ⟨s', h3, h4⟩ := ih (hm.2 s₁ h1) h2
    exact ⟨s', by rw [run, h1]; exact h3, h4⟩

/-- A machine whose every step is possible and keeps an invariant runs every list of commands. -/
theorem runs {I : σ → Prop} (hstep : ∀ s i, I s → ∃ s', M.step s i = some s' ∧ I s') (is : List ι) {s : σ} (h0 : I s) :
    ∃ s', M.run is s = some s' ∧ I s' :=
  @simulation _ _ M Unit (fun s _ => I s) (fun u _ => u) (fun s _ i => hstep s i) is s () h0

end Machine

end Lib
