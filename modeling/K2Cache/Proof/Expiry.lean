import K2Cache.Proof.BgpRun
import K2Cache.Spec.PointTree

/-!
# An iterator whose time runs out

Two runs of an iterator, one with a time control that never expires and counts its ticks,
one with another, do the same up to the first tick that fails (`Follows`). From there on
the second one gives up what it is at, and has no next row: unless the tick is the first
one of `next`, which returns before it takes the last row back, so that `has_next` stays
true.

`truncates_iff`: that is the only way the loop over the rows goes wrong.
-/

namespace K2Cache

open Lib

variable {T : Type} {ops : TreeOps T}

/-! ## Ticks -/

namespace TimeControl

/-- The time control after some ticks. -/
def after (c : TimeControl) : ℕ → TimeControl
  | 0 => c
  | k + 1 => (c.after k).tick.2

/-- What a tick returns, the first one being that of 0. -/
def passes (c : TimeControl) (k : ℕ) : Bool := (c.after k).tick.1

/-- The tick is the first one that returns false. -/
def FirstFails (c : TimeControl) (k : ℕ) : Prop := (∀ j < k, c.passes j = true) ∧ c.passes k = false

instance (c : TimeControl) (k : ℕ) : Decidable (c.FirstFails k) :=
  inferInstanceAs (Decidable ((∀ j < k, c.passes j = true) ∧ c.passes k = false))

/-- The ticks from one to another return true. -/
def Passes (c : TimeControl) (k k' : ℕ) : Prop := ∀ j, k ≤ j → j < k' → c.passes j = true

/-- A time control that never expires, after so many ticks. -/
def counting (k : ℕ) : TimeControl := ⟨0, 0, false, fun _ => false, k⟩

theorem tick_counting (k : ℕ) : (counting k).tick = (true, counting (k + 1)) := by
  simp [tick, counting]

theorem counting_inj {k k' : ℕ} (h : counting k = counting k') : k = k' := congrArg looks h

theorem tick_after (c : TimeControl) (k : ℕ) : (c.after k).tick = (c.passes k, c.after (k + 1)) := rfl

/-- A tick that returns false is not the last to do so. -/
theorem passed_of_tick {c : TimeControl} (h : c.tick.1 = false) : c.tick.2.timeHasPassed = true := by
  unfold tick at h ⊢
  simp only at h ⊢
  split at h
  · rename_i hp
    simp [hp]
  · split at h
    · simp at h
    · rename_i h1 h2
      split at h
      · rename_i h3
        simp [h1, h2, h3]
      · simp at h

theorem passed_after {c : TimeControl} {k : ℕ} (h : c.passes k = false) : (c.after (k + 1)).timeHasPassed = true :=
  passed_of_tick h

theorem tick_of_passed {c : TimeControl} (h : c.timeHasPassed = true) : c.tick.1 = false ∧ c.tick.2.timeHasPassed = true := by
  simp [tick, h]

variable {c : TimeControl} {k k' k'' : ℕ}

theorem Passes.trans (h : c.Passes k k') (h' : c.Passes k' k'') : c.Passes k k'' := by
  intro j hj hj'
  by_cases hlt : j < k'
  · exact h j hj hlt
  · exact h' j (by omega) hj'

theorem passes_one : c.Passes k (k + 1) ↔ c.passes k = true := by
  constructor
  · intro h
    exact h k le_rfl (Nat.lt_succ_self k)
  · intro h j hj hj'
    obtain rfl : j = k := by omega
    exact h

theorem passes_two : c.Passes k (k + 2) ↔ c.passes k = true ∧ c.passes (k + 1) = true := by
  constructor
  · intro h
    exact ⟨h k le_rfl (by omega), h (k + 1) (by omega) (by omega)⟩
  · rintro ⟨h, h'⟩ j hj hj'
    rcases (show j = k ∨ j = k + 1 by omega) with rfl | rfl
    · exact h
    · exact h'

theorem Passes.left (h : c.Passes k k'') (hk : k' ≤ k'') : c.Passes k k' := fun j hj hj' => h j hj (by omega)

theorem Passes.right (h : c.Passes k k'') (hk : k ≤ k') : c.Passes k' k'' := fun j hj hj' => h j (by omega) hj'

end TimeControl

open TimeControl

/-! ## Operators -/

namespace BGPOp

/-- What `run` does with the clock of another time control. -/
structure RunFollows (ops : TreeOps T) (o : BGPOp T) (row : Row) (c : TimeControl) (k : ℕ) (ran₀ : Ran T) (k' : ℕ) : Prop where
  clock : ran₀.timeControl = counting k'
  lt : k < k'
  pass : c.Passes k k' → o.run ops (c.after k) row = .ok { ran₀ with timeControl := c.after k' }
  stop : ¬ c.Passes k k' → ∃ ran, o.run ops (c.after k) row = .ok ran ∧ ran.timeControl.timeHasPassed = true

/-- The first tick of `run` fails. -/
theorem run_of_fail {o : BGPOp T} {row : Row} {c : TimeControl} {k : ℕ} (h : c.passes k = false) :
    o.run ops (c.after k) row = .ok ⟨.zero, c.after (k + 1), row, o⟩ := by
  simp [run, tick_after, h]

/-- An operator that ticks once. -/
theorem runFollows_once {o : BGPOp T} {row : Row} {c : TimeControl} {k : ℕ} {f : TimeControl → Ran T}
    (hf : ∀ c, (f c).timeControl = c) (hset : ∀ c c', f c' = { f c with timeControl := c' })
    (hrun : ∀ c : TimeControl, c.tick.1 = true → o.run ops c row = .ok (f c.tick.2)) :
    o.run ops (counting k) row = .ok (f (counting (k + 1))) ∧ RunFollows ops o row c k (f (counting (k + 1))) (k + 1) := by
  refine ⟨hrun _ rfl, hf _, Nat.lt_succ_self k, fun h => ?_, fun h => ?_⟩
  · rw [hrun _ (passes_one.1 h), ← hset]
    rfl
  · rw [passes_one, Bool.not_eq_true] at h
    exact ⟨_, run_of_fail h, passed_after h⟩

/-- An operator that ticks twice, and gives up if the second one fails. -/
theorem runFollows_twice {o : BGPOp T} {row : Row} {c : TimeControl} {k : ℕ} {f g : TimeControl → Ran T}
    (hf : ∀ c, (f c).timeControl = c) (hset : ∀ c c', f c' = { f c with timeControl := c' }) (hg : ∀ c, (g c).timeControl = c)
    (hrun : ∀ c : TimeControl, c.tick.1 = true →
      o.run ops c row = .ok (if c.tick.2.tick.1 then f c.tick.2.tick.2 else g c.tick.2.tick.2)) :
    o.run ops (counting k) row = .ok (f (counting (k + 2))) ∧ RunFollows ops o row c k (f (counting (k + 2))) (k + 2) := by
  refine ⟨hrun _ rfl, hf _, by omega, fun h => ?_, fun h => ?_⟩
  · obtain ⟨h1, h2⟩ := passes_two.1 h
    rw [hrun _ h1, tick_after, tick_after, h2, if_pos rfl, ← hset]
  · rw [passes_two, not_and] at h
    cases h1 : c.passes k with
    | false => exact ⟨_, run_of_fail h1, passed_after h1⟩
    | true =>
      have h2 : c.passes (k + 1) = false := by simpa using h h1
      refine ⟨_, hrun _ h1, ?_⟩
      rw [tick_after, tick_after, h2]
      simp only [Bool.false_eq_true, if_false, hg]
      exact passed_after h2

/-- The scanner of a band. -/
theorem runBand_follows (band : K2TreeScanner T) {o : BGPOp T} {row : Row} (c : TimeControl) (k : ℕ) (wv : Vars)
    (s : K2TreeScanner T) (sp op : ℕ) (v : UInt64)
    (hrun : ∀ c : TimeControl, c.tick.1 = true → o.run ops c row = .ok (runBand wv s sp op band v c.tick.2 row)) :
    ∃ ran₀ k', o.run ops (counting k) row = .ok ran₀ ∧ RunFollows ops o row c k ran₀ k' := by
  cases hb : band.hasNext with
  | false =>
    refine ⟨_, _, runFollows_once (f := fun c => ⟨⟨true, false⟩, c, row, .twoVarJoinOne wv s sp op (some band) v⟩)
      (fun _ => rfl) (fun _ _ => rfl) fun c hc => ?_⟩
    rw [hrun c hc, runBand, hb]
    rfl
  | true =>
    refine ⟨_, _, runFollows_twice
      (f := fun c => ⟨⟨!band.next.2.hasNext, true⟩, c, row.set (setPos wv sp op) (setValue wv band.next.1),
        .twoVarJoinOne wv s sp op (some band.next.2) v⟩)
      (g := fun c => ⟨.zero, c, row, .twoVarJoinOne wv s sp op (some band.next.2) v⟩)
      (fun _ => rfl) (fun _ _ => rfl) (fun _ => rfl) fun c hc => ?_⟩
    rw [hrun c hc, runBand, hb]
    cases ht : c.tick.2.tick.1 <;> simp [ht]

/-- **`run` with another time control**: the same, if its ticks return true. -/
theorem run_follows {o : BGPOp T} {row : Row} (c : TimeControl) {k : ℕ} {ran₀ : Ran T}
    (h : o.run ops (counting k) row = .ok ran₀) : ∃ k', RunFollows ops o row c k ran₀ k' := by
  suffices hs : ∃ ran₁ k', o.run ops (counting k) row = .ok ran₁ ∧ RunFollows ops o row c k ran₁ k' by
    obtain ⟨ran₁, k', h1, h2⟩ := hs
    obtain rfl : ran₀ = ran₁ := Except.ok.inj (h.symm.trans h1)
    exact ⟨k', h2⟩
  cases o with
  | twoVarIntersection s sp op =>
    refine ⟨_, _, runFollows_once
      (f := fun c => ⟨⟨true, ops.has s.tree (row.val sp, row.val op)⟩, c, row, .twoVarIntersection s sp op⟩)
      (fun _ => rfl) (fun _ _ => rfl) fun c hc => ?_⟩
    rw [run, hc]
    cases ops.has s.tree (row.val sp, row.val op) <;> simp
  | twoVarJoinOne wv s sp op band v =>
    cases band with
    | none =>
      refine runBand_follows (.create ops s.tree (.band (row.val (joinPos wv sp op)) (joinBandType wv))) c k wv s sp op
        (row.val (joinPos wv sp op)) fun c hc => ?_
      rw [run, hc]
      rfl
    | some band =>
      by_cases hv : row.val (joinPos wv sp op) = v
      · refine runBand_follows band c k wv s sp op v fun c hc => ?_
        rw [run, hc]
        simp only [Bool.not_true, Bool.false_eq_true, if_false, hv, ne_eq, not_true_eq_false]
      · refine runBand_follows (.create ops s.tree (.band (row.val (joinPos wv sp op)) (joinBandType wv))) c k wv s sp op
          (row.val (joinPos wv sp op)) fun c hc => ?_
        rw [run, hc]
        simp only [Bool.not_true, Bool.false_eq_true, if_false, hv, ne_eq, not_false_eq_true, if_true]
  | twoVarCProduct s sp op =>
    cases hs : s.hasNext with
    | false =>
      refine ⟨_, _, runFollows_once (f := fun c => ⟨⟨true, false⟩, c, row, .twoVarCProduct s sp op⟩)
        (fun _ => rfl) (fun _ _ => rfl) fun c hc => ?_⟩
      rw [run, hc]
      simp [hs]
    | true =>
      refine ⟨_, _, runFollows_twice
        (f := fun c => ⟨⟨!s.next.2.hasNext, true⟩, c, (row.set sp s.next.1.1).set op s.next.1.2, .twoVarCProduct s.next.2 sp op⟩)
        (g := fun c => ⟨.zero, c, row, .twoVarCProduct s.next.2 sp op⟩)
        (fun _ => rfl) (fun _ _ => rfl) (fun _ => rfl) fun c hc => ?_⟩
      rw [run, hc]
      cases ht : c.tick.2.tick.1 <;> simp [hs, ht]
  | oneVarIntersect wv s pos =>
    cases hband : s.getBandValue with
    | error e =>
      have hthrow : (oneVarIntersect wv s pos : BGPOp T).run ops (counting k) row = .error e := by
        simp [run, tick_counting, hband]
      rw [hthrow] at h
      cases h
    | ok b =>
      refine ⟨_, _, runFollows_once
        (f := fun c => ⟨⟨true, ops.has s.tree (place wv b (row.val pos))⟩, c, row, .oneVarIntersect wv s pos⟩)
        (fun _ => rfl) (fun _ _ => rfl) fun c hc => ?_⟩
      rw [run, hc]
      cases wv <;> simp [hband, place]
  | oneVarCP wv s pos =>
    cases hs : s.hasNext with
    | false =>
      refine ⟨_, _, runFollows_once (f := fun c => ⟨⟨true, false⟩, c, row, .oneVarCP wv s pos⟩)
        (fun _ => rfl) (fun _ _ => rfl) fun c hc => ?_⟩
      rw [run, hc]
      simp [hs]
    | true =>
      refine ⟨_, _, runFollows_twice
        (f := fun c => ⟨⟨!s.next.2.hasNext, true⟩, c, row.set pos (wv.pick s.next.1), .oneVarCP wv s.next.2 pos⟩)
        (g := fun c => ⟨⟨true, false⟩, c, row, .oneVarCP wv s.next.2 pos⟩)
        (fun _ => rfl) (fun _ _ => rfl) (fun _ => rfl) fun c hc => ?_⟩
      rw [run, hc]
      cases ht : c.tick.2.tick.1 <;> simp [hs, ht]
  | tripleExistence s a b =>
    refine ⟨_, _, runFollows_once (f := fun c => ⟨⟨true, ops.has s.tree (a, b)⟩, c, row, .tripleExistence s a b⟩)
      (fun _ => rfl) (fun _ _ => rfl) fun c hc => ?_⟩
    rw [run, hc]
    rfl

end BGPOp

/-! ## The iterator -/

namespace BGPIterator

/-- The iterator with another time control. -/
def withClock (it : BGPIterator T) (c : TimeControl) : BGPIterator T := { it with timeControl := c }

/-- What the loops leave alone, and the level they stay above. -/
structure Kept (it it' : BGPIterator T) : Prop where
  nextAvailable : it'.nextAvailable = it.nextAvailable
  nextValue : it'.nextValue = it.nextValue
  length : it'.bgpOps.length = it.bgpOps.length
  si : it'.si < it'.bgpOps.length

theorem Kept.trans {it it' it'' : BGPIterator T} (h : Kept it it') (h' : Kept it' it'') : Kept it it'' :=
  ⟨h'.nextAvailable.trans h.nextAvailable, h'.nextValue.trans h.nextValue, h'.length.trans h.length, h'.si⟩

/-- An iterator that was stopped on the way. -/
structure Stopped (it it' : BGPIterator T) : Prop extends Kept it it' where
  passed : it'.timeControl.timeHasPassed = true

/-- **A run beside one whose time control counts**: `x` is what the latter leaves, `y` what
the former does; `Q` is said of `y` if a tick failed. -/
structure Follows {α : Type} (c : TimeControl) (k : ℕ) (Q : Except Halt α × BGPIterator T → Prop)
    (x y : Except Halt α × BGPIterator T) (k' : ℕ) : Prop where
  clock : x.2.timeControl = counting k'
  le : k ≤ k'
  pass : c.Passes k k' → y = (x.1, x.2.withClock (c.after k'))
  stop : ¬ c.Passes k k' → Q y

variable {α β : Type} {c : TimeControl} {k : ℕ} {it it₀ it₁ : BGPIterator T}

/-- **Sequencing**: `G` is what `F` is on the side of `y`. -/
theorem Follows.bind {Q : Except Halt α × BGPIterator T → Prop} {R : Except Halt β × BGPIterator T → Prop}
    {x x' : Act Halt (BGPIterator T) α} {F G : α → Act Halt (BGPIterator T) β} {a : α} {k₁ k₂ : ℕ}
    (h : Follows c k Q (x it₀) (x' (it₀.withClock (c.after k))) k₁) (hx : x it₀ = (.ok a, it₁))
    (hF : Follows c k₁ R (F a it₁) (G a (it₁.withClock (c.after k₁))) k₂)
    (hQ : ∀ y, Q y → ∃ b s, y = (.ok b, s) ∧ R (G b s)) :
    Follows c k R ((x >>= F) it₀) ((x' >>= G) (it₀.withClock (c.after k))) k₂ := by
  rw [hx] at h
  rw [Act.bind_ok hx]
  refine ⟨hF.clock, h.le.trans hF.le, fun hp => ?_, fun hp => ?_⟩
  · rw [Act.bind_ok (h.pass (hp.left hF.le))]
    exact hF.pass (hp.right h.le)
  · by_cases h1 : c.Passes k k₁
    · rw [Act.bind_ok (h.pass h1)]
      exact hF.stop fun h2 => hp (h1.trans h2)
    · obtain ⟨b, s, hy, hR⟩ := hQ _ (h.stop h1)
      rw [Act.bind_ok hy]
      exact hR

/-- A tick. -/
theorem tick_follows (c : TimeControl) (h : it₀.timeControl = counting k) :
    tick it₀ = (.ok true, it₀.withClock (counting (k + 1))) ∧
      Follows c k (fun y => ∃ s, y = (.ok false, s) ∧ s = it₀.withClock (c.after (k + 1)) ∧ s.timeControl.timeHasPassed = true)
        (tick it₀) (tick (it₀.withClock (c.after k))) (k + 1) := by
  have hrun : tick it₀ = (.ok true, it₀.withClock (counting (k + 1))) := by
    simp only [tick, h, tick_counting, withClock]
  refine ⟨hrun, ?_⟩
  rw [hrun]
  refine ⟨rfl, Nat.le_succ k, fun hp => ?_, fun hp => ?_⟩
  · rw [passes_one] at hp
    simp only [tick, withClock, tick_after, hp]
  · rw [passes_one, Bool.not_eq_true] at hp
    refine ⟨_, ?_, rfl, passed_after hp⟩
    simp only [tick, withClock, tick_after, hp]

/-- A tick when the time is over. -/
theorem tick_of_passed (h : it.timeControl.timeHasPassed = true) :
    ∃ it', tick it = (.ok false, it') ∧ it' = it.withClock it.timeControl.tick.2 ∧ it'.timeControl.timeHasPassed = true := by
  obtain ⟨h1, h2⟩ := TimeControl.tick_of_passed h
  exact ⟨_, by simp only [tick, h1]; rfl, rfl, h2⟩

/-- The operator of the level. -/
theorem runOp_follows (c : TimeControl) (h : it₀.timeControl = counting k) (hsi : it₀.si < it₀.bgpOps.length) {r : RunResult}
    (hrun : runOp ops it₀ = (.ok r, it₁)) : ∃ k', Kept it₀ it₁ ∧
      Follows c k (fun y => ∃ r s, y = (.ok r, s) ∧ Stopped it₀ s) (.ok r, it₁) (runOp ops (it₀.withClock (c.after k))) k' := by
  unfold runOp at hrun
  cases hop : it₀.bgpOps[it₀.si.toNat]? with
  | none => simp [hop] at hrun
  | some o =>
    rw [hop, h] at hrun
    simp only at hrun
    cases hrn : o.run ops (counting k) it₀.tmpHolder with
    | error e => simp [hrn] at hrun
    | ok ran =>
      obtain ⟨k', hf⟩ := BGPOp.run_follows c hrn
      rw [hrn] at hrun
      obtain ⟨hr, rfl⟩ := Prod.mk.inj hrun
      obtain rfl : ran.result = r := Except.ok.inj hr
      refine ⟨k', ⟨rfl, rfl, by simp, by simpa using hsi⟩, hf.clock, hf.lt.le, fun hp => ?_, fun hp => ?_⟩
      · simp only [runOp, withClock, hop, hf.pass hp]
      · obtain ⟨ran', h1, h2⟩ := hf.stop hp
        refine ⟨ran'.result, { it₀ with
          timeControl := ran'.timeControl, tmpHolder := ran'.row, bgpOps := it₀.bgpOps.set it₀.si.toNat ran'.op }, ?_,
          ⟨rfl, rfl, by simp, by simpa using hsi⟩, h2⟩
        simp only [runOp, withClock, hop, h1]

/-- An operator when the time is over. -/
theorem runOp_of_passed (h : it.timeControl.timeHasPassed = true) (hsi : it.si < it.bgpOps.length) (h0 : 0 ≤ it.si) :
    ∃ r it', runOp ops it = (.ok r, it') ∧ Stopped it it' ∧ it'.si = it.si := by
  obtain ⟨h1, h2⟩ := TimeControl.tick_of_passed h
  have hop : it.bgpOps[it.si.toNat]? = some it.bgpOps[it.si.toNat] := List.getElem?_eq_getElem (by omega)
  refine ⟨.zero, { it with
    timeControl := it.timeControl.tick.2, bgpOps := it.bgpOps.set it.si.toNat it.bgpOps[it.si.toNat] }, ?_,
    ⟨⟨rfl, rfl, by simp, by simpa using hsi⟩, h2⟩, rfl⟩
  simp only [runOp, hop, BGPOp.run, h1, Bool.not_false, if_true]

theorem withClock_kept (h : it.si < it.bgpOps.length) (c : TimeControl) : Kept it (it.withClock c) := ⟨rfl, rfl, rfl, h⟩

theorem retreat_kept (h : it.si < it.bgpOps.length) : Kept it (it.retreat ops) := by
  refine ⟨rfl, rfl, by simp [retreat], ?_⟩
  show it.si - 1 < ((it.bgpOps.modify it.si.toNat (BGPOp.resetOp ops)).length : ℤ)
  rw [List.length_modify]
  omega

theorem markDone_kept (h : it.si < it.bgpOps.length) (r : RunResult) : Kept it (it.markDone r) := by
  unfold markDone
  split
  · exact ⟨rfl, rfl, rfl, h⟩
  · exact ⟨rfl, rfl, rfl, h⟩

theorem markDone_withClock (r : RunResult) (it : BGPIterator T) (c : TimeControl) :
    (it.withClock c).markDone r = (it.markDone r).withClock c := by
  unfold markDone
  split <;> rfl

theorem advance_withClock (r : RunResult) (it : BGPIterator T) (c : TimeControl) :
    (it.withClock c).advance r = (it.advance r).withClock c := by
  unfold advance
  split <;> rfl

theorem advance_kept {n : ℕ} (h : it.si < (n : ℤ) - 1) (hn : it.bgpOps.length = n) (r : RunResult) : Kept it (it.advance r) := by
  unfold advance
  split
  · exact ⟨rfl, rfl, rfl, by show it.si + 1 < (it.bgpOps.length : ℤ); omega⟩
  · exact ⟨rfl, rfl, rfl, by omega⟩

/-- What is left of the loops when the time is over. -/
def LoopStopped (it : BGPIterator T) (y : Except Halt Unit × BGPIterator T) : Prop := ∃ s, y = (.ok (), s) ∧ Stopped it s

theorem LoopStopped.mono {it it' : BGPIterator T} {y : Except Halt Unit × BGPIterator T} (hk : Kept it it')
    (h : LoopStopped it' y) : LoopStopped it y := by
  obtain ⟨s, hy, hs⟩ := h
  exact ⟨s, hy, hk.trans hs.toKept, hs.passed⟩

/-- **The loops of `ops_until_last`.** -/
theorem opsLoop_follows (c : TimeControl) {fuel fuel' : ℕ} (hfuel : fuel ≤ fuel') (h : it₀.timeControl = counting k)
    (hsi : it₀.si < it₀.bgpOps.length) (hrun : opsLoop ops fuel it₀ = (.ok (), it₁)) :
    ∃ k', Kept it₀ it₁ ∧ Follows c k (LoopStopped it₀) (opsLoop ops fuel it₀) (opsLoop ops fuel' (it₀.withClock (c.after k))) k' := by
  induction fuel generalizing fuel' k it₀ with
  | zero => simp [opsLoop] at hrun
  | succ fuel ih =>
    obtain ⟨fuel', rfl⟩ : ∃ j, fuel' = j + 1 := ⟨fuel' - 1, by omega⟩
    have hle : fuel ≤ fuel' := by omega
    by_cases hin : it₀.si < (it₀.bgpOps.length : ℤ) - 1 ∧ 0 ≤ it₀.si
    · cases hfin : it₀.finished with
      | true =>
        -- the level is left, without a tick
        have hstep : ∀ (n : ℕ) (c : TimeControl), opsLoop ops (n + 1) (it₀.withClock c) =
            opsLoop ops n ((it₀.retreat ops).withClock c) := by
          intro n c
          have hin' : (it₀.withClock c).si < ((it₀.withClock c).bgpOps.length : ℤ) - 1 ∧ 0 ≤ (it₀.withClock c).si := hin
          rw [opsLoop, Act.get_bind, if_pos hin', if_pos (show (it₀.withClock c).finished = true from hfin)]
          rfl
        have hself : it₀ = it₀.withClock (counting k) := by rw [withClock, ← h]
        have hself' : (it₀.retreat ops).withClock (counting k) = it₀.retreat ops := by rw [withClock, ← h]; rfl
        have h0 : opsLoop ops (fuel + 1) it₀ = opsLoop ops fuel (it₀.retreat ops) := by
          rw [hself, hstep, hself', ← hself]
        have hk : Kept it₀ (it₀.retreat ops) := retreat_kept hsi
        rw [h0] at hrun ⊢
        obtain ⟨k', hk', hf⟩ := ih hle (show (it₀.retreat ops).timeControl = counting k from h) hk.si hrun
        refine ⟨k', hk.trans hk', ?_⟩
        rw [hstep]
        exact ⟨hf.clock, hf.le, hf.pass, fun hp => (hf.stop hp).mono hk⟩
      | false =>
        set F : ℕ → RunResult → Act Halt (BGPIterator T) Unit := fun n r => do
          let go ← tick
          if go then do
            Act.modify fun it => advance r (markDone r it)
            opsLoop ops n
          else pure () with hF
        have hstep : ∀ (n : ℕ) (c : TimeControl), opsLoop ops (n + 1) (it₀.withClock c) =
            (runOp ops >>= F n) (it₀.withClock c) := by
          intro n c
          have hin' : (it₀.withClock c).si < ((it₀.withClock c).bgpOps.length : ℤ) - 1 ∧ 0 ≤ (it₀.withClock c).si := hin
          have hnot : ¬ (it₀.withClock c).finished = true := by
            show ¬ it₀.finished = true
            rw [hfin]
            simp
          rw [opsLoop, Act.get_bind, if_pos hin', if_neg hnot]
        have hself : it₀ = it₀.withClock (counting k) := by rw [withClock, ← h]
        have h0 : opsLoop ops (fuel + 1) it₀ = (runOp ops >>= F fuel) it₀ := by
          have := hstep fuel (counting k)
          rwa [← hself] at this
        rw [h0] at hrun ⊢
        rw [hstep]
        obtain ⟨r, it₂, hr, hrest⟩ := Act.bind_eq_ok hrun
        obtain ⟨k₁, hk₁, hf₁⟩ := runOp_follows c h hsi hr
        have hclock : it₂.timeControl = counting k₁ := hf₁.clock
        obtain ⟨ht, hf₂⟩ := tick_follows c hclock
        obtain ⟨go, it₃, hgo, hrest⟩ := Act.bind_eq_ok hrest
        rw [ht] at hgo
        obtain ⟨hgo', rfl⟩ := Prod.mk.inj hgo
        obtain rfl : true = go := Except.ok.inj hgo'
        -- the level after the run
        set it₄ := advance r (markDone r (it₂.withClock (counting (k₁ + 1)))) with hit₄
        have hk₃ : Kept it₂ (markDone r (it₂.withClock (counting (k₁ + 1)))) :=
          (withClock_kept hk₁.si _).trans (markDone_kept (withClock_kept hk₁.si (counting (k₁ + 1))).si r)
        have hmark : it₂.si = it₀.si := by
          unfold runOp at hr
          split at hr
          · simp at hr
          · split at hr
            · simp at hr
            · rw [← (Prod.mk.inj hr).2]
        have hk₄ : Kept it₀ it₄ := by
          refine (hk₁.trans hk₃).trans (advance_kept (n := it₀.bgpOps.length) ?_ (hk₃.length.trans hk₁.length) r)
          have : (markDone r (it₂.withClock (counting (k₁ + 1)))).si = it₂.si := by unfold markDone; split <;> rfl
          rw [this, hmark]
          exact hin.1
        have hclock₄ : it₄.timeControl = counting (k₁ + 1) := by
          rw [hit₄, markDone_withClock, advance_withClock]
          rfl
        obtain ⟨k', hk', hf⟩ := ih hle hclock₄ hk₄.si hrest
        refine ⟨k', hk₄.trans hk', ?_⟩
        have hfF : Follows c k₁ (LoopStopped it₀) (F fuel r it₂) (F fuel' r (it₂.withClock (c.after k₁))) k' := by
          refine hf₂.bind ht (?_ : Follows c (k₁ + 1) _ _ _ k') ?_
          · have hw : advance r (markDone r ((it₂.withClock (counting (k₁ + 1))).withClock (c.after (k₁ + 1)))) =
                it₄.withClock (c.after (k₁ + 1)) := by
              rw [hit₄, markDone_withClock, advance_withClock]
            refine ⟨hf.clock, hf.le, fun hp => ?_, fun hp => ?_⟩
            · simp only [if_true, Act.modify_bind, hw]
              exact hf.pass hp
            · simp only [if_true, Act.modify_bind, hw]
              exact (hf.stop hp).mono hk₄
          · rintro y ⟨s, rfl, rfl, hs⟩
            exact ⟨false, _, rfl, _, rfl, hk₁.trans (withClock_kept hk₁.si _), hs⟩
        rw [← hr] at hf₁
        refine hf₁.bind hr hfF ?_
        rintro y ⟨r', s, rfl, hs⟩
        obtain ⟨s', hs', rfl, hs''⟩ := tick_of_passed hs.passed
        refine ⟨r', s, rfl, _, ?_, hs.toKept.trans (withClock_kept hs.si _), hs''⟩
        exact (Act.bind_ok hs').trans rfl
    · -- the loop ends
      have hstep : ∀ (n : ℕ) (c : TimeControl), opsLoop ops (n + 1) (it₀.withClock c) = (.ok (), it₀.withClock c) := by
        intro n c
        have hin' : ¬ ((it₀.withClock c).si < ((it₀.withClock c).bgpOps.length : ℤ) - 1 ∧ 0 ≤ (it₀.withClock c).si) := hin
        rw [opsLoop, Act.get_bind, if_neg hin']
        rfl
      have hself : it₀ = it₀.withClock (counting k) := by rw [withClock, ← h]
      have h0 : opsLoop ops (fuel + 1) it₀ = (.ok (), it₀) := by
        have := hstep fuel (counting k)
        rwa [← hself] at this
      rw [h0] at hrun ⊢
      obtain ⟨-, rfl⟩ := Prod.mk.inj hrun
      refine ⟨k, ⟨rfl, rfl, rfl, hsi⟩, h, le_rfl, fun _ => hstep _ _, fun hp => absurd (fun j hj hj' => ?_) hp⟩
      omega

/-- `ops_until_last`. -/
theorem opsUntilLast_follows (c : TimeControl) {fuel fuel' : ℕ} (hfuel : fuel ≤ fuel') (h : it₀.timeControl = counting k)
    (hsi : it₀.si < it₀.bgpOps.length) (hrun : opsUntilLast ops fuel it₀ = (.ok (), it₁)) :
    ∃ k', Kept it₀ it₁ ∧
      Follows c k (LoopStopped it₀) (opsUntilLast ops fuel it₀) (opsUntilLast ops fuel' (it₀.withClock (c.after k))) k' := by
  obtain ⟨ht, hf₁⟩ := tick_follows c h
  have hk := withClock_kept hsi (counting (k + 1))
  have hrest : opsLoop ops fuel (it₀.withClock (counting (k + 1))) = (.ok (), it₁) := by
    rw [opsUntilLast, Act.bind_ok ht] at hrun
    exact hrun
  obtain ⟨k', hk', hf₂⟩ := opsLoop_follows c hfuel
    (show (it₀.withClock (counting (k + 1))).timeControl = counting (k + 1) from rfl) hk.si hrest
  refine ⟨k', hk.trans hk', hf₁.bind ht ⟨hf₂.clock, hf₂.le, hf₂.pass, fun hp => (hf₂.stop hp).mono hk⟩ ?_⟩
  rintro y ⟨s, rfl, rfl, hs⟩
  exact ⟨false, _, rfl, _, rfl, withClock_kept hsi _, hs⟩

/-- A round of `next_concrete`, from behind `ops_until_last`. -/
def nextRound (ops : TreeOps T) (fuel : ℕ) : Act Halt (BGPIterator T) Unit := do
  let it ← Act.get
  if it.si < 0 then Act.modify fun it => { it with nextAvailable := false }
  else if it.finished then do
    Act.modify (retreat ops)
    nextLoop ops fuel
  else do
    let r ← runOp ops
    let go ← tick
    if go then do
      Act.modify (markDone r)
      if r.validValue then Act.modify fun it => { it with nextValue := it.tmpHolder, nextAvailable := true }
      else nextLoop ops fuel
    else pure ()

theorem nextLoop_succ (fuel : ℕ) : nextLoop ops (fuel + 1) = (opsUntilLast ops (fuel + 1) >>= fun _ => nextRound ops fuel) := rfl

/-- The loop of `next_concrete` was given up: no row is ready. -/
def GivesUp (y : Except Halt Unit × BGPIterator T) : Prop := ∃ s, y = (.ok (), s) ∧ s.nextAvailable = false

/-- **When the time is over**, the loop leaves the levels that are finished, and ends. -/
theorem nextLoop_of_passed {fuel : ℕ} (h : it.timeControl.timeHasPassed = true) (hnext : it.nextAvailable = false)
    (hsi : it.si < it.bgpOps.length) (hfuel : it.si + 2 ≤ fuel) (hpos : 1 ≤ fuel) : GivesUp (nextLoop ops fuel it) := by
  induction fuel generalizing it with
  | zero => omega
  | succ fuel ih =>
    obtain ⟨it', ht, rfl, hp⟩ := tick_of_passed h
    have huntil : opsUntilLast ops (fuel + 1) it = (.ok (), it.withClock it.timeControl.tick.2) := by
      rw [opsUntilLast, Act.bind_ok ht]
      rfl
    rw [nextLoop_succ, Act.bind_ok huntil, nextRound, Act.get_bind]
    set s := it.withClock it.timeControl.tick.2 with hs
    by_cases h0 : s.si < 0
    · rw [if_pos h0]
      exact ⟨_, rfl, rfl⟩
    · rw [if_neg h0]
      cases hfin : s.finished with
      | true =>
        rw [if_pos rfl]
        have hk : Kept s (s.retreat ops) := retreat_kept hsi
        have hsi' : (s.retreat ops).si = it.si - 1 := rfl
        have h0' : ¬ it.si < 0 := h0
        push_cast at hfuel
        exact ih (show (s.retreat ops).timeControl.timeHasPassed = true from hp) hnext hk.si (by omega) (by omega)
      | false =>
        rw [if_neg (by simp)]
        obtain ⟨r, it₂, hr, hstop, -⟩ := @runOp_of_passed T ops _ hp hsi (not_lt.1 h0)
        obtain ⟨it₃, ht₃, rfl, -⟩ := tick_of_passed hstop.passed
        rw [Act.bind_ok hr, Act.bind_ok ht₃]
        exact ⟨_, rfl, hstop.nextAvailable.trans hnext⟩

theorem nextRound_of_passed {fuel : ℕ} (h : it.timeControl.timeHasPassed = true) (hnext : it.nextAvailable = false)
    (hsi : it.si < it.bgpOps.length) (hfuel : (it.bgpOps.length : ℤ) ≤ fuel) : GivesUp (nextRound ops fuel it) := by
  rw [nextRound, Act.get_bind]
  by_cases h0 : it.si < 0
  · rw [if_pos h0]
    exact ⟨_, rfl, rfl⟩
  · rw [if_neg h0]
    cases hfin : it.finished with
    | true =>
      rw [if_pos rfl]
      have hk : Kept it (it.retreat ops) := retreat_kept hsi
      have hsi' : (it.retreat ops).si = it.si - 1 := rfl
      exact nextLoop_of_passed (show (it.retreat ops).timeControl.timeHasPassed = true from h) hnext hk.si (by omega) (by omega)
    | false =>
      rw [if_neg (by simp)]
      obtain ⟨r, it₂, hr, hstop, -⟩ := @runOp_of_passed T ops _ h hsi (not_lt.1 h0)
      obtain ⟨it₃, ht₃, rfl, -⟩ := tick_of_passed hstop.passed
      rw [Act.bind_ok hr, Act.bind_ok ht₃]
      exact ⟨_, rfl, hstop.nextAvailable.trans hnext⟩

/-- The levels are those of `it`, and the iterator stays above the last one. -/
structure InRange (it it' : BGPIterator T) : Prop where
  length : it'.bgpOps.length = it.bgpOps.length
  si : it'.si < it'.bgpOps.length

theorem Kept.inRange {it it' : BGPIterator T} (h : Kept it it') : InRange it it' := ⟨h.length, h.si⟩

theorem InRange.trans {it it' it'' : BGPIterator T} (h : InRange it it') (h' : InRange it' it'') : InRange it it'' :=
  ⟨h'.length.trans h.length, h'.si⟩

/-- **The loop of `next_concrete`.** -/
theorem nextLoop_follows (c : TimeControl) {fuel fuel' : ℕ} (hfuel : fuel + it₀.bgpOps.length ≤ fuel')
    (h : it₀.timeControl = counting k) (hnext : it₀.nextAvailable = false) (hsi : it₀.si < it₀.bgpOps.length)
    (hrun : nextLoop ops fuel it₀ = (.ok (), it₁)) :
    ∃ k', InRange it₀ it₁ ∧ Follows c k GivesUp (nextLoop ops fuel it₀) (nextLoop ops fuel' (it₀.withClock (c.after k))) k' := by
  induction fuel generalizing fuel' k it₀ with
  | zero => simp [nextLoop] at hrun
  | succ fuel ih =>
    obtain ⟨fuel', rfl⟩ : ∃ j, fuel' = j + 1 := ⟨fuel' - 1, by omega⟩
    rw [nextLoop_succ] at hrun ⊢
    rw [nextLoop_succ]
    obtain ⟨_, it₂, huntil, hrest⟩ := Act.bind_eq_ok hrun
    obtain ⟨k₁, hk₁, hf₁⟩ := opsUntilLast_follows c (show fuel + 1 ≤ fuel' + 1 by omega) h hsi huntil
    have hclock : it₂.timeControl = counting k₁ := by
      have := hf₁.clock
      rwa [huntil] at this
    have hlen := hk₁.length
    have hnext₂ : it₂.nextAvailable = false := hk₁.nextAvailable.trans hnext
    -- the rest of the round
    suffices hround : ∃ k', InRange it₂ it₁ ∧
        Follows c k₁ GivesUp (nextRound ops fuel it₂) (nextRound ops fuel' (it₂.withClock (c.after k₁))) k' by
      obtain ⟨k', hr, hf⟩ := hround
      refine ⟨k', hk₁.inRange.trans hr, hf₁.bind huntil hf ?_⟩
      rintro y ⟨s, rfl, hs⟩
      exact ⟨(), s, rfl, nextRound_of_passed hs.passed (hs.nextAvailable.trans hnext) hs.si (by rw [hs.length]; omega)⟩
    by_cases h0 : it₂.si < 0
    · have hstep : ∀ (n : ℕ) (c : TimeControl), nextRound ops n (it₂.withClock c) =
          (.ok (), ({ it₂ with nextAvailable := false } : BGPIterator T).withClock c) := by
        intro n c
        rw [nextRound, Act.get_bind, if_pos (show (it₂.withClock c).si < 0 from h0)]
        rfl
      have hself : it₂ = it₂.withClock (counting k₁) := by rw [withClock, ← hclock]
      have h0 : nextRound ops fuel it₂ = (.ok (), { it₂ with nextAvailable := false }) := by
        have := hstep fuel (counting k₁)
        rw [← hself] at this
        rw [this, withClock, ← hclock]
      rw [h0] at hrest ⊢
      obtain ⟨-, rfl⟩ := Prod.mk.inj hrest
      refine ⟨k₁, ⟨rfl, hk₁.si⟩, hclock, le_rfl, fun _ => hstep _ _, fun hp => absurd (fun j hj hj' => ?_) hp⟩
      omega
    · cases hfin : it₂.finished with
      | true =>
        have hstep : ∀ (n : ℕ) (c : TimeControl), nextRound ops n (it₂.withClock c) =
            nextLoop ops n ((it₂.retreat ops).withClock c) := by
          intro n c
          rw [nextRound, Act.get_bind, if_neg (show ¬ (it₂.withClock c).si < 0 from h0),
            if_pos (show (it₂.withClock c).finished = true from hfin)]
          rfl
        have hself : it₂ = it₂.withClock (counting k₁) := by rw [withClock, ← hclock]
        have hself' : (it₂.retreat ops).withClock (counting k₁) = it₂.retreat ops := by rw [withClock, ← hclock]; rfl
        have h0 : nextRound ops fuel it₂ = nextLoop ops fuel (it₂.retreat ops) := by
          rw [hself, hstep, hself', ← hself]
        have hk : Kept it₂ (it₂.retreat ops) := retreat_kept hk₁.si
        rw [h0] at hrest ⊢
        obtain ⟨k', hr, hf⟩ := ih (show fuel + (it₂.retreat ops).bgpOps.length ≤ fuel' by rw [hk.length]; omega)
          hclock hnext₂ hk.si hrest
        refine ⟨k', hk.inRange.trans hr, ?_⟩
        rw [hstep]
        exact hf
      | false =>
        set F : ℕ → RunResult → Act Halt (BGPIterator T) Unit := fun n r => do
          let go ← tick
          if go then do
            Act.modify (markDone r)
            if r.validValue then Act.modify fun it => { it with nextValue := it.tmpHolder, nextAvailable := true }
            else nextLoop ops n
          else pure () with hF
        have hstep : ∀ (n : ℕ) (c : TimeControl), nextRound ops n (it₂.withClock c) = (runOp ops >>= F n) (it₂.withClock c) := by
          intro n c
          have hnot : ¬ (it₂.withClock c).finished = true := by
            show ¬ it₂.finished = true
            rw [hfin]
            simp
          rw [nextRound, Act.get_bind, if_neg (show ¬ (it₂.withClock c).si < 0 from h0), if_neg hnot]
        have hself : it₂ = it₂.withClock (counting k₁) := by rw [withClock, ← hclock]
        have h0 : nextRound ops fuel it₂ = (runOp ops >>= F fuel) it₂ := by
          have := hstep fuel (counting k₁)
          rwa [← hself] at this
        rw [h0] at hrest ⊢
        rw [hstep]
        obtain ⟨r, it₃, hr, hrest⟩ := Act.bind_eq_ok hrest
        obtain ⟨k₂, hk₂, hf₂⟩ := runOp_follows c hclock hk₁.si hr
        have hclock₃ : it₃.timeControl = counting k₂ := hf₂.clock
        obtain ⟨ht, hf₃⟩ := tick_follows c hclock₃
        obtain ⟨go, it₄, hgo, hrest⟩ := Act.bind_eq_ok hrest
        rw [ht] at hgo
        obtain ⟨hgo', rfl⟩ := Prod.mk.inj hgo
        obtain rfl : true = go := Except.ok.inj hgo'
        set it₅ := markDone r (it₃.withClock (counting (k₂ + 1))) with hit₅
        have hk₅ : Kept it₂ it₅ :=
          hk₂.trans ((withClock_kept hk₂.si _).trans (markDone_kept (withClock_kept hk₂.si (counting (k₂ + 1))).si r))
        have hclock₅ : it₅.timeControl = counting (k₂ + 1) := by
          rw [hit₅, markDone_withClock]
          rfl
        have hw : ∀ c, markDone r ((it₃.withClock (counting (k₂ + 1))).withClock c) = it₅.withClock c := by
          intro c
          rw [hit₅, markDone_withClock]
        -- a row is ready, or the loop goes on
        suffices hend : ∃ k', InRange it₂ it₁ ∧ Follows c (k₂ + 1) GivesUp
            ((if r.validValue then Act.modify fun it => { it with nextValue := it.tmpHolder, nextAvailable := true }
              else nextLoop ops fuel) it₅)
            ((if r.validValue then Act.modify fun it => { it with nextValue := it.tmpHolder, nextAvailable := true }
              else nextLoop ops fuel') (it₅.withClock (c.after (k₂ + 1)))) k' by
          obtain ⟨k', hrange, hf⟩ := hend
          refine ⟨k', hrange, ?_⟩
          have hfF : Follows c k₂ GivesUp (F fuel r it₃) (F fuel' r (it₃.withClock (c.after k₂))) k' := by
            refine hf₃.bind ht (?_ : Follows c (k₂ + 1) _ _ _ k') ?_
            · refine ⟨hf.clock, hf.le, fun hp => ?_, fun hp => ?_⟩
              · simp only [if_true, Act.modify_bind, hw]
                exact hf.pass hp
              · simp only [if_true, Act.modify_bind, hw]
                exact hf.stop hp
            · rintro y ⟨s, rfl, rfl, -⟩
              exact ⟨false, _, rfl, _, rfl, hk₂.nextAvailable.trans hnext₂⟩
          rw [← hr] at hf₂
          refine hf₂.bind hr hfF ?_
          rintro y ⟨r', s, rfl, hs⟩
          obtain ⟨s', hs', rfl, -⟩ := tick_of_passed hs.passed
          refine ⟨r', s, rfl, _, (Act.bind_ok hs').trans rfl, ?_⟩
          exact hs.nextAvailable.trans hnext₂
        simp only [if_true, Act.modify_bind, ← hit₅] at hrest
        cases hv : r.validValue with
        | true =>
          rw [hv] at hrest
          simp only [if_true, Act.modify_run, Prod.mk.injEq, true_and] at hrest ⊢
          subst hrest
          refine ⟨k₂ + 1, ⟨hk₅.length, hk₅.si⟩, hclock₅, le_rfl, fun _ => rfl, fun hp => absurd (fun j hj hj' => ?_) hp⟩
          omega
        | false =>
          rw [hv] at hrest
          simp only [Bool.false_eq_true, if_false] at hrest ⊢
          obtain ⟨k', hrange, hf⟩ := ih (show fuel + it₅.bgpOps.length ≤ fuel' by rw [hk₅.length]; omega) hclock₅
            (hk₅.nextAvailable.trans hnext₂) hk₅.si hrest
          exact ⟨k', hk₅.inRange.trans hrange, hf⟩

/-! ## next -/

/-- **`next_concrete`**: it does the same, or makes no row ready, or, when its first tick
fails, leaves the row it returned. -/
theorem nextConcrete_follows (c : TimeControl) {fuel : ℕ} {row : Row} (h : it₀.timeControl = counting k)
    (hsi : it₀.si < it₀.bgpOps.length) (hrun : nextConcrete ops fuel it₀ = (.ok row, it₁)) :
    row = it₀.nextValue ∧ ∃ k', InRange it₀ it₁ ∧ it₁.timeControl = counting k' ∧ k + 1 ≤ k' ∧
      ∀ fuel', fuel + it₀.bgpOps.length ≤ fuel' →
        (c.Passes k k' → nextConcrete ops fuel' (it₀.withClock (c.after k)) = (.ok row, it₁.withClock (c.after k'))) ∧
        (c.passes k = true → ¬ c.Passes k k' → ∃ s, nextConcrete ops fuel' (it₀.withClock (c.after k)) = (.ok row, s) ∧
          s.nextAvailable = false) ∧
        (c.passes k = false → nextConcrete ops fuel' (it₀.withClock (c.after k)) =
          (.ok row, it₀.withClock (c.after (k + 1)))) := by
  obtain ⟨ht, hf₁⟩ := tick_follows c h
  set it₂ : BGPIterator T := { it₀.withClock (counting (k + 1)) with nextAvailable := false } with hit₂
  -- what follows the first tick
  have hstep : ∀ (n : ℕ) (s s' : BGPIterator T), tick s = (.ok true, s') → nextConcrete ops n s =
      (nextLoop ops n >>= fun _ => pure s'.nextValue) { s' with nextAvailable := false } := by
    intro n s s' hs
    rw [nextConcrete, Act.bind_ok hs]
    rfl
  rw [hstep fuel _ _ ht] at hrun
  obtain ⟨_, it₃, hloop, hpure⟩ := Act.bind_eq_ok hrun
  obtain ⟨hrow, hit⟩ := Prod.mk.inj hpure
  subst hit
  obtain rfl : it₀.nextValue = row := Except.ok.inj hrow
  obtain ⟨k', hr, hf₂⟩ := nextLoop_follows c (show fuel + it₂.bgpOps.length ≤ _ from le_rfl) rfl rfl hsi hloop
  have hclock : it₃.timeControl = counting k' := by
    have := hf₂.clock
    rwa [hloop] at this
  refine ⟨rfl, k', ⟨hr.length, hr.si⟩, hclock, hf₂.le, fun fuel' hfuel' => ⟨fun hp => ?_, fun hk hp => ?_, fun hk => ?_⟩⟩
  all_goals
    obtain ⟨k'', -, hf⟩ := nextLoop_follows c (show fuel + it₂.bgpOps.length ≤ fuel' from hfuel') rfl rfl hsi hloop
    have hclock' := hf.clock
    rw [hloop, hclock] at hclock'
    obtain rfl := counting_inj hclock'
  · have htick : tick (it₀.withClock (c.after k)) = (.ok true, it₀.withClock (c.after (k + 1))) := by
      have := hp k le_rfl (by have := hf.le; omega)
      simp only [tick, withClock, tick_after, this]
    have hl := hf.pass (hp.right (Nat.le_succ k))
    rw [hloop] at hl
    rw [hstep fuel' _ _ htick]
    exact Act.bind_ok hl
  · have htick : tick (it₀.withClock (c.after k)) = (.ok true, it₀.withClock (c.after (k + 1))) := by
      simp only [tick, withClock, tick_after, hk]
    obtain ⟨s, hs, hs'⟩ := hf.stop fun hp' => hp ((passes_one.2 hk).trans hp')
    refine ⟨s, ?_, hs'⟩
    rw [hstep fuel' _ _ htick]
    exact Act.bind_ok hs
  · have htick : tick (it₀.withClock (c.after k)) = (.ok false, it₀.withClock (c.after (k + 1))) := by
      simp only [tick, withClock, tick_after, hk]
    rw [nextConcrete, Act.bind_ok htick]
    rfl

/-- The ticks `next` starts with, in the loop over the rows. -/
def nextStarts (ops : TreeOps T) (fuel : ℕ) : ℕ → BGPIterator T → List ℕ
  | 0, _ => []
  | n + 1, it => if it.hasNext then it.timeControl.looks :: nextStarts ops fuel n (next ops fuel it).2 else []

/-- **A row that is never taken back**: the loop does not end. -/
theorem drain_stuck {fuel n : ℕ} (h : it.timeControl.timeHasPassed = true) (hnext : it.nextAvailable = true) :
    ∃ s, drain ops fuel n it = (.error .outOfFuel, s) := by
  induction n generalizing it with
  | zero => exact ⟨it, rfl⟩
  | succ n ih =>
    obtain ⟨it', ht, rfl, hp⟩ := tick_of_passed h
    have hn : next ops fuel it = (.ok it.nextValue, it.withClock it.timeControl.tick.2) := by
      rw [next, nextConcrete, Act.bind_ok ht]
      rfl
    obtain ⟨s, hs⟩ := ih (show (it.withClock it.timeControl.tick.2).timeControl.timeHasPassed = true from hp) hnext
    refine ⟨s, ?_⟩
    rw [drain, Act.get_bind, hasNext, if_pos hnext, Act.bind_ok hn]
    exact Act.bind_error hs

theorem drain_done {fuel n : ℕ} (hnext : it.nextAvailable = false) : drain ops fuel (n + 1) it = (.ok [], it) := by
  rw [drain, Act.get_bind, hasNext, if_neg (by rw [hnext]; simp)]
  rfl

/-- **The loop over the rows**, as far as the first tick that fails is not one `next` starts
with. -/
theorem drain_truncates (c : TimeControl) {fuel n : ℕ} {rows : List Row} (h : it₀.timeControl = counting k)
    (hsi : it₀.si < it₀.bgpOps.length) (hpass : c.Passes 0 k) (hrun : drain ops fuel n it₀ = (.ok rows, it₁))
    (hstarts : ∀ j ∈ nextStarts ops fuel n it₀, ¬ c.FirstFails j) :
    ∃ rows', rows' <+: rows ∧ ∀ fuel' n', fuel + it₀.bgpOps.length ≤ fuel' → n < n' →
      ∃ s, drain ops fuel' n' (it₀.withClock (c.after k)) = (.ok rows', s) := by
  induction n generalizing k it₀ it₁ rows with
  | zero => simp [drain] at hrun
  | succ n ih =>
    cases hnext : it₀.nextAvailable with
    | false =>
      rw [drain_done hnext] at hrun
      obtain ⟨hrows, -⟩ := Prod.mk.inj hrun
      obtain rfl : [] = rows := Except.ok.inj hrows
      refine ⟨[], List.nil_prefix, fun fuel' n' _ hn => ?_⟩
      obtain ⟨n', rfl⟩ : ∃ j, n' = j + 1 := ⟨n' - 1, by omega⟩
      exact ⟨_, drain_done hnext⟩
    | true =>
      have hdrain : ∀ (fuel n : ℕ) (it : BGPIterator T), it.nextAvailable = true → drain ops fuel (n + 1) it =
          (next ops fuel >>= fun row => drain ops fuel n >>= fun rows => pure (row :: rows)) it := by
        intro fuel n it hit
        rw [drain, Act.get_bind, hasNext, if_pos hit]
      rw [hdrain fuel n it₀ hnext] at hrun
      obtain ⟨row, it₂, hrow, hrest⟩ := Act.bind_eq_ok hrun
      obtain ⟨rows₂, it₃, hrows, hpure⟩ := Act.bind_eq_ok hrest
      obtain ⟨hcons, -⟩ := Prod.mk.inj hpure
      obtain rfl : row :: rows₂ = rows := Except.ok.inj hcons
      have hnot : ¬ c.FirstFails k := by
        refine hstarts k ?_
        rw [nextStarts, hasNext, if_pos hnext, h]
        exact List.mem_cons_self
      have hk : c.passes k = true := by
        by_contra hfail
        exact hnot ⟨fun j hj => hpass j (Nat.zero_le j) hj, by simpa using hfail⟩
      obtain ⟨-, k', hr, hclock, hle, hfollow⟩ := nextConcrete_follows c h hsi hrow
      by_cases hp : c.Passes k k'
      · have hstarts' : ∀ j ∈ nextStarts ops fuel n it₂, ¬ c.FirstFails j := by
          intro j hj
          refine hstarts j ?_
          rw [nextStarts, hasNext, if_pos hnext, hrow]
          exact List.mem_cons_of_mem _ hj
        obtain ⟨rows', hpre, hall⟩ := ih hclock hr.si (hpass.trans hp) hrows hstarts'
        refine ⟨row :: rows', List.cons_prefix_cons.2 ⟨rfl, hpre⟩, fun fuel' n' hf hn => ?_⟩
        obtain ⟨n', rfl⟩ : ∃ j, n' = j + 1 := ⟨n' - 1, by omega⟩
        obtain ⟨s, hs⟩ := hall fuel' n' (by rw [hr.length]; exact hf) (by omega)
        refine ⟨s, ?_⟩
        have hrow' : next ops fuel' (it₀.withClock (c.after k)) = (.ok row, it₂.withClock (c.after k')) := (hfollow fuel' hf).1 hp
        rw [hdrain fuel' n' _ (show (it₀.withClock (c.after k)).nextAvailable = true from hnext), Act.bind_ok hrow',
          Act.bind_ok hs]
        rfl
      · refine ⟨[row], List.cons_prefix_cons.2 ⟨rfl, List.nil_prefix⟩, fun fuel' n' hf hn => ?_⟩
        obtain ⟨n', rfl⟩ : ∃ j, n' = j + 2 := ⟨n' - 2, by omega⟩
        obtain ⟨s, hs, hs'⟩ := (hfollow fuel' hf).2.1 hk hp
        have hrow' : next ops fuel' (it₀.withClock (c.after k)) = (.ok row, s) := hs
        refine ⟨s, ?_⟩
        rw [hdrain fuel' (n' + 1) _ (show (it₀.withClock (c.after k)).nextAvailable = true from hnext), Act.bind_ok hrow',
          Act.bind_ok (drain_done hs')]
        rfl

/-- Later calls start later. -/
theorem nextStarts_ge {fuel n : ℕ} {rows : List Row} (h : it₀.timeControl = counting k) (hsi : it₀.si < it₀.bgpOps.length)
    (hrun : drain ops fuel n it₀ = (.ok rows, it₁)) {j : ℕ} (hj : j ∈ nextStarts ops fuel n it₀) : k ≤ j := by
  induction n generalizing k it₀ it₁ rows with
  | zero => simp [nextStarts] at hj
  | succ n ih =>
    rw [nextStarts] at hj
    cases hnext : it₀.hasNext with
    | false =>
      rw [hnext] at hj
      simp at hj
    | true =>
      rw [hnext, if_pos rfl, h] at hj
      rw [drain, Act.get_bind, if_pos hnext] at hrun
      obtain ⟨row, it₂, hrow, hrest⟩ := Act.bind_eq_ok hrun
      obtain ⟨rows₂, it₃, hrows, -⟩ := Act.bind_eq_ok hrest
      obtain ⟨-, k', hr, hclock, hle, -⟩ := nextConcrete_follows (counting 0) h hsi hrow
      rw [hrow] at hj
      rcases List.mem_cons.1 hj with rfl | hj
      · exact le_rfl
      · have := ih hclock hr.si hrows hj
        omega

/-- The loop over the rows, if the first tick that fails is one `next` starts with. -/
theorem drain_never_ends (c : TimeControl) {fuel n : ℕ} {rows : List Row} (h : it₀.timeControl = counting k)
    (hsi : it₀.si < it₀.bgpOps.length) (hrun : drain ops fuel n it₀ = (.ok rows, it₁)) {j : ℕ}
    (hj : j ∈ nextStarts ops fuel n it₀) (hfails : c.FirstFails j) :
    ∀ fuel' n', fuel + it₀.bgpOps.length ≤ fuel' → ∃ s, drain ops fuel' n' (it₀.withClock (c.after k)) = (.error .outOfFuel, s) := by
  induction n generalizing k it₀ it₁ rows with
  | zero => simp [nextStarts] at hj
  | succ n ih =>
    intro fuel' n' hf
    rw [nextStarts, hasNext] at hj
    cases hnext : it₀.nextAvailable with
    | false =>
      rw [hnext] at hj
      simp at hj
    | true =>
      rw [hnext, if_pos rfl, h] at hj
      cases n' with
      | zero => exact ⟨_, rfl⟩
      | succ n' =>
        have hdrain : ∀ (fuel n : ℕ) (it : BGPIterator T), it.nextAvailable = true → drain ops fuel (n + 1) it =
            (next ops fuel >>= fun row => drain ops fuel n >>= fun rows => pure (row :: rows)) it := by
          intro fuel n it hit
          rw [drain, Act.get_bind, hasNext, if_pos hit]
        rw [hdrain fuel n it₀ hnext] at hrun
        obtain ⟨row, it₂, hrow, hrest⟩ := Act.bind_eq_ok hrun
        obtain ⟨rows₂, it₃, hrows, -⟩ := Act.bind_eq_ok hrest
        obtain ⟨-, k', hr, hclock, hle, hfollow⟩ := nextConcrete_follows c h hsi hrow
        rw [hdrain fuel' n' _ (show (it₀.withClock (c.after k)).nextAvailable = true from hnext)]
        by_cases hjk : j = k
        · subst hjk
          obtain ⟨s, hs⟩ : ∃ s, drain ops fuel' n' (it₀.withClock (c.after (j + 1))) = (.error .outOfFuel, s) :=
            drain_stuck (passed_after hfails.2) hnext
          have hrow' : next ops fuel' (it₀.withClock (c.after j)) = (.ok row, it₀.withClock (c.after (j + 1))) :=
            (hfollow fuel' hf).2.2 hfails.2
          refine ⟨s, ?_⟩
          rw [Act.bind_ok hrow']
          exact Act.bind_error hs
        · have hj' : j ∈ nextStarts ops fuel n it₂ := by
            rw [hrow] at hj
            exact (List.mem_cons.1 hj).resolve_left hjk
          -- the ticks up to the next start come before the one that fails
          have hk'j : k' ≤ j := nextStarts_ge hclock hr.si hrows hj'
          have hp : c.Passes k k' := fun i hi hi' => hfails.1 i (by omega)
          obtain ⟨s, hs⟩ := ih hclock hr.si hrows hj' fuel' n' (by rw [hr.length]; exact hf)
          have hrow' : next ops fuel' (it₀.withClock (c.after k)) = (.ok row, it₂.withClock (c.after k')) := (hfollow fuel' hf).1 hp
          refine ⟨s, ?_⟩
          rw [Act.bind_ok hrow']
          exact Act.bind_error hs

/-- The constructor runs an operator: there is one. -/
theorem ne_nil_of_construct {os : List (BGPOp T)} {headers : List ℕ} {fuel : ℕ} {row : Row}
    (h : construct ops fuel os headers (counting 0) = (.ok row, it)) : os ≠ [] := by
  rintro rfl
  set it₀ : BGPIterator T := init [] headers (counting 0) with hit₀
  obtain ⟨ht, -⟩ := tick_follows (counting 0) (show it₀.timeControl = counting 0 from rfl)
  rw [construct, nextConcrete, ← hit₀, Act.bind_ok ht, Act.get_bind] at h
  simp only [if_true, Act.modify_bind] at h
  obtain ⟨_, s, hloop, -⟩ := Act.bind_eq_ok h
  cases fuel with
  | zero => simp [nextLoop] at hloop
  | succ fuel =>
    rw [nextLoop] at hloop
    obtain ⟨_, it₁, huntil, hrest⟩ := Act.bind_eq_ok hloop
    -- no level is below the last one
    have hlast : it₁.si = 0 ∧ it₁.bgpOps = [] ∧ it₁.finishedOps = [] := by
      obtain ⟨go, it₂, hgo, hops⟩ := Act.bind_eq_ok huntil
      rw [← (Prod.mk.inj hgo).2] at hops
      cases go with
      | false => rw [← (Prod.mk.inj hops).2]; exact ⟨rfl, rfl, rfl⟩
      | true =>
        rw [if_pos rfl, opsLoop, Act.get_bind, if_neg (by simp [hit₀, init, withClock])] at hops
        rw [← (Prod.mk.inj hops).2]
        exact ⟨rfl, rfl, rfl⟩
    obtain ⟨hsi, hbgp, hfin⟩ := hlast
    rw [Act.get_bind, if_neg (by omega), if_neg (by simp [finished, hfin])] at hrest
    obtain ⟨r, it₂, hrun, -⟩ := Act.bind_eq_ok hrest
    simp [runOp, hbgp] at hrun

/-- **What a query that was cancelled returns**: the loop over its rows ends, with the first
ones of `R`. -/
def Truncates (ops : TreeOps T) (os : List (BGPOp T)) (headers : List ℕ) (c : TimeControl) (R : List Row) : Prop :=
  ∃ rows, rows <+: R ∧ ∃ N, ∀ fuel, N ≤ fuel → ∃ row it it',
    construct ops fuel os headers c = (.ok row, it) ∧ drain ops fuel fuel it = (.ok rows, it')

variable {os : List (BGPOp T)} {headers : List ℕ} {fuel : ℕ} {row : Row} {R : List Row}

theorem init_si (h : os ≠ []) : (init os headers c).si < (init os headers c).bgpOps.length := by
  have := List.length_pos_iff.2 h
  show (0 : ℤ) < os.length
  omega

/-- A loop that does not end. -/
theorem not_truncates (hcon : construct ops fuel os headers (counting 0) = (.ok row, it₀))
    (hdrain : drain ops fuel fuel it₀ = (.ok R, it₁)) {j : ℕ} (hj : j ∈ nextStarts ops fuel fuel it₀)
    (hfails : c.FirstFails j) : ¬ Truncates ops os headers c R := by
  rintro ⟨rows, -, N, hN⟩
  obtain ⟨-, k', hr, hclock, -, hfollow⟩ := nextConcrete_follows c rfl (init_si (ne_nil_of_construct hcon)) hcon
  have hlen : it₀.bgpOps.length = os.length := hr.length
  have hk'j := nextStarts_ge hclock hr.si hdrain hj
  obtain ⟨row', it, it', hcon', hdrain'⟩ := hN (N + (fuel + os.length)) (by omega)
  have hcon'' := (hfollow (N + (fuel + os.length)) (by show fuel + os.length ≤ _; omega)).1 fun i _ hi => hfails.1 i (by omega)
  obtain rfl : it = it₀.withClock (c.after k') := (Prod.mk.inj (hcon'.symm.trans hcon'')).2
  obtain ⟨s, hs⟩ := drain_never_ends c hclock hr.si hdrain hj hfails (N + (fuel + os.length)) (N + (fuel + os.length))
    (by omega)
  exact absurd (Prod.mk.inj (hdrain'.symm.trans hs)).1 (by simp)

/-- **Cancelling a query** truncates its rows, if and only if the first tick that fails is
not one that a call of `next` in the loop starts with. -/
theorem truncates_iff (c : TimeControl) (hcon : construct ops fuel os headers (counting 0) = (.ok row, it₀))
    (hdrain : drain ops fuel fuel it₀ = (.ok R, it₁)) :
    Truncates ops os headers c R ↔ ∀ k ∈ nextStarts ops fuel fuel it₀, ¬ c.FirstFails k := by
  constructor
  · intro h j hj hfails
    exact not_truncates hcon hdrain hj hfails h
  · intro hstarts
    obtain ⟨-, k', hr, hclock, -, hfollow⟩ := nextConcrete_follows c rfl (init_si (ne_nil_of_construct hcon)) hcon
    have hlen : it₀.bgpOps.length = os.length := hr.length
    by_cases hp : c.Passes 0 k'
    · obtain ⟨rows, hpre, hall⟩ := drain_truncates c hclock hr.si hp hdrain hstarts
      refine ⟨rows, hpre, fuel + os.length + 1, fun fuel' hf => ?_⟩
      obtain ⟨s, hs⟩ := hall fuel' fuel' (by omega) (by omega)
      exact ⟨row, _, s, (hfollow fuel' (by show fuel + os.length ≤ _; omega)).1 hp, hs⟩
    · -- the constructor makes no row ready
      refine ⟨[], List.nil_prefix, fuel + os.length + 1, fun fuel' hf => ?_⟩
      obtain ⟨n, rfl⟩ : ∃ n, fuel' = n + 1 := ⟨fuel' - 1, by omega⟩
      have hall := hfollow (n + 1) (by show fuel + os.length ≤ _; omega)
      cases hk : c.passes 0 with
      | true =>
        obtain ⟨s, hs, hnext⟩ := hall.2.1 hk hp
        exact ⟨row, s, s, hs, drain_done hnext⟩
      | false => exact ⟨row, _, _, hall.2.2 hk, drain_done rfl⟩

end BGPIterator

namespace PointTree

/-- The operators of the chain `?x 5 ?y . ?y 6 ?z`. -/
def chainOps : List (BGPOp PointTree) :=
  [.twoVarCProduct (.create PointTree.ops (ofList [(1, 2), (1, 3), (4, 2)]) .full) 0 1,
    .twoVarJoinOne .subjectVar (.create PointTree.ops (ofList [(2, 7), (2, 8), (3, 9)]) .full) 1 2 none 0]

/-- A time control that looks at the clock each time, and finds the time over from the
`k`-th time on. -/
def expiresAt (k : ℕ) : TimeControl := ⟨1, 0, false, fun n => decide (k ≤ n), 0⟩

/-- The rows of the chain. -/
def chainRows : List Row := [[1, 2, 7], [1, 2, 8], [1, 3, 9], [4, 2, 7], [4, 2, 8]]

/-- The iterator over the rows of the chain. -/
def chainIterator : BGPIterator PointTree := (BGPIterator.construct PointTree.ops 20 chainOps [1, 2, 3] (counting 0)).2

theorem construct_chain : BGPIterator.construct PointTree.ops 20 chainOps [1, 2, 3] (counting 0) = (.ok [], chainIterator) :=
  Prod.ext (by decide +kernel) rfl

theorem drain_chain : BGPIterator.drain PointTree.ops 20 20 chainIterator =
    (.ok chainRows, (BGPIterator.drain PointTree.ops 20 20 chainIterator).2) := by
  have h : (BGPIterator.drain PointTree.ops 20 20 chainIterator).1 = .ok chainRows := by decide +kernel
  rw [← h]

end PointTree

open PointTree

/-- The time is over while the third row is looked for. -/
theorem truncates_iff_chain : BGPIterator.Truncates PointTree.ops chainOps [1, 2, 3] (expiresAt 14) chainRows :=
  (BGPIterator.truncates_iff (expiresAt 14) construct_chain drain_chain).2 (by decide +kernel)

/-- The time is over when the second row is asked for: the loop gets it for ever. -/
theorem truncates_fails : ¬ BGPIterator.Truncates PointTree.ops chainOps [1, 2, 3] (expiresAt 13) chainRows := by
  have hj : 13 ∈ BGPIterator.nextStarts PointTree.ops 20 20 chainIterator := by decide +kernel
  have hfails : (expiresAt 13).FirstFails 13 := by decide +kernel
  exact BGPIterator.not_truncates construct_chain drain_chain hj hfails

end K2Cache
