import Mathlib

/-!
# Depth-first search

A search goes through a list of levels. At each level it has a list of choices, which
may depend on the state, and a choice changes the state. `enum` lists the states it ends
in, in order; `trace` lists them among the marks of the steps in between, so its length
bounds the steps a machine takes.

A machine that searches with one state keeps, for each level it is in, the choices left,
and finds in the state whatever deeper levels have written there. `pend` is the trace
such a stack of frames still has to produce. The levels may only see what earlier levels
have written (`Plan`), so what is stale changes nothing (`pend_congr`).

* `mem_enum`: the search finds the states that extend the first one and are good for
  every level.
* `nodup_enum`: it finds each once.
* `reduceOption_pend`: a stack whose frames all start again searches from each level that
  is not finished.
-/

namespace Lib.Search

variable {ρ κ : Type*}

/-- A level: its choices in a state, what a choice does to the state, and the condition
it puts on a result. -/
structure Level (ρ κ : Type*) where
  choices : ρ → List κ
  put : ρ → κ → ρ
  Good : ρ → Prop

/-- The results of a search, in order. -/
def enum : List (Level ρ κ) → ρ → List ρ
  | [], r => [r]
  | l :: ls, r => (l.choices r).flatMap fun k => enum ls (l.put r k)

/-- The results, with a mark for every choice taken and two for a level that ends. -/
def trace : List (Level ρ κ) → ρ → List (Option ρ)
  | [], r => [some r]
  | l :: ls, r => ((l.choices r).flatMap fun k => none :: trace ls (l.put r k)) ++ [none, none]

theorem reduceOption_flatMap {α : Type*} (ks : List κ) (f : κ → List (Option α)) :
    (ks.flatMap f).reduceOption = ks.flatMap fun k => (f k).reduceOption := by
  simp [List.reduceOption, List.filterMap_flatMap]

theorem reduceOption_trace (ls : List (Level ρ κ)) (r : ρ) : (trace ls r).reduceOption = enum ls r := by
  induction ls generalizing r with
  | nil => rfl
  | cons l ls ih =>
    simp only [trace, enum, List.reduceOption_append, reduceOption_flatMap, List.reduceOption_cons_of_none,
      List.reduceOption_nil, List.append_nil, ih]

theorem length_enum_le (ls : List (Level ρ κ)) (r : ρ) : (enum ls r).length ≤ (trace ls r).length := by
  rw [← reduceOption_trace]
  exact List.reduceOption_length_le _

/-! ## Levels that only see what was written -/

/-- **A level between two views of the state.** `R` relates states that agree on what the
levels before wrote, `R'` states that also agree on what this one writes. -/
structure Level.Between (R R' : ρ → ρ → Prop) (l : Level ρ κ) : Prop where
  weaken : ∀ {r r'}, R' r r' → R r r'
  choices_congr : ∀ {r r'}, R r r' → l.choices r = l.choices r'
  put_congr : ∀ {r r'} k, R r r' → R' (l.put r k) (l.put r' k)
  put_keeps : ∀ {r} k, R r r → R r (l.put r k)
  mem : ∀ {r} x, R r r → ((∃ k ∈ l.choices r, R' (l.put r k) x) ↔ R r x ∧ l.Good x)

/-- Different choices of a level lead to different results. -/
def Level.Apart (R R' : ρ → ρ → Prop) (l : Level ρ κ) : Prop :=
  ∀ {r}, R r r → (l.choices r).Pairwise fun k k' => ∀ x, R' (l.put r k) x → ¬ R' (l.put r k') x

/-- Levels that go, one after the other, from the view `R` to the whole state. -/
inductive Plan : (ρ → ρ → Prop) → List (Level ρ κ) → Prop
  | nil {R : ρ → ρ → Prop} (h : ∀ r r', R r r' → r = r') : Plan R []
  | cons {R R' : ρ → ρ → Prop} {l : Level ρ κ} {ls : List (Level ρ κ)} (hl : l.Between R R') (hls : Plan R' ls) :
      Plan R (l :: ls)

/-- A plan whose levels keep their choices apart. -/
inductive Separated : (ρ → ρ → Prop) → List (Level ρ κ) → Prop
  | nil {R : ρ → ρ → Prop} : Separated R []
  | cons {R R' : ρ → ρ → Prop} {l : Level ρ κ} {ls : List (Level ρ κ)} (hl : l.Between R R') (ha : l.Apart R R')
      (hp : Plan R' ls) (hls : Separated R' ls) : Separated R (l :: ls)

variable {R : ρ → ρ → Prop} {l : Level ρ κ} {ls : List (Level ρ κ)} {r r' x : ρ}

theorem trace_congr (hp : Plan R ls) (h : R r r') : trace ls r = trace ls r' := by
  induction hp generalizing r r' with
  | nil hR => rw [hR r r' h]
  | cons hl _ ih =>
    rw [trace, trace, hl.choices_congr h]
    congr 1
    refine List.flatMap_congr fun k _ => ?_
    rw [ih (hl.put_congr k h)]

theorem enum_congr (hp : Plan R ls) (h : R r r') : enum ls r = enum ls r' := by
  rw [← reduceOption_trace, trace_congr hp h, reduceOption_trace]

/-- **What a search finds.** -/
theorem mem_enum (hp : Plan R ls) (h : R r r) : x ∈ enum ls r ↔ R r x ∧ ∀ l ∈ ls, l.Good x := by
  induction hp generalizing r with
  | nil hR =>
    simp only [enum, List.mem_singleton, List.not_mem_nil, false_implies, implies_true, and_true]
    constructor
    · rintro rfl
      exact h
    · intro hx
      exact (hR r x hx).symm
  | @cons R R' l ls hl hls ih =>
    have hput : ∀ k, R' (l.put r k) (l.put r k) := fun k => hl.put_congr k h
    calc x ∈ enum (l :: ls) r ↔ ∃ k ∈ l.choices r, R' (l.put r k) x ∧ ∀ l ∈ ls, l.Good x := by
            simp only [enum, List.mem_flatMap, ih (hput _)]
      _ ↔ (∃ k ∈ l.choices r, R' (l.put r k) x) ∧ ∀ l ∈ ls, l.Good x := by
            constructor
            · rintro ⟨k, hk, hx, hg⟩
              exact ⟨⟨k, hk, hx⟩, hg⟩
            · rintro ⟨⟨k, hk, hx⟩, hg⟩
              exact ⟨k, hk, hx, hg⟩
      _ ↔ R r x ∧ ∀ l' ∈ l :: ls, l'.Good x := by
            rw [hl.mem x h, List.forall_mem_cons, and_assoc]

/-- **A search finds nothing twice**, if its levels keep their choices apart. -/
theorem nodup_enum (hs : Separated R ls) (h : R r r) : (enum ls r).Nodup := by
  induction hs generalizing r with
  | nil => exact List.nodup_singleton r
  | @cons R R' l ls hl ha hls _ ih =>
    have hput : ∀ k, R' (l.put r k) (l.put r k) := fun k => hl.put_congr k h
    rw [enum, List.nodup_flatMap]
    refine ⟨fun k _ => ih (hput k), (ha h).imp fun {k k'} hk x hx hx' => ?_⟩
    exact hk x ((mem_enum hls (hput k)).1 hx).1 ((mem_enum hls (hput k')).1 hx').1

theorem infix_flatMap {α β : Type*} {l : List α} {a : α} (h : a ∈ l) (f : α → List β) : f a <:+: l.flatMap f := by
  obtain ⟨s, t, rfl⟩ := List.append_of_mem h
  exact ⟨s.flatMap f, t.flatMap f, by simp⟩

/-- **A search that goes on from a result**: what the deeper levels find from there is a
stretch of all that is found. -/
theorem enum_drop_infix (hp : Plan R ls) (h : R r r) (hx : R r x) (hg : ∀ l ∈ ls, l.Good x) (i : ℕ) :
    enum (ls.drop i) x <:+: enum ls r := by
  induction hp generalizing r i with
  | nil hR =>
    rw [List.drop_nil, hR r x hx]
  | @cons R R' l ls hl hls ih =>
    cases i with
    | zero =>
      rw [List.drop_zero, enum_congr (.cons hl hls) hx]
    | succ i =>
      -- the choice that led to the result
      obtain ⟨k, hk, hkx⟩ := (hl.mem x h).2 ⟨hx, hg l List.mem_cons_self⟩
      have hrest : enum (ls.drop i) x <:+: enum ls (l.put r k) :=
        ih (hl.put_congr k h) hkx (fun l' hl' => hg l' (List.mem_cons_of_mem _ hl')) i
      exact hrest.trans (infix_flatMap hk fun k => enum ls (l.put r k))

/-! ## The stack of a machine -/

/-- A level the search is in, with the choices left in a state; a finished one has none. -/
structure Frame (ρ κ : Type*) where
  level : Level ρ κ
  left : ρ → List κ
  finished : Bool

/-- The choices a frame will still take. -/
def Frame.rest (f : Frame ρ κ) (r : ρ) : List κ := if f.finished then [] else f.left r

/-- The marks of the end of a frame. -/
def Frame.marks (f : Frame ρ κ) : List (Option ρ) := if f.finished then [none] else [none, none]

/-- **What is still to come** from a stack of frames (the deepest first) over the levels
below them. -/
def pend : List (Frame ρ κ) → List (Level ρ κ) → ρ → List (Option ρ)
  | [], _, _ => []
  | f :: fs, ls, r =>
    ((f.rest r).flatMap fun k => none :: trace ls (f.level.put r k)) ++ (f.marks ++ pend fs (f.level :: ls) r)

/-- Frames and levels that form a plan; `R` is the view after the frames. -/
inductive Stack : (ρ → ρ → Prop) → List (Frame ρ κ) → List (Level ρ κ) → Prop
  | nil {R : ρ → ρ → Prop} {ls : List (Level ρ κ)} (hp : Plan R ls) : Stack R [] ls
  | cons {R R' : ρ → ρ → Prop} {f : Frame ρ κ} {fs : List (Frame ρ κ)} {ls : List (Level ρ κ)}
      (hf : f.level.Between R R') (hleft : ∀ {r r'}, R r r' → f.left r = f.left r') (hp : Plan R' ls)
      (hfs : Stack R fs (f.level :: ls)) : Stack R' (f :: fs) ls

variable {f : Frame ρ κ} {fs : List (Frame ρ κ)}

/-- **Stale values change nothing.** -/
theorem pend_congr (hs : Stack R fs ls) (h : R r r') : pend fs ls r = pend fs ls r' := by
  induction hs generalizing r r' with
  | nil _ => rfl
  | cons hf hleft hp _ ih =>
    have hR := hf.weaken h
    rw [pend, pend, ih hR, Frame.rest, Frame.rest, hleft hR]
    congr 1
    refine List.flatMap_congr fun k _ => ?_
    rw [trace_congr hp (hf.put_congr k hR)]

/-- One step: the same results are to come, in fewer steps. -/
def Progress (a b : List (Option ρ)) : Prop := b.reduceOption = a.reduceOption ∧ b.length < a.length

/-- A finished frame is left. -/
theorem progress_pop (hf : f.finished = true) : Progress (pend (f :: fs) ls r) (pend fs (f.level :: ls) r) := by
  simp [Progress, pend, Frame.rest, Frame.marks, hf]

/-- A frame without choices is finished. -/
theorem progress_finish (hf : f.finished = false) (h : f.left r = []) {f' : Frame ρ κ} (hl : f'.level = f.level)
    (hf' : f'.finished = true) : Progress (pend (f :: fs) ls r) (pend (f' :: fs) ls r) := by
  simp [Progress, pend, Frame.rest, Frame.marks, hf, hf', h, hl]

/-- What is to come after a choice is taken. -/
theorem pend_choose {R' : ρ → ρ → Prop} (hlevel : f.level.Between R R') (hfs : Stack R fs (f.level :: ls)) (hr : R r r)
    (hp : Plan R' ls) (hf : f.finished = false) {k : κ} {ks : List κ} (h : f.left r = k :: ks) {f' : Frame ρ κ}
    (hl : f'.level = f.level) (hrest : f'.rest (f.level.put r k) = ks) :
    ∃ marks : List (Option ρ), pend (f :: fs) ls r = none :: (trace ls (f.level.put r k) ++
        ((ks.flatMap fun k' => none :: trace ls (f.level.put r k')) ++ ([none, none] ++ pend fs (f.level :: ls) r))) ∧
      pend (f' :: fs) ls (f.level.put r k) =
        (ks.flatMap fun k' => none :: trace ls (f.level.put r k')) ++ (marks ++ pend fs (f.level :: ls) r) ∧
      marks.reduceOption = [] ∧ marks.length ≤ 2 := by
  refine ⟨f'.marks, ?_, ?_, ?_, ?_⟩
  · simp [pend, Frame.rest, Frame.marks, hf, h]
  · rw [pend, hl, hrest, ← pend_congr hfs (hlevel.put_keeps k hr)]
    congr 1
    refine List.flatMap_congr fun k' _ => ?_
    -- the next choice of the level overwrites the last one
    rw [trace_congr hp (hlevel.put_congr k' (hlevel.put_keeps k hr))]
  · unfold Frame.marks
    split <;> rfl
  · unfold Frame.marks
    split <;> simp

/-- A choice is taken, and the next level entered. -/
theorem progress_push {R' : ρ → ρ → Prop} (hlevel : f.level.Between R R') {l : Level ρ κ}
    (hfs : Stack R fs (f.level :: l :: ls)) (hr : R r r) (hp : Plan R' (l :: ls)) (hf : f.finished = false) {k : κ}
    {ks : List κ} (h : f.left r = k :: ks) {f' g : Frame ρ κ} (hl : f'.level = f.level)
    (hrest : f'.rest (f.level.put r k) = ks) (hg : g.level = l) (hgleft : g.left = l.choices)
    (hgf : g.finished = false) :
    Progress (pend (f :: fs) (l :: ls) r) (pend (g :: f' :: fs) ls (f.level.put r k)) := by
  obtain ⟨marks, h1, h2, h3, h4⟩ := pend_choose hlevel hfs hr hp hf h hl hrest
  have hnew : pend (g :: f' :: fs) ls (f.level.put r k) =
      trace (l :: ls) (f.level.put r k) ++ pend (f' :: fs) (l :: ls) (f.level.put r k) := by
    rw [pend, Frame.rest, Frame.marks, hg, hgleft, hgf, trace]
    simp
  rw [Progress, hnew, h1, h2]
  constructor
  · simp [List.reduceOption_append, h3]
  · simp only [List.length_append, List.length_cons]
    omega

/-- A choice is taken at the deepest level: a result. -/
theorem progress_emit {R' : ρ → ρ → Prop} (hlevel : f.level.Between R R') (hfs : Stack R fs [f.level]) (hr : R r r)
    (hp : Plan R' ([] : List (Level ρ κ))) (hf : f.finished = false) {k : κ} {ks : List κ} (h : f.left r = k :: ks)
    {f' : Frame ρ κ} (hl : f'.level = f.level) (hrest : f'.rest (f.level.put r k) = ks) :
    (pend (f :: fs) [] r).reduceOption =
        f.level.put r k :: (pend (f' :: fs) [] (f.level.put r k)).reduceOption ∧
      (pend (f' :: fs) [] (f.level.put r k)).length < (pend (f :: fs) [] r).length := by
  obtain ⟨marks, h1, h2, h3, h4⟩ := pend_choose hlevel hfs hr hp hf h hl hrest
  rw [h1, h2]
  constructor
  · simp [List.reduceOption_append, trace, h3]
  · simp only [List.length_append, List.length_cons, trace]
    omega

/-! ## Frames that start again -/

/-- The depths of the frames that are not finished, the deepest first. -/
def openDepths (fs : List (Frame ρ κ)) : List ℕ :=
  (List.range fs.length).reverse.filter fun i => !(fs.map Frame.finished).reverse.getD i false

theorem openDepths_cons (f : Frame ρ κ) (fs : List (Frame ρ κ)) :
    openDepths (f :: fs) = (if f.finished then [] else [fs.length]) ++ openDepths fs := by
  have hflag : ∀ i < fs.length, ((f :: fs).map Frame.finished).reverse.getD i false =
      (fs.map Frame.finished).reverse.getD i false := by
    intro i hi
    rw [List.map_cons, List.reverse_cons, List.getD_append _ _ _ _ (by simpa using hi)]
  have hlast : ((f :: fs).map Frame.finished).reverse.getD fs.length false = f.finished := by
    rw [List.map_cons, List.reverse_cons, List.getD_append_right _ _ _ _ (by simp)]
    simp
  unfold openDepths
  rw [List.length_cons, List.range_succ, List.reverse_append, List.reverse_singleton, List.singleton_append,
    List.filter_cons, hlast]
  rw [List.filter_congr fun i hi => by rw [hflag i (List.mem_range.1 (List.mem_reverse.1 hi))]]
  cases f.finished <;> rfl

/-- The levels of a stack from the one of a frame on. -/
theorem drop_levels (f : Frame ρ κ) (fs : List (Frame ρ κ)) (ls : List (Level ρ κ)) :
    (((f :: fs).map Frame.level).reverse ++ ls) = (fs.map Frame.level).reverse ++ f.level :: ls ∧
      ((fs.map Frame.level).reverse ++ f.level :: ls).drop fs.length = f.level :: ls := by
  constructor
  · simp
  · exact List.drop_left' (by simp)

/-- **Frames with all their choices** search from each level that is not finished. -/
theorem reduceOption_pend (h : ∀ f ∈ fs, f.left = f.level.choices) :
    (pend fs ls r).reduceOption =
      (openDepths fs).flatMap fun i => enum (((fs.map Frame.level).reverse ++ ls).drop i) r := by
  induction fs generalizing ls with
  | nil => rfl
  | cons f fs ih =>
    have hmarks : f.marks.reduceOption = [] := by
      unfold Frame.marks
      split <;> rfl
    have hfs : ∀ f ∈ fs, f.left = f.level.choices := fun f hf => h f (List.mem_cons_of_mem _ hf)
    rw [pend, List.reduceOption_append, List.reduceOption_append, hmarks, List.nil_append, ih hfs, openDepths_cons,
      List.flatMap_append, (drop_levels f fs ls).1]
    congr 1
    cases hfin : f.finished with
    | true => simp [Frame.rest, hfin]
    | false =>
      rw [Frame.rest, hfin, h f List.mem_cons_self]
      simp only [Bool.false_eq_true, if_false, List.flatMap_singleton, (drop_levels f fs ls).2, enum, reduceOption_flatMap,
        List.reduceOption_cons_of_none, reduceOption_trace]

/-- They are not longer than the searches from all levels. -/
theorem length_pend_le (h : ∀ f ∈ fs, f.left = f.level.choices) : (pend fs ls r).length ≤
    ((List.range fs.length).map fun i => (trace (((fs.map Frame.level).reverse ++ ls).drop i) r).length).sum := by
  induction fs generalizing ls with
  | nil => simp [pend]
  | cons f fs ih =>
    have hfs : ∀ f ∈ fs, f.left = f.level.choices := fun f hf => h f (List.mem_cons_of_mem _ hf)
    have hrest : (pend fs (f.level :: ls) r).length ≤ _ := ih hfs
    have hhead : ((f.rest r).flatMap fun k => none :: trace ls (f.level.put r k)).length + f.marks.length ≤
        (trace (f.level :: ls) r).length := by
      rw [trace, List.length_append, Frame.rest, Frame.marks, h f List.mem_cons_self]
      split
      · simp
      · rfl
    rw [pend, List.length_append, List.length_append, List.length_cons, List.range_succ, List.map_append, List.sum_append,
      (drop_levels f fs ls).1]
    simp only [List.map_cons, List.map_nil, List.sum_cons, List.sum_nil, (drop_levels f fs ls).2]
    omega

end Lib.Search
