import K2Cache.Proof.BgpLevels

/-!
# The iterator searches depth-first

The levels the iterator has entered, with the choices their operators have left, are the
stack of a search (`At`); a step of the loops leaves a level, finishes it, or takes a
choice, and what is to come is the same (`pending`).

`drain_enum`: while the time control does not expire, draining an iterator gives the
results of the search, in order.
-/

namespace K2Cache

open Lib

variable {T : Type} {ops : TreeOps T} {n : ℕ} {B : List ℕ} {r r' : Row}

/-! ## Where the iterator is -/

/-- The operators of the levels that are entered, the deepest first, which have written
the positions `B`. -/
inductive Entered (n : ℕ) : List ℕ → List (BGPOp T) → Prop
  | nil : Entered n [] []
  | cons {B : List ℕ} {o : BGPOp T} {os : List (BGPOp T)} (h : OpPlan n B o) (hs : Entered n B os) :
      Entered n (o.writes ++ B) (o :: os)

/-- Every entered operator has its place. -/
theorem Entered.mem {below : List (BGPOp T × Bool)} (h : Entered n B (below.map Prod.fst)) {v : BGPOp T × Bool}
    (hv : v ∈ below) : ∃ B₁, OpPlan n B₁ v.1 ∧ ∀ j ∈ B₁, j ∈ B := by
  induction below generalizing B with
  | nil => simp at hv
  | cons w below ih =>
    rw [List.map_cons] at h
    cases h with
    | @cons B₀ _ _ ho hs =>
      rcases List.mem_cons.1 hv with rfl | hv
      · exact ⟨B₀, ho, fun j hj => List.mem_append_right _ hj⟩
      · obtain ⟨B₁, h1, h2⟩ := ih hs hv
        exact ⟨B₁, h1, fun j hj => List.mem_append_right _ (h2 j hj)⟩

/-- The operators of the other levels, which write the other positions. -/
inductive ToEnter (n : ℕ) : List ℕ → List (BGPOp T) → Prop
  | nil {B : List ℕ} (h : ∀ j < n, j ∈ B) : ToEnter n B []
  | cons {B : List ℕ} {o : BGPOp T} {os : List (BGPOp T)} (h : OpPlan n B o) (hs : ToEnter n (o.writes ++ B) os) :
      ToEnter n B (o :: os)

theorem ToEnter.plan (hl : ops.Lawful) {os : List (BGPOp T)} (h : ToEnter n B os) :
    Search.Plan (Agree n B) (os.map (BGPOp.level ops)) := by
  induction h with
  | nil hB => exact .nil fun r r' hr => hr.eq hB
  | cons h _ ih => exact .cons (h.between hl) ih

theorem ToEnter.separated (hl : ops.Lawful) {os : List (BGPOp T)} (h : ToEnter n B os) (hboth : ∀ o ∈ os, o.KeepsBoth) :
    Search.Separated (Agree n B) (os.map (BGPOp.level ops)) := by
  induction h with
  | nil => exact .nil
  | @cons B o os h hs ih =>
    exact .cons (h.between hl) (h.apart hl (hboth o List.mem_cons_self)) (hs.plan hl)
      (ih fun o' ho' => hboth o' (List.mem_cons_of_mem _ ho'))

/-- The frame of an entered level; the flag is `finished_ops`. -/
def BGPOp.frame (ops : TreeOps T) (v : BGPOp T × Bool) : Search.Frame Row Point :=
  ⟨v.1.level ops, v.1.left ops, v.2⟩

theorem Entered.stack (hl : ops.Lawful) {below : List (BGPOp T × Bool)} {above : List (BGPOp T)}
    (h : Entered n B (below.map Prod.fst)) (ha : ToEnter n B above) :
    Search.Stack (Agree n B) (below.map (BGPOp.frame ops)) (above.map (BGPOp.level ops)) := by
  induction below generalizing B above with
  | nil => exact .nil (ha.plan hl)
  | cons v below ih =>
    obtain ⟨o, fin⟩ := v
    cases h with
    | cons ho hs => exact .cons (ho.between hl) (fun hr => ho.left_congr hr) (ha.plan hl) (ih hs (.cons ho ha))

/-- **The state of the iterator**: the levels it has entered, and those below. -/
structure At (ops : TreeOps T) (n : ℕ) (it : BGPIterator T) (below : List (BGPOp T × Bool)) (above : List (BGPOp T))
    (B : List ℕ) : Prop where
  bgpOps : it.bgpOps = (below.map Prod.fst).reverse ++ above
  finishedOps : it.finishedOps = (below.map Prod.snd).reverse ++ List.replicate above.length false
  si : it.si = (below.length : ℤ) - 1
  fresh : ∀ o ∈ above, o.resetOp ops = o
  entered : Entered n B (below.map Prod.fst)
  toEnter : ToEnter n B above
  bandOk : ∀ v ∈ below, v.1.BandOk it.tmpHolder
  length : it.tmpHolder.length = n
  clock : it.timeControl.NeverExpires

/-- What the iterator has still to produce. -/
def pending (ops : TreeOps T) (it : BGPIterator T) (below : List (BGPOp T × Bool)) (above : List (BGPOp T)) :
    List (Option Row) :=
  Search.pend (below.map (BGPOp.frame ops)) (above.map (BGPOp.level ops)) it.tmpHolder

/-- The row for the caller is left alone. -/
def SameOut (it it' : BGPIterator T) : Prop :=
  it'.nextAvailable = it.nextAvailable ∧ it'.nextValue = it.nextValue

theorem SameOut.trans {it it₁ it₂ : BGPIterator T} (h : SameOut it it₁) (h' : SameOut it₁ it₂) : SameOut it it₂ :=
  ⟨h'.1.trans h.1, h'.2.trans h.2⟩

theorem modify_append_length {α : Type} (l m : List α) (a : α) (f : α → α) :
    (l ++ a :: m).modify l.length f = l ++ f a :: m := by
  induction l with
  | nil => rfl
  | cons b l ih => simp [ih]

namespace At

variable {it : BGPIterator T} {below : List (BGPOp T × Bool)} {above : List (BGPOp T)} {o : BGPOp T} {fin : Bool}

theorem si_cons (h : At ops n it ((o, fin) :: below) above B) : it.si = below.length := by
  rw [h.si, List.length_cons]
  omega

theorem toNat_si (h : At ops n it ((o, fin) :: below) above B) : it.si.toNat = below.length := by
  rw [h.si_cons, Int.toNat_natCast]

theorem bgpOps_cons (h : At ops n it ((o, fin) :: below) above B) :
    it.bgpOps = (below.map Prod.fst).reverse ++ o :: above := by
  rw [h.bgpOps]
  simp

theorem finishedOps_cons (h : At ops n it ((o, fin) :: below) above B) :
    it.finishedOps = (below.map Prod.snd).reverse ++ fin :: List.replicate above.length false := by
  rw [h.finishedOps]
  simp

theorem finished (h : At ops n it ((o, fin) :: below) above B) : it.finished = fin := by
  rw [BGPIterator.finished, h.finishedOps_cons, h.toNat_si, List.getD_eq_getElem?_getD,
    List.getElem?_append_right (by simp)]
  simp

/-- **A finished level is left.** -/
theorem retreat (h : At ops n it ((o, true) :: below) above B) :
    ∃ B', At ops n (it.retreat ops) below (o.resetOp ops :: above) B' ∧
      Search.Progress (pending ops it ((o, true) :: below) above)
        (pending ops (it.retreat ops) below (o.resetOp ops :: above)) := by
  have hent := h.entered
  rw [List.map_cons] at hent
  cases hent with
  | @cons B₀ _ _ ho hs =>
    have hlen : ((below.map Prod.fst).reverse).length = below.length := by simp
    have hlen' : ((below.map Prod.snd).reverse).length = below.length := by simp
    refine ⟨B₀, ⟨?_, ?_, ?_, ?_, hs, ?_, fun v hv => h.bandOk v (List.mem_cons_of_mem _ hv), h.length, h.clock⟩, ?_⟩
    · show it.bgpOps.modify it.si.toNat (BGPOp.resetOp ops) = _
      rw [h.bgpOps_cons, h.toNat_si, ← hlen, modify_append_length]
    · show it.finishedOps.set it.si.toNat false = _
      rw [h.finishedOps_cons, h.toNat_si, ← hlen', List.set_append_right _ _ le_rfl, Nat.sub_self]
      rfl
    · show it.si - 1 = _
      rw [h.si_cons]
    · intro o' ho'
      rcases List.mem_cons.1 ho' with rfl | ho'
      · cases o <;> rfl
      · exact h.fresh o' ho'
    · refine .cons ho.resetOp ?_
      rw [BGPOp.writes_resetOp]
      exact h.toEnter
    · unfold pending
      rw [List.map_cons, List.map_cons, BGPOp.level_resetOp]
      exact Search.progress_pop (f := BGPOp.frame ops (o, true)) rfl

/-- **An unfinished level runs its operator**, the clock ticks, and the level is marked if
the operator is through. -/
theorem run (h : At ops n it ((o, false) :: below) above B) :
    ∃ r it₁ it₂ o', BGPIterator.runOp ops it = (.ok r, it₁) ∧ BGPIterator.tick it₁ = (.ok true, it₂) ∧
      At ops n (it₂.markDone r) ((o', r.scanDone) :: below) above B ∧ SameOut it (it₂.markDone r) ∧
      o'.resetOp ops = o.resetOp ops ∧
      ((o.left ops it.tmpHolder = [] ∧ r = ⟨true, false⟩ ∧ (it₂.markDone r).tmpHolder = it.tmpHolder) ∨
       ∃ k ks, o.left ops it.tmpHolder = k :: ks ∧ r.validValue = true ∧
         (it₂.markDone r).tmpHolder = o.put it.tmpHolder k ∧
         (BGPOp.frame ops (o', r.scanDone)).rest (o.put it.tmpHolder k) = ks) := by
  have hent := h.entered
  rw [List.map_cons] at hent
  cases hent with
  | @cons B₀ _ _ ho hs =>
    obtain ⟨ran, hrun, hran⟩ := BGPOp.run_spec ops h.clock ho.shape (h.bandOk _ List.mem_cons_self)
    obtain ⟨ht, hclock⟩ := hran.clock.tick
    have hlen : ((below.map Prod.fst).reverse).length = below.length := by simp
    have hlen' : ((below.map Prod.snd).reverse).length = below.length := by simp
    have hop : it.bgpOps[it.si.toNat]? = some o := by
      rw [h.bgpOps_cons, h.toNat_si, ← hlen, List.getElem?_append_right le_rfl, Nat.sub_self]
      rfl
    have hset : it.bgpOps.set it.si.toNat ran.op = (below.map Prod.fst).reverse ++ ran.op :: above := by
      rw [h.bgpOps_cons, h.toNat_si, ← hlen, List.set_append_right _ _ le_rfl, Nat.sub_self]
      rfl
    have hfin : it.finishedOps.set it.si.toNat true =
        (below.map Prod.snd).reverse ++ true :: List.replicate above.length false := by
      rw [h.finishedOps_cons, h.toNat_si, ← hlen', List.set_append_right _ _ le_rfl, Nat.sub_self]
      rfl
    -- the row only changes where no level before has written
    have hrow : Agree n B₀ it.tmpHolder ran.row := by
      rcases hran.choice with ⟨-, -, hr⟩ | ⟨k, ks, -, -, hr, -⟩
      · rw [hr]
        exact Agree.refl h.length
      · rw [hr]
        exact ho.put_keeps k h.length
    set it₁ : BGPIterator T := { it with
      timeControl := ran.timeControl, tmpHolder := ran.row, bgpOps := it.bgpOps.set it.si.toNat ran.op } with hit₁
    set it₂ : BGPIterator T := { it₁ with timeControl := ran.timeControl.tick.2 } with hit₂
    have h1 : BGPIterator.runOp ops it = (.ok ran.result, it₁) := by
      simp only [BGPIterator.runOp, hop, hrun, hit₁]
    have h2 : BGPIterator.tick it₁ = (.ok true, it₂) := by
      simp only [BGPIterator.tick, hit₁, hit₂, ht]
    refine ⟨ran.result, it₁, it₂, ran.op, h1, h2, ?_, ?_, hran.same, ?_⟩
    · have hband : ∀ v ∈ below, v.1.BandOk ran.row := by
        intro v hv
        obtain ⟨B₁, hv₁, hB₁⟩ : ∃ B₁, OpPlan n B₁ v.1 ∧ ∀ j ∈ B₁, j ∈ B₀ := hs.mem hv
        exact hv₁.bandOk_congr ⟨hrow.length, hrow.length', fun j hj => hrow.val j (hB₁ j hj)⟩
          (h.bandOk v (List.mem_cons_of_mem _ hv))
      have hwrites : ran.op.writes = o.writes := by
        rw [← BGPOp.writes_resetOp ops, hran.same, BGPOp.writes_resetOp]
      have hent : Entered n (o.writes ++ B₀) (ran.op :: below.map Prod.fst) := by
        rw [← hwrites]
        exact .cons (ho.of_resetOp hran.same) hs
      cases hd : ran.result.scanDone with
      | false =>
        rw [BGPIterator.markDone, hd]
        refine ⟨by simpa using hset, ?_, h.si, h.fresh, hent, h.toEnter, ?_, hrow.length', hclock⟩
        · exact h.finishedOps
        · exact List.forall_mem_cons.2 ⟨hran.bandOk, hband⟩
      | true =>
        rw [BGPIterator.markDone, hd]
        refine ⟨by simpa using hset, by simpa using hfin, h.si, h.fresh, hent, h.toEnter, ?_, hrow.length', hclock⟩
        exact List.forall_mem_cons.2 ⟨hran.bandOk, hband⟩
    · unfold BGPIterator.markDone
      split <;> exact ⟨rfl, rfl⟩
    · have htmp : (it₂.markDone ran.result).tmpHolder = ran.row := by
        unfold BGPIterator.markDone
        split <;> rfl
      rw [htmp]
      rcases hran.choice with ⟨hleft, hres, hr⟩ | ⟨k, ks, hleft, hv, hr, hks⟩
      · exact .inl ⟨hleft, hres, hr⟩
      · refine .inr ⟨k, ks, hleft, hv, hr, ?_⟩
        rw [← hr]
        exact hks

/-- A level whose operator finds nothing. -/
theorem progress_finish (below : List (BGPOp T × Bool)) (above : List (BGPOp T)) {it' : BGPIterator T} {o' : BGPOp T}
    (hsame : o'.resetOp ops = o.resetOp ops)
    (hleft : o.left ops it.tmpHolder = []) (hrow : it'.tmpHolder = it.tmpHolder) :
    Search.Progress (pending ops it ((o, false) :: below) above) (pending ops it' ((o', true) :: below) above) := by
  have hlevel : o'.level ops = o.level ops := by
    rw [← BGPOp.level_resetOp, hsame, BGPOp.level_resetOp]
  unfold pending
  rw [hrow]
  exact Search.progress_finish rfl hleft (show (BGPOp.frame ops (o', true)).level = _ from hlevel) rfl

/-- **A value moves the iterator one level down.** -/
theorem push (hl : ops.Lawful) {it' : BGPIterator T} {o' a : BGPOp T} {done : Bool} {k : Point} {ks : List Point}
    (h : At ops n it ((o, false) :: below) (a :: above) B) (h' : At ops n it' ((o', done) :: below) (a :: above) B)
    (hsame : o'.resetOp ops = o.resetOp ops) (hleft : o.left ops it.tmpHolder = k :: ks)
    (hrow : it'.tmpHolder = o.put it.tmpHolder k) (hrest : (BGPOp.frame ops (o', done)).rest (o.put it.tmpHolder k) = ks) :
    ∃ B', At ops n { it' with si := it'.si + 1 } ((a, false) :: (o', done) :: below) above B' ∧
      Search.Progress (pending ops it ((o, false) :: below) (a :: above))
        (pending ops { it' with si := it'.si + 1 } ((a, false) :: (o', done) :: below) above) := by
  have hent := h.entered
  rw [List.map_cons] at hent
  cases hent with
  | @cons B₀ _ _ ho hs =>
    have hto := h'.toEnter
    cases hto with
    | cons ha hto =>
      have hlevel : o'.level ops = o.level ops := by
        rw [← BGPOp.level_resetOp, hsame, BGPOp.level_resetOp]
      have hfresh : a.resetOp ops = a := h'.fresh a List.mem_cons_self
      refine ⟨a.writes ++ (o.writes ++ B₀), ⟨?_, ?_, ?_, fun o ho => h'.fresh o (List.mem_cons_of_mem _ ho),
        .cons ha h'.entered, hto, ?_, h'.length, h'.clock⟩, ?_⟩
      · rw [h'.bgpOps]
        simp
      · rw [h'.finishedOps]
        simp [List.replicate_succ]
      · show it'.si + 1 = _
        rw [h'.si_cons, List.length_cons, List.length_cons]
        push_cast
        ring
      · refine List.forall_mem_cons.2 ⟨?_, h'.bandOk⟩
        rw [← hfresh]
        exact BGPOp.bandOk_resetOp a _
      · have hg : a.left ops = (a.level ops).choices := by
          rw [← BGPOp.left_resetOp, hfresh]
        have hp := Search.progress_push (f := BGPOp.frame ops (o, false)) (ho.between hl)
          (hs.stack hl (.cons ho (.cons ha hto))) (Agree.refl h.length) (ToEnter.plan hl (.cons ha hto)) rfl hleft
          (show (BGPOp.frame ops (o', done)).level = _ from hlevel) hrest (g := BGPOp.frame ops (a, false)) rfl hg rfl
        unfold pending
        rw [show ({ it' with si := it'.si + 1 } : BGPIterator T).tmpHolder = o.put it.tmpHolder k from hrow]
        exact hp

/-- **A value at the deepest level is a row.** -/
theorem emit (hl : ops.Lawful) {it' : BGPIterator T} {o' : BGPOp T} {done : Bool} {k : Point} {ks : List Point}
    (h : At ops n it ((o, false) :: below) [] B) (hsame : o'.resetOp ops = o.resetOp ops)
    (hleft : o.left ops it.tmpHolder = k :: ks) (hrow : it'.tmpHolder = o.put it.tmpHolder k)
    (hrest : (BGPOp.frame ops (o', done)).rest (o.put it.tmpHolder k) = ks) :
    (pending ops it ((o, false) :: below) []).reduceOption =
        it'.tmpHolder :: (pending ops it' ((o', done) :: below) []).reduceOption ∧
      (pending ops it' ((o', done) :: below) []).length < (pending ops it ((o, false) :: below) []).length := by
  have hent := h.entered
  rw [List.map_cons] at hent
  cases hent with
  | @cons B₀ _ _ ho hs =>
    have hlevel : o'.level ops = o.level ops := by
      rw [← BGPOp.level_resetOp, hsame, BGPOp.level_resetOp]
    have hp := Search.progress_emit (f := BGPOp.frame ops (o, false)) (ho.between hl) (hs.stack hl (.cons ho h.toEnter))
      (Agree.refl h.length) (ToEnter.plan hl h.toEnter) rfl hleft
      (show (BGPOp.frame ops (o', done)).level = _ from hlevel) hrest
    unfold pending
    rw [hrow]
    exact hp

end At

/-! ## The loops -/

namespace BGPIterator

variable {it : BGPIterator T} {below : List (BGPOp T × Bool)} {above : List (BGPOp T)}

/-- **`ops_until_last`** stops at the last level, or above the first. -/
theorem opsLoop_spec (hl : ops.Lawful) (fuel : ℕ) (h : At ops n it below above B)
    (hf : (pending ops it below above).length < fuel) :
    ∃ it' below' above' B', opsLoop ops fuel it = (.ok (), it') ∧ At ops n it' below' above' B' ∧
      (pending ops it' below' above').reduceOption = (pending ops it below above).reduceOption ∧
      (pending ops it' below' above').length ≤ (pending ops it below above).length ∧
      (below' = [] ∨ above' = []) ∧ SameOut it it' := by
  induction fuel generalizing it below above B with
  | zero => omega
  | succ fuel ih =>
    -- one step, then the rest of the loop
    have hnext : ∀ (it₁ : BGPIterator T) below₁ above₁ B₁, At ops n it₁ below₁ above₁ B₁ →
        Search.Progress (pending ops it below above) (pending ops it₁ below₁ above₁) → SameOut it it₁ →
        opsLoop ops (fuel + 1) it = opsLoop ops fuel it₁ →
        ∃ it' below' above' B', opsLoop ops (fuel + 1) it = (.ok (), it') ∧ At ops n it' below' above' B' ∧
          (pending ops it' below' above').reduceOption = (pending ops it below above).reduceOption ∧
          (pending ops it' below' above').length ≤ (pending ops it below above).length ∧
          (below' = [] ∨ above' = []) ∧ SameOut it it' := by
      intro it₁ below₁ above₁ B₁ h₁ hp hout hloop
      obtain ⟨it', below', above', B', h1, h2, h3, h4, h5, h6⟩ := ih h₁ (by have := hp.2; omega)
      refine ⟨it', below', above', B', hloop.trans h1, h2, h3.trans hp.1, ?_, h5, hout.trans h6⟩
      have := hp.2
      omega
    have hstop : ¬ (it.si < (it.bgpOps.length : ℤ) - 1 ∧ 0 ≤ it.si) → opsLoop ops (fuel + 1) it = (.ok (), it) := by
      intro hn
      rw [opsLoop, Act.get_bind, if_neg hn]
      rfl
    cases below with
    | nil =>
      refine ⟨it, [], above, B, hstop ?_, h, rfl, le_rfl, .inl rfl, rfl, rfl⟩
      have := h.si
      simp only [List.length_nil] at this
      omega
    | cons v below =>
      obtain ⟨o, fin⟩ := v
      cases above with
      | nil =>
        refine ⟨it, _, [], B, hstop ?_, h, rfl, le_rfl, .inr rfl, rfl, rfl⟩
        rw [h.bgpOps_cons, h.si_cons]
        simp
      | cons a above =>
        have hin : it.si < (it.bgpOps.length : ℤ) - 1 ∧ 0 ≤ it.si := by
          rw [h.bgpOps_cons, h.si_cons]
          simp
          omega
        cases fin with
        | true =>
          obtain ⟨B', h1, h2⟩ := h.retreat
          refine hnext _ _ _ _ h1 h2 ⟨rfl, rfl⟩ ?_
          rw [opsLoop, Act.get_bind, if_pos hin, if_pos h.finished]
          rfl
        | false =>
          obtain ⟨r, it₁, it₂, o', h1, h2, h3, h4, h5, h6⟩ := h.run
          have hloop : opsLoop ops (fuel + 1) it = opsLoop ops fuel (advance r (markDone r it₂)) := by
            rw [opsLoop, Act.get_bind, if_pos hin, if_neg (by rw [h.finished]; simp)]
            exact (Act.bind_ok h1).trans (Act.bind_ok h2)
          rcases h6 with ⟨hleft, rfl, hrow⟩ | ⟨k, ks, hleft, hv, hrow, hrest⟩
          · exact hnext _ _ _ _ h3 (At.progress_finish _ _ h5 hleft hrow) h4 hloop
          · obtain ⟨B', h7, h8⟩ := h.push hl h3 h5 hleft hrow hrest
            refine hnext _ _ _ _ h7 h8 ⟨h4.1, h4.2⟩ ?_
            rw [hloop, advance, if_pos hv]

/-- What `next_concrete` leaves: no row, if none is to come, or the next one. -/
def Delivers (ops : TreeOps T) (n : ℕ) (it : BGPIterator T) (todo : List Row) (size : ℕ) : Prop :=
  ∃ below above B, At ops n it below above B ∧ (pending ops it below above).length ≤ size ∧
    match todo with
    | [] => it.nextAvailable = false
    | row :: rows => it.nextAvailable = true ∧ it.nextValue = row ∧ (pending ops it below above).reduceOption = rows

theorem Delivers.mono {todo : List Row} {size size' : ℕ} (h : Delivers ops n it todo size) (hs : size ≤ size') :
    Delivers ops n it todo size' := by
  obtain ⟨below, above, B, h1, h2, h3⟩ := h
  exact ⟨below, above, B, h1, h2.trans hs, h3⟩

/-- More exactly: all levels are left if no row is to come; a row that is ready is the
one the deepest level has filled. -/
def Finds (ops : TreeOps T) (n : ℕ) (it : BGPIterator T) (todo : List Row) (size : ℕ) : Prop :=
  ∃ below above B, At ops n it below above B ∧ (pending ops it below above).length ≤ size ∧
    match todo with
    | [] => it.nextAvailable = false ∧ below = []
    | row :: rows => (it.nextAvailable = true ∧ it.nextValue = row ∧ (pending ops it below above).reduceOption = rows) ∧
        above = [] ∧ it.tmpHolder = row

theorem Finds.mono {todo : List Row} {size size' : ℕ} (h : Finds ops n it todo size) (hs : size ≤ size') :
    Finds ops n it todo size' := by
  obtain ⟨below, above, B, h1, h2, h3⟩ := h
  exact ⟨below, above, B, h1, h2.trans hs, h3⟩

theorem Finds.delivers {todo : List Row} {size : ℕ} (h : Finds ops n it todo size) : Delivers ops n it todo size := by
  obtain ⟨below, above, B, h1, h2, h3⟩ := h
  cases todo with
  | nil => exact ⟨below, above, B, h1, h2, h3.1⟩
  | cons row rows => exact ⟨below, above, B, h1, h2, h3.1⟩

/-- **The loop of `next_concrete`**. -/
theorem nextLoop_finds (hl : ops.Lawful) (fuel : ℕ) (h : At ops n it below above B)
    (hf : (pending ops it below above).length < fuel) :
    ∃ it', nextLoop ops fuel it = (.ok (), it') ∧
      Finds ops n it' (pending ops it below above).reduceOption (pending ops it below above).length := by
  induction fuel generalizing it below above B with
  | zero => omega
  | succ fuel ih =>
    obtain ⟨ht, hclock⟩ := h.clock.tick
    set it₀ : BGPIterator T := { it with timeControl := it.timeControl.tick.2 } with hit₀
    have h₀ : At ops n it₀ below above B :=
      ⟨h.bgpOps, h.finishedOps, h.si, h.fresh, h.entered, h.toEnter, h.bandOk, h.length, hclock⟩
    obtain ⟨it₁, below₁, above₁, B₁, hloop, h₁, hrows, hlen, hend, hout⟩ := opsLoop_spec hl (fuel + 1) h₀ hf
    have huntil : opsUntilLast ops (fuel + 1) it = (.ok (), it₁) := by
      have htick : tick it = (.ok true, it₀) := by simp only [tick, hit₀, ht]
      exact (Act.bind_ok htick).trans hloop
    have hstart : nextLoop ops (fuel + 1) it = _ := (Act.bind_ok huntil).trans (Act.get_bind _ _)
    rw [show pending ops it below above = pending ops it₀ below above from rfl] at hf ⊢
    rw [← hrows]
    cases below₁ with
    | nil =>
      -- all levels are left
      have hsi : it₁.si < 0 := by rw [h₁.si]; simp
      refine ⟨{ it₁ with nextAvailable := false }, ?_, [], above₁, B₁,
        ⟨h₁.bgpOps, h₁.finishedOps, h₁.si, h₁.fresh, h₁.entered, h₁.toEnter, h₁.bandOk, h₁.length, h₁.clock⟩,
        hlen, rfl, rfl⟩
      rw [hstart, if_pos hsi]
      rfl
    | cons v below₁ =>
      obtain ⟨o, fin⟩ := v
      obtain rfl : above₁ = [] := hend.resolve_left (by simp)
      have hsi : ¬ it₁.si < 0 := by rw [h₁.si_cons]; omega
      cases fin with
      | true =>
        obtain ⟨B', h2, h3⟩ := h₁.retreat
        have h4 := h3.2
        obtain ⟨it', h5, h6⟩ := ih h2 (by omega)
        refine ⟨it', ?_, ?_⟩
        · rw [hstart, if_neg hsi, if_pos h₁.finished]
          exact h5
        · rw [← h3.1]
          exact h6.mono (by omega)
      | false =>
        obtain ⟨r, it₂, it₃, o', h2, h3, h4, h5, h6, h7⟩ := h₁.run
        have hrun : nextLoop ops (fuel + 1) it =
            (if r.validValue then Act.modify fun it => { it with nextValue := it.tmpHolder, nextAvailable := true }
              else nextLoop ops fuel) (markDone r it₃) := by
          rw [hstart, if_neg hsi, if_neg (by rw [h₁.finished]; simp)]
          exact (Act.bind_ok h2).trans (Act.bind_ok h3)
        rcases h7 with ⟨hleft, rfl, hrow⟩ | ⟨k, ks, hleft, hv, hrow, hrest⟩
        · have h8 := At.progress_finish below₁ [] h6 hleft hrow
          have h9 := h8.2
          have h4' : At ops n (markDone ⟨true, false⟩ it₃) ((o', true) :: below₁) [] B₁ := h4
          obtain ⟨it', h10, h11⟩ := ih h4' (by omega)
          refine ⟨it', hrun.trans h10, ?_⟩
          rw [← h8.1]
          exact h11.mono (by omega)
        · obtain ⟨h8, h9⟩ := h₁.emit hl h6 hleft hrow hrest
          refine ⟨{ markDone r it₃ with nextValue := (markDone r it₃).tmpHolder, nextAvailable := true }, ?_, ?_⟩
          · rw [hrun, if_pos hv]
            rfl
          · rw [h8]
            exact ⟨_, [], _, ⟨h4.bgpOps, h4.finishedOps, h4.si, h4.fresh, h4.entered, h4.toEnter, h4.bandOk, h4.length,
              h4.clock⟩, h9.le.trans hlen, ⟨rfl, rfl, rfl⟩, rfl, rfl⟩

/-- **`next_concrete`** returns the row that was ready, and makes the next one ready. -/
theorem nextConcrete_finds (hl : ops.Lawful) (fuel : ℕ) (h : At ops n it below above B)
    (hf : (pending ops it below above).length < fuel) :
    ∃ it', nextConcrete ops fuel it = (.ok it.nextValue, it') ∧
      Finds ops n it' (pending ops it below above).reduceOption (pending ops it below above).length := by
  obtain ⟨ht, hclock⟩ := h.clock.tick
  have h₀ : At ops n { it with timeControl := it.timeControl.tick.2, nextAvailable := false } below above B :=
    ⟨h.bgpOps, h.finishedOps, h.si, h.fresh, h.entered, h.toEnter, h.bandOk, h.length, hclock⟩
  obtain ⟨it', h1, h2⟩ := nextLoop_finds hl fuel h₀ hf
  refine ⟨it', ?_, h2⟩
  have htick : tick it = (.ok true, { it with timeControl := it.timeControl.tick.2 }) := by simp only [tick, ht]
  rw [nextConcrete, Act.bind_ok htick, Act.get_bind]
  exact Act.bind_ok h1

theorem nextConcrete_spec (hl : ops.Lawful) (fuel : ℕ) (h : At ops n it below above B)
    (hf : (pending ops it below above).length < fuel) :
    ∃ it', nextConcrete ops fuel it = (.ok it.nextValue, it') ∧
      Delivers ops n it' (pending ops it below above).reduceOption (pending ops it below above).length := by
  obtain ⟨it', h1, h2⟩ := nextConcrete_finds hl fuel h hf
  exact ⟨it', h1, h2.delivers⟩

/-- **Draining** returns the rows that are to come. -/
theorem drain_spec (hl : ops.Lawful) {fuel size : ℕ} (hf : size < fuel) {rows : List Row} {k : ℕ} (hk : rows.length < k)
    (h : Delivers ops n it rows size) : ∃ it', drain ops fuel k it = (.ok rows, it') := by
  induction rows generalizing it k with
  | nil =>
    obtain ⟨k, rfl⟩ : ∃ j, k = j + 1 := ⟨k - 1, by simp at hk; omega⟩
    obtain ⟨_, _, _, _, _, hnext⟩ := h
    refine ⟨it, ?_⟩
    rw [drain, Act.get_bind, hasNext, if_neg (by rw [hnext]; simp)]
    rfl
  | cons row rows ih =>
    obtain ⟨k, rfl⟩ : ∃ j, k = j + 1 := ⟨k - 1, by simp at hk; omega⟩
    obtain ⟨below, above, B, hat, hsize, hnext, hvalue, hrows⟩ := h
    obtain ⟨it₁, h1, h2⟩ := nextConcrete_spec hl fuel hat (by omega)
    rw [hrows] at h2
    obtain ⟨it', h3⟩ := ih (k := k) (by simpa using hk) (h2.mono hsize)
    refine ⟨it', ?_⟩
    rw [hvalue] at h1
    rw [drain, Act.get_bind, hasNext, if_pos hnext]
    exact (Act.bind_ok h1).trans (Act.bind_ok h3)

/-! ## What every call keeps -/

/-- A property that each step of the loops keeps, whatever the clock finds. -/
structure Steady (ops : TreeOps T) (I : BGPIterator T → Prop) : Prop where
  clock : ∀ it : BGPIterator T, I it → I { it with timeControl := it.timeControl.tick.2 }
  run : ∀ (it : BGPIterator T) (o : BGPOp T) (ran : Ran T), it.bgpOps[it.si.toNat]? = some o →
    o.run ops it.timeControl it.tmpHolder = .ok ran → I it →
      I { it with timeControl := ran.timeControl, tmpHolder := ran.row, bgpOps := it.bgpOps.set it.si.toNat ran.op }
  done : ∀ it : BGPIterator T, I it → I { it with finishedOps := it.finishedOps.set it.si.toNat true }
  down : ∀ it : BGPIterator T, I it → I { it with si := it.si + 1 }
  retreat : ∀ it : BGPIterator T, I it → I (it.retreat ops)
  clear : ∀ it : BGPIterator T, I it → I { it with nextAvailable := false }
  emit : ∀ it : BGPIterator T, I it → I { it with nextValue := it.tmpHolder, nextAvailable := true }

namespace Steady

open Act

variable {I : BGPIterator T → Prop} (hI : Steady ops I)
include hI

theorem keeps_tick : Keeps I (tick : Act Halt (BGPIterator T) Bool) := hI.clock

theorem keeps_runOp : Keeps I (runOp ops) := by
  intro it h
  unfold runOp
  split
  · exact h
  · rename_i o ho
    split
    · exact h
    · rename_i ran hran
      exact hI.run it o ran ho hran h

theorem keeps_markDone (r : RunResult) : Keeps I (Act.modify (markDone r) : Act Halt (BGPIterator T) Unit) := by
  refine keeps_modify fun it h => ?_
  unfold markDone
  split
  · exact hI.done it h
  · exact h

theorem keeps_advance (r : RunResult) : Keeps I (Act.modify (advance r) : Act Halt (BGPIterator T) Unit) := by
  refine keeps_modify fun it h => ?_
  unfold advance
  split
  · exact hI.down it h
  · exact h

theorem keeps_opsLoop (fuel : ℕ) : Keeps I (opsLoop ops fuel) := by
  induction fuel with
  | zero => exact keeps_throw _
  | succ fuel ih =>
    refine keeps_get.bind fun it => ?_
    split
    · split
      · exact (keeps_modify hI.retreat).bind fun _ => ih
      · refine hI.keeps_runOp.bind fun r => hI.keeps_tick.bind fun go => ?_
        split
        · exact (keeps_modify fun it h => hI.keeps_advance r _ (hI.keeps_markDone r it h)).bind fun _ => ih
        · exact keeps_pure _
    · exact keeps_pure _

theorem keeps_opsUntilLast (fuel : ℕ) : Keeps I (opsUntilLast ops fuel) := by
  refine hI.keeps_tick.bind fun go => ?_
  split
  · exact hI.keeps_opsLoop fuel
  · exact keeps_pure _

theorem keeps_nextLoop (fuel : ℕ) : Keeps I (nextLoop ops fuel) := by
  induction fuel with
  | zero => exact keeps_throw _
  | succ fuel ih =>
    refine (hI.keeps_opsUntilLast _).bind fun _ => keeps_get.bind fun it => ?_
    split
    · exact keeps_modify hI.clear
    · split
      · exact (keeps_modify hI.retreat).bind fun _ => ih
      · refine hI.keeps_runOp.bind fun r => hI.keeps_tick.bind fun go => ?_
        split
        · refine (hI.keeps_markDone r).bind fun _ => ?_
          split
          · exact keeps_modify hI.emit
          · exact ih
        · exact keeps_pure _

/-- **`next_concrete` keeps it.** -/
theorem keeps_nextConcrete (fuel : ℕ) : Keeps I (nextConcrete ops fuel) := by
  refine hI.keeps_tick.bind fun go => keeps_get.bind fun it => ?_
  simp only
  split
  · exact (keeps_modify hI.clear).bind fun _ => (hI.keeps_nextLoop fuel).bind fun _ => keeps_pure _
  · exact keeps_pure _

end Steady

end BGPIterator

/-- **A new iterator** over operators in their places, which have not run, has the whole
search before it. -/
theorem construct_finds (hl : ops.Lawful) {os : List (BGPOp T)} {headers : List ℕ} {c : TimeControl}
    (hos : ToEnter headers.length [] os) (hfresh : ∀ o ∈ os, o.resetOp ops = o) (hne : os ≠ []) (hc : c.NeverExpires)
    {fuel : ℕ} (hf : (Search.trace (os.map (BGPOp.level ops)) (List.replicate headers.length 0)).length < fuel) :
    ∃ row it, BGPIterator.construct ops fuel os headers c = (.ok row, it) ∧
      BGPIterator.Finds ops headers.length it
        (Search.enum (os.map (BGPOp.level ops)) (List.replicate headers.length 0))
        (Search.trace (os.map (BGPOp.level ops)) (List.replicate headers.length 0)).length := by
  obtain ⟨o, os, rfl⟩ := List.exists_cons_of_ne_nil hne
  set row₀ : Row := List.replicate headers.length 0 with hrow₀
  have hlen₀ : row₀.length = headers.length := by simp [hrow₀]
  cases hos with
  | cons ho hos =>
    have hat : At ops headers.length (BGPIterator.init (o :: os) headers c) [(o, false)] os (o.writes ++ []) := by
      refine ⟨rfl, ?_, ?_, fun o' ho' => hfresh o' (List.mem_cons_of_mem _ ho'), .cons ho .nil, hos, ?_, hlen₀, hc⟩
      · simp [BGPIterator.init, List.replicate_succ]
      · simp [BGPIterator.init]
      · refine List.forall_mem_cons.2 ⟨?_, by simp⟩
        rw [← hfresh o List.mem_cons_self]
        exact BGPOp.bandOk_resetOp o _
    set levels := (o :: os).map (BGPOp.level ops) with hlevels
    -- what is pending is the whole search
    have hpend : pending ops (BGPIterator.init (o :: os) headers c) [(o, false)] os = Search.trace levels row₀ := by
      have hg : o.left ops = (o.level ops).choices := by
        rw [← BGPOp.left_resetOp, hfresh o List.mem_cons_self]
      simp [pending, Search.pend, Search.trace, hlevels, BGPOp.frame, Search.Frame.rest, Search.Frame.marks, hg,
        BGPIterator.init, ← hrow₀]
    obtain ⟨it, h1, h2⟩ := BGPIterator.nextConcrete_finds hl fuel hat (by rw [hpend]; exact hf)
    rw [hpend, Search.reduceOption_trace] at h2
    exact ⟨_, it, h1, h2⟩

/-- **The rows of an iterator** over such operators are the results of the search, in
order. -/
theorem drain_enum (hl : ops.Lawful) {os : List (BGPOp T)} {headers : List ℕ} {c : TimeControl}
    (hos : ToEnter headers.length [] os) (hfresh : ∀ o ∈ os, o.resetOp ops = o) (hne : os ≠ []) (hc : c.NeverExpires) :
    ∃ N, ∀ fuel, N ≤ fuel → ∃ row it it', BGPIterator.construct ops fuel os headers c = (.ok row, it) ∧
      BGPIterator.drain ops fuel fuel it =
        (.ok (Search.enum (os.map (BGPOp.level ops)) (List.replicate headers.length 0)), it') := by
  refine ⟨(Search.trace (os.map (BGPOp.level ops)) (List.replicate headers.length 0)).length + 1, fun fuel hfuel => ?_⟩
  obtain ⟨row, it, h1, h2⟩ := construct_finds hl hos hfresh hne hc hfuel
  obtain ⟨it', h3⟩ := BGPIterator.drain_spec hl hfuel ((Search.length_enum_le _ _).trans_lt hfuel) h2.delivers
  exact ⟨row, it, it', h1, h3⟩

end K2Cache
