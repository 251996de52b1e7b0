import K2Cache.Proof.Expiry

/-!
# Resetting an iterator

`reset_iterator` resets every operator and asks for a row. The level the iterator is at,
the finished flags and the row it fills stay as they are: it searches again from each level
it is in that is not finished, the deepest first, with the values the levels above have
left.

`restarts_iff`: when these are the rows of a new iterator.
-/

namespace K2Cache

open Lib

variable {T : Type} {ops : TreeOps T} {n : ℕ} {B : List ℕ}

/-- A run of an operator changes nothing that a reset does not bring back. -/
theorem BGPOp.run_resetOp {o : BGPOp T} {c : TimeControl} {row : Row} {ran : Ran T} (h : o.run ops c row = .ok ran) :
    ran.op.resetOp ops = o.resetOp ops := by
  have hband : ∀ (wv : Vars) (s : K2TreeScanner T) (sp op : ℕ) (band : K2TreeScanner T) (v : UInt64) (c : TimeControl),
      (runBand wv s sp op band v c row).op.resetOp ops = .twoVarJoinOne wv s sp op none 0 := by
    intro wv s sp op band v c
    unfold runBand
    split
    · rfl
    · simp only
      split <;> rfl
  unfold run at h
  simp only at h
  split at h
  · rw [← Except.ok.inj h]
  · split at h
    · split at h <;> rw [← Except.ok.inj h]
    · split at h
      · rw [← Except.ok.inj h, hband]
        rfl
      · split at h <;> (rw [← Except.ok.inj h, hband]; rfl)
    · split at h
      · rw [← Except.ok.inj h]
      · split at h <;> (rw [← Except.ok.inj h]; rfl)
    · split at h
      · simp at h
      · rw [← Except.ok.inj h]
    · split at h
      · rw [← Except.ok.inj h]
      · split at h <;> (rw [← Except.ok.inj h]; rfl)
    · rw [← Except.ok.inj h]

theorem BGPOp.resetOp_resetOp (o : BGPOp T) : (o.resetOp ops).resetOp ops = o.resetOp ops := by
  cases o <;> rfl

namespace BGPIterator

variable {it : BGPIterator T} {below : List (BGPOp T × Bool)} {above : List (BGPOp T)}

/-! ## The operators of an iterator -/

/-- The operators an iterator was built with. -/
theorem steady_operators (ops : TreeOps T) (os : List (BGPOp T)) :
    Steady ops fun it : BGPIterator T => it.bgpOps.map (BGPOp.resetOp ops) = os where
  clock _ h := h
  run it o ran ho hran h := by
    have hlt : it.si.toNat < (it.bgpOps.map (BGPOp.resetOp ops)).length := by
      rw [List.length_map]
      exact (List.getElem?_eq_some_iff.1 ho).1
    rw [← h, List.map_set, BGPOp.run_resetOp hran]
    apply List.ext_getElem?
    intro j
    by_cases hj : it.si.toNat = j
    · subst hj
      rw [List.getElem?_set_self hlt, List.getElem?_map, ho]
      rfl
    · rw [List.getElem?_set_ne hj]
  done _ h := h
  down _ h := h
  retreat it h := by
    rw [← h]
    apply List.ext_getElem?
    intro j
    simp only [retreat, List.getElem?_map, List.getElem?_modify]
    cases it.bgpOps[j]? with
    | none => rfl
    | some o =>
      simp only [Option.map_eq_map, Option.map_some]
      split
      · rw [BGPOp.resetOp_resetOp]
      · rfl
  clear _ h := h
  emit _ h := h

theorem operators_of_construct {fuel : ℕ} {os : List (BGPOp T)} {headers : List ℕ} {c : TimeControl} {row : Except Halt Row}
    (hfresh : ∀ o ∈ os, o.resetOp ops = o) (h : construct ops fuel os headers c = (row, it)) :
    it.bgpOps.map (BGPOp.resetOp ops) = os := by
  have hinit : (init os headers c).bgpOps.map (BGPOp.resetOp ops) = os :=
    (List.map_congr_left hfresh).trans (List.map_id' os)
  have hkeep := (steady_operators ops os).keeps_nextConcrete fuel _ hinit
  rw [construct] at h
  rwa [h] at hkeep

/-- `k` more rows are asked for. -/
theorem nexts_finds (hl : ops.Lawful) {fuel size : ℕ} (hf : size < fuel) (k : ℕ) {todo : List Row}
    (h : Finds ops n it todo size) : ∃ it', nexts ops fuel k it = (.ok (), it') ∧ Finds ops n it' (todo.drop k) size := by
  induction k generalizing it todo with
  | zero => exact ⟨it, rfl, h⟩
  | succ k ih =>
    obtain ⟨below, above, B, hat, hsize, hready⟩ := h
    obtain ⟨it₁, h1, h2⟩ := nextConcrete_finds hl fuel hat (by omega)
    have htail : (pending ops it below above).reduceOption = todo.tail := by
      cases todo with
      | nil =>
        rw [hready.2]
        rfl
      | cons row rows => exact hready.1.2.2
    rw [htail] at h2
    obtain ⟨it', h3, h4⟩ := ih (h2.mono hsize)
    refine ⟨it', (Act.bind_ok h1).trans h3, ?_⟩
    rwa [List.drop_tail] at h4

/-- They are still the same operators. -/
theorem steady_nexts {I : BGPIterator T → Prop} (hI : Steady ops I) (fuel k : ℕ) : Act.Keeps I (nexts ops fuel k) := by
  induction k with
  | zero => exact Act.keeps_pure ()
  | succ k ih => exact (hI.keeps_nextConcrete fuel).bind fun _ => ih

/-! ## The iterator with its operators reset -/

/-- The first loop of `reset_iterator`. -/
def resetOps (ops : TreeOps T) (it : BGPIterator T) : BGPIterator T := { it with bgpOps := it.bgpOps.map (BGPOp.resetOp ops) }

/-- The levels the iterator is in and has not finished, the deepest first. -/
def unfinished (it : BGPIterator T) : List ℕ :=
  (List.range (it.si + 1).toNat).reverse.filter fun i => !it.finishedOps.getD i false

/-- The rows of a search from each of these levels, with the values in the row holder. -/
def rowsAgain (ops : TreeOps T) (os : List (BGPOp T)) (it : BGPIterator T) : List Row :=
  it.unfinished.flatMap fun i => Search.enum ((os.drop i).map (BGPOp.level ops)) it.tmpHolder

end BGPIterator

section Reset

variable {it : BGPIterator T} {below : List (BGPOp T × Bool)} {above : List (BGPOp T)}

theorem Entered.resetOps {os : List (BGPOp T)} (h : Entered n B os) : Entered n B (os.map (BGPOp.resetOp ops)) := by
  induction h with
  | nil => exact .nil
  | @cons B o os ho _ ih =>
    rw [List.map_cons, ← BGPOp.writes_resetOp ops o]
    exact .cons ho.resetOp ih

/-- A level of the reset iterator. -/
def resetLevel (ops : TreeOps T) (v : BGPOp T × Bool) : BGPOp T × Bool := (v.1.resetOp ops, v.2)

theorem At.resetOps (h : At ops n it below above B) : At ops n (it.resetOps ops) (below.map (resetLevel ops)) above B := by
  have hfst : (below.map (resetLevel ops)).map Prod.fst = (below.map Prod.fst).map (BGPOp.resetOp ops) := by
    simp [resetLevel, Function.comp_def]
  have hsnd : (below.map (resetLevel ops)).map Prod.snd = below.map Prod.snd := by
    simp [resetLevel, Function.comp_def]
  have habove : above.map (BGPOp.resetOp ops) = above := (List.map_congr_left h.fresh).trans (List.map_id' above)
  refine ⟨?_, ?_, ?_, h.fresh, ?_, h.toEnter, ?_, h.length, h.clock⟩
  · rw [hfst, BGPIterator.resetOps, h.bgpOps, List.map_append, List.map_reverse, habove]
  · rw [hsnd]
    exact h.finishedOps
  · rw [List.length_map]
    exact h.si
  · rw [hfst]
    exact Entered.resetOps h.entered
  · intro v hv
    obtain ⟨w, -, rfl⟩ := List.mem_map.1 hv
    exact BGPOp.bandOk_resetOp w.1 _

theorem At.unfinished (h : At ops n it below above B) :
    it.unfinished = Search.openDepths (below.map (BGPOp.frame ops)) := by
  have hsi : (it.si + 1).toNat = below.length := by
    rw [h.si]
    omega
  unfold BGPIterator.unfinished Search.openDepths
  rw [hsi, List.length_map]
  refine List.filter_congr fun i hi => ?_
  have hlt : i < below.length := List.mem_range.1 (List.mem_reverse.1 hi)
  rw [h.finishedOps, List.getD_append _ _ _ _ (by simpa using hlt), List.map_map]
  rfl

/-- **Draining after a reset.** -/
theorem At.reset_drain (hl : ops.Lawful) (h : At ops n it below above B) {os : List (BGPOp T)}
    (hos : it.bgpOps.map (BGPOp.resetOp ops) = os) {fuel : ℕ}
    (hf : ((List.range below.length).map fun i =>
      (Search.trace ((os.drop i).map (BGPOp.level ops)) it.tmpHolder).length).sum < fuel) :
    ∃ it₁ it₂, BGPIterator.resetIterator ops fuel it = (.ok (), it₁) ∧
      BGPIterator.drain ops fuel fuel it₁ = (.ok (it.rowsAgain ops os), it₂) := by
  have hr : At ops n (it.resetOps ops) (below.map (resetLevel ops)) above B := h.resetOps
  set fs := (below.map (resetLevel ops)).map (BGPOp.frame ops) with hfs
  have hchoices : ∀ f ∈ fs, f.left = f.level.choices := by
    intro f hf
    obtain ⟨v, hv, rfl⟩ := List.mem_map.1 hf
    obtain ⟨w, -, rfl⟩ := List.mem_map.1 hv
    funext row
    simp only [BGPOp.frame, resetLevel, BGPOp.level_resetOp]
    exact congrFun (BGPOp.left_resetOp w.1) row
  have hlevels : (fs.map Search.Frame.level).reverse ++ above.map (BGPOp.level ops) = os.map (BGPOp.level ops) := by
    have hops : os = ((below.map (resetLevel ops)).map Prod.fst).reverse ++ above := hos.symm.trans hr.bgpOps
    rw [hops, List.map_append, List.map_reverse, hfs, List.map_map, List.map_map]
    simp only [List.map_map]
    rfl
  have hopen : Search.openDepths fs = it.unfinished := hr.unfinished.symm
  have hrows : (pending ops (it.resetOps ops) (below.map (resetLevel ops)) above).reduceOption = it.rowsAgain ops os := by
    rw [pending, Search.reduceOption_pend hchoices, hopen, hlevels]
    simp only [BGPIterator.rowsAgain, List.map_drop]
    rfl
  have hlen : (pending ops (it.resetOps ops) (below.map (resetLevel ops)) above).length < fuel := by
    refine lt_of_le_of_lt (Search.length_pend_le hchoices) ?_
    rw [hlevels, List.length_map, List.length_map]
    simp only [List.map_drop] at hf
    exact hf
  obtain ⟨it₁, h1, h2⟩ := BGPIterator.nextConcrete_finds hl fuel hr hlen
  have hcount : (it.rowsAgain ops os).length < fuel := by
    rw [← hrows]
    exact (List.reduceOption_length_le _).trans_lt hlen
  rw [hrows] at h2
  obtain ⟨it₂, h3⟩ := BGPIterator.drain_spec hl hlen hcount h2.delivers
  exact ⟨it₁, it₂, Act.bind_ok h1, h3⟩

end Reset

/-! ## When it restarts -/

/-- After `reset_iterator`, draining gives the rows of a new iterator. -/
def BGPIterator.Restarts (ops : TreeOps T) (fuel : ℕ) (os : List (BGPOp T)) (headers : List ℕ) (c : TimeControl)
    (it : BGPIterator T) : Prop :=
  ∃ rows row it₁ it₂ it₃ it₄, resetIterator ops fuel it = (.ok (), it₁) ∧ drain ops fuel fuel it₁ = (.ok rows, it₂) ∧
    construct ops fuel os headers c = (.ok row, it₃) ∧ drain ops fuel fuel it₃ = (.ok rows, it₄)

theorem BGPIterator.restarts_iff_eq {fuel : ℕ} {os : List (BGPOp T)} {headers : List ℕ} {c : TimeControl} {row : Row}
    {rows rows' : List Row} {it it₁ it₂ it₃ it₄ : BGPIterator T} (h₁ : resetIterator ops fuel it = (.ok (), it₁))
    (h₂ : drain ops fuel fuel it₁ = (.ok rows, it₂)) (h₃ : construct ops fuel os headers c = (.ok row, it₃))
    (h₄ : drain ops fuel fuel it₃ = (.ok rows', it₄)) : it.Restarts ops fuel os headers c ↔ rows = rows' := by
  constructor
  · rintro ⟨_, _, _, _, _, _, h₁', h₂', h₃', h₄'⟩
    obtain ⟨-, rfl⟩ := Prod.mk.inj (h₁.symm.trans h₁')
    obtain ⟨-, rfl⟩ := Prod.mk.inj (h₃.symm.trans h₃')
    have h₅ := Except.ok.inj (Prod.mk.inj (h₂.symm.trans h₂')).1
    have h₆ := Except.ok.inj (Prod.mk.inj (h₄.symm.trans h₄')).1
    exact h₅.trans h₆.symm
  · rintro rfl
    exact ⟨rows, row, it₁, it₂, it₃, it₄, h₁, h₂, h₃, h₄⟩

/-- A row that all the operators accept. -/
def Accepted (ops : TreeOps T) (n : ℕ) (os : List (BGPOp T)) (x : Row) : Prop :=
  x.length = n ∧ ∀ o ∈ os, o.check ops x = true

/-- One level the iterator is in is not finished, and all rows agree with the row holder
where the levels above it write; or there are no rows. -/
def BGPIterator.OneLevelLeft (ops : TreeOps T) (n : ℕ) (os : List (BGPOp T)) (it : BGPIterator T) : Prop :=
  (∀ x, ¬ Accepted ops n os x) ∨
    ∃ i, it.unfinished = [i] ∧ ∀ x, Accepted ops n os x → ∀ o ∈ os.take i, ∀ j ∈ o.writes, x.val j = it.tmpHolder.val j

/-- The levels from one on, which find what the levels above it have left. -/
theorem ToEnter.drop {os : List (BGPOp T)} (h : ToEnter n B os) (i : ℕ) :
    ∃ B', ToEnter n B' (os.drop i) ∧ ∀ j, j ∈ B' ↔ j ∈ B ∨ ∃ o ∈ os.take i, j ∈ o.writes := by
  induction h generalizing i with
  | @nil B hB => exact ⟨B, by simpa using ToEnter.nil hB, by simp⟩
  | @cons B o os ho hs ih =>
    cases i with
    | zero => exact ⟨B, .cons ho hs, by simp⟩
    | succ i =>
      obtain ⟨B', h1, h2⟩ := ih i
      refine ⟨B', h1, fun j => ?_⟩
      rw [h2, List.mem_append, List.take_succ_cons]
      simp only [List.mem_cons, exists_eq_or_imp]
      tauto

section Rows

variable {os : List (BGPOp T)} (hl : ops.Lawful) (hos : ToEnter n [] os)
include hl hos

theorem mem_rows {x : Row} :
    x ∈ Search.enum (os.map (BGPOp.level ops)) (List.replicate n 0) ↔ Accepted ops n os x := by
  have hlen : (List.replicate n (0 : UInt64)).length = n := List.length_replicate
  rw [Search.mem_enum (hos.plan hl) (Agree.refl hlen), List.forall_mem_map]
  constructor
  · rintro ⟨h, hg⟩
    exact ⟨h.length', hg⟩
  · rintro ⟨h, hg⟩
    exact ⟨⟨hlen, h, by simp⟩, hg⟩

/-- What the levels from one on find, from a row. -/
theorem mem_rows_drop {r x : Row} (hr : Accepted ops n os r) (hx : Accepted ops n os x) (i : ℕ) :
    x ∈ Search.enum ((os.drop i).map (BGPOp.level ops)) r ↔ ∀ o ∈ os.take i, ∀ j ∈ o.writes, x.val j = r.val j := by
  obtain ⟨B', hto, hB'⟩ := hos.drop i
  rw [Search.mem_enum (hto.plan hl) (Agree.refl hr.1)]
  constructor
  · rintro ⟨h, -⟩ o ho j hj
    exact (h.val j ((hB' j).2 (.inr ⟨o, ho, hj⟩))).symm
  · intro h
    refine ⟨⟨hr.1, hx.1, fun j hj => ?_⟩, List.forall_mem_map.2 fun o ho => hx.2 o (List.mem_of_mem_drop ho)⟩
    obtain ⟨o, ho, hj⟩ := ((hB' j).1 hj).resolve_left (by simp)
    exact (h o ho j hj).symm

/-- They find all rows if these agree on what is written above. -/
theorem rows_drop_eq_iff (hboth : ∀ o ∈ os, o.KeepsBoth) {r : Row} (hr : Accepted ops n os r) (i : ℕ) :
    Search.enum ((os.drop i).map (BGPOp.level ops)) r = Search.enum (os.map (BGPOp.level ops)) (List.replicate n 0) ↔
      ∀ x, Accepted ops n os x → ∀ o ∈ os.take i, ∀ j ∈ o.writes, x.val j = r.val j := by
  have hlen : (List.replicate n (0 : UInt64)).length = n := List.length_replicate
  set rows := Search.enum (os.map (BGPOp.level ops)) (List.replicate n 0) with hrows
  constructor
  · intro h x hx
    apply (mem_rows_drop hl hos hr hx i).1
    rw [h]
    exact (mem_rows hl hos).2 hx
  · intro h
    have hsub : rows ⊆ Search.enum ((os.drop i).map (BGPOp.level ops)) r := by
      intro x hx
      have hacc : Accepted ops n os x := (mem_rows hl hos).1 hx
      exact (mem_rows_drop hl hos hr hacc i).2 (h x hacc)
    have hnodup : rows.Nodup := Search.nodup_enum (hos.separated hl hboth) (Agree.refl hlen)
    have hinfix : Search.enum ((os.drop i).map (BGPOp.level ops)) r <:+: rows := by
      rw [List.map_drop]
      exact Search.enum_drop_infix (hos.plan hl) (Agree.refl hlen) ⟨hlen, hr.1, by simp⟩ (List.forall_mem_map.2 hr.2) i
    exact hinfix.sublist.eq_of_length_le (hnodup.subperm hsub).length_le

/-- An iterator that has left all levels gives nothing. -/
theorem rowsAgain_eq_iff_of_left {it : BGPIterator T} (hopen : it.unfinished = []) :
    it.rowsAgain ops os = Search.enum (os.map (BGPOp.level ops)) (List.replicate n 0) ↔ it.OneLevelLeft ops n os := by
  rw [BGPIterator.rowsAgain, hopen, BGPIterator.OneLevelLeft, hopen, List.flatMap_nil]
  constructor
  · intro h
    refine .inl fun x hx => ?_
    have hmem := (mem_rows hl hos).2 hx
    rw [← h] at hmem
    simp at hmem
  · rintro (hno | ⟨i, hi, -⟩)
    · symm
      exact List.eq_nil_iff_forall_not_mem.2 fun x hx => hno x ((mem_rows hl hos).1 hx)
    · simp at hi

/-- **The rows again**, if none is found twice: one level finds them all. -/
theorem rowsAgain_eq_iff (hboth : ∀ o ∈ os, o.KeepsBoth) {it : BGPIterator T} (hr : Accepted ops n os it.tmpHolder) :
    it.rowsAgain ops os = Search.enum (os.map (BGPOp.level ops)) (List.replicate n 0) ↔ it.OneLevelLeft ops n os := by
  have hlen : (List.replicate n (0 : UInt64)).length = n := List.length_replicate
  have hnodup : (Search.enum (os.map (BGPOp.level ops)) (List.replicate n 0)).Nodup :=
    Search.nodup_enum (hos.separated hl hboth) (Agree.refl hlen)
  have hmem : ∀ i, it.tmpHolder ∈ Search.enum ((os.drop i).map (BGPOp.level ops)) it.tmpHolder :=
    fun i => (mem_rows_drop hl hos hr hr i).2 fun _ _ _ _ => rfl
  constructor
  · intro h
    unfold BGPIterator.rowsAgain at h
    cases hu : it.unfinished with
    | nil =>
      rw [hu] at h
      have hfirst := (mem_rows hl hos).2 hr
      rw [← h] at hfirst
      simp at hfirst
    | cons i rest =>
      cases rest with
      | nil =>
        rw [hu, List.flatMap_singleton, rows_drop_eq_iff hl hos hboth hr i] at h
        exact .inr ⟨i, hu, h⟩
      | cons j rest =>
        -- the row in the holder is found from both levels
        rw [← h, hu, List.flatMap_cons, List.flatMap_cons] at hnodup
        exact absurd (List.mem_append_left _ (hmem j)) (List.disjoint_of_nodup_append hnodup (hmem i))
  · rintro (hno | ⟨i, hu, h⟩)
    · exact absurd hr (hno _)
    · unfold BGPIterator.rowsAgain
      rw [hu, List.flatMap_singleton]
      exact (rows_drop_eq_iff hl hos hboth hr i).2 h

end Rows

open BGPIterator in
/-- **Resetting.** After `k` calls of `next`, a reset iterator gives the rows of a new one
if and only if the searches from the levels that are not finished find the whole answer;
where no row is found twice, if and only if no row is accepted, or one level is left and
all rows agree with the row holder above it. -/
theorem restarts_iff (hl : ops.Lawful) {os : List (BGPOp T)} {headers : List ℕ} {c : TimeControl}
    (hos : ToEnter headers.length [] os) (hfresh : ∀ o ∈ os, o.resetOp ops = o) (hne : os ≠ []) (hc : c.NeverExpires)
    (k : ℕ) : ∃ N, ∀ fuel, N ≤ fuel → ∃ row it₀ it, construct ops fuel os headers c = (.ok row, it₀) ∧
      nexts ops fuel k it₀ = (.ok (), it) ∧
      (it.Restarts ops fuel os headers c ↔
        it.rowsAgain ops os = Search.enum (os.map (BGPOp.level ops)) (List.replicate headers.length 0)) ∧
      ((∀ o ∈ os, o.KeepsBoth) → (it.Restarts ops fuel os headers c ↔ it.OneLevelLeft ops headers.length os)) := by
  set row₀ : Row := List.replicate headers.length 0 with hrow₀
  set levels := os.map (BGPOp.level ops) with hlevels
  -- the steps of a search from each level, with the row that will be in the holder
  set again := ((List.range os.length).map fun i =>
    (Search.trace ((os.drop i).map (BGPOp.level ops)) ((Search.enum levels row₀).getD k row₀)).length).sum with hagain
  refine ⟨(Search.trace levels row₀).length + again + 1, fun fuel hfuel => ?_⟩
  have hsize : (Search.trace levels row₀).length < fuel := by omega
  have hagainsize : again < fuel := by omega
  obtain ⟨row, it₀, hcon, hfinds₀⟩ := construct_finds hl hos hfresh hne hc hsize
  obtain ⟨it, hnexts, hfinds⟩ := nexts_finds hl hsize k hfinds₀
  obtain ⟨it₄, hdrain₀⟩ := drain_spec hl hsize ((Search.length_enum_le _ _).trans_lt hsize) hfinds₀.delivers
  have hops : it.bgpOps.map (BGPOp.resetOp ops) = os := by
    have h := steady_nexts (steady_operators ops os) fuel k it₀ (operators_of_construct hfresh hcon)
    rwa [hnexts] at h
  obtain ⟨below, above, B, hat, -, htodo⟩ := hfinds
  have hreset : ∃ it₁ it₂, resetIterator ops fuel it = (.ok (), it₁) ∧
      drain ops fuel fuel it₁ = (.ok (it.rowsAgain ops os), it₂) := by
    refine hat.reset_drain hl hops ?_
    cases hk : (Search.enum levels row₀).drop k with
    | nil =>
      rw [hk] at htodo
      rw [htodo.2, List.length_nil, List.range_zero]
      simp only [List.map_nil, List.sum_nil]
      omega
    | cons first rest =>
      rw [hk] at htodo
      have hfirst : (Search.enum levels row₀).getD k row₀ = first := by
        rw [List.getD_eq_getElem?_getD, ← List.head?_drop, hk]
        rfl
      have hbelow : below.length = os.length := by
        rw [← hops, List.length_map, hat.bgpOps, htodo.2.1]
        simp
      rw [hbelow, htodo.2.2, ← hfirst]
      exact hagainsize
  obtain ⟨it₁, it₂, hreset, hdrain⟩ := hreset
  have hrestarts : it.Restarts ops fuel os headers c ↔ it.rowsAgain ops os = Search.enum levels row₀ :=
    restarts_iff_eq hreset hdrain hcon hdrain₀
  refine ⟨row, it₀, it, hcon, hnexts, hrestarts, fun hboth => ?_⟩
  rw [hrestarts]
  cases hk : (Search.enum levels row₀).drop k with
  | nil =>
    rw [hk] at htodo
    refine rowsAgain_eq_iff_of_left hl hos ?_
    rw [hat.unfinished, htodo.2]
    rfl
  | cons first rest =>
    rw [hk] at htodo
    have hmem : it.tmpHolder ∈ Search.enum levels row₀ := by
      rw [htodo.2.2]
      exact List.mem_of_mem_drop (by rw [hk]; exact List.mem_cons_self)
    exact rowsAgain_eq_iff hl hos hboth ((mem_rows hl hos).1 hmem)

namespace PointTree

/-- The operators of the chain: `?x ?y` are bound, then `?z`. -/
theorem chainOps_toEnter : ToEnter 3 [] chainOps := by
  have hne : (1 : ℕ) ≠ 2 := by decide
  refine .cons ⟨rfl, ?_, ?_, ?_⟩ (.cons ⟨hne, ?_, ?_, ?_⟩ (.nil ?_))
  · decide
  · decide
  · decide
  · decide
  · decide
  · decide
  · decide

theorem chainOps_fresh : ∀ o ∈ chainOps, o.resetOp PointTree.ops = o :=
  List.forall_mem_cons.2 ⟨rfl, List.forall_mem_cons.2 ⟨rfl, by simp⟩⟩

theorem chainOps_keepsBoth : ∀ o ∈ chainOps, o.KeepsBoth :=
  List.forall_mem_cons.2 ⟨show (0 : ℕ) ≠ 1 by decide, List.forall_mem_cons.2 ⟨trivial, by simp⟩⟩

end PointTree

open PointTree in
/-- The chain, where no row is found twice, after one row. -/
theorem restarts_iff_chain : ∃ N, ∀ fuel, N ≤ fuel → ∃ row it₀ it,
    BGPIterator.construct PointTree.ops fuel chainOps [1, 2, 3] (TimeControl.counting 0) = (.ok row, it₀) ∧
    BGPIterator.nexts PointTree.ops fuel 1 it₀ = (.ok (), it) ∧
    (it.Restarts PointTree.ops fuel chainOps [1, 2, 3] (TimeControl.counting 0) ↔
      it.OneLevelLeft PointTree.ops 3 chainOps) := by
  obtain ⟨N, hN⟩ := @restarts_iff _ PointTree.ops ops_lawful chainOps [1, 2, 3] (TimeControl.counting 0) chainOps_toEnter
    chainOps_fresh (by simp [chainOps]) ⟨rfl, fun _ => rfl⟩ 1
  refine ⟨N, fun fuel hfuel => ?_⟩
  obtain ⟨row, it₀, it, h1, h2, -, h3⟩ := hN fuel hfuel
  exact ⟨row, it₀, it, h1, h2, h3 chainOps_keepsBoth⟩

/-- A reset iterator of the chain, by the rows it gives. -/
theorem PointTree.chain_restarts_iff {it : BGPIterator PointTree} {rows : List Row}
    (h₁ : (BGPIterator.resetIterator PointTree.ops 20 it).1 = .ok ())
    (h₂ : (BGPIterator.drain PointTree.ops 20 20 (BGPIterator.resetIterator PointTree.ops 20 it).2).1 = .ok rows) :
    it.Restarts PointTree.ops 20 chainOps [1, 2, 3] (TimeControl.counting 0) ↔ rows = chainRows :=
  BGPIterator.restarts_iff_eq (Prod.ext h₁ rfl) (Prod.ext h₂ rfl) construct_chain drain_chain

open PointTree in
/-- In the chain, a new iterator that is reset gives the rows of its first point twice, and
one that has given all its rows gives none. -/
theorem not_restarts_chain :
    ¬ chainIterator.Restarts PointTree.ops 20 chainOps [1, 2, 3] (TimeControl.counting 0) ∧
      ∃ it, BGPIterator.nexts PointTree.ops 20 5 chainIterator = (.ok (), it) ∧
        ¬ it.Restarts PointTree.ops 20 chainOps [1, 2, 3] (TimeControl.counting 0) := by
  constructor
  · have hrows : [[1, 2, 7], [1, 2, 8], [1, 2, 7], [1, 2, 8], [1, 3, 9], [4, 2, 7], [4, 2, 8]] ≠ chainRows := by decide
    intro h
    exact hrows ((chain_restarts_iff (by decide +kernel) (by decide +kernel)).1 h)
  · have hnexts : (BGPIterator.nexts PointTree.ops 20 5 chainIterator).1 = .ok () := by decide +kernel
    refine ⟨(BGPIterator.nexts PointTree.ops 20 5 chainIterator).2, by rw [← hnexts], fun h => ?_⟩
    have hrows : [] ≠ chainRows := by decide
    exact hrows ((chain_restarts_iff (by decide +kernel) (by decide +kernel)).1 h)

end K2Cache
