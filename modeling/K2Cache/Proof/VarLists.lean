import K2Cache.Proof.BgpStream

/-!
# Arbitrary lists of names

The loop over a row has a round for each position of the row, and reads the permutation,
which has an entry for each name, at that round: nobody compares the two lengths. A name that
is in no pattern has the position of another variable.

`varListHandled_iff`: a list of names is handled if and only if there are as many as the
patterns have variables and each is one of them, or the first row is not sent at all.
-/

namespace K2Cache

open Lib

variable {T : Type} {ops : TreeOps T}

/-! ## The length of the rows -/

namespace BGPOp

/-- An operator writes to the row in place. -/
theorem run_length {o : BGPOp T} {c : TimeControl} {row : Row} {ran : Ran T} (h : o.run ops c row = .ok ran) :
    ran.row.length = row.length := by
  have hband : ∀ (wv : Vars) (s : K2TreeScanner T) (sp op : ℕ) (band : K2TreeScanner T) (v : UInt64) (c : TimeControl),
      (runBand wv s sp op band v c row).row.length = row.length := by
    intro wv s sp op band v c
    unfold runBand
    split
    · rfl
    · simp only
      split
      · rfl
      · exact List.length_set
  unfold run at h
  simp only at h
  split at h
  · rw [← Except.ok.inj h]
  · split at h
    · split at h <;> rw [← Except.ok.inj h]
    · split at h
      · rw [← Except.ok.inj h, hband]
      · split at h <;> rw [← Except.ok.inj h, hband]
    · split at h
      · rw [← Except.ok.inj h]
      · split at h <;> rw [← Except.ok.inj h]
        simp
    · split at h
      · simp at h
      · rw [← Except.ok.inj h]
    · split at h
      · rw [← Except.ok.inj h]
      · split at h <;> rw [← Except.ok.inj h]
        simp
    · rw [← Except.ok.inj h]

end BGPOp

namespace BGPIterator

/-- The row that is filled, and the one for the caller, have a value for each header. -/
def Sized (n : ℕ) (it : BGPIterator T) : Prop :=
  it.tmpHolder.length = n ∧ (it.nextAvailable = true → it.nextValue.length = n)

variable {n : ℕ}

open Act

theorem steady_sized : Steady ops (Sized n) where
  clock _ h := h
  run _ _ _ _ hran h := ⟨(BGPOp.run_length hran).trans h.1, h.2⟩
  done _ h := h
  down _ h := h
  retreat _ h := h
  clear _ h := ⟨h.1, by simp⟩
  emit _ h := ⟨h.1, fun _ => h.1⟩

theorem sized_of_construct {fuel : ℕ} {os : List (BGPOp T)} {headers : List ℕ} {c : TimeControl} {r : Except Halt Row}
    {it : BGPIterator T} (h : construct ops fuel os headers c = (r, it)) : it.Sized headers.length := by
  have hinit : (init os headers c).Sized headers.length := ⟨List.length_replicate, by simp [init]⟩
  have hkeep : (nextConcrete ops fuel (init os headers c)).2.Sized headers.length :=
    steady_sized.keeps_nextConcrete fuel _ hinit
  rw [construct] at h
  rwa [h] at hkeep

/-- What `next` returns is what was ready. -/
theorem next_row {fuel : ℕ} {it it' : BGPIterator T} {row : Row} (h : next ops fuel it = (.ok row, it')) :
    row = it.nextValue := by
  obtain ⟨go, it₁, htick, h⟩ := bind_eq_ok h
  rw [get_bind] at h
  have hvalue : it₁.nextValue = it.nextValue := by
    rw [← (Prod.mk.inj htick).2]
  split at h
  · rw [modify_bind] at h
    obtain ⟨_, _, -, h⟩ := bind_eq_ok h
    rw [← Except.ok.inj (Prod.mk.inj h).1, hvalue]
  · rw [← Except.ok.inj (Prod.mk.inj h).1, hvalue]

end BGPIterator

/-- The rows of a query have a value for each header. -/
def QueryIterator.Sized (n : ℕ) : QueryIterator T → Prop
  | .empty _ => True
  | .bgp it => it.Sized n

namespace QueryIterator

variable {n fuel : ℕ} {it it' : QueryIterator T} {row : Row}

theorem Sized.next (h : it.Sized n) (hnext : it.hasNext = true) (hrow : it.next ops fuel = (.ok row, it')) :
    row.length = n ∧ it'.Sized n := by
  cases it with
  | empty headers => simp [hasNext] at hnext
  | bgp it =>
    obtain ⟨h1, rfl⟩ := Prod.mk.inj hrow
    have heq : BGPIterator.next ops fuel it = (.ok row, (BGPIterator.next ops fuel it).2) := Prod.ext h1 rfl
    rw [BGPIterator.next_row heq]
    exact ⟨h.2 hnext, BGPIterator.steady_sized.keeps_nextConcrete fuel it h⟩

theorem sized_of_executeIt {fetch : UInt64 → Option T} {getId : UInt64 → UInt64} {vim : VarIndexManager} {c : TimeControl}
    {patterns : List BGPTriple} (h : executeIt ops fetch getId vim c patterns fuel = .ok it) :
    it.Sized (findHeaders vim (patterns.map (BGPTriple.resolve getId))).headerVec.length := by
  unfold executeIt at h
  simp only at h
  split at h
  · split at h
    · simp at h
    · split at h
      · rename_i hcon
        obtain rfl := Except.ok.inj h
        exact BGPIterator.sized_of_construct hcon
      · simp at h
  · obtain rfl := Except.ok.inj h
    trivial

end QueryIterator

/-! ## Rows and names -/

/-- There are as many names as the patterns have variables, and each is one of them. -/
def BGPMessage.NamesFit (m : BGPMessage) : Prop :=
  m.varNames.length = (patternVars m.patterns).ncard ∧ ∀ x ∈ m.varNames, x ∈ patternVars m.patterns

theorem Headers.Of.length_eq_ncard {h : Headers} {V : Set String} (hv : h.Of V) : h.headerVec.length = V.ncard := by
  have himage : h.pos '' V = Set.Iio h.headerVec.length := by
    ext j
    constructor
    · rintro ⟨x, hx, rfl⟩
      exact hv.pos_lt hx
    · intro hj
      exact hv.pos_surj hj
  have hinj : Set.InjOn h.pos V := fun x hx y hy he => hv.pos_inj hx hy he
  rw [← hinj.ncard_image, himage, Set.ncard_Iio_nat]

/-- **A row is handled**: nothing is indexed outside, and what is sent has a value for each
name, the one the row binds it to; that of a name in no pattern is no variable's. -/
structure RowHandled (cache : CacheContainer T) (V : Set String) (h : Headers) (names : List String) (row : Row) : Prop where
  inside : BGPStreamer.rowValues cache (getPermutationVec h names) row ≠ .error .outOfRange
  length : ∀ vs : List UInt64, BGPStreamer.rowValues cache (getPermutationVec h names) row = .ok vs → vs.length = names.length
  bound : ∀ vs : List UInt64, BGPStreamer.rowValues cache (getPermutationVec h names) row = .ok vs →
    ∀ (i : ℕ) (x : String), names[i]? = some x → x ∈ V → vs[i]? = some (cache.realOf (rowValue h.pos row x))
  unbound : ∀ vs : List UInt64, BGPStreamer.rowValues cache (getPermutationVec h names) row = .ok vs →
    ∀ (i : ℕ) (x : String), names[i]? = some x → x ∉ V → ∀ y ∈ V, vs[i]? ≠ some (cache.realOf (rowValue h.pos row y))

/-- At the position of some name the row has an id without a real id, which is thrown for. -/
def RowThrows (cache : CacheContainer T) (h : Headers) (names : List String) (row : Row) : Prop :=
  ∃ i, ∃ x, i < row.length ∧ names[i]? = some x ∧ ¬ cache.HasReal (rowValue h.pos row x)

theorem exists_range_append {i n : ℕ} (h : i < n) : ∃ post, List.range n = List.range i ++ i :: post := by
  obtain ⟨k, rfl⟩ : ∃ k, n = i + (k + 1) := ⟨n - i - 1, by omega⟩
  exact ⟨(List.map Nat.succ (List.range k)).map (i + ·), by rw [List.range_add, List.range_succ_eq_map]; rfl⟩

section Row

variable (cache : CacheContainer T) {V : Set String} {h : Headers} (hv : h.Of V) {names : List String} {row : Row}
  (hrow : row.length = h.headerVec.length)
include hrow

/-- The first such id is thrown for. -/
theorem RowThrows.rowValues (hthrow : RowThrows cache h names row) :
    ∃ msg, BGPStreamer.rowValues cache (getPermutationVec h names) row = .error (.runtimeError msg) := by
  classical
  obtain ⟨⟨x, hi, hx, hreal⟩, hmin⟩ := And.intro (Nat.find_spec hthrow) fun j => Nat.find_min (m := j) hthrow
  set i := Nat.find hthrow
  obtain ⟨hn, rfl⟩ := List.getElem?_eq_some_iff.1 hx
  obtain ⟨msg, hmsg⟩ := BGPStreamer.cellValue_of_not_real cache h names hrow hi hn hreal
  refine ⟨msg, ?_⟩
  obtain ⟨post, hsplit⟩ := exists_range_append hi
  rw [BGPStreamer.rowValues, hsplit]
  refine BGPStreamer.valuesAt_error cache (fun j hj => ?_) hmsg
  have hj' : j < i := List.mem_range.1 hj
  refine ⟨_, BGPStreamer.cellValue_of_real cache h names hrow (by omega) (by omega) ?_⟩
  by_contra hnot
  exact hmin j hj' ⟨names[j], by omega, List.getElem?_eq_getElem _, hnot⟩

/-- A row that is not sent is handled. -/
theorem RowThrows.handled (hthrow : RowThrows cache h names row) : RowHandled cache V h names row := by
  obtain ⟨msg, hmsg⟩ := hthrow.rowValues cache hrow
  have hnot : ∀ vs : List UInt64, BGPStreamer.rowValues cache (getPermutationVec h names) row ≠ .ok vs := by
    intro vs hvs
    rw [hmsg] at hvs
    simp at hvs
  refine ⟨?_, fun vs hvs => absurd hvs (hnot vs), fun vs hvs => absurd hvs (hnot vs), fun vs hvs => absurd hvs (hnot vs)⟩
  rw [hmsg]
  simp

/-- A row that is sent. -/
theorem rowValues_of_not_throws (hlen : row.length ≤ names.length) (hthrow : ¬ RowThrows cache h names row) :
    BGPStreamer.rowValues cache (getPermutationVec h names) row =
      .ok ((names.take row.length).map fun x => cache.realOf (rowValue h.pos row x)) := by
  refine BGPStreamer.rowValues_ok cache h hrow hlen fun x hx => ?_
  obtain ⟨i, hi, rfl⟩ := List.mem_take_iff_getElem.1 hx
  by_contra hnot
  exact hthrow ⟨i, _, by omega, List.getElem?_eq_getElem _, hnot⟩

/-- Names that fit are handled. -/
theorem handled_of_fit (hlen : names.length = row.length) (hV : ∀ x ∈ names, x ∈ V) : RowHandled cache V h names row := by
  by_cases hthrow : RowThrows cache h names row
  · exact hthrow.handled cache hrow
  · have hvalues := rowValues_of_not_throws cache hrow hlen.ge hthrow
    rw [List.take_of_length_le hlen.le] at hvalues
    refine ⟨by rw [hvalues]; simp, fun vs hvs => ?_, fun vs hvs i x hx _ => ?_, fun vs hvs i x hx hnot => ?_⟩
    · obtain rfl := Except.ok.inj (hvalues.symm.trans hvs)
      rw [List.length_map]
    · obtain rfl := Except.ok.inj (hvalues.symm.trans hvs)
      rw [List.getElem?_map, hx, Option.map_some]
    · exact absurd (hV x (List.mem_of_getElem? hx)) hnot

include hv in
/-- **What a row that is handled says about the names.** -/
theorem RowHandled.fit (hrowh : RowHandled cache V h names row) (hthrow : ¬ RowThrows cache h names row) :
    names.length = row.length ∧ ∀ x ∈ names, x ∈ V := by
  -- the round behind the last name would read outside the permutation
  have hle : row.length ≤ names.length := by
    by_contra hlt
    obtain ⟨post, hsplit⟩ := exists_range_append (show names.length < row.length by omega)
    refine hrowh.inside ?_
    rw [BGPStreamer.rowValues, hsplit]
    refine BGPStreamer.valuesAt_error cache (fun j hj => ?_) (BGPStreamer.cellValue_of_length_le cache h names le_rfl)
    have hj' : j < names.length := List.mem_range.1 hj
    refine ⟨_, BGPStreamer.cellValue_of_real cache h names hrow (by omega) hj' ?_⟩
    by_contra hnot
    exact hthrow ⟨j, _, by omega, List.getElem?_eq_getElem hj', hnot⟩
  have hvalues := rowValues_of_not_throws cache hrow hle hthrow
  have hlen : names.length = row.length := by
    have := hrowh.length _ hvalues
    rw [List.length_map, List.length_take] at this
    omega
  refine ⟨hlen, fun x hx => ?_⟩
  -- the value of another name is that of the variable at its position
  by_contra hnot
  obtain ⟨i, hi, rfl⟩ := List.mem_iff_getElem.1 hx
  obtain ⟨y, hy, hpos⟩ := hv.pos_surj (h.pos_lt_of_pos (by omega) names[i])
  refine hrowh.unbound _ hvalues i names[i] (List.getElem?_eq_getElem hi) hnot y hy ?_
  rw [List.take_of_length_le hlen.le, List.getElem?_map, List.getElem?_eq_getElem hi, Option.map_some, rowValue, rowValue, hpos]

end Row

/-! ## The rows of a query -/

/-- A row the loop over the rows comes to: those before it were sent. -/
inductive Reaches (ops : TreeOps T) (cache : CacheContainer T) (permutationVec : List ℕ) (fuel : ℕ) :
    QueryIterator T → Row → Prop
  | here {it it' : QueryIterator T} {row : Row} (hnext : it.hasNext = true) (h : it.next ops fuel = (.ok row, it')) :
      Reaches ops cache permutationVec fuel it row
  | later {it it' : QueryIterator T} {row row' : Row} {vs : List UInt64} (hnext : it.hasNext = true)
      (h : it.next ops fuel = (.ok row, it')) (hsent : BGPStreamer.rowValues cache permutationVec row = .ok vs)
      (hlater : Reaches ops cache permutationVec fuel it' row') : Reaches ops cache permutationVec fuel it row'

/-- The variables of a message. -/
def BGPMessage.headers (cache : CacheContainer T) (m : BGPMessage) : Headers :=
  findHeaders .construct (m.patterns.map (BGPTriple.resolve cache.nodeIds.getId))

/-- **The list of names is handled**, for every row of the query. -/
def VarListHandled (ops : TreeOps T) (cache : CacheContainer T) (c : TimeControl) (m : BGPMessage) : Prop :=
  ∀ fuel it row, executeIt ops cache.fetchK2tree cache.nodeIds.getId .construct c m.patterns fuel = .ok it →
    Reaches ops cache (getPermutationVec (m.headers cache) m.varNames) fuel it row →
    RowHandled cache (patternVars m.patterns) (m.headers cache) m.varNames row

/-- The first row, if there is one, is not sent: it is thrown for an id without a real id. -/
def FirstRowThrows (ops : TreeOps T) (cache : CacheContainer T) (c : TimeControl) (m : BGPMessage) : Prop :=
  ∀ fuel it it' row, executeIt ops cache.fetchK2tree cache.nodeIds.getId .construct c m.patterns fuel = .ok it →
    it.hasNext = true → it.next ops fuel = (.ok row, it') → RowThrows cache (m.headers cache) m.varNames row

theorem Reaches.length {cache : CacheContainer T} {perm : List ℕ} {fuel n : ℕ} {it : QueryIterator T} {row : Row}
    (h : Reaches ops cache perm fuel it row) (hit : it.Sized n) : row.length = n := by
  induction h with
  | here hnext h => exact (hit.next hnext h).1
  | later hnext h _ _ ih => exact ih (hit.next hnext h).2

section Message

variable {cache : CacheContainer T} {c : TimeControl} {m : BGPMessage}

theorem BGPMessage.headers_of (cache : CacheContainer T) (m : BGPMessage) : (m.headers cache).Of (patternVars m.patterns) := by
  have hof := findHeaders_of VarIndexManager.construct_valid (m.patterns.map (BGPTriple.resolve cache.nodeIds.getId))
  rwa [patternVars_resolve] at hof

/-- If the first row is sent, the names fit. -/
theorem VarListHandled.fit (h : VarListHandled ops cache c m) (hfirst : ¬ FirstRowThrows ops cache c m) : m.NamesFit := by
  rw [FirstRowThrows] at hfirst
  push Not at hfirst
  obtain ⟨fuel, it, it', row, hit, hnext, hrow, hthrow⟩ := hfirst
  have hof := m.headers_of cache
  have hlen := (QueryIterator.sized_of_executeIt hit).next hnext hrow
  obtain ⟨h1, h2⟩ := (h fuel it row hit (.here hnext hrow)).fit cache hof hlen.1 hthrow
  exact ⟨by rw [h1, hlen.1]; exact hof.length_eq_ncard, h2⟩

/-- **Lists of names.** A list is handled if and only if it has as many names as the patterns
have variables, all of them variables, or the first row is not sent. -/
theorem varListHandled_iff : VarListHandled ops cache c m ↔ m.NamesFit ∨ FirstRowThrows ops cache c m := by
  constructor
  · intro h
    by_cases hfirst : FirstRowThrows ops cache c m
    · exact .inr hfirst
    · exact .inl (h.fit hfirst)
  · rintro (hfit | hfirst) fuel it row hit hreach
    · have hlen := hreach.length (QueryIterator.sized_of_executeIt hit)
      refine handled_of_fit cache hlen ?_ hfit.2
      rw [hfit.1, hlen]
      exact (m.headers_of cache).length_eq_ncard.symm
    · have hsized := QueryIterator.sized_of_executeIt hit
      cases hreach with
      | here hnext hrow =>
        exact (hfirst fuel it _ row hit hnext hrow).handled cache (hsized.next hnext hrow).1
      | later hnext hrow hsent _ =>
        obtain ⟨msg, hmsg⟩ := (hfirst fuel it _ _ hit hnext hrow).rowValues cache (hsized.next hnext hrow).1
        exact absurd (hmsg.symm.trans hsent) (by simp)

end Message

open PointTree in
/-- In the chain, asked for `x` only, the permutation is read behind its one entry. -/
theorem varListHandled_fails :
    ¬ VarListHandled PointTree.ops chainCache ⟨1000, 0, false, fun _ => false, 0⟩ ⟨["x"], chainPatterns, false⟩ := by
  intro h
  have hfirst : ¬ FirstRowThrows PointTree.ops chainCache ⟨1000, 0, false, fun _ => false, 0⟩
      ⟨["x"], chainPatterns, false⟩ := by
    intro hfirst
    have hrun : (match executeIt PointTree.ops chainFetch id .construct ⟨1000, 0, false, fun _ => false, 0⟩ chainPatterns 100 with
        | .ok it => it.hasNext && (it.next PointTree.ops 100).1.isOk
        | .error _ => false) = true := by decide +kernel
    cases hit : executeIt PointTree.ops chainFetch id .construct ⟨1000, 0, false, fun _ => false, 0⟩ chainPatterns 100 with
    | error e => simp [hit] at hrun
    | ok it =>
      simp only [hit, Bool.and_eq_true] at hrun
      cases hrow : (it.next PointTree.ops 100).1 with
      | error e => simp [hrow, Except.isOk, Except.toBool] at hrun
      | ok row =>
        obtain ⟨i, x, -, -, hreal⟩ := hfirst 100 it _ row hit hrun.1 (Prod.ext hrow rfl)
        exact hreal rfl
  have hlen : (["x"] : List String).length = (patternVars chainPatterns).ncard := (h.fit hfirst).1
  rw [← (BGPMessage.headers_of chainCache ⟨["x"], chainPatterns, false⟩).length_eq_ncard] at hlen
  exact absurd hlen (by decide)

end K2Cache
