import K2Cache.Lib.Emits
import K2Cache.Lib.Trail
import K2Cache.Spec.PathSearch
import K2Cache.Proof.StoredGraph

/-!
# The paths of an index

The graph of an index has a triple for each point of the trees of its predicates. The search
goes down the trails of the graph (`Trail`): what it reports from a triple on are the trails
behind it that use no triple it has passed, and each exit leaves the set of these triples as
it was.

* `findPathsSubjOrigin_emits`: the recursion enumerates the trails that start with a triple
  of one subject and one predicate, until the limit is reached.
* `findNPaths_exact`: `find_n_paths` returns paths of the graph, none twice, and as many as
  there are or were asked for.
-/

namespace K2Cache

open Lib

variable {T : Type} {P : CacheParams T}

/-! ## The graph -/

/-- The triples of the predicates, from the points of their trees. -/
def graphEdges (ids : List UInt64) (graph : UInt64 → Set Point) : Set RDFTriple :=
  {t | t.predicate ∈ ids ∧ (t.subject, t.object) ∈ graph t.predicate}

/-- The paths of `n` triples. -/
def graphPaths (ids : List UInt64) (graph : UInt64 → Set Point) (n : ℕ) : Set DirectedPath :=
  {path | path.length = n ∧ IsPath RDFTriple.subject RDFTriple.object (graphEdges ids graph) path}

/-- The paths that go on behind `path` from `v` with `k` triples that were not visited. -/
def Continued (edges visited : Set RDFTriple) (path : DirectedPath) (v : UInt64) (k : ℕ) : Set DirectedPath :=
  {w | ∃ l, w = path ++ l ∧ l.length = k ∧ Trail RDFTriple.subject RDFTriple.object edges visited v l}

/-- Those of them whose next triple has the predicate. -/
def ContinuedBy (edges visited : Set RDFTriple) (path : DirectedPath) (v p : UInt64) (k : ℕ) : Set DirectedPath :=
  ⋃ t ∈ {t : RDFTriple | (t.subject = v ∧ t ∈ edges ∧ t ∉ visited) ∧ t.predicate = p},
    Continued edges (insert t visited) (path ++ [t]) t.object k

section Graph

variable {edges visited : Set RDFTriple} {path : DirectedPath} {v : UInt64}

theorem continued_zero : Continued edges visited path v 0 = {path} := by
  ext w
  constructor
  · rintro ⟨l, rfl, hl, -⟩
    rw [List.length_eq_zero_iff.1 hl, List.append_nil]
    rfl
  · rintro rfl
    exact ⟨[], (List.append_nil _).symm, rfl, .nil⟩

/-- The next triple has one of the predicates. -/
theorem continued_succ (ids : List UInt64) {k : ℕ} (hids : ∀ t ∈ edges, t.predicate ∈ ids) :
    Continued edges visited path v (k + 1) = ⋃ p ∈ ids, ContinuedBy edges visited path v p k := by
  ext w
  simp only [ContinuedBy, Set.mem_iUnion, Set.mem_ofPred_eq, exists_prop, Continued]
  constructor
  · rintro ⟨l, rfl, hl, htrail⟩
    obtain ⟨t, l, rfl⟩ := List.exists_cons_of_length_eq_add_one hl
    obtain ⟨ht, hrest⟩ := trail_cons_iff.1 htrail
    exact ⟨t.predicate, hids t ht.2.1, t, ⟨ht, rfl⟩, l, by simp, by simpa using hl, hrest⟩
  · rintro ⟨p, -, t, ⟨ht, -⟩, l, rfl, hl, hrest⟩
    exact ⟨t :: l, by simp, by simp [hl], trail_cons_iff.2 ⟨ht, hrest⟩⟩

theorem continued_disjoint {visited' : Set RDFTriple} {t t' : RDFTriple} {v' : UInt64} {k : ℕ} (h : t ≠ t') :
    Disjoint (Continued edges visited (path ++ [t]) v k) (Continued edges visited' (path ++ [t']) v' k) := by
  rw [Set.disjoint_left]
  rintro w ⟨l, rfl, -⟩ ⟨l', he, -⟩
  rw [List.append_assoc, List.append_assoc] at he
  have he' := List.append_cancel_left he
  exact h (List.cons.inj he').1

theorem continuedBy_disjoint {v' p p' : UInt64} {k : ℕ} (h : v ≠ v' ∨ p ≠ p') :
    Disjoint (ContinuedBy edges visited path v p k) (ContinuedBy edges visited path v' p' k) := by
  refine Set.disjoint_iUnion₂_left.2 fun t ht => Set.disjoint_iUnion₂_right.2 fun t' ht' => ?_
  refine continued_disjoint ?_
  rintro rfl
  rcases h with h | h
  · exact h (ht.1.1.symm.trans ht'.1.1)
  · exact h (ht.2.symm.trans ht'.2)

/-- The paths of the graph start at a subject of a predicate. -/
theorem graphPaths_eq {ids : List UInt64} {graph : UInt64 → Set Point} (k : ℕ) :
    graphPaths ids graph (k + 1) =
      ⋃ p ∈ ids, ⋃ v ∈ {v | ∃ o, (v, o) ∈ graph p}, ContinuedBy (graphEdges ids graph) ∅ [] v p k := by
  ext w
  simp only [graphPaths, Set.mem_iUnion, Set.mem_ofPred_eq, exists_prop]
  constructor
  · rintro ⟨hlen, hw⟩
    obtain ⟨t, l, rfl⟩ := List.exists_cons_of_length_eq_add_one hlen
    have ht := hw.edges t List.mem_cons_self
    have htrail : Trail RDFTriple.subject RDFTriple.object (graphEdges ids graph) ∅ t.subject (t :: l) :=
      trail_iff.2 ⟨hw, fun _ _ => id, fun e he => by rw [List.head?_cons, Option.mem_some_iff] at he; rw [he]⟩
    obtain ⟨ht', hrest⟩ := trail_cons_iff.1 htrail
    refine ⟨t.predicate, ht.1, t.subject, ⟨t.object, ht.2⟩, ?_⟩
    simp only [ContinuedBy, Set.mem_iUnion, Set.mem_ofPred_eq, exists_prop]
    exact ⟨t, ⟨ht', rfl⟩, l, rfl, by simpa using hlen, hrest⟩
  · rintro ⟨p, -, v, -, hw⟩
    simp only [ContinuedBy, Set.mem_iUnion, Set.mem_ofPred_eq, exists_prop] at hw
    obtain ⟨t, ⟨ht, -⟩, l, rfl, hl, hrest⟩ := hw
    have htrail := trail_cons_iff.2 ⟨ht, hrest⟩
    exact ⟨by simp [hl], (trail_iff.1 htrail).1⟩

end Graph

/-! ## The limit -/

/-- The number of paths asked for. -/
def pathLimit (maxNumber : Int32) : ℕ := maxNumber.toInt.toNat

theorem limitReached_iff {maxNumber : Int32} {s : PathSearch T} (h : s.paths.length ≤ pathLimit maxNumber) :
    s.limitReached maxNumber = true ↔ s.paths.length = pathLimit maxNumber := by
  have hmax := Int32.toInt_lt maxNumber
  unfold pathLimit at h ⊢
  rw [PathSearch.limitReached, wrapInt_of_lt (by omega), decide_eq_true_eq]
  omega

/-! ## The search -/

namespace PathSearch

variable {ids : List UInt64} {graph : UInt64 → Set Point} {Good : Manager T → Prop} {maxNumber : Int32}

/-- The manager is good, and these triples are visited. -/
def At (Good : Manager T → Prop) (visited : Finset RDFTriple) (s : PathSearch T) : Prop :=
  Good s.manager ∧ s.visitedEdges = visited

/-- A fetch of a predicate of the graph. -/
theorem emits_fetch (h : Serving P ids graph Good) {visited : Finset RDFTriple} {p : UInt64} (hp : p ∈ ids)
    {α : Type} {f : T → Act Exn (PathSearch T) α} {J : PathSearch T → Prop} {Q : Set DirectedPath} {m : ℕ}
    (hf : ∀ t, P.ops.points t = graph p → Act.Emits paths m (At Good visited) J Q (f t)) :
    Act.Emits paths m (At Good visited) J Q (do
      let fetched ← onManager (Manager.fetchK2tree P p)
      let tree ← fetched.get
      f tree) := by
  refine Act.emits_value (V := fun fetched => ∃ t, fetched.result = some t ∧ P.ops.points t = graph p)
    (J := At Good visited) (fun s hs => ?_) fun fetched ht => ?_
  · obtain ⟨t, s', h1, h2, h3⟩ := h.fetch s.manager hs.1 p hp
    exact ⟨⟨true, some t⟩, { s with manager := s' }, by rw [onManager, Act.focus, h1], ⟨t, rfl, h2⟩, ⟨h3, hs.2⟩, rfl⟩
  · obtain ⟨t, hres, hpoints⟩ := ht
    intro s hs hm
    rw [PredicateFetchResult.get, hres]
    exact hf t hpoints s hs hm

/-- The path with the next triple. -/
theorem set_eq_take {path : DirectedPath} {n : ℕ} {t : RDFTriple} (hn : n < path.length) :
    (path.set n t).take (n + 1) = path.take n ++ [t] := by
  rw [List.take_add_one, List.take_set_of_le le_rfl, List.getElem?_set_self hn]
  rfl

/-- The next triples, in the tree of their predicate. -/
theorem continuedBy_eq {visited : Finset RDFTriple} {path : DirectedPath} {subject p : UInt64} {tree : T} {left : ℕ} (hp : p ∈ ids)
    (htree : P.ops.points tree = graph p) :
    ContinuedBy (graphEdges ids graph) visited path subject p left =
      ⋃ t ∈ {t : RDFTriple | (t.subject = subject ∧ (t.subject, t.object) ∈ P.ops.points tree ∧ t ∉ visited) ∧ t.predicate = p},
        Continued (graphEdges ids graph) (insert t ↑visited) (path ++ [t]) t.object left := by
  have hedge : ∀ t : RDFTriple, t.predicate = p → ((t.subject, t.object) ∈ P.ops.points tree ↔ t ∈ graphEdges ids graph) := by
    rintro t rfl
    rw [htree]
    exact ⟨fun ht => ⟨hp, ht⟩, fun ht => ht.2⟩
  refine Set.iUnion_congr fun t => Set.iUnion_congr_Prop ?_ fun _ => rfl
  simp only [Set.mem_ofPred_eq, Finset.mem_coe]
  constructor
  · rintro ⟨⟨h1, h2, h3⟩, h4⟩
    exact ⟨⟨h1, (hedge t h4).2 h2, h3⟩, h4⟩
  · rintro ⟨⟨h1, h2, h3⟩, h4⟩
    exact ⟨⟨h1, (hedge t h4).1 h2, h3⟩, h4⟩

/-- A path was reported: the loop ends when the limit is reached. -/
theorem afterReport (maxNumber : Int32) {visited : Finset RDFTriple} {s : PathSearch T} (hs : At Good visited s)
    (hlen : s.paths.length ≤ pathLimit maxNumber) :
    (limitReached maxNumber s = false → At Good visited s ∧ s.paths.length < pathLimit maxNumber) ∧
      (limitReached maxNumber s = true → At Good visited s ∧ s.paths.length = pathLimit maxNumber) := by
  have hiff := limitReached_iff hlen
  refine ⟨fun hfull => ⟨hs, lt_of_le_of_ne hlen fun he => ?_⟩, fun hfull => ⟨hs, hiff.1 hfull⟩⟩
  rw [hiff.2 he] at hfull
  cases hfull

variable (hl : P.ops.Lawful)
include hl

/-- The loop over a band, from what is enumerated for each triple. -/
theorem scanBand_emits {visited : Finset RDFTriple} {subject predicate : UInt64} {tree : T}
    {visit : RDFTriple → Act Exn (PathSearch T) Bool} {I : PathSearch T → Prop} {Q : RDFTriple → Set DirectedPath}
    (hI : ∀ s, At Good visited s → s.paths.length < pathLimit maxNumber → I s) (hIat : ∀ s, I s → At Good visited s)
    (hvisit : ∀ t : RDFTriple, t ∉ visited → Act.EmitsRound paths (pathLimit maxNumber) I (At Good visited) (Q t) (visit t))
    (hd : ∀ t t', t ≠ t' → Disjoint (Q t) (Q t')) :
    Act.Emits paths (pathLimit maxNumber) (At Good visited) (At Good visited)
      (⋃ t ∈ {t : RDFTriple | (t.subject = subject ∧ (t.subject, t.object) ∈ P.ops.points tree ∧ t ∉ visited) ∧
        t.predicate = predicate}, Q t)
      (scanBand P maxNumber subject tree predicate visit) := by
  have hloop : Act.Emits paths (pathLimit maxNumber) I (At Good visited)
      (⋃ obj2 ∈ P.ops.bandScan tree .column subject,
        if (⟨subject, predicate, obj2⟩ : RDFTriple) ∈ visited then ∅ else Q ⟨subject, predicate, obj2⟩)
      (Act.untilTrue (P.ops.bandScan tree .column subject) fun obj2 => do
        let triple : RDFTriple := ⟨subject, predicate, obj2⟩
        let s ← Act.get
        if triple ∈ s.visitedEdges then pure false else visit triple) := by
    refine Act.emits_untilTrue hIat (fun obj2 _ s hs hm => ?_) ((hl.nodup_bandScan tree .column subject).imp fun hne => ?_)
    · rw [Act.get_bind, (hIat s hs).2]
      split
      · exact ⟨false, s, rfl, .nothing rfl hm, fun _ => hs, nofun⟩
      · rename_i hnew
        exact hvisit ⟨subject, predicate, obj2⟩ hnew s hs hm
    · split
      · exact Set.empty_disjoint _
      · split
        · exact Set.disjoint_empty _
        · exact hd _ _ fun he => hne (RDFTriple.mk.inj he).2.2
  have hset : (⋃ t ∈ {t : RDFTriple | (t.subject = subject ∧ (t.subject, t.object) ∈ P.ops.points tree ∧ t ∉ visited) ∧
      t.predicate = predicate}, Q t) = ⋃ obj2 ∈ P.ops.bandScan tree .column subject,
        if (⟨subject, predicate, obj2⟩ : RDFTriple) ∈ visited then ∅ else Q ⟨subject, predicate, obj2⟩ := by
    ext w
    simp only [Set.mem_iUnion, Set.mem_ofPred_eq, exists_prop, hl.mem_bandScan]
    constructor
    · rintro ⟨⟨s, p, o⟩, ⟨⟨rfl, hmem, hnew⟩, rfl⟩, hw⟩
      exact ⟨o, hmem, by rwa [if_neg hnew]⟩
    · rintro ⟨o, hmem, hw⟩
      split at hw
      · exact hw.elim
      · rename_i hnew
        exact ⟨⟨subject, predicate, o⟩, ⟨⟨rfl, hmem, hnew⟩, rfl⟩, hw⟩
  rw [hset]
  refine Act.Emits.limited (fun s hs hm => hloop s (hI s hs.1 hs.2) hm) (fun s hm => limitReached_iff hm) fun _ h => h

/-- **The recursion** enumerates the trails behind the path, from the triples of a subject. -/
theorem findPathsSubjOrigin_emits (h : Serving P ids graph Good) (hn : ids.Nodup) {sorted : List UInt64} (hperm : sorted.Perm ids)
    {left : ℕ} {visited : Finset RDFTriple} {path : DirectedPath} {subject p : UInt64} {tree : T} {size : ℕ} (hp : p ∈ ids)
    (htree : P.ops.points tree = graph p) (hlen : path.length = size + left + 1) :
    Act.Emits paths (pathLimit maxNumber) (At Good visited) (At Good visited)
      (ContinuedBy (graphEdges ids graph) visited (path.take size) subject p left)
      (findPathsSubjOrigin P maxNumber sorted left path subject tree p size) := by
  induction left generalizing visited path subject p tree size with
  | zero =>
    rw [continuedBy_eq hp htree]
    refine scanBand_emits hl (I := fun s => At Good visited s ∧ s.paths.length < pathLimit maxNumber) (fun s hs hm => ⟨hs, hm⟩)
      (fun s hs => hs.1) (fun t _ s hs hm => ?_) fun t t' hne => continued_disjoint hne
    have hpath : path.set size t = path.take size ++ [t] := by
      rw [← set_eq_take (by omega), List.take_of_length_le (by rw [List.length_set]; omega)]
    rw [continued_zero, ← hpath]
    have hlen' : (s.paths ++ [path.set size t]).length ≤ pathLimit maxNumber := by
      rw [List.length_append, List.length_singleton]
      exact hs.2
    have hat : At Good visited { s with paths := s.paths ++ [path.set size t] } := hs.1
    have hround := afterReport maxNumber hat hlen'
    exact ⟨limitReached maxNumber { s with paths := s.paths ++ [path.set size t] },
      { s with paths := s.paths ++ [path.set size t] }, rfl, ⟨⟨[path.set size t], rfl, List.nodup_singleton _,
        fun w hw => List.mem_singleton.1 hw, fun _ w hw => List.mem_singleton.2 hw⟩, hlen'⟩, hround⟩
  | succ left ih =>
    rw [continuedBy_eq hp htree]
    refine scanBand_emits hl (I := At Good visited) (fun s hs _ => hs) (fun s hs => hs) (fun t hnew => ?_)
      fun t t' hne => continued_disjoint hne
    have hset : Continued (graphEdges ids graph) (insert t ↑visited) (path.take size ++ [t]) t.object (left + 1) =
        ⋃ p' ∈ sorted, ContinuedBy (graphEdges ids graph) ↑(insert t visited) ((path.set size t).take (size + 1)) t.object p' left := by
      rw [set_eq_take (by omega), continued_succ sorted fun e he => hperm.mem_iff.2 he.1, Finset.coe_insert]
    rw [hset]
    -- the triple is visited while its continuations are searched, and not any more after them
    refine Act.Emits.round (J := At Good (insert t visited)) ?_ (fun _ => rfl) (fun _ => rfl) (fun s hs => ⟨hs.1, ?_⟩)
      fun s hs => ⟨hs.1, ?_⟩
    · refine Act.emits_forEach (fun p' hp' => emits_fetch h (hperm.mem_iff.1 hp') fun tree' htree' => ?_)
        ((hperm.nodup_iff.2 hn).imp fun hne => continuedBy_disjoint (.inr hne))
      exact ih (hperm.mem_iff.1 hp') htree' (by rw [List.length_set]; omega)
    · show insert t s.visitedEdges = _
      rw [hs.2]
    · show s.visitedEdges.erase t = _
      rw [hs.2, Finset.erase_insert hnew]

/-- What is enumerated from the subjects of points, but for some. -/
theorem fromSubjects_emits (h : Serving P ids graph Good) (hn : ids.Nodup) {sorted : List UInt64} (hperm : sorted.Perm ids)
    {n : ℕ+} {p : UInt64} {tree : T} (hp : p ∈ ids) (htree : P.ops.points tree = graph p) {points : List Point}
    {subjects : Finset UInt64} :
    Act.Emits paths (pathLimit maxNumber) (At Good ∅) (At Good ∅)
      (⋃ v ∈ {v | v ∉ subjects ∧ ∃ o, (v, o) ∈ points}, ContinuedBy (graphEdges ids graph) ∅ [] v p n.natPred)
      (fromSubjects P n maxNumber sorted p tree points subjects) := by
  induction points generalizing subjects with
  | nil =>
    rw [show (⋃ v ∈ {v | v ∉ subjects ∧ ∃ o : UInt64, (v, o) ∈ ([] : List Point)},
      ContinuedBy (graphEdges ids graph) ∅ [] v p n.natPred) = ∅ by simp]
    exact Act.emits_pure fun _ h => h
  | cons point points ih =>
    unfold fromSubjects
    split
    · rename_i hin
      have hset : {v | v ∉ subjects ∧ ∃ o, (v, o) ∈ point :: points} = {v | v ∉ subjects ∧ ∃ o, (v, o) ∈ points} := by
        ext v
        simp only [Set.mem_ofPred_eq, List.mem_cons]
        constructor
        · rintro ⟨h1, o, rfl | ho⟩
          · exact absurd hin h1
          · exact ⟨h1, o, ho⟩
        · rintro ⟨h1, o, ho⟩
          exact ⟨h1, o, .inr ho⟩
      rw [hset]
      exact ih
    · rename_i hnew
      have hset : (⋃ v ∈ {v | v ∉ subjects ∧ ∃ o, (v, o) ∈ point :: points},
            ContinuedBy (graphEdges ids graph) ∅ [] v p n.natPred) =
          ContinuedBy (graphEdges ids graph) ∅ [] point.1 p n.natPred ∪
            ⋃ v ∈ {v | v ∉ insert point.1 subjects ∧ ∃ o, (v, o) ∈ points},
              ContinuedBy (graphEdges ids graph) ∅ [] v p n.natPred := by
        ext w
        simp only [Set.mem_iUnion, Set.mem_ofPred_eq, exists_prop, Set.mem_union, Finset.mem_insert, not_or, List.mem_cons]
        constructor
        · rintro ⟨v, ⟨h1, o, ho⟩, hw⟩
          by_cases hv : v = point.1
          · exact .inl (hv ▸ hw)
          · refine .inr ⟨v, ⟨⟨hv, h1⟩, o, ho.resolve_left ?_⟩, hw⟩
            rintro rfl
            exact hv rfl
        · rintro (hw | ⟨v, ⟨⟨-, h1⟩, o, ho⟩, hw⟩)
          · exact ⟨point.1, ⟨hnew, point.2, .inl rfl⟩, hw⟩
          · exact ⟨v, ⟨h1, o, .inr ho⟩, hw⟩
      rw [hset]
      have hfirst : Act.Emits paths (pathLimit maxNumber) (At Good ∅) (At Good ∅)
          (ContinuedBy (graphEdges ids graph) (∅ : Finset RDFTriple) ((List.replicate n ⟨0, 0, 0⟩).take 0) point.1 p n.natPred)
          (findPathsSubjOrigin P maxNumber sorted n.natPred (List.replicate n ⟨0, 0, 0⟩) point.1 tree p 0) :=
        findPathsSubjOrigin_emits hl h hn hperm hp htree
          (by rw [List.length_replicate, Nat.zero_add, PNat.natPred_add_one])
      rw [Finset.coe_empty, List.take_zero] at hfirst
      refine hfirst.bind (fun _ => Act.Emits.limited (fun s hs hm => ih s hs.1 hm) (fun s hm => limitReached_iff hm)
        fun _ h => h) (Set.disjoint_iUnion₂_right.2 fun v hv => continuedBy_disjoint (.inl ?_))
      rintro rfl
      exact hv.1 (Finset.mem_insert_self _ _)

omit hl in
/-- The comparison of the sort returns. -/
theorem comparePredicates_ok (h : Serving P ids graph Good) {l r : UInt64} (hlp : l ∈ ids) (hrp : r ∈ ids) {s : PathSearch T}
    (hs : Good s.manager) :
    ∃ before manager, comparePredicates P l r s = (.ok before, { s with manager := manager }) ∧ Good manager := by
  obtain ⟨tl, s₁, h1, -, h2⟩ := h.fetch s.manager hs l hlp
  obtain ⟨tr, s₂, h3, -, h4⟩ := h.fetch s₁ h2 r hrp
  have hfetchl : onManager (Manager.fetchK2tree P l) s = (.ok ⟨true, some tl⟩, { s with manager := s₁ }) := by
    rw [onManager, Act.focus, h1]
  have hfetchr : onManager (Manager.fetchK2tree P r) { s with manager := s₁ } =
      (.ok ⟨true, some tr⟩, { s with manager := s₂ }) := by
    rw [onManager, Act.focus, h3]
  refine ⟨decide (treePointsCount P.ops tr < treePointsCount P.ops tl), s₂, ?_, h4⟩
  rw [comparePredicates, Act.bind_ok hfetchl]
  simp only [PredicateFetchResult.loaded, Bool.not_true, Bool.false_eq_true, if_false, Option.isSome_some, Bool.and_self]
  rw [Act.bind_ok hfetchr]
  rfl

/-- **The whole search** enumerates the paths of the graph. -/
theorem search_emits (maxNumber : Int32) (h : Serving P ids graph Good) (hn : ids.Nodup) (n : ℕ+) :
    Act.Emits paths (pathLimit maxNumber) (At Good ∅) (At Good ∅) (graphPaths ids graph n) (search P n maxNumber) := by
  intro s hs hm
  unfold search
  rw [Act.get_bind, h.ids s.manager hs.1]
  refine Act.emits_value (I := fun s' => At Good ∅ s' ∧ s'.paths = s.paths) (V := fun sorted => sorted.Perm ids) (J := At Good ∅)
    (fun s₀ hs₀ => ?_) (fun sorted hperm => ?_) s ⟨hs, rfl⟩ hm
  · refine Act.sortBy_ok (fun s' => At Good ∅ s' ∧ s'.paths = s₀.paths) ids (fun l hlp r hrp s' hs' => ?_) ⟨hs₀.1, rfl⟩
    obtain ⟨before, manager, hcmp, hgood⟩ := comparePredicates_ok h hlp hrp hs'.1.1
    exact ⟨before, _, hcmp, ⟨hgood, hs'.1.2⟩, hs'.2⟩
  · have hpaths : graphPaths ids graph n =
        ⋃ p ∈ sorted, ⋃ v ∈ {v | ∃ o, (v, o) ∈ graph p}, ContinuedBy (graphEdges ids graph) ∅ [] v p n.natPred := by
      rw [← PNat.natPred_add_one n, graphPaths_eq]
      refine Set.iUnion_congr fun p => Set.iUnion_congr_Prop hperm.mem_iff.symm fun _ => rfl
    rw [hpaths]
    refine Act.emits_forEach (fun p hp => emits_fetch h (hperm.mem_iff.1 hp) fun tree htree => ?_)
      ((hperm.nodup_iff.2 hn).imp fun hne => ?_)
    · have hsubjects : {v | ∃ o, (v, o) ∈ graph p} = {v | v ∉ (∅ : Finset UInt64) ∧ ∃ o, (v, o) ∈ P.ops.fullScan tree} := by
        ext v
        simp only [Set.mem_ofPred_eq, ← htree, hl.mem_fullScan, Finset.notMem_empty, not_false_eq_true, true_and]
        rfl
      rw [hsubjects]
      exact (fromSubjects_emits hl h hn hperm (hperm.mem_iff.1 hp) htree).after_modify (fun _ => rfl) fun s hs => ⟨hs.1, rfl⟩
    · exact Set.disjoint_iUnion₂_left.2 fun v _ => Set.disjoint_iUnion₂_right.2 fun v' _ => continuedBy_disjoint (.inr hne)

end PathSearch

/-! ## The result -/

/-- There are finitely many paths of a length. -/
theorem graphPaths_finite (ids : List UInt64) (graph : UInt64 → Set Point) (n : ℕ) : (graphPaths ids graph n).Finite := by
  have htriple : Finite RDFTriple := Finite.of_injective
    (fun t : RDFTriple => (t.subject, t.predicate, t.object)) fun t t' ht => by
      obtain ⟨s, p, o⟩ := t
      simp only [Prod.mk.injEq] at ht
      obtain ⟨rfl, rfl, rfl⟩ := ht
      rfl
  exact (List.finite_length_eq RDFTriple n).subset fun path hp => hp.1

/-- The search of a manager whose states are good. -/
theorem findNPaths_of_serving (hl : P.ops.Lawful) {ids : List UInt64} {graph : UInt64 → Set Point} {Good : Manager T → Prop}
    (h : Serving P ids graph Good) (hn : ids.Nodup) {s : Manager T} (hs : Good s) (n : ℕ+) (maxNumber : Int32) :
    ∃ paths s', Manager.findNPaths P n maxNumber s = (.ok paths, s') ∧ Good s' ∧ paths.Nodup ∧
      (∀ path ∈ paths, path ∈ graphPaths ids graph n) ∧
      (paths.length : ℤ) = min (max maxNumber.toInt 0) (graphPaths ids graph n).ncard := by
  obtain ⟨a, s', h1, h2, ⟨l, h3, h4, h5, h6⟩, h7⟩ :=
    PathSearch.search_emits hl maxNumber h hn n ⟨s, [], ∅⟩ ⟨hs, rfl⟩ (Nat.zero_le _)
  rw [List.nil_append] at h3
  rw [h3] at h6 h7
  refine ⟨l, s'.manager, ?_, h2.1, h4, h5, ?_⟩
  · simp only [Manager.findNPaths, h1, h3]
  have hcard : (l.toFinset : Set DirectedPath).ncard = l.length := by
    rw [Set.ncard_coe_finset, List.toFinset_card_of_nodup h4]
  have hle : l.length ≤ (graphPaths ids graph n).ncard := by
    rw [← hcard]
    exact Set.ncard_le_ncard (fun w hw => h5 w (List.mem_toFinset.1 hw)) (graphPaths_finite ids graph n)
  have hge : l.length < pathLimit maxNumber → (graphPaths ids graph n).ncard ≤ l.length := by
    intro hlt
    rw [← hcard]
    exact Set.ncard_le_ncard (fun w hw => List.mem_toFinset.2 (h6 hlt w hw)) (Finset.finite_toSet _)
  unfold pathLimit at h7 hge
  omega

/-! ## The manager -/

/-- **`find_n_paths` is exact**: it returns, with paths of `n` stored triples, each triple
starting where the one before it ends and none used twice; no path comes twice, and there are
as many as the graph has or as were asked for. -/
theorem findNPaths_exact (hl : P.ops.Lawful) {ids : List UInt64} {graph : UInt64 → Set Point} {s : Manager T}
    (hs : StoresGraph P ids graph s) (hn : ids.Nodup) (n : ℕ+) (maxNumber : Int32) :
    ∃ paths s', Manager.findNPaths P n maxNumber s = (.ok paths, s') ∧ paths.Nodup ∧
      (∀ path ∈ paths, path ∈ graphPaths ids graph n) ∧
      (paths.length : ℤ) = min (max maxNumber.toInt 0) (graphPaths ids graph n).ncard := by
  obtain ⟨paths, s', h1, -, h2, h3, h4⟩ := findNPaths_of_serving hl (serving_storesGraph hl ids graph) hn hs n maxNumber
  exact ⟨paths, s', h1, h2, h3, h4⟩

open PointTree in
/-- The paths of one triple of an index with the point (1, 1) for the predicate 5. -/
theorem findNPaths_exact_loop :
    ∃ paths s', Manager.findNPaths (byteParams .binary) 1 3 (Manager.openIndex builtDisk) = (.ok paths, s') ∧ paths.Nodup ∧
      (∀ path ∈ paths, path ∈ graphPaths [5] (fun _ => {(1, 1)}) 1) ∧
      (paths.length : ℤ) = min (max (3 : Int32).toInt 0) (graphPaths [5] (fun _ => {(1, 1)}) 1).ncard := by
  have hmd : (Manager.openIndex builtDisk : Manager PointTree).index.metadata.metadataMap.find? 5 = some entry := by decide +kernel
  have hstores : StoresGraph (byteParams .binary) [5] (fun _ => {(1, 1)}) (Manager.openIndex builtDisk) := by
    refine .plain (openIndex_plain builtDisk_valid) (by decide +kernel) fun p hp => ⟨ofList [(1, 1)], ?_, ?_⟩
    · obtain rfl := List.mem_singleton.1 hp
      exact .inr ⟨by decide +kernel, entry, hmd, by decide +kernel, by decide +kernel, by decide +kernel⟩
    · ext x
      show decide (x ∈ [(1, 1)]) = true ↔ x = (1, 1)
      simp
  exact findNPaths_exact byteOps_lawful hstores (by decide) 1 3

end K2Cache
