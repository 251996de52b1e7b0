import K2Cache.Proof.ParallelSort
import K2Cache.Proof.Builder

/-!
# One merge pass

`BlockSource.Gives` is what a file in a merge still gives: its block and the rest of the file.
`mergePass_spec`: a pass over files of sorted triples writes one file with the triples of all of
them, sorted, and removes the files it read, whatever the size of the blocks.
-/

namespace K2Cache

open Lib

variable {P : SortParams} {args : SortArgs}

theorem reads_readFromFile (t : TripleValue) : IStream.Reads TripleValue.readFromFile t.writeToFile t := by
  intro s h
  unfold TripleValue.writeToFile at h
  have h1 := IStream.reads_readU64 t.first s h.left.left
  have hmid : s.Ahead (u64Bytes t.first ++ (u64Bytes t.second ++ u64Bytes t.third)) := by
    rw [← List.append_assoc]
    exact h
  have h2 := IStream.reads_readU64 t.second _ hmid.right.left
  have h3 := IStream.reads_readU64 t.third _ hmid.right.right
  unfold TripleValue.readFromFile TripleValue.writeToFile
  simp only [h1, h2, h3]
  simp only [IStream.skip_skip, List.length_append]

namespace BlockSource

/-- What a source still gives. -/
def Gives (b : BlockSource) (l : List TripleValue) : Prop :=
  ∃ rest, l = b.dataBlock ++ rest ∧
    match b.openedFile with
    | none => rest = []
    | some file => file.Ahead (rest.flatMap TripleValue.writeToFile) ∧
        b.fileData.currentTriple.toNat + rest.length = b.fileData.size.toNat

variable {b : BlockSource} {l : List TripleValue} {blockSize : UInt64}

/-- A round that reads a triple. -/
theorem fill_read {file : IStream} {t : TripleValue} {rest : List TripleValue} (fuel : ℕ) {acc : UInt64}
    (hopen : b.openedFile = some file) (hahead : file.Ahead ((t :: rest).flatMap TripleValue.writeToFile))
    (hcount : b.fileData.currentTriple.toNat + (t :: rest).length = b.fileData.size.toNat) (hacc : acc < blockSize) :
    ∃ b₁ : BlockSource, b.fill blockSize (fuel + 1) acc = b₁.fill blockSize fuel (acc + tripleSize) ∧
      b₁.dataBlock = b.dataBlock ++ [t] ∧ b₁.Gives (b.dataBlock ++ t :: rest) := by
  rw [List.length_cons] at hcount
  have hlt : b.fileData.currentTriple < b.fileData.size := UInt64.lt_iff_toNat_lt.2 (by omega)
  have hfin : ¬ b.fileData.finished = true := by
    unfold FileData.finished
    simpa using hlt
  rw [List.flatMap_cons] at hahead
  have hread := reads_readFromFile t file hahead.left
  refine ⟨⟨b.dataBlock ++ [t], some (file.skip t.writeToFile.length),
    { b.fileData with currentTriple := b.fileData.currentTriple + 1 }⟩, ?_, rfl, rest, by simp, hahead.right, ?_⟩
  · rw [fill, hopen]
    simp only [if_pos hacc, if_neg hfin, hread]
  · have hsucc := toNat_succ hlt
    show (b.fileData.currentTriple + 1).toNat + rest.length = b.fileData.size.toNat
    omega

/-- Filling a block changes nothing in what the source gives, and takes nothing out of the block. -/
theorem Gives.fill (h : b.Gives l) (blockSize : UInt64) (fuel : ℕ) (acc : UInt64) :
    (b.fill blockSize fuel acc).Gives l ∧ b.dataBlock <+: (b.fill blockSize fuel acc).dataBlock := by
  induction fuel generalizing b acc with
  | zero => exact ⟨h, List.prefix_rfl⟩
  | succ fuel ih =>
    obtain ⟨rest, hl, hfile⟩ := h
    rcases hopen : b.openedFile with _ | file
    · have hsame : b.fill blockSize (fuel + 1) acc = b := by rw [BlockSource.fill, hopen]
      rw [hsame]
      exact ⟨⟨rest, hl, hfile⟩, List.prefix_rfl⟩
    · by_cases hacc : acc < blockSize
      · have hfile' := hfile
        rw [hopen] at hfile'
        cases rest with
        | nil =>
          have hfin : b.fileData.finished = true := by
            have hcount := hfile'.2
            rw [List.length_nil, Nat.add_zero] at hcount
            unfold FileData.finished
            simpa using UInt64.le_iff_toNat_le.2 (le_of_eq hcount.symm)
          have hdone : b.fill blockSize (fuel + 1) acc = { b with openedFile := none } := by
            rw [BlockSource.fill, hopen]
            simp only [if_pos hacc, if_pos hfin]
          rw [hdone]
          exact ⟨⟨[], hl, rfl⟩, List.prefix_rfl⟩
        | cons t rest =>
          obtain ⟨b₁, h1, h2, h3⟩ := fill_read fuel hopen hfile'.1 hfile'.2 hacc
          rw [← hl] at h3
          obtain ⟨h4, h5⟩ := ih h3 (acc + tripleSize)
          rw [h1]
          rw [h2] at h5
          exact ⟨h4, (List.prefix_append _ _).trans h5⟩
      · have hsame : b.fill blockSize (fuel + 1) acc = b := by
          rw [BlockSource.fill, hopen]
          simp only [if_neg hacc]
        rw [hsame]
        exact ⟨⟨rest, hl, hfile⟩, List.prefix_rfl⟩

theorem fill_size (b : BlockSource) (fuel : ℕ) (acc : UInt64) : (b.fill blockSize fuel acc).fileData.size = b.fileData.size := by
  induction fuel generalizing b acc with
  | zero => rfl
  | succ fuel ih =>
    rw [fill]
    split
    · rfl
    · split
      · split
        · rfl
        · rw [ih]
      · rfl

/-- A block is filled with something, if there is something left. -/
theorem Gives.fill_ne_nil (h : b.Gives l) (hl : l ≠ []) (hblock : 0 < blockSize) :
    (b.fillWithFile blockSize).dataBlock ≠ [] := by
  by_cases hnil : b.dataBlock = []
  · obtain ⟨rest, hlr, hfile⟩ := h
    rw [hnil, List.nil_append] at hlr
    rcases hopen : b.openedFile with _ | file <;> rw [hopen] at hfile
    · exact absurd (hlr.trans hfile) hl
    · cases rest with
      | nil => exact absurd hlr hl
      | cons t rest =>
        -- the first round reads a triple, which stays in the block
        obtain ⟨b₁, h1, h2, h3⟩ := fill_read (b.fileData.size - b.fileData.currentTriple).toNat hopen hfile.1 hfile.2 hblock
        have hpre := (h3.fill blockSize (b.fileData.size - b.fileData.currentTriple).toNat (0 + tripleSize)).2
        rw [h2, ← h1] at hpre
        intro h0
        rw [fillWithFile] at h0
        rw [h0, List.prefix_nil] at hpre
        simp at hpre
  · intro h0
    have hpre := (h.fill blockSize ((b.fileData.size - b.fileData.currentTriple).toNat + 1) 0).2
    rw [fillWithFile] at h0
    rw [h0, List.prefix_nil] at hpre
    exact hnil hpre

theorem Gives.popFront (h : b.Gives l) (hne : b.dataBlock = [] → l = []) :
    b.popFront.1 = l.head? ∧ b.popFront.2.Gives l.tail := by
  unfold BlockSource.popFront
  rcases hblock : b.dataBlock with _ | ⟨front, dataBlock⟩
  · obtain rfl := hne hblock
    exact ⟨rfl, h⟩
  · obtain ⟨rest, hl, hfile⟩ := h
    rw [hblock, List.cons_append] at hl
    subst hl
    exact ⟨rfl, rest, rfl, hfile⟩

/-- **The next triple of a source.** -/
theorem Gives.next (h : b.Gives l) (hblock : 0 < blockSize) :
    (b.next blockSize).1 = l.head? ∧ (b.next blockSize).2.Gives l.tail := by
  unfold BlockSource.next
  by_cases hfill : (b.dataBlock.isEmpty && b.openedFile.isSome) = true
  · rw [if_pos hfill]
    apply (h.fill _ _ _).1.popFront
    intro hnil
    by_contra hl
    exact h.fill_ne_nil hl hblock hnil
  · rw [if_neg hfill]
    apply h.popFront
    intro hnil
    obtain ⟨rest, hl, hfile⟩ := h
    rcases hopen : b.openedFile with _ | file <;> rw [hopen] at hfile
    · rw [hl, hnil, hfile]
      rfl
    · simp [hnil, hopen] at hfill

/-- A file of triples, opened. -/
theorem gives_openFile (l : List TripleValue) (hlen : l.length < 2 ^ 64) :
    (openFile blockSize (.ofBytes (tripleFile (UInt64.ofNat l.length) l))).Gives l ∧
      (openFile blockSize (.ofBytes (tripleFile (UInt64.ofNat l.length) l))).fileData.size = UInt64.ofNat l.length := by
  have hahead := IStream.ahead_self (tripleFile (UInt64.ofNat l.length) l)
  have hread := IStream.reads_readU64 (UInt64.ofNat l.length) _ hahead.left
  unfold openFile
  rw [hread]
  have hgives : BlockSource.Gives ⟨[], some ((IStream.ofBytes (tripleFile (UInt64.ofNat l.length) l)).skip
      (u64Bytes (UInt64.ofNat l.length)).length), ⟨UInt64.ofNat l.length, 0⟩⟩ l := by
    refine ⟨l, rfl, hahead.right, ?_⟩
    show (0 : UInt64).toNat + l.length = (UInt64.ofNat l.length).toNat
    rw [UInt64.toNat_zero, Nat.zero_add, UInt64.toNat_ofNat_of_lt' hlen]
  exact ⟨(hgives.fill _ _ _).1, fill_size _ _ _⟩

end BlockSource

open BlockSource

/-! ## The merge -/

/-- The runs of a merge: the triple in the queue, and what its file still gives. -/
def fileRuns (rests : List (List TripleValue)) (entries : List (TripleValue × ℕ)) : Multiset (List TripleValue) :=
  (entries : Multiset (TripleValue × ℕ)).map fun e => e.1 :: rests.getD e.2 []

theorem fileRuns_cons (rests : List (List TripleValue)) (e : TripleValue × ℕ) (entries : List (TripleValue × ℕ)) :
    fileRuns rests (e :: entries) = (e.1 :: rests.getD e.2 []) ::ₘ fileRuns rests entries := by
  unfold fileRuns
  rw [← Multiset.cons_coe, Multiset.map_cons]

theorem fileRuns_perm (rests : List (List TripleValue)) {entries entries' : List (TripleValue × ℕ)} (h : entries.Perm entries') :
    fileRuns rests entries = fileRuns rests entries' := by
  unfold fileRuns
  rw [Multiset.coe_eq_coe.2 h]

theorem fileRuns_congr {rests rests' : List (List TripleValue)} {entries : List (TripleValue × ℕ)}
    (h : ∀ e ∈ entries, rests.getD e.2 [] = rests'.getD e.2 []) : fileRuns rests entries = fileRuns rests' entries :=
  Multiset.map_congr rfl fun e he => by rw [h e he]

theorem forall₂_set {α β : Type} {R : α → β → Prop} {l : List α} {l' : List β} (h : List.Forall₂ R l l') (i : ℕ) {a : α}
    {b : β} (hab : R a b) : List.Forall₂ R (l.set i a) (l'.set i b) := by
  induction h generalizing i with
  | nil => exact .nil
  | cons h1 h2 ih =>
    cases i with
    | zero => exact .cons hab h2
    | succ i => exact .cons h1 (ih i)

theorem blockUpdate_length (args : SortArgs) (i : ℕ) (data : List BlockSource) (q : P.pqueue.Queue) :
    (blockUpdate P args i data q).1.length = data.length := by
  unfold blockUpdate
  cases data[i]? with
  | none => rfl
  | some b => exact List.length_set

/-- **`block_update`** takes the next triple of one source to the queue. -/
theorem blockUpdate_spec (hblock : 0 < args.blockSize) {data : List BlockSource} {rests : List (List TripleValue)}
    (h : List.Forall₂ Gives data rests) {i : ℕ} (hi : i < data.length) (q : P.pqueue.Queue) :
    ∃ rests', List.Forall₂ Gives (blockUpdate P args i data q).1 rests' ∧
      (∀ j ≠ i, rests.getD j [] = rests'.getD j []) ∧
      ((rests.getD i [] = [] ∧ (blockUpdate P args i data q).2 = q) ∨
        ∃ a, rests.getD i [] = a :: rests'.getD i [] ∧ (blockUpdate P args i data q).2 = P.pqueue.push q (a, i)) := by
  have hi' : i < rests.length := by rw [← h.length_eq]; exact hi
  have hgives : Gives data[i] rests[i] := h.get hi hi'
  obtain ⟨h1, h2⟩ := hgives.next hblock
  have hrest : rests.getD i [] = rests[i] := by simp [List.getD_eq_getElem?_getD, hi']
  have hget : data[i]? = some data[i] := List.getElem?_eq_getElem hi
  refine ⟨rests.set i rests[i].tail, ?_, fun j hj => ?_, ?_⟩
  · unfold blockUpdate
    rw [hget]
    exact forall₂_set h i h2
  · rw [List.getD_eq_getElem?_getD, List.getD_eq_getElem?_getD, List.getElem?_set_ne (Ne.symm hj)]
  · have hset : (rests.set i rests[i].tail).getD i [] = rests[i].tail := by
      rw [List.getD_eq_getElem?_getD, List.getElem?_set_self hi']
      rfl
    rw [hrest, hset]
    unfold blockUpdate
    rw [hget]
    rcases hl : rests[i] with _ | ⟨a, l⟩ <;> rw [hl] at h1
    · left
      refine ⟨rfl, ?_⟩
      simp only [h1, List.head?_nil]
    · right
      refine ⟨a, rfl, ?_⟩
      simp only [h1, List.head?_cons]

theorem mergeFiles_done {fuel : ℕ} {data : List BlockSource} {q : P.pqueue.Queue} (hpop : P.pqueue.pop q = none) :
    mergeFiles P args fuel data q = some [] := by
  unfold mergeFiles
  rw [hpop]

theorem mergeFiles_succ {fuel i : ℕ} {data : List BlockSource} {q q' : P.pqueue.Queue} {a : TripleValue}
    (hpop : P.pqueue.pop q = some ((a, i), q')) : mergeFiles P args (fuel + 1) data q =
      (mergeFiles P args fuel (blockUpdate P args i data q').1 (blockUpdate P args i data q').2).map (a :: ·) := by
  rw [mergeFiles.eq_def]
  simp only [hpop]

/-- **The loop of the merge.** -/
theorem mergeFiles_spec (hblock : 0 < args.blockSize) (fuel : ℕ) {data : List BlockSource} {rests : List (List TripleValue)}
    (h : List.Forall₂ Gives data rests) (q : P.pqueue.Queue) (hnodup : ((P.pqueue.items q).map Prod.snd).Nodup)
    (hq : ∀ e ∈ P.pqueue.items q, e.2 < data.length)
    (hfuel : ((fileRuns rests (P.pqueue.items q)).map List.length).sum ≤ fuel) :
    ∃ out, mergeFiles P args fuel data q = some out ∧ Merges P.comparator (fileRuns rests (P.pqueue.items q)) out := by
  induction fuel generalizing data rests q with
  | zero =>
    rcases hpop : P.pqueue.pop q with _ | ⟨e, q'⟩
    · refine ⟨[], mergeFiles_done hpop, ?_⟩
      rw [P.pqueue.pop_eq_none q hpop]
      exact .nil
    · exfalso
      rw [fileRuns_perm rests (P.pqueue.pop_perm hpop), fileRuns_cons, Multiset.map_cons, Multiset.sum_cons,
        List.length_cons] at hfuel
      omega
  | succ fuel ih =>
    rcases hpop : P.pqueue.pop q with _ | ⟨⟨a, i⟩, q'⟩
    · refine ⟨[], mergeFiles_done hpop, ?_⟩
      rw [P.pqueue.pop_eq_none q hpop]
      exact .nil
    · have hperm := P.pqueue.pop_perm hpop
      have hi : i < data.length := hq _ (hperm.symm.subset List.mem_cons_self)
      have hq' : ∀ e ∈ P.pqueue.items q', e.2 < data.length :=
        fun e he => hq e (hperm.symm.subset (List.mem_cons_of_mem _ he))
      have hnodup' := (hperm.map Prod.snd).nodup_iff.1 hnodup
      rw [List.map_cons, List.nodup_cons] at hnodup'
      have hmin : ∀ m ∈ fileRuns rests (P.pqueue.items q'), ∀ b ∈ m.head?, P.comparator.le a b := by
        intro m hm b hb
        obtain ⟨e, he, rfl⟩ := Multiset.mem_map.1 hm
        obtain rfl : e.1 = b := by simpa using hb
        exact ParallelSort.le_of_top hpop he
      rw [fileRuns_perm rests hperm, fileRuns_cons] at hfuel ⊢
      rw [Multiset.map_cons, Multiset.sum_cons, List.length_cons] at hfuel
      dsimp only at hfuel ⊢
      obtain ⟨rests', h1, h2, h3⟩ := blockUpdate_spec (P := P) hblock h hi q'
      have hlen := blockUpdate_length args i data q'
      have hsame : fileRuns rests (P.pqueue.items q') = fileRuns rests' (P.pqueue.items q') := by
        apply fileRuns_congr
        intro e he
        apply h2
        rintro rfl
        exact hnodup'.1 (List.mem_map.2 ⟨e, he, rfl⟩)
      rw [mergeFiles_succ hpop]
      rcases h3 with ⟨hnil, hqueue⟩ | ⟨b, hcons, hqueue⟩ <;> rw [hqueue]
      · obtain ⟨out, h4, h5⟩ := ih h1 q' hnodup'.2 (by rw [hlen]; exact hq') (by rw [← hsame]; omega)
        refine ⟨a :: out, by rw [h4]; rfl, ?_⟩
        rw [hnil]
        exact .pick a [] hmin (.drop (by rw [hsame]; exact h5))
      · have hpush := P.pqueue.items_push q' (b, i)
        have hruns : fileRuns rests' (P.pqueue.items (P.pqueue.push q' (b, i))) =
            rests.getD i [] ::ₘ fileRuns rests (P.pqueue.items q') := by
          rw [fileRuns_perm rests' hpush, fileRuns_cons, hsame, hcons]
        obtain ⟨out, h4, h5⟩ := ih h1 (P.pqueue.push q' (b, i))
          ((hpush.map Prod.snd).nodup_iff.2 (List.nodup_cons.2 hnodup'))
          (by
            intro e he
            rw [hlen]
            rcases List.mem_cons.1 (hpush.subset he) with rfl | he
            · exact hi
            · exact hq' e he)
          (by rw [hruns, Multiset.map_cons, Multiset.sum_cons]; omega)
        rw [hruns] at h5
        exact ⟨a :: out, by rw [h4]; rfl, .pick a _ hmin h5⟩

/-- The first triples of the files, one after another. -/
theorem firstBlocks_spec (hblock : 0 < args.blockSize) (idx : List ℕ) {data : List BlockSource}
    {rests : List (List TripleValue)} (h : List.Forall₂ Gives data rests) (q : P.pqueue.Queue)
    (hidx : ∀ i ∈ idx, i < data.length) (hnodup : ((P.pqueue.items q).map Prod.snd ++ idx).Nodup)
    (hq : ∀ e ∈ P.pqueue.items q, e.2 < data.length) :
    let r := idx.foldl (fun r i => blockUpdate P args i r.1 r.2) (data, q)
    ∃ rests' empty, List.Forall₂ Gives r.1 rests' ∧ r.1.length = data.length ∧
      ((P.pqueue.items r.2).map Prod.snd).Nodup ∧ (∀ e ∈ P.pqueue.items r.2, e.2 < data.length) ∧
      fileRuns rests' (P.pqueue.items r.2) + Multiset.replicate empty [] =
        fileRuns rests (P.pqueue.items q) + Multiset.ofList (idx.map fun i => rests.getD i []) := by
  induction idx generalizing data rests q with
  | nil =>
    rw [List.append_nil] at hnodup
    exact ⟨rests, 0, h, rfl, hnodup, hq, by simp⟩
  | cons i idx ih =>
    have hi : i < data.length := hidx i List.mem_cons_self
    obtain ⟨rests₁, h1, h2, h3⟩ := blockUpdate_spec (P := P) hblock h hi q
    have hlen := blockUpdate_length args i data q
    have hmid := List.nodup_middle.1 hnodup
    obtain ⟨hni, hnodup₁⟩ := List.nodup_cons.1 hmid
    have hsame : fileRuns rests (P.pqueue.items q) = fileRuns rests₁ (P.pqueue.items q) := by
      apply fileRuns_congr
      intro e he
      apply h2
      rintro rfl
      exact hni (List.mem_append_left _ (List.mem_map.2 ⟨e, he, rfl⟩))
    have hrest : (idx.map fun j => rests₁.getD j []) = idx.map fun j => rests.getD j [] := by
      apply List.map_congr_left
      intro j hj
      rw [h2 j]
      rintro rfl
      exact hni (List.mem_append_right _ hj)
    have hidx₁ : ∀ j ∈ idx, j < (blockUpdate P args i data q).1.length :=
      fun j hj => by rw [hlen]; exact hidx j (List.mem_cons_of_mem _ hj)
    rw [List.foldl_cons]
    dsimp only
    rcases h3 with ⟨hnil, hqueue⟩ | ⟨a, hcons, hqueue⟩
    · obtain ⟨rests', empty, h4, h5, h6, h7, h8⟩ := ih h1 (blockUpdate P args i data q).2 hidx₁
        (by rw [hqueue]; exact hnodup₁) (by rw [hqueue, hlen]; exact hq)
      refine ⟨rests', empty + 1, h4, h5.trans hlen, h6, fun e he => hlen ▸ h7 e he, ?_⟩
      rw [Multiset.replicate_succ, Multiset.add_cons, h8, hqueue, hrest, ← hsame, List.map_cons, hnil, ← Multiset.cons_coe,
        Multiset.add_cons]
    · have hpush := P.pqueue.items_push q (a, i)
      obtain ⟨rests', empty, h4, h5, h6, h7, h8⟩ := ih h1 (blockUpdate P args i data q).2 hidx₁
        (by
          rw [hqueue]
          exact ((hpush.map Prod.snd).append_right idx).nodup_iff.2 hmid)
        (by
          intro e he
          rw [hqueue] at he
          rw [hlen]
          rcases List.mem_cons.1 (hpush.subset he) with rfl | he
          · exact hi
          · exact hq e he)
      refine ⟨rests', empty, h4, h5.trans hlen, h6, fun e he => hlen ▸ h7 e he, ?_⟩
      rw [h8, hqueue, hrest, fileRuns_perm rests₁ hpush, fileRuns_cons, ← hsame, List.map_cons, hcons, ← Multiset.cons_coe,
        Multiset.add_cons, Multiset.cons_add]

/-! ## The pass -/

/-- A file of sorted triples. -/
structure SortedFile (P : SortParams) (disk : SortDisk) (f : SortFile) (l : List TripleValue) : Prop where
  bytes : disk.files f = some (tripleFile (UInt64.ofNat l.length) l)
  sorted : l.Pairwise P.comparator.le

theorem foldl_remove (filenames : List SortFile) (disk : SortDisk) :
    (filenames.foldl (fun d f => d.set f none) disk).temps = disk.temps ∧
      ∀ f, (filenames.foldl (fun d f => d.set f none) disk).files f = if f ∈ filenames then none else disk.files f := by
  induction filenames generalizing disk with
  | nil => exact ⟨rfl, fun f => by simp⟩
  | cons g filenames ih =>
    obtain ⟨h1, h2⟩ := ih (disk.set g none)
    refine ⟨h1, fun f => ?_⟩
    rw [List.foldl_cons, h2]
    by_cases hf : f ∈ filenames
    · simp [hf]
    · by_cases hg : f = g
      · simp [hg, SortDisk.set]
      · simp [hf, hg, SortDisk.set]

theorem foldl_size {data : List BlockSource} {ls : List (List TripleValue)}
    (h : List.Forall₂ (fun b l => b.fileData.size = UInt64.ofNat l.length) data ls) (n : ℕ) :
    data.foldl (fun size b => size + b.fileData.size) (UInt64.ofNat n) = UInt64.ofNat (n + ls.flatten.length) := by
  induction h generalizing n with
  | nil => simp
  | cons h1 _ ih =>
    rw [List.foldl_cons, h1, ← UInt64.ofNat_add, ih, List.flatten_cons, List.length_append, Nat.add_assoc]

/-- **A merge pass.** -/
theorem mergePass_spec (hblock : 0 < args.blockSize) {disk : SortDisk} {filenames : List SortFile}
    {ls : List (List TripleValue)} (hfiles : List.Forall₂ (SortedFile P disk) filenames ls)
    (hlen : ls.flatten.length < 2 ^ 64) : ∃ disk' out, mergePass P args disk filenames = some (disk', .temp disk.temps) ∧
      out.Perm ls.flatten ∧ out.Pairwise P.comparator.le ∧ disk'.temps = disk.temps + 1 ∧
      ∀ f, disk'.files f = if f ∈ filenames then none
        else if f = .temp disk.temps then some (tripleFile (UInt64.ofNat out.length) out) else disk.files f := by
  set data := filenames.map fun f => openFile args.blockSize (disk.openIn f) with hdata
  have hopen : List.Forall₂ (fun b l => b.Gives l ∧ b.fileData.size = UInt64.ofNat l.length ∧ l.length < 2 ^ 64) data ls := by
    rw [hdata, List.forall₂_map_left_iff]
    refine (List.forall₂_iff_get.2 ⟨hfiles.length_eq, fun i hi hi' => ?_⟩)
    have hfile := (List.forall₂_iff_get.1 hfiles).2 i hi hi'
    have hle : (ls.get ⟨i, hi'⟩).length < 2 ^ 64 := by
      have hsub := (List.sublist_flatten_of_mem (List.get_mem ls ⟨i, hi'⟩)).length_le
      omega
    have hin : disk.openIn (filenames.get ⟨i, hi⟩) =
        .ofBytes (tripleFile (UInt64.ofNat (ls.get ⟨i, hi'⟩).length) (ls.get ⟨i, hi'⟩)) := by
      unfold SortDisk.openIn
      rw [hfile.bytes]
    rw [hin]
    exact ⟨(gives_openFile _ hle).1, (gives_openFile _ hle).2, hle⟩
  have hgives : List.Forall₂ Gives data ls := hopen.imp fun _ _ h => h.1
  have hfuel : (data.map fun b => b.fileData.size.toNat).sum = (ls.map List.length).sum := by
    clear_value data
    clear hdata hgives hfiles hlen
    induction hopen with
    | nil => rfl
    | cons h1 _ ih =>
      rw [List.map_cons, List.sum_cons, List.map_cons, List.sum_cons, ih, h1.2.1, UInt64.toNat_ofNat_of_lt' h1.2.2]
  obtain ⟨rests', empty, h1, h2, h3, h4, h5⟩ := firstBlocks_spec (P := P) hblock (List.range data.length) hgives P.pqueue.empty
    (fun i hi => List.mem_range.1 hi) (by rw [P.pqueue.items_empty]; simpa using List.nodup_range)
    (by rw [P.pqueue.items_empty]; simp)
  have hall : ((List.range data.length).map fun i => ls.getD i []) = ls := by
    rw [hgives.length_eq]
    apply List.ext_getElem
    · simp
    · intro i hi hi'
      simp [List.getD_eq_getElem?_getD, hi']
  rw [P.pqueue.items_empty, hall] at h5
  have hruns : ∀ rests : List (List TripleValue), fileRuns rests [] = 0 := fun _ => rfl
  rw [hruns, zero_add] at h5
  set start := (List.range data.length).foldl (fun r i => blockUpdate P args i r.1 r.2) (data, P.pqueue.empty) with hstart
  have hsum : ((fileRuns rests' (P.pqueue.items start.2)).map List.length).sum ≤
      (data.map fun b => b.fileData.size.toNat).sum := by
    have hlens := congrArg (fun m => (m.map List.length).sum) h5
    simp only [Multiset.map_add, Multiset.sum_add, Multiset.map_replicate, List.length_nil, Multiset.map_coe,
      Multiset.sum_coe] at hlens
    rw [hfuel]
    omega
  obtain ⟨out, h6, h7⟩ := mergeFiles_spec (P := P) hblock _ h1 start.2 h3 (by rw [h2]; exact h4) hsum
  have hmerges := h7.add_replicate empty
  rw [h5] at hmerges
  have hperm : out.Perm ls.flatten := by
    rw [← Multiset.coe_eq_coe, hmerges.perm]
    exact (Multiset.coe_bind ls fun l => l).trans (by rw [List.flatMap_id'])
  have hsorted : out.Pairwise P.comparator.le := by
    apply hmerges.sorted
    intro l hl
    obtain ⟨i, hi, rfl⟩ := List.mem_iff_getElem.1 (show l ∈ ls from hl)
    exact ((List.forall₂_iff_get.1 hfiles).2 i (by rw [hfiles.length_eq]; exact hi) hi).sorted
  have htotal : data.foldl (fun size b => size + b.fileData.size) 0 = UInt64.ofNat out.length := by
    have h := foldl_size (hopen.imp fun _ _ h => h.2.1) 0
    rw [Nat.zero_add, ← hperm.length_eq] at h
    exact h
  obtain ⟨h8, h9⟩ := foldl_remove filenames (({ disk with temps := disk.temps + 1 } : SortDisk).set (.temp disk.temps)
    (some (tripleFile (UInt64.ofNat out.length) out)))
  refine ⟨_, out, ?_, hperm, hsorted, h8, fun f => ?_⟩
  · unfold mergePass
    simp only
    rw [← hdata, ← hstart, h6, htotal]
  · rw [h9 f]
    by_cases hf : f = .temp disk.temps
    · simp [hf, SortDisk.set]
    · simp [hf, SortDisk.set]

end K2Cache
