import K2Cache.Spec.MemoryManager

/-!
# The manager finds the segment of an address

The segments that are live are those made and not freed since. As long as the heap puts
them apart, the maps of the manager hold exactly them (`Holds`), and the highest one that
starts at or below an address is the only one that may contain it.
-/

namespace K2Cache.Memory

open Lib

/-- A segment on the heap. -/
structure HeapSegment where
  ptr : ℕ
  data : ℕ
  size : ℕ
deriving DecidableEq, Repr

namespace HeapSegment

/-- The range of a segment. -/
def Contains (s : HeapSegment) (a : ℕ) : Prop := s.data ≤ a ∧ a < s.data + s.size

instance (s : HeapSegment) (a : ℕ) : Decidable (s.Contains a) := inferInstanceAs (Decidable (_ ∧ _))

/-- What the manager keeps for a segment. -/
def entry (s : HeapSegment) : ℕ × MemorySegment := (s.ptr, .construct s.data s.size)

theorem contains_data {s : HeapSegment} (h : 0 < s.size) : s.Contains s.data := by
  unfold Contains
  omega

end HeapSegment

/-- The segments that are live after some commands. -/
def liveAfter : List HeapSegment → List SegmentCmd → List HeapSegment
  | live, [] => live
  | live, .newMemorySegment ptr data size :: cmds => liveAfter (⟨ptr, data, size⟩ :: live) cmds
  | live, .freeSegment p :: cmds => liveAfter (live.filter fun s => s.ptr ≠ p) cmds

/-- **What the heap promises**: a new segment is not empty, it is at a pointer of its own, and
its range has no address of a live one. -/
def Allocated : List HeapSegment → List SegmentCmd → Prop
  | _, [] => True
  | live, .newMemorySegment ptr data size :: cmds =>
    (0 < size ∧ ∀ s ∈ live, s.ptr ≠ ptr ∧ (s.data + s.size ≤ data ∨ data + size ≤ s.data)) ∧
      Allocated (⟨ptr, data, size⟩ :: live) cmds
  | live, .freeSegment p :: cmds => Allocated (live.filter fun s => s.ptr ≠ p) cmds

/-! ## The maps -/

/-- **The manager holds the live segments**, and they are apart. -/
structure Holds (m : MemoryManager) (live : List HeapSegment) : Prop where
  segments : ∀ d e, m.memorySegments.find? d = some e ↔ ∃ s ∈ live, d = .toDual s.data ∧ e = s.entry
  reverse : ∀ p d, m.reverseMemSegmentsMap.find? p = some d ↔ ∃ s ∈ live, p = s.ptr ∧ d = s.data
  positive : ∀ s ∈ live, 0 < s.size
  apart : ∀ s ∈ live, ∀ t ∈ live, ∀ a, s.Contains a → t.Contains a → s = t
  ptrs : ∀ s ∈ live, ∀ t ∈ live, s.ptr = t.ptr → s = t

variable {m : MemoryManager} {live : List HeapSegment}

theorem holds_nil : Holds ⟨∅, ∅⟩ [] := by
  constructor <;> simp

/-- Live segments start at different addresses. -/
theorem Holds.eq_of_data (h : Holds m live) {s t : HeapSegment} (hs : s ∈ live) (ht : t ∈ live) (hd : s.data = t.data) :
    s = t := by
  refine h.apart s hs t ht s.data (HeapSegment.contains_data (h.positive s hs)) ?_
  rw [hd]
  exact HeapSegment.contains_data (h.positive t ht)

theorem Holds.new (h : Holds m live) {ptr data size : ℕ} (hpos : 0 < size)
    (hnew : ∀ s ∈ live, s.ptr ≠ ptr ∧ (s.data + s.size ≤ data ∨ data + size ≤ s.data)) :
    Holds (m.newMemorySegment ptr data size) (⟨ptr, data, size⟩ :: live) := by
  set s₀ : HeapSegment := ⟨ptr, data, size⟩ with hs₀
  have hdata : ∀ s ∈ live, s.data ≠ data := by
    intro s hs hd
    have h1 := h.positive s hs
    have h2 := (hnew s hs).2
    omega
  have hout : ∀ s ∈ live, ∀ a, s.Contains a → ¬ s₀.Contains a := by
    intro s hs a h1 h2
    have h3 := (hnew s hs).2
    simp only [HeapSegment.Contains, hs₀] at h1 h2
    omega
  refine ⟨fun d e => ?_, fun p d => ?_, ?_, ?_, ?_⟩
  · show (m.memorySegments.insert (.toDual data) s₀.entry).find? d = some e ↔ _
    rw [OrdMap.find?_insert]
    by_cases hd : d = OrderDual.toDual data
    · rw [if_pos hd]
      constructor
      · intro he
        exact ⟨s₀, List.mem_cons_self, hd, (Option.some.inj he).symm⟩
      · rintro ⟨s, hs, hsd, rfl⟩
        rcases List.mem_cons.1 hs with rfl | hs
        · rfl
        · exact absurd (OrderDual.toDual.injective (hsd.symm.trans hd)) (hdata s hs)
    · rw [if_neg hd, h.segments]
      constructor
      · rintro ⟨s, hs, hsd, he⟩
        exact ⟨s, List.mem_cons_of_mem _ hs, hsd, he⟩
      · rintro ⟨s, hs, hsd, he⟩
        rcases List.mem_cons.1 hs with rfl | hs
        · exact absurd hsd hd
        · exact ⟨s, hs, hsd, he⟩
  · show (m.reverseMemSegmentsMap.insert ptr data).find? p = some d ↔ _
    rw [OrdMap.find?_insert]
    by_cases hp : p = ptr
    · rw [if_pos hp]
      constructor
      · intro he
        exact ⟨s₀, List.mem_cons_self, hp, (Option.some.inj he).symm⟩
      · rintro ⟨s, hs, hsp, rfl⟩
        rcases List.mem_cons.1 hs with rfl | hs
        · rfl
        · exact absurd (hsp.symm.trans hp) (hnew s hs).1
    · rw [if_neg hp, h.reverse]
      constructor
      · rintro ⟨s, hs, hsp, he⟩
        exact ⟨s, List.mem_cons_of_mem _ hs, hsp, he⟩
      · rintro ⟨s, hs, hsp, he⟩
        rcases List.mem_cons.1 hs with rfl | hs
        · exact absurd hsp hp
        · exact ⟨s, hs, hsp, he⟩
  · exact List.forall_mem_cons.2 ⟨hpos, h.positive⟩
  · intro s hs t ht a h1 h2
    rcases List.mem_cons.1 hs with rfl | hs
    · rcases List.mem_cons.1 ht with rfl | ht
      · rfl
      · exact absurd h1 (hout t ht a h2)
    · rcases List.mem_cons.1 ht with rfl | ht
      · exact absurd h2 (hout s hs a h1)
      · exact h.apart s hs t ht a h1 h2
  · intro s hs t ht he
    rcases List.mem_cons.1 hs with rfl | hs
    · rcases List.mem_cons.1 ht with rfl | ht
      · rfl
      · exact absurd he.symm (hnew t ht).1
    · rcases List.mem_cons.1 ht with rfl | ht
      · exact absurd he (hnew s hs).1
      · exact h.ptrs s hs t ht he

theorem Holds.free (h : Holds m live) (p : ℕ) :
    ∃ m', m.freeSegment p = .ok m' ∧ Holds m' (live.filter fun s => s.ptr ≠ p) := by
  unfold MemoryManager.freeSegment
  have hmem : ∀ s, s ∈ live.filter (fun s => s.ptr ≠ p) ↔ s ∈ live ∧ s.ptr ≠ p := by simp
  cases hf : m.reverseMemSegmentsMap.find? p with
  | none =>
    -- an unknown pointer is not that of a live segment
    have hne : ∀ s ∈ live, s.ptr ≠ p := by
      rintro s hs rfl
      rw [(h.reverse _ _).2 ⟨s, hs, rfl, rfl⟩] at hf
      simp at hf
    rw [List.filter_eq_self.2 (by simpa using hne)]
    exact ⟨m, rfl, h⟩
  | some d =>
    obtain ⟨s₀, hs₀, rfl, rfl⟩ := (h.reverse p d).1 hf
    have hfind := (h.segments (.toDual s₀.data) s₀.entry).2 ⟨s₀, hs₀, rfl, rfl⟩
    simp only [hfind]
    refine ⟨_, rfl, fun d e => ?_, fun p d => ?_, ?_, ?_, ?_⟩
    · rw [OrdMap.find?_erase]
      by_cases hd : d = OrderDual.toDual s₀.data
      · rw [if_pos hd]
        refine iff_of_false (by simp) ?_
        rintro ⟨s, hs, hsd, -⟩
        obtain ⟨hs, hne⟩ := (hmem s).1 hs
        exact hne (congrArg HeapSegment.ptr (h.eq_of_data hs hs₀ (OrderDual.toDual.injective (hsd.symm.trans hd))))
      · rw [if_neg hd, h.segments]
        constructor
        · rintro ⟨s, hs, hsd, he⟩
          refine ⟨s, (hmem s).2 ⟨hs, fun hp => hd ?_⟩, hsd, he⟩
          rw [hsd, h.ptrs s hs s₀ hs₀ hp]
        · rintro ⟨s, hs, hsd, he⟩
          exact ⟨s, ((hmem s).1 hs).1, hsd, he⟩
    · rw [OrdMap.find?_erase]
      by_cases hp : p = s₀.ptr
      · rw [if_pos hp]
        refine iff_of_false (by simp) ?_
        rintro ⟨s, hs, hsp, -⟩
        exact ((hmem s).1 hs).2 (hsp.symm.trans hp)
      · rw [if_neg hp, h.reverse]
        constructor
        · rintro ⟨s, hs, hsp, he⟩
          exact ⟨s, (hmem s).2 ⟨hs, fun hsp₀ => hp (hsp.trans hsp₀)⟩, hsp, he⟩
        · rintro ⟨s, hs, hsp, he⟩
          exact ⟨s, ((hmem s).1 hs).1, hsp, he⟩
    · exact fun s hs => h.positive s ((hmem s).1 hs).1
    · exact fun s hs t ht => h.apart s ((hmem s).1 hs).1 t ((hmem t).1 ht).1
    · exact fun s hs t ht => h.ptrs s ((hmem s).1 hs).1 t ((hmem t).1 ht).1

/-- **A run** keeps the maps in step with the segments that are live. -/
theorem Holds.run {cmds : List SegmentCmd} (h : Holds m live) (ha : Allocated live cmds) :
    ∃ m', segmentMachine.run cmds m = some m' ∧ Holds m' (liveAfter live cmds) := by
  induction cmds generalizing m live with
  | nil => exact ⟨m, rfl, h⟩
  | cons cmd cmds ih =>
    cases cmd with
    | newMemorySegment ptr data size => exact ih (h.new ha.1.1 ha.1.2) ha.2
    | freeSegment p =>
      obtain ⟨m₁, h1, h2⟩ := h.free p
      obtain ⟨m', h3, h4⟩ := ih h2 ha
      refine ⟨m', ?_, h4⟩
      rw [Machine.run]
      show (m.freeSegment p).toOption.bind _ = _
      rw [h1]
      exact h3

/-! ## Finding -/

/-- **`find_segment`** finds the segment that contains the address. -/
theorem Holds.findSegment (h : Holds m live) (a p : ℕ) :
    m.findSegment a = some p ↔ ∃ s ∈ live, s.ptr = p ∧ s.Contains a := by
  unfold MemoryManager.findSegment
  cases hb : m.memorySegments.lowerBound? (OrderDual.toDual a) with
  | none =>
    refine iff_of_false (by simp) ?_
    rintro ⟨s, hs, -, hc⟩
    have hlt := (m.memorySegments.lowerBound?_eq_none).1 hb _ _ ((h.segments _ _).2 ⟨s, hs, rfl, rfl⟩)
    have hlt' : a < s.data := hlt
    have := hc.1
    omega
  | some it =>
    obtain ⟨d, e⟩ := it
    obtain ⟨hf, hle, hleast⟩ := m.memorySegments.lowerBound?_spec hb
    obtain ⟨s₀, hs₀, rfl, rfl⟩ := (h.segments d e).1 hf
    have hle' : s₀.data ≤ a := hle
    -- the segment that contains the address is the one found: both contain its start
    have honly : ∀ s ∈ live, s.Contains a → s = s₀ := by
      intro s hs hc
      have hge : OrderDual.toDual s₀.data ≤ OrderDual.toDual s.data := by
        refine hleast _ _ ((h.segments _ _).2 ⟨s, hs, rfl, rfl⟩) ?_
        exact hc.1
      have hge' : s.data ≤ s₀.data := hge
      refine h.apart s hs s₀ hs₀ s₀.data ?_ (HeapSegment.contains_data (h.positive s₀ hs₀))
      have := hc.2
      exact ⟨hge', by omega⟩
    have hhas : (HeapSegment.entry s₀).2.has a = true ↔ s₀.Contains a := by
      unfold MemorySegment.has HeapSegment.Contains HeapSegment.entry MemorySegment.construct
      rw [Bool.and_eq_true, decide_eq_true_iff, decide_eq_true_iff]
    by_cases hc : s₀.Contains a
    · simp only [hhas.2 hc, Bool.not_true, Bool.false_eq_true, if_false]
      constructor
      · intro hp
        exact ⟨s₀, hs₀, Option.some.inj hp, hc⟩
      · rintro ⟨s, hs, rfl, hcs⟩
        rw [honly s hs hcs]
        rfl
    · have hno : (HeapSegment.entry s₀).2.has a = false := by
        rw [Bool.eq_false_iff]
        exact fun hh => hc (hhas.1 hh)
      simp only [hno, Bool.not_false, if_true]
      refine iff_of_false (by simp) ?_
      rintro ⟨s, hs, -, hcs⟩
      exact hc (honly s hs hcs ▸ hcs)

/-- An address that is in no segment is not found. -/
theorem Holds.findSegment_eq_none (h : Holds m live) (a : ℕ) :
    m.findSegment a = none ↔ ∀ s ∈ live, ¬ s.Contains a := by
  constructor
  · intro hn s hs hc
    rw [(h.findSegment a s.ptr).2 ⟨s, hs, rfl, hc⟩] at hn
    simp at hn
  · intro hno
    cases hf : m.findSegment a with
    | none => rfl
    | some p =>
      obtain ⟨s, hs, -, hc⟩ := (h.findSegment a p).1 hf
      exact absurd hc (hno s hs)

/-- The address is deleted from the heap. -/
def Freed.FromHeap (a : ℕ) (f : Freed) : Prop := f = .delete a ∨ f = .deleteArray a

theorem freeAt_fromHeap {delete : ℕ → Freed} {a : ℕ} (hd : (delete a).FromHeap a) :
    (freeAt delete m a).FromHeap a ↔ m.findSegment a = none := by
  unfold freeAt
  cases hf : m.findSegment a with
  | none => exact iff_of_true hd rfl
  | some p => simp [Freed.FromHeap]

/-- **Segment lookup is exact**, after every run in which the heap keeps its promise. -/
theorem findSegment_exact (cmds : List SegmentCmd) (h : Allocated [] cmds) :
    ∃ m, segmentMachine.run cmds ⟨∅, ∅⟩ = some m ∧ ∀ a,
      (∀ p, m.findSegment a = some p ↔ ∃ s ∈ liveAfter [] cmds, s.ptr = p ∧ s.Contains a) ∧
      (m.findSegment a = none ↔ ∀ s ∈ liveAfter [] cmds, ¬ s.Contains a) ∧
      ∀ free ∈ k2treeFrees, (free m a).FromHeap a ↔ ∀ s ∈ liveAfter [] cmds, ¬ s.Contains a := by
  obtain ⟨m, hrun, hm⟩ := holds_nil.run h
  refine ⟨m, hrun, fun a => ⟨hm.findSegment a, hm.findSegment_eq_none a, fun free hfree => ?_⟩⟩
  rw [← hm.findSegment_eq_none a]
  simp only [k2treeFrees, List.mem_cons, List.not_mem_nil, or_false] at hfree
  rcases hfree with rfl | rfl | rfl | rfl | rfl
  · exact freeAt_fromHeap (.inl rfl)
  · exact freeAt_fromHeap (.inr rfl)
  · exact freeAt_fromHeap (.inr rfl)
  · exact freeAt_fromHeap (.inr rfl)
  · exact freeAt_fromHeap (.inl rfl)

/-! ## Numbered segments -/

/-- The manager of the index, which numbers its segments, has the live ones. -/
structure Numbered (n : K2Cache.MemoryManager) (live : List HeapSegment) : Prop where
  segments : n.segments = (live.map fun s => (s.ptr, s.size)).reverse
  fresh : ∀ s ∈ live, s.ptr < n.next

theorem Numbered.new {n : K2Cache.MemoryManager} (h : Numbered n live) (data size : ℕ) :
    (∀ s ∈ live, s.ptr ≠ (n.newMemorySegment size).1) ∧
      Numbered (n.newMemorySegment size).2 (⟨(n.newMemorySegment size).1, data, size⟩ :: live) := by
  refine ⟨fun s hs => (h.fresh s hs).ne, ?_, List.forall_mem_cons.2 ⟨Nat.lt_succ_self _, fun s hs => ?_⟩⟩
  · simp [K2Cache.MemoryManager.newMemorySegment, h.segments]
  · exact (h.fresh s hs).trans (Nat.lt_succ_self _)

theorem Numbered.free {n : K2Cache.MemoryManager} (h : Numbered n live) (p : ℕ) :
    Numbered (n.freeSegment p) (live.filter fun s => s.ptr ≠ p) := by
  refine ⟨?_, fun s hs => h.fresh s (List.mem_filter.1 hs).1⟩
  simp only [K2Cache.MemoryManager.freeSegment, h.segments, List.filter_reverse, List.filter_map]
  rfl

/-- Three adjacent segments, of which the middle one is freed. -/
theorem findSegment_exact_adjacent :
    ∃ m, segmentMachine.run
        [.newMemorySegment 1 100 10, .newMemorySegment 2 110 10, .newMemorySegment 3 120 10, .freeSegment 2] ⟨∅, ∅⟩ = some m ∧
      ∀ a, (∀ p, m.findSegment a = some p ↔ ∃ s ∈ [⟨3, 120, 10⟩, ⟨1, 100, 10⟩], s.ptr = p ∧ HeapSegment.Contains s a) ∧
        (m.findSegment a = none ↔ ∀ s ∈ [⟨3, 120, 10⟩, ⟨1, 100, 10⟩], ¬ HeapSegment.Contains s a) ∧
        ∀ free ∈ k2treeFrees, (free m a).FromHeap a ↔ ∀ s ∈ [⟨3, 120, 10⟩, ⟨1, 100, 10⟩], ¬ HeapSegment.Contains s a :=
  findSegment_exact _ (by simp [Allocated])

end K2Cache.Memory
