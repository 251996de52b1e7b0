import K2Cache.Lib.KMerge

/-!
# A binary heap

`std::push_heap` and `std::pop_heap` on an array: an element is moved up while the comparison of
its parent with it is true, and the last element, put first, is moved down. `HeapOrder` is what
the comparison has to do with an order for this to work; a strict weak order meets it, and so
does the negation of one, which is true of equal elements.
-/

namespace Lib

variable {α : Type} {comp : α → α → Bool}

/-- The order that a comparison stands for: `above a b` where `a` may be nearer to the top. -/
structure HeapOrder (comp : α → α → Bool) where
  above : α → α → Prop
  refl : ∀ a, above a a
  trans : ∀ {a b c}, above a b → above b c → above a c
  of_true : ∀ {a b}, comp a b = true → above b a
  of_false : ∀ {a b}, comp a b = false → above a b
  agree : ∀ {a b}, above a b → comp a b = true → comp b a = true

namespace BinaryHeap

/-- The positions of a parent and of a child. -/
def IsParent (p j : ℕ) : Prop := j = 2 * p + 1 ∨ j = 2 * p + 2

/-- Every parent is above its children. -/
def Ordered (O : HeapOrder comp) (a : Array α) : Prop :=
  ∀ p j (hp : p < a.size) (hj : j < a.size), IsParent p j → O.above a[p] a[j]

/-- Ordered but for the way up from a position. -/
structure OrderedUp (O : HeapOrder comp) (a : Array α) (i : ℕ) : Prop where
  others : ∀ p j (hp : p < a.size) (hj : j < a.size), IsParent p j → j ≠ i → O.above a[p] a[j]
  across : ∀ p j (hp : p < a.size) (hj : j < a.size), IsParent p i → IsParent i j → O.above a[p] a[j]

/-- Ordered but for the way down from a position. -/
structure OrderedDown (O : HeapOrder comp) (a : Array α) (i : ℕ) : Prop where
  others : ∀ p j (hp : p < a.size) (hj : j < a.size), IsParent p j → p ≠ i → O.above a[p] a[j]
  across : ∀ p j (hp : p < a.size) (hj : j < a.size), IsParent p i → IsParent i j → O.above a[p] a[j]

/-- `std::push_heap`, for an element that is at a position. -/
def siftUp (comp : α → α → Bool) (a : Array α) (i : ℕ) (hi : i < a.size) : Array α :=
  if h : i = 0 then a
  else
    have hp : (i - 1) / 2 < a.size := by omega
    if comp a[(i - 1) / 2] a[i] then
      siftUp comp (a.swap ((i - 1) / 2) i hp hi) ((i - 1) / 2) (by rw [Array.size_swap]; exact hp)
    else a
termination_by i
decreasing_by omega

/-- The child that is compared with an element on its way down. -/
def child (comp : α → α → Bool) (a : Array α) (i : ℕ) (hl : 2 * i + 1 < a.size) : ℕ :=
  if hr : 2 * i + 2 < a.size then if comp a[2 * i + 2] a[2 * i + 1] then 2 * i + 1 else 2 * i + 2
  else 2 * i + 1

theorem child_lt (comp : α → α → Bool) (a : Array α) (i : ℕ) (hl : 2 * i + 1 < a.size) : child comp a i hl < a.size := by
  unfold child
  split
  · split <;> omega
  · omega

theorem child_isParent (comp : α → α → Bool) (a : Array α) (i : ℕ) (hl : 2 * i + 1 < a.size) : IsParent i (child comp a i hl) := by
  unfold child IsParent
  split
  · split <;> omega
  · omega

/-- The way down of `std::pop_heap`. -/
def siftDown (comp : α → α → Bool) (a : Array α) (i : ℕ) (hi : i < a.size) : Array α :=
  if hl : 2 * i + 1 < a.size then
    have hc := child_lt comp a i hl
    if comp a[i] (a[child comp a i hl]) then
      siftDown comp (a.swap i (child comp a i hl) hi hc) (child comp a i hl) (by rw [Array.size_swap]; exact hc)
    else a
  else a
termination_by a.size - i
decreasing_by
  have h := child_isParent comp a i hl
  unfold IsParent at h
  rw [Array.size_swap]
  omega

variable {O : HeapOrder comp}

/-- An element that is moved up. -/
theorem OrderedUp.swap {a : Array α} {p i : ℕ} (h : OrderedUp O a i) (hp : p < a.size) (hi : i < a.size)
    (hpi : IsParent p i) (hup : O.above a[i] a[p]) : OrderedUp O (a.swap p i hp hi) p where
  others q j hq hj hqj hjp := by
    have hq' : q < a.size := by simpa using hq
    have hj' : j < a.size := by simpa using hj
    unfold IsParent at hpi hqj
    rw [Array.getElem_swap, Array.getElem_swap]
    by_cases hji : j = i
    · -- the old parent is below the element now
      have hqp : q = p := by omega
      subst hji hqp
      simpa [hjp] using hup
    · by_cases hqi : q = i
      · subst hqi
        have hqp : q ≠ p := by omega
        simpa [hqp, hjp, hji] using h.across p j hp hj' hpi hqj
      · by_cases hqp : q = p
        · subst hqp
          simpa [hjp, hji] using O.trans hup (h.others q j hq' hj' hqj hji)
        · simpa [hqp, hqi, hjp, hji] using h.others q j hq' hj' hqj hji
  across q j hq hj hqp hpj := by
    have hq' : q < a.size := by simpa using hq
    have hj' : j < a.size := by simpa using hj
    unfold IsParent at hpi hqp hpj
    have h1 := h.others q p hq' hp hqp (by omega)
    have hqp0 : q ≠ p := by omega
    have hqi : q ≠ i := by omega
    have hjp : j ≠ p := by omega
    rw [Array.getElem_swap, Array.getElem_swap]
    by_cases hji : j = i
    · subst hji
      simpa [hqp0, hqi, hjp] using h1
    · simpa [hqp0, hqi, hjp, hji] using O.trans h1 (h.others p j hp hj' hpj hji)

/-- An element that stays where it is. -/
theorem OrderedUp.stop {a : Array α} {i : ℕ} (h : OrderedUp O a i)
    (hstop : ∀ p (hp : p < a.size) (hi : i < a.size), IsParent p i → O.above a[p] a[i]) : Ordered O a := by
  intro p j hp hj hpj
  by_cases hji : j = i
  · subst hji
    exact hstop p hp hj hpj
  · exact h.others p j hp hj hpj hji

theorem siftUp_ordered {a : Array α} {i : ℕ} (hi : i < a.size) (h : OrderedUp O a i) : Ordered O (siftUp comp a i hi) := by
  fun_induction siftUp comp a i hi with
  | case1 a hi =>
    apply h.stop
    intro p hp hi hpi
    unfold IsParent at hpi
    omega
  | case2 a i hi hne hp hc ih => exact ih (h.swap hp hi (by unfold IsParent; omega) (O.of_true hc))
  | case3 a i hi hne hp hc =>
    apply h.stop
    intro p hp' hi' hpi
    have hpe : p = (i - 1) / 2 := by
      unfold IsParent at hpi
      omega
    subst hpe
    exact O.of_false (by simpa using hc)

/-- The child that is compared is above the other one. -/
theorem child_above (a : Array α) (i : ℕ) (hl : 2 * i + 1 < a.size) (j : ℕ) (hj : j < a.size) (hij : IsParent i j)
    (hc : child comp a i hl < a.size) : O.above a[child comp a i hl] a[j] := by
  have hcases : (child comp a i hl = 2 * i + 1 ∧ (∀ hr : 2 * i + 2 < a.size, O.above a[2 * i + 1] a[2 * i + 2])) ∨
      (child comp a i hl = 2 * i + 2 ∧ (∀ hr : 2 * i + 2 < a.size, O.above a[2 * i + 2] a[2 * i + 1])) := by
    unfold child
    split
    · split
      · rename_i hcomp
        exact .inl ⟨rfl, fun _ => O.of_true hcomp⟩
      · rename_i hcomp
        exact .inr ⟨rfl, fun _ => O.of_false (by simpa using hcomp)⟩
    · rename_i hr
      exact .inl ⟨rfl, fun hr' => absurd hr' hr⟩
  unfold IsParent at hij
  rcases hcases with ⟨he, habove⟩ | ⟨he, habove⟩
  · simp only [he]
    rcases hij with rfl | rfl
    · exact O.refl _
    · exact habove hj
  · simp only [he]
    rw [he] at hc
    rcases hij with rfl | rfl
    · exact habove hc
    · exact O.refl _

/-- An element that is moved down. -/
theorem OrderedDown.swap {a : Array α} {i c : ℕ} (h : OrderedDown O a i) (hi : i < a.size) (hc : c < a.size)
    (hic : IsParent i c) (hdown : O.above a[c] a[i])
    (hbest : ∀ j (hj : j < a.size), IsParent i j → O.above a[c] a[j]) : OrderedDown O (a.swap i c hi hc) c where
  others q j hq hj hqj hqc := by
    have hq' : q < a.size := by simpa using hq
    have hj' : j < a.size := by simpa using hj
    unfold IsParent at hic hqj
    rw [Array.getElem_swap, Array.getElem_swap]
    by_cases hqi : q = i
    · subst hqi
      have hjq : j ≠ q := by omega
      by_cases hjc : j = c
      · subst hjc
        simpa [hjq] using hdown
      · simpa [hjq, hjc] using hbest j hj' hqj
    · by_cases hji : j = i
      · subst hji
        simpa [hqi, hqc] using h.across q c hq' hc hqj hic
      · have hjc : j ≠ c := by omega
        simpa [hqi, hqc, hji, hjc] using h.others q j hq' hj' hqj hqi
  across q j hq hj hqc hcj := by
    have hq' : q < a.size := by simpa using hq
    have hj' : j < a.size := by simpa using hj
    unfold IsParent at hic hqc hcj
    have hqi : q = i := by omega
    subst hqi
    have hjq : j ≠ q := by omega
    have hjc : j ≠ c := by omega
    rw [Array.getElem_swap, Array.getElem_swap]
    simpa [hjq, hjc] using h.others c j hc hj' hcj (by omega)

theorem siftDown_ordered {a : Array α} {i : ℕ} (hi : i < a.size) (h : OrderedDown O a i) :
    Ordered O (siftDown comp a i hi) := by
  fun_induction siftDown comp a i hi with
  | case1 a i hi hl hc hcomp ih =>
    exact ih (h.swap hi hc (child_isParent comp a i hl) (O.of_true hcomp) fun j hj hij => child_above a i hl j hj hij hc)
  | case2 a i hi hl hc hcomp =>
    intro p j hp hj hpj
    by_cases hpi : p = i
    · subst hpi
      exact O.trans (O.of_false (by simpa using hcomp)) (child_above a p hl j hj hpj hc)
    · exact h.others p j hp hj hpj hpi
  | case3 a i hi hl =>
    intro p j hp hj hpj
    apply h.others p j hp hj hpj
    rintro rfl
    unfold IsParent at hpj
    omega

/-- The element at the top is above every other one. -/
theorem Ordered.top {a : Array α} (h : Ordered O a) (h0 : 0 < a.size) (j : ℕ) (hj : j < a.size) : O.above a[0] a[j] := by
  induction j using Nat.strong_induction_on with
  | _ j ih =>
    by_cases hj0 : j = 0
    · subst hj0
      exact O.refl _
    · have hp : (j - 1) / 2 < a.size := by omega
      exact O.trans (ih ((j - 1) / 2) (by omega) hp) (h _ j hp hj (by unfold IsParent; omega))

theorem Ordered.push {a : Array α} (h : Ordered O a) (b : α) : OrderedUp O (a.push b) a.size where
  others p j hp hj hpj hja := by
    have hj' : j < a.size := by
      rw [Array.size_push] at hj
      omega
    have hp' : p < a.size := by
      unfold IsParent at hpj
      omega
    rw [Array.getElem_push_lt hp', Array.getElem_push_lt hj']
    exact h p j hp' hj' hpj
  across p j hp hj _ hij := by
    rw [Array.size_push] at hj
    unfold IsParent at hij
    omega

/-- The last element, put first. -/
theorem Ordered.pop {a : Array α} (h : Ordered O a) (h0 : 0 < a.size) :
    OrderedDown O (a.swap 0 (a.size - 1) h0 (by omega)).pop 0 where
  others p j hp hj hpj hp0 := by
    simp only [Array.size_pop, Array.size_swap] at hp hj
    unfold IsParent at hpj
    rw [Array.getElem_pop, Array.getElem_pop, Array.getElem_swap, Array.getElem_swap, if_neg hp0, if_neg (by omega),
      if_neg (by omega), if_neg (by omega)]
    exact h p j (by omega) (by omega) hpj
  across p j hp hj hpi _ := by
    unfold IsParent at hpi
    omega

end BinaryHeap

/-- An array that is a heap. -/
structure BinaryHeap (O : HeapOrder comp) where
  array : Array α
  ordered : BinaryHeap.Ordered O array

namespace BinaryHeap

variable {O : HeapOrder comp}

def empty : BinaryHeap O := ⟨#[], fun p _ hp => by simp at hp⟩

/-- `push`. -/
def push (q : BinaryHeap O) (a : α) : BinaryHeap O :=
  ⟨siftUp comp (q.array.push a) q.array.size (by simp), siftUp_ordered _ (q.ordered.push a)⟩

/-- `top` and `pop`. -/
def pop (q : BinaryHeap O) : Option (α × BinaryHeap O) :=
  if h0 : 0 < q.array.size then
    if h1 : 0 < (q.array.swap 0 (q.array.size - 1) h0 (by omega)).pop.size then
      some (q.array[0], ⟨siftDown comp (q.array.swap 0 (q.array.size - 1) h0 (by omega)).pop 0 h1,
        siftDown_ordered h1 (q.ordered.pop h0)⟩)
    else some (q.array[0], empty)
  else none

end BinaryHeap

end Lib
