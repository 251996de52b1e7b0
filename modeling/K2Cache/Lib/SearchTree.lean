import Mathlib

/-!
# Search trees under a comparison

What an ordered associative container does: it keeps its elements in a binary tree, finds one
by descending along a comparison, and puts a new one at the leaf the descent ends in. Trees of
different shapes with the same elements in order answer alike (`find_eq`, `insert_inorder`), so
rebalancing cannot be seen. The comparison is an argument of each operation: one that
changes between two of them does no harm as long as the elements are in its order.
-/

namespace Lib

/-- A comparison that is the strict part of a linear order. -/
structure StrictOrder {α : Type*} (less : α → α → Bool) : Prop where
  irrefl : ∀ a, less a a = false
  trans : ∀ {a b c}, less a b = true → less b c = true → less a c = true
  total : ∀ a b, less a b = true ∨ a = b ∨ less b a = true

theorem StrictOrder.asymm {α : Type*} {less : α → α → Bool} (h : StrictOrder less) {a b : α} (hab : less a b = true) :
    less b a = false := by
  rw [Bool.eq_false_iff]
  intro hba
  have hirr := h.irrefl a
  rw [h.trans hab hba] at hirr
  cases hirr

inductive SearchTree (α : Type*) where
  | leaf
  | node (left : SearchTree α) (key : α) (right : SearchTree α)

namespace SearchTree

variable {α : Type*} (less : α → α → Bool)

/-- The elements, from left to right. -/
def inorder : SearchTree α → List α
  | leaf => []
  | node l x r => l.inorder ++ x :: r.inorder

/-- The descent to the first element that is not before `k`; `y` is the last one passed on its right. -/
def lowerBound (k : α) : SearchTree α → Option α → Option α
  | leaf, y => y
  | node l x r, y => if less x k then lowerBound k r y else lowerBound k l (some x)

/-- The element that is neither before nor behind `k`. -/
def find (t : SearchTree α) (k : α) : Option α :=
  (t.lowerBound less k none).filter fun x => !less k x

/-- A new element, at the leaf the descent ends in. -/
def insert (k : α) : SearchTree α → SearchTree α
  | leaf => node leaf k leaf
  | node l x r => if less k x then node (l.insert k) x r else node l x (r.insert k)

variable {less} {t : SearchTree α} {k : α}

theorem lowerBound_eq (h : StrictOrder less) (hs : t.inorder.Pairwise fun a b => less a b = true) (y : Option α) :
    t.lowerBound less k y = (t.inorder.find? fun x => !less x k).or y := by
  induction t generalizing y with
  | leaf => rfl
  | node l x r ihl ihr =>
    obtain ⟨hl, hxr, hlx⟩ := List.pairwise_append.1 hs
    have hr := (List.pairwise_cons.1 hxr).2
    unfold lowerBound inorder
    rw [List.find?_append]
    cases hx : less x k with
    | true =>
      -- what is on the left is before `x`, and so before `k`
      have hnone : l.inorder.find? (fun a => !less a k) = none := by
        refine List.find?_eq_none.2 fun a ha => ?_
        have hak := h.trans (hlx a ha x List.mem_cons_self) hx
        simp [hak]
      rw [if_pos rfl, ihr hr, hnone, List.find?_cons_of_neg (by simp [hx])]
      rfl
    | false =>
      rw [if_neg Bool.false_ne_true, ihl hl, List.find?_cons_of_pos (by simp [hx])]
      cases l.inorder.find? fun a => !less a k <;> rfl

/-- **A key is found where it is, and nowhere else**, in a tree of any shape. -/
theorem find_eq [DecidableEq α] (h : StrictOrder less) (hs : t.inorder.Pairwise fun a b => less a b = true) :
    t.find less k = if k ∈ t.inorder then some k else none := by
  unfold find
  rw [lowerBound_eq h hs, Option.or_none]
  cases hf : t.inorder.find? fun x => !less x k with
  | none =>
    have hk : k ∉ t.inorder := by
      intro hk
      have hn := List.find?_eq_none.1 hf k hk
      simp [h.irrefl] at hn
    rw [if_neg hk]
    rfl
  | some x =>
    have hx : less x k = false := by simpa using List.find?_some hf
    have hm : x ∈ t.inorder := List.mem_of_find?_eq_some hf
    rcases h.total x k with hlt | rfl | hgt
    · rw [hx] at hlt
      cases hlt
    · simp [hm, h.irrefl]
    · -- the first that is not before `k` is behind it
      have hk : k ∉ t.inorder := by
        intro hk
        obtain ⟨-, as, bs, he, has⟩ := List.find?_eq_some_iff_append.1 hf
        rw [he] at hk hs
        rcases List.mem_append.1 hk with hk | hk
        · have hkk := has k hk
          simp [h.irrefl] at hkk
        rcases List.mem_cons.1 hk with rfl | hk
        · rw [h.irrefl] at hgt
          cases hgt
        · have hxk := (List.pairwise_cons.1 (List.pairwise_append.1 hs).2.1).1 k hk
          rw [h.asymm hxk] at hgt
          cases hgt
      rw [if_neg hk]
      simp [hgt]

/-- **Insertion goes by the order alone**, in a tree of any shape. -/
theorem insert_inorder (h : StrictOrder less) (hs : t.inorder.Pairwise fun a b => less a b = true) :
    (t.insert less k).inorder = t.inorder.orderedInsert (fun a b => less a b = true) k := by
  induction t with
  | leaf => rfl
  | node l x r ihl ihr =>
    obtain ⟨hl, hxr, hlx⟩ := List.pairwise_append.1 hs
    have hr := (List.pairwise_cons.1 hxr).2
    have happend : ∀ (as : List α), (∀ a ∈ as, less k a = false) → ∀ bs : List α,
        (as ++ bs).orderedInsert (fun a b => less a b = true) k = as ++ bs.orderedInsert (fun a b => less a b = true) k := by
      intro as has bs
      induction as with
      | nil => rfl
      | cons a as ih =>
        rw [List.cons_append, List.orderedInsert_cons, if_neg (by simp [has a List.mem_cons_self]),
          ih fun b hb => has b (List.mem_cons_of_mem _ hb)]
        rfl
    unfold insert
    cases hx : less k x with
    | true =>
      have hcons : ∀ as : List α, (as ++ x :: r.inorder).orderedInsert (fun a b => less a b = true) k =
          as.orderedInsert (fun a b => less a b = true) k ++ x :: r.inorder := by
        intro as
        induction as with
        | nil => simp [hx]
        | cons a as ih =>
          rw [List.cons_append, List.orderedInsert_cons, List.orderedInsert_cons, ih]
          split <;> rfl
      rw [if_pos rfl]
      show (l.insert less k).inorder ++ x :: r.inorder = _
      rw [ihl hl]
      exact (hcons _).symm
    | false =>
      have hbefore : ∀ a ∈ l.inorder, less k a = false := by
        intro a ha
        rw [Bool.eq_false_iff]
        intro hka
        rw [h.trans hka (hlx a ha x List.mem_cons_self)] at hx
        cases hx
      rw [if_neg Bool.false_ne_true]
      show l.inorder ++ x :: (r.insert less k).inorder = (l.inorder ++ x :: r.inorder).orderedInsert _ k
      rw [happend _ hbefore, ihr hr, List.orderedInsert_cons, if_neg (by simp [hx])]

end SearchTree

end Lib
