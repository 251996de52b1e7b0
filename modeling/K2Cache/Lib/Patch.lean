import Mathlib

/-!
# Patches of sets

A patch adds some points to a set and then removes some. Applying a list of
patches decides each point by the last patch that touches it (`mem_applyAll`);
a point no patch touches is as before. Two consequences:

* `applyAll_replay`: patches that already took effect can be applied again, and
  on any set that agrees with the original one modulo them, as long as the
  replay starts with them.
* `seq`: two patches in sequence are one patch.
-/

namespace Lib

/-- Points to add, then points to remove. -/
structure Patch (α : Type*) where
  add : Set α
  del : Set α

namespace Patch

variable {α : Type*}

/-- The set after the patch. -/
def apply (u : Patch α) (S : Set α) : Set α := (S ∪ u.add) \ u.del

/-- The set after a list of patches, the first one first. -/
def applyAll (us : List (Patch α)) (S : Set α) : Set α := us.foldl (fun S u => u.apply S) S

@[simp] theorem applyAll_nil (S : Set α) : applyAll [] S = S := rfl

@[simp] theorem applyAll_cons (u : Patch α) (us : List (Patch α)) (S : Set α) :
    applyAll (u :: us) S = applyAll us (u.apply S) := rfl

theorem applyAll_append (us vs : List (Patch α)) (S : Set α) :
    applyAll (us ++ vs) S = applyAll vs (applyAll us S) := List.foldl_append

open Classical in
/-- What a patch says of a point: removed, added, or nothing. -/
noncomputable def wordOn (u : Patch α) (x : α) : Option Bool :=
  if x ∈ u.del then some false else if x ∈ u.add then some true else none

/-- **The verdict of a list of patches on a point**: what the last patch that
touches it says. -/
noncomputable def verdict (us : List (Patch α)) (x : α) : Option Bool :=
  us.foldl (fun v u => (u.wordOn x).or v) none

theorem mem_apply {u : Patch α} {S : Set α} {x : α} :
    x ∈ u.apply S ↔ u.wordOn x = some true ∨ (u.wordOn x = none ∧ x ∈ S) := by
  unfold wordOn apply
  by_cases hd : x ∈ u.del
  · simp [hd]
  · by_cases ha : x ∈ u.add <;> simp [hd, ha]

theorem foldl_wordOn (us : List (Patch α)) (x : α) (v : Option Bool) :
    us.foldl (fun v u => (u.wordOn x).or v) v = (verdict us x).or v := by
  induction us generalizing v with
  | nil => simp [verdict]
  | cons u us ih =>
    unfold verdict
    simp only [List.foldl_cons]
    rw [ih, ih ((u.wordOn x).or none)]
    simp [Option.or_assoc]

@[simp] theorem verdict_nil (x : α) : verdict ([] : List (Patch α)) x = none := rfl

theorem verdict_cons (u : Patch α) (us : List (Patch α)) (x : α) :
    verdict (u :: us) x = (verdict us x).or (u.wordOn x) := by
  show us.foldl (fun v u => (u.wordOn x).or v) ((u.wordOn x).or none) = _
  rw [foldl_wordOn, Option.or_none]

theorem verdict_append (us vs : List (Patch α)) (x : α) :
    verdict (us ++ vs) x = (verdict vs x).or (verdict us x) := by
  unfold verdict
  rw [List.foldl_append, foldl_wordOn]
  rfl

/-- **The last word counts**: a point is in the patched set exactly if the verdict
adds it, or there is none and it was there. -/
theorem mem_applyAll (us : List (Patch α)) (S : Set α) (x : α) :
    x ∈ applyAll us S ↔ verdict us x = some true ∨ (verdict us x = none ∧ x ∈ S) := by
  induction us generalizing S with
  | nil => simp
  | cons u us ih =>
    rw [applyAll_cons, ih, mem_apply, verdict_cons]
    cases verdict us x with
    | none => simp
    | some b => cases b <;> simp

/-- **Replay.** Patches that already took effect, applied again at the start of a
longer list, change nothing. -/
theorem applyAll_replay (us vs : List (Patch α)) (S : Set α) :
    applyAll (us ++ vs) (applyAll us S) = applyAll (us ++ vs) S := by
  ext x
  rw [mem_applyAll, mem_applyAll (us ++ vs), mem_applyAll, verdict_append]
  cases verdict vs x with
  | none =>
    cases verdict us x with
    | none => simp
    | some b => cases b <;> simp
  | some b => simp

theorem applyAll_idem (us : List (Patch α)) (S : Set α) : applyAll us (applyAll us S) = applyAll us S := by
  simpa using applyAll_replay us [] S

/-- Two patches in sequence, as one patch. -/
def seq (u v : Patch α) : Patch α := ⟨(u.add ∪ v.add) \ v.del, (u.del \ v.add) ∪ v.del⟩

theorem mem_seq_add {u v : Patch α} {x : α} :
    x ∈ (u.seq v).add ↔ v.wordOn x = some true ∨ (v.wordOn x = none ∧ x ∈ u.add) := by
  unfold wordOn seq
  by_cases hd : x ∈ v.del
  · simp [hd]
  · by_cases ha : x ∈ v.add <;> simp [hd, ha]

theorem mem_seq_del {u v : Patch α} {x : α} :
    x ∈ (u.seq v).del ↔ v.wordOn x = some false ∨ (v.wordOn x = none ∧ x ∈ u.del) := by
  unfold wordOn seq
  by_cases hd : x ∈ v.del
  · simp [hd]
  · by_cases ha : x ∈ v.add <;> simp [hd, ha]

/-- A list of patches after a first one, as one patch. -/
def seqAll (u : Patch α) (us : List (Patch α)) : Patch α := us.foldl seq u

@[simp] theorem seqAll_cons (u v : Patch α) (us : List (Patch α)) :
    seqAll u (v :: us) = seqAll (u.seq v) us := rfl

theorem mem_seqAll_add (us : List (Patch α)) (u : Patch α) (x : α) :
    x ∈ (seqAll u us).add ↔ verdict us x = some true ∨ (verdict us x = none ∧ x ∈ u.add) := by
  induction us generalizing u with
  | nil => simp [seqAll]
  | cons v us ih =>
    rw [seqAll_cons, ih, mem_seq_add, verdict_cons]
    cases verdict us x with
    | none => simp
    | some b => cases b <;> simp

theorem mem_seqAll_del (us : List (Patch α)) (u : Patch α) (x : α) :
    x ∈ (seqAll u us).del ↔ verdict us x = some false ∨ (verdict us x = none ∧ x ∈ u.del) := by
  induction us generalizing u with
  | nil => simp [seqAll]
  | cons v us ih =>
    rw [seqAll_cons, ih, mem_seq_del, verdict_cons]
    cases verdict us x with
    | none => simp
    | some b => cases b <;> simp

end Patch

end Lib
