import Mathlib

/-!
# Tasks taken from a queue

Workers take tasks from the front of a queue, and finish them. `Accounts` says where the
tasks that were pushed are: every one is in the queue, with a worker or finished, and they
were taken in the order in which they were pushed.
-/

namespace Lib

/-- A queue of tasks, the task each worker has taken, and the tasks taken and finished so far. -/
structure TaskQueue (ω τ : Type*) where
  queue : List τ
  held : ω → Option τ
  taken : List τ
  finished : List τ

namespace TaskQueue

variable {ω τ : Type*}

/-- Nothing pushed yet. -/
def empty : TaskQueue ω τ := ⟨[], fun _ => none, [], []⟩

def push (q : TaskQueue ω τ) (t : τ) : TaskQueue ω τ := { q with queue := q.queue ++ [t] }

/-- A worker takes the task at the front of the queue; an empty queue has none. -/
def take [DecidableEq ω] (q : TaskQueue ω τ) (w : ω) : Option (TaskQueue ω τ) :=
  match q.queue with
  | [] => none
  | t :: queue =>
    some { q with queue := queue, held := Function.update q.held w (some t), taken := q.taken ++ [t] }

/-- A worker is done with its task. -/
def finish [DecidableEq ω] (q : TaskQueue ω τ) (w : ω) : TaskQueue ω τ :=
  { q with held := Function.update q.held w none, finished := q.finished ++ (q.held w).toList }

/-- The tasks with the workers. -/
def holding [Fintype ω] (held : ω → Option τ) : Multiset τ := ∑ w, ((held w).toList : Multiset τ)

/-- **Where the pushed tasks are.** -/
structure Accounts [Fintype ω] (pushed : List τ) (q : TaskQueue ω τ) : Prop where
  inOrder : pushed = q.taken ++ q.queue
  once : (q.taken : Multiset τ) = q.finished + holding q.held

section
variable [Fintype ω] {pushed : List τ} {q : TaskQueue ω τ}

theorem holding_none {held : ω → Option τ} (h : ∀ w, held w = none) : holding held = 0 := by
  unfold holding
  exact Finset.sum_eq_zero fun w _ => by rw [h w]; rfl

theorem accounts_empty : Accounts [] (empty : TaskQueue ω τ) := by
  refine ⟨rfl, ?_⟩
  simp [empty, holding_none]

theorem Accounts.push (h : Accounts pushed q) (t : τ) : Accounts (pushed ++ [t]) (q.push t) := by
  refine ⟨?_, h.once⟩
  rw [h.inOrder]
  simp [TaskQueue.push]

/-- With an empty queue and no task with a worker, every task is finished. -/
theorem Accounts.all_finished (h : Accounts pushed q) (hq : q.queue = []) (hw : ∀ w, q.held w = none) :
    q.finished.Perm pushed := by
  have h1 := h.once
  rw [holding_none hw, add_zero] at h1
  rw [h.inOrder, hq, List.append_nil]
  exact (Multiset.coe_eq_coe.1 h1).symm

end

variable [DecidableEq ω] {pushed : List τ} {q q' : TaskQueue ω τ} {w : ω}

theorem take_eq_none : q.take w = none ↔ q.queue = [] := by
  unfold take
  split <;> simp_all

/-- What a take does. -/
theorem take_eq_some (h : q.take w = some q') : ∃ t queue, q.queue = t :: queue ∧
    q' = { q with queue := queue, held := Function.update q.held w (some t), taken := q.taken ++ [t] } := by
  unfold take at h
  cases hq : q.queue with
  | nil => simp [hq] at h
  | cons t queue =>
    rw [hq] at h
    exact ⟨t, queue, rfl, (Option.some.inj h).symm⟩

variable [Fintype ω]

/-- A worker's task is one of those with the workers. -/
theorem holding_erase (held : ω → Option τ) (w : ω) :
    holding held = ((held w).toList : Multiset τ) + holding (Function.update held w none) := by
  unfold holding
  have h := Finset.add_sum_erase Finset.univ (fun v => ((held v).toList : Multiset τ)) (Finset.mem_univ w)
  have h' := Finset.add_sum_erase Finset.univ (fun v => ((Function.update held w none v).toList : Multiset τ))
    (Finset.mem_univ w)
  rw [← h, ← h']
  have hrest : ∑ v ∈ Finset.univ.erase w, ((Function.update held w none v).toList : Multiset τ) =
      ∑ v ∈ Finset.univ.erase w, ((held v).toList : Multiset τ) := by
    apply Finset.sum_congr rfl
    intro v hv
    rw [Function.update_of_ne (Finset.ne_of_mem_erase hv)]
  simp [hrest]

/-- **A free worker takes a task.** -/
theorem Accounts.take (h : Accounts pushed q) (hw : q.held w = none) (ht : q.take w = some q') : Accounts pushed q' := by
  obtain ⟨t, queue, hq, rfl⟩ := take_eq_some ht
  refine ⟨by rw [h.inOrder, hq]; simp, ?_⟩
  have hhold : holding (Function.update q.held w (some t)) = {t} + holding q.held := by
    rw [holding_erase (Function.update q.held w (some t)) w, Function.update_self, Function.update_idem]
    rw [← hw, Function.update_eq_self]
    rfl
  show ((q.taken ++ [t] : List τ) : Multiset τ) = q.finished + holding (Function.update q.held w (some t))
  rw [hhold, ← Multiset.coe_add, h.once, add_assoc, add_comm (holding q.held)]
  rfl

/-- **A worker finishes its task.** -/
theorem Accounts.finish (h : Accounts pushed q) (w : ω) : Accounts pushed (q.finish w) := by
  refine ⟨h.inOrder, ?_⟩
  show (q.taken : Multiset τ) = ((q.finished ++ (q.held w).toList : List τ) : Multiset τ) +
    holding (Function.update q.held w none)
  rw [h.once, holding_erase q.held w, ← Multiset.coe_add, add_assoc]

end TaskQueue

end Lib
