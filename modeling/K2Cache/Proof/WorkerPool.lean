import K2Cache.Spec.WorkerPool

/-!
# The tasks of a worker pool

* `pool_runs_each_once`: whatever the order of the steps, the tasks are taken in the order in
  which they were added, none twice, `shared_mutex` has one owner, and no worker pops from an
  empty queue.
* `pool_joined_all_done`: a pool of at least one worker, stopped behind its last task, has run
  every task when all its workers are joined.
* `pool_stuck`: where no thread can go on, the joins are done, or the joined worker is asleep
  and so is every worker that has not ended.
* `pool_lost_wakeup`: that does happen, for every number of workers and all tasks: the
  notification of `stop_all_workers` falls between the predicate of a wait and its sleep.
-/

namespace K2Cache

open Lib

variable {n : ℕ} {τ : Type}

namespace WorkerPc

/-- The places where a worker has `shared_mutex`. -/
def locked : WorkerPc → Bool
  | waitStopped | waitEmpty | block | breakStopped | breakEmpty | breakUnlock | continueEmpty | continueUnlock
  | pop | unlock => true
  | _ => false

/-- The places where a worker has a task. -/
def hasTask : WorkerPc → Bool
  | unlock | notify | task => true
  | _ => false

/-- The places behind a `stopped()` that was true, up to the next one. -/
def sawStopped : WorkerPc → Bool
  | loopEmpty | breakEmpty | breakUnlock | lastNotify | ended => true
  | _ => false

/-- The places behind a `queue.empty()` that was true after such a `stopped()`. -/
def sawEmpty : WorkerPc → Bool
  | breakUnlock | lastNotify | ended => true
  | _ => false

end WorkerPc

/-- The tasks that are still to be added. -/
def toPush (main : List (MainStep n τ)) : List τ :=
  main.filterMap fun
    | .push t => some t
    | _ => none

namespace ParallelWorkerPool

variable {s s' : ParallelWorkerPool n τ} {v w : Fin n}

@[simp] theorem goto_self (pc : WorkerPc) : (s.goto w pc).pc w = pc := by simp [goto]

theorem goto_ne (pc : WorkerPc) (h : v ≠ w) : (s.goto w pc).pc v = s.pc v := by simp [goto, h]

@[simp] theorem notifyAll_pc : s.notifyAll.pc v = if s.pc v = .asleep then .lock else s.pc v := rfl

theorem notifyAll_woken (v : Fin n) : s.notifyAll.pc v = s.pc v ∨ s.pc v = .asleep ∧ s.notifyAll.pc v = .lock := by
  rw [notifyAll_pc]
  by_cases ha : s.pc v = .asleep
  · exact .inr ⟨ha, if_pos ha⟩
  · exact .inl (if_neg ha)

/-! ## What a step does -/

/-- What a worker's step leaves as it is. -/
theorem workerStep_frame (h : s.workerStep w = some s') : s'.stopped = s.stopped ∧ s'.main = s.main := by
  unfold workerStep at h
  cases hpc : s.pc w <;> simp only [hpc] at h
  case lock =>
    split at h
    · cases h; exact ⟨rfl, rfl⟩
    · cases h
  case asleep => cases h
  case ended => cases h
  case pop =>
    obtain ⟨q, -, rfl⟩ := Option.map_eq_some_iff.1 h
    exact ⟨rfl, rfl⟩
  all_goals cases h; exact ⟨rfl, rfl⟩

/-- Where a worker cannot go on. -/
theorem workerStep_eq_none (h : s.workerStep w = none) :
    s.pc w = .ended ∨ s.pc w = .asleep ∨ (s.pc w = .lock ∧ s.sharedMutex ≠ none) ∨
      (s.pc w = .pop ∧ s.tasks.queue = []) := by
  unfold workerStep at h
  cases hpc : s.pc w <;> simp only [hpc] at h
  case lock =>
    split at h
    · cases h
    · rename_i hm
      exact .inr (.inr (.inl ⟨rfl, fun hn => hm (by rw [hn]; rfl)⟩))
  case asleep => exact .inr (.inl rfl)
  case ended => exact .inl rfl
  case pop => exact .inr (.inr (.inr ⟨rfl, TaskQueue.take_eq_none.1 (Option.map_eq_none_iff.1 h)⟩))
  all_goals cases h

/-- Another worker is where it was, or woken up. -/
theorem workerStep_pc_ne (h : s.workerStep w = some s') (hv : v ≠ w) :
    s'.pc v = s.pc v ∨ s.pc v = .asleep ∧ s'.pc v = .lock := by
  unfold workerStep at h
  cases hpc : s.pc w <;> simp only [hpc] at h
  case lock =>
    split at h
    · cases h; exact .inl (goto_ne _ hv)
    · cases h
  case asleep => cases h
  case ended => cases h
  case pop =>
    obtain ⟨q, -, rfl⟩ := Option.map_eq_some_iff.1 h
    exact .inl (goto_ne _ hv)
  case notify =>
    cases h
    have hw := notifyAll_woken (s := s.goto w .task) v
    rw [goto_ne _ hv] at hw
    exact hw
  case lastNotify =>
    cases h
    have hw := notifyAll_woken (s := s.goto w .ended) v
    rw [goto_ne _ hv] at hw
    exact hw
  all_goals cases h; exact .inl (goto_ne _ hv)

/-- The queue of tasks: only `pop` takes one, only the end of a task finishes it. -/
theorem workerStep_tasks (h : s.workerStep w = some s') :
    s'.tasks = s.tasks ∨ (s.pc w = .pop ∧ s.tasks.take w = some s'.tasks) ∨
      (s.pc w = .task ∧ s'.tasks = s.tasks.finish w) := by
  unfold workerStep at h
  cases hpc : s.pc w <;> simp only [hpc] at h
  case lock =>
    split at h
    · cases h; exact .inl rfl
    · cases h
  case asleep => cases h
  case ended => cases h
  case pop =>
    obtain ⟨q, hq, rfl⟩ := Option.map_eq_some_iff.1 h
    exact .inr (.inl ⟨rfl, hq⟩)
  case task => cases h; exact .inr (.inr ⟨rfl, rfl⟩)
  all_goals cases h; exact .inl rfl

/-- The mutex goes to the worker that locks it, and is released by the one that has it. -/
theorem workerStep_mutex (h : s.workerStep w = some s') (hw : s.sharedMutex = some w ↔ (s.pc w).locked) :
    (s'.sharedMutex = some w ↔ (s'.pc w).locked) ∧ ∀ v ≠ w, (s'.sharedMutex = some v ↔ s.sharedMutex = some v) := by
  unfold workerStep at h
  cases hpc : s.pc w <;> simp only [hpc] at h hw
  case lock =>
    split at h
    · rename_i hm
      cases h
      refine ⟨by simp [WorkerPc.locked], fun v hv => ?_⟩
      simp [Option.isNone_iff_eq_none.1 hm, Ne.symm hv]
    · cases h
  case asleep => cases h
  case ended => cases h
  case pop =>
    obtain ⟨q, -, rfl⟩ := Option.map_eq_some_iff.1 h
    exact ⟨by simpa [WorkerPc.locked, goto] using hw, fun v _ => Iff.rfl⟩
  case block | breakUnlock | continueUnlock | unlock =>
    cases h
    have hm : s.sharedMutex = some w := hw.2 rfl
    refine ⟨by simp [release, WorkerPc.locked, goto], fun v hv => ?_⟩
    simp [release, hm, Ne.symm hv]
  all_goals
    cases h
    refine ⟨?_, fun v _ => Iff.rfl⟩
    first
      | simpa [WorkerPc.locked, goto, notifyAll] using hw
      | (show s.sharedMutex = some w ↔ _; rw [goto_self]; split <;> simpa [WorkerPc.locked] using hw)

/-! ## Where the tasks are -/

/-- **The invariant of the tasks**, for the tasks the maker adds. -/
structure Runs (added : List τ) (s : ParallelWorkerPool n τ) : Prop where
  pushed : ∃ sofar, added = sofar ++ toPush s.main ∧ s.tasks.Accounts sofar
  mutex : ∀ w, s.sharedMutex = some w ↔ (s.pc w).locked
  task : ∀ w, (s.tasks.held w).isSome ↔ (s.pc w).hasTask
  pop : ∀ w, s.pc w = .pop → s.tasks.queue ≠ []

variable {added : List τ}

theorem runs_construct (main : List (MainStep n τ)) : Runs (toPush main) (construct main) where
  pushed := ⟨[], rfl, TaskQueue.accounts_empty⟩
  mutex w := by simp [construct, WorkerPc.locked]
  task w := by simp [construct, TaskQueue.empty, WorkerPc.hasTask]
  pop w h := by simp [construct] at h

/-- Being woken up changes nothing that `Runs` speaks of. -/
theorem Runs.woken (h : Runs added s) {pc : Fin n → WorkerPc}
    (hpc : ∀ v, pc v = s.pc v ∨ s.pc v = .asleep ∧ pc v = .lock) : Runs added { s with pc := pc } where
  pushed := h.pushed
  mutex v := by
    have hm := h.mutex v
    rcases hpc v with hv | ⟨ha, hv⟩
    · rw [← hv] at hm
      exact hm
    · rw [ha] at hm
      simpa [hv, WorkerPc.locked] using hm
  task v := by
    have ht := h.task v
    rcases hpc v with hv | ⟨ha, hv⟩
    · rw [← hv] at ht
      exact ht
    · rw [ha] at ht
      simpa [hv, WorkerPc.hasTask] using ht
  pop v hp := by
    rcases hpc v with hv | ⟨-, hv⟩
    · exact h.pop v (hv.symm.trans hp)
    · cases hv.symm.trans hp

theorem Runs.notifyAll (h : Runs added s) : Runs added s.notifyAll := h.woken notifyAll_woken

/-- Two workers with the mutex are one. -/
theorem Runs.owner (h : Runs added s) (hv : (s.pc v).locked) (hw : (s.pc w).locked) : v = w := by
  have h1 := (h.mutex v).2 hv
  have h2 := (h.mutex w).2 hw
  rw [h1] at h2
  exact Option.some.inj h2

theorem Runs.mainStep (h : Runs added s) (hs : s.mainStep = some s') : Runs added s' := by
  obtain ⟨sofar, h1, h2⟩ := h.pushed
  unfold ParallelWorkerPool.mainStep at hs
  rcases hmain : s.main with _ | ⟨_ | _ | _ | _, main⟩ <;> simp only [hmain] at hs h1
  · cases hs
  · -- a task is added
    rename_i t
    cases hs
    refine ⟨⟨sofar ++ [t], by simpa [toPush] using h1, h2.push t⟩, h.mutex, h.task, fun w hw => ?_⟩
    simp [TaskQueue.push]
  · cases hs
    exact ⟨⟨sofar, by simpa [toPush] using h1, h2⟩, h.notifyAll.mutex, h.notifyAll.task, h.notifyAll.pop⟩
  · cases hs
    exact ⟨⟨sofar, by simpa [toPush] using h1, h2⟩, h.mutex, h.task, h.pop⟩
  · split at hs
    · cases hs
      exact ⟨⟨sofar, by simpa [toPush] using h1, h2⟩, h.mutex, h.task, h.pop⟩
    · cases hs

theorem wakeUp_woken (h : s.wakeUp w = some s') : ∃ pc, s' = { s with pc := pc } ∧
    ∀ v, pc v = s.pc v ∨ s.pc v = .asleep ∧ pc v = .lock := by
  unfold ParallelWorkerPool.wakeUp at h
  split at h
  · rename_i ha
    cases h
    refine ⟨_, rfl, fun v => ?_⟩
    by_cases hv : v = w
    · subst hv
      exact .inr ⟨ha, Function.update_self v _ _⟩
    · exact .inl (Function.update_of_ne hv _ _)
  · cases h

/-- The worker's own task. -/
theorem Runs.own_task (h : Runs added s) (hs : s.workerStep w = some s') :
    (s'.tasks.held w).isSome ↔ (s'.pc w).hasTask := by
  have ht := h.task w
  unfold workerStep at hs
  cases hpc : s.pc w <;> simp only [hpc] at hs ht
  case lock =>
    split at hs
    · cases hs; simpa [WorkerPc.hasTask, goto] using ht
    · cases hs
  case asleep => cases hs
  case ended => cases hs
  case pop =>
    obtain ⟨q, hq, rfl⟩ := Option.map_eq_some_iff.1 hs
    obtain ⟨t, queue, -, rfl⟩ := TaskQueue.take_eq_some hq
    simp [WorkerPc.hasTask, goto]
  case task => cases hs; simp [WorkerPc.hasTask, goto, TaskQueue.finish]
  case unlock => cases hs; simpa [WorkerPc.hasTask, goto, release] using ht
  case notify => cases hs; simpa [WorkerPc.hasTask, goto, ParallelWorkerPool.notifyAll] using ht
  case lastNotify => cases hs; simpa [WorkerPc.hasTask, goto, ParallelWorkerPool.notifyAll] using ht
  case block | breakUnlock | continueUnlock => cases hs; simpa [WorkerPc.hasTask, goto, release] using ht
  all_goals
    cases hs
    rw [goto_self]
    split <;> simpa [WorkerPc.hasTask, goto] using ht

/-- A worker gets to `pop` only past a queue that is not empty. -/
theorem workerStep_pop (hs : s.workerStep w = some s') (hp : s'.pc w = .pop) : s'.tasks.queue ≠ [] := by
  unfold workerStep at hs
  cases hpc : s.pc w <;> simp only [hpc] at hs
  case lock =>
    split at hs
    · cases hs; simp [goto] at hp
    · cases hs
  case asleep => cases hs
  case ended => cases hs
  case pop =>
    obtain ⟨q, -, rfl⟩ := Option.map_eq_some_iff.1 hs
    simp [goto] at hp
  case continueEmpty =>
    cases hs
    intro hq
    have hq : s.tasks.queue = [] := hq
    simp [hq] at hp
  case notify | lastNotify => cases hs; simp [goto] at hp
  case block | breakUnlock | continueUnlock | unlock => cases hs; simp [goto, release] at hp
  case task => cases hs; simp [goto] at hp
  all_goals
    cases hs
    rw [goto_self] at hp
    split at hp <;> cases hp

theorem Runs.workerStep (h : Runs added s) (hs : s.workerStep w = some s') : Runs added s' := by
  have hmain := (workerStep_frame hs).2
  have hmutex := workerStep_mutex hs (h.mutex w)
  have htasks := workerStep_tasks hs
  refine ⟨?_, ?_, ?_, ?_⟩
  · obtain ⟨sofar, h1, h2⟩ := h.pushed
    refine ⟨sofar, by rw [hmain]; exact h1, ?_⟩
    rcases htasks with heq | ⟨hpc, htake⟩ | ⟨-, heq⟩
    · rw [heq]
      exact h2
    · apply h2.take _ htake
      have ht := h.task w
      rw [hpc] at ht
      simpa [WorkerPc.hasTask] using ht
    · rw [heq]
      exact h2.finish w
  · intro v
    by_cases hv : v = w
    · subst hv
      exact hmutex.1
    · rw [hmutex.2 v hv, h.mutex v]
      rcases workerStep_pc_ne hs hv with heq | ⟨ha, hl⟩
      · rw [heq]
      · rw [ha, hl]
        rfl
  · intro v
    by_cases hv : v = w
    · subst hv
      exact h.own_task hs
    · have hheld : s'.tasks.held v = s.tasks.held v := by
        rcases htasks with heq | ⟨-, htake⟩ | ⟨-, heq⟩
        · rw [heq]
        · obtain ⟨t, queue, -, heq⟩ := TaskQueue.take_eq_some htake
          rw [heq]
          exact Function.update_of_ne hv _ _
        · rw [heq]
          exact Function.update_of_ne hv _ _
      rw [hheld, h.task v]
      rcases workerStep_pc_ne hs hv with heq | ⟨ha, hl⟩
      · rw [heq]
      · rw [ha, hl]
        rfl
  · intro v hp
    by_cases hv : v = w
    · subst hv
      exact workerStep_pop hs hp
    · have hp' : s.pc v = .pop := by
        rcases workerStep_pc_ne hs hv with heq | ⟨-, hl⟩
        · rw [← heq, hp]
        · rw [hp] at hl
          cases hl
      -- the worker at `pop` has the mutex, so the one that stepped was not there
      rcases htasks with heq | ⟨hpc, -⟩ | ⟨-, heq⟩
      · rw [heq]
        exact h.pop v hp'
      · have hvw := h.owner (v := v) (w := w) (by rw [hp']; rfl) (by rw [hpc]; rfl)
        exact absurd hvw hv
      · rw [heq]
        exact h.pop v hp'

theorem Runs.step (h : Runs added s) {i : PoolMove n} (hs : (poolMachine n τ).step s i = some s') : Runs added s' := by
  cases i with
  | main => exact h.mainStep hs
  | worker w => exact h.workerStep hs
  | wakeUp w =>
    obtain ⟨pc, rfl, hpc⟩ := wakeUp_woken hs
    exact h.woken hpc
theorem runs_run {main : List (MainStep n τ)} {is : List (PoolMove n)}
    (hr : (poolMachine n τ).run is (construct main) = some s) : Runs (toPush main) s :=
  Machine.always (fun _ _ _ hs h => h.step hs) hr (runs_construct main)

/-! ## How the workers end -/

/-- **The invariant of the stop**, for a maker that adds nothing behind a stop and joins
every worker. -/
structure Stops (s : ParallelWorkerPool n τ) : Prop where
  last : ∀ pre w post, s.main = pre ++ .stop w :: post → toPush post = []
  stopped : ∀ w, s.stopped w = true → toPush s.main = []
  sawStopped : ∀ w, (s.pc w).sawStopped → s.stopped w = true
  sawEmpty : ∀ w, (s.pc w).sawEmpty → s.tasks.queue = []
  joined : ∀ w, s.pc w = .ended ∨ .join w ∈ s.main

theorem sawStopped_of_sawEmpty {pc : WorkerPc} (h : pc.sawEmpty) : pc.sawStopped := by
  cases pc <;> simp_all [WorkerPc.sawEmpty, WorkerPc.sawStopped]

theorem Stops.woken (h : Stops s) {pc : Fin n → WorkerPc}
    (hpc : ∀ v, pc v = s.pc v ∨ s.pc v = .asleep ∧ pc v = .lock) : Stops { s with pc := pc } where
  last := h.last
  stopped := h.stopped
  sawStopped v hv := by
    rcases hpc v with heq | ⟨-, heq⟩ <;> simp only [heq] at hv
    · exact h.sawStopped v hv
    · cases hv
  sawEmpty v hv := by
    rcases hpc v with heq | ⟨-, heq⟩ <;> simp only [heq] at hv
    · exact h.sawEmpty v hv
    · cases hv
  joined v := by
    rcases h.joined v with he | hj
    · rcases hpc v with heq | ⟨ha, -⟩
      · exact .inl (heq.trans he)
      · rw [he] at ha
        cases ha
    · exact .inr hj

/-- What is left of the maker's program. -/
theorem Stops.tail (h : Stops s) {m : MainStep n τ} {main : List (MainStep n τ)} (hm : s.main = m :: main)
    (hj : ∀ w, m = .join w → s.pc w = .ended) : Stops { s with main := main } where
  last pre w post hmain := h.last (m :: pre) w post (by rw [hm]; exact congrArg (m :: ·) hmain)
  stopped w hw := by
    have h1 := h.stopped w hw
    rw [hm] at h1
    cases m <;> simp_all [toPush]
  sawStopped := h.sawStopped
  sawEmpty := h.sawEmpty
  joined w := by
    rcases h.joined w with he | hmem
    · exact .inl he
    · rw [hm] at hmem
      rcases List.mem_cons.1 hmem with heq | hmem
      · exact .inl (hj w heq.symm)
      · exact .inr hmem

theorem Stops.mainStep (h : Stops s) (hs : s.mainStep = some s') : Stops s' := by
  unfold ParallelWorkerPool.mainStep at hs
  rcases hmain : s.main with _ | ⟨_ | _ | _ | _, main⟩ <;> simp only [hmain] at hs
  · cases hs
  · rename_i t
    cases hs
    have ht := h.tail hmain (by intro w hw; cases hw)
    -- a task is still to be added, so no worker is stopped
    have hno : ∀ w, s.stopped w ≠ true := by
      intro w hw
      have h1 := h.stopped w hw
      rw [hmain] at h1
      simp [toPush] at h1
    exact ⟨ht.last, ht.stopped, ht.sawStopped,
      fun w hw => absurd (h.sawStopped w (sawStopped_of_sawEmpty hw)) (hno w), ht.joined⟩
  · cases hs
    exact (h.woken notifyAll_woken).tail hmain (by intro w hw; cases hw)
  · rename_i w
    cases hs
    have ht := h.tail hmain (by intro v hv; cases hv)
    refine ⟨ht.last, fun v _ => h.last [] w main hmain, fun v hv => ?_, ht.sawEmpty, ht.joined⟩
    by_cases hvw : v = w
    · subst hvw
      simp
    · rw [← h.sawStopped v hv]
      exact Function.update_of_ne hvw _ _
  · rename_i w
    split at hs
    · rename_i he
      cases hs
      exact h.tail hmain (by intro v hv; cases hv; exact he)
    · cases hs

/-- What the worker that steps has seen. -/
theorem workerStep_saw (hs : s.workerStep w = some s') (h1 : (s.pc w).sawStopped → s.stopped w = true)
    (h2 : (s.pc w).sawEmpty → s.tasks.queue = []) :
    ((s'.pc w).sawStopped → s.stopped w = true) ∧ ((s'.pc w).sawEmpty → s.tasks.queue = []) := by
  unfold workerStep at hs
  cases hpc : s.pc w <;> simp only [hpc] at hs h1 h2
  case lock =>
    split at hs
    · cases hs; simp [goto, WorkerPc.sawStopped, WorkerPc.sawEmpty]
    · cases hs
  case asleep => cases hs
  case ended => cases hs
  case pop =>
    obtain ⟨q, -, rfl⟩ := Option.map_eq_some_iff.1 hs
    simp [goto, WorkerPc.sawStopped, WorkerPc.sawEmpty]
  case breakUnlock => cases hs; simpa [goto, release, WorkerPc.sawStopped, WorkerPc.sawEmpty] using And.intro (h1 rfl) (h2 rfl)
  case lastNotify => cases hs; simpa [goto, WorkerPc.sawStopped, WorkerPc.sawEmpty] using And.intro (h1 rfl) (h2 rfl)
  case notify => cases hs; simp [goto, WorkerPc.sawStopped, WorkerPc.sawEmpty]
  case task => cases hs; simp [goto, WorkerPc.sawStopped, WorkerPc.sawEmpty]
  case block | continueUnlock | unlock => cases hs; simp [goto, release, WorkerPc.sawStopped, WorkerPc.sawEmpty]
  all_goals
    cases hs
    rw [goto_self]
    split <;> simp_all [WorkerPc.sawStopped, WorkerPc.sawEmpty]

theorem Stops.workerStep (h : Stops s) (hs : s.workerStep w = some s') : Stops s' := by
  obtain ⟨hstopped, hmain⟩ := workerStep_frame hs
  obtain ⟨hown1, hown2⟩ := workerStep_saw hs (h.sawStopped w) (h.sawEmpty w)
  -- the queue of a pool that is not added to stays empty
  have hempty : s.tasks.queue = [] → s'.tasks.queue = [] := by
    intro hq
    rcases workerStep_tasks hs with heq | ⟨-, htake⟩ | ⟨-, heq⟩
    · rw [heq, hq]
    · rw [TaskQueue.take_eq_none.2 hq] at htake
      cases htake
    · rw [heq]
      exact hq
  refine ⟨by rw [hmain]; exact h.last, by rw [hmain, hstopped]; exact h.stopped, ?_, ?_, ?_⟩
  · intro v hv
    rw [hstopped]
    by_cases hvw : v = w
    · subst hvw
      exact hown1 hv
    · rcases workerStep_pc_ne hs hvw with heq | ⟨-, hl⟩
      · rw [heq] at hv
        exact h.sawStopped v hv
      · rw [hl] at hv
        cases hv
  · intro v hv
    apply hempty
    by_cases hvw : v = w
    · subst hvw
      exact hown2 hv
    · rcases workerStep_pc_ne hs hvw with heq | ⟨-, hl⟩
      · rw [heq] at hv
        exact h.sawEmpty v hv
      · rw [hl] at hv
        cases hv
  · intro v
    rw [hmain]
    rcases h.joined v with he | hj
    · by_cases hvw : v = w
      · subst hvw
        simp [ParallelWorkerPool.workerStep, he] at hs
      · rcases workerStep_pc_ne hs hvw with heq | ⟨ha, -⟩
        · exact .inl (heq.trans he)
        · rw [he] at ha
          cases ha
    · exact .inr hj

theorem Stops.step (h : Stops s) {i : PoolMove n} (hs : (poolMachine n τ).step s i = some s') : Stops s' := by
  cases i with
  | main => exact h.mainStep hs
  | worker w => exact h.workerStep hs
  | wakeUp w =>
    obtain ⟨pc, rfl, hpc⟩ := wakeUp_woken hs
    exact h.woken hpc

theorem toPush_append (l l' : List (MainStep n τ)) : toPush (l ++ l') = toPush l ++ toPush l' := by simp [toPush]

theorem toPush_stop : toPush (stopAllWorkers : List (MainStep n τ)) = [] := by
  simp [toPush, stopAllWorkers, List.filterMap_map]

theorem toPush_wait : toPush (waitWorkers : List (MainStep n τ)) = [] := by
  simp [toPush, waitWorkers, List.filterMap_map]

theorem toPush_runAll (tasks : List τ) : toPush (runAll (n := n) tasks) = tasks := by
  have hadd : toPush (tasks.flatMap (addTask (n := n))) = tasks := by
    induction tasks with
    | nil => rfl
    | cons t tasks ih =>
      rw [List.flatMap_cons, toPush_append, ih]
      rfl
  rw [runAll, toPush_append, toPush_append, hadd, toPush_stop, toPush_wait, List.append_nil, List.append_nil]

/-- Behind a stop of `runAll` nothing is added. -/
theorem runAll_last (tasks : List τ) {pre post : List (MainStep n τ)} {w : Fin n}
    (h : runAll tasks = pre ++ .stop w :: post) : toPush post = [] := by
  have hstop : MainStep.stop w ∉ tasks.flatMap (addTask (n := n)) := by simp [addTask]
  have hrest : toPush ((stopAllWorkers ++ waitWorkers : List (MainStep n τ))) = [] := by
    rw [toPush_append, toPush_stop, toPush_wait, List.append_nil]
  rw [runAll, List.append_assoc] at h
  rcases List.append_eq_append_iff.1 h with ⟨l, rfl, hl⟩ | ⟨l, hl, hpost⟩
  · rw [hl, toPush_append] at hrest
    exact (List.append_eq_nil_iff.1 hrest).2
  · cases l with
    | nil =>
      rw [List.nil_append] at hpost
      rw [← hpost] at hrest
      exact hrest
    | cons m l =>
      obtain ⟨rfl, -⟩ := List.cons.inj hpost
      exact absurd (by rw [hl]; simp) hstop

theorem stops_construct (tasks : List τ) : Stops (construct (n := n) (runAll tasks)) where
  last pre w post hmain := runAll_last tasks hmain
  stopped w h := by simp [construct] at h
  sawStopped w h := by simp [construct, WorkerPc.sawStopped] at h
  sawEmpty w h := by simp [construct, WorkerPc.sawEmpty] at h
  joined w := by
    right
    simp [construct, runAll, waitWorkers]

theorem stops_run {tasks : List τ} {is : List (PoolMove n)}
    (hr : (poolMachine n τ).run is (construct (runAll tasks)) = some s) : Stops s :=
  Machine.always (fun _ _ _ hs h => h.step hs) hr (stops_construct tasks)

/-- Where the tasks of a pool are once it is joined. -/
theorem joined_empty (hn : 0 < n) {tasks : List τ} {is : List (PoolMove n)} {s : ParallelWorkerPool n τ}
    (hr : (poolMachine n τ).run is (construct (runAll tasks)) = some s) (hmain : s.main = []) :
    s.tasks.queue = [] ∧ s.tasks.Accounts tasks ∧ ∀ w, s.tasks.held w = none := by
  have hstops := stops_run hr
  have hruns := runs_run hr
  have hended : ∀ w, s.pc w = .ended := by
    intro w
    rcases hstops.joined w with he | hj
    · exact he
    · rw [hmain] at hj
      cases hj
  obtain ⟨sofar, h1, h2⟩ := hruns.pushed
  rw [toPush_runAll, hmain] at h1
  have hsofar : tasks = sofar := by simpa [toPush] using h1
  refine ⟨hstops.sawEmpty ⟨0, hn⟩ (by rw [hended]; rfl), by rw [hsofar]; exact h2, fun w => ?_⟩
  have ht := hruns.task w
  rw [hended w] at ht
  simpa [WorkerPc.hasTask] using ht

/-! ## A notification that is lost -/

/-- The tasks so far are finished; some workers have ended, one may have found the queue empty and be
about to sleep, and the others are at the head of their loop. -/
def resting (blocked : Option (Fin n)) (finished : List τ) (stopped : Fin n → Bool) (ended : List (Fin n))
    (main : List (MainStep n τ)) : ParallelWorkerPool n τ :=
  ⟨⟨[], fun _ => none, finished, finished⟩, stopped, blocked,
    fun v => if blocked = some v then .block else if v ∈ ended then .ended else .loopStopped, main⟩

/-- The maker adds a task, and the worker takes and runs it. -/
theorem run_one (w : Fin n) (finished : List τ) (t : τ) (main : List (MainStep n τ)) :
    (poolMachine n τ).run (.main :: .main :: List.replicate 10 (.worker w))
        (resting none finished (fun _ => false) [] (addTask t ++ main)) =
      some (resting none (finished ++ [t]) (fun _ => false) [] main) := by
  simp only [List.replicate, Machine.run, poolMachine, mainStep, resting, addTask, List.cons_append, List.nil_append,
    notifyAll, workerStep, goto, release, TaskQueue.push, TaskQueue.take, TaskQueue.finish]
  simp
  funext v
  by_cases hv : v = w
  · simp [hv]
  · simp [hv]

theorem run_all (w : Fin n) (tasks finished : List τ) (main : List (MainStep n τ)) :
    ∃ is, (∀ v, .wakeUp v ∉ is) ∧
      (poolMachine n τ).run is (resting none finished (fun _ => false) [] (tasks.flatMap addTask ++ main)) =
        some (resting none (finished ++ tasks) (fun _ => false) [] main) := by
  induction tasks generalizing finished with
  | nil => exact ⟨[], by simp, by simp [Machine.run]⟩
  | cons t tasks ih =>
    obtain ⟨is, h1, h2⟩ := ih (finished ++ [t])
    refine ⟨(.main :: .main :: List.replicate 10 (.worker w)) ++ is, by simpa using h1, ?_⟩
    rw [Machine.run_append, List.flatMap_cons, List.append_assoc, run_one, Option.bind_some, h2, List.append_assoc]
    rfl

/-- The worker evaluates the predicate of its wait. -/
theorem run_block (w : Fin n) (finished : List τ) (main : List (MainStep n τ)) :
    (poolMachine n τ).run (List.replicate 4 (.worker w)) (resting none finished (fun _ => false) [] main) =
      some (resting (some w) finished (fun _ => false) [] main) := by
  simp only [List.replicate, Machine.run, poolMachine, workerStep, goto, resting]
  simp
  funext v
  by_cases hv : v = w
  · simp [hv]
  · simp [hv, Ne.symm hv]

variable (blocked : Option (Fin n))

theorem run_stops (finished : List τ) (l : List (Fin n)) (stopped : Fin n → Bool) (main : List (MainStep n τ)) :
    (poolMachine n τ).run (l.map fun _ => .main) (resting blocked finished stopped [] (l.map .stop ++ main)) =
      some (resting blocked finished (fun v => v ∈ l || stopped v) [] main) := by
  induction l generalizing stopped with
  | nil => simp [Machine.run]
  | cons v l ih =>
    have hstep : (poolMachine n τ).step (resting blocked finished stopped [] ((v :: l).map .stop ++ main)) .main =
        some (resting blocked finished (Function.update stopped v true) [] (l.map .stop ++ main)) := rfl
    rw [List.map_cons, Machine.run, hstep, Option.bind_some, ih]
    have hstopped : (fun u => decide (u ∈ l) || Function.update stopped v true u) =
        fun u => decide (u ∈ v :: l) || stopped u := by
      funext u
      by_cases hu : u = v
      · simp [hu]
      · simp [hu]
    rw [hstopped]

/-- The stops and their notification, while no worker sleeps. -/
theorem run_stopAll (finished : List τ) (main : List (MainStep n τ)) :
    (poolMachine n τ).run (List.replicate (n + 1) .main)
        (resting blocked finished (fun _ => false) [] (stopAllWorkers ++ main)) =
      some (resting blocked finished (fun _ => true) [] main) := by
  have hlen : List.replicate (n + 1) (PoolMove.main (n := n)) = (List.finRange n).map (fun _ => .main) ++ [.main] := by
    rw [List.replicate_succ', List.map_const', List.length_finRange]
  rw [hlen, Machine.run_append, stopAllWorkers, List.append_assoc, run_stops, Option.bind_some]
  simp only [Machine.run, poolMachine, mainStep, resting, notifyAll, List.cons_append, List.nil_append]
  simp
  funext v
  by_cases hv : blocked = some v
  · simp [hv]
  · simp [hv]

/-- Workers that are not about to sleep end. -/
theorem run_ends (finished : List τ) (main : List (MainStep n τ)) (l ended : List (Fin n)) (hw : ∀ v ∈ l, blocked ≠ some v)
    (hl : (ended ++ l).Nodup) :
    ∃ is, (∀ v, .wakeUp v ∉ is) ∧
      (poolMachine n τ).run is (resting blocked finished (fun _ => true) ended main) =
        some (resting blocked finished (fun _ => true) (ended ++ l) main) := by
  induction l generalizing ended with
  | nil => exact ⟨[], by simp, by simp [Machine.run]⟩
  | cons v l ih =>
    obtain ⟨is, h1, h2⟩ := ih (ended ++ [v]) (fun u hu => hw u (List.mem_cons_of_mem _ hu)) (by simpa using hl)
    have hv : blocked ≠ some v := hw v List.mem_cons_self
    have hve : v ∉ ended := fun h => (List.nodup_append.1 hl).2.2 v h v List.mem_cons_self rfl
    refine ⟨List.replicate 3 (.worker v) ++ is, by simpa using h1, ?_⟩
    have hthree : (poolMachine n τ).run (List.replicate 3 (.worker v)) (resting blocked finished (fun _ => true) ended main) =
        some (resting blocked finished (fun _ => true) (ended ++ [v]) main) := by
      simp only [List.replicate, Machine.run, poolMachine, workerStep, goto, resting, notifyAll]
      simp [hv, hve]
      funext u
      by_cases hu : u = v
      · subst hu
        simp [hv]
      · by_cases hu' : blocked = some u
        · simp [hu, hu']
        · by_cases hue : u ∈ ended <;> simp [hu, hu', hue]
    rw [Machine.run_append, hthree, Option.bind_some, h2, List.append_assoc]
    rfl

theorem construct_runAll (tasks : List τ) :
    construct (runAll tasks) =
      resting (n := n) none [] (fun _ => false) [] (tasks.flatMap addTask ++ (stopAllWorkers ++ waitWorkers)) := by
  rw [← List.append_assoc]
  simp [resting, construct, runAll, TaskQueue.empty]

end ParallelWorkerPool

open ParallelWorkerPool

/-- **Every task once.** -/
theorem pool_runs_each_once (main : List (MainStep n τ)) (is : List (PoolMove n)) (s : ParallelWorkerPool n τ)
    (hr : (poolMachine n τ).run is (construct main) = some s) :
    toPush main = s.tasks.taken ++ s.tasks.queue ++ toPush s.main ∧
      (s.tasks.taken : Multiset τ) = s.tasks.finished + TaskQueue.holding s.tasks.held ∧
      (∀ w, (s.tasks.held w).isSome ↔ (s.pc w).hasTask) ∧
      (∀ v w, (s.pc v).locked → (s.pc w).locked → v = w) ∧
      ∀ w, s.pc w = .pop → (s.workerStep w).isSome := by
  have h := runs_run hr
  obtain ⟨sofar, h1, h2⟩ := h.pushed
  refine ⟨?_, h2.once, h.task, fun v w hv hw => h.owner hv hw, fun w hp => ?_⟩
  · rw [h1, h2.inOrder]
  · rcases htake : s.tasks.take w with _ | q
    · exact absurd (TaskQueue.take_eq_none.1 htake) (h.pop w hp)
    · simp [workerStep, hp, htake]

/-- A pool of one worker, joined behind one task. -/
def oneTaskMoves : List (PoolMove 1) :=
  .main :: .main :: List.replicate 10 (.worker 0) ++ (.main :: .main :: List.replicate 3 (.worker 0)) ++ [.main]

theorem pool_runs_each_once_one : ∃ s : ParallelWorkerPool 1 ℕ,
    (poolMachine 1 ℕ).run oneTaskMoves (construct (runAll [7])) = some s ∧
      [7] = s.tasks.taken ++ s.tasks.queue ++ toPush s.main :=
  ⟨_, rfl, (pool_runs_each_once (runAll [7]) oneTaskMoves _ rfl).1⟩

/-- **A pool that is joined has run every task.** -/
theorem pool_joined_all_done (hn : 0 < n) (tasks : List τ) (is : List (PoolMove n)) (s : ParallelWorkerPool n τ)
    (hr : (poolMachine n τ).run is (construct (runAll tasks)) = some s) (hmain : s.main = []) :
    s.tasks.taken = tasks ∧ s.tasks.finished.Perm tasks := by
  obtain ⟨hq, hpushed, hheld⟩ := joined_empty hn hr hmain
  have htaken := hpushed.inOrder
  rw [hq, List.append_nil] at htaken
  exact ⟨htaken.symm, hpushed.all_finished hq hheld⟩

theorem pool_joined_all_done_one : ∃ s : ParallelWorkerPool 1 ℕ,
    (poolMachine 1 ℕ).run oneTaskMoves (construct (runAll [7])) = some s ∧ s.main = [] ∧ s.tasks.finished.Perm [7] :=
  ⟨_, rfl, rfl, (pool_joined_all_done (by decide) [7] oneTaskMoves _ rfl rfl).2⟩

/-- **Where a pool stops.** -/
theorem pool_stuck (tasks : List τ) (is : List (PoolMove n)) (s : ParallelWorkerPool n τ)
    (hr : (poolMachine n τ).run is (construct (runAll tasks)) = some s) (hmain : s.mainStep = none)
    (hworkers : ∀ w, s.workerStep w = none) :
    (∀ w, s.pc w = .ended ∨ s.pc w = .asleep) ∧
      (s.main = [] ∨ ∃ w main, s.main = .join w :: main ∧ s.pc w = .asleep) := by
  have hruns := runs_run hr
  -- the owner of the mutex can always go on
  have hfree : s.sharedMutex = none := by
    rcases hm : s.sharedMutex with _ | w
    · rfl
    · have hl := (hruns.mutex w).1 hm
      rcases workerStep_eq_none (hworkers w) with hpc | hpc | ⟨hpc, -⟩ | ⟨hpc, hq⟩
      · rw [hpc] at hl; cases hl
      · rw [hpc] at hl; cases hl
      · rw [hpc] at hl; cases hl
      · exact absurd hq (hruns.pop w hpc)
  have hpcs : ∀ w, s.pc w = .ended ∨ s.pc w = .asleep := by
    intro w
    rcases workerStep_eq_none (hworkers w) with hpc | hpc | ⟨-, hm⟩ | ⟨hpc, hq⟩
    · exact .inl hpc
    · exact .inr hpc
    · exact absurd hfree hm
    · exact absurd hq (hruns.pop w hpc)
  refine ⟨hpcs, ?_⟩
  unfold mainStep at hmain
  rcases hm : s.main with _ | ⟨_ | _ | _ | w, main⟩ <;> simp only [hm] at hmain <;> first | cases hmain | skip
  · exact .inl rfl
  · split at hmain
    · cases hmain
    · rename_i he
      exact .inr ⟨w, main, rfl, (hpcs w).resolve_left he⟩

/-- One worker that sleeps behind the notification of the stop. -/
def lostMoves : List (PoolMove 1) :=
  .main :: .main :: List.replicate 10 (.worker 0) ++ List.replicate 4 (.worker 0) ++ [.main, .main, .worker 0]

theorem pool_stuck_one : ∃ s : ParallelWorkerPool 1 ℕ,
    (poolMachine 1 ℕ).run lostMoves (construct (runAll [7])) = some s ∧ ∀ w, s.pc w = .ended ∨ s.pc w = .asleep :=
  ⟨_, rfl, (pool_stuck [7] lostMoves _ rfl rfl (fun w => by fin_cases w; rfl)).1⟩

/-- **A lost notification.** -/
theorem pool_lost_wakeup (hn : 0 < n) (tasks : List τ) : ∃ (is : List (PoolMove n)) (s : ParallelWorkerPool n τ),
    (∀ v, .wakeUp v ∉ is) ∧ (poolMachine n τ).run is (construct (runAll tasks)) = some s ∧
      s.tasks.finished = tasks ∧ s.main ≠ [] ∧ s.mainStep = none ∧ ∀ w, s.workerStep w = none := by
  obtain ⟨n, rfl⟩ : ∃ m, n = m + 1 := ⟨n - 1, by omega⟩
  have hnodup : ((List.finRange (n + 1)).filter (· ≠ 0)).Nodup := (List.nodup_finRange _).filter _
  obtain ⟨is, h1, h2⟩ := run_all (0 : Fin (n + 1)) tasks [] (stopAllWorkers ++ waitWorkers)
  obtain ⟨is', h3, h4⟩ := run_ends (some (0 : Fin (n + 1))) tasks waitWorkers ((List.finRange (n + 1)).filter (· ≠ 0)) []
    (by
      intro v hv h0
      obtain rfl : 0 = v := Option.some.inj h0
      simp at hv)
    (by simpa using hnodup)
  refine ⟨is ++ (List.replicate 4 (.worker 0) ++ (List.replicate (n + 2) .main ++ (is' ++ [.worker 0]))),
    ⟨⟨[], fun _ => none, tasks, tasks⟩, fun _ => true, none, fun v => if v = 0 then .asleep else .ended, waitWorkers⟩,
    ?_, ?_, rfl, ?_, ?_, ?_⟩
  · intro v hv
    simp only [List.mem_append, List.mem_replicate] at hv
    rcases hv with hv | ⟨-, hv⟩ | ⟨-, hv⟩ | hv | hv
    · exact h1 v hv
    · cases hv
    · cases hv
    · exact h3 v hv
    · simp at hv
  · rw [construct_runAll, Machine.run_append, h2, Option.bind_some, Machine.run_append, run_block, Option.bind_some,
      Machine.run_append, List.nil_append, run_stopAll, Option.bind_some, Machine.run_append, h4, Option.bind_some]
    simp only [Machine.run, poolMachine, workerStep, resting, goto, release]
    simp
    funext v
    by_cases hv : v = 0
    · simp [hv]
    · simp [hv, Ne.symm hv]
  · simp [waitWorkers]
  · simp [mainStep, waitWorkers, List.finRange_succ]
  · intro w
    by_cases hw : w = 0 <;> simp [workerStep, hw]

theorem pool_lost_wakeup_three : ∃ (is : List (PoolMove 3)) (s : ParallelWorkerPool 3 ℕ),
    (∀ v, .wakeUp v ∉ is) ∧ (poolMachine 3 ℕ).run is (construct (runAll [7, 8])) = some s ∧
      s.tasks.finished = [7, 8] ∧ s.main ≠ [] ∧ s.mainStep = none ∧ ∀ w, s.workerStep w = none :=
  pool_lost_wakeup (by decide) [7, 8]

end K2Cache
