import K2Cache.Spec.ServerWorker

/-!
# The requests of the server workers

* `server_serves_each_once`: whatever the order of the steps, the requests are taken in the
  order in which they came, each by one worker, and a worker ends only if it was stopped.
* `server_drains`: a worker that is neither paused, stopped nor between the predicate of its wait
  and its sleep takes, behind the next request, all that wait, alone and in their order.
* `server_loses_request`: from every state in which no worker is paused or stopped, a request can come
  that no worker takes: its notification finds every worker between the predicate and the sleep.
* `halted_takes_nothing`: a worker that was paused or stopped never takes a request again.
* `stop_joins_iff`: the join of a `stop` can come to an end, with no new request, exactly if a
  request is waiting.
-/

namespace K2Cache

open Lib

variable {n : ℕ} {τ : Type}

theorem requests_append (is is' : List (ServerMove n τ)) : requests (is ++ is') = requests is ++ requests is' :=
  List.filterMap_append

theorem requests_replicate_worker (k : ℕ) (w : Fin n) : requests (List.replicate k (.worker w : ServerMove n τ)) = [] := by
  induction k with
  | zero => rfl
  | succ k ih =>
    rw [List.replicate_succ]
    exact ih

/-- The moves of a server that is not paused or stopped, and where no wait ends by itself. -/
def ServerMove.plain : ServerMove n τ → Bool
  | .request _ | .notify | .worker _ => true
  | _ => false

namespace ServerWorkers

variable {s s' s'' : ServerWorkers n τ} {v w : Fin n}

/-! ## What a step does -/

@[simp] theorem goto_pc (pc : ServerWorkerPc) : (s.goto w pc).pc w = pc := by simp [goto]

theorem goto_pc_ne (pc : ServerWorkerPc) (h : v ≠ w) : (s.goto w pc).pc v = s.pc v := by simp [goto, h]

/-- The queue of a worker's step. -/
theorem mainLoop_tasks (h : s.mainLoop w = some s') :
    (s'.tasks = s.tasks ∧ (s'.pc w = .process ↔ s.pc w = .process)) ∨
      (s.pc w = .getTask ∧ s'.pc w = .process ∧ s.tasks.take w = some s'.tasks) ∨
      (s.pc w = .process ∧ s'.pc w = .waitRunning ∧ s'.tasks = s.tasks.finish w) := by
  unfold mainLoop at h
  cases hpc : s.pc w <;> simp only [hpc] at h
  case asleep => cases h
  case ended => cases h
  case lock | block => cases h; simp [goto]
  case waitRunning | waitTasks | breakStopped =>
    cases h
    rw [goto_pc]
    split <;> simp [goto]
  case getTask =>
    split at h
    · cases h; simp [goto]
    · rename_i tasks htake
      cases h
      simp [goto, htake]
  case process => cases h; simp [goto]

/-- What a worker's steps leave as it is. -/
structure Others (w : Fin n) (s s' : ServerWorkers n τ) : Prop where
  running : s'.running = s.running
  stopped : s'.stopped = s.stopped
  notifications : s'.notifications = s.notifications
  pc : ∀ v ≠ w, s'.pc v = s.pc v
  held : ∀ v ≠ w, s'.tasks.held v = s.tasks.held v

theorem Others.refl (w : Fin n) (s : ServerWorkers n τ) : Others w s s := ⟨rfl, rfl, rfl, fun _ _ => rfl, fun _ _ => rfl⟩

theorem Others.trans (h : Others w s s') (h' : Others w s' s'') : Others w s s'' where
  running := h'.running.trans h.running
  stopped := h'.stopped.trans h.stopped
  notifications := h'.notifications.trans h.notifications
  pc v hv := (h'.pc v hv).trans (h.pc v hv)
  held v hv := (h'.held v hv).trans (h.held v hv)

theorem others_goto (s : ServerWorkers n τ) (w : Fin n) (pc : ServerWorkerPc) : Others w s (s.goto w pc) :=
  ⟨rfl, rfl, rfl, fun _ hv => goto_pc_ne _ hv, fun _ _ => rfl⟩

theorem mainLoop_others (h : s.mainLoop w = some s') : Others w s s' := by
  unfold mainLoop at h
  cases hpc : s.pc w <;> simp only [hpc] at h
  case asleep => cases h
  case ended => cases h
  case getTask =>
    split at h
    · cases h; exact others_goto s w _
    · rename_i tasks htake
      cases h
      obtain ⟨t, queue, -, rfl⟩ := TaskQueue.take_eq_some htake
      exact ⟨rfl, rfl, rfl, fun v hv => goto_pc_ne _ hv, fun v hv => Function.update_of_ne hv _ _⟩
  case process =>
    cases h
    exact ⟨rfl, rfl, rfl, fun v hv => goto_pc_ne _ hv, fun v hv => Function.update_of_ne hv _ _⟩
  all_goals cases h; exact others_goto s w _

/-- A notification. -/
theorem notifyWorkers_eq_some (h : s.notifyWorkers = some s') : s' = { s with
    pc := fun w => if s.pc w = .asleep then .lock else s.pc w, notifications := s.notifications - 1 } := by
  unfold notifyWorkers at h
  split at h
  · cases h
  · exact (Option.some.inj h).symm

theorem pause_eq_some (h : s.pause w = some s') :
    (s.pc w).unlocked ∧ s' = { s with running := Function.update s.running w false } := by
  unfold pause at h
  split at h
  · rename_i hu
    exact ⟨hu, (Option.some.inj h).symm⟩
  · cases h

theorem stop_eq_some (h : s.stop w = some s') : (s.pc w).unlocked ∧
    s' = { s.goto w (if s.pc w = .asleep then .lock else s.pc w) with
      running := Function.update s.running w true, stopped := Function.update s.stopped w true } := by
  unfold stop at h
  split at h
  · rename_i hu
    exact ⟨hu, (Option.some.inj h).symm⟩
  · cases h

theorem wakeUp_eq_some (h : s.wakeUp w = some s') : s.pc w = .asleep ∧ s' = s.goto w .lock := by
  unfold wakeUp at h
  split at h
  · rename_i ha
    exact ⟨ha, (Option.some.inj h).symm⟩
  · cases h

/-! ## Where the requests are -/

/-- **The invariant of the requests.** -/
structure Serves (requests : List τ) (s : ServerWorkers n τ) : Prop where
  accounts : s.tasks.Accounts requests
  held : ∀ w, (s.tasks.held w).isSome ↔ s.pc w = .process
  ended : ∀ w, s.pc w = .ended → s.stopped w = true

variable {sofar : List τ}

theorem serves_startWorkers : Serves [] (startWorkers : ServerWorkers n τ) where
  accounts := TaskQueue.accounts_empty
  held w := by simp [startWorkers, TaskQueue.empty]
  ended w h := by simp [startWorkers] at h

theorem Serves.mainLoop (h : Serves sofar s) (hs : s.mainLoop w = some s') : Serves sofar s' := by
  have hothers := mainLoop_others hs
  refine ⟨?_, fun v => ?_, fun v hv => ?_⟩
  · rcases mainLoop_tasks hs with ⟨heq, -⟩ | ⟨hpc, -, htake⟩ | ⟨-, -, heq⟩
    · rw [heq]
      exact h.accounts
    · apply h.accounts.take _ htake
      have hheld := h.held w
      rw [hpc] at hheld
      simpa using hheld
    · rw [heq]
      exact h.accounts.finish w
  · by_cases hv : v = w
    · subst hv
      rcases mainLoop_tasks hs with ⟨heq, hiff⟩ | ⟨-, hpc, htake⟩ | ⟨-, hpc, heq⟩
      · rw [heq, hiff]
        exact h.held v
      · obtain ⟨t, queue, -, heq⟩ := TaskQueue.take_eq_some htake
        rw [heq, hpc]
        simp
      · rw [heq, hpc]
        simp [TaskQueue.finish]
    · rw [hothers.held v hv, hothers.pc v hv]
      exact h.held v
  · rw [hothers.stopped]
    by_cases hvw : v = w
    · subst hvw
      -- only `if (stopped)` ends a worker
      unfold ServerWorkers.mainLoop at hs
      cases hpc : s.pc v <;> simp only [hpc] at hs
      case breakStopped =>
        cases hs
        rw [goto_pc] at hv
        split at hv
        · assumption
        · cases hv
      case ended => cases hs
      case asleep => cases hs
      case getTask => split at hs <;> cases hs <;> simp [goto] at hv
      case process => cases hs; simp [goto] at hv
      all_goals
        cases hs
        rw [goto_pc] at hv
        first | cases hv | split at hv <;> cases hv
    · rw [hothers.pc v hvw] at hv
      exact h.ended v hv

theorem Serves.step (h : Serves sofar s) {i : ServerMove n τ} (hs : (workersMachine n τ).step s i = some s') :
    Serves (sofar ++ requests [i]) s' := by
  cases i with
  | request t =>
    cases hs
    exact ⟨h.accounts.push t, h.held, h.ended⟩
  | notify =>
    rw [notifyWorkers_eq_some hs]
    refine ⟨by simpa [requests] using h.accounts, fun w => ?_, fun w hw => ?_⟩
    · by_cases ha : s.pc w = .asleep <;> simp [ha, h.held]
    · by_cases ha : s.pc w = .asleep
      · simp [ha] at hw
      · exact h.ended w (by simpa [ha] using hw)
  | pause w =>
    rw [(pause_eq_some hs).2]
    exact ⟨by simpa [requests] using h.accounts, h.held, h.ended⟩
  | stop w =>
    obtain ⟨-, rfl⟩ := stop_eq_some hs
    refine ⟨by simpa [requests, goto] using h.accounts, fun v => ?_, fun v hv => ?_⟩
    · by_cases hv : v = w
      · subst hv
        by_cases ha : s.pc v = .asleep <;> simp [goto, ha, h.held]
      · simpa [goto, hv] using h.held v
    · by_cases hvw : v = w
      · simp [hvw]
      · simp only [goto, Function.update_of_ne hvw] at hv ⊢
        exact h.ended v hv
  | worker w =>
    simpa [requests] using h.mainLoop hs
  | wakeUp w =>
    obtain ⟨ha, rfl⟩ := wakeUp_eq_some hs
    refine ⟨by simpa [requests, goto] using h.accounts, fun v => ?_, fun v hv => ?_⟩
    · by_cases hv : v = w
      · subst hv
        simp [goto, ha, h.held]
      · simpa [goto, hv] using h.held v
    · by_cases hvw : v = w
      · simp [goto, hvw] at hv
      · exact h.ended v (by simpa [goto, hvw] using hv)

theorem serves_steps {is : List (ServerMove n τ)} (h : Serves sofar s) (hr : (workersMachine n τ).run is s = some s') :
    Serves (sofar ++ requests is) s' := by
  induction is using List.reverseRecOn generalizing s' with
  | nil =>
    cases hr
    simpa [requests] using h
  | append_singleton is i ih =>
    obtain ⟨s₁, h1, h2⟩ := Machine.run_concat.1 hr
    rw [requests_append, ← List.append_assoc]
    exact (ih h1).step h2

theorem serves_run {is : List (ServerMove n τ)} (hr : (workersMachine n τ).run is startWorkers = some s) :
    Serves (requests is) s := by
  simpa using serves_steps serves_startWorkers hr

/-! ## A worker by itself -/

/-- Steps of one worker. -/
def Alone (w : Fin n) : ServerWorkers n τ → ServerWorkers n τ → Prop :=
  Relation.ReflTransGen fun a b => a.mainLoop w = some b

theorem Alone.head (h : s.mainLoop w = some s') (h' : Alone w s' s'') : Alone w s s'' :=
  Relation.ReflTransGen.head h h'

theorem Alone.others (h : Alone w s s') : Others w s s' := by
  induction h with
  | refl => exact Others.refl w s
  | tail _ hstep ih => exact ih.trans (mainLoop_others hstep)

theorem Alone.run (h : Alone w s s') : ∃ k, (workersMachine n τ).run (List.replicate k (.worker w)) s = some s' := by
  induction h with
  | refl => exact ⟨0, rfl⟩
  | tail _ hstep ih =>
    obtain ⟨k, hk⟩ := ih
    refine ⟨k + 1, ?_⟩
    rw [List.replicate_succ', Machine.run_concat]
    exact ⟨_, hk, hstep⟩

/-- The queue is empty, its tasks are finished, and the worker is about to sleep. -/
structure Drained (w : Fin n) (s s' : ServerWorkers n τ) : Prop where
  pc : s'.pc w = .block
  queue : s'.tasks.queue = []
  taken : s'.tasks.taken = s.tasks.taken ++ s.tasks.queue
  finished : s'.tasks.finished = s.tasks.finished ++ (s.tasks.held w).toList ++ s.tasks.queue

/-- What the worker will have done is the same behind each of its steps. -/
theorem Drained.head (hheld : (s.tasks.held w).isSome → s.pc w = .process) (h : s.mainLoop w = some s')
    (hd : Drained w s' s'') : Drained w s s'' := by
  refine ⟨hd.pc, hd.queue, ?_, ?_⟩
  · rw [hd.taken]
    rcases mainLoop_tasks h with ⟨heq, -⟩ | ⟨-, -, htake⟩ | ⟨-, -, heq⟩
    · rw [heq]
    · obtain ⟨t, queue, hq, heq⟩ := TaskQueue.take_eq_some htake
      simp [heq, hq]
    · rw [heq]
      rfl
  · rw [hd.finished]
    rcases mainLoop_tasks h with ⟨heq, -⟩ | ⟨hpc, -, htake⟩ | ⟨-, -, heq⟩
    · rw [heq]
    · obtain ⟨t, queue, hq, heq⟩ := TaskQueue.take_eq_some htake
      have hnone : s.tasks.held w = none := by
        rcases hh : s.tasks.held w with _ | t'
        · rfl
        · rw [hh] at hheld
          have hp := hheld rfl
          rw [hpc] at hp
          cases hp
      simp [heq, hq, hnone]
    · simp [heq, TaskQueue.finish]

/-- A worker that can get all the tasks does. -/
def Drains (w : Fin n) (s : ServerWorkers n τ) : Prop := ∃ s', Alone w s s' ∧ Drained w s s'

theorem Drains.head (hserves : Serves sofar s) (h : s.mainLoop w = some s') (hd : Drains w s') : Drains w s := by
  obtain ⟨s'', h1, h2⟩ := hd
  exact ⟨s'', h1.head h, h2.head (hserves.held w).1 h⟩

/-- A worker that is about to sleep behind an empty queue. -/
theorem drains_block (hserves : Serves sofar s) (hpc : s.pc w = .block) (hq : s.tasks.queue = []) : Drains w s := by
  have hheld : s.tasks.held w = none := by
    have h := hserves.held w
    rw [hpc] at h
    simpa using h
  exact ⟨s, Relation.ReflTransGen.refl, hpc, hq, by rw [hq, List.append_nil], by rw [hq, hheld]; simp⟩

theorem waitRunning_step (hpc : s.pc w = .waitRunning) (hrunning : s.running w = true) :
    s.mainLoop w = some (s.goto w .waitTasks) := by
  simp [mainLoop, hpc, hrunning]

/-- A worker at the predicate of its wait. -/
theorem drains_waitRunning (hserves : Serves sofar s) (hrunning : s.running w = true) (hstopped : s.stopped w = false)
    (hpc : s.pc w = .waitRunning) : Drains w s := by
  have h1 := waitRunning_step hpc hrunning
  apply Drains.head hserves h1
  have hs₁ := hserves.mainLoop h1
  induction hq : s.tasks.queue generalizing s with
  | nil =>
    have h2 : (s.goto w .waitTasks).mainLoop w = some ((s.goto w .waitTasks).goto w .block) := by
      simp [mainLoop, goto, hq]
    exact Drains.head hs₁ h2 (drains_block (hs₁.mainLoop h2) (goto_pc _) hq)
  | cons t queue ih =>
    -- the worker takes the task, and comes back to the predicate
    set s₁ := s.goto w .waitTasks
    have h2 : s₁.mainLoop w = some (s₁.goto w .breakStopped) := by simp [mainLoop, s₁, goto, hq]
    have hs₂ := hs₁.mainLoop h2
    set s₂ := s₁.goto w .breakStopped
    have h3 : s₂.mainLoop w = some (s₂.goto w .getTask) := by simp [mainLoop, s₁, s₂, goto, hstopped]
    have hs₃ := hs₂.mainLoop h3
    set s₃ := s₂.goto w .getTask
    obtain ⟨tasks, htake⟩ : ∃ tasks, s₃.tasks.take w = some tasks := by simp [TaskQueue.take, s₁, s₂, s₃, goto, hq]
    have h4 : s₃.mainLoop w = some { s₃.goto w .process with tasks := tasks } := by simp [mainLoop, s₃, htake]
    have hs₄ := hs₃.mainLoop h4
    set s₄ : ServerWorkers n τ := { s₃.goto w .process with tasks := tasks }
    have h5 : s₄.mainLoop w = some { s₄.goto w .waitRunning with tasks := s₄.tasks.finish w } := by
      simp [mainLoop, s₄, goto]
    have hs₅ := hs₄.mainLoop h5
    set s₅ : ServerWorkers n τ := { s₄.goto w .waitRunning with tasks := s₄.tasks.finish w }
    have h6 : s₅.mainLoop w = some (s₅.goto w .waitTasks) := waitRunning_step (goto_pc _) hrunning
    have hqueue : s₅.tasks.queue = queue := by
      obtain ⟨t', queue', hq', htasks⟩ := TaskQueue.take_eq_some htake
      have hcons : t :: queue = t' :: queue' := hq.symm.trans hq'
      cases hcons
      simp [s₅, s₄, TaskQueue.finish, htasks]
    refine Drains.head hs₁ h2 (Drains.head hs₂ h3 (Drains.head hs₃ h4 (Drains.head hs₄ h5 (Drains.head hs₅ h6 ?_))))
    exact ih hs₅ hrunning hstopped (goto_pc _) h6 (hs₅.mainLoop h6) hqueue

/-- **A worker that is neither paused, stopped, asleep nor about to sleep takes all the tasks.** -/
theorem drains (hserves : Serves sofar s) (hrunning : s.running w = true) (hstopped : s.stopped w = false)
    (hasleep : s.pc w ≠ .asleep) (hblock : s.pc w = .block → s.tasks.queue = []) : Drains w s := by
  have hback : ∀ {s₁ : ServerWorkers n τ}, Serves sofar s₁ → s₁.running w = true → s₁.stopped w = false →
      s₁.pc w = .getTask → Drains w s₁ := by
    intro s₁ hs₁ hr hst hpc
    rcases htake : s₁.tasks.take w with _ | tasks
    · have h1 : s₁.mainLoop w = some (s₁.goto w .waitRunning) := by simp [mainLoop, hpc, htake]
      exact Drains.head hs₁ h1 (drains_waitRunning (hs₁.mainLoop h1) hr hst (goto_pc _))
    · have h1 : s₁.mainLoop w = some { s₁.goto w .process with tasks := tasks } := by simp [mainLoop, hpc, htake]
      have hs₂ := hs₁.mainLoop h1
      set s₂ : ServerWorkers n τ := { s₁.goto w .process with tasks := tasks }
      have h2 : s₂.mainLoop w = some { s₂.goto w .waitRunning with tasks := s₂.tasks.finish w } := by
        simp [mainLoop, s₂, goto]
      exact Drains.head hs₁ h1 (Drains.head hs₂ h2 (drains_waitRunning (hs₂.mainLoop h2) hr hst (goto_pc _)))
  have hbreak : ∀ {s₁ : ServerWorkers n τ}, Serves sofar s₁ → s₁.running w = true → s₁.stopped w = false →
      s₁.pc w = .breakStopped → Drains w s₁ := by
    intro s₁ hs₁ hr hst hpc
    have h1 : s₁.mainLoop w = some (s₁.goto w .getTask) := by simp [mainLoop, hpc, hst]
    exact Drains.head hs₁ h1 (hback (hs₁.mainLoop h1) hr hst (goto_pc _))
  cases hpc : s.pc w with
  | lock =>
    have h1 : s.mainLoop w = some (s.goto w .waitRunning) := by simp [mainLoop, hpc]
    exact Drains.head hserves h1 (drains_waitRunning (hserves.mainLoop h1) hrunning hstopped (goto_pc _))
  | waitRunning => exact drains_waitRunning hserves hrunning hstopped hpc
  | waitTasks =>
    by_cases hq : s.tasks.queue = []
    · have h1 : s.mainLoop w = some (s.goto w .block) := by simp [mainLoop, hpc, hq]
      exact Drains.head hserves h1 (drains_block (hserves.mainLoop h1) (goto_pc _) hq)
    · have h1 : s.mainLoop w = some (s.goto w .breakStopped) := by simp [mainLoop, hpc, hq]
      exact Drains.head hserves h1 (hbreak (hserves.mainLoop h1) hrunning hstopped (goto_pc _))
  | block => exact drains_block hserves hpc (hblock hpc)
  | asleep => exact absurd hpc hasleep
  | breakStopped => exact hbreak hserves hrunning hstopped hpc
  | getTask => exact hback hserves hrunning hstopped hpc
  | process =>
    have h1 : s.mainLoop w = some { s.goto w .waitRunning with tasks := s.tasks.finish w } := by simp [mainLoop, hpc]
    exact Drains.head hserves h1 (drains_waitRunning (hserves.mainLoop h1) hrunning hstopped (goto_pc _))
  | ended =>
    have he := hserves.ended w hpc
    rw [hstopped] at he
    cases he

/-! ## A notification that is lost -/

/-- Workers that are about to sleep fall asleep. -/
theorem sleeps (l : List (Fin n)) (s : ServerWorkers n τ) : ∃ is, (∀ i ∈ is, i.plain) ∧ requests is = [] ∧
    (workersMachine n τ).run is s =
      some { s with pc := fun v => if v ∈ l ∧ s.pc v = .block then .asleep else s.pc v } := by
  induction l generalizing s with
  | nil => exact ⟨[], by simp, rfl, by simp [Machine.run]⟩
  | cons u l ih =>
    by_cases hu : s.pc u = .block
    · obtain ⟨is, h1, h2, h3⟩ := ih (s.goto u .asleep)
      refine ⟨.worker u :: is, ?_, h2, ?_⟩
      · intro i hi
        rcases List.mem_cons.1 hi with rfl | hi
        · rfl
        · exact h1 i hi
      · have hstep : (workersMachine n τ).step s (.worker u) = some (s.goto u .asleep) := by
          simp [workersMachine, mainLoop, hu]
        rw [Machine.run, hstep, Option.bind_some, h3]
        congr 1
        unfold goto
        congr 1
        funext v
        by_cases hv : v = u
        · simp [hv, hu]
        · simp [hv]
    · obtain ⟨is, h1, h2, h3⟩ := ih s
      refine ⟨is, h1, h2, ?_⟩
      rw [h3]
      congr 2
      funext v
      by_cases hv : v = u
      · simp [hv, hu]
      · simp [hv]

/-- All the notifications that are still to come. -/
theorem flushes (m : ℕ) (s : ServerWorkers n τ) (hm : s.notifications = m + 1) :
    (workersMachine n τ).run (List.replicate (m + 1) .notify) s =
      some { s with pc := fun v => if s.pc v = .asleep then .lock else s.pc v, notifications := 0 } := by
  induction m generalizing s with
  | zero => simp [Machine.run, workersMachine, notifyWorkers, hm]
  | succ m ih =>
    have hstep : (workersMachine n τ).step s .notify =
        some { s with pc := fun v => if s.pc v = .asleep then .lock else s.pc v, notifications := m + 1 } := by
      simp [workersMachine, notifyWorkers, hm]
    rw [List.replicate_succ, Machine.run, hstep, Option.bind_some, ih _ rfl]
    congr 2
    funext v
    by_cases hv : s.pc v = .asleep <;> simp [hv]

/-- Behind an empty queue, the workers come one by one to the point before their sleep. -/
theorem settles (l : List (Fin n)) (hserves : Serves sofar s) (hrunning : ∀ w, s.running w = true)
    (hstopped : ∀ w, s.stopped w = false) (hq : s.tasks.queue = []) (hasleep : ∀ w, s.pc w ≠ .asleep) :
    ∃ is s', (∀ i ∈ is, i.plain) ∧ requests is = [] ∧ (workersMachine n τ).run is s = some s' ∧ s'.tasks.queue = [] ∧
      s'.notifications = s.notifications ∧ ∀ v, s'.pc v = if v ∈ l then .block else s.pc v := by
  induction l generalizing s with
  | nil => exact ⟨[], s, by simp, rfl, rfl, hq, rfl, by simp⟩
  | cons u l ih =>
    obtain ⟨s₁, halone, hd⟩ := drains hserves (hrunning u) (hstopped u) (hasleep u) (fun _ => hq)
    have hothers := halone.others
    obtain ⟨k, hk⟩ := halone.run
    have hserves₁ : Serves (sofar ++ []) s₁ := by
      have h := serves_steps hserves hk
      rwa [requests_replicate_worker] at h
    have hasleep₁ : ∀ w, s₁.pc w ≠ .asleep := by
      intro w
      by_cases hw : w = u
      · rw [hw, hd.pc]
        simp
      · rw [hothers.pc w hw]
        exact hasleep w
    rw [List.append_nil] at hserves₁
    obtain ⟨is, s', h1, h2, h3, h4, h5, h6⟩ := ih hserves₁ (by rw [hothers.running]; exact hrunning)
      (by rw [hothers.stopped]; exact hstopped) hd.queue hasleep₁
    refine ⟨List.replicate k (.worker u) ++ is, s', ?_, ?_, ?_, h4, h5.trans hothers.notifications, fun v => ?_⟩
    · intro i hi
      rcases List.mem_append.1 hi with hi | hi
      · rw [List.eq_of_mem_replicate hi]
        rfl
      · exact h1 i hi
    · rw [requests_append, requests_replicate_worker, h2, List.append_nil]
    · rw [Machine.run_append, hk]
      exact h3
    · rw [h6 v]
      by_cases hv : v = u
      · simp [hv, hd.pc]
      · simp [hv, hothers.pc v hv]

/-! ## Workers that are paused or stopped -/

/-- The worker will take no task. -/
structure Halted (w : Fin n) (s : ServerWorkers n τ) : Prop where
  getTask : s.pc w ≠ .getTask
  process : s.pc w ≠ .process
  paused : s.stopped w = false → s.running w = false ∧ s.pc w ≠ .waitTasks ∧ s.pc w ≠ .breakStopped

/-- A worker's step that is not its own. -/
theorem Halted.others (h : Halted w s) (ho : Others v s s') (hv : w ≠ v) : Halted w s' := by
  have hpc := ho.pc w hv
  refine ⟨by rw [hpc]; exact h.getTask, by rw [hpc]; exact h.process, ?_⟩
  rw [ho.stopped, ho.running, hpc]
  exact h.paused

theorem Halted.mainLoop (h : Halted w s) (hs : s.mainLoop w = some s') : Halted w s' := by
  obtain ⟨hget, hprocess, hpaused⟩ := h
  unfold ServerWorkers.mainLoop at hs
  cases hpc : s.pc w <;> simp only [hpc] at hs hget hprocess hpaused
  case asleep => cases hs
  case ended => cases hs
  case getTask => exact absurd rfl hget
  case process => exact absurd rfl hprocess
  case lock | block =>
    cases hs
    exact ⟨by simp, by simp, fun hst => ⟨(hpaused hst).1, by simp, by simp⟩⟩
  case waitRunning =>
    cases hs
    refine ⟨by rw [goto_pc]; split <;> simp, by rw [goto_pc]; split <;> simp, fun hst => ?_⟩
    have hr : s.running w = false := (hpaused hst).1
    exact ⟨hr, by simp [goto, hr], by simp [goto, hr]⟩
  case waitTasks =>
    cases hs
    exact ⟨by rw [goto_pc]; split <;> simp, by rw [goto_pc]; split <;> simp, fun hst => absurd rfl (hpaused hst).2.1⟩
  case breakStopped =>
    -- it was stopped: it leaves the loop
    have hst : s.stopped w = true := by
      rcases hb : s.stopped w with _ | _
      · exact absurd rfl (hpaused hb).2.2
      · rfl
    rw [hst] at hs
    cases hs
    refine ⟨by simp, by simp, fun hf => ?_⟩
    have hf' : s.stopped w = false := hf
    rw [hst] at hf'
    cases hf'

theorem Halted.step (h : Halted w s) {i : ServerMove n τ} (hs : (workersMachine n τ).step s i = some s') : Halted w s' := by
  cases i with
  | request t =>
    cases hs
    exact ⟨h.getTask, h.process, h.paused⟩
  | notify =>
    rw [notifyWorkers_eq_some hs]
    by_cases ha : s.pc w = .asleep
    · exact ⟨by simp [ha], by simp [ha], fun hst => ⟨(h.paused hst).1, by simp [ha], by simp [ha]⟩⟩
    · exact ⟨by simpa [ha] using h.getTask, by simpa [ha] using h.process, by simpa [ha] using h.paused⟩
  | pause v =>
    rw [(pause_eq_some hs).2]
    refine ⟨h.getTask, h.process, fun hst => ⟨?_, (h.paused hst).2⟩⟩
    by_cases hv : w = v
    · simp [hv]
    · simpa [Function.update_of_ne hv] using (h.paused hst).1
  | stop v =>
    obtain ⟨hu, rfl⟩ := stop_eq_some hs
    by_cases hv : w = v
    · subst hv
      refine ⟨?_, ?_, fun hst => by simp at hst⟩
      · by_cases ha : s.pc w = .asleep <;> simp [goto, ha, h.getTask]
      · by_cases ha : s.pc w = .asleep <;> simp [goto, ha, h.process]
    · refine ⟨?_, ?_, fun hst => ?_⟩
      · simpa [goto, hv] using h.getTask
      · simpa [goto, hv] using h.process
      · simpa [goto, hv] using h.paused (by simpa [hv] using hst)
  | worker v =>
    by_cases hv : w = v
    · subst hv
      exact h.mainLoop hs
    · exact h.others (mainLoop_others hs) hv
  | wakeUp v =>
    obtain ⟨-, rfl⟩ := wakeUp_eq_some hs
    by_cases hv : w = v
    · subst hv
      exact ⟨by simp, by simp, fun hst => ⟨(h.paused hst).1, by simp, by simp⟩⟩
    · exact h.others (others_goto s v _) hv

theorem of_unlocked {pc : ServerWorkerPc} (h : pc.unlocked) : pc = .lock ∨ pc = .asleep ∨ pc = .ended := by
  cases pc <;> simp_all [ServerWorkerPc.unlocked]

/-- `pause` and `stop` find the worker outside its work. -/
theorem halted_of_halt {i : ServerMove n τ} (hi : i = .pause w ∨ i = .stop w)
    (hs : (workersMachine n τ).step s i = some s') : Halted w s' := by
  rcases hi with rfl | rfl
  · obtain ⟨hu, rfl⟩ := pause_eq_some hs
    rcases of_unlocked hu with hpc | hpc | hpc <;> exact ⟨by simp [hpc], by simp [hpc], fun _ => by simp [hpc]⟩
  · obtain ⟨hu, rfl⟩ := stop_eq_some hs
    rcases of_unlocked hu with hpc | hpc | hpc <;>
      exact ⟨by simp [hpc], by simp [hpc], fun hst => by simp at hst⟩

/-- A worker that waits for a request, and none is there. -/
structure Idle (w : Fin n) (s : ServerWorkers n τ) : Prop where
  queue : s.tasks.queue = []
  breakStopped : s.pc w ≠ .breakStopped
  ended : s.pc w ≠ .ended

theorem Idle.mainLoop (h : Idle w s) (hs : s.mainLoop v = some s') : Idle w s' := by
  have hq := h.queue
  have hqueue : s'.tasks.queue = [] := by
    rcases mainLoop_tasks hs with ⟨heq, -⟩ | ⟨-, -, htake⟩ | ⟨-, -, heq⟩
    · rw [heq]
      exact hq
    · rw [TaskQueue.take_eq_none.2 hq] at htake
      cases htake
    · rw [heq]
      exact hq
  by_cases hv : w = v
  · subst hv
    have hbreak := h.breakStopped
    unfold ServerWorkers.mainLoop at hs
    rw [TaskQueue.take_eq_none.2 hq] at hs
    cases hpc : s.pc w <;> simp only [hpc] at hs hbreak
    case asleep => cases hs
    case ended => cases hs
    case breakStopped => exact absurd rfl hbreak
    case waitTasks => cases hs; exact ⟨hqueue, by simp [goto, hq], by simp [goto, hq]⟩
    case waitRunning =>
      cases hs
      exact ⟨hqueue, by rw [goto_pc]; split <;> simp, by rw [goto_pc]; split <;> simp⟩
    all_goals cases hs; exact ⟨hqueue, by simp [goto], by simp [goto]⟩
  · have hpc := (mainLoop_others hs).pc w hv
    exact ⟨hqueue, by rw [hpc]; exact h.breakStopped, by rw [hpc]; exact h.ended⟩

theorem Idle.step (h : Idle w s) {i : ServerMove n τ} (hi : requests [i] = [])
    (hs : (workersMachine n τ).step s i = some s') : Idle w s' := by
  cases i with
  | request t => cases hi
  | notify =>
    rw [notifyWorkers_eq_some hs]
    by_cases ha : s.pc w = .asleep
    · exact ⟨h.queue, by simp [ha], by simp [ha]⟩
    · exact ⟨h.queue, by simpa [ha] using h.breakStopped, by simpa [ha] using h.ended⟩
  | pause v =>
    rw [(pause_eq_some hs).2]
    exact ⟨h.queue, h.breakStopped, h.ended⟩
  | stop v =>
    obtain ⟨-, rfl⟩ := stop_eq_some hs
    by_cases hv : w = v
    · subst hv
      refine ⟨h.queue, ?_, ?_⟩
      · by_cases ha : s.pc w = .asleep <;> simp [goto, ha, h.breakStopped]
      · by_cases ha : s.pc w = .asleep <;> simp [goto, ha, h.ended]
    · exact ⟨h.queue, by simpa [goto, hv] using h.breakStopped, by simpa [goto, hv] using h.ended⟩
  | worker v => exact h.mainLoop hs
  | wakeUp v =>
    obtain ⟨-, rfl⟩ := wakeUp_eq_some hs
    by_cases hv : w = v
    · subst hv
      exact ⟨h.queue, by simp, by simp⟩
    · exact ⟨h.queue, by simpa [goto, hv] using h.breakStopped, by simpa [goto, hv] using h.ended⟩

theorem Idle.run (h : Idle w s) {is : List (ServerMove n τ)} (hi : requests is = [])
    (hr : (workersMachine n τ).run is s = some s') : Idle w s' := by
  induction is generalizing s with
  | nil =>
    cases hr
    exact h
  | cons i is ih =>
    obtain ⟨s₁, h1, h2⟩ := Machine.run_cons hr
    have hsplit : requests [i] ++ requests is = [] := by
      rw [← requests_append]
      exact hi
    obtain ⟨hi1, hi2⟩ := List.append_eq_nil_iff.1 hsplit
    exact ih (h.step hi1 h1) hi2 h2

end ServerWorkers

open ServerWorkers

/-- **Every request once, in order.** -/
theorem server_serves_each_once (is : List (ServerMove n τ)) (s : ServerWorkers n τ)
    (hr : (workersMachine n τ).run is startWorkers = some s) :
    requests is = s.tasks.taken ++ s.tasks.queue ∧
      (s.tasks.taken : Multiset τ) = s.tasks.finished + TaskQueue.holding s.tasks.held ∧
      (∀ w, (s.tasks.held w).isSome ↔ s.pc w = .process) ∧ ∀ w, s.pc w = .ended → s.stopped w = true := by
  have h := serves_run hr
  exact ⟨h.accounts.inOrder, h.accounts.once, h.held, h.ended⟩

/-- Two workers, of which one sleeps, and two requests. -/
def twoRequests : List (ServerMove 2 ℕ) :=
  List.replicate 4 (.worker 1) ++ [.request 7, .notify, .request 8, .notify] ++ List.replicate 5 (.worker 0)

theorem server_serves_each_once_two : ∃ s : ServerWorkers 2 ℕ,
    (workersMachine 2 ℕ).run twoRequests startWorkers = some s ∧ [7, 8] = s.tasks.taken ++ s.tasks.queue :=
  ⟨_, rfl, (server_serves_each_once twoRequests _ rfl).1⟩

/-- **A worker that hears of a request takes all that wait.** -/
theorem server_drains (is : List (ServerMove n τ)) (s : ServerWorkers n τ) (w : Fin n) (t : τ)
    (hr : (workersMachine n τ).run is startWorkers = some s) (hrunning : s.running w = true)
    (hstopped : s.stopped w = false) (hblock : s.pc w ≠ .block) :
    ∃ k s', (workersMachine n τ).run (.request t :: .notify :: List.replicate k (.worker w)) s = some s' ∧
      s'.tasks.queue = [] ∧ s'.tasks.taken = s.tasks.taken ++ s.tasks.queue ++ [t] ∧
      s'.tasks.finished = s.tasks.finished ++ (s.tasks.held w).toList ++ s.tasks.queue ++ [t] := by
  set s₁ : ServerWorkers n τ := { s.processRequest t with
    pc := fun v => if s.pc v = .asleep then .lock else s.pc v, notifications := s.notifications } with hs₁
  have htwo : (workersMachine n τ).run [.request t, .notify] s = some s₁ := by
    simp [Machine.run, workersMachine, notifyWorkers, processRequest, hs₁]
  have hserves : Serves (requests is ++ requests [.request t, .notify]) s₁ := serves_steps (serves_run hr) htwo
  have hpc : s₁.pc w ≠ .asleep ∧ s₁.pc w ≠ .block := by
    by_cases ha : s.pc w = .asleep
    · simp [hs₁, ha]
    · simp [hs₁, ha, hblock]
  obtain ⟨s', halone, hd⟩ := drains hserves hrunning hstopped hpc.1 (fun h => absurd h hpc.2)
  obtain ⟨k, hk⟩ := halone.run
  refine ⟨k, s', ?_, hd.queue, ?_, ?_⟩
  · have happ := Machine.run_append (M := workersMachine n τ) [.request t, .notify] (List.replicate k (.worker w)) s
    rw [htwo] at happ
    exact happ.trans hk
  · rw [hd.taken]
    simp [hs₁, processRequest, TaskQueue.push]
  · rw [hd.finished]
    simp [hs₁, processRequest, TaskQueue.push]

theorem server_drains_two : ∃ s : ServerWorkers 2 ℕ, (workersMachine 2 ℕ).run twoRequests startWorkers = some s ∧
    ∃ k s', (workersMachine 2 ℕ).run (.request 9 :: .notify :: List.replicate k (.worker 0)) s = some s' ∧
      s'.tasks.queue = [] ∧ s'.tasks.taken = [] ++ [7, 8] ++ [9] := by
  refine ⟨_, rfl, ?_⟩
  obtain ⟨k, s', h1, h2, h3, -⟩ := server_drains twoRequests _ 0 9 rfl rfl rfl (by decide)
  exact ⟨k, s', h1, h2, h3⟩

/-- **A request that no worker takes.** -/
theorem server_loses_request (hn : 0 < n) (is : List (ServerMove n τ)) (s : ServerWorkers n τ) (t₀ t : τ)
    (hr : (workersMachine n τ).run is startWorkers = some s) (hrunning : ∀ w, s.running w = true)
    (hstopped : ∀ w, s.stopped w = false) :
    ∃ is' s', (∀ i ∈ is', i.plain) ∧ requests is' = [t₀, t] ∧ (workersMachine n τ).run is' s = some s' ∧
      s'.tasks.queue = [t] ∧ s'.notifications = 0 ∧ ∀ w, s'.pc w = .asleep ∧ s'.mainLoop w = none := by
  -- every worker is woken up, and one of them empties the queue
  obtain ⟨is₁, hplain₁, hreq₁, hrun₁⟩ := sleeps (List.finRange n) s
  set s₁ : ServerWorkers n τ :=
    { s with pc := fun v => if v ∈ List.finRange n ∧ s.pc v = .block then .asleep else s.pc v } with hs₁
  have hrun₂ := flushes s.notifications (s₁.processRequest t₀) rfl
  set s₂ : ServerWorkers n τ := { s₁.processRequest t₀ with
    pc := fun v => if (s₁.processRequest t₀).pc v = .asleep then .lock else (s₁.processRequest t₀).pc v,
    notifications := 0 } with hs₂
  have hawake : ∀ v, s₂.pc v ≠ .asleep ∧ s₂.pc v ≠ .block := by
    intro v
    by_cases hb : s.pc v = .block
    · simp [hs₁, hs₂, processRequest, hb]
    · by_cases ha : s.pc v = .asleep <;> simp [hs₁, hs₂, processRequest, ha, hb]
  have hrun12 : (workersMachine n τ).run (is₁ ++ (.request t₀ :: List.replicate (s.notifications + 1) .notify)) s =
      some s₂ := by
    rw [Machine.run_append, hrun₁]
    exact hrun₂
  have hserves₂ := serves_steps (serves_run hr) hrun12
  obtain ⟨s₃, halone, hd⟩ := drains (w := ⟨0, hn⟩) hserves₂ (hrunning _) (hstopped _) (hawake _).1
    (fun h => absurd h (hawake _).2)
  obtain ⟨k, hrun₃⟩ := halone.run
  have hothers := halone.others
  have hserves₃ := serves_steps hserves₂ hrun₃
  -- they all come to the point before their sleep
  obtain ⟨is₄, s₄, hplain₄, hreq₄, hrun₄, hq₄, hnot₄, hpc₄⟩ := settles (List.finRange n) hserves₃
    (by rw [hothers.running]; exact hrunning) (by rw [hothers.stopped]; exact hstopped) hd.queue
    (by
      intro v
      by_cases hv : v = ⟨0, hn⟩
      · rw [hv, hd.pc]
        simp
      · rw [hothers.pc v hv]
        exact (hawake v).1)
  have hblock₄ : ∀ v, s₄.pc v = .block := by
    intro v
    rw [hpc₄ v]
    exact if_pos (List.mem_finRange v)
  have hnotifications : s₄.notifications = 0 := hnot₄.trans hothers.notifications
  -- there the request and its notification find them
  obtain ⟨is₅, hplain₅, hreq₅, hrun₅⟩ := sleeps (List.finRange n) { s₄.processRequest t with notifications := 0 }
  have hrun45 : (workersMachine n τ).run [.request t, .notify] s₄ = some { s₄.processRequest t with notifications := 0 } := by
    simp only [Machine.run, workersMachine, notifyWorkers, processRequest, hnotifications]
    simp [hblock₄]
    funext v
    exact (hblock₄ v).symm
  refine ⟨(is₁ ++ (.request t₀ :: List.replicate (s.notifications + 1) .notify)) ++ (List.replicate k (.worker ⟨0, hn⟩) ++
    (is₄ ++ ([.request t, .notify] ++ is₅))),
    { s₄.processRequest t with pc := fun _ => .asleep, notifications := 0 }, ?_, ?_, ?_, ?_, rfl, ?_⟩
  · intro i hi
    simp only [List.mem_append, List.mem_cons, List.mem_replicate, List.not_mem_nil, or_false] at hi
    rcases hi with (hi | rfl | ⟨-, rfl⟩) | ⟨-, rfl⟩ | hi | (rfl | rfl) | hi
    · exact hplain₁ i hi
    · rfl
    · rfl
    · rfl
    · exact hplain₄ i hi
    · rfl
    · rfl
    · exact hplain₅ i hi
  · have hnotify : requests (List.replicate (s.notifications + 1) (.notify : ServerMove n τ)) = [] := by
      simp [requests]
    simp only [requests_append, requests_replicate_worker, hreq₁, hreq₄, hreq₅]
    show ([t₀] ++ requests (List.replicate (s.notifications + 1) (.notify : ServerMove n τ))) ++ ([] ++ ([] ++ ([t] ++ []))) = _
    rw [hnotify]
    rfl
  · rw [Machine.run_append, hrun12, Option.bind_some, Machine.run_append, hrun₃, Option.bind_some, Machine.run_append,
      hrun₄, Option.bind_some, Machine.run_append, hrun45, Option.bind_some, hrun₅]
    simp [processRequest, hblock₄]
  · simp [processRequest, TaskQueue.push, hq₄]
  · intro w
    exact ⟨rfl, by simp [mainLoop]⟩

theorem server_loses_request_two : ∃ s : ServerWorkers 2 ℕ, (workersMachine 2 ℕ).run twoRequests startWorkers = some s ∧
    ∃ is' s', (∀ i ∈ is', i.plain) ∧ requests is' = [9, 10] ∧ (workersMachine 2 ℕ).run is' s = some s' ∧
      s'.tasks.queue = [10] ∧ s'.notifications = 0 ∧ ∀ w, s'.pc w = .asleep ∧ s'.mainLoop w = none :=
  ⟨_, rfl, server_loses_request (by decide) twoRequests _ 9 10 rfl (by decide) (by decide)⟩

/-- **No request behind a pause or a stop.** -/
theorem halted_takes_nothing (is is' : List (ServerMove n τ)) (i : ServerMove n τ) (w : Fin n) (s : ServerWorkers n τ)
    (hi : i = .pause w ∨ i = .stop w) (hr : (workersMachine n τ).run (is ++ i :: is') startWorkers = some s) :
    s.tasks.held w = none ∧ s.pc w ≠ .getTask ∧ s.pc w ≠ .process := by
  have hheld := (serves_run hr).held w
  rw [Machine.run_append] at hr
  obtain ⟨s₁, -, h2⟩ := Option.bind_eq_some_iff.1 hr
  obtain ⟨s₂, h3, h4⟩ := Machine.run_cons h2
  have h : Halted w s := Machine.always (fun _ _ _ hs h => h.step hs) h4 (halted_of_halt hi h3)
  refine ⟨?_, h.getTask, h.process⟩
  rcases ht : s.tasks.held w with _ | t
  · rfl
  · rw [ht] at hheld
    exact absurd (hheld.1 rfl) h.process

theorem halted_takes_nothing_two : ∃ s : ServerWorkers 2 ℕ,
    (workersMachine 2 ℕ).run ([.worker 1] ++ .stop 0 :: [.request 7, .notify, .worker 0, .worker 0, .worker 0, .worker 0])
      startWorkers = some s ∧ s.tasks.held 0 = none :=
  ⟨_, rfl, (halted_takes_nothing [.worker 1] [.request 7, .notify, .worker 0, .worker 0, .worker 0, .worker 0] (.stop 0) 0 _
    (.inr rfl) rfl).1⟩

/-- **Where a stop can end.** -/
theorem stop_joins_iff (is : List (ServerMove n τ)) (w : Fin n) (s : ServerWorkers n τ)
    (hr : (workersMachine n τ).run (is ++ [.stop w]) startWorkers = some s) (hw : s.pc w ≠ .ended) :
    (∃ is' s', requests is' = [] ∧ (workersMachine n τ).run is' s = some s' ∧ s'.pc w = .ended) ↔ s.tasks.queue ≠ [] := by
  obtain ⟨s₁, -, hstop⟩ := Machine.run_concat.1 hr
  obtain ⟨hu, hs⟩ := stop_eq_some hstop
  have hpc : s.pc w = .lock := by
    rcases of_unlocked hu with hpc | hpc | hpc
    · simp [hs, goto, hpc]
    · simp [hs, goto, hpc]
    · exact absurd (by simp [hs, goto, hpc]) hw
  have hrunning : s.running w = true := by simp [hs]
  have hstopped : s.stopped w = true := by simp [hs]
  constructor
  · rintro ⟨is', s', hreq, hrun, hended⟩ hq
    have hidle : Idle w s := ⟨hq, by rw [hpc]; simp, hw⟩
    exact (hidle.run hreq hrun).ended hended
  · intro hq
    refine ⟨List.replicate 4 (.worker w), s.goto w .ended, requests_replicate_worker 4 w, ?_, goto_pc _⟩
    simp only [List.replicate, Machine.run, workersMachine, mainLoop, hpc]
    simp [goto, hrunning, hstopped, hq]

theorem stop_joins_iff_two : ∃ s : ServerWorkers 2 ℕ,
    (workersMachine 2 ℕ).run ([.worker 1] ++ [.stop 0]) startWorkers = some s ∧
      ¬ ∃ is' s', requests is' = [] ∧ (workersMachine 2 ℕ).run is' s = some s' ∧ s'.pc 0 = .ended :=
  ⟨_, rfl, fun h => (stop_joins_iff [.worker 1] 0 _ rfl (by decide)).1 h rfl⟩

end K2Cache
