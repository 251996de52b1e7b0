import K2Cache.Proof.Commits

/-!
# What a delete removes

`delete_triple` reads the object from the subject: the triple it removes is `(s, p, s)`.

`deletesExactly_iff`: so it removes what it names, and nothing else, if and only if the object
is the subject, or neither triple is stored.
-/

namespace K2Cache

open Lib

variable {T : Type} {P : CacheParams T}

/-- **The triple is removed, and every other one stays as it was.** -/
def DeletesExactly (t : TripleNodeId) (before after : Set TripleNodeId) : Prop :=
  t ∉ after ∧ ∀ t', t' ≠ t → (t' ∈ after ↔ t' ∈ before)

/-- What a session that deletes one triple does to the served ones. -/
theorem sessionPatch_deletes {t : TripleNodeId} (hp : t.predicate ≠ 0) (hs : t.subject ≠ 0) {ops : List SessionOp}
    (hmem : .del t ∈ ops) (hall : ∀ op ∈ ops, op = .del t) (before : Set TripleNodeId) :
    (sessionPatch ops).apply before = before \ {reflexive t} := by
  ext t'
  constructor
  · rintro ⟨hb | hadd, hnot⟩
    · refine ⟨hb, fun heq => hnot ⟨t, hmem, hp, hs, heq⟩⟩
    · exact absurd (hall _ hadd) (by simp)
  · rintro ⟨hb, hne⟩
    refine ⟨.inl hb, ?_⟩
    rintro ⟨u, hu, -, -, rfl⟩
    obtain rfl : u = t := SessionOp.del.inj (hall _ hu)
    exact hne rfl

theorem deletesExactly_diff_iff (t : TripleNodeId) (before : Set TripleNodeId) :
    DeletesExactly t before (before \ {reflexive t}) ↔ t.object = t.subject ∨ t ∉ before ∧ reflexive t ∉ before := by
  have hrefl : reflexive t = t ↔ t.object = t.subject := by
    obtain ⟨s, p, o⟩ := t
    simp [reflexive, eq_comm]
  rw [← hrefl]
  constructor
  · rintro ⟨hout, hother⟩
    by_cases heq : reflexive t = t
    · exact .inl heq
    · refine .inr ⟨fun hb => hout ⟨hb, Ne.symm heq⟩, fun hb => ?_⟩
      exact ((hother (reflexive t) heq).2 hb).2 rfl
  · rintro (heq | ⟨hb, hb'⟩)
    · rw [heq]
      exact ⟨fun h => h.2 rfl, fun t' hne => ⟨And.left, fun h => ⟨h, hne⟩⟩⟩
    · refine ⟨fun h => hb h.1, fun t' _ => ⟨And.left, fun h => ⟨h, ?_⟩⟩⟩
      rintro rfl
      exact hb' h

/-- **A delete**, by a session that does nothing else and commits: it removes the triple, and
no other, if and only if its object is its subject, or neither it nor the triple of its
subject with itself is stored. -/
theorem deletesExactly_iff (hl : P.ops.Lawful) {d : Disk} {nodesMap : NodesMap} {earlier : List ServerCmd} {id : ℤ}
    {batches : List (List TripleNodeId × List TripleNodeId)} {t : TripleNodeId} (hs : t.subject ≠ 0) (hp : t.predicate ≠ 0)
    (hmem : .del t ∈ sessionOps batches) (hall : ∀ op ∈ sessionOps batches, op = .del t)
    (hd : ServerDisk P d nodesMap (newIds (earlier ++ sessionCmds id batches))) {uninit : ℤ} {srv₀ srv : Server T}
    (hcreate : Server.create P d uninit = .ok srv₀) (hrun : (serverMachine P).run earlier srv₀ = some srv)
    (hnew : ∀ a d, .updateTriplesBatch id a d ∉ earlier)
    (hready : (serverMachine P).Meets (fun s c => c.Ready P s) (earlier ++ sessionCmds id batches) srv₀) :
    ∃ srv', (serverMachine P).run (sessionCmds id batches) srv = some srv' ∧
      (DeletesExactly t {t | srv.Present P t} {t | srv'.Present P t} ↔
        t.object = t.subject ∨ ¬ srv.Present P t ∧ ¬ srv.Present P (reflexive t)) := by
  obtain ⟨srv', hrun', hpresent⟩ := session_present hl hd hcreate hrun hnew hready
  refine ⟨srv', hrun', ?_⟩
  rw [hpresent, sessionPatch_deletes hp hs hmem hall]
  exact deletesExactly_diff_iff t _

open PointTree

/-- A triple whose object is its subject is removed, and no other one is. -/
theorem deletesExactly_iff_loop : ∃ srv₀ srv srv', Server.create (cacheParams .binary) serverDisk 0 = .ok srv₀ ∧
    (serverMachine (cacheParams .binary)).run [.beginUpdateSession] srv₀ = some srv ∧
    (serverMachine (cacheParams .binary)).run (sessionCmds 0 [([], [loop])]) srv = some srv' ∧
    DeletesExactly loop {t | srv.Present (cacheParams .binary) t} {t | srv'.Present (cacheParams .binary) t} := by
  obtain ⟨srv₀, srv, hcreate, hrun, hready⟩ := serverDisk_session [([], [loop])] (by decide)
  obtain ⟨srv', hrun', hiff⟩ := deletesExactly_iff ops_lawful (t := loop) (by decide) (by decide) (by decide) (by decide)
    (serverDisk_ok .binary (by decide)) hcreate hrun (by simp) hready
  exact ⟨srv₀, srv, srv', hcreate, hrun, hrun', hiff.2 (.inl rfl)⟩

/-- A session adds a triple and commits; another one is begun. -/
def edgeAdded : List ServerCmd :=
  [.beginUpdateSession, .updateTriplesBatch 0 [edge] [], .doneUpdateTriples 0, .beginUpdateSession]

/-- The other session deletes the triple and commits: it is still there. -/
theorem deletesExactly_fails : ∃ srv₀ srv srv', Server.create (cacheParams .binary) serverDisk 0 = .ok srv₀ ∧
    (serverMachine (cacheParams .binary)).run edgeAdded srv₀ = some srv ∧
    (serverMachine (cacheParams .binary)).run (sessionCmds 1 [([], [edge])]) srv = some srv' ∧
    srv'.Present (cacheParams .binary) edge ∧
    ¬ DeletesExactly edge {t | srv.Present (cacheParams .binary) t} {t | srv'.Present (cacheParams .binary) t} := by
  obtain ⟨srv₀, hcreate⟩ := serverDisk_create
  have hcmds : SessionRun 0 edgeAdded := ⟨by decide, by decide, by decide, by decide, trivial⟩
  have hcmds' : SessionRun 0 (edgeAdded ++ sessionCmds 1 [([], [edge])]) :=
    ⟨by decide, by decide, by decide, by decide, by decide, by decide, by decide, by decide, trivial⟩
  obtain ⟨srv, hrun, hbefore⟩ := sessionRun_present ops_lawful (serverDisk_ok .binary (by decide)) hcreate hcmds
  have hready : (serverMachine (cacheParams .binary)).Meets (fun s c => c.Ready (cacheParams .binary) s)
      (edgeAdded ++ sessionCmds 1 [([], [edge])]) srv₀ :=
    SessionRun.ready _ hcmds' ((serverDisk_ok .binary (n := 1) (by decide)).sessionsBegun ops_lawful hcreate)
  obtain ⟨srv', hrun', hafter⟩ := session_present ops_lawful (serverDisk_ok .binary (by decide)) hcreate hrun
    (by simp [edgeAdded]) hready
  have hin : srv.Present (cacheParams .binary) edge := by
    have hmem : edge ∈ {t | srv.Present (cacheParams .binary) t} := by
      rw [hbefore]
      -- the last request has nothing to contribute
      refine ⟨.inl ⟨.inr (List.mem_singleton_self (SessionOp.add edge)), ?_⟩, fun h => h⟩
      rintro ⟨t', ht', -⟩
      have hadd : SessionOp.del t' ∈ [SessionOp.add edge] := ht'
      simp at hadd
    exact hmem
  rw [sessionPatch_deletes (t := edge) (by decide) (by decide) (by decide) (by decide)] at hafter
  have hin' : edge ∈ {t | srv'.Present (cacheParams .binary) t} := by
    rw [hafter]
    exact ⟨hin, show edge ≠ reflexive edge by decide⟩
  exact ⟨srv₀, srv, srv', hcreate, hrun, hrun', hin', fun h => h.1 hin'⟩

end K2Cache
