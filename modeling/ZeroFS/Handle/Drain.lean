import ZeroFS.Handle.Reclaim

/-!
# The drainer

When no call is under way, the drainer empties its queue on its own, and it deletes exactly the orphans that nothing
needs.
-/

namespace ZeroFS.Handle

open Machine Dedup.Ledger NsDb Table

variable {s s' u u' : Sys} {t t' : Thread} {i id : InodeId} {retention : Nat} {rest : List InodeId}

/-- No call is under way. -/
def Sys.Idle (s : Sys) : Prop := ∀ tid t, s.threads.get tid = some t → t.phase = .done

def drainer (s : Sys) : Action → Prop
  | .drain .. => True
  | .run tid => ∃ t id, s.threads.get tid = some t ∧ t.call = .reclaimIfUnreferenced id
  | _ => False

/-- The drainer has deleted orphans that nothing needed. -/
structure Drained (s s' : Sys) : Prop where
  handles : s'.openHandles = s.openHandles
  protects : ∀ i, s'.dedup.ledger.protectsReplayInode i = s.dedup.ledger.protectsReplayInode i
  inodes : ∀ i, s'.db.inodes.get i = s.db.inodes.get i ∨
    s'.db.inodes.get i = none ∧ Unlinked s.db i ∧ s.openHandleCount i = 0 ∧ s.dedup.ledger.protectsReplayInode i = false

theorem Drained.refl (s : Sys) : Drained s s := ⟨rfl, fun _ => rfl, fun _ => .inl rfl⟩

theorem Drained.count (h : Drained s s') (i : InodeId) : s'.openHandleCount i = s.openHandleCount i := by
  unfold Sys.openHandleCount
  rw [h.handles]

theorem Drained.trans (h : Drained s s') (h' : Drained s' u) : Drained s u := by
  refine ⟨h'.handles.trans h.handles, fun i => (h'.protects i).trans (h.protects i), fun i => ?_⟩
  rcases h.inodes i with hi | ⟨hi, hfree⟩
  · rcases h'.inodes i with hi' | ⟨hi', ⟨inode, hget, hl⟩, hz, hp⟩
    · exact .inl (hi'.trans hi)
    rw [hi] at hget
    rw [h.count] at hz
    rw [h.protects] at hp
    exact .inr ⟨hi', ⟨inode, hget, hl⟩, hz, hp⟩
  · rcases h'.inodes i with hi' | ⟨hi', _⟩
    · exact .inr ⟨hi'.trans hi, hfree⟩
    · exact .inr ⟨hi', hfree⟩

/-- Thread 0 works on the first inode of the queue of `s`. -/
structure Draining (s : Sys) (rest : List InodeId) (u : Sys) (t : Thread) : Prop where
  drained : Drained s u
  queue : u.reclaimQueue = rest
  self : u.threads.get 0 = some t
  others : ∀ tid, tid ≠ 0 → u.threads.get tid = s.threads.get tid

section

variable (h : Draining s rest u t)
include h

theorem Draining.set (hdrained : Drained s u') (hqueue : u'.reclaimQueue = u.reclaimQueue)
    (hthreads : u'.threads = u.threads.put 0 t') : Draining s rest u' t' := by
  refine ⟨hdrained, hqueue.trans h.queue, ?_, fun tid hne => ?_⟩
  · rw [hthreads, get_put_self]
  · rw [hthreads, get_put_ne hne]; exact h.others tid hne

theorem Draining.goto (t' : Thread) : Draining s rest (u.setThread 0 t') t' :=
  h.set ⟨h.drained.handles, h.drained.protects, h.drained.inodes⟩ rfl rfl

theorem Draining.idle (hidle : s.Idle) (hdone : t.phase = .done) : u.Idle := by
  intro tid v hv
  by_cases heq : tid = 0
  · rw [heq, h.self] at hv; cases hv; exact hdone
  · rw [h.others tid heq] at hv; exact hidle tid v hv

theorem Draining.busy (hinv : Inv s) (hidle : s.Idle) (x : InodeId) : u.busy 0 x = false := by
  unfold Sys.busy
  rw [List.any_eq_false]
  rintro ⟨tid, v⟩ hv
  rw [Bool.and_eq_true, not_and]
  intro hne
  have hne' : tid ≠ 0 := of_decide_eq_true hne
  have hget := mem_entries.1 hv
  rw [h.others tid hne'] at hget
  -- a thread that has returned holds nothing
  have hok := hinv.threads tid v hget
  have hdone := hidle tid v hget
  obtain ⟨call, now, creds, phase, held⟩ := v
  cases hdone
  rw [hok]
  exact Bool.false_ne_true

theorem Draining.reclaimed (hinv : Inv u) (hid : id ∈ t.held) (hz : u.openHandleCount id = 0)
    (hp : u.dedup.ledger.protectsReplayInode id = false) :
    ∃ st : CommitSettlement, (st = .none ∨ ∃ n, st = .shrink n) ∧
      Draining s rest (u.reclaimLocked 0 t id) { t with phase := .applied st } := by
  have hdb : ∀ v : Sys, v.db = u.db.commit (u.db.reclaimOrphanInode id) → v.openHandles = u.openHandles →
      v.dedup = u.dedup → Drained s v := by
    intro v hdb hhandles hdedup
    refine h.drained.trans ⟨hhandles, fun i => by rw [hdedup], fun i => ?_⟩
    rw [hdb]
    rcases reclaimOrphanInode_locked hinv.consistent hid with ⟨inode, hi, hl, hlocked⟩ | ⟨_, hnil⟩
    · by_cases heq : i = id
      · subst heq; exact .inr ⟨hlocked.gone i rfl, ⟨inode, hi, hl⟩, hz, hp⟩
      · exact .inl (reclaimOrphanInode_get hinv.consistent heq)
    · rw [hnil]; exact .inl rfl
  unfold Sys.reclaimLocked
  split
  · split
    · refine ⟨_, ?_, h.set (hdb _ rfl rfl rfl) rfl rfl⟩
      split
      · exact .inr ⟨_, rfl⟩
      · exact .inl rfl
    · exact ⟨.none, .inl rfl, h.set (hdb _ rfl rfl rfl) rfl rfl⟩
  · exact ⟨.none, .inl rfl, h.set (hdb _ rfl rfl rfl) rfl rfl⟩

theorem Draining.settled {st : CommitSettlement} (hst : st = .none ∨ ∃ n, st = .shrink n) :
    Draining s rest (u.settle retention 0 t st) { t with phase := .done, held := [] } := by
  have hsame : ∀ v : Sys, v.db = u.db → v.openHandles = u.openHandles → v.dedup = u.dedup → Drained s v :=
    fun v hdb hhandles hdedup => h.drained.trans ⟨hhandles, fun i => by rw [hdedup], fun i => .inl (by rw [hdb])⟩
  rcases hst with rfl | ⟨n, rfl⟩
  · exact h.set (hsame _ rfl rfl rfl) rfl rfl
  · exact h.set (hsame _ rfl rfl rfl) rfl rfl

end

/-! ## Runs of the drainer -/

theorem reclaimWhenUnprotected_protects {A : Type} (l : Dedup.Ledger A) (id i : InodeId) :
    (l.reclaimWhenUnprotected id).2.protectsReplayInode i = l.protectsReplayInode i := by
  unfold reclaimWhenUnprotected
  split <;> rfl

theorem runThread_protected {now : Nat → Timestamp} {creds : Credentials} {held : List InodeId}
    (hp : u.dedup.ledger.protectsReplayInode id = true) :
    u.runThread retention 0 ⟨.reclaimIfUnreferenced id, now, creds, .unopened, held⟩ =
      some ({ u with dedup := { u.dedup with ledger := (u.dedup.ledger.reclaimWhenUnprotected id).2 } }.finish 0
        ⟨.reclaimIfUnreferenced id, now, creds, .unopened, held⟩) := by
  unfold Sys.runThread reclaimWhenUnprotected
  dsimp only
  rw [if_pos hp]

theorem runThread_unprotected {now : Nat → Timestamp} {creds : Credentials} {held : List InodeId}
    (hp : u.dedup.ledger.protectsReplayInode id = false) :
    u.runThread retention 0 ⟨.reclaimIfUnreferenced id, now, creds, .unopened, held⟩ =
      some (u.goto 0 ⟨.reclaimIfUnreferenced id, now, creds, .unopened, held⟩ .unprotected) := by
  unfold Sys.runThread reclaimWhenUnprotected
  dsimp only
  rw [if_neg (Bool.eq_false_iff.1 hp)]

theorem intoDirectory_reclaim {tid : Nat} (ht : s.threads.get tid = some t)
    (hcall : t.call = .reclaimIfUnreferenced id) : s.IntoDirectory (.run tid) := by
  obtain ⟨call, now, creds, phase, held⟩ := t
  cases hcall
  unfold Sys.IntoDirectory Sys.intoDirectory
  dsimp only
  rw [ht]

section

variable {s₀ : Sys}

theorem Draining.next (h : Draining s rest u t) (hu : Reach (fun s => s.step retention) drainer s₀ u) (hinv : Inv u)
    (hcall : t.call = .reclaimIfUnreferenced id) (hrun : u.runThread retention 0 t = some u') :
    Reach (fun s => s.step retention) drainer s₀ u' ∧ Inv u' :=
  ⟨.step (.run 0) hu ⟨t, id, h.self, hcall⟩ (Option.bind_eq_some_iff.2 ⟨t, h.self, hrun⟩), 
    (runThread_ok hinv h.self (intoDirectory_reclaim h.self hcall) hrun).1⟩

/-- The drainer is done with the first inode of its queue. -/
theorem drains_one (hs : Reach (fun s => s.step retention) drainer s₀ s) (hinv : Inv s) (hidle : s.Idle)
    (hq : s.reclaimQueue = id :: rest) :
    ∃ u, Reach (fun s => s.step retention) drainer s₀ u ∧ Inv u ∧ u.Idle ∧ u.reclaimQueue = rest ∧ Drained s u := by
  let now : Nat → Timestamp := fun _ => ⟨0, 0⟩
  let creds : Credentials := ⟨0, 0, true, [], true⟩
  let at' (phase : Phase) (held : List InodeId) : Thread := ⟨.reclaimIfUnreferenced id, now, creds, phase, held⟩
  have hspawn : { s with reclaimQueue := rest }.spawn 0 (at' .start []) =
      some ({ s with reclaimQueue := rest }.setThread 0 (at' .start [])) := by
    unfold Sys.spawn
    split
    · rfl
    · rename_i old hold; rw [hidle 0 old hold]
  have hstep : s.step retention (.drain 0 now creds) =
      some ({ s with reclaimQueue := rest }.setThread 0 (at' .start [])) := by
    unfold Sys.step
    rw [hq]
    exact hspawn
  have d₁ : Draining s rest ({ s with reclaimQueue := rest }.setThread 0 (at' .start [])) (at' .start []) :=
    ⟨⟨rfl, fun _ => rfl, fun _ => .inl rfl⟩, rfl, get_put_self .., fun tid hne => get_put_ne hne⟩
  have r₁ : Reach (fun s => s.step retention) drainer s₀
    ({ s with reclaimQueue := rest }.setThread 0 (at' .start [])) :=
    .step (.drain 0 now creds) hs trivial hstep
  have i₁ := (step_ok hinv rfl hstep).1
  generalize { s with reclaimQueue := rest }.setThread 0 (at' .start []) = u₁ at d₁ r₁ i₁
  obtain ⟨r₂, i₂⟩ := d₁.next r₁ i₁ rfl rfl
  have d₂ : Draining s rest _ (at' (.locking [id] .nothing) []) := d₁.goto _
  obtain ⟨r₃, i₃⟩ := d₂.next r₂ i₂ rfl (if_neg (Bool.eq_false_iff.1 (d₂.busy hinv hidle id)))
  have d₃ : Draining s rest _ (at' (.locking [] .nothing) [id]) := d₂.goto _
  generalize Sys.setThread _ 0 (at' (.locking [] .nothing) [id]) = u₃ at d₃ r₃ i₃
  by_cases hopen : 0 < u₃.openHandleCount id
  · obtain ⟨r₄, i₄⟩ := d₃.next r₃ i₃ rfl (if_pos hopen)
    have d₄ : Draining s rest _ (at' .done []) := d₃.goto _
    exact ⟨_, r₄, i₄, d₄.idle hidle rfl, d₄.queue, d₄.drained⟩
  obtain ⟨r₄, i₄⟩ := d₃.next r₃ i₃ rfl (if_neg hopen)
  have d₄ : Draining s rest (u₃.goto 0 (at' (.locking [] .nothing) [id]) .unopened) (at' .unopened [id]) := d₃.goto _
  have hz : (u₃.goto 0 (at' (.locking [] .nothing) [id]) .unopened).openHandleCount id = 0 :=
    Nat.eq_zero_of_not_pos hopen
  generalize u₃.goto 0 (at' (.locking [] .nothing) [id]) .unopened = u₄ at d₄ r₄ i₄ hz
  by_cases hp : u₄.dedup.ledger.protectsReplayInode id = true
  · obtain ⟨r₅, i₅⟩ := d₄.next r₄ i₄ rfl (runThread_protected hp)
    have d₅ : Draining s rest
        ({ u₄ with dedup := { u₄.dedup with ledger := (u₄.dedup.ledger.reclaimWhenUnprotected id).2 } }.finish 0
        (at' .unopened [id])) (at' .done []) := by
      refine d₄.set ⟨d₄.drained.handles, fun i => ?_, d₄.drained.inodes⟩ rfl rfl
      rw [← d₄.drained.protects i]
      exact reclaimWhenUnprotected_protects ..
    exact ⟨_, r₅, i₅, d₅.idle hidle rfl, d₅.queue, d₅.drained⟩
  · have hunprot := Bool.eq_false_iff.2 hp
    obtain ⟨r₅, i₅⟩ := d₄.next r₄ i₄ rfl (runThread_unprotected hunprot)
    have d₅ : Draining s rest (u₄.goto 0 (at' .unopened [id]) .unprotected) (at' .unprotected [id]) := d₄.goto _
    obtain ⟨st, hst, d₆⟩ := d₅.reclaimed i₅ List.mem_cons_self hz hunprot
    obtain ⟨r₆, i₆⟩ := d₅.next r₅ i₅ rfl rfl
    obtain ⟨r₇, i₇⟩ := d₆.next r₆ i₆ rfl rfl
    have d₇ : Draining s rest ((Sys.reclaimLocked _ 0 _ id).settle retention 0 _ st) (at' .done []) := d₆.settled hst
    exact ⟨_, r₇, i₇, d₇.idle hidle rfl, d₇.queue, d₇.drained⟩

/-- **The drainer empties its queue.** -/
theorem drains (hs : Reach (fun s => s.step retention) drainer s₀ s) (hinv : Inv s) (hidle : s.Idle) :
    ∃ u, Reach (fun s => s.step retention) drainer s₀ u ∧ Inv u ∧ u.Idle ∧ u.reclaimQueue = [] ∧ Drained s u := by
  generalize hq : s.reclaimQueue = queue
  induction queue generalizing s with
  | nil => exact ⟨s, hs, hinv, hidle, hq, .refl s⟩
  | cons id rest ih =>
    obtain ⟨v, hv, hinv', hidle', hqueue, hdrained⟩ := drains_one hs hinv hidle hq
    obtain ⟨u, hu, hinv'', hidle'', hempty, hdrained'⟩ := ih hv hinv' hidle' hqueue
    exact ⟨u, hu, hinv'', hidle'', hempty, hdrained.trans hdrained'⟩

end

/-- A drained system has no orphan that nothing needs. -/
theorem Inv.drained_needed (h : Inv s) (hidle : s.Idle) (hqueue : s.reclaimQueue = []) (hi : Unlinked s.db i) :
    0 < s.openHandleCount i ∨ s.dedup.ledger.protectsReplayInode i = true := by
  rcases h.covered i hi with hq | hh | hp | ⟨tid, t, ht, hc⟩
  · rw [hqueue] at hq; cases hq
  · exact .inl hh
  · exact .inr hp.1
  · have hdone := hidle tid t ht
    obtain ⟨call, now, creds, phase, held⟩ := t
    cases hdone
    exact absurd hc (by simp [Thread.covers])

theorem Inv.quota_idle (h : Inv s) (hidle : s.Idle) : s.quota = bytes s.db := by
  have hzero : (s.threads.sum fun _ t => t.owes) = 0 := by
    have hnone : (s.threads.sum fun _ t => t.owes) = s.threads.sum fun _ _ => 0 := by
      refine sum_congr fun tid t ht => ?_
      have hdone := hidle tid t ht
      obtain ⟨call, now, creds, phase, held⟩ := t
      cases hdone
      rfl
    rw [hnone]
    simp [sum]
  rw [h.quota, hzero]
  rfl

theorem absent_stays (h : Inv s) (hs : Reach (fun s => s.step retention) Sys.IntoDirectory s s') :
    s.nextId ≤ s'.nextId ∧ ∀ i, i < s.nextId → s.db.inodes.get i = none → s'.db.inodes.get i = none := by
  have hall : Inv s' ∧ s.nextId ≤ s'.nextId ∧ ∀ i, i < s.nextId → s.db.inodes.get i = none →
      s'.db.inodes.get i = none := by
    refine hs.invariant (I := fun v => Inv v ∧ s.nextId ≤ v.nextId ∧
      ∀ i, i < s.nextId → s.db.inodes.get i = none → v.db.inodes.get i = none) ⟨h, le_rfl, fun _ _ hi => hi⟩ ?_
    rintro v a w ⟨hinv, hnext, habs⟩ hinto hstep
    obtain ⟨hinv', hkept⟩ := step_ok hinv hinto hstep
    exact ⟨hinv', hnext.trans hkept.nextId, fun i hi hn => hkept.fresh i (Nat.lt_of_lt_of_le hi hnext) (habs i hi hn)⟩
  exact hall.2

theorem settle_db (s : Sys) (retention tid : Nat) (t : Thread) (settlement : CommitSettlement) :
    (s.settle retention tid t settlement).db = s.db := by
  cases settlement <;> rfl

/-- A reclaim deletes nothing that still has a link. -/
theorem reclaim_unlinked {tid : Nat} {inode : Inode} (h : Inv s) (ht : s.threads.get tid = some t)
    (hcall : t.call = .reclaimIfUnreferenced id) (hs : s.runThread retention tid t = some s')
    (hi : s.db.inodes.get i = some inode) (hgone : s'.db.inodes.get i = none) : inode.nlink = 0 := by
  have hok := h.threads tid t ht
  have hsame : s'.db = s.db → inode.nlink = 0 := by
    intro hdb
    rw [hdb, hi] at hgone
    cases hgone
  obtain ⟨call, now, creds, phase, held⟩ := t
  cases hcall
  cases phase with
  | start => cases hs; exact hsame rfl
  | foundSource id' c => cases hs
  | locking todo found =>
    cases todo with
    | nil =>
      unfold Sys.runThread Sys.locked at hs
      dsimp only at hs
      split at hs <;> cases hs <;> exact hsame rfl
    | cons x todo => obtain ⟨-, rfl⟩ := of_guard_not hs; exact hsame rfl
  | planned found defer => cases found <;> cases hs
  | unopened =>
    unfold Sys.runThread reclaimWhenUnprotected at hs
    dsimp only at hs
    split at hs <;> cases hs <;> exact hsame rfl
  | unprotected =>
    cases hs
    have hdb : (s.reclaimLocked tid ⟨.reclaimIfUnreferenced id, now, creds, .unprotected, held⟩ id).db =
        s.db.commit (s.db.reclaimOrphanInode id) := by
      unfold Sys.reclaimLocked
      split
      · split <;> rfl
      · rfl
    rw [hdb] at hgone
    by_cases heq : i = id
    · subst heq
      rcases reclaimOrphanInode_locked h.consistent hok.1 with ⟨old, hold, hl, _⟩ | ⟨_, hnil⟩
      · rw [hi] at hold; cases hold; exact hl
      · exact hsame (by rw [hdb, hnil]; rfl)
    · rw [reclaimOrphanInode_get h.consistent heq, hi] at hgone; cases hgone
  | applied settlement => cases hs; exact hsame (settle_db ..)
  | done => cases hs

/-- **The lifetime of an unlinked inode.** In every interleaving of calls, closes, expiries and the drainer, from any
consistent tables, in which no rename moves an entry below a file: an inode is deleted only when no handle is open on
it, no result of its `create` is kept and no entry names it; a reclaim deletes no inode that has a link; what is deleted
stays deleted; the quota is the size of the files plus what deleted ones still have to give back, and the inodes are
counted exactly; and when no call is under way, the drainer on its own reaches a state with an empty queue in which
exactly the unlinked inodes without handle and protection are gone. -/
theorem unlinked_lifetime {db : NsDb} {nextId retention : Nat} {dedup : Dedup.Sys Inode} {s : Sys}
    (hdb : db.Consistent nextId) (hprot : Protected dedup.ledger)
    (hs : Reach (fun s => s.step retention) Sys.IntoDirectory (Sys.boot db nextId dedup) s) :
    (∀ a s', s.IntoDirectory a → s.step retention a = some s' → ∀ i, (s.db.inodes.get i).isSome →
      s'.db.inodes.get i = none → (∀ fid, s.fids.get fid ≠ some i) ∧
      (∀ op r, s.dedup.ledger.entries.get op = some (.complete r) → r.value.replayInode ≠ some i) ∧
      ∀ d n c, s'.db.entries.get (d, n) ≠ some (i, c)) ∧
    (∀ tid t id s' i inode, s.threads.get tid = some t → t.call = .reclaimIfUnreferenced id →
      s.step retention (.run tid) = some s' →
      s.db.inodes.get i = some inode → s'.db.inodes.get i = none → inode.nlink = 0) ∧
    (∀ s', Reach (fun s => s.step retention) Sys.IntoDirectory s s' → ∀ i, i < s.nextId → s.db.inodes.get i = none →
      s'.db.inodes.get i = none) ∧
    (s.quota = (bytes s.db + s.threads.sum fun _ t => t.owes : Nat) ∧ s.inodeCount = inodes s.db) ∧
    (s.Idle → ∃ u, Reach (fun s => s.step retention) drainer s u ∧ u.Idle ∧ u.reclaimQueue = [] ∧ u.quota = bytes u.db ∧
      u.inodeCount = inodes u.db ∧ ∀ i inode, s.db.inodes.get i = some inode →
        (u.db.inodes.get i = none ↔
          inode.nlink = 0 ∧ s.openHandleCount i = 0 ∧ s.dedup.ledger.protectsReplayInode i = false)) := by
  have hinv := reach_inv hdb hprot hs
  refine ⟨fun a s' hinto hstep i hi hgone => ?_, fun tid t id s' i inode ht hcall hstep hi hgone => ?_,
    fun s' hs' => (absent_stays hinv hs').2, ⟨hinv.quota, hinv.inodeCount⟩, fun hidle => ?_⟩
  · obtain ⟨hinv', hkept⟩ := step_ok hinv hinto hstep
    obtain ⟨hz, hp⟩ := hkept.gone i hi hgone
    refine ⟨fun fid hfid => ?_, fun op r hr hri => ?_, fun d n c he => ?_⟩
    · rw [hinv.handles i] at hz; exact Nat.ne_of_gt (count_pos hfid rfl) hz
    · rw [hinv.protected_.of_stored hr hri] at hp; cases hp
    · obtain ⟨_, ⟨l, hl, _⟩ | ⟨dd, hl, _⟩⟩ := hinv'.consistent.entry_ok d n i c he
      · rw [hgone] at hl; cases hl
      · rw [hgone] at hl; cases hl
  · obtain ⟨t', ht', hrun⟩ := Option.bind_eq_some_iff.1 hstep
    rw [ht] at ht'
    cases ht'
    exact reclaim_unlinked hinv ht hcall hrun hi hgone
  · obtain ⟨u, hu, hinv', hidle', hempty, hdrained⟩ := drains .init hinv hidle
    refine ⟨u, hu, hidle', hempty, hinv'.quota_idle hidle', hinv'.inodeCount, fun i inode hi => ⟨fun hgone => ?_, ?_⟩⟩
    · rcases hdrained.inodes i with hsame | ⟨_, ⟨old, hold, hl⟩, hz, hp⟩
      · rw [hsame, hi] at hgone; cases hgone
      rw [hi] at hold
      cases hold
      exact ⟨hl, hz, hp⟩
    · rintro ⟨hl, hz, hp⟩
      rcases hdrained.inodes i with hsame | ⟨hgone, _⟩
      · rcases hinv'.drained_needed hidle' hempty (i := i) ⟨inode, hsame.trans hi, hl⟩ with hopen | hprot'
        · rw [hdrained.count, hz] at hopen; cases hopen
        · rw [hdrained.protects, hp] at hprot'; cases hprot'
      · exact hgone

/-- A call of root that runs alone, for `n` steps. -/
def alone (tid : Nat) (call : Call) (n : Nat) : List Action :=
  .spawn tid call (fun _ => ⟨0, 0⟩) ⟨0, 0, true, [], true⟩ :: List.replicate n (.run tid)

/-- A file is created, opened and removed. -/
def openUnlink : List Action :=
  alone 0 (.create 0 [102] {} 7) 4 ++ alone 1 (.openFid 5 1 (.lopen false)) 3 ++ alone 2 (.remove 0 [102] none) 6

/-- The open file outlives its last link in every step that can follow. -/
theorem unlinked_lifetime_open :
    ∃ s inode, run (guarded (fun s => Sys.step s 600) Sys.IntoDirectory)
        (Sys.boot (NsState.boot ⟨0, 0⟩ 0 0).db 1 {}) openUnlink = some s ∧
      s.db.inodes.get 1 = some inode ∧ inode.nlink = 0 ∧ ∀ a s', s.IntoDirectory a → s.step 600 a = some s' →
      s'.db.inodes.get 1 ≠ none := by
  obtain ⟨s, hs, inode, hi, hl, hfid⟩ : ∃ s, run (guarded (fun s => Sys.step s 600) Sys.IntoDirectory)
    (Sys.boot (NsState.boot ⟨0, 0⟩ 0 0).db 1 {}) openUnlink = some s ∧ ∃ inode, s.db.inodes.get 1 = some inode ∧
    inode.nlink = 0 ∧ s.fids.get 5 = some 1 :=
    ⟨_, rfl, _, rfl, rfl, rfl⟩
  refine ⟨s, inode, hs, hi, hl, fun a s' hinto hstep hgone => ?_⟩
  have hempty : Protected ({} : Dedup.Sys Inode).ledger := ⟨fun _ => rfl, nofun⟩
  have hlife := unlinked_lifetime (NsState.boot_consistent ⟨0, 0⟩ 0 0) hempty (reach_of_run .init hs)
  exact (hlife.1 a s' hinto hstep 1 (by rw [hi]; rfl) hgone).1 5 hfid

/-- A file is moved below another file, and from there over that file. -/
def renameBelowFile : List Action :=
  alone 0 (.create 0 [70] { mode := some 0o755 } 0) 4 ++ alone 0 (.create 0 [71] {} 0) 4 ++
    alone 0 (.rename 0 [71] 1 [120] true) 8 ++ alone 0 (.rename 1 [120] 0 [70] true) 8

/-- The second rename deletes inode 1 and then saves it again as the directory that the entry left: inode 1 has a record
that no entry and no handle names, that no reclaim is going to find, and that the count of inodes leaves out. -/
theorem replaced_file_returns :
    (run (fun s => Sys.step s 600) (Sys.boot (NsState.boot ⟨0, 0⟩ 0 0).db 1 {}) renameBelowFile).map
      (fun s => (s.db.inodes.keys, s.db.entries.keys.map s.db.entries.get, s.openHandleCount 1, s.reclaimQueue,
        s.inodeCount)) =
    some ([0, 1, 2], [some (2, 5)], 0, [], 1) := rfl

theorem interleaved_coherent_open : ∃ s, Reach (fun s => Sys.step s 600) Sys.IntoDirectory
    (Sys.boot (NsState.boot ⟨0, 0⟩ 0 0).db 1 {}) s ∧ opened s 1 = 1 := by
  have hr : Reach (fun s => Sys.step s 600) Sys.IntoDirectory (Sys.boot (NsState.boot ⟨0, 0⟩ 0 0).db 1 {}) _ :=
    reach_of_run .init (l := openUnlink) rfl
  have hempty : Protected ({} : Dedup.Sys Inode).ledger := ⟨fun _ => rfl, nofun⟩
  exact ⟨_, hr, ((interleaved_coherent (NsState.boot_consistent ⟨0, 0⟩ 0 0) hempty hr).2.1 1).symm⟩

end ZeroFS.Handle
