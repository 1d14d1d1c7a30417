import ZeroFS.Writeback.Drain

/-!
# Replay is ordered by prefixes

In every run without late requests the remote store holds a prefix of the accepted records, with the next record in
whole or in part and immutable creates further ahead, and all of them when the journal has drained.
-/

namespace ZeroFS.Writeback

open List Table Option Machine

section Moves

variable {l : List MutationRecord} {j : Journal} {sch : Scheduler} {m : Remote} {ns : Namespace} {s : Nat}
  {r : MutationRecord} {tag : Option Nat} {run : List Completion}

/-! ## Completions and commits -/

/-- A completed record was in hand before. -/
theorem InHand.of_complete {k s' : Nat} {r' : MutationRecord} {f : Flight} (hs : sch.active.get s = some (r, .done tag))
    (h : InHand k (sch.complete s (r, tag)) s' r' f) : InHand k sch s' r' f := by
  rcases h with hf | ⟨hk, tag', hc, hf⟩
  · exact .inl (of_del hf).2
  rcases cases_put hc with ⟨heq, hc⟩ | ⟨-, hc⟩
  · cases hc; rw [heq, hf]; exact .inl hs
  · exact .inr ⟨hk, tag', hc, hf⟩

theorem DrainOk.complete (h : DrainOk l j sch) (hs : sch.active.get s = some (r, .done tag)) :
    DrainOk l j (sch.complete s (r, tag)) := by
  obtain ⟨hlt, hle, hlog, hnone⟩ := h.active s _ hs
  have hnext := h.next_le
  refine { h with
    marked := ?_, completed := ?_, active := ?_, ahead := fun s' r' f hin => h.ahead s' r' f (hin.of_complete hs),
      ready := ?_ }
  · intro s' hn hk
    show ((sch.completed.put s (r, tag)).get s').isSome
    rw [get_put]
    split
    · rfl
    · exact h.marked s' hn hk
  · intro s' c hc
    rcases cases_put hc with ⟨heq, rfl⟩ | ⟨-, hc⟩
    · rw [heq]; exact ⟨by show sch.next ≤ s; omega, hle, hlog⟩
    · exact h.completed s' c hc
  · intro s' f hf
    obtain ⟨hne, hf⟩ := of_del hf
    obtain ⟨hlt', hle', hlog', hnone'⟩ := h.active s' f hf
    exact ⟨hlt', hle', hlog', (get_put_ne hne).trans hnone'⟩
  · intro run hc
    obtain ⟨hfrontier, hrun⟩ := h.ready run hc
    refine ⟨hfrontier, fun i c hi => ?_⟩
    have hget := hrun i c hi
    -- what is completed only now is not in the run
    have hne : sch.next + i ≠ s := by
      rintro rfl
      rw [hnone] at hget
      cases hget
    exact (get_put_ne hne).trans hget

/-- What a run of completions from the frontier is. -/
structure ReadyRun (j : Journal) (sch : Scheduler) (run : List Completion) : Prop where
  get : ∀ (i : Nat) (c : Completion), run[i]? = some c → sch.completed.get (sch.next + i) = some c
  next : sch.next = j.remoteSeq + 1
  pos : 0 < run.length
  le : j.remoteSeq + run.length ≤ j.localSeq

theorem ReadyRun.isSome (h : ReadyRun j sch run) {i : Nat} (hi : sch.next ≤ i) (hlt : i < sch.next + run.length) :
    ∃ c, sch.completed.get i = some c := by
  have hget := h.get (i - sch.next) run[i - sch.next] (getElem?_eq_getElem (by omega))
  rw [show sch.next + (i - sch.next) = i by omega] at hget
  exact ⟨_, hget⟩

theorem DrainOk.start (h : DrainOk l j sch) (hgo : sch.stopped = false) (hidle : sch.committing = none)
    (hrun : ∀ (i : Nat) c, run[i]? = some c → sch.completed.get (sch.next + i) = some c) :
    DrainOk l j { sch with committing := some (run, .ready) } := by
  refine { h with ready := ?_, committing := ?_, idle := nofun }
  · rintro run' heq; cases heq; exact ⟨h.idle hidle hgo, hrun⟩
  · rintro run' phase heq hne; cases heq; exact absurd rfl hne

theorem DrainOk.mark (h : DrainOk l j sch) (hrun : ReadyRun j sch run) (versions : Table Path (Nat × Nat)) :
    DrainOk l { j with remoteSeq := j.remoteSeq + run.length, versions := versions }
      { sch with committing := some (run, .marked) } := by
  have hnext := hrun.next
  have hactive : ∀ s f, sch.active.get s = some f → j.remoteSeq + run.length < s := by
    intro s f hf
    obtain ⟨hlt, -, -, hnone⟩ := h.active s f hf
    by_contra hge
    obtain ⟨c, hc⟩ := hrun.isSome (i := s) (by omega) (by omega)
    rw [hc] at hnone
    cases hnone
  refine { h with
    next_le := ?_, marked := ?_, active := ?_, ahead := ?_, ready := nofun, committing := ?_, idle := nofun }
  · dsimp only; omega
  · intro s hn hk
    dsimp only at hn hk
    obtain ⟨c, hc⟩ := hrun.isSome (i := s) hn (by omega)
    rw [hc]
    rfl
  · intro s f hf
    obtain ⟨-, hls, hlog, hnone⟩ := h.active s f hf
    exact ⟨hactive s f hf, hls, hlog, hnone⟩
  · intro s r f hin
    rcases hin with hf | ⟨hk, tag, hc, hf⟩
    · exact (h.ahead s r f (.inl hf)).mono (Nat.le_add_right _ _) (hactive s _ hf)
    · dsimp only at hk hc; exact (h.ahead s r f (.inr ⟨by omega, tag, hc, hf⟩)).mono (Nat.le_add_right _ _) hk
  · intro run' phase' heq _
    cases heq
    dsimp only
    omega

/-- The marked records have taken effect, so the longer prefix is what the store holds. -/
theorem RemoteOk.mark (h : RemoteOk ns l j sch m) (hd : DrainOk l j sch)
    (himmutable : ∀ r ∈ l, r.fence = .immutableCreate → ∃ e b, r.kind = .put .create e b) (hrun : ReadyRun j sch run)
    (versions : Table Path (Nat × Nat)) :
    RemoteOk ns l { j with remoteSeq := j.remoteSeq + run.length, versions := versions }
      { sch with committing := some (run, .marked) } m := by
  have hnext := hrun.next
  refine ⟨h.replayed.add himmutable hrun.le fun s hlt hle => ?_, fun s r f hin => h.flight s r f ?_⟩
  · obtain ⟨c, hc⟩ := hrun.isSome (i := s) (by omega) (by omega)
    exact ⟨c.1, (hd.completed s c hc).2.2, h.flight s c.1 (.done c.2) (.inr ⟨hlt, c.2, hc, rfl⟩)⟩
  · rcases hin with hf | ⟨hk, hc⟩
    · exact .inl hf
    · exact .inr ⟨by dsimp only at hk; omega, hc⟩

theorem DrainOk.setPhase (h : DrainOk l j sch) {phase phase' : CommitPhase} (hc : sch.committing = some (run, phase))
    (hne : phase ≠ .ready) (hne' : phase' ≠ .ready) : DrainOk l j { sch with committing := some (run, phase') } := by
  refine { h with ready := ?_, committing := ?_, idle := nofun }
  · rintro run' heq; cases heq; exact absurd rfl hne'
  · rintro run' phase'' heq -; cases heq; exact h.committing run phase hc hne

theorem get_advance (sch : Scheduler) (n s : Nat) :
    (sch.advance n).completed.get s = if n ≤ s then sch.completed.get s else none := by
  show (sch.completed.filterMapVals _).get s = _
  rw [get_filterMapVals]
  cases sch.completed.get s <;> simp

theorem of_get_advance {n : Nat} {c : Completion} (h : (sch.advance n).completed.get s = some c) :
    n ≤ s ∧ sch.completed.get s = some c := by
  rw [get_advance] at h
  split at h
  · exact ⟨by assumption, h⟩
  · cases h

theorem InHand.of_advance {k n : Nat} {f : Flight} (h : InHand k (sch.advance n) s r f) : InHand k sch s r f := by
  rcases h with hf | ⟨hk, tag, hc, hf⟩
  · exact .inl hf
  · exact .inr ⟨hk, tag, (of_get_advance hc).2, hf⟩

theorem DrainOk.advance (h : DrainOk l j sch) {phase : CommitPhase} (hc : sch.committing = some (run, phase))
    (hne : phase ≠ .ready) : DrainOk l j (sch.advance (sch.next + run.length)) := by
  have hnext := h.committing run phase hc hne
  refine ⟨h.window, ?_, Nat.le_of_eq hnext, fun s hn hk => ?_, fun s c hs => ?_, fun s f hf => ?_,
    fun s r f hin => h.ahead s r f hin.of_advance, nofun, nofun, fun _ _ => hnext⟩
  · show 0 < sch.next + run.length; omega
  · change sch.next + run.length ≤ s at hn; omega
  · obtain ⟨hn, hs⟩ := of_get_advance hs; exact ⟨hn, (h.completed s c hs).2⟩
  · obtain ⟨hlt, hle, hlog, hnone⟩ := h.active s f hf
    rw [get_advance, hnone, ite_self]
    exact ⟨hlt, hle, hlog, rfl⟩

theorem not_inHand_fresh {k n : Nat} {f : Flight} : ¬InHand k { next := n } s r f := by
  rintro (hf | ⟨-, tag, hc, -⟩)
  · cases hf
  · cases hc

theorem DrainOk.fresh (l : List MutationRecord) (j : Journal) : DrainOk l j { next := j.remoteSeq + 1 } where
  window r hr := by cases hr
  next_pos := Nat.succ_pos _
  next_le := le_rfl
  marked s hn hs := by
    dsimp only at hn
    omega
  completed s c hc := by cases hc
  active s f hf := by cases hf
  ahead s r f hin := absurd hin not_inHand_fresh
  ready := nofun
  committing := nofun
  idle _ _ := rfl

/-! ## Attempts -/

theorem contents_put (m : Remote) (p : Path) (b : Payload) (q : Path) :
    (m.put p b).contents q = if q = p then some b else m.contents q := by
  unfold Remote.contents Remote.put
  rw [get_put]
  split <;> rfl

theorem contents_delete (m : Remote) (p q : Path) : (m.delete p).contents q = if q = p then none else m.contents q := by
  unfold Remote.contents Remote.delete
  rw [get_del]
  split <;> rfl

theorem payload_of_ne_delete (h : r.kind ≠ .delete) : ∃ b, r.payload = some b := by
  unfold MutationRecord.payload
  split
  · exact ⟨_, rfl⟩
  · exact ⟨_, rfl⟩
  · exact ⟨_, rfl⟩
  · exact absurd (by assumption) h

/-- A record with a payload leaves it at its path. -/
theorem effect_path {b : Payload} (hren : ∀ source mode b, r.kind = .rename source mode b → source ≠ r.path)
    (hb : r.payload = some b) : r.effect r.path = some (some b) := by
  unfold MutationRecord.payload at hb
  unfold MutationRecord.effect
  split at hb <;> rename_i hk <;> cases hb <;> simp only [hk, if_true]
  rw [if_neg (hren _ _ _ hk).symm]

/-- A record whose payload is at its path only has the source of a rename left to do. -/
theorem FlightOk.published (hk : r.kind ≠ .delete) (hpath : m.contents r.path = r.payload) (tag : Nat) :
    FlightOk m r (.published r tag) := by
  unfold Flight.published
  split
  · rename_i source mode b hren
    refine .inr ⟨mode, b, hren, ?_⟩
    rw [hpath]
    simp [MutationRecord.payload, hren]
  rename_i hren
  intro p v hv
  unfold MutationRecord.effect at hv
  unfold MutationRecord.payload at hpath
  split at hv <;> rename_i hkind
  · split at hv <;> cases hv; simp_all
  · split at hv <;> cases hv; simp_all
  · exact absurd hkind hk
  · exact absurd hkind (hren _ _ _)

/-- The put of an attempt takes effect. -/
theorem RemoteOk.putPayload (h : RemoteOk ns l j sch m) (hd : DrainOk l j sch) {mode : RemoteMode}
    (hs : sch.active.get s = some (r, .put mode))
    (hren : ∀ source mode b, r.kind = .rename source mode b → source ≠ r.path) (tag : Nat) :
    RemoteOk ns l j { sch with active := sch.active.put s (r, .published r tag) }
      (m.put r.path (r.payload.getD [])) := by
  have hk : r.kind ≠ .delete := h.flight s r _ (.inl hs)
  obtain ⟨b, hb⟩ := payload_of_ne_delete hk
  have hnew : (m.put r.path (r.payload.getD [])).contents r.path = r.payload := by
    rw [contents_put, if_pos rfl, hb, getD_some]
  refine h.touch hd hs (effect_path hren hb) (hnew.trans hb) (fun p hp => ?_) (.published hk hnew _)
    fun source mode b' hkind => ?_
  · rw [contents_put, if_neg hp]
  · rw [hnew]; simp [MutationRecord.payload, hkind]

/-- The delete of an attempt takes effect. -/
theorem RemoteOk.deleteTarget (h : RemoteOk ns l j sch m) (hd : DrainOk l j sch) {target : Path}
    (hs : sch.active.get s = some (r, .remove target tag))
    (hren : ∀ source mode b, r.kind = .rename source mode b → source ≠ r.path) :
    RemoteOk ns l j { sch with active := sch.active.put s (r, .done tag) } (m.delete target) := by
  have hgone : (m.delete target).contents target = none := by rw [contents_delete, if_pos rfl]
  have hother : ∀ p, p ≠ target → (m.delete target).contents p = m.contents p := fun p hp => by
    rw [contents_delete, if_neg hp]
  rcases h.flight s r _ (.inl hs) with ⟨hk, htarget⟩ | ⟨mode, b, hk, hpath⟩
  · subst htarget
    have heff : ∀ p, r.effect p = if p = r.path then some none else none := fun p => by simp [MutationRecord.effect, hk]
    refine h.touch hd hs (by rw [heff, if_pos rfl]) hgone hother (fun p v hv => ?_) fun source mode b hkind => ?_
    · rw [heff] at hv
      split at hv <;> cases hv
      rename_i hp
      rw [hp, hgone]
    · rw [hk] at hkind; cases hkind
  · have hne := hren _ _ _ hk
    have heff : ∀ p, r.effect p = if p = target then some none else if p = r.path then some (some b) else none :=
      fun p => by
      simp [MutationRecord.effect, hk]
    have htarget : (m.delete target).contents r.path = some b := (hother _ hne.symm).trans hpath
    refine h.touch hd hs (by rw [heff, if_pos rfl]) hgone hother (fun p v hv => ?_) fun source mode b' hkind => ?_
    · rw [heff] at hv
      split at hv
      · rename_i hp; cases hv; rw [hp, hgone]
      · split at hv <;> cases hv; rename_i hp; rw [hp, htarget]
    · rw [hk] at hkind; cases hkind; exact htarget

end Moves

/-! ## The invariant of the tier -/

namespace Tier

/-- The invariant of a run; what it says about the remote store rests on `P`, that no request landed late. -/
structure Ok (P : Prop) (ns : Namespace) (t : Tier) : Prop where
  log : LogOk t.accepted t.journal
  drain : DrainOk t.accepted t.journal t.scheduler
  remote : P → RemoteOk ns t.accepted t.journal t.scheduler t.remote

variable {cfg : Config} {P : Prop} {ns : Namespace} {t t' : Tier} {s : Nat} {r : MutationRecord} {f : Flight}

/-- What a request is validated to: a rename has another source than its path, and a copy or a rename carries what was
there. -/
theorem validate_record {request : Request} (h : t.validate cfg request = .ok r) :
    ∃ path kind predecessor, r = t.record cfg path kind predecessor ∧
      (∀ source mode b, kind = .rename source mode b → source ≠ path) ∧
      ∀ source mode b, kind = .copy source mode b ∨ kind = .rename source mode b → t.readObject source = some b := by
  unfold validate at h
  split at h
  · split at h
    · split at h
      · cases h
      · cases h; exact ⟨_, _, _, rfl, nofun, nofun⟩
    rename_i path payload mode generated _ _ _
    cases hv : validatePutMode mode (t.visibleVersion path) with
    | error e => rw [hv] at h; cases h
    | ok v => rw [hv] at h; cases h; exact ⟨_, _, _, rfl, nofun, nofun⟩
  · cases h; exact ⟨_, _, _, rfl, nofun, nofun⟩
  · rename_i source target create rename
    split at h
    · cases h
    rename_i hne
    split at h
    · cases h
    split at h
    · cases h
    rename_i b hread
    cases h
    refine ⟨_, _, _, rfl, fun source' mode b hk => ?_, fun source' mode b hk => ?_⟩
    · split at hk <;> cases hk; exact hne
    · split at hk <;> rcases hk with hk | hk <;> cases hk <;> exact hread

theorem immutable_of_classify {canonical : Path → Bool} {path : Path} {kind : MutationKind}
    (h : classifyMutationFence canonical path kind = .immutableCreate) : ∃ e b, kind = .put .create e b := by
  unfold classifyMutationFence at h
  split at h
  · exact ⟨_, _, rfl⟩
  · cases h

section

variable (h : Ok P ns t)
include h

theorem Ok.append {path : Path} {kind : MutationKind} {predecessor : Option Nat}
    (hren : ∀ source mode b, kind = .rename source mode b → source ≠ path) (overlay : OverlayIndex) (claims : Nat) :
    Ok P ns { t with
      accepted := t.accepted ++ [t.record cfg path kind predecessor], overlay := overlay, claims := claims } where
  log := h.log.append rfl hren immutable_of_classify
  drain := h.drain.append h.log.localSeq_le _
  remote hP := ⟨(h.remote hP).replayed.append h.log.localSeq_le _, (h.remote hP).flight⟩

theorem Ok.setFlight (hs : t.scheduler.active.get s = some (r, f)) {f' : Flight} (hf : P → FlightOk t.remote r f') :
    Ok P ns (t.setFlight s r f') :=
  ⟨h.log, h.drain.setFlight hs f', fun hP => (h.remote hP).setFlight h.drain hs (hf hP)⟩

theorem Ok.stop : Ok P ns t.stop where
  log := h.log
  drain := h.drain.fewer rfl rfl rfl (fun _ => rfl) h.drain.window nofun
  remote hP := (h.remote hP).fewer (·.imp nofun id)

theorem Ok.giveUp (s : Nat) (r : MutationRecord) (f : Flight) : Ok P ns (t.giveUp s r f) where
  log := h.log
  drain := h.drain.fewer rfl rfl rfl id h.drain.window fun hf => ⟨_, (of_del hf).2⟩
  remote hP := (h.remote hP).fewer (·.imp_left fun hf => (of_del hf).2)

theorem Ok.rename (hs : t.scheduler.active.get s = some (r, f)) :
    ∀ source mode b, r.kind = .rename source mode b → source ≠ r.path :=
  h.log.rename r (h.drain.active s _ hs).2.2.1.mem

theorem Ok.attempt (hs : t.scheduler.active.get s = some (r, f)) (ha : Attempt t s r f t') : Ok P ns t' := by
  cases ha with
  | resume hf =>
    refine h.setFlight hs fun hP => ?_
    have hold := (h.remote hP).flight s r f (.inl hs)
    cases hf with
    | delete hk => exact .inl ⟨hk, rfl⟩
    | put _ hk | check hk => exact hk
    | refused => exact hold
    | found hpath => exact .published hold hpath _
  | giveUp => exact h.giveUp s r f
  | stop => exact h.stop

theorem Ok.loadSchedulerWindow (cfg : Config) : Ok P ns (t.loadSchedulerWindow cfg) := by
  have hrows : ∀ r ∈ t.pendingWindow cfg, Logged t.accepted r.sequence r ∧ r.sequence ≤ t.journal.localSeq :=
    fun r hr =>
    h.log.mem_rows (mem_filter.1 (mem_of_mem_take hr)).1
  unfold Tier.loadSchedulerWindow
  split
  · exact ⟨h.log, h.drain.fewer rfl rfl rfl id hrows fun hf => ⟨_, hf⟩, fun hP => (h.remote hP).fewer id⟩
  · exact h.stop

theorem Ok.completeRecord {eTag : Option Nat} (hs : t.scheduler.active.get s = some (r, .done eTag)) :
    Ok P ns (t.completeRecord cfg s r eTag) := by
  have hdone : Ok P ns { t with scheduler := t.scheduler.complete s (r, eTag) } :=
    ⟨h.log, h.drain.complete hs, fun hP => (h.remote hP).fewer (·.of_complete hs)⟩
  unfold Tier.completeRecord
  dsimp only
  split
  · exact hdone
  · exact hdone.loadSchedulerWindow cfg

theorem Ok.failCommit : Ok P ns t.failCommit := by
  refine ⟨h.log, { h.drain with active := nofun, ahead := ?_, ready := nofun, committing := nofun, idle := nofun },
    fun hP => (h.remote hP).fewer (·.imp nofun id)⟩
  intro s r f hin
  exact h.drain.ahead s r f (hin.imp nofun id)

end

/-- No request takes effect after its attempt was given up. -/
def punctual (_ : Tier) : Action → Bool
  | .land _ => false
  | _ => true

abbrev Punctual (t : Tier) (a : Action) : Prop := punctual t a = true

theorem Ok.dispatch (h : Ok P ns t) (ht : t.step cfg .dispatch = some t') : Ok P ns t' := by
  unfold step at ht
  dsimp only at ht
  split at ht
  · cases ht
  cases ht
  have hnew : ∀ s f, (foldl (fun m r => m.put r.sequence (r, Flight.start)) t.scheduler.active
      (collectPipelineBatch t.scheduler.window t.scheduler.next cfg.uploadConcurrency
      t.scheduler.completed.entries.length t.scheduler.active.entries.length
      (fun s => (t.scheduler.completed.get s).isSome) (fun s => (t.scheduler.active.get s).isSome))).get s = some f →
      t.scheduler.active.get s = some f ∨ f.2 = .start ∧ t.journal.remoteSeq < s ∧ s ≤ t.journal.localSeq ∧
      Logged t.accepted s f.1 ∧ t.scheduler.completed.get s = none ∧ Ahead t.accepted t.journal.remoteSeq s f.1 := by
    intro s f hf
    rcases get_foldl_start hf with hold | ⟨r, hr, rfl, rfl⟩
    · exact .inl hold
    obtain ⟨hmem, hcompleted, -, hfirst, hfence, hbetween⟩ := mem_collectPipelineBatch hr
    have hnone : t.scheduler.completed.get r.sequence = none := by simpa using hcompleted
    obtain ⟨hlog, hle⟩ := h.drain.window r hmem
    -- the records from the frontier to the remote sequence are completed
    have hbeyond : t.journal.remoteSeq < r.sequence := by
      by_contra hge
      have hmarked := h.drain.marked r.sequence hfirst (by omega)
      rw [hnone] at hmarked
      cases hmarked
    have hnext := h.drain.next_le
    refine .inr ⟨rfl, hbeyond, hle, hlog, hnone, ?_⟩
    rcases hfence with heq | himm
    · exact .inl (by omega)
    refine .inr ⟨himm, fun i q hki his hq => ?_⟩
    obtain ⟨q', hq', hseq, hfree⟩ := hbetween i (by omega) his
    have hlog' := (h.drain.window q' hq').1
    rw [hseq] at hlog'
    rw [hq.unique hlog']
    exact hfree
  refine ⟨h.log, { h.drain with active := ?_, ahead := ?_ }, fun hP => { h.remote hP with flight := ?_ }⟩
  · intro s f hf
    rcases hnew s f hf with hold | ⟨-, hlt, hle, hlog, hnone, -⟩
    · exact h.drain.active s f hold
    · exact ⟨hlt, hle, hlog, hnone⟩
  · intro s r f hin
    rcases hin with hf | hc
    · rcases hnew s (r, f) hf with hold | ⟨-, -, -, -, -, hahead⟩
      · exact h.drain.ahead s r f (.inl hold)
      · exact hahead
    · exact h.drain.ahead s r f (.inr hc)
  · intro s r f hin
    rcases hin with hf | hc
    · rcases hnew s (r, f) hf with hold | ⟨hstart, -⟩
      · exact (h.remote hP).flight s r f (.inl hold)
      · cases hstart; trivial
    · exact (h.remote hP).flight s r f (.inr hc)

/-- A run that is marked starts at the frontier. -/
theorem Ok.mark_cases {run : List Completion} {j : Journal} (h : Ok P ns t)
    (hc : t.scheduler.committing = some (run, .ready)) (hj : t.journal.markRemoteBatch run = some j) :
    ReadyRun t.journal t.scheduler run ∧
      ∃ versions, j = { t.journal with remoteSeq := t.journal.remoteSeq + run.length, versions := versions } := by
  obtain ⟨hfrontier, hrun⟩ := h.drain.ready run hc
  obtain ⟨hok, rfl⟩ := of_guard hj
  exact ⟨⟨hrun, hfrontier, length_pos_of_ne_nil hok.1, hok.2.2.1⟩, _, rfl⟩

theorem Ok.mark {run : List Completion} {j : Journal} (h : Ok P ns t) (hc : t.scheduler.committing = some (run, .ready))
    (hj : t.journal.markRemoteBatch run = some j) : Ok P ns ({ t with journal := j }.setCommit run .marked) := by
  obtain ⟨hrun, versions, rfl⟩ := h.mark_cases hc hj
  refine ⟨{ h.log with remoteSeq_le := hrun.le, rows := ?_ }, h.drain.mark hrun _,
    fun hP => (h.remote hP).mark h.drain h.log.immutable hrun _⟩
  obtain ⟨d, hd, hrows⟩ := h.log.rows
  exact ⟨d, Nat.le_trans hd (Nat.le_add_right _ _), hrows⟩

theorem Ok.prune {run : List Completion} (h : Ok P ns t) (hc : t.scheduler.committing = some (run, .retired)) :
    Ok P ns ({ t with journal := t.journal.removeRemotePrefix (t.scheduler.next + run.length - 1) }.setCommit run
      .pruned) := by
  have hlast := h.drain.committing run _ hc nofun
  have hremote (hP : P) : RemoteOk ns t.accepted (t.journal.removeRemotePrefix (t.scheduler.next + run.length - 1))
    t.scheduler t.remote := (h.remote hP).grow rfl le_rfl
  have hdrain := h.drain.setPhase hc nofun (nofun : CommitPhase.pruned ≠ .ready)
  exact ⟨h.log.removeRemotePrefix (by omega), hdrain.grow rfl le_rfl, fun hP => (hremote hP).fewer id⟩

theorem Ok.recovered (h : Ok P ns t) (cfg : Config) (overlay : OverlayIndex) : Ok P ns (t.recovered cfg overlay) := by
  have hk := h.log.remoteSeq_le
  have hl := h.log.localSeq_le
  have hlog := h.log.removeRemotePrefix (le_refl t.journal.remoteSeq)
  have hrem : ∀ l : List MutationRecord, (l.take t.journal.localSeq).take t.journal.localSeq =
    l.take t.journal.localSeq :=
    fun l => by rw [take_take, Nat.min_self]
  unfold Tier.recovered
  refine ⟨⟨?_, ?_, ?_, hk, ?_, ?_⟩, ?_, ?_⟩
  · exact fun i r hr => h.log.sequence i r (of_getElem?_take hr).2
  · exact fun r hr => h.log.rename r (mem_of_mem_take hr)
  · exact fun r hr => h.log.immutable r (mem_of_mem_take hr)
  · dsimp only [Journal.removeRemotePrefix]; rw [length_take]; omega
  · obtain ⟨d, hd, hrows⟩ := hlog.rows
    refine ⟨d, hd, ?_⟩
    dsimp only [Journal.removeRemotePrefix] at hrows ⊢
    rw [hrows, hrem]
  · exact DrainOk.fresh _ _
  · exact fun hP => ⟨(h.remote hP).replayed.take, fun s r f hin => absurd hin not_inHand_fresh⟩

/-- **One step keeps the order of replay.** -/
theorem step_ok {a : Action} (h : Ok P ns t) (hc : P → Punctual t a) (ht : t.step cfg a = some t') : Ok P ns t' := by
  cases step_stepped ht with
  | accept hr ho =>
    obtain ⟨path, kind, predecessor, rfl, hren, -⟩ := validate_record hr
    exact h.append hren _ _
  | commitLocal hgo hidle hne =>
    exact ⟨h.log.commitRecordBatch _, h.drain.grow rfl (Nat.le_add_right _ _),
      fun hP => (h.remote hP).grow rfl (Nat.le_add_right _ _)⟩
  | transition hs | transitionFails hs _ | observe hs _ | observeFails hs _ | publishWatermark hs | publishTerminal _ =>
    exact ⟨h.log, h.drain, h.remote⟩
  | openWindow =>
    apply Ok.loadSchedulerWindow
    exact ⟨h.log, h.drain.fewer rfl rfl rfl id h.drain.window fun hf => ⟨_, hf⟩, fun hP => (h.remote hP).fewer id⟩
  | dispatch ht _ => exact h.dispatch ht
  | attempt hs hat _ => exact h.attempt hs hat
  | putObject hs => exact ⟨h.log, h.drain.setFlight hs _, fun hP => (h.remote hP).putPayload h.drain hs (h.rename hs) _⟩
  | deleteObject hs =>
    exact ⟨h.log, h.drain.setFlight hs _, fun hP => (h.remote hP).deleteTarget h.drain hs (h.rename hs)⟩
  | complete hs => exact h.completeRecord hs
  | land => exact ⟨h.log, h.drain, fun hP => by cases hc hP⟩
  | terminate => exact h.stop
  | startCommit hgo hidle =>
    exact ⟨h.log, h.drain.start hgo hidle fun i c hi => readyRun_get hi, fun hP => (h.remote hP).fewer id⟩
  | mark hrun hj => exact h.mark hrun hj
  | markFails _ | finishFails _ _ => exact ⟨h.log, h.failCommit.drain, h.failCommit.remote⟩
  | retire hrun =>
    exact ⟨h.log, h.drain.setPhase hrun nofun nofun, fun hP => (h.remote hP).fewer id⟩
  | prune hrun => exact h.prune hrun
  | finish hrun _ => exact ⟨h.log, h.drain.advance hrun nofun, fun hP => (h.remote hP).fewer (·.of_advance)⟩
  | restart _ => exact h.recovered cfg _

theorem boot_ok (P : Prop) (remote : Remote) : Ok P remote.contents (boot remote) := by
  refine ⟨⟨fun i r hr => ?_, fun r hr => ?_, fun r hr => ?_, le_rfl, le_rfl, 0, le_rfl, rfl⟩, DrainOk.fresh _ _,
    fun _ => ⟨⟨le_rfl, fun p => .inl rfl, fun r source mode b hr hk => .inl rfl⟩,
    fun s r f hin => absurd hin not_inHand_fresh⟩⟩
  · cases hr
  · cases hr
  · cases hr

theorem reach_ok {remote : Remote} (h : Machine.Reach (step cfg) Punctual (boot remote) t) :
    Ok True remote.contents t :=
  h.invariant (boot_ok True remote) fun _ _ _ hok hc hs => step_ok hok (fun _ => hc) hs

/-- **Replay is ordered by prefixes, and a drained journal is the remote store.** -/
theorem replay_ordered {remote : Remote} (h : Machine.Reach (step cfg) Punctual (boot remote) t) :
    (∃ k, Replayed remote.contents t.accepted t.journal.localSeq k t.remote.contents) ∧
      (t.journal.remoteSeq = t.journal.localSeq →
        t.remote.contents = applied (t.accepted.take t.journal.localSeq) remote.contents) := by
  have hok := reach_ok h
  have hreplayed := (hok.remote trivial).replayed
  refine ⟨⟨t.journal.remoteSeq, hreplayed⟩, fun hdrained => ?_⟩
  funext p
  rcases hreplayed.keys p with heq | ⟨s, r, -, hlt, hle, -⟩
  · rw [heq, hdrained]
  · omega

/-! ## Runs -/

def sampleConfig : Config where
  incarnation := 1
  uploadConcurrency := 2
  canonical := fun p => p.head? = some "wal"
  charge := fun _ => 1

/-- A store with one object. -/
def sampleRemote : Remote := { objects := empty.put ["a"] ⟨[1], 0⟩, issued := 1 }

/-- The rows of `n` accepted records are committed and settled, and the scheduler starts on them. -/
def publish (n : Nat) : List Action :=
  [.commitLocal n, .transitionTokens, .observe, .publishWatermark, .openWindow, .dispatch]

/-- The attempt at a put, and its commit. -/
def drainPut (s : Nat) : List Action :=
  [.prepare s, .effect s, .complete s, .startCommit, .mark, .retire, .prune, .finishCommit]

/-- A rename whose target has been put and whose source is still there. -/
def renameHalfway : List Action := .accept (.copy ["a"] ["b"] false true) :: publish 1 ++ [.prepare 1, .effect 1]

/-- The first of two overwrites times out before it takes effect, is retried, and lands after the second one. -/
def lateOverwrite : List Action :=
  [.accept (.put ["a"] [2] .overwrite false), .accept (.put ["a"] [3] .overwrite false)] ++ publish 2 ++
    [.prepare 1, .fail 1, .openWindow, .dispatch] ++ drainPut 1 ++ [.dispatch] ++ drainPut 2 ++ [.land 0]

theorem replay_ordered_renameHalfway : ∃ t, Machine.Reach (step sampleConfig) Punctual (boot sampleRemote) t ∧
    (∃ k, Replayed sampleRemote.contents t.accepted t.journal.localSeq k t.remote.contents) ∧
      (t.journal.remoteSeq = t.journal.localSeq →
        t.remote.contents = applied (t.accepted.take t.journal.localSeq) sampleRemote.contents) := by
  have hreach : Machine.Reach (step sampleConfig) Punctual (boot sampleRemote) _ :=
    reach_of_run .init (l := renameHalfway) rfl
  exact ⟨_, hreach, replay_ordered hreach⟩

/-- Halfway through a rename the store holds no prefix of the records, with or without the next one; and a request that
lands late leaves an older object in the store of a drained journal. -/
theorem rename_not_atomic :
    (∃ t, Machine.Reach (step sampleConfig) Punctual (boot sampleRemote) t ∧
      ¬∃ k ≤ t.journal.localSeq, ∀ p, t.remote.contents p = applied (t.accepted.take k) sampleRemote.contents p ∨
        ∃ s r, Logged t.accepted s r ∧ k < s ∧ r.fence = .immutableCreate ∧ r.effect p = some (t.remote.contents p)) ∧
    ∃ t, Machine.Reach (step sampleConfig) anyStep (boot sampleRemote) t ∧ t.journal.remoteSeq = t.journal.localSeq ∧
      t.remote.contents ["a"] = some [2] ∧ applied (t.accepted.take t.journal.localSeq) sampleRemote.contents ["a"] =
        some [3] := by
  constructor
  · obtain ⟨t, ht, hlocal, haccepted, ha, hb⟩ : ∃ t,
        run (guarded (step sampleConfig) Punctual) (boot sampleRemote) renameHalfway = some t ∧
          t.journal.localSeq = 1 ∧
          t.accepted = [⟨1, ["b"], .rename ["a"] .overwrite [1], ⟨1, 1⟩, none, .fence⟩] ∧
          t.remote.contents ["a"] = some [1] ∧ t.remote.contents ["b"] = some [1] := ⟨_, rfl, rfl, rfl, rfl, rfl⟩
    refine ⟨t, reach_of_run .init ht, ?_⟩
    rintro ⟨k, hk, hkeys⟩
    have hnoahead : ∀ s r, Logged t.accepted s r → r.fence ≠ .immutableCreate := by
      intro s r hr
      have hmem := hr.mem
      rw [haccepted, mem_singleton] at hmem
      rw [hmem]
      decide
    have hwhole : ∀ p, t.remote.contents p = applied (t.accepted.take k) sampleRemote.contents p := by
      intro p
      rcases hkeys p with heq | ⟨s, r, hlog, -, himm, -⟩
      · exact heq
      · exact absurd himm (hnoahead s r hlog)
    rw [haccepted] at hwhole
    obtain rfl | rfl : k = 0 ∨ k = 1 := by omega
    · have hb' := hwhole ["b"]
      rw [hb] at hb'
      revert hb'
      decide +kernel
    · have ha' := hwhole ["a"]
      rw [ha] at ha'
      revert ha'
      decide +kernel
  · exact ⟨_, reach_of_run .init (l := lateOverwrite) rfl, rfl, rfl, rfl⟩

end Tier

end ZeroFS.Writeback
