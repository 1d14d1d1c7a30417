import ZeroFS.Writeback.Replay

/-!
# The local stage against the remote stage

`Held` says what the overlay and the journal hold. The remote scheduler reads its window from the journal database,
where a batch shows before the journaler has settled it, so a record can be retired first and the journaler then fails
on it (`drain_fails_journaler`).
-/

namespace ZeroFS.Writeback

namespace Tier

open List Option Machine

structure Held (t : Tier) (removed observed : Nat) : Prop where
  versions : ∀ q, t.overlay.versions q = entriesOf observed q (t.accepted.drop removed)
  removed_le : removed ≤ t.journal.remoteSeq
  rows : ∃ d ≤ removed, t.journal.rows = (t.accepted.take t.journal.localSeq).drop d
  retired : ∀ run phase, t.scheduler.committing = some (run, phase) → phase = .retired ∨ phase = .pruned →
    t.scheduler.next + run.length ≤ removed + 1
  observed_le : observed ≤ t.journal.localSeq
  /-- The batch that is being settled, and what is published when there is none. -/
  settling : ∀ batch phase, t.settling = some (batch, phase) →
    t.watermark + batch.length = t.journal.localSeq ∧ batch = (t.accepted.take t.journal.localSeq).drop t.watermark ∧
      batch ≠ [] ∧ observed = if phase = .observed then t.journal.localSeq else t.watermark
  settled : t.settling = none → t.failed = false → t.watermark = t.journal.localSeq ∧ observed = t.journal.localSeq
  watermark_le : t.watermark ≤ observed

variable {cfg : Config} {P : Prop} {ns : Namespace} {t t' : Tier} {removed observed : Nat} {a : Action}
  {run : List Completion}

/-! ## The overlay and the journal along a run -/

theorem filter_above_drop {l : List MutationRecord} {j : Journal} (h : LogOk l j) (d through : Nat) :
    (l.drop d).filter (fun r => through < r.sequence) = l.drop (max d through) := by
  have hall := filter_drop h.sequence d through l.length
  rwa [take_length] at hall

theorem Held.frame (h : Held t removed observed) (hu : Uploads t t') : Held t' removed observed where
  versions := by rw [hu.overlay, hu.accepted]; exact h.versions
  removed_le := by rw [hu.journal]; exact h.removed_le
  rows := by rw [hu.journal, hu.accepted]; exact h.rows
  retired := by rw [hu.committing, hu.next]; exact h.retired
  observed_le := by rw [hu.journal]; exact h.observed_le
  settling := by rw [hu.settling, hu.watermark, hu.journal, hu.accepted]; exact h.settling
  settled := by rw [hu.settling, hu.watermark, hu.journal, hu.failed]; exact h.settled
  watermark_le := by rw [hu.watermark]; exact h.watermark_le

section

variable (h : Held t removed observed) (hok : Ok P ns t)
include h hok

theorem Held.install (cfg : Config) {path : Path} {kind : MutationKind} (predecessor : Option Nat)
    (hren : ∀ source mode b, kind = .rename source mode b → source ≠ path) :
    ∃ overlay, t.overlay.install (t.record cfg path kind predecessor) = some overlay ∧
      ∀ q, overlay.versions q = t.overlay.versions q ++
        (entryAt observed q (t.record cfg path kind predecessor)).toList := by
  have hlen := hok.log.localSeq_le
  have hobs := h.observed_le
  refine OverlayIndex.versions_install (fun q e he => ?_) (by simp only [record]; omega) hren
  rw [h.versions] at he
  have := (hok.log.logged (mem_of_mem_drop (mem_entriesOf he).1)).le
  simp only [record]
  omega

theorem Held.accept {path : Path} {kind : MutationKind} {predecessor : Option Nat}
    (hren : ∀ source mode b, kind = .rename source mode b → source ≠ path) {overlay : OverlayIndex}
    (ho : t.overlay.install (t.record cfg path kind predecessor) = some overlay) (claims : Nat) :
    Held { t with accepted := t.accepted ++ [t.record cfg path kind predecessor], overlay := overlay, claims := claims }
      removed observed := by
  have hlen := hok.log.localSeq_le
  have hremote := hok.log.remoteSeq_le
  have hrem := h.removed_le
  obtain ⟨overlay', ho', hversions⟩ := h.install hok cfg predecessor hren
  rw [ho] at ho'
  cases ho'
  have htake : ∀ l : List MutationRecord, (t.accepted ++ l).take t.journal.localSeq =
    t.accepted.take t.journal.localSeq :=
    fun l => take_append_of_le_length hlen
  refine { h with versions := fun q => ?_, rows := ?_, settling := ?_ }
  · rw [hversions, h.versions, drop_append_of_le_length (by omega), entriesOf_append, entriesOf_singleton]
  · rw [htake]; exact h.rows
  · rw [htake]; exact h.settling

theorem Held.commitLocal {n : Nat} (hidle : t.settling = none)
    (hgo : t.failed = false) (hne : t.nextBatch n ≠ []) : Held (t.commitLocal n) removed observed := by
  obtain ⟨hwatermark, hobserved⟩ := h.settled hidle hgo
  have hlocal := hok.log.localSeq_le
  have hgrow : t.accepted.take (t.journal.localSeq + (t.nextBatch n).length) =
      t.accepted.take t.journal.localSeq ++ t.nextBatch n := by
    unfold nextBatch
    rw [take_add]
    congr 1
    rw [take_eq_take_iff, length_take]
    omega
  have hlen : (t.accepted.take t.journal.localSeq).length = t.journal.localSeq := by
    rw [length_take, Nat.min_eq_left hlocal]
  refine { h with rows := ?_, observed_le := ?_, settling := ?_, settled := ?_ }
  · obtain ⟨d, hd, hrows⟩ := h.rows
    refine ⟨d, hd, ?_⟩
    have hrem := h.removed_le
    have hremote := hok.log.remoteSeq_le
    dsimp only [Tier.commitLocal, Journal.commitRecordBatch]
    rw [hgrow, hrows, drop_append_of_le_length (by omega)]
  · dsimp only [Tier.commitLocal, Journal.commitRecordBatch]; omega
  · rintro batch phase heq
    cases heq
    dsimp only [Tier.commitLocal, Journal.commitRecordBatch]
    refine ⟨by rw [hwatermark], ?_, hne, ?_⟩
    · rw [hgrow, hwatermark, drop_append_of_le_length hlen.ge, drop_of_length_le hlen.le, nil_append]
    · rw [if_neg (by decide), hobserved, hwatermark]
  · intro hnone; cases hnone

/-- Settlement finds the batch in the overlay unless its first record has been retired. -/
theorem Held.observe {batch : List MutationRecord}
    (hs : t.settling = some (batch, .transitioned)) :
    (removed ≤ t.watermark → ∃ overlay, t.overlay.markLocalBatch batch = (overlay, true) ∧
      Held { t with overlay := overlay, settling := some (batch, .observed) } removed t.journal.localSeq) ∧
    (t.watermark < removed → t.overlay.markLocalBatch batch = (t.overlay, false)) := by
  obtain ⟨hlen, hbatch, hne, hobserved⟩ := h.settling batch _ hs
  rw [if_neg (by decide)] at hobserved
  have hget : ∀ (i : Nat) (r : MutationRecord), batch[i]? = some r → t.accepted[t.watermark + i]? = some r := by
    intro i r hr
    rw [hbatch, getElem?_drop] at hr
    exact (of_getElem?_take hr).2
  constructor
  · intro hkept
    have hmem : ∀ r ∈ batch, r ∈ t.accepted.drop removed := by
      intro r hr
      obtain ⟨i, hi⟩ := getElem?_of_mem hr
      refine mem_of_getElem? (i := t.watermark + i - removed) ?_
      rw [getElem?_drop, show removed + (t.watermark + i - removed) = t.watermark + i by omega]
      exact hget i r hi
    have hseq : ∀ (i : Nat) (r : MutationRecord), batch[i]? = some r → r.sequence = observed + 1 + i := by
      intro i r hi
      have := hok.log.sequence _ r (hget i r hi)
      omega
    obtain ⟨overlay, ho, hversions⟩ :=
      OverlayIndex.versions_markLocalBatch (hok.log.sorted.drop (i := removed)) h.versions hmem hseq
    refine ⟨overlay, ho, { h with
      versions := fun q => ?_
      observed_le := le_rfl
      settling := ?_
      settled := fun hnone => by cases hnone
      watermark_le := by dsimp only; omega }⟩
    · rw [hversions, hobserved, hlen]
    rintro batch' phase heq
    cases heq
    exact ⟨hlen, hbatch, hne, rfl⟩
  · intro hgone
    obtain ⟨r, rest, rfl⟩ := exists_cons_of_ne_nil hne
    refine OverlayIndex.markLocalBatch_gone fun q e he hseq => ?_
    have hfirst := hok.log.sequence _ r (hget 0 r rfl)
    rw [h.versions] at he
    obtain ⟨i, hi⟩ := getElem?_of_mem (mem_entriesOf he).1
    rw [getElem?_drop] at hi
    have := hok.log.sequence _ _ hi
    omega

theorem Held.retire
    (hc : t.scheduler.committing = some (run, .marked)) :
    Held ({ t with overlay := t.overlay.removeRemotePrefix (t.scheduler.next + run.length - 1) }.setCommit run .retired)
      (max removed (t.scheduler.next + run.length - 1)) observed := by
  have hlast := hok.drain.committing run _ hc nofun
  have hrem := h.removed_le
  unfold setCommit
  refine { h with versions := fun q => ?_, removed_le := ?_, rows := ?_, retired := ?_ }
  · rw [OverlayIndex.versions_removeRemotePrefix, h.versions, OverlayIndex.filter_entriesOf, filter_above_drop hok.log]
  · dsimp only; omega
  · obtain ⟨d, hd, hrows⟩ := h.rows; exact ⟨d, by omega, hrows⟩
  · rintro run' phase heq -
    cases heq
    dsimp only
    omega

theorem Held.prune (hc : t.scheduler.committing = some (run, .retired)) :
    Held ({ t with journal := t.journal.removeRemotePrefix (t.scheduler.next + run.length - 1) }.setCommit run .pruned)
      removed observed := by
  have hretired := h.retired run _ hc (.inl rfl)
  unfold setCommit
  refine { h with rows := ?_, retired := ?_ }
  · obtain ⟨d, hd, hrows⟩ := h.rows
    refine ⟨max d (t.scheduler.next + run.length - 1), by omega, ?_⟩
    dsimp only [Journal.removeRemotePrefix]
    rw [hrows, filter_drop hok.log.sequence]
  · rintro run' phase heq -; cases heq; exact hretired

end

theorem Held.recovered {overlay : OverlayIndex} (hok : Ok P ns t)
    (ho : OverlayIndex.recover (t.journal.removeRemotePrefix t.journal.remoteSeq).rows = some overlay) :
    Held (t.recovered cfg overlay) t.journal.remoteSeq t.journal.localSeq := by
  obtain ⟨d, hd, hrows⟩ := hok.log.rows
  have hpruned : (t.journal.removeRemotePrefix t.journal.remoteSeq).rows =
      (t.accepted.take t.journal.localSeq).drop t.journal.remoteSeq := by
    dsimp only [Journal.removeRemotePrefix]
    rw [hrows, filter_drop hok.log.sequence, Nat.max_eq_right hd]
  have hmem : ∀ r ∈ (t.accepted.take t.journal.localSeq).drop t.journal.remoteSeq,
      r ∈ t.accepted ∧ r.sequence ≤ t.journal.localSeq := by
    intro r hr
    have hr' := mem_of_mem_drop hr
    refine ⟨mem_of_mem_take hr', ?_⟩
    obtain ⟨i, hi⟩ := getElem?_of_mem hr'
    obtain ⟨hlt, hi⟩ := of_getElem?_take hi
    have := hok.log.sequence i r hi
    omega
  obtain ⟨overlay', ho', hversions⟩ := OverlayIndex.versions_recover
    ((hok.log.sorted.take (i := t.journal.localSeq)).drop (i := t.journal.remoteSeq)) (fun r hr => (hmem r hr).2)
    (fun r hr => hok.log.rename r (hmem r hr).1)
  rw [hpruned, ho'] at ho
  cases ho
  refine ⟨hversions, le_rfl, ⟨t.journal.remoteSeq, le_rfl, ?_⟩, nofun, le_rfl, nofun, fun _ _ => ⟨rfl, rfl⟩, le_rfl⟩
  dsimp only [Tier.recovered]
  rw [hpruned]
  dsimp only [Journal.removeRemotePrefix]
  rw [take_take, Nat.min_self]

theorem Held.failSettlement (h : Held t removed observed) : Held t.failSettlement removed observed :=
  { h with settling := nofun, settled := nofun }

/-- **One step keeps the overlay and the journal in step with the accepted records.** -/
theorem step_held (h : Held t removed observed) (hok : Ok P ns t) (ht : t.step cfg a = some t') :
    ∃ removed' observed', Held t' removed' observed' := by
  cases step_stepped ht with
  | accept hr ho =>
    obtain ⟨path, kind, predecessor, rfl, hren, -⟩ := validate_record hr
    exact ⟨_, _, h.accept hok hren ho _⟩
  | commitLocal hgo hidle hne => exact ⟨_, _, h.commitLocal hok hidle hgo hne⟩
  | transition hs =>
    refine ⟨removed, observed, { h with settling := ?_, settled := nofun }⟩
    obtain ⟨hlen, hbatch, hne, hobserved⟩ := h.settling _ _ hs
    rintro batch phase heq
    cases heq
    exact ⟨hlen, hbatch, hne, hobserved⟩
  | transitionFails hs _ => exact ⟨removed, observed, { h.failSettlement with }⟩
  | observe hs ho =>
    rcases Nat.lt_or_ge t.watermark removed with hgone | hkept
    · rw [(h.observe hok hs).2 hgone] at ho; cases ho
    · obtain ⟨overlay, ho', hheld⟩ := (h.observe hok hs).1 hkept
      rw [ho] at ho'
      cases ho'
      exact ⟨_, _, hheld⟩
  | observeFails hs ho =>
    rcases Nat.lt_or_ge t.watermark removed with hgone | hkept
    · rw [(h.observe hok hs).2 hgone] at ho; cases ho; exact ⟨removed, observed, h.failSettlement⟩
    · obtain ⟨overlay, ho', -⟩ := (h.observe hok hs).1 hkept; rw [ho] at ho'; cases ho'
  | publishWatermark hs =>
    obtain ⟨hlen, hbatch, hne, hobserved⟩ := h.settling _ _ hs
    rw [if_pos rfl] at hobserved
    exact ⟨removed, observed, { h with
      settling := nofun
      settled := fun _ _ => ⟨hlen, hobserved⟩
      watermark_le := by dsimp only; omega }⟩
  | mark hc hj =>
    obtain ⟨-, versions, rfl⟩ := hok.mark_cases hc hj
    refine ⟨removed, observed, { h with
      removed_le := Nat.le_trans h.removed_le (Nat.le_add_right _ _)
      retired := ?_ }⟩
    rintro run phase heq (rfl | rfl) <;> cases heq
  | startCommit _ _ =>
    refine ⟨removed, observed, { h with retired := ?_ }⟩
    rintro run phase heq (rfl | rfl) <;> cases heq
  | publishTerminal _ => exact ⟨removed, observed, { h with }⟩
  | retire hc => exact ⟨_, _, h.retire hok hc⟩
  | prune hc => exact ⟨_, _, h.prune hok hc⟩
  | markFails _ | finish _ _ | finishFails _ _ => exact ⟨removed, observed, { h with retired := nofun }⟩
  | restart ho => exact ⟨_, _, Held.recovered hok ho⟩
  | attempt _ hat _ => exact ⟨_, _, h.frame hat.uploads⟩
  | _ => exact ⟨_, _, h.frame ((step_stepped ht).uploads rfl)⟩

theorem boot_held (remote : Remote) : Held (boot remote) 0 0 := by
  exact ⟨fun q => rfl, le_rfl, ⟨0, le_rfl, rfl⟩, nofun, le_rfl, nofun, fun _ _ => ⟨rfl, rfl⟩, le_rfl⟩

theorem Held.overlay_holds (h : Held t removed observed) (hok : Ok P ns t) {s : Nat} (hs : removed < s)
    (hle : s ≤ t.accepted.length) : t.overlay.holdsSequence s = true := by
  obtain ⟨r, hr⟩ := exists_logged (by omega) hle
  have hseq := hok.log.logged_sequence hr
  obtain ⟨i, rfl, hi⟩ := hr
  rw [← hseq]
  refine OverlayIndex.holdsSequence_of_mem h.versions (mem_of_getElem? (i := i - removed) ?_)
  rw [getElem?_drop, show removed + (i - removed) = i by omega, hi]

theorem Held.mutation (h : Held t removed observed) (hok : Ok P ns t) {s : Nat} {r : MutationRecord}
    (hr : Logged t.accepted s r) (hs : removed < s) (hle : s ≤ t.journal.localSeq) : t.journal.mutation s = some r := by
  have hseq := hok.log.logged_sequence hr
  have hrow : r ∈ t.journal.rows := by
    obtain ⟨d, hd, hrows⟩ := h.rows
    obtain ⟨i, rfl, hi⟩ := hr
    rw [hrows]
    refine mem_of_getElem? (i := i - d) ?_
    rw [getElem?_drop, show d + (i - d) = i by omega, getElem?_take_of_lt (by omega), hi]
  cases hfind : t.journal.mutation s with
  | none => exact absurd (find?_eq_none.1 hfind r hrow) (by simp [hseq])
  | some r' =>
    have hseq' : r'.sequence = s := by
      simpa using find?_some hfind
    have hr' := (hok.log.mem_rows (mem_of_find?_eq_some hfind)).1
    rw [hseq'] at hr'
    rw [hr'.unique hr]

/-! ## Settlement -/

/-- Every row that the scheduler loads has been published by the journaler. -/
def loadsPublished (cfg : Config) (t : Tier) : Action → Bool
  | .openWindow => (t.pendingWindow cfg).all fun r => r.sequence ≤ t.watermark
  | .complete _ => t.scheduler.retry || (t.pendingWindow cfg).all fun r => r.sequence ≤ t.watermark
  | _ => true

abbrev LoadsPublished (cfg : Config) (t : Tier) (a : Action) : Prop := loadsPublished cfg t a = true

/-- The scheduler has nothing above `n` in its window, in flight or completed. -/
structure Within (sch : Scheduler) (n : Nat) : Prop where
  window : ∀ r ∈ sch.window, r.sequence ≤ n
  active : ∀ s f, sch.active.get s = some f → s ≤ n
  completed : ∀ s c, sch.completed.get s = some c → s ≤ n

namespace Within

variable {n s : Nat} {r : MutationRecord} {f f' : Flight}

theorem setFlight (h : Within t.scheduler n) (hs : t.scheduler.active.get s = some (r, f)) :
    Within (t.setFlight s r f').scheduler n :=
  { h with
    active := fun s' f hf => by
      rcases Table.cases_put hf with ⟨heq, rfl⟩ | ⟨-, hf⟩
      · exact heq ▸ h.active s _ hs
      · exact h.active s' f hf }

theorem stop (h : Within t.scheduler n) : Within t.stop.scheduler n := { h with active := nofun }

theorem giveUp (h : Within t.scheduler n) : Within (t.giveUp s r f).scheduler n :=
  { h with active := fun s' f hf => h.active s' f (Table.of_del hf).2 }

theorem attempt (h : Within t.scheduler n) (hs : t.scheduler.active.get s = some (r, f)) (ha : Attempt t s r f t') :
    Within t'.scheduler n := by
  cases ha with
  | resume _ => exact h.setFlight hs
  | giveUp => exact h.giveUp
  | stop => exact h.stop

theorem loadSchedulerWindow (h : Within t.scheduler n) (hrows : ∀ r ∈ t.pendingWindow cfg, r.sequence ≤ n) :
    Within (t.loadSchedulerWindow cfg).scheduler n := by
  unfold Tier.loadSchedulerWindow
  split
  · exact { h with window := hrows }
  · exact h.stop

theorem completeRecord {eTag : Option Nat} (h : Within t.scheduler n) (hs : t.scheduler.active.get s = some (r, f))
    (hrows : t.scheduler.retry = false → ∀ r ∈ t.pendingWindow cfg, r.sequence ≤ n) :
    Within (t.completeRecord cfg s r eTag).scheduler n := by
  unfold Tier.completeRecord
  dsimp only
  have hdone : Within (t.scheduler.complete s (r, eTag)) n :=
    { h with
      active := fun s' f hf => h.active s' f (Table.of_del hf).2
      completed := fun s' c hc => by
        rcases Table.cases_put hc with ⟨heq, -⟩ | ⟨-, hc⟩
        · exact heq ▸ h.active s _ hs
        · exact h.completed s' c hc }
  split
  · exact hdone
  · rename_i hretry; exact loadSchedulerWindow hdone (hrows (Bool.eq_false_iff.2 hretry))

theorem dispatch (h : Within t.scheduler n) (ht : t.step cfg .dispatch = some t') : Within t'.scheduler n := by
  obtain ⟨-, rfl⟩ := of_guard_not ht
  refine { h with active := fun s f hf => ?_ }
  rcases get_foldl_start hf with hold | ⟨r, hr, rfl, -⟩
  · exact h.active s f hold
  · exact h.window r (mem_collectPipelineBatch hr).1

/-- A step of the window or of an attempt takes up published rows only. -/
theorem uploads (h : Within t.scheduler t.watermark) (hc : LoadsPublished cfg t a) (ha : uploading a = true)
    (ht : t.step cfg a = some t') : Within t'.scheduler t'.watermark := by
  rw [((step_stepped ht).uploads ha).watermark]
  cases step_stepped ht with
  | openWindow =>
    have hrows : ∀ r ∈ t.pendingWindow cfg, r.sequence ≤ t.watermark := by
      simpa [LoadsPublished, loadsPublished] using hc
    exact loadSchedulerWindow { h with } hrows
  | dispatch ht _ => exact h.dispatch ht
  | attempt hs hat _ => exact h.attempt hs hat
  | putObject hs | deleteObject hs => exact h.setFlight hs
  | complete hs =>
    refine h.completeRecord hs fun hretry => ?_
    simpa [LoadsPublished, loadsPublished, hretry] using hc
  | land => exact h
  | terminate => exact h.stop
  | _ => cases ha

end Within

/-- Nothing that the scheduler takes up is unsettled, only a stopped scheduler poisons the admission, and the
reservations are those of the records not yet released. -/
structure Settled (cfg : Config) (t : Tier) : Prop where
  within : Within t.scheduler t.watermark
  published : t.journal.remoteSeq ≤ t.watermark
  failed : t.failed = true → t.scheduler.stopped = true
  poisoned : t.poisoned = true → t.scheduler.stopped = true
  claims : t.claims = ((t.accepted.drop (t.scheduler.next - 1)).map cfg.charge).sum
  committing : ∀ run phase, t.scheduler.committing = some (run, phase) →
    run.map (·.1) = (t.accepted.drop (t.scheduler.next - 1)).take run.length

theorem Settled.frame (h : Settled cfg t) (hu : Uploads t t') (hw : Within t'.scheduler t'.watermark) :
    Settled cfg t' where
  within := hw
  published := by rw [hu.journal, hu.watermark]; exact h.published
  failed := by rw [hu.failed]; exact fun hf => hu.stopped (h.failed hf)
  poisoned := by rw [hu.poisoned]; exact fun hp => hu.stopped (h.poisoned hp)
  claims := by rw [hu.claims, hu.accepted, hu.next]; exact h.claims
  committing := by rw [hu.committing, hu.accepted, hu.next]; exact h.committing

theorem releaseRun_poisoned (fresh : Bool) (claims : Nat) :
    releaseRun cfg fresh run claims true = (claims, true, run.isEmpty) := by
  cases run <;> rfl

/-- The reservations of the first records of a list are released out of those of the whole list. -/
theorem releaseRun_eq {l : List MutationRecord} (h : run.map (·.1) = l.take run.length) (fresh : Bool) :
    releaseRun cfg fresh run ((l.map cfg.charge).sum) false =
      (((l.drop run.length).map cfg.charge).sum, false, true) := by
  induction run generalizing l with
  | nil => rfl
  | cons c run ih =>
    cases l with
    | nil => cases h
    | cons r l =>
      simp only [map_cons, length_cons, take_succ_cons, cons.injEq] at h
      obtain ⟨hc, hrest⟩ := h
      unfold releaseRun
      rw [if_neg Bool.false_ne_true, map_cons, sum_cons, hc, if_pos (Nat.le_add_right _ _), Nat.add_sub_cancel_left]
      exact ih hrest

/-- The records of a run from the frontier. -/
theorem Ok.readyRun_records (hok : Ok P ns t)
    (hrun : ∀ (i : Nat) c, run[i]? = some c → t.scheduler.completed.get (t.scheduler.next + i) = some c) :
    run.map (·.1) = (t.accepted.drop (t.scheduler.next - 1)).take run.length := by
  refine ext_getElem? fun i => ?_
  rw [getElem?_map, getElem?_take]
  split
  · rename_i hi
    obtain ⟨-, -, i', hi', hr⟩ := hok.drain.completed _ _ (hrun i _ (getElem?_eq_getElem hi))
    have hpos := hok.drain.next_pos
    rw [getElem?_drop, show t.scheduler.next - 1 + i = i' by omega, hr, getElem?_eq_getElem hi]
    rfl
  · rename_i hi; rw [getElem?_eq_none (Nat.le_of_not_lt hi)]; rfl

/-- No reservation of a batch that is being settled has been released. -/
theorem Settled.charge_le (h : Settled cfg t) (hok : Ok P ns t) (hheld : Held t removed observed)
    {batch : List MutationRecord} {phase : SettlePhase} (hs : t.settling = some (batch, phase)) :
    ∀ r ∈ batch, cfg.charge r ≤ t.claims := by
  obtain ⟨-, hbatch, -, -⟩ := hheld.settling batch _ hs
  intro r hr
  rw [h.claims]
  refine le_sum_of_mem (mem_map_of_mem ?_)
  have hnext := hok.drain.next_le
  have hpublished := h.published
  rw [hbatch] at hr
  have hr' : r ∈ t.accepted.drop t.watermark := mem_of_mem_take (by rwa [drop_take] at hr)
  exact (drop_sublist_drop_left t.accepted (show t.scheduler.next - 1 ≤ t.watermark by omega)).mem hr'

/-- Another phase of the same commit. -/
theorem Settled.records {phase phase' : CommitPhase} (h : Settled cfg t)
    (hc : t.scheduler.committing = some (run, phase)) :
    ∀ run' phase'', some (run, phase') = some (run', phase'') →
      run'.map (·.1) = (t.accepted.drop (t.scheduler.next - 1)).take run'.length := by
  rintro run' phase'' heq
  cases heq
  exact h.committing run phase hc

theorem Settled.accept (h : Settled cfg t) (hok : Ok P ns t) (r : MutationRecord) (overlay : OverlayIndex) :
    Settled cfg { t with accepted := t.accepted ++ [r], overlay := overlay, claims := t.claims + cfg.charge r } := by
  have hnext := hok.drain.next_le
  have hlocal := hok.log.localSeq_le
  have hremote := hok.log.remoteSeq_le
  refine { h with claims := ?_, committing := fun run phase heq => ?_ }
  · dsimp only; rw [drop_append_of_le_length (by omega), map_append, sum_append, h.claims]; rfl
  have hrun := h.committing run phase heq
  have hlen := congrArg length hrun
  rw [length_map, length_take] at hlen
  dsimp only
  rw [drop_append_of_le_length (by omega), take_append_of_le_length (by omega), hrun]

theorem Settled.mark {j : Journal} (h : Settled cfg t) (hok : Ok P ns t)
    (hc : t.scheduler.committing = some (run, .ready)) (hj : t.journal.markRemoteBatch run = some j) :
    Settled cfg ({ t with journal := j }.setCommit run .marked) := by
  obtain ⟨hrun, versions, rfl⟩ := hok.mark_cases hc hj
  refine { h with within := { h.within with }, published := ?_, committing := h.records hc }
  -- the last record of the run is completed, and so published
  have hfrontier := hrun.next
  have hpos := hrun.pos
  obtain ⟨c, hlast⟩ := hrun.isSome (i := t.scheduler.next + run.length - 1) (by omega) (by omega)
  have := h.within.completed _ _ hlast
  show t.journal.remoteSeq + run.length ≤ t.watermark
  omega

/-- The release of a committed run fails only when the scheduler has stopped, and takes nothing then. -/
theorem Settled.finish {fresh poisoned ok : Bool} {claims : Nat} (h : Settled cfg t) (hok : Ok P ns t)
    (hc : t.scheduler.committing = some (run, .pruned))
    (hrel : releaseRun cfg fresh run t.claims t.poisoned = (claims, poisoned, ok)) :
    Settled cfg (if ok then { t with claims := claims, poisoned := poisoned }.finishRun run
      else { t with claims := claims, poisoned := poisoned }.failCommit) := by
  have hpos := hok.drain.next_pos
  have hwithin (m : Nat) : Within (t.scheduler.advance m) t.watermark :=
    { h.within with completed := fun s c hs => h.within.completed s c (of_get_advance hs).2 }
  have hfinish : claims = (((t.accepted.drop (t.scheduler.next - 1)).drop run.length).map cfg.charge).sum →
      (poisoned = true → t.scheduler.stopped = true) →
      Settled cfg ({ t with claims := claims, poisoned := poisoned }.finishRun run) := by
    intro hclaims hpoison
    refine { h with within := hwithin _, poisoned := hpoison, claims := ?_, committing := nofun }
    rw [drop_drop, show t.scheduler.next - 1 + run.length = t.scheduler.next + run.length - 1 by omega] at hclaims
    exact hclaims
  cases hp : t.poisoned with
  | false =>
    rw [h.claims, hp, releaseRun_eq (h.committing run _ hc)] at hrel
    cases hrel
    exact hfinish rfl nofun
  | true =>
    rw [hp, releaseRun_poisoned] at hrel
    cases hrel
    cases run with
    | nil => exact hfinish h.claims fun _ => h.poisoned hp
    | cons c run =>
      exact { h with
        within := { h.within with active := nofun }, failed := fun _ => rfl, poisoned := fun _ => rfl,
          committing := nofun }

theorem Settled.recovered (hok : Ok P ns t) (overlay : OverlayIndex) : Settled cfg (t.recovered cfg overlay) := by
  refine ⟨⟨nofun, nofun, nofun⟩, hok.log.remoteSeq_le, nofun, nofun, ?_, nofun⟩
  obtain ⟨d, hd, hrows⟩ := hok.log.rows
  dsimp only [Tier.recovered, Journal.removeRemotePrefix]
  rw [hrows, filter_drop hok.log.sequence, Nat.max_eq_right hd]
  rfl

theorem step_settled (h : Settled cfg t) (hok : Ok P ns t) (hheld : Held t removed observed)
    (hc : LoadsPublished cfg t a) (ht : t.step cfg a = some t') : Settled cfg t' := by
  cases step_stepped ht with
  | accept hr ho => exact h.accept hok _ _
  | commitLocal _ _ _ | transition _ | observe _ _ => exact { h with }
  | transitionFails hs hfail =>
    have hstopped := h.poisoned (Bool.not_eq_false _ ▸ fun hp => hfail ⟨hp, h.charge_le hok hheld hs⟩)
    exact { h with failed := fun _ => hstopped, poisoned := fun _ => hstopped }
  | observeFails hs ho =>
    have hpublished := h.published
    have hrem := hheld.removed_le
    obtain ⟨overlay, ho', -⟩ := (hheld.observe hok hs).1 (by omega)
    rw [ho] at ho'
    cases ho'
  | publishWatermark hs =>
    have hle := Nat.le_add_right t.watermark
    exact { h with
      within := ⟨fun r hr => (h.within.window r hr).trans (hle _), fun s f hf => (h.within.active s f hf).trans (hle _),
        fun s c hs => (h.within.completed s c hs).trans (hle _)⟩
      published := h.published.trans (hle _) }
  | publishTerminal hstopped => exact { h with poisoned := fun _ => hstopped }
  | startCommit _ _ =>
    refine { h with within := { h.within with }, committing := ?_ }
    rintro run phase heq
    cases heq
    exact hok.readyRun_records fun i c hi => readyRun_get hi
  | mark hrun hj => exact h.mark hok hrun hj
  | markFails _ =>
    exact { h with
      within := { h.within with active := nofun }, failed := fun _ => rfl, poisoned := fun _ => rfl,
        committing := nofun }
  | retire hrun | prune hrun => exact { h with within := { h.within with }, committing := h.records hrun }
  | finish hrun hrel | finishFails hrun hrel => exact h.finish hok hrun hrel
  | restart _ => exact .recovered hok _
  | attempt _ hat ha => exact h.frame hat.uploads (h.within.uploads hc ha ht)
  | _ => exact h.frame ((step_stepped ht).uploads rfl) (h.within.uploads hc rfl ht)

/-- What a run keeps when every row that is loaded is published. -/
def Kept (cfg : Config) (ns : Namespace) (t : Tier) : Prop :=
  Ok False ns t ∧ Settled cfg t ∧ ∃ removed observed, Held t removed observed

theorem reach_kept {remote : Remote} (h : Machine.Reach (step cfg) (LoadsPublished cfg) (boot remote) t) :
    Kept cfg remote.contents t := by
  refine h.invariant ⟨boot_ok False remote, ⟨⟨nofun, nofun, nofun⟩, le_rfl, nofun, nofun, rfl, nofun⟩, 0, 0,
    boot_held remote⟩ ?_
  rintro s a s' ⟨hok, hsettled, removed, observed, hheld⟩ hc hs
  exact ⟨step_ok hok (fun hP => hP.elim) hs, step_settled hsettled hok hheld hc hs, step_held hheld hok hs⟩

/-- **When every row that the scheduler loads is published, the drain leaves the local stage alone**: a settlement fails
only when the scheduler has stopped with a terminal error, the overlay has every record that is not published yet, and
the journal has those of them that are committed. -/
theorem drain_keeps_unsettled {remote : Remote} (h : Machine.Reach (step cfg) (LoadsPublished cfg) (boot remote) t) :
    (t.failed = true → t.scheduler.stopped = true) ∧
      (∀ s, t.watermark < s → s ≤ t.accepted.length → t.overlay.holdsSequence s = true) ∧
      ∀ s r, Logged t.accepted s r → t.watermark < s → s ≤ t.journal.localSeq → t.journal.mutation s = some r := by
  obtain ⟨hok, hsettled, removed, observed, hheld⟩ := reach_kept h
  have hremoved : removed ≤ t.watermark := Nat.le_trans hheld.removed_le hsettled.published
  exact ⟨hsettled.failed, fun s hs hle => hheld.overlay_holds hok (by omega) hle,
    fun s r hr hs hle => hheld.mutation hok hr (by omega) hle⟩

/-- Two puts are settled and drained, and a third is committed while the second is marked and retired. -/
def drainBehind : List Action :=
  [.accept (.put ["a"] [2] .overwrite false), .accept (.put ["b"] [3] .overwrite false)] ++ publish 2 ++
    [.accept (.put ["c"] [4] .overwrite false)] ++ drainPut 1 ++
    [.dispatch, .prepare 2, .effect 2, .complete 2, .commitLocal 1, .startCommit, .mark, .retire, .prune, .finishCommit]

theorem drain_keeps_unsettled_behind :
    ∃ t, Machine.Reach (step sampleConfig) (LoadsPublished sampleConfig) (boot sampleRemote) t ∧
    t.watermark = 2 ∧ (t.failed = true → t.scheduler.stopped = true) ∧
      (∀ s, t.watermark < s → s ≤ t.accepted.length → t.overlay.holdsSequence s = true) ∧
      ∀ s r, Logged t.accepted s r → t.watermark < s → s ≤ t.journal.localSeq → t.journal.mutation s = some r := by
  have hreach : Machine.Reach (step sampleConfig) (LoadsPublished sampleConfig) (boot sampleRemote) _ :=
    reach_of_run .init (l := drainBehind) rfl
  exact ⟨_, hreach, rfl, drain_keeps_unsettled hreach⟩

/-- The second put is committed while the first is settled; the scheduler finds both in the journal, drains them, and
retires the second before the journaler gets to its entry. -/
def drainAhead : List Action :=
  [.accept (.put ["a"] [2] .overwrite false), .accept (.put ["b"] [3] .overwrite false), .commitLocal 1,
    .transitionTokens, .observe, .publishWatermark, .commitLocal 1, .transitionTokens, .openWindow, .dispatch] ++
    drainPut 1 ++ [.dispatch] ++ drainPut 2 ++ [.observe]

theorem drain_fails_journaler : ∃ t, Machine.Reach (step sampleConfig) anyStep (boot sampleRemote) t ∧
    t.failed = true ∧ t.accepted.length = 2 ∧ t.watermark = 1 ∧ t.journal.localSeq = 2 ∧
    t.overlay.holdsSequence 2 = false ∧
      t.journal.mutation 2 = none := by
  exact ⟨_, reach_of_run .init (l := drainAhead) rfl, rfl, rfl, rfl, rfl, rfl, rfl⟩

end Tier

end ZeroFS.Writeback
