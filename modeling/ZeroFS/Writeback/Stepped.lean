import ZeroFS.Writeback.Tier

/-!
# What a step of the tier does

`Stepped` has one constructor for each way a step can go, with what was checked on the way; the invariants are proved by
cases on it. The steps of the window and of the attempts keep to their own part of the tier (`Uploads`).
-/

namespace ZeroFS.Writeback.Tier

open Option

/-- The two tiers differ in the attempts, in the window and at the remote store only. -/
structure Uploads (t t' : Tier) : Prop where
  accepted : t'.accepted = t.accepted
  overlay : t'.overlay = t.overlay
  journal : t'.journal = t.journal
  settling : t'.settling = t.settling
  watermark : t'.watermark = t.watermark
  failed : t'.failed = t.failed
  claims : t'.claims = t.claims
  poisoned : t'.poisoned = t.poisoned
  next : t'.scheduler.next = t.scheduler.next
  committing : t'.scheduler.committing = t.scheduler.committing
  stopped : t.scheduler.stopped = true → t'.scheduler.stopped = true

variable {cfg : Config} {t t' u : Tier} {a : Action} {s : Nat} {r : MutationRecord} {f : Flight}

theorem Uploads.of_scheduler {sch : Scheduler} {remote : Remote} {late : List RemoteRequest}
    (hnext : sch.next = t.scheduler.next) (hcommitting : sch.committing = t.scheduler.committing)
    (hstopped : t.scheduler.stopped = true → sch.stopped = true) :
    Uploads t { t with scheduler := sch, remote := remote, late := late } :=
  ⟨rfl, rfl, rfl, rfl, rfl, rfl, rfl, rfl, hnext, hcommitting, hstopped⟩

theorem Uploads.trans (h : Uploads t t') (h' : Uploads t' u) : Uploads t u :=
  ⟨h'.accepted.trans h.accepted, h'.overlay.trans h.overlay, h'.journal.trans h.journal, h'.settling.trans h.settling,
    h'.watermark.trans h.watermark, h'.failed.trans h.failed, h'.claims.trans h.claims, h'.poisoned.trans h.poisoned,
    h'.next.trans h.next, h'.committing.trans h.committing, fun hs => h'.stopped (h.stopped hs)⟩

theorem uploads_stop (t : Tier) : Uploads t t.stop := .of_scheduler rfl rfl fun _ => rfl

theorem uploads_loadSchedulerWindow (cfg : Config) (t : Tier) : Uploads t (t.loadSchedulerWindow cfg) := by
  unfold loadSchedulerWindow
  split
  · exact .of_scheduler rfl rfl id
  · exact uploads_stop t

theorem uploads_completeRecord (cfg : Config) (t : Tier) (s : Nat) (r : MutationRecord) (eTag : Option Nat) :
    Uploads t (t.completeRecord cfg s r eTag) := by
  unfold completeRecord
  dsimp only
  split
  · exact .of_scheduler rfl rfl id
  · refine Uploads.trans ?_ (uploads_loadSchedulerWindow cfg _); exact .of_scheduler rfl rfl id

/-! ## Attempts -/

/-- How an attempt goes on without an effect on the store. -/
inductive Resumed (t : Tier) (r : MutationRecord) : Flight → Flight → Prop
  | delete : r.kind = .delete → Resumed t r .start (.remove r.path none)
  | put (mode : RemoteMode) : r.kind ≠ .delete → Resumed t r .start (.put mode)
  | check : r.kind ≠ .delete → Resumed t r .start .verify
  | refused {mode : RemoteMode} : Resumed t r (.put mode) .verify
  | found {tag : Nat} : t.remote.contents r.path = r.payload → Resumed t r .verify (.published r tag)

/-- An attempt goes on, is given up, or ends in a terminal error. -/
inductive Attempt (t : Tier) (s : Nat) (r : MutationRecord) (f : Flight) : Tier → Prop
  | resume {f' : Flight} : Resumed t r f f' → Attempt t s r f (t.setFlight s r f')
  | giveUp : Attempt t s r f (t.giveUp s r f)
  | stop : Attempt t s r f t.stop

theorem attempt_prepareRecord (cfg : Config) (t : Tier) (s : Nat) (r : MutationRecord) :
    Attempt t s r .start (t.prepareRecord cfg s r) := by
  unfold prepareRecord
  split
  · exact .resume (.delete (by assumption))
  rename_i hk
  repeat' split
  all_goals first
    | exact .resume (.put _ hk)
    | exact .resume (.check hk)
    | exact .giveUp
    | exact .stop

theorem attempt_verifyExisting (h : t.verifyExisting s r = some t') : Attempt t s r .verify t' := by
  obtain ⟨o, ho, rfl⟩ := map_eq_some_iff.1 h
  split
  · rename_i heq
    refine .resume (.found ?_)
    unfold Remote.contents
    rw [ho, map_some, heq]
  · exact .stop

theorem Attempt.uploads (h : Attempt t s r f t') : Uploads t t' := by
  cases h with
  | resume _ | giveUp => exact .of_scheduler rfl rfl id
  | stop => exact uploads_stop t

/-! ## Steps -/

/-- The steps of the window and of the attempts. -/
def uploading : Action → Bool
  | .openWindow | .dispatch | .prepare _ | .effect _ | .verify _ | .complete _ | .fail _ | .land _ | .terminate => true
  | _ => false

/-- What a step does, with the guards that it has passed. -/
inductive Stepped (cfg : Config) (t : Tier) : Action → Tier → Prop
  | accept {request : Request} {reserved : Bool} {r : MutationRecord} {overlay : OverlayIndex} :
      t.validate cfg request = .ok r → t.overlay.install r = some overlay → Stepped cfg t (.accept request reserved)
        { t with accepted := t.accepted ++ [r], overlay := overlay, claims := t.claims + cfg.charge r }
  | commitLocal {n : Nat} : t.failed = false → t.settling = none → t.nextBatch n ≠ [] →
      Stepped cfg t (.commitLocal n) (t.commitLocal n)
  | transition {batch : List MutationRecord} : t.settling = some (batch, .committed) →
      Stepped cfg t .transitionTokens { t with settling := some (batch, .transitioned) }
  | transitionFails {batch : List MutationRecord} : t.settling = some (batch, .committed) →
      ¬(t.poisoned = false ∧ ∀ r ∈ batch, cfg.charge r ≤ t.claims) →
      Stepped cfg t .transitionTokens { t.failSettlement with poisoned := true }
  | observe {batch : List MutationRecord} {overlay : OverlayIndex} : t.settling = some (batch, .transitioned) →
      t.overlay.markLocalBatch batch = (overlay, true) →
      Stepped cfg t .observe { t with overlay := overlay, settling := some (batch, .observed) }
  | observeFails {batch : List MutationRecord} {overlay : OverlayIndex} : t.settling = some (batch, .transitioned) →
      t.overlay.markLocalBatch batch = (overlay, false) →
      Stepped cfg t .observe { t.failSettlement with overlay := overlay }
  | publishWatermark {batch : List MutationRecord} : t.settling = some (batch, .observed) →
      Stepped cfg t .publishWatermark { t with settling := none, watermark := t.watermark + batch.length }
  | openWindow : Stepped cfg t .openWindow
      ({ t with scheduler := { t.scheduler with retry := false } }.loadSchedulerWindow cfg)
  | dispatch {t' : Tier} : t.step cfg .dispatch = some t' → Uploads t t' → Stepped cfg t .dispatch t'
  | attempt {a : Action} {s : Nat} {r : MutationRecord} {f : Flight}
      {t' : Tier} : t.scheduler.active.get s = some (r, f) →
      Attempt t s r f t' → uploading a = true → Stepped cfg t a t'
  | putObject {s : Nat} {r : MutationRecord} {mode : RemoteMode} : t.scheduler.active.get s = some (r, .put mode) →
      Stepped cfg t (.effect s)
        ({ t with remote := t.remote.put r.path (r.payload.getD []) }.setFlight s r (.published r t.remote.issued))
  | deleteObject {s : Nat} {r : MutationRecord} {target : Path} {eTag : Option Nat} :
      t.scheduler.active.get s = some (r, .remove target eTag) →
      Stepped cfg t (.effect s) ({ t with remote := t.remote.delete target }.setFlight s r (.done eTag))
  | complete {s : Nat} {r : MutationRecord} {eTag : Option Nat} : t.scheduler.active.get s = some (r, .done eTag) →
      Stepped cfg t (.complete s) (t.completeRecord cfg s r eTag)
  | land {i : Nat} {request : RemoteRequest} :
      Stepped cfg t (.land i) { t with remote := t.remote.serve request, late := t.late.eraseIdx i }
  | terminate : Stepped cfg t .terminate t.stop
  | publishTerminal : t.scheduler.stopped = true → Stepped cfg t .publishTerminal { t with poisoned := true }
  | startCommit : t.scheduler.stopped = false → t.scheduler.committing = none →
      Stepped cfg t .startCommit (t.setCommit t.nextRun .ready)
  | mark {run : List Completion} {j : Journal} : t.scheduler.committing = some (run, .ready) →
      t.journal.markRemoteBatch run = some j → Stepped cfg t .mark ({ t with journal := j }.setCommit run .marked)
  | markFails {run : List Completion} : t.scheduler.committing = some (run, .ready) → Stepped cfg t .mark t.failCommit
  | retire {run : List Completion} : t.scheduler.committing = some (run, .marked) → Stepped cfg t .retire
      ({ t with overlay := t.overlay.removeRemotePrefix (t.scheduler.next + run.length - 1) }.setCommit run .retired)
  | prune {run : List Completion} : t.scheduler.committing = some (run, .retired) → Stepped cfg t .prune
      ({ t with journal := t.journal.removeRemotePrefix (t.scheduler.next + run.length - 1) }.setCommit run .pruned)
  | finish {run : List Completion} {fresh poisoned : Bool}
      {claims : Nat} : t.scheduler.committing = some (run, .pruned) →
      releaseRun cfg fresh run t.claims t.poisoned = (claims, poisoned, true) →
      Stepped cfg t (.finishCommit fresh) ({ t with claims := claims, poisoned := poisoned }.finishRun run)
  | finishFails {run : List Completion} {fresh poisoned : Bool}
      {claims : Nat} : t.scheduler.committing = some (run, .pruned) →
      releaseRun cfg fresh run t.claims t.poisoned = (claims, poisoned, false) →
      Stepped cfg t (.finishCommit fresh) { t with claims := claims, poisoned := poisoned }.failCommit
  | restart {overlay : OverlayIndex} :
      OverlayIndex.recover (t.journal.removeRemotePrefix t.journal.remoteSeq).rows = some overlay →
      Stepped cfg t .restart (t.recovered cfg overlay)

theorem stepped_transition (ht : t.step cfg .transitionTokens = some t') : Stepped cfg t .transitionTokens t' := by
  unfold step at ht
  dsimp only at ht
  split at ht
  · rename_i hs
    split at ht
    · cases ht; exact .transition hs
    · rename_i hfail; cases ht; exact .transitionFails hs (by simpa using hfail)
  · cases ht

theorem stepped_observe (ht : t.step cfg .observe = some t') : Stepped cfg t .observe t' := by
  unfold step at ht
  dsimp only at ht
  split at ht
  · rename_i hs
    split at ht
    · rename_i ho; cases ht; exact .observe hs ho
    · rename_i ho; cases ht; exact .observeFails hs ho
  · cases ht

theorem stepped_mark (ht : t.step cfg .mark = some t') : Stepped cfg t .mark t' := by
  unfold step at ht
  dsimp only at ht
  split at ht
  · rename_i hc
    split at ht
    · rename_i hj; cases ht; exact .mark hc hj
    · cases ht; exact .markFails hc
  · cases ht

theorem stepped_finishCommit {fresh : Bool} (ht : t.step cfg (.finishCommit fresh) = some t') :
    Stepped cfg t (.finishCommit fresh) t' := by
  unfold step at ht
  dsimp only at ht
  split at ht
  · rename_i hc
    split at ht
    · rename_i hrel; cases ht; exact .finish hc hrel
    · rename_i hrel; cases ht; exact .finishFails hc hrel
  · cases ht

/-- **Every step goes one of these ways.** -/
theorem step_stepped (ht : t.step cfg a = some t') : Stepped cfg t a t' := by
  cases a with
  | accept request reserved =>
    unfold step at ht
    dsimp only at ht
    split at ht
    · cases ht
    split at ht
    · rename_i hr; obtain ⟨overlay, ho, rfl⟩ := map_eq_some_iff.1 ht; exact .accept hr ho
    · cases ht
  | commitLocal n =>
    obtain ⟨hgo, rfl⟩ := Machine.of_guard_not ht
    simp only [not_or] at hgo
    exact .commitLocal (by simpa using hgo.1) (by simpa using hgo.2.1) hgo.2.2
  | transitionTokens => exact stepped_transition ht
  | observe => exact stepped_observe ht
  | publishWatermark =>
    unfold step at ht
    dsimp only at ht
    split at ht <;> cases ht
    exact .publishWatermark (by assumption)
  | openWindow => obtain ⟨-, rfl⟩ := Machine.of_guard_not ht; exact .openWindow
  | dispatch =>
    refine .dispatch ht ?_
    obtain ⟨-, rfl⟩ := Machine.of_guard_not ht
    exact .of_scheduler rfl rfl id
  | prepare s =>
    unfold step at ht
    dsimp only at ht
    split at ht <;> cases ht
    exact .attempt (by assumption) (attempt_prepareRecord ..) rfl
  | effect s =>
    obtain ⟨⟨r, f⟩, hs, ht⟩ := bind_eq_some_iff.1 ht
    cases f with
    | put mode =>
      dsimp only [takeEffect] at ht
      split at ht <;> cases ht
      · exact .putObject hs
      · exact .attempt hs (.resume .refused) rfl
    | remove target eTag => cases ht; exact .deleteObject hs
    | _ => cases ht
  | verify s =>
    unfold step at ht
    dsimp only at ht
    split at ht
    · exact .attempt (by assumption) (attempt_verifyExisting ht) rfl
    · cases ht
  | complete s =>
    unfold step at ht
    dsimp only at ht
    split at ht <;> cases ht
    exact .complete (by assumption)
  | fail s => obtain ⟨f, hs, rfl⟩ := map_eq_some_iff.1 ht; exact .attempt hs .giveUp rfl
  | land i => obtain ⟨request, -, rfl⟩ := map_eq_some_iff.1 ht; exact .land
  | terminate => cases ht; exact .terminate
  | publishTerminal => obtain ⟨hgo, rfl⟩ := Machine.of_guard ht; exact .publishTerminal hgo.1
  | startCommit =>
    obtain ⟨hgo, rfl⟩ := Machine.of_guard_not ht
    simp only [not_or] at hgo
    exact .startCommit (by simpa using hgo.1) (by simpa using hgo.2.1)
  | mark => exact stepped_mark ht
  | retire =>
    unfold step at ht
    dsimp only at ht
    split at ht <;> cases ht
    exact .retire (by assumption)
  | prune =>
    unfold step at ht
    dsimp only at ht
    split at ht <;> cases ht
    exact .prune (by assumption)
  | finishCommit fresh => exact stepped_finishCommit ht
  | restart => obtain ⟨overlay, ho, rfl⟩ := map_eq_some_iff.1 ht; exact .restart ho

theorem Stepped.uploads (h : Stepped cfg t a t') (ha : uploading a = true) : Uploads t t' := by
  cases h with
  | openWindow =>
    refine Uploads.trans ?_ (uploads_loadSchedulerWindow cfg _)
    exact .of_scheduler rfl rfl id
  | dispatch _ hu => exact hu
  | attempt _ hat _ => exact hat.uploads
  | complete _ => exact uploads_completeRecord cfg t _ _ _
  | putObject _ | deleteObject _ | land => exact .of_scheduler rfl rfl id
  | terminate => exact uploads_stop t
  | _ => cases ha

end ZeroFS.Writeback.Tier
