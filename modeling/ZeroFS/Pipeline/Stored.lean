import ZeroFS.Lib.Updates
import ZeroFS.Pipeline.Ordered

/-!
# Debits are the stored locations

Until a transaction is applied no one else touches its extents, so each debit still is the stored location of its
extent. The location cache agrees with the committed locations.
-/

namespace ZeroFS

open Updates List

namespace Sys

def editsOf (s : Sys) (tids : List Nat) : List Edit := (s.txnsOf tids).flatMap Txn.edits

variable {sealedLen : Extent → Nat} {s s' : Sys} {a : Action}

theorem mem_editsOf {tids : List Nat} {e : Edit} :
    e ∈ s.editsOf tids ↔ ∃ t ∈ tids, ∃ c, s.At t c ∧ e ∈ c.txn.edits := by
  unfold editsOf txnsOf
  simp only [mem_flatMap, mem_filterMap, Option.map_eq_some_iff]
  constructor
  · rintro ⟨txn, ⟨t, ht, c, hc, rfl⟩, he⟩; exact ⟨t, ht, c, hc, he⟩
  · rintro ⟨t, ht, c, hc, he⟩; exact ⟨c.txn, ⟨t, ht, c, hc, rfl⟩, he⟩

theorem editsOf_cons (t : Nat) (tids : List Nat) :
    s.editsOf (t :: tids) = ((s.calls.get t).elim [] fun c => c.txn.edits) ++ s.editsOf tids := by
  unfold editsOf txnsOf
  rw [filterMap_cons]
  cases s.calls.get t <;> rfl

theorem nodup_editsOf (h : Separated s.calls s.inflight) {tids : List Nat} (hn : tids.Nodup)
    (hq : ∀ t ∈ tids, InPhase s.calls CallPhase.isQueued t) : ((s.editsOf tids).map Edit.key).Nodup := by
  induction tids with
  | nil => exact nodup_nil
  | cons t tids ih =>
    rw [nodup_cons] at hn
    obtain ⟨c, hc, hp⟩ := hq t mem_cons_self
    rw [editsOf_cons, hc, Option.elim_some, map_append]
    refine nodup_append.2 ⟨(h.call t c hc).edits_nodup, ih hn.2 fun t ht => hq t (mem_cons_of_mem _ ht), ?_⟩
    intro k hk k' hk'
    obtain ⟨e, he, rfl⟩ := mem_map.1 hk
    obtain ⟨e', he', rfl⟩ := mem_map.1 hk'
    obtain ⟨t', ht', c', hc', he'⟩ := mem_editsOf.1 he'
    have hne : t ≠ t' := fun e => hn.1 (e ▸ ht')
    have hp' : c'.phase = .queued := (hq t' (mem_cons_of_mem _ ht')).phase hc'
    have hq : c.phase = .queued := hp
    exact h.disjoint t t' c c' hc hc' hne (by rw [hq]; trivial) (by rw [hp']; trivial) e he e' he'

end Sys

/-! ## The extents after a batch -/

namespace Db

theorem applyEdit_eq : applyEdit = fun t e => t.set e.key e.frame := by
  funext t e
  unfold applyEdit
  cases e.frame <;> rfl

theorem extents_applyBatch (db : Db) (txns : List Txn) :
    (db.applyBatch txns).extents = db.extents.setAll ((txns.flatMap Txn.edits).map fun e => (e.key, e.frame)) := by
  unfold applyBatch Table.setAll
  rw [foldl_map, applyEdit_eq]

theorem get_extents_applyBatch (db : Db) (txns : List Txn) (key : InodeId × Nat) :
    (db.applyBatch txns).extents.get key =
      (newest ((txns.flatMap Txn.edits).map fun e => (e.key, e.frame)) key).getD (db.extents.get key) := by
  rw [extents_applyBatch, Table.get_setAll]

theorem get_extents_applyBatch_of_not_mem {db : Db} {txns : List Txn} {key : InodeId × Nat}
    (h : ∀ e ∈ txns.flatMap Txn.edits, e.key ≠ key) : (db.applyBatch txns).extents.get key = db.extents.get key := by
  rw [get_extents_applyBatch, newest_eq_none_iff.2]
  · rfl
  intro p hp
  obtain ⟨e, he, rfl⟩ := mem_map.1 hp
  exact h e he

end Db

/-- The debit of every edit that is staged and not applied is in the relation `D` with the stored location. -/
def Debited (D : Option FrameLoc → Option FrameLoc → Prop) (s : Sys) : Prop :=
  ∀ t c, s.At t c → ((∃ todo, c.phase = .staging todo) ∨ t ∈ s.unapplied) →
    ∀ e ∈ c.txn.edits, D e.debit (s.db.locOf e.key)

/-- Cached locations and debits are those of the committed extents. -/
structure Stored (s : Sys) : Prop where
  cached : s.LocationsCached
  debit : Debited (fun debit loc => debit = none ∨ debit = loc) s

namespace Debited

variable {D : Option FrameLoc → Option FrameLoc → Prop} {s s' : Sys} {tid : Nat} {c' : Call}

theorem put (h : Debited D s) (hcalls : s'.calls = s.calls.put tid c') (hdb : s'.db = s.db)
    (hun : ∀ t ∈ s'.unapplied, t = tid ∨ t ∈ s.unapplied)
    (hdebit : (∃ todo, c'.phase = .staging todo) ∨ tid ∈ s'.unapplied →
      ∀ e ∈ c'.txn.edits, D e.debit (s.db.locOf e.key)) : Debited D s' := by
  intro t u hu hw e he
  rw [hdb]
  rcases Sys.cases_at hcalls hu with ⟨rfl, rfl⟩ | ⟨hne, hu⟩
  · exact hdebit hw e he
  · exact h t u hu (hw.imp_right fun ht => (hun t ht).resolve_left hne) e he

theorem put_idle (h : Debited D s) (hcalls : s'.calls = s.calls.put tid c') (hdb : s'.db = s.db)
    (hun : s'.unapplied = s.unapplied) (hp : ∀ todo, c'.phase ≠ .staging todo) (hnot : tid ∉ s.unapplied) :
    Debited D s' := by
  refine h.put hcalls hdb (fun t ht => .inr (hun ▸ ht)) ?_
  rintro (⟨todo, htodo⟩ | hmem)
  · exact absurd htodo (hp todo)
  · exact absurd (hun ▸ hmem) hnot

theorem shift {a : Action} (h : Debited D s) (hm : Sys.Shifted s a s') : Debited D s' := by
  intro t c hc ht e he
  rw [hm.db]
  exact h t c (Sys.at_eq hm.calls ▸ hc) (ht.imp_right fun ht => hm.sublist.subset ht) e he

end Debited

namespace Sys

variable {sealedLen : Extent → Nat} {s s' : Sys} {a : Action}

theorem get_publish (edits : List Edit) (t : Table (InodeId × Nat) (Option FrameLoc)) (key : InodeId × Nat) :
    (edits.foldl (fun t e => t.put e.key (e.frame.map Frame.loc)) t).get key =
      ((newest (edits.map fun e => (e.key, e.frame)) key).map (Option.map Frame.loc)).or (t.get key) := by
  have hmap : edits.foldl (fun t e => t.put e.key (e.frame.map Frame.loc)) t =
      ((edits.map fun e => (e.key, e.frame)).map fun p => (p.1, p.2.map Frame.loc)).foldl
      (fun t p => t.put p.1 p.2) t := by
    rw [foldl_map, foldl_map]
  rw [hmap, Table.get_foldl_put, newest_map]

/-- No call of the batch edits an extent of a call that stages or waits in the queue. -/
theorem locOf_apply (hsep : Separated s.calls s.inflight) (hord : Ordered s) {batch : List Nat}
    (hw : s.worker = .drained batch) {t : Nat} {c : Call} (hc : s.At t c)
    (ht : (∃ todo, c.phase = .staging todo) ∨ t ∈ s.queue) {e : Edit} (he : e ∈ c.txn.edits) :
    (s.applyBatch batch).db.locOf e.key = s.db.locOf e.key := by
  have hbatch := hord.phases hw
  have hout : c.phase.active ∧ t ∉ batch := by
    rcases ht with ⟨todo, hp⟩ | ht
    · refine ⟨by rw [hp]; trivial, fun hm => ?_⟩
      have : c.phase = .queued := (hbatch t hm).phase hc
      rw [hp] at this
      cases this
    · have hp : c.phase = .queued := (hord.queue t ht).phase hc
      refine ⟨by rw [hp]; trivial, fun hm => not_mem_queue hord ?_ ht⟩
      rw [hw]
      exact hm
  refine congrArg (Option.map Frame.loc) (Db.get_extents_applyBatch_of_not_mem fun e' he' => ?_)
  obtain ⟨t', ht', c', hc', he'⟩ := mem_editsOf.1 he'
  have hp' : c'.phase = .queued := (hbatch t' ht').phase hc'
  exact hsep.disjoint t' t c' c hc' hc (fun e => hout.2 (e ▸ ht')) (by rw [hp']; trivial) hout.1 e' he' e he

/-- Every step keeps the debits right when staging starts with right ones. -/
theorem step_debited {D : Option FrameLoc → Option FrameLoc → Prop} (h : Debited D s)
    (hsep : Separated s.calls s.inflight) (hord : Ordered s) (hs : Stepped sealedLen s a s')
    (hstage : ∀ tid lane c op todo r, s.At tid c → c.phase = .staging (op :: todo) →
      s.stageOp sealedLen lane op = some r → ∀ e ∈ r.passes.flatten, D e.debit (s.db.locOf e.key)) : Debited D s' := by
  have hs' := hs
  cases hs with
  | spawn hnew hv | compact hnew hseg hlane hn hitems hfit =>
    refine h.put_idle rfl rfl rfl nofun fun ht => ?_
    obtain ⟨c, hc, _⟩ := (hord.mem_iff _).1 (unapplied_subset_unsent ht)
    cases hnew.symm.trans hc
  | lock hc hp hb | start hc hp hfree => exact h.put_idle rfl rfl rfl nofun (not_mem_unapplied hord hc (.inl ⟨_, hp⟩))
  | @prepare tid now c task todo ops plan rs q hc hp hplan hres =>
    have hph := (hsep.call tid c hc).phaseOk hp
    exact h.put rfl rfl (fun t ht => .inr ht) fun _ e he => absurd he (CallOk.not_mem_edits hph.2.1 e)
  | refused hc hp hplan hres => exact h.put_idle rfl rfl rfl nofun (not_mem_unapplied hord hc (.inr (.inl ⟨_, _, hp⟩)))
  | invalid hc hp | abort hc hp => exact h.put_idle rfl rfl rfl nofun (not_mem_unapplied hord hc hp)
  | @stage tid lane c op todo r hc hp hst =>
    refine h.put rfl rfl (fun t ht => .inr ht) fun _ e he => ?_
    rw [CallOk.edits_stagedCall] at he
    rcases mem_append.1 he with he | he
    · exact h tid c hc (.inl ⟨_, hp⟩) e he
    · exact hstage tid lane c op todo r hc hp hst e he
  | noop hc hp he => exact h.put_idle rfl rfl rfl nofun (not_mem_unapplied hord hc (.inr (.inr ⟨_, hp⟩)))
  | @submit tid c hc hp he =>
    refine h.put rfl rfl (fun t ht => ?_) fun _ e he => h tid c hc (.inl ⟨_, hp⟩) e he
    have ht' : t ∈ s.worker.batch ++ (s.queue ++ [tid]) := ht
    rw [← append_assoc, mem_append, mem_singleton] at ht'
    exact ht'.symm
  | @apply batch hw =>
    intro t c hc ht e he
    rw [locOf_apply hsep hord hw hc ht he]
    exact h t c hc (ht.imp_right fun ht => mem_append_right _ ht) e he
  | settle hw hc hp =>
    obtain ⟨hun, hnot⟩ := unapplied_settling hord hw
    exact h.put_idle rfl rfl hun.symm nofun hnot
  | send hw hc hp | sendSettle hw hc hp =>
    obtain ⟨hun, hnot⟩ := unapplied_sending hord hw
    exact h.put_idle rfl rfl (hun ▸ unapplied_eq_queue (afterSend_batch _ _ _)) nofun hnot
  | drain | reject | reply | rotate | pack | loadLocation | evictLocation | evictTail =>
    exact h.shift (hs'.shifted hord rfl)

theorem step_cached (h : s.LocationsCached) (hs : Stepped sealedLen s a s') : s'.LocationsCached := by
  cases hs with
  | @apply batch hw =>
    intro key loc hk
    have hk' : (((s.txnsOf batch).flatMap Txn.edits).foldl (fun t e => t.put e.key (e.frame.map Frame.loc))
        s.extentLocationCache).get key = some loc := hk
    rw [get_publish] at hk'
    show loc = ((s.db.applyBatch (s.txnsOf batch)).extents.get key).map Frame.loc
    rw [Db.get_extents_applyBatch]
    cases hn : newest (((s.txnsOf batch).flatMap Txn.edits).map fun e => (e.key, e.frame)) key with
    | some f => rw [hn] at hk'; cases hk'; rfl
    | none => rw [hn] at hk'; exact h key loc hk'
  | @loadLocation key =>
    intro k loc hk
    have hk' : (s.extentLocationCache.put key (s.db.locOf key)).get k = some loc := hk
    rcases Table.cases_put hk' with ⟨heq, rfl⟩ | ⟨-, hk'⟩
    · rw [heq]
    · exact h k loc hk'
  | @evictLocation key =>
    intro k loc hk
    have hk' : (s.extentLocationCache.del key).get k = some loc := hk
    obtain ⟨-, hk'⟩ := Table.of_del hk'
    exact h k loc hk'
  | _ => exact h

/-- **Every step keeps the debits and the location cache right.** -/
theorem step_stored (h : Stored s) (hsep : Separated s.calls s.inflight) (hord : Ordered s)
    (hs : Stepped sealedLen s a s') : Stored s' := by
  refine ⟨step_cached h.cached hs, step_debited h.debit hsep hord hs fun tid lane c op todo r hc hp hst => ?_⟩
  intro e he
  rcases ((hsep.call tid c hc).staged h.cached hp hst).1.debit e he with hd | ⟨hd, _⟩
  · exact .inr hd
  · exact .inl hd

end Sys

end ZeroFS
