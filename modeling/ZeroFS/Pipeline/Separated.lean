import ZeroFS.Pipeline.Stepped

/-!
# Locks and in-flight extents keep calls apart

Two unsettled calls never have staged extents in common: each holds its inode lock or, for a queued write, its claim in
the in-flight table.
-/

namespace ZeroFS

open List

/-- Calls in progress have different locks and edit different extents. -/
structure Separated (calls : Table Nat Call) (inflight : List InflightWrite) : Prop where
  call : ∀ t c, calls.get t = some c → CallOk c
  exclusive : ∀ t t' c c', calls.get t = some c → calls.get t' = some c' → t ≠ t' → ∀ i ∈ c.held, i ∉ c'.held
  registered : ∀ t c, calls.get t = some c → c.phase = .queued → ∀ sp ∈ c.spans, ⟨t, sp.1, sp.2.1, sp.2.2⟩ ∈ inflight
  disjoint : ∀ t t' c c', calls.get t = some c → calls.get t' = some c' → t ≠ t' → c.phase.active → c'.phase.active →
    ∀ e ∈ c.txn.edits, ∀ e' ∈ c'.txn.edits, e.key ≠ e'.key

namespace Separated

variable {calls : Table Nat Call} {inflight inflight' : List InflightWrite} {tid : Nat} {c c' : Call}

theorem put (h : Separated calls inflight) (hok : CallOk c')
    (hheld : ∀ t u, calls.get t = some u → t ≠ tid → ∀ i ∈ c'.held, i ∉ u.held)
    (hkeep : ∀ w ∈ inflight, w.token ≠ tid → w ∈ inflight')
    (hreg : c'.phase = .queued → ∀ sp ∈ c'.spans, ⟨tid, sp.1, sp.2.1, sp.2.2⟩ ∈ inflight')
    (hdis : c'.phase.active → ∀ t u, calls.get t = some u → t ≠ tid → u.phase.active →
      ∀ e ∈ c'.txn.edits, ∀ e' ∈ u.txn.edits, e.key ≠ e'.key) :
    Separated (calls.put tid c') inflight' := by
  refine ⟨?_, ?_, ?_, ?_⟩
  · intro t u hu
    rcases Table.cases_put hu with ⟨rfl, rfl⟩ | ⟨_, hg⟩
    · exact hok
    · exact h.call t u hg
  · intro t t' u u' hu hu' hne i hi
    rcases Table.cases_put hu with ⟨rfl, rfl⟩ | ⟨hn, hg⟩
    · rcases Table.cases_put hu' with ⟨rfl, rfl⟩ | ⟨hn', hg'⟩
      · exact absurd rfl hne
      · exact hheld t' u' hg' hn' i hi
    · rcases Table.cases_put hu' with ⟨rfl, rfl⟩ | ⟨hn', hg'⟩
      · exact fun hi' => hheld t u hg hn i hi' hi
      · exact h.exclusive t t' u u' hg hg' hne i hi
  · intro t u hu hq sp hsp
    rcases Table.cases_put hu with ⟨rfl, rfl⟩ | ⟨hn, hg⟩
    · exact hreg hq sp hsp
    · exact hkeep _ (h.registered t u hg hq sp hsp) hn
  · intro t t' u u' hu hu' hne ha ha' e he e' he'
    rcases Table.cases_put hu with ⟨rfl, rfl⟩ | ⟨hn, hg⟩
    · rcases Table.cases_put hu' with ⟨rfl, rfl⟩ | ⟨hn', hg'⟩
      · exact absurd rfl hne
      · exact hdis ha t' u' hg' hn' ha' e he e' he'
    · rcases Table.cases_put hu' with ⟨rfl, rfl⟩ | ⟨hn', hg'⟩
      · exact (hdis ha' t u hg hn ha e' he' e he).symm
      · exact h.disjoint t t' u u' hg hg' hne ha ha' e he e' he'

/-- A call that gives up nothing but locks, and stages nothing, keeps the others apart from it. -/
theorem retire (h : Separated calls inflight) (hc : calls.get tid = some c) (hok : CallOk c')
    (hheld : c'.held ⊆ c.held) (hkeep : ∀ w ∈ inflight, w.token ≠ tid → w ∈ inflight') (ha : ¬c'.phase.active) :
    Separated (calls.put tid c') inflight' := by
  refine h.put hok (fun t u hu hn i hi => h.exclusive tid t c u hc hu hn.symm i (hheld hi)) hkeep (fun hq => ?_)
    (fun hact => absurd hact ha)
  rw [hq] at ha
  exact absurd trivial ha

/-- An extent staged under the inode lock, outside every claimed range, is no one else's. -/
theorem fresh_keys (h : Separated calls inflight) (hc : calls.get tid = some c) {e : Edit} (hheld : e.key.1 ∈ c.held)
    (hfree : ∀ w ∈ inflight, w.id = e.key.1 → ¬(w.start ≤ e.key.2 ∧ e.key.2 ≤ w.stop)) {t : Nat} {u : Call}
    (hu : calls.get t = some u) (hne : t ≠ tid) (ha : u.phase.active) {e' : Edit} (he' : e' ∈ u.txn.edits) :
    e.key ≠ e'.key := by
  intro heq
  have hu' := h.call t u hu
  have hid := hu'.edits_ids e' he'
  have hfar : e.key.1 ∉ u.held := h.exclusive tid t c u hc hu hne.symm _ hheld
  have hph := hu'.phase
  cases hp : u.phase with
  | staging todo => rw [hp] at hph; exact hfar (heq ▸ hph.1 hid)
  | queued =>
    rw [hp] at hph
    cases hpipe : u.pipelined with
    | false => exact hfar (heq ▸ hph hpipe hid)
    | true =>
      -- a queued write claims the extents it has staged
      obtain ⟨sp, hsp, hi, hlo, hhi⟩ := hu'.edits_span hpipe e' he'
      exact hfree _ (h.registered t u hu hp sp hsp) (hi.trans (heq ▸ rfl)) (heq ▸ ⟨hlo, hhi⟩)
  | locking | preparing | settled | answered => rw [hp] at ha; exact ha

end Separated

namespace Sys

variable {sealedLen : Extent → Nat} {s s' : Sys} {a : Action}

theorem nodup_of_validTasks {tasks : List Task} (h : validTasks tasks = true) :
    (tasks.map Task.id).Nodup ∧ ∀ id items, Task.repoint id items ∈ tasks → (items.map Prod.fst).Nodup := by
  unfold validTasks at h
  split at h
  · cases h
  · rename_i t hne
    refine ⟨nodup_singleton _, fun id items hmem => ?_⟩
    exact absurd (mem_singleton.1 hmem).symm (hne id items)
  · rename_i id _ _ _ target _
    refine ⟨?_, fun id items hmem => ?_⟩
    · simpa [Task.id] using h
    · simp at hmem
  · simp only [Bool.and_eq_true, decide_eq_true_eq, all_eq_true] at h
    refine ⟨h.2, fun id items hmem => ?_⟩
    cases h.1.2 _ hmem

theorem not_held_of_not_busy {tid : Nat} {id : InodeId} (h : s.busy tid id = false) {t : Nat} {u : Call}
    (hu : s.At t u) (hne : t ≠ tid) : id ∉ u.held := by
  have := any_eq_false.1 h ⟨t, u⟩ (Table.mem_entries.2 hu)
  simpa [hne] using this

theorem mem_filter_token {inflight : List InflightWrite} {tid : Nat} :
    ∀ w ∈ inflight, w.token ≠ tid → w ∈ inflight.filter fun w => decide (w.token ≠ tid) := fun _ hw hne =>
  mem_filter.2 ⟨hw, by simpa using hne⟩

/-- **Every step keeps the calls apart.** -/
theorem step_separated (h : Separated s.calls s.inflight) (hcache : s.LocationsCached) (hs : Stepped sealedLen s a s') :
    Separated s'.calls s'.inflight := by
  cases hs with
  | @spawn tid tasks creds checkPermissions hnew hv =>
    obtain ⟨hn, hi⟩ := nodup_of_validTasks hv
    exact h.put (.new hn hi fun i hi => mem_lockOrder.2 hi) (fun _ _ _ _ _ hi => by cases hi)
      (fun _ hw _ => hw) nofun nofun
  | @compact tid id segid items hnew hseg hlane hn hitems hfit =>
    refine h.put (.new (nodup_singleton _) (fun id' items' hmem => ?_) (fun i hi => hi))
      (fun _ _ _ _ _ hi => by cases hi)
      (fun _ hw _ => hw) nofun nofun
    cases mem_singleton.1 hmem
    exact hn
  | @lock tid c id todo hc hp hb =>
    refine h.put ((h.call tid c hc).lock hp) ?_ (fun _ hw _ => hw) nofun nofun
    intro t u hu hne i hi
    rcases mem_cons.1 hi with rfl | hi
    · exact not_held_of_not_busy hb hu hne
    · exact h.exclusive tid t c u hc hu hne.symm i hi
  | @start tid c hc hp hfree =>
    exact h.retire hc ((h.call tid c hc).start hp) (fun _ hi => hi) (fun _ hw _ => hw) id
  | @prepare tid now c task todo ops plan rs q hc hp hplan hres =>
    have hok := h.call tid c hc
    refine h.put (hok.planned hp hplan) (fun t u hu hne i hi => h.exclusive tid t c u hc hu hne.symm i hi)
      (fun _ hw _ => hw) ?_ ?_
    · intro hq; unfold planned at hq; split at hq <;> cases hq
    · intro _ t u hu hne _ e he; exact absurd he (CallOk.not_mem_edits (hok.phaseOk hp).2.1 e)
  | @refused tid now c task todo ops plan e q hc hp hplan hres | @invalid tid now c e hc hp | @noop tid c hc hp he
  | @abort tid c hc hp | @send applied result tid todo c hw hc hp =>
    exact h.retire hc ((h.call tid c hc).advance trivial) nofun (fun _ hw _ => hw) id
  | @stage tid lane c op todo r hc hp hst =>
    obtain ⟨hok, hcall⟩ := (h.call tid c hc).staged hcache hp hst
    have hph := (h.call tid c hc).phaseOk hp
    refine h.put hcall (fun t u hu hne i hi => h.exclusive tid t c u hc hu hne.symm i hi) (fun _ hw _ => hw) nofun ?_
    intro _ t u hu hne hact e he e' he'
    rw [CallOk.edits_stagedCall] at he
    rcases mem_append.1 he with he | he
    · exact h.disjoint tid t c u hc hu hne.symm (by rw [hp]; trivial) hact e he e' he'
    refine h.fresh_keys hc ?_ ?_ hu hne hact he'
    · rw [hok.key_id e he]; exact hph.1 (hph.2.1 op mem_cons_self).id_mem
    · intro w hw hid; exact hok.free e he w hw (hid.trans (hok.key_id e he))
  | @submit tid c hc hp he =>
    have hph := (h.call tid c hc).phaseOk hp
    have hheld : (s.queuedCall c).held ⊆ c.held := by
      unfold queuedCall
      split
      · exact nil_subset _
      · exact List.Subset.refl _
    have hok : CallOk (s.queuedCall c) := by
      refine (h.call tid c hc).advance ?_
      intro hpipe
      have : c.pipelined = false := hpipe
      rw [this]
      exact hph.1
    refine h.put hok (fun t u hu hne i hi => h.exclusive tid t c u hc hu hne.symm i (hheld hi))
      (fun _ hw _ => mem_append_left _ hw) ?_ ?_
    · intro _ sp hsp; exact mem_append_right _ (mem_map.2 ⟨sp, hsp, rfl⟩)
    · intro _ t u hu hne hact e he e' he'
      exact h.disjoint tid t c u hc hu hne.symm (by rw [hp]; trivial) hact e he e' he'
  | @settle applied done tid todo c hw hc hp =>
    have hok := h.call tid c hc
    exact h.retire hc (hok.advance (hok.phaseOk hp)) (fun _ hi => hi) mem_filter_token id
  | @sendSettle applied result tid todo c hw hc hp =>
    exact h.retire hc ((h.call tid c hc).advance trivial) nofun mem_filter_token id
  | drain | reject | apply | reply | rotate | pack | loadLocation | evictLocation | evictTail => exact h

end Sys

end ZeroFS
