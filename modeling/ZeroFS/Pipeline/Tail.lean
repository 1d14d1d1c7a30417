import ZeroFS.Pipeline.EndOfFile

/-!
# The cached tail of a file

A write that ends inside an extent leaves it in the tail cache when it is settled, after its batch is applied. In
between the cached tail may be old, but then the extent is still claimed in flight (`TailOk`).
-/

namespace ZeroFS

open Updates List Table

/-- The calls of an applied batch that are not settled yet. -/
def Worker.landing : Worker → List Nat
  | settling true _ todo => todo
  | _ => []

@[simp] theorem Sys.landing_afterSend (applied : Bool) (result : Except FsError Unit) (todo : List Nat) :
    (afterSend applied result todo).landing = [] := by
  cases todo <;> rfl

/-- Every staged extent belongs to a file whose tail is updated at settlement, and a new tail is the staged extent. -/
structure TailsOk (c : Call) : Prop where
  set : ∀ id idx x, (id, TailUpdate.set idx x) ∈ c.txn.tails → ∃ e ∈ c.txn.edits, e.key = (id, idx) ∧
    e.frame.map Frame.data = some x
  mem : ∀ e ∈ c.txn.edits, ∃ p ∈ c.txn.tails, p.1 = e.key.1

structure TailOk (s : Sys) : Prop where
  pipelined : ∀ t c, s.At t c → c.pipelined = true
  tails : ∀ t c, s.At t c → TailsOk c
  landed : ∀ t ∈ s.worker.landing, ∀ c, s.At t c → ∀ e ∈ c.txn.edits, s.db.extents.get e.key = e.frame
  cached : ∀ id idx x, s.tailCache.get id = some (idx, x) → x = s.db.extent id idx ∨
    ∃ t ∈ s.worker.landing, ∃ c, s.At t c ∧ ∃ e ∈ c.txn.edits, e.key = (id, idx)

/-- Only write calls are made, which hold no lock once they are queued. -/
def Action.isWriting : Action → Bool
  | .spawn _ tasks _ _ => tasks.all Task.isWrite
  | .compact .. | .drop _ => false
  | _ => true

theorem TailsOk.empty {c : Call} (h : c.txn = {}) : TailsOk c := by
  refine ⟨fun id idx x hm => ?_, fun e he => ?_⟩
  · rw [h] at hm; cases hm
  · rw [h] at he; cases he

theorem TailsOk.congr {c c' : Call} (h : TailsOk c) (hstaged : c'.txn.staged = c.txn.staged)
    (htails : c'.txn.tails = c.txn.tails) : TailsOk c' := by
  have hedits : c'.txn.edits = c.txn.edits := by
    unfold Txn.edits
    rw [hstaged]
  refine ⟨fun id idx x hm => ?_, fun e he => ?_⟩
  · rw [hedits]; exact h.set id idx x (htails ▸ hm)
  · rw [htails]; exact h.mem e (hedits ▸ he)

namespace Sys

variable {sealedLen : Extent → Nat} {lane : Nat} {s s' : Sys} {a : Action}

variable {c c' : Call} {tid : Nat}

theorem write_of_pipelined (hpipe : c.pipelined = true) {op : ExtentOp} (h : OpOk c.tasks op) :
    ∃ id offset data oldSize, op = .write id offset data oldSize := by
  cases op with
  | write id offset data oldSize => exact ⟨id, offset, data, oldSize, rfl⟩
  | repoint id items => exact absurd hpipe (Bool.eq_false_iff.1 (not_all_isWrite h rfl))
  | truncate | zeroRange | deleteRange => exact absurd hpipe (Bool.eq_false_iff.1 h.2)

/-- A tail after the updates of a settled call: one of them, or an old one of another file. -/
theorem get_foldl_applyTail {tails : List (InodeId × TailUpdate)} {t : Table InodeId (Nat × Extent)} {id : InodeId}
    {idx : Nat} {x : Extent} (h : (tails.foldl applyTail t).get id = some (idx, x)) :
    (id, TailUpdate.set idx x) ∈ tails ∨ (t.get id = some (idx, x) ∧ ∀ p ∈ tails, p.1 ≠ id) := by
  induction tails generalizing t with
  | nil => exact .inr ⟨h, fun p hp => absurd hp not_mem_nil⟩
  | cons p rest ih =>
    rcases ih h with hm | ⟨hg, hne⟩
    · exact .inl (mem_cons_of_mem _ hm)
    obtain ⟨i, u⟩ := p
    by_cases hi : id = i
    · subst hi
      cases u with
      | set idx' x' =>
        unfold applyTail at hg
        rw [get_put_self] at hg
        cases hg
        exact .inl mem_cons_self
      | clear => unfold applyTail at hg; rw [get_del_self] at hg; cases hg
    · have hg' : t.get id = some (idx, x) := by
        cases u with
        | set idx' x' => unfold applyTail at hg; rwa [get_put_ne hi] at hg
        | clear => unfold applyTail at hg; rwa [get_del_ne hi] at hg
      refine .inr ⟨hg', fun q hq => ?_⟩
      rcases mem_cons.1 hq with rfl | hq
      · exact fun e => hi e.symm
      · exact hne q hq

/-- What a staged write does to the tail. -/
theorem tailsOk_staged {id : InodeId} {offset : Nat} {data : List UInt8} {oldSize : Nat} {todo : List ExtentOp}
    {r : Staged} (hc : s.LocationsCached) (hne : data ≠ []) (h : TailsOk c)
    (hst : s.stageOp sealedLen lane (.write id offset data oldSize) = some r) : TailsOk (stagedCall c r todo) := by
  obtain ⟨hok, _, hmap, htails⟩ := stageWrite_spec hc hne hst
  refine ⟨fun i idx x hm => ?_, fun e he => ?_⟩
  · rw [CallOk.edits_stagedCall]
    rcases mem_append.1 hm with hm | hm
    · obtain ⟨e, he, hk⟩ := h.set i idx x hm; exact ⟨e, mem_append_left _ he, hk⟩
    rw [htails] at hm
    obtain ⟨rfl, hset⟩ := Prod.mk.inj (mem_singleton.1 hm)
    -- the new tail is the last staged extent
    unfold tailUpdate at hset
    split at hset
    · split at hset
      · rename_i hlast
        cases hset
        have hmem := mem_of_getLast? hlast
        have hmem' := mem_map_of_mem (f := fun p : Nat × Option Extent =>
          ((i, p.1), p.2, if p.1 < extentCount oldSize then s.db.locOf (i, p.1) else none)) hmem
        rw [← hmap] at hmem'
        obtain ⟨e, he, heq⟩ := mem_map.1 hmem'
        simp only [Prod.mk.injEq] at heq
        exact ⟨e, mem_append_right _ he, heq.1, heq.2.1⟩
      · cases hset
    · cases hset
  · rw [CallOk.edits_stagedCall] at he
    rcases mem_append.1 he with he | he
    · obtain ⟨p, hp, hid⟩ := h.mem e he; exact ⟨p, mem_append_left _ hp, hid⟩
    · refine ⟨_, mem_append_right _ (by rw [htails]; exact mem_cons_self), ?_⟩
      exact (hok.key_id e he).symm

theorem tailOk_put (h : TailOk s) (hcalls : s'.calls = s.calls.put tid c') (hdb : s'.db = s.db)
    (hw : s'.worker.landing ⊆ s.worker.landing) (hn : tid ∉ s'.worker.landing) (hpipe : c'.pipelined = true)
    (hok : TailsOk c')
    (hcached : ∀ id idx x, s'.tailCache.get id = some (idx, x) → x = s.db.extent id idx ∨
      ∃ t ∈ s'.worker.landing, ∃ c, s.At t c ∧ ∃ e ∈ c.txn.edits, e.key = (id, idx)) : TailOk s' := by
  have hold : ∀ t ∈ s'.worker.landing, s'.calls.get t = s.calls.get t := by
    intro t ht
    rw [hcalls]
    exact get_put_ne fun e => hn (e ▸ ht)
  have hcall : ∀ t c, s'.At t c → c.pipelined = true ∧ TailsOk c := by
    intro t c hc
    rcases cases_at hcalls hc with ⟨-, rfl⟩ | ⟨-, hc⟩
    · exact ⟨hpipe, hok⟩
    · exact ⟨h.pipelined t c hc, h.tails t c hc⟩
  refine ⟨fun t c hc => (hcall t c hc).1, fun t c hc => (hcall t c hc).2, fun t ht c hc => ?_, fun id idx x hx => ?_⟩
  · rw [hdb]; exact h.landed t (hw ht) c ((hold t ht).symm.trans hc)
  · rw [hdb]
    refine (hcached id idx x hx).imp_right ?_
    rintro ⟨t, ht, c, hc, he⟩
    exact ⟨t, ht, c, (hold t ht).trans hc, he⟩

theorem tailOk_advance (h : TailOk s) (hc : s.At tid c)
    (hcalls : s'.calls = s.calls.put tid c') (htasks : c'.tasks = c.tasks) (hstaged : c'.txn.staged = c.txn.staged)
    (htails : c'.txn.tails = c.txn.tails) (hdb : s'.db = s.db) (hw : s'.worker.landing = s.worker.landing)
    (htail : s'.tailCache = s.tailCache) (hn : tid ∉ s.worker.landing) : TailOk s' := by
  refine tailOk_put h hcalls hdb (by rw [hw]; exact List.Subset.refl _) (by rwa [hw]) ?_
    ((h.tails tid c hc).congr hstaged htails) ?_
  · unfold Call.pipelined; rw [htasks]; exact h.pipelined tid c hc
  · rw [hw, htail]; exact h.cached

theorem tailOk_same (h : TailOk s) (hcalls : s'.calls = s.calls) (hdb : s'.db = s.db)
    (hw : s'.worker.landing = s.worker.landing)
    (htail : ∀ id p, s'.tailCache.get id = some p → s.tailCache.get id = some p) : TailOk s' := by
  refine ⟨fun t c hc => h.pipelined t c (at_eq hcalls ▸ hc), fun t c hc => h.tails t c (at_eq hcalls ▸ hc),
    fun t ht c hc => ?_, fun id idx x hx => ?_⟩
  · rw [hdb]; exact h.landed t (hw ▸ ht) c (at_eq hcalls ▸ hc)
  · rw [hdb, hw, at_eq hcalls]; exact h.cached id idx x (htail id _ hx)

theorem queued_of_landing (hord : Ordered s) {t : Nat} (ht : t ∈ s.worker.landing) :
    InPhase s.calls CallPhase.isQueued t := by
  have hw := hord.worker
  cases hworker : s.worker with
  | settling applied done todo =>
    rw [hworker] at hw ht
    cases applied with
    | true => exact hw.2 t ht
    | false => cases ht
  | _ => rw [hworker] at ht; cases ht

theorem not_mem_landing (hord : Ordered s) (h : ∀ c, s.At tid c → Unsubmitted c) : tid ∉ s.worker.landing := by
  intro ht
  obtain ⟨c, hc, hq⟩ := queued_of_landing hord ht
  refine (Ordered.unsubmitted (h c hc)).1 ?_
  rw [hq]
  trivial

/-- A batch is applied: its extents are stored. -/
theorem tailOk_apply (h : TailOk s) (hso : Sound s) {batch : List Nat} (hw : s.worker = .drained batch)
    (hcalls : s'.calls = s.calls) (hdb : s'.db = s.db.applyBatch (s.txnsOf batch)) (hw' : s'.worker.landing = batch)
    (htail : s'.tailCache = s.tailCache) : TailOk s' := by
  have hget : ∀ e ∈ s.editsOf batch, s'.db.extents.get e.key = e.frame := by
    intro e he
    have hnew : newest ((s.editsOf batch).map fun e => (e.key, e.frame)) e.key = some e.frame := by
      refine newest_of_mem ?_ (mem_map_of_mem (f := fun e : Edit => (e.key, e.frame)) he)
      rw [map_map]
      exact nodup_batch hso hw
    have hget := Db.get_extents_applyBatch s.db (s.txnsOf batch) e.key
    rw [hdb, hget]
    show (newest ((s.editsOf batch).map fun e => (e.key, e.frame)) e.key).getD _ = _
    rw [hnew]
    rfl
  refine ⟨fun t c hc => h.pipelined t c (at_eq hcalls ▸ hc), fun t c hc => h.tails t c (at_eq hcalls ▸ hc),
    fun t ht c hc e he => ?_, fun id idx x hx => ?_⟩
  · rw [hw'] at ht; rw [at_eq hcalls] at hc; exact hget e (mem_editsOf.2 ⟨t, ht, c, hc, he⟩)
  by_cases hm : ∃ e ∈ s.editsOf batch, e.key = (id, idx)
  · obtain ⟨e, he, hk⟩ := hm
    obtain ⟨t, ht, c, hc, he⟩ := mem_editsOf.1 he
    exact .inr ⟨t, hw' ▸ ht, c, by rw [at_eq hcalls]; exact hc, e, he, hk⟩
  rw [htail] at hx
  rcases h.cached id idx x hx with hd | ⟨t, ht, _⟩
  · refine .inl ?_
    rw [hd]
    unfold Db.extent
    rw [hdb, Db.get_extents_applyBatch_of_not_mem fun e he hk => hm ⟨e, he, hk⟩]
  · rw [hw] at ht; cases ht

/-- A call is settled: an applied one leaves its tails in the cache. -/
theorem tailOk_settle {applied : Bool} {done : List Nat} {todo : List Nat} (h : TailOk s)
    (hso : Sound s) (hw : s.worker = .settling applied done (tid :: todo)) (hc : s.At tid c)
    (hcalls : s'.calls = s.calls.put tid c') (htxn : c'.txn = c.txn) (htasks : c'.tasks = c.tasks) (hdb : s'.db = s.db)
    (hw' : s'.worker = .settling applied (done ++ [tid]) todo)
    (htail : s'.tailCache = if applied then c.txn.tails.foldl applyTail s.tailCache else s.tailCache) : TailOk s' := by
  have hok' : TailsOk c' := (h.tails tid c hc).congr (by rw [htxn]) (by rw [htxn])
  have hpipe' : c'.pipelined = true := by
    unfold Call.pipelined
    rw [htasks]
    exact h.pipelined tid c hc
  cases applied with
  | false =>
    have hland : s'.worker.landing = [] := by rw [hw']; rfl
    refine tailOk_put h hcalls hdb (by rw [hland]; exact nil_subset _) (by rw [hland]; exact not_mem_nil) hpipe' hok'
      fun id idx x hx => ?_
    rw [htail] at hx
    refine (h.cached id idx x hx).imp_right ?_
    rintro ⟨t, ht, _⟩
    rw [hw] at ht
    cases ht
  | true =>
    have hland : s.worker.landing = tid :: todo := by rw [hw]; rfl
    have hland' : s'.worker.landing = todo := by rw [hw']; rfl
    have hnd : tid ∉ todo := by
      have hn := hso.ordered.nodup
      rw [unsent, hw] at hn
      have hn' := (nodup_append.1 hn).1
      exact (nodup_cons.1 (nodup_append.1 hn').2.1).1
    refine tailOk_put h hcalls hdb (by rw [hland, hland']; exact subset_cons_self _ _) (by rwa [hland']) hpipe' hok'
      fun id idx x hx => ?_
    rw [htail] at hx
    rcases get_foldl_applyTail hx with hset | ⟨hx, hne⟩
    · -- the staged extent, which is stored by now
      obtain ⟨e, he, hk, hd⟩ := (h.tails tid c hc).set id idx x hset
      have hstored := h.landed tid (by rw [hland]; exact mem_cons_self) c hc e he
      refine .inl ?_
      unfold Db.extent
      rw [← hk, hstored, hd]
      rfl
    · rcases h.cached id idx x hx with hd | ⟨t, ht, u, hu, e, he, hk⟩
      · exact .inl hd
      rw [hland] at ht
      rcases mem_cons.1 ht with rfl | ht
      · cases hc.symm.trans hu
        obtain ⟨p, hp, hid⟩ := (h.tails t c hc).mem e he
        exact absurd (by rw [hid, hk]) (hne p hp)
      · rw [hland']; exact .inr ⟨t, ht, u, hu, e, he, hk⟩

/-- **Runs of writes keep the tail cache coherent.** -/
theorem step_tailOk (h : TailOk s) (hso : Sound s) (ha : a.isWriting = true) (hs : Stepped sealedLen s a s') :
    TailOk s' := by
  have hord := hso.ordered
  have hout : ∀ {tid c}, s.At tid c → Unsubmitted c → tid ∉ s.worker.landing := fun hc hu =>
    not_mem_landing hord (before_of hc hu)
  cases hs with
  | spawn hn hv =>
    have hnew := not_mem_landing hord fun c hc => by cases hn.symm.trans hc
    exact tailOk_put h rfl rfl (List.Subset.refl _) hnew ha (.empty rfl) h.cached
  | compact => cases ha
  | lock hc hp hb | start hc hp hfree =>
    exact tailOk_advance h hc rfl rfl rfl rfl rfl rfl rfl (hout hc (.inl ⟨_, hp⟩))
  | prepare hc hp hplan hres | refused hc hp hplan hres =>
    exact tailOk_advance h hc rfl rfl rfl rfl rfl rfl rfl (hout hc (.inr (.inl ⟨_, _, hp⟩)))
  | invalid hc hp | abort hc hp =>
    exact tailOk_advance h hc rfl rfl rfl rfl rfl rfl rfl (hout hc hp)
  | @stage tid lane c op todo r hc hp hst =>
    have hph := (hso.separated.call tid c hc).phaseOk hp
    have hop := hph.2.1 op mem_cons_self
    obtain ⟨id, offset, data, oldSize, rfl⟩ := write_of_pipelined (h.pipelined tid c hc) hop
    exact tailOk_put h rfl rfl (List.Subset.refl _) (hout hc (.inr (.inr ⟨_, hp⟩))) (h.pipelined tid c hc)
      (tailsOk_staged hso.stored.cached hop.1 (h.tails tid c hc) hst) h.cached
  | noop hc hp he | submit hc hp he =>
    exact tailOk_advance h hc rfl rfl rfl rfl rfl rfl rfl (hout hc (.inr (.inr ⟨_, hp⟩)))
  | drain hw hn hle => exact tailOk_same h rfl rfl (by rw [hw]; rfl) fun _ _ hp => hp
  | @reject late batch hw => cases late <;> exact tailOk_same h rfl rfl (by rw [hw]; rfl) fun _ _ hp => hp
  | apply hw => exact tailOk_apply h hso hw rfl rfl rfl rfl
  | settle hw hc hp => exact tailOk_settle h hso hw hc rfl rfl rfl rfl rfl rfl
  | @reply durable applied done hw =>
    refine tailOk_same h rfl rfl ?_ fun _ _ hp => hp
    rw [hw]
    cases applied <;> rfl
  | send hw hc hp =>
    have hland : s.worker.landing = [] := by rw [hw]; rfl
    exact tailOk_advance h hc rfl rfl rfl rfl rfl (by rw [hland]; exact landing_afterSend _ _ _) rfl
      (by rw [hland]; exact not_mem_nil)
  | @sendSettle applied result tid todo c hw hc hp =>
    have hland : s.worker.landing = [] := by rw [hw]; rfl
    obtain rfl := rejected_of_queued hord hw hc hp
    exact tailOk_advance h hc rfl rfl rfl rfl rfl (by rw [hland]; exact landing_afterSend _ _ _) rfl
      (by rw [hland]; exact not_mem_nil)
  | rotate | pack | loadLocation | evictLocation => exact tailOk_same h rfl rfl rfl fun _ _ hp => hp
  | @evictTail i =>
    refine tailOk_same h rfl rfl rfl fun id p hp => ?_
    have hp' : (s.tailCache.del i).get id = some p := hp
    obtain ⟨-, hp'⟩ := of_del hp'
    exact hp'

end Sys

end ZeroFS
