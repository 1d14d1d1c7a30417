import ZeroFS.Pipeline.Tail

/-!
# What a write does to the bytes of a file

The extents that a write stages are its data over those that the queue leads to (`Laid`), and at submission every extent
of the write is staged (`Complete`), so applying it overwrites exactly the bytes of its range.
-/

namespace ZeroFS

open Updates List

namespace View

def extent (v : View) (key : InodeId × Nat) : Extent := Extent.ofEdit ((v.frame key).map Frame.data)

def byte (v : View) (id : InodeId) (pos : Nat) : UInt8 :=
  v.extent (id, pos / extentSize) ⟨pos % extentSize, Nat.mod_lt _ extentSize_pos⟩

end View

/-- Each staged extent is the call's write laid over the extent of the view. -/
def Laid (v : View) (c : Call) : Prop :=
  ∀ e ∈ c.txn.edits, ∀ offset data, Task.write e.key.1 offset data ∈ c.tasks →
    Extent.ofEdit (e.frame.map Frame.data) = (v.extent e.key).overlay e.key.2 offset data

/-- Every extent of a write is staged. -/
def Covered (c : Call) (id : InodeId) (offset : Nat) (data : List UInt8) : Prop :=
  ∀ idx, offset / extentSize ≤ idx → idx ≤ (offset + data.length - 1) / extentSize →
    ∃ e ∈ c.txn.edits, e.key = (id, idx)

/-- Every write is planned, waits to be staged, or is staged. -/
def Complete (c : Call) : Prop :=
  ∀ id offset data, Task.write id offset data ∈ c.tasks → data ≠ [] →
    match c.phase with
    | .preparing todo ops => id ∉ todo.map Task.id → id ∈ ops.map ExtentOp.id
    | .staging todo => id ∈ todo.map ExtentOp.id ∨ Covered c id offset data
    | _ => True

section Planning

variable {v v' : View} {c : Call} {task : Task} {todo : List Task} {ops : List ExtentOp} {plan : Plan}
  {inode : Option Inode} {rs : List ProvisionalQuotaReservation} {now : Nat → Timestamp}

theorem Laid.local (hok : CallOk c) (h : View.AgreeOn c.ids v v') (hl : Laid v c) : Laid v' c := by
  intro e he offset data ht
  have hk : v'.extent e.key = v.extent e.key := by
    unfold View.extent
    rw [(h _ (hok.edits_ids e he)).2 e.key.2]
  rw [hk]
  exact hl e he offset data ht

theorem Laid.planned (hok : CallOk c) (hp : c.phase = .preparing (task :: todo) ops) :
    Laid v (Sys.planned c task.id inode plan rs todo ops) := fun e he =>
  absurd he (CallOk.not_mem_edits (hok.phaseOk hp).2.1 e)

theorem Laid.start (hok : CallOk c) (hp : c.phase = .locking []) : Laid v { c with phase := .preparing c.tasks [] } :=
  fun e he =>
  absurd he (CallOk.not_mem_edits (hok.phaseOk hp).2.2 e)

theorem Complete.start (c : Call) : Complete { c with phase := .preparing c.tasks [] } := by
  intro id offset data ht _ hnot
  exact absurd (mem_map_of_mem (f := Task.id) ht) hnot

theorem Complete.planned (hok : CallOk c) (hp : c.phase = .preparing (task :: todo) ops)
    (hplan : task.plan now c.creds c.checkPermissions inode = .ok plan) (h : Complete c) :
    Complete (Sys.planned c task.id inode plan rs todo ops) := by
  have hph := hok.phaseOk hp
  have hmem : ∀ id offset data, Task.write id offset data ∈ c.tasks → data ≠ [] → id ∉ todo.map Task.id →
      id ∈ (ops ++ plan.ops).map ExtentOp.id := by
    intro id offset data ht hne hnot
    have hold := h id offset data ht hne
    rw [hp] at hold
    rw [map_append]
    by_cases hid : id = task.id
    · -- the write is planned in this step
      have htask : Task.write id offset data = task :=
        inj_on_of_nodup_map hok.nodup ht (hph.2.2.1 task mem_cons_self) hid
      subst htask
      obtain ⟨i, rfl, hpl⟩ := withInode_eq_ok hplan
      obtain ⟨size, a, p, n, k, rfl, ⟨hempty, _⟩ | ⟨_, _, rfl⟩⟩ := planWrite_ok hpl
      · exact absurd hempty hne
      · exact mem_append_right _ mem_cons_self
    · refine mem_append_left _ (hold ?_); rw [map_cons, mem_cons, not_or]; exact ⟨hid, hnot⟩
  intro id offset data ht hne
  by_cases hnil : todo = []
  · have hphase : (Sys.planned c task.id inode plan rs todo ops).phase = .staging (ops ++ plan.ops) := if_pos hnil
    rw [hphase]
    exact .inl (hmem id offset data ht hne (by rw [hnil]; exact not_mem_nil))
  · have hphase : (Sys.planned c task.id inode plan rs todo ops).phase = .preparing todo (ops ++ plan.ops) :=
      if_neg hnil
    rw [hphase]
    exact hmem id offset data ht hne

end Planning

/-! ## Staging -/

section Staging

variable {sealedLen : Extent → Nat} {lane : Nat} {s : Sys} {tid : Nat} {c : Call} {id : InodeId} {offset oldSize : Nat}
  {data : List UInt8} {todo : List ExtentOp} {r : Sys.Staged} {v : View} {l : List Nat}

/-- Overlays are the same where the data lies, so two bases need to agree only outside of it. -/
theorem Extent.overlay_congr {x y : Extent} {idx : Nat}
    (h : ∀ j : Fin extentSize, ¬(offset ≤ idx * extentSize + j ∧ idx * extentSize + j < offset + data.length) →
      x j = y j) : x.overlay idx offset data = y.overlay idx offset data := by
  funext j
  unfold Extent.overlay
  split
  · rfl
  · exact h j (by assumption)

/-- **What a write reads back**: outside of its data, the bytes of every state that the queue can lead to. -/
theorem existing_overlay (hso : Sound s) (htail : TailOk s) (hl : l.Sublist s.unapplied) (hB : (s.after l).Bounded)
    (hc : s.At tid c) (hp : c.phase = .staging (.write id offset data oldSize :: todo))
    (hfree : s.overlaps id (offset / extentSize) ((offset + data.length - 1) / extentSize) = false)
    (hsize : ∃ b, (s.after l).inode id = some b ∧ b.size ≤ oldSize) {idx : Nat} (hlo : offset / extentSize ≤ idx)
    (hhi : idx ≤ (offset + data.length - 1) / extentSize) :
    (s.existingExtent id offset (offset + data.length) oldSize idx).overlay idx offset data =
      ((s.after l).extent (id, idx)).overlay idx offset data := by
  have hph := (hso.separated.call tid c hc).phaseOk hp
  have hheld : id ∈ c.held := hph.1 (hph.2.1 _ mem_cons_self).id_mem
  have hclear : ∀ w ∈ s.inflight, w.id = id → ¬(w.start ≤ idx ∧ idx ≤ w.stop) := fun w hw hid =>
    Sys.not_overlaps hfree hw hid hlo hhi
  have hframe : (s.after l).frame (id, idx) = s.db.extents.get (id, idx) :=
    after_frame_locked hso hc hheld (Sys.not_mem_unapplied hso.ordered hc (.inr (.inr ⟨_, hp⟩))) hl hclear
  have hstored : (s.after l).extent (id, idx) = s.db.extent id idx := by
    unfold View.extent Db.extent
    rw [hframe]
  refine Extent.overlay_congr fun j hout => ?_
  unfold Sys.existingExtent
  split
  · rename_i hskip
    rcases hskip with hcov | hpast
    · unfold coversExtent at hcov; omega
    -- past the size it was planned with nothing is stored
    obtain ⟨b, hb, hle⟩ := hsize
    unfold View.extent
    cases hf : (s.after l).frame (id, idx) with
    | none => rfl
    | some f => have := lt_extentCount.1 (hB id idx f b hf hb); omega
  rw [hstored]
  cases hx : s.tailCache.get id with
  | none => rfl
  | some p =>
    obtain ⟨i, x⟩ := p
    dsimp only
    split
    · rename_i hi
      subst hi
      rcases htail.cached id i x hx with hd | ⟨t, ht, u, hu, e, he, hk⟩
      · rw [hd]
      -- the extents of an applied call are claimed until it is settled
      have hq := (Sys.queued_of_landing hso.ordered ht).phase hu
      have hne : t ≠ tid := by
        rintro rfl
        cases hc.symm.trans hu
        cases hp.symm.trans hq
      have hact : u.phase.active := by
        rw [hq]
        trivial
      exact absurd hk.symm (hso.separated.fresh_keys (e := ⟨(id, i), none, none⟩) hc hheld hclear hu hne hact he)
    · rfl

theorem mem_stagedWrite (hc : s.LocationsCached) (hne : data ≠ [])
    (hst : s.stageOp sealedLen lane (.write id offset data oldSize) = some r) :
    s.overlaps id (offset / extentSize) ((offset + data.length - 1) / extentSize) = false ∧
      (∀ e ∈ r.passes.flatten, e.key.1 = id ∧ offset / extentSize ≤ e.key.2 ∧
        e.key.2 ≤ (offset + data.length - 1) / extentSize ∧ Extent.ofEdit (e.frame.map Frame.data) =
          (s.existingExtent id offset (offset + data.length) oldSize e.key.2).overlay e.key.2 offset data) ∧
      ∀ idx, offset / extentSize ≤ idx → idx ≤ (offset + data.length - 1) / extentSize →
        ∃ e ∈ r.passes.flatten, e.key = (id, idx) := by
  obtain ⟨_, _, hmap, _⟩ := Sys.stageWrite_spec hc hne hst
  rw [writeEdits_eq hne] at hmap
  refine ⟨?_, fun e he => ?_, fun idx hlo hhi => ?_⟩
  · simp only [Sys.stageOp, Sys.stageWrite] at hst
    split at hst
    · cases hst
    rename_i hno
    rw [not_or] at hno
    exact Bool.eq_false_iff.2 hno.1
  · have hmem := mem_map_of_mem (f := fun e => (e.key, e.frame.map Frame.data, e.debit)) he
    rw [hmap] at hmem
    obtain ⟨p, hp, heq⟩ := mem_map.1 hmem
    obtain ⟨i, hi, rfl⟩ := mem_map.1 hp
    simp only [Prod.mk.injEq] at heq
    obtain ⟨hk, hd, _⟩ := heq
    have hrange := (Sys.mem_writeRange hne).1 hi
    rw [← hk, ← hd, Extent.ofEdit_toEdit]
    exact ⟨rfl, hrange.1, hrange.2, rfl⟩
  · have hi := (Sys.mem_writeRange hne).2 ⟨hlo, hhi⟩
    have hp := mem_map_of_mem (f := fun i =>
      (i, ((s.existingExtent id offset (offset + data.length) oldSize i).overlay i offset data).toEdit)) hi
    have hmem := mem_map_of_mem (f := fun p : Nat × Option Extent =>
      ((id, p.1), p.2, if p.1 < extentCount oldSize then s.db.locOf (id, p.1) else none)) hp
    rw [← hmap] at hmem
    obtain ⟨e, he, heq⟩ := mem_map.1 hmem
    exact ⟨e, he, (Prod.mk.inj heq).1⟩

/-- A write is staged over every state that the queue can lead to. -/
theorem Laid.staged (hso : Sound s) (htail : TailOk s) (hl : l.Sublist s.unapplied) (hB : (s.after l).Bounded)
    (hc : s.At tid c) (hp : c.phase = .staging (.write id offset data oldSize :: todo))
    (hst : s.stageOp sealedLen lane (.write id offset data oldSize) = some r)
    (hsize : ∃ b, (s.after l).inode id = some b ∧ b.size ≤ oldSize) (h : Laid (s.after l) c) :
    Laid (s.after l) (Sys.stagedCall c r todo) := by
  have hcall := hso.separated.call tid c hc
  have hph := hcall.phaseOk hp
  have hop := hph.2.1 _ mem_cons_self
  obtain ⟨hfree, hedits, _⟩ := mem_stagedWrite hso.stored.cached hop.1 hst
  intro e he offset' data' ht
  rw [CallOk.edits_stagedCall] at he
  rcases mem_append.1 he with he | he
  · exact h e he offset' data' ht
  obtain ⟨hid, hlo, hhi, hbytes⟩ := hedits e he
  have htask : Task.write e.key.1 offset' data' = Task.write id offset data :=
    inj_on_of_nodup_map hcall.nodup ht hop.2 hid
  simp only [Task.write.injEq] at htask
  obtain ⟨_, rfl, rfl⟩ := htask
  have hkey : e.key = (id, e.key.2) := by rw [← hid]
  rw [hbytes, existing_overlay hso htail hl hB hc hp hfree hsize hlo hhi, ← hkey]

theorem Complete.staged (hso : Sound s) (hc : s.At tid c)
    (hp : c.phase = .staging (.write id offset data oldSize :: todo))
    (hst : s.stageOp sealedLen lane (.write id offset data oldSize) = some r) (h : Complete c) :
    Complete (Sys.stagedCall c r todo) := by
  have hcall := hso.separated.call tid c hc
  have hph := hcall.phaseOk hp
  have hop := hph.2.1 _ mem_cons_self
  obtain ⟨_, _, hall⟩ := mem_stagedWrite hso.stored.cached hop.1 hst
  intro id' offset' data' ht hne
  have hold := h id' offset' data' ht hne
  rw [hp] at hold
  unfold Covered
  rw [CallOk.edits_stagedCall]
  rcases hold with hmem | hcov
  · rcases mem_cons.1 hmem with hid | hmem
    · have hid' : id' = id := hid
      have htask : Task.write id' offset' data' = Task.write id offset data :=
        inj_on_of_nodup_map hcall.nodup ht hop.2 hid'
      obtain ⟨rfl, rfl, rfl⟩ := htask
      refine .inr fun idx hlo hhi => ?_
      obtain ⟨e, he, hk⟩ := hall idx hlo hhi
      exact ⟨e, mem_append_right _ he, hk⟩
    · exact .inl hmem
  · refine .inr fun idx hlo hhi => ?_
    obtain ⟨e, he, hk⟩ := hcov idx hlo hhi
    exact ⟨e, mem_append_left _ he, hk⟩

end Staging

/-! ## Applying -/

section Applying

variable {v : View} {c : Call} {id : InodeId} {offset : Nat} {data : List UInt8}

/-- **A submitted write overwrites the bytes of its range.** -/
theorem byte_apply (hok : CallOk c) (hp : c.phase = .staging []) (hlaid : Laid v c) (hcomp : Complete c)
    (ht : Task.write id offset data ∈ c.tasks) (pos : Nat) :
    (v.apply c.txn).byte id pos =
      if offset ≤ pos ∧ pos < offset + data.length then data.getD (pos - offset) 0 else v.byte id pos := by
  have hpos : pos / extentSize * extentSize + pos % extentSize = pos := Nat.div_add_mod' pos extentSize
  by_cases hm : ∃ e ∈ c.txn.edits, e.key = (id, pos / extentSize)
  · obtain ⟨e, he, hk⟩ := hm
    have hframe : (v.apply c.txn).frame (id, pos / extentSize) = e.frame := by
      rw [← hk]
      exact View.apply_frame_of_mem hok.edits_nodup he
    have hid : e.key.1 = id := by rw [hk]
    have hbytes := hlaid e he offset data (by rw [hid]; exact ht)
    unfold View.byte View.extent
    rw [hframe, hbytes, hk]
    unfold Extent.overlay View.extent
    rw [hpos]
  · have hframe : (v.apply c.txn).frame (id, pos / extentSize) = v.frame (id, pos / extentSize) :=
      View.apply_frame_of_not_mem fun e he hk => hm ⟨e, he, hk⟩
    have hout : ¬(offset ≤ pos ∧ pos < offset + data.length) := by
      rintro ⟨hlo, hhi⟩
      have hne : data ≠ [] := by
        rintro rfl
        rw [length_nil] at hhi
        omega
      have hcov := hcomp id offset data ht hne
      rw [hp] at hcov
      rcases hcov with hnil | hcov
      · cases hnil
      · exact hm (hcov _ (Nat.div_le_div_right hlo) (Nat.div_le_div_right (by omega)))
    rw [if_neg hout]
    unfold View.byte View.extent
    rw [hframe]

theorem byte_apply_of_not_mem (hok : CallOk c) (hid : id ∉ c.ids) (pos : Nat) :
    (v.apply c.txn).byte id pos = v.byte id pos := by
  have hframe : (v.apply c.txn).frame (id, pos / extentSize) = v.frame (id, pos / extentSize) := by
    refine View.apply_frame_of_not_mem fun e he hk => hid ?_
    have := hok.edits_ids e he
    rw [hk] at this
    exact this
  unfold View.byte View.extent
  rw [hframe]

end Applying

end ZeroFS
