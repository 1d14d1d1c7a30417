import ZeroFS.Pipeline.View

/-!
# Segment counters

Each segment counts its live bytes, those of the frames that extent keys name, and all bytes ever placed in it. As long
as a segment's bytes fit into `i64` nothing saturates and nothing is clamped. `Counted`: a debit never takes more than
the superseded frame, and the total with everything claimed stays within the segment.
-/

namespace ZeroFS

open List

/-! ## The deltas of a batch -/

/-- The sum of `f` over the deltas of one segment. -/
def deltaSum (f : Int × Int → Nat) (g : Segid) (deltas : List (Segid × Int × Int)) : Nat :=
  (deltas.map fun d => if d.1 = g then f d.2 else 0).sum

section Deltas

variable (f : Int × Int → Nat) (g : Segid)

theorem deltaSum_append (ds ds' : List (Segid × Int × Int)) :
    deltaSum f g (ds ++ ds') = deltaSum f g ds + deltaSum f g ds' := by simp [deltaSum]

theorem deltaSum_cons (d : Segid × Int × Int) (ds : List (Segid × Int × Int)) :
    deltaSum f g (d :: ds) = (if d.1 = g then f d.2 else 0) + deltaSum f g ds := rfl

/-- A saturating sum is the sum when its positive and its negative part fit. -/
theorem netDelta_eq {deltas : List (Segid × Int × Int)} (hpos : ∀ d ∈ deltas, 0 ≤ d.2.2)
    (hup : deltaSum (fun d => d.1.toNat) g deltas ≤ i64Max) (hdown : deltaSum (fun d => (-d.1).toNat) g deltas ≤ i64Max)
    (htotal : deltaSum (fun d => d.2.toNat) g deltas ≤ i64Max) :
    netDelta deltas g = ((deltaSum (fun d => d.1.toNat) g deltas : Int) - deltaSum (fun d => (-d.1).toNat) g deltas,
      (deltaSum (fun d => d.2.toNat) g deltas : Int)) := by
  -- the accumulator stays in range because what is still to come does
  have hfold : ∀ (ds : List (Segid × Int × Int)) (net : Int × Int), (∀ d ∈ ds, 0 ≤ d.2.2) →
      net.1 + deltaSum (fun d => d.1.toNat) g ds ≤ 2 ^ 63 - 1 →
      -(2 ^ 63) ≤ net.1 - deltaSum (fun d => (-d.1).toNat) g ds → 0 ≤ net.2 →
      net.2 + deltaSum (fun d => d.2.toNat) g ds ≤ 2 ^ 63 - 1 →
      ds.foldl (fun net d => if d.1 = g then (saturatingAdd net.1 d.2.1, saturatingAdd net.2 d.2.2) else net) net =
        (net.1 + deltaSum (fun d => d.1.toNat) g ds - deltaSum (fun d => (-d.1).toNat) g ds,
          net.2 + deltaSum (fun d => d.2.toNat) g ds) := by
    intro ds
    induction ds with
    | nil => intro net _ _ _ _ _; simp [deltaSum]
    | cons d ds ih =>
      intro net hp hu hd h2 ht
      simp only [deltaSum_cons] at hu hd ht ⊢
      have hd2 := hp d mem_cons_self
      have hp' : ∀ d ∈ ds, 0 ≤ d.2.2 := fun d hd => hp d (mem_cons_of_mem _ hd)
      rw [foldl_cons]
      by_cases hg : d.1 = g
      · simp only [hg, if_true] at hu hd ht ⊢
        have h1 : saturatingAdd net.1 d.2.1 = net.1 + d.2.1 := by
          unfold saturatingAdd
          omega
        have h2' : saturatingAdd net.2 d.2.2 = net.2 + d.2.2 := by
          unfold saturatingAdd
          omega
        rw [h1, h2', ih _ hp'] <;> dsimp only
        · rw [Prod.mk.injEq]; omega
        all_goals omega
      · simp only [hg, if_false, Nat.zero_add] at hu hd ht ⊢
        exact ih net hp' hu hd h2 ht
  unfold i64Max at hup hdown htotal
  unfold netDelta
  rw [hfold deltas (0, 0) hpos (by omega) (by omega) (by omega) (by omega)]
  simp

variable {f} {k m : Nat}

/-- The deltas of one pass: credits and debits. -/
theorem deltaSum_pass (hc : ∀ n : Nat, f (n, n) = k * n) (hd : ∀ n : Nat, f (-n, 0) = m * n) (pass : List Edit) :
    deltaSum f g (pass.flatMap Edit.credit ++ pass.flatMap Edit.debits) = k * bytesIn g pass + m * debitIn g pass := by
  rw [deltaSum_append]
  induction pass with
  | nil => rfl
  | cons e pass ih =>
    have hcredit : deltaSum f g e.credit = k * e.bytesIn g := by
      unfold Edit.credit Edit.bytesIn
      cases e.frame with
      | none => rfl
      | some fr => by_cases hg : fr.loc.segid = g <;> simp [deltaSum, hg, hc]
    have hdebit : deltaSum f g e.debits = m * e.debitIn g := by
      unfold Edit.debits Edit.debitIn
      cases e.debit with
      | none => rfl
      | some loc => by_cases hg : loc.segid = g <;> simp [deltaSum, hg, hd]
    rw [flatMap_cons, flatMap_cons, deltaSum_append, deltaSum_append, hcredit, hdebit, bytesIn_cons, debitIn_cons,
      Nat.mul_add, Nat.mul_add]
    omega

theorem deltaSum_txns (hc : ∀ n : Nat, f (n, n) = k * n) (hd : ∀ n : Nat, f (-n, 0) = m * n) (txns : List Txn) :
    deltaSum f g (txns.flatMap Txn.segDeltas) =
      k * bytesIn g (txns.flatMap Txn.edits) + m * debitIn g (txns.flatMap Txn.edits) := by
  have hpasses : txns.flatMap Txn.segDeltas = (txns.flatMap Txn.staged).flatMap fun pass =>
      pass.flatMap Edit.credit ++ pass.flatMap Edit.debits := (flatMap_assoc ..).symm
  have hedits : txns.flatMap Txn.edits = (txns.flatMap Txn.staged).flatten := by
    clear hpasses
    induction txns <;> simp_all [Txn.edits]
  rw [hpasses, hedits]
  induction txns.flatMap Txn.staged with
  | nil => rfl
  | cons pass passes ih =>
    rw [flatMap_cons, deltaSum_append, ih, deltaSum_pass g hc hd, flatten_cons, bytesIn_append, debitIn_append,
      Nat.mul_add, Nat.mul_add]
    omega

end Deltas

/-! ## The counters after a batch -/

namespace Db

def countsOf (db : Db) (g : Segid) : Nat × Nat := (db.segcounts.get g).getD (0, 0)

def liveOf (db : Db) (g : Segid) : Nat := (db.countsOf g).1

def totalOf (db : Db) (g : Segid) : Nat := (db.countsOf g).2

/-- The bytes of a frame in segment `g`. -/
def frameIn (g : Segid) (f : Frame) : Nat := if f.loc.segid = g then f.loc.byteLen else 0

/-- The bytes of the frames in segment `g` that extent keys name. -/
def namedIn (db : Db) (g : Segid) : Nat := db.extents.sum fun _ f => frameIn g f

/-- The stored bytes in segment `g` under the keys of some edits. -/
def supersededIn (db : Db) (g : Segid) (es : List Edit) : Nat :=
  (es.map fun e => (db.extents.get e.key).elim 0 (frameIn g)).sum

variable {db : Db} {g : Segid} {es : List Edit} {txns : List Txn}

theorem countsOf_stage (deltas : List (Segid × Int × Int)) (counts : Table Segid (Nat × Nat)) :
    ((stageSegDeltas counts deltas).get g).getD (0, 0) =
      if g ∈ deltas.map Prod.fst then addDelta ((counts.get g).getD (0, 0)) (netDelta deltas g)
      else (counts.get g).getD (0, 0) := by
  have hfold : stageSegDeltas counts deltas = ((deltas.map Prod.fst).dedup.map fun g =>
      (g, addDelta ((counts.get g).getD (0, 0)) (netDelta deltas g))).foldl (fun t p => t.put p.1 p.2) counts := by
    unfold stageSegDeltas
    rw [foldl_map]
  rw [hfold, Table.get_foldl_put]
  split
  · rename_i hg
    rw [Updates.newest_of_mem (v := addDelta ((counts.get g).getD (0, 0)) (netDelta deltas g))]
    · rfl
    · simpa [Function.comp_def] using nodup_dedup _
    · exact mem_map.2 ⟨g, mem_dedup.2 hg, rfl⟩
  · rename_i hg
    rw [Updates.newest_eq_none_iff.2]
    · rfl
    intro p hp
    obtain ⟨g', hg', rfl⟩ := mem_map.1 hp
    rintro rfl
    exact hg (mem_dedup.1 hg')

theorem segDeltas_nonneg {d : Segid × Int × Int} (h : d ∈ txns.flatMap Txn.segDeltas) : 0 ≤ d.2.2 := by
  obtain ⟨t, _, hd⟩ := mem_flatMap.1 h
  obtain ⟨pass, _, hd⟩ := mem_flatMap.1 hd
  rcases mem_append.1 hd with hd | hd
  · obtain ⟨e, _, hd⟩ := mem_flatMap.1 hd
    obtain ⟨f, _, rfl⟩ := mem_map.1 hd
    exact Int.natCast_nonneg _
  · obtain ⟨e, _, hd⟩ := mem_flatMap.1 hd; obtain ⟨loc, _, rfl⟩ := mem_map.1 hd; exact le_rfl

theorem addDelta_eq {cur : Nat × Nat} {up down : Nat} (hdown : down ≤ cur.1 + up) (hlive : cur.1 + up < 2 ^ 64)
    (htotal : cur.2 + up < 2 ^ 64) :
    addDelta cur ((up : Int) - down, (up : Int)) = (cur.1 + up - down, cur.2 + up) := by
  unfold addDelta
  have h1 : (max ((cur.1 : Int) + ((up : Int) - down)) 0).toNat = cur.1 + up - down := by omega
  have h2 : (max ((cur.2 : Int) + (up : Int)) cur.2).toNat = cur.2 + up := by omega
  simp only [h1, h2, Prod.mk.injEq]
  exact ⟨Nat.mod_eq_of_lt (by omega), Nat.mod_eq_of_lt htotal⟩

/-- **The counters after a batch**, when the bytes of the segment fit into `i64` and the debits into its live bytes. -/
theorem counts_applyBatch (hdebit : debitIn g (txns.flatMap Txn.edits) ≤ db.liveOf g)
    (hle : db.liveOf g ≤ db.totalOf g) (hfit : db.totalOf g + bytesIn g (txns.flatMap Txn.edits) ≤ i64Max) :
    (db.applyBatch txns).liveOf g = db.liveOf g + bytesIn g (txns.flatMap Txn.edits) - debitIn g
      (txns.flatMap Txn.edits) ∧
      (db.applyBatch txns).totalOf g = db.totalOf g + bytesIn g (txns.flatMap Txn.edits) := by
  have hup := deltaSum_txns (f := fun d => d.1.toNat) (k := 1) (m := 0) g (fun n => by simp) (fun n => by simp) txns
  have hdown := deltaSum_txns (f := fun d => (-d.1).toNat) (k := 0) (m := 1) g (fun n => by simp)
    (fun n => by simp) txns
  have htot := deltaSum_txns (f := fun d => d.2.toNat) (k := 1) (m := 0) g (fun n => by simp) (fun n => by simp) txns
  simp only [Nat.one_mul, Nat.zero_mul, Nat.add_zero, Nat.zero_add] at hup hdown htot
  have hcounts : (db.applyBatch txns).countsOf g = (db.liveOf g + bytesIn g (txns.flatMap Txn.edits) -
      debitIn g (txns.flatMap Txn.edits), db.totalOf g + bytesIn g (txns.flatMap Txn.edits)) := by
    show ((stageSegDeltas db.segcounts (txns.flatMap Txn.segDeltas)).get g).getD (0, 0) = _
    rw [countsOf_stage]
    split
    · rw [netDelta_eq g (fun d hd => segDeltas_nonneg hd) (by omega) (by omega) (by omega), hup, hdown, htot]
      have hlive : ((db.segcounts.get g).getD (0, 0)).1 = db.liveOf g := rfl
      have htotal : ((db.segcounts.get g).getD (0, 0)).2 = db.totalOf g := rfl
      unfold i64Max at hfit
      exact addDelta_eq (by omega) (by omega) (by omega)
    -- no edit of the batch names the segment
    rename_i hg
    have hzero : ∀ f, deltaSum f g (txns.flatMap Txn.segDeltas) = 0 := by
      intro f
      refine sum_eq_zero fun n hn => ?_
      obtain ⟨d, hd, rfl⟩ := mem_map.1 hn
      rw [if_neg]
      rintro rfl
      exact hg (mem_map_of_mem hd)
    rw [← hup, ← hdown, hzero, hzero]
    rfl
  unfold liveOf totalOf
  rw [hcounts]
  exact ⟨rfl, rfl⟩

theorem namedIn_applyBatch (hn : ((txns.flatMap Txn.edits).map Edit.key).Nodup) :
    (db.applyBatch txns).namedIn g + db.supersededIn g (txns.flatMap Txn.edits) =
      db.namedIn g + bytesIn g (txns.flatMap Txn.edits) := by
  have hkeys : (((txns.flatMap Txn.edits).map fun e => (e.key, e.frame)).map Prod.fst).Nodup := by
    rw [map_map]
    exact hn
  have h := Table.sum_setAll (fun _ f => frameIn g f) hkeys db.extents
  rw [map_map, map_map] at h
  unfold namedIn
  rw [extents_applyBatch]
  exact h

/-- What a batch supersedes is named before it. -/
theorem supersededIn_le (hn : (es.map Edit.key).Nodup) : db.supersededIn g es ≤ db.namedIn g := by
  have h := Table.sum_split (fun _ f => frameIn g f) db.extents hn
  rw [map_map] at h
  unfold namedIn supersededIn
  rw [h]
  exact Nat.le_add_left _ _

theorem debitIn_locOf {e : Edit} (h : e.debit = db.locOf e.key) :
    e.debitIn g = (db.extents.get e.key).elim 0 (frameIn g) := by
  rw [Edit.debitIn, h, locOf]
  cases db.extents.get e.key <;> rfl

/-- A debit takes at most the superseded frame. -/
theorem debitIn_le (hd : ∀ e ∈ es, e.debit = none ∨ e.debit = db.locOf e.key) :
    debitIn g es ≤ db.supersededIn g es := by
  refine sum_le_sum fun e he => ?_
  rcases hd e he with h | h
  · rw [Edit.debitIn, h]; exact Nat.zero_le _
  · exact (debitIn_locOf h).le

/-- A debit that is the stored location takes the superseded frame. -/
theorem debitIn_eq (hd : ∀ e ∈ es, e.debit = db.locOf e.key) : debitIn g es = db.supersededIn g es :=
  congrArg sum (map_congr_left fun e he => debitIn_locOf (hd e he))

end Db

/-! ## Bytes claimed and not applied -/

/-- The bytes in segment `g` of the frames that a compaction has packed. -/
def packedIn (g : Segid) (items : List (Nat × FrameLoc × FrameLoc)) : Nat :=
  (items.map fun i => if i.2.2.segid = g then i.2.2.byteLen else 0).sum

def ExtentOp.packedIn (g : Segid) : ExtentOp → Nat
  | .repoint _ items => ZeroFS.packedIn g items
  | _ => 0

def Task.packedIn (g : Segid) : Task → Nat
  | .repoint _ items => ZeroFS.packedIn g items
  | _ => 0

/-- The bytes in segment `g` that a call has claimed and no batch has applied; `unapplied` are the queued calls. -/
def Call.claimedIn (g : Segid) (unapplied : List Nat) (tid : Nat) (c : Call) : Nat :=
  match c.phase with
  | .locking _ => (c.tasks.map (Task.packedIn g)).sum
  | .preparing todo ops => (ops.map (ExtentOp.packedIn g)).sum + (todo.map (Task.packedIn g)).sum
  | .staging todo => bytesIn g c.txn.edits + (todo.map (ExtentOp.packedIn g)).sum
  | .queued => if tid ∈ unapplied then bytesIn g c.txn.edits else 0
  | .settled | .answered _ => 0

/-- The bytes in segment `g` that calls have claimed and no batch has applied. -/
def Sys.claimedIn (s : Sys) (g : Segid) : Nat := s.calls.sum (Call.claimedIn g s.unapplied)

/-- No segment overflows, and no number is used twice. -/
structure Segments.Ok (g : Segments) : Prop where
  fit : ∀ segid, g.used segid ≤ i64Max
  lanes : ∀ segid ∈ g.lanes, (g.info.get segid).isSome
  old : ∀ segid, (g.info.get segid).isSome → segid.epoch = g.epoch → segid.counter < g.nextCounter

/-- The counters bound the bytes that extents name. -/
structure Counted (s : Sys) : Prop where
  segments : s.segments.Ok
  total : ∀ g, s.db.totalOf g + s.claimedIn g ≤ s.segments.used g
  live_le : ∀ g, s.db.liveOf g ≤ s.db.totalOf g
  named_le : ∀ g, s.db.namedIn g ≤ s.db.liveOf g

/-! ### What one call claims -/

theorem packedIn_of_validTasks {tasks : List Task} (h : Sys.validTasks tasks = true) (g : Segid) :
    (tasks.map (Task.packedIn g)).sum = 0 := by
  refine sum_eq_zero fun n hn => ?_
  obtain ⟨t, ht, rfl⟩ := mem_map.1 hn
  cases t with
  | repoint id items =>
    unfold Sys.validTasks at h
    split at h
    · cases h
    · rename_i t hne; exact absurd (mem_singleton.1 ht).symm (hne id items)
    · simp at ht
    · simp only [Bool.and_eq_true, all_eq_true] at h; cases h.1.2 _ ht
  | _ => rfl

theorem packedIn_plan {t : Task} {now : Nat → Timestamp} {creds : Credentials} {checkPermissions : Bool}
    {inode : Option Inode} {plan : Plan} (h : t.plan now creds checkPermissions inode = .ok plan) (g : Segid) :
    (plan.ops.map (ExtentOp.packedIn g)).sum ≤ t.packedIn g := by
  obtain ⟨hsub, hok⟩ := plan_ops h
  cases hops : plan.ops with
  | nil => exact Nat.zero_le _
  | cons op rest =>
    rw [hops] at hsub hok
    have hrest : rest = [] := by
      have := hsub.length_le
      simp only [map_cons, length_cons, length_map, length_nil] at this
      exact length_eq_zero_iff.1 (by omega)
    subst hrest
    have hop := hok [t] (mem_singleton_self t) op mem_cons_self
    cases op with
    | repoint id items =>
      rw [← mem_singleton.1 (show Task.repoint id items ∈ [t] from hop)]
      simp [ExtentOp.packedIn, Task.packedIn]
    | _ => exact Nat.zero_le _

theorem bytesIn_repointEdits (s : Sys) (id : InodeId) (g : Segid) (items : List (Nat × FrameLoc × FrameLoc)) :
    bytesIn g (s.repointEdits id items) ≤ packedIn g items := by
  unfold Sys.repointEdits
  induction items with
  | nil => exact le_rfl
  | cons item items ih =>
    have hsum : packedIn g (item :: items) = (if item.2.2.segid = g then item.2.2.byteLen else 0) + packedIn g items :=
      rfl
    rw [filterMap_cons, hsum]
    cases he : s.repointEdit id item with
    | none => exact Nat.le_add_left_of_le ih
    | some e =>
      obtain ⟨f, _, _, hf, _⟩ := Sys.repointEdit_eq_some he
      have hone : e.bytesIn g = if item.2.2.segid = g then item.2.2.byteLen else 0 := by
        unfold Edit.bytesIn
        rw [hf]
        rfl
      simp only [bytesIn_cons, hone]
      omega

namespace Counted

variable {s s' : Sys} {tid : Nat} {c c' : Call}

theorem claimedIn_put (hcalls : s'.calls = s.calls.put tid c') (hun : s'.unapplied = s.unapplied) (g : Segid) :
    s'.claimedIn g + (s.calls.get tid).elim 0 (Call.claimedIn g s.unapplied tid) =
      s.claimedIn g + c'.claimedIn g s.unapplied tid := by
  unfold Sys.claimedIn
  rw [hcalls, hun]
  exact Table.sum_put _ _ _ _

/-- One call changes; what it claims more is claimed in the segments. -/
theorem change (h : Counted s) (hcalls : s'.calls = s.calls.put tid c') (hun : s'.unapplied = s.unapplied)
    (hdb : s'.db = s.db) (hok : s'.segments.Ok)
    (hle : ∀ g, c'.claimedIn g s.unapplied tid + s.segments.used g ≤
      s'.segments.used g + (s.calls.get tid).elim 0 (Call.claimedIn g s.unapplied tid)) : Counted s' := by
  refine ⟨hok, fun g => ?_, hdb ▸ h.live_le, hdb ▸ h.named_le⟩
  have hput := claimedIn_put hcalls hun g
  have := h.total g
  have := hle g
  rw [hdb]
  omega

theorem release (h : Counted s) (hcalls : s'.calls = s.calls.put tid c') (hun : s'.unapplied = s.unapplied)
    (hdb : s'.db = s.db) (hseg : s'.segments = s.segments) (hc : s.At tid c)
    (hle : ∀ g, c'.claimedIn g s.unapplied tid ≤ c.claimedIn g s.unapplied tid) : Counted s' := by
  refine h.change hcalls hun hdb (hseg ▸ h.segments) fun g => ?_
  have := hle g
  rw [hc, Option.elim_some, hseg]
  omega

theorem enqueue (h : Counted s) (he : Sys.Enqueued s s' tid c) (hseg : s'.segments = s.segments) : Counted s' := by
  refine ⟨hseg ▸ h.segments, fun g => ?_, he.db ▸ h.live_le, he.db ▸ h.named_le⟩
  have hput := Table.sum_put (Call.claimedIn g (s.unapplied ++ [tid])) s.calls tid (s.queuedCall c)
  have hold : s.calls.sum (Call.claimedIn g (s.unapplied ++ [tid])) = s.claimedIn g := by
    refine Table.sum_congr fun t u hu => ?_
    unfold Call.claimedIn
    cases hu' : u.phase with
    | queued =>
      have hne : t ≠ tid := by
        rintro rfl
        cases he.get.symm.trans hu
        cases he.phase.symm.trans hu'
      simp [hne]
    | _ => rfl
  have hnew : (s.queuedCall c).claimedIn g (s.unapplied ++ [tid]) tid = bytesIn g c.txn.edits := by
    simp [Call.claimedIn, Sys.queuedCall]
  have hclaim : c.claimedIn g (s.unapplied ++ [tid]) tid = bytesIn g c.txn.edits := by simp [Call.claimedIn, he.phase]
  have htotal := h.total g
  rw [he.get, Option.elim_some, hold, hnew, hclaim] at hput
  unfold Sys.claimedIn
  rw [he.calls, he.unapplied, he.db, hseg]
  omega

theorem shift {a : Action} (h : Counted s) (hm : Sys.Shifted s a s') (hseg : s'.segments.Ok)
    (hused : ∀ g, s'.segments.used g = s.segments.used g) : Counted s' := by
  refine ⟨hseg, fun g => ?_, hm.db ▸ h.live_le, hm.db ▸ h.named_le⟩
  have hle : s'.claimedIn g ≤ s.claimedIn g := by
    unfold Sys.claimedIn
    rw [hm.calls]
    refine Table.sum_le_sum fun t u _ => ?_
    unfold Call.claimedIn
    cases u.phase with
    | queued =>
      dsimp only
      split
      · rename_i ht; rw [if_pos (hm.sublist.subset ht)]
      · exact Nat.zero_le _
    | _ => exact le_rfl
  have := h.total g
  rw [hm.db, hused]
  omega

/-- The calls of the batch are applied: what they claimed is now counted in the totals. -/
theorem claimedIn_apply (hso : Sound s) {batch : List Nat} (hw : s.worker = .drained batch) (g : Segid) :
    s.claimedIn g = s.calls.sum (Call.claimedIn g s.queue) + bytesIn g (s.editsOf batch) := by
  have hun := Sys.unapplied_drained hw
  have hbatch := hso.ordered.phases hw
  have hnd : (batch ++ s.queue).Nodup := by
    have := hso.ordered.nodup
    rw [Sys.unsent, hw] at this
    exact this
  rw [nodup_append] at hnd
  obtain ⟨hnb, _, hdis⟩ := hnd
  unfold Sys.claimedIn
  rw [Table.sum_split _ _ hnb, hun]
  congr 1
  · refine Table.sum_congr fun t c hc => ?_
    split
    · -- the call leaves the queue
      rename_i ht
      have hp : c.phase = .queued := (hbatch t ht).phase hc
      rw [Call.claimedIn, hp]
      exact (if_neg fun hq => hdis t ht t hq rfl).symm
    · rename_i ht; unfold Call.claimedIn; cases c.phase <;> simp [ht]
  · have hall : ∀ l ⊆ batch, (l.map fun t => (s.calls.get t).elim 0 (Call.claimedIn g (batch ++ s.queue) t)).sum =
        bytesIn g (s.editsOf l) := by
      intro l hl
      induction l with
      | nil => rfl
      | cons t l ih =>
        have ht : t ∈ batch := hl mem_cons_self
        obtain ⟨c, hc, hp : c.phase = .queued⟩ := hbatch t ht
        rw [map_cons, sum_cons, ih fun t ht => hl (mem_cons_of_mem _ ht), Sys.editsOf_cons, hc,
          Option.elim_some, Option.elim_some, bytesIn_append]
        congr 1
        simp [Call.claimedIn, hp, ht]
    exact hall batch (List.Subset.refl _)

end Counted

namespace Segments.Ok

variable {g : Segments}

theorem used_fresh (h : g.Ok) : g.info.get g.fresh = none := by
  cases hi : g.info.get g.fresh with
  | none => rfl
  | some i => exact absurd (h.old g.fresh (by rw [hi]; rfl) rfl) (Nat.lt_irrefl _)

theorem allocate (h : g.Ok) (lanes : List Segid) (hl : ∀ segid ∈ lanes, segid = g.fresh ∨ segid ∈ g.lanes)
    {g' : Segments}
    (hg' : g' = { g with lanes := lanes, nextCounter := g.nextCounter + 1, info := g.info.put g.fresh ⟨0, 0⟩ }) :
    g'.Ok ∧ ∀ segid, g'.used segid = g.used segid := by
  subst hg'
  have hused : ∀ segid, Segments.used
      { g with lanes := lanes, nextCounter := g.nextCounter + 1, info := g.info.put g.fresh ⟨0, 0⟩ } segid =
      g.used segid := by
    intro segid
    unfold used infoOf
    rw [Table.get_put]
    split
    · rename_i heq; rw [heq, h.used_fresh]; rfl
    · rfl
  refine ⟨⟨fun segid => by rw [hused]; exact h.fit segid, fun segid hm => ?_, fun segid hs he => ?_⟩, hused⟩
  · rw [Table.get_put]
    split
    · rfl
    · rename_i hne; exact h.lanes segid ((hl segid hm).resolve_left hne)
  · have hs' : ((g.info.put g.fresh ⟨0, 0⟩).get segid).isSome := hs
    rw [Table.get_put] at hs'
    split at hs'
    · rename_i heq; rw [heq]; exact Nat.lt_succ_self _
    · exact Nat.lt_succ_of_lt (h.old segid hs' he)

theorem claim {g' : Segments} {es : List Edit} (h : g.Ok) (hc : g.Claims g' es) : g'.Ok := by
  refine ⟨fun segid => ?_, fun segid hm => ?_, fun segid hs he => ?_⟩
  · rcases hc.bound segid with hb | hb
    · rw [hb]; exact h.fit segid
    · exact hb
  · rw [hc.lanes] at hm; exact hc.known segid (h.lanes segid hm)
  · rw [hc.nextCounter]
    rw [hc.epoch] at he
    rcases hc.places segid hs with hk | hk
    · exact h.old segid hk he
    · exact h.old segid (h.lanes segid hk) he

end Segments.Ok

namespace Sys

variable {sealedLen : Extent → Nat} {s s' : Sys} {a : Action} {batch : List Nat}

theorem nodup_batch (hso : Sound s) (hw : s.worker = .drained batch) :
    ((s.editsOf batch).map Edit.key).Nodup := by
  have hnd : batch.Nodup := by
    have := hso.ordered.nodup
    rw [unsent, hw] at this
    exact (nodup_append.1 this).1
  exact nodup_editsOf hso.separated hnd (hso.ordered.phases hw)

theorem debit_bounds (hso : Sound s) (hw : s.worker = .drained batch) (g : Segid) :
    debitIn g (s.editsOf batch) ≤ s.db.supersededIn g (s.editsOf batch) ∧
      s.db.supersededIn g (s.editsOf batch) ≤ s.db.namedIn g := by
  have hmem : ∀ t ∈ batch, t ∈ s.unapplied := fun t ht => mem_append_left _ (by rw [hw]; exact ht)
  refine ⟨Db.debitIn_le fun e he => ?_, Db.supersededIn_le (nodup_batch hso hw)⟩
  obtain ⟨t, ht, c, hc, he⟩ := mem_editsOf.1 he
  exact hso.stored.debit t c hc (.inr (hmem t ht)) e he

/-- The counters when a batch is applied: nothing saturates, nothing is clamped. -/
theorem counts_apply (h : Counted s) (hso : Sound s) (hw : s.worker = .drained batch) :
    ((s.editsOf batch).map Edit.key).Nodup ∧ ∀ g, (s.db.applyBatch (s.txnsOf batch)).liveOf g =
        s.db.liveOf g + bytesIn g (s.editsOf batch) - debitIn g (s.editsOf batch) ∧
      (s.db.applyBatch (s.txnsOf batch)).totalOf g = s.db.totalOf g + bytesIn g (s.editsOf batch) := by
  refine ⟨nodup_batch hso hw, fun g => ?_⟩
  have := debit_bounds hso hw g
  have := h.named_le g
  have := h.total g
  have := h.segments.fit g
  have := Counted.claimedIn_apply hso hw g
  refine Db.counts_applyBatch ?_ (h.live_le g) ?_
  · show debitIn g (s.editsOf batch) ≤ _; omega
  · show _ + bytesIn g (s.editsOf batch) ≤ _; omega

/-! ### Steps -/

theorem counted_compact {tid : Nat} {id : InodeId} {segid : Segid} {items : List (Nat × FrameLoc × FrameLoc)}
    {bytes : Nat} {c' : Call} (h : Counted s) (hnew : s.calls.get tid = none)
    (hseg : (s.segments.info.get segid).isSome) (hitems : ∀ i ∈ items, i.2.2.segid = segid)
    (hbytes : bytes = (items.map fun i => i.2.2.byteLen).sum)
    (hfit : (s.segments.infoOf segid).bytes + bytes ≤ i64Max) (htasks : c'.tasks = [.repoint id items])
    (hp : c'.phase = .locking [id]) :
    Counted { s.setCall tid c' with segments := s.segments.extend segid bytes items.length } := by
  have hpacked : ∀ g, packedIn g items = if g = segid then bytes else 0 := by
    intro g
    split
    · rename_i hg
      rw [hbytes]
      exact congrArg sum (map_congr_left fun i hi => if_pos ((hitems i hi).trans hg.symm))
    · rename_i hg
      refine sum_eq_zero fun n hn => ?_
      obtain ⟨i, hi, rfl⟩ := mem_map.1 hn
      exact if_neg fun e => hg (e.symm.trans (hitems i hi))
  have hused : ∀ g, (s.segments.extend segid bytes items.length).used g = s.segments.used g + packedIn g items := by
    intro g
    rw [Segments.extend, Segments.used_put, hpacked]
    split
    · rename_i hg; rw [hg]; rfl
    · rfl
  refine h.change rfl rfl rfl ⟨fun g => ?_, fun g hg => ?_, fun g hg he => ?_⟩ fun g => ?_
  · rw [Segments.extend, Segments.used_put]
    split
    · exact hfit
    · exact h.segments.fit g
  · show ((s.segments.info.put segid _).get g).isSome
    rw [Table.get_put]
    split
    · rfl
    · exact h.segments.lanes g hg
  · have hg' : ((s.segments.info.put segid _).get g).isSome := hg
    rw [Table.get_put] at hg'
    split at hg'
    · rename_i heq; subst heq; exact h.segments.old g hseg he
    · exact h.segments.old g hg' he
  · show c'.claimedIn g s.unapplied tid + _ ≤ (s.segments.extend segid bytes items.length).used g + _
    rw [hused g, hnew, Call.claimedIn, hp, htasks]
    simp [Task.packedIn]
    omega

/-- Planning a task claims no more than the task had packed. -/
theorem claimedIn_planned {tid : Nat} {now : Nat → Timestamp} {c : Call} {task : Task} {todo : List Task}
    {ops : List ExtentOp} {plan : Plan} {rs : List ProvisionalQuotaReservation} {inode : Option Inode} {l : List Nat}
    (hok : CallOk c) (hp : c.phase = .preparing (task :: todo) ops)
    (hplan : task.plan now c.creds c.checkPermissions inode = .ok plan) (g : Segid) :
    (planned c task.id inode plan rs todo ops).claimedIn g l tid ≤ c.claimedIn g l tid := by
  have hph := hok.phaseOk hp
  have hpacked := packedIn_plan hplan g
  have hnil : bytesIn g c.txn.edits = 0 := by rw [Txn.edits, hph.2.1]; rfl
  have hold : c.claimedIn g l tid = (ops.map (ExtentOp.packedIn g)).sum +
      (task.packedIn g + (todo.map (Task.packedIn g)).sum) := by
    rw [Call.claimedIn, hp]
    rfl
  have hnew : (planned c task.id inode plan rs todo ops).claimedIn g l tid = (ops.map (ExtentOp.packedIn g)).sum +
      (plan.ops.map (ExtentOp.packedIn g)).sum + (todo.map (Task.packedIn g)).sum := by
    unfold Call.claimedIn planned
    by_cases ht : todo = []
    · simp only [ht, if_true, map_append, sum_append, map_nil, sum_nil]
      show bytesIn g c.txn.edits + _ = _
      omega
    · simp only [ht, if_false, map_append, sum_append]
  omega

theorem counted_stage {tid lane : Nat} {c : Call} {op : ExtentOp} {todo : List ExtentOp} {r : Staged} (h : Counted s)
    (hso : Sound s) (hc : s.At tid c) (hp : c.phase = .staging (op :: todo))
    (hst : s.stageOp sealedLen lane op = some r) (hcalls : s'.calls = s.calls.put tid (stagedCall c r todo))
    (hun : s'.unapplied = s.unapplied) (hdb : s'.db = s.db) (hsegs : s'.segments = r.segments) : Counted s' := by
  have hok := hso.separated.call tid c hc
  have hph := hok.phaseOk hp
  have hop : OpOk c.tasks op := hph.2.1 op mem_cons_self
  have hold : ∀ g, c.claimedIn g s.unapplied tid =
      bytesIn g c.txn.edits + (op.packedIn g + (todo.map (ExtentOp.packedIn g)).sum) := by
    intro g
    rw [Call.claimedIn, hp]
    rfl
  have hnew : ∀ g, (stagedCall c r todo).claimedIn g s.unapplied tid =
      bytesIn g c.txn.edits + bytesIn g r.passes.flatten + (todo.map (ExtentOp.packedIn g)).sum := by
    intro g
    show bytesIn g (c.txn.staged ++ r.passes).flatten + _ = _
    rw [flatten_append, bytesIn_append]
    rfl
  by_cases hr : ∃ id items, op = .repoint id items
  · -- the frames of a swap were claimed when they were packed
    obtain ⟨id, items, rfl⟩ := hr
    obtain ⟨_, hedits, hsame⟩ := stagedOk_repoint (hok.items_nodup id items hop) hst
    refine h.change hcalls hun hdb (by rw [hsegs, hsame]; exact h.segments) fun g => ?_
    have hle := bytesIn_repointEdits s id g items
    have hpk : ExtentOp.packedIn g (.repoint id items) = packedIn g items := rfl
    rw [hc, Option.elim_some, hold, hnew, hedits, hsegs, hsame]
    omega
  · obtain ⟨_, hclaims⟩ := stageOp_spec hso.stored.cached (by rintro id offset oldSize rfl; exact hop.1 rfl)
      (fun id items e => hr ⟨id, items, e⟩) hst
    refine h.change hcalls hun hdb (hsegs ▸ h.segments.claim hclaims) fun g => ?_
    have hused := hclaims.used g
    rw [hc, Option.elim_some, hold, hnew, hsegs]
    omega

theorem counted_apply (h : Counted s) (hso : Sound s) (hw : s.worker = .drained batch) (hcalls : s'.calls = s.calls)
    (hun : s'.unapplied = s.queue) (hdb : s'.db = s.db.applyBatch (s.txnsOf batch)) (hsegs : s'.segments = s.segments) :
    Counted s' := by
  obtain ⟨hkeys, hcounts⟩ := counts_apply h hso hw
  refine ⟨hsegs ▸ h.segments, fun g => ?_, fun g => ?_, fun g => ?_⟩
  · rw [claimedIn, hcalls, hun, hdb, hsegs]
    have := h.total g
    have := Counted.claimedIn_apply hso hw g
    have := (hcounts g).2
    omega
  · rw [hdb]
    have := hcounts g
    have := h.live_le g
    omega
  · -- a debit takes no more than what the batch supersedes
    rw [hdb]
    have hnamed : (s.db.applyBatch (s.txnsOf batch)).namedIn g + s.db.supersededIn g (s.editsOf batch) =
        s.db.namedIn g + bytesIn g (s.editsOf batch) := Db.namedIn_applyBatch hkeys
    have := debit_bounds hso hw g
    have := (hcounts g).1
    have := h.named_le g
    omega

/-- **Every step keeps the counters above the named frames.** -/
theorem step_counted (h : Counted s) (hso : Sound s) (hs : Stepped sealedLen s a s') : Counted s' := by
  have hs' := hs
  cases hs with
  | @spawn tid tasks creds checkPermissions hnew hv =>
    refine h.change rfl rfl rfl h.segments fun g => ?_
    rw [hnew]
    show (tasks.map (Task.packedIn g)).sum + _ ≤ _ + 0
    rw [packedIn_of_validTasks hv, Nat.zero_add]
    exact le_rfl
  | compact hnew hseg hlane hn hitems hfit => exact counted_compact h hnew hseg hitems rfl hfit rfl rfl
  | lock hc hp hb | start hc hp hfree =>
    refine h.release rfl rfl rfl rfl hc fun g => ?_
    simp [Call.claimedIn, hp]
  | prepare hc hp hplan hres =>
    exact h.release rfl rfl rfl rfl hc (claimedIn_planned (hso.separated.call _ _ hc) hp hplan)
  | refused hc hp hplan hres | invalid hc hp | noop hc hp he | abort hc hp =>
    exact h.release rfl rfl rfl rfl hc fun g => Nat.zero_le _
  | stage hc hp hst => exact counted_stage h hso hc hp hst rfl rfl rfl rfl
  | submit hc hp he => exact h.enqueue ⟨hc, hp, rfl, rfl, rfl, rfl, rfl, rfl, rfl⟩ rfl
  | apply hw => exact counted_apply h hso hw rfl rfl rfl rfl
  | settle hw hc hp => exact h.release rfl (unapplied_settling hso.ordered hw).1.symm rfl rfl hc fun g => Nat.zero_le _
  | send hw hc hp | sendSettle hw hc hp =>
    have hun := (unapplied_sending hso.ordered hw).1
    exact h.release rfl (hun ▸ unapplied_eq_queue (afterSend_batch _ _ _)) rfl rfl hc fun g => Nat.zero_le _
  | @rotate lane =>
    obtain ⟨hok, hused⟩ := h.segments.allocate (s.segments.lanes.set lane s.segments.fresh)
      (fun _ hm => (mem_or_eq_of_mem_set hm).symm) rfl
    exact h.shift (hs'.shifted hso.ordered rfl) hok hused
  | pack =>
    obtain ⟨hok, hused⟩ := h.segments.allocate s.segments.lanes (fun _ => .inr) rfl
    exact h.shift (hs'.shifted hso.ordered rfl) hok hused
  | drain | reject | reply | loadLocation | evictLocation | evictTail =>
    exact h.shift (hs'.shifted hso.ordered rfl) h.segments fun _ => rfl

end Sys

end ZeroFS
