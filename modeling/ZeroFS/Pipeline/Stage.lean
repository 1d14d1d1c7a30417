import ZeroFS.Pipeline.Model

/-!
# What staging adds to a transaction

The staged edits of an operation are edits of its inode, at different extents that no queued write claims; each debits
nothing or the stored location of its extent; and the bytes of new frames are claimed in the segments (`stageOp_spec`).
-/

namespace ZeroFS

open List

/-- The file size that an operation looks up superseded frames below; the others scan what is stored. -/
def ExtentOp.oldSize : ExtentOp → Option Nat
  | .write _ _ _ size | .truncate _ size _ | .zeroRange _ _ _ size => some size
  | .deleteRange .. | .repoint .. => none

def Edit.bytesIn (g : Segid) (e : Edit) : Nat := e.frame.elim 0 fun f => if f.loc.segid = g then f.loc.byteLen else 0

def Edit.debitIn (g : Segid) (e : Edit) : Nat := e.debit.elim 0 fun loc => if loc.segid = g then loc.byteLen else 0

/-- The bytes of the frames that a list of edits puts into segment `g`. -/
def bytesIn (g : Segid) (es : List Edit) : Nat := (es.map (Edit.bytesIn g)).sum

/-- The bytes that a list of edits debits from segment `g`. -/
def debitIn (g : Segid) (es : List Edit) : Nat := (es.map (Edit.debitIn g)).sum

@[simp] theorem bytesIn_nil (g : Segid) : bytesIn g [] = 0 := rfl
@[simp] theorem debitIn_nil (g : Segid) : debitIn g [] = 0 := rfl

@[simp] theorem bytesIn_cons (g : Segid) (e : Edit) (es : List Edit) :
    bytesIn g (e :: es) = e.bytesIn g + bytesIn g es :=
  rfl

@[simp] theorem debitIn_cons (g : Segid) (e : Edit) (es : List Edit) :
    debitIn g (e :: es) = e.debitIn g + debitIn g es :=
  rfl

@[simp] theorem bytesIn_append (g : Segid) (es es' : List Edit) :
    bytesIn g (es ++ es') = bytesIn g es + bytesIn g es' := by
  simp [bytesIn]

@[simp] theorem debitIn_append (g : Segid) (es es' : List Edit) :
    debitIn g (es ++ es') = debitIn g es + debitIn g es' := by
  simp [debitIn]

/-! ## Claiming frames -/

section Place

variable (sealedLen : Extent → Nat) (segid g : Segid) (id : InodeId) (debit : Nat → Option FrameLoc)

theorem placeEdits_eq (seg : SegInfo) (edits : List (Nat × Option Extent)) :
    (placeEdits sealedLen segid id debit seg edits).1.map (fun e => (e.key, e.frame.map Frame.data, e.debit)) =
      edits.map fun p => ((id, p.1), p.2, debit p.1) := by
  induction edits generalizing seg with
  | nil => rfl
  | cons p rest ih =>
    obtain ⟨idx, _ | x⟩ := p
    · simp [placeEdits, ih]
    · simp [placeEdits, ih]

/-- The claimed bytes are the bytes of the placed frames, all in one segment. -/
theorem placeEdits_bytes (seg : SegInfo) (edits : List (Nat × Option Extent)) :
    (if segid = g then seg.bytes else 0) + bytesIn g (placeEdits sealedLen segid id debit seg edits).1 =
      if segid = g then (placeEdits sealedLen segid id debit seg edits).2.bytes else 0 := by
  induction edits generalizing seg with
  | nil => simp [placeEdits]
  | cons p rest ih =>
    obtain ⟨idx, _ | x⟩ := p
    · have := ih seg; simpa [placeEdits, Edit.bytesIn] using this
    have := ih ⟨seg.bytes + (lenPrefix + sealedLen x), seg.frames + 1⟩
    by_cases hg : segid = g
    · simp only [hg, if_true] at this ⊢
      simp only [placeEdits, bytesIn_cons, Edit.bytesIn, Option.elim_some, if_true]
      omega
    · simpa [placeEdits, Edit.bytesIn, hg] using this

end Place

namespace Segments

def used (g : Segments) (segid : Segid) : Nat := (g.infoOf segid).bytes

/-- `g'` has the bytes of the staged frames claimed on top of `g`. -/
structure Claims (g g' : Segments) (es : List Edit) : Prop where
  used : ∀ segid, g'.used segid = g.used segid + bytesIn segid es
  bound : ∀ segid, g'.used segid = g.used segid ∨ g'.used segid ≤ i64Max
  lanes : g'.lanes = g.lanes
  epoch : g'.epoch = g.epoch
  nextCounter : g'.nextCounter = g.nextCounter
  known : ∀ segid, (g.info.get segid).isSome → (g'.info.get segid).isSome
  places : ∀ segid, (g'.info.get segid).isSome → (g.info.get segid).isSome ∨ segid ∈ g.lanes

theorem used_put (g : Segments) (segid segid' : Segid) (seg : SegInfo) :
    used { g with info := g.info.put segid seg } segid' = if segid' = segid then seg.bytes else g.used segid' := by
  unfold used infoOf
  rw [Table.get_put]
  split <;> rfl

theorem Claims.refl {g : Segments} {es : List Edit} (h : ∀ segid, bytesIn segid es = 0) : Claims g g es :=
  ⟨fun segid => by rw [h segid]; rfl, fun _ => .inl rfl, rfl, rfl, rfl, fun _ hs => hs, fun _ hs => .inl hs⟩

end Segments

namespace Sys

variable {s : Sys} {sealedLen : Extent → Nat} {lane : Nat} {id : InodeId}

/-- The location cache agrees with the committed locations. -/
def LocationsCached (s : Sys) : Prop := ∀ key loc, s.extentLocationCache.get key = some loc → loc = s.db.locOf key

theorem lookupLoc_eq (h : s.LocationsCached) (id : InodeId) (n idx : Nat) :
    s.lookupLoc id n idx = s.db.locOf (id, idx) := by
  unfold lookupLoc
  split
  · split
    · rename_i loc hc; exact h _ _ hc
    · rfl
  · rfl

theorem stageEdits_spec (hc : s.LocationsCached) {edits : List (Nat × Option Extent)} {oldEnd : Nat}
    {es : List Edit} {g : Segments} (h : s.stageEdits sealedLen lane id edits oldEnd = some (es, g)) :
    es.map (fun e => (e.key, e.frame.map Frame.data, e.debit)) =
        edits.map (fun p => ((id, p.1), p.2, if p.1 < oldEnd then s.db.locOf (id, p.1) else none)) ∧
      s.segments.Claims g es := by
  obtain ⟨segid, hlane, h⟩ := Option.bind_eq_some_iff.1 h
  simp only [lookupLoc_eq hc] at h
  have heq := placeEdits_eq sealedLen segid id (fun idx => if idx < oldEnd then s.db.locOf (id, idx) else none)
    (s.segments.infoOf segid) edits
  have hbytes := fun g => placeEdits_bytes sealedLen segid g id
    (fun idx => if idx < oldEnd then s.db.locOf (id, idx) else none) (s.segments.infoOf segid) edits
  generalize placeEdits sealedLen segid id _ (s.segments.infoOf segid) edits = r at h heq hbytes
  split at h
  · rename_i hfit
    cases h
    refine ⟨heq, fun g => ?_, fun g => ?_, rfl, rfl, rfl, fun g hg => ?_, fun g hg => ?_⟩
    · have hb := hbytes g
      rw [Segments.used_put]
      by_cases hg : g = segid
      · subst hg; simp only [if_true] at hb ⊢; exact hb.symm
      · rw [if_neg hg]
        rw [if_neg (Ne.symm hg), if_neg (Ne.symm hg), Nat.zero_add] at hb
        rw [hb]
        rfl
    · rw [Segments.used_put]
      split
      · exact .inr hfit.1
      · exact .inl rfl
    · rw [Table.get_put]
      split
      · rfl
      · exact hg
    · have hg' : ((s.segments.info.put segid r.2).get g).isSome := hg
      rw [Table.get_put] at hg'
      split at hg'
      · rename_i heq; exact .inr (heq ▸ mem_of_getElem? hlane)
      · exact .inl hg'
  · cases h

/-! ## The operations -/

/-- What holds of every staged operation but the swap of a compaction, which claimed its frames before. -/
structure StagedOk (s : Sys) (op : ExtentOp) (r : Staged) : Prop where
  key_id : ∀ e ∈ r.passes.flatten, e.key.1 = op.id
  nodup : (r.passes.flatten.map Edit.key).Nodup
  free : ∀ e ∈ r.passes.flatten, ∀ w ∈ s.inflight, w.id = op.id → ¬(w.start ≤ e.key.2 ∧ e.key.2 ≤ w.stop)
  debit : ∀ e ∈ r.passes.flatten, e.debit = s.db.locOf e.key ∨
    (e.debit = none ∧ ∃ size, op.oldSize = some size ∧ extentCount size ≤ e.key.2)

variable {start stop idx oldEnd size offset oldSize : Nat} {e : Edit} {w : InflightWrite}
  {edits : List (Nat × Option Extent)} {es : List Edit} {g : Segments} {op : ExtentOp} {data : List UInt8}
  {r : Staged} {tails : List (InodeId × TailUpdate)}

theorem mem_scanExtents {db : Db} {f : Frame} :
    (idx, f) ∈ db.scanExtents id start stop ↔ db.extents.get (id, idx) = some f ∧ start ≤ idx ∧ idx < stop := by
  unfold Db.scanExtents
  simp only [mem_filterMap, Option.ite_none_right_eq_some, Option.some.injEq, Prod.mk.injEq]
  constructor
  · rintro ⟨⟨⟨i, j⟩, f'⟩, he, ⟨rfl, hs, ht⟩, rfl, rfl⟩; exact ⟨Table.mem_entries.1 he, hs, ht⟩
  · rintro ⟨hf, hs, ht⟩; exact ⟨⟨(id, idx), f⟩, Table.mem_entries.2 hf, ⟨rfl, hs, ht⟩, rfl, rfl⟩

theorem nodup_scanExtents (db : Db) (id : InodeId) (start stop : Nat) :
    ((db.scanExtents id start stop).map Prod.fst).Nodup := by
  have hk : db.extents.entries.Pairwise fun a b => a.1 ≠ b.1 := nodupKeys_iff_pairwise.1 db.extents.nodupKeys
  refine pairwise_map.2 (List.Pairwise.filterMap _ ?_ hk)
  rintro ⟨⟨i, j⟩, f⟩ ⟨⟨i', j'⟩, f'⟩ hne a ha b hb
  simp only [Option.ite_none_right_eq_some, Option.some.injEq] at ha hb
  obtain ⟨⟨rfl, _⟩, rfl⟩ := ha
  obtain ⟨⟨rfl, _⟩, rfl⟩ := hb
  rintro rfl
  exact hne rfl

theorem mem_deleteEdits (h : e ∈ s.deleteEdits id start stop) :
    ∃ idx, e.key = (id, idx) ∧ start ≤ idx ∧ idx < stop ∧ e.frame = none ∧ e.debit = s.db.locOf e.key := by
  obtain ⟨⟨idx, f⟩, hmem, rfl⟩ := mem_map.1 h
  obtain ⟨hf, hs, ht⟩ := mem_scanExtents.1 hmem
  exact ⟨idx, rfl, hs, ht, rfl, by simp [Db.locOf, hf]⟩

theorem nodup_deleteEdits (id : InodeId) (start stop : Nat) : ((s.deleteEdits id start stop).map Edit.key).Nodup := by
  have h := nodup_scanExtents s.db id start stop
  unfold deleteEdits
  rw [map_map]
  have hcomp : (Edit.key ∘ fun e : Nat × Frame => (⟨(id, e.1), none, some e.2.loc⟩ : Edit)) =
      (fun idx => (id, idx)) ∘ Prod.fst := rfl
  rw [hcomp, ← map_map]
  exact h.map fun _ _ he => (Prod.mk.inj he).2

theorem bytesIn_deleteEdits (g : Segid) (id : InodeId) (start stop : Nat) :
    bytesIn g (s.deleteEdits id start stop) = 0 := by
  unfold bytesIn deleteEdits
  rw [map_map]
  refine sum_eq_zero fun n hn => ?_
  obtain ⟨_, _, rfl⟩ := mem_map.1 hn
  rfl

theorem not_overlaps (h : s.overlaps id start stop = false)
    (hw : w ∈ s.inflight) (hid : w.id = id) (h1 : start ≤ idx) (h2 : idx ≤ stop) :
    ¬(w.start ≤ idx ∧ idx ≤ w.stop) := by
  unfold overlaps at h
  rw [any_eq_false] at h
  have := h w hw
  simp only [hid, decide_true, Bool.true_and, Bool.and_eq_true, decide_eq_true_eq] at this
  omega

theorem not_inflightOn (h : s.inflightOn id = false) (hw : w ∈ s.inflight) : w.id ≠ id := by
  unfold inflightOn at h
  rw [any_eq_false] at h
  simpa using h w hw

theorem mem_stageEdits (hc : s.LocationsCached)
    (h : s.stageEdits sealedLen lane id edits oldEnd = some (es, g)) (he : e ∈ es) :
    ∃ p ∈ edits, e.key = (id, p.1) ∧ e.frame.map Frame.data = p.2 ∧
      e.debit = if p.1 < oldEnd then s.db.locOf e.key else none := by
  have hmem := mem_map_of_mem (f := fun e => (e.key, e.frame.map Frame.data, e.debit)) he
  rw [(stageEdits_spec hc h).1] at hmem
  obtain ⟨p, hp, heq⟩ := mem_map.1 hmem
  simp only [Prod.mk.injEq] at heq
  refine ⟨p, hp, heq.1.symm, heq.2.1.symm, ?_⟩
  rw [← heq.2.2, ← heq.1]

theorem nodup_stageEdits (hc : s.LocationsCached)
    (h : s.stageEdits sealedLen lane id edits oldEnd = some (es, g))
    (hn : (edits.map Prod.fst).Nodup) : (es.map Edit.key).Nodup := by
  have hmap := congrArg (map Prod.fst) (stageEdits_spec hc h).1
  simp only [map_map, Function.comp_def] at hmap
  rw [hmap]
  have hcomp : (fun p : Nat × Option Extent => (id, p.1)) = (fun idx => (id, idx)) ∘ Prod.fst := rfl
  rw [hcomp, ← map_map]
  exact hn.map fun _ _ he => (Prod.mk.inj he).2

/-- A pass debits the stored location, except past the end of the file. -/
theorem debit_stageEdits (hc : s.LocationsCached)
    (h : s.stageEdits sealedLen lane id edits (extentCount size) = some (es, g))
    (hsize : op.oldSize = some size) (he : e ∈ es) :
    e.debit = s.db.locOf e.key ∨ (e.debit = none ∧ ∃ size, op.oldSize = some size ∧ extentCount size ≤ e.key.2) := by
  obtain ⟨p, _, hk, _, hd⟩ := mem_stageEdits hc h he
  rw [hd]
  split
  · exact .inl rfl
  rename_i hge
  refine .inr ⟨rfl, size, hsize, ?_⟩
  rw [hk]
  exact Nat.not_lt.1 hge

theorem mem_writeRange (hne : data ≠ []) :
    idx ∈ range' (offset / extentSize) ((offset + data.length - 1) / extentSize - offset / extentSize + 1) ↔
      offset / extentSize ≤ idx ∧ idx ≤ (offset + data.length - 1) / extentSize := by
  have hlen : 0 < data.length := length_pos_iff.2 hne
  have hle : offset / extentSize ≤ (offset + data.length - 1) / extentSize := Nat.div_le_div_right (by omega)
  rw [mem_range'_1]
  omega

/-- A staged write: the extents it touches, each with the data laid over what it found there. -/
theorem stageWrite_spec (hc : s.LocationsCached) (hne : data ≠ [])
    (h : s.stageWrite sealedLen lane id offset data oldSize = some r) :
    StagedOk s (.write id offset data oldSize) r ∧ s.segments.Claims r.segments r.passes.flatten ∧
      r.passes.flatten.map (fun e => (e.key, e.frame.map Frame.data, e.debit)) =
        (writeEdits (s.existingExtent id offset (offset + data.length) oldSize) offset data).map
          (fun p => ((id, p.1), p.2, if p.1 < extentCount oldSize then s.db.locOf (id, p.1) else none)) ∧
      r.tails = [(id, tailUpdate (offset + data.length) oldSize
        (writeEdits (s.existingExtent id offset (offset + data.length) oldSize) offset data))] := by
  unfold stageWrite at h
  simp only at h
  split at h
  · cases h
  rename_i hguard
  obtain ⟨hov, _⟩ := not_or.1 hguard
  obtain ⟨⟨es, g⟩, hst, h⟩ := Option.bind_eq_some_iff.1 h
  cases h
  obtain ⟨heq, hclaims⟩ := stageEdits_spec hc hst
  simp only [flatten_singleton]
  refine ⟨⟨?_, ?_, ?_, ?_⟩, hclaims, heq, trivial⟩ <;> simp only [flatten_singleton]
  · intro e he
    obtain ⟨p, _, hk, _⟩ := mem_stageEdits hc hst he
    rw [hk]
    rfl
  · refine nodup_stageEdits hc hst ?_
    rw [writeEdits_eq hne, map_map]
    simpa [Function.comp_def] using nodup_range'
  · intro e he w hw hid
    obtain ⟨p, hp, hk, _⟩ := mem_stageEdits hc hst he
    rw [writeEdits_eq hne] at hp
    obtain ⟨i, hi, rfl⟩ := mem_map.1 hp
    obtain ⟨h1, h2⟩ := (mem_writeRange hne).1 hi
    rw [hk]
    exact not_overlaps (Bool.eq_false_iff.2 hov) hw hid h1 h2
  · exact fun e he => debit_stageEdits hc hst rfl he

theorem stagedOk_of_pass (hc : s.LocationsCached) (hop : op.id = id)
    (hfree : s.inflightOn id = false) {g' : Segments}
    (h : s.stageEdits sealedLen lane id edits (extentCount size) = some (es, g))
    (hsize : op.oldSize = some size) (hn : (edits.map Prod.fst).Nodup) : StagedOk s op ⟨[es], tails, g'⟩ := by
  refine ⟨?_, ?_, ?_, ?_⟩ <;> simp only [flatten_singleton]
  · intro e he; obtain ⟨p, _, hk, _⟩ := mem_stageEdits hc h he; rw [hk, hop]
  · exact nodup_stageEdits hc h hn
  · intro e _ w hw hid; exact absurd (hid.trans hop) (not_inflightOn hfree hw)
  · exact fun e he => debit_stageEdits hc h hsize he

theorem stagedOk_of_delete (hop : op.id = id) (hfree : s.inflightOn id = false) :
    StagedOk s op ⟨[s.deleteEdits id start stop], tails, g⟩ := by
  refine ⟨?_, ?_, ?_, ?_⟩ <;> simp only [flatten_singleton]
  · intro e he; obtain ⟨idx, hk, _⟩ := mem_deleteEdits he; rw [hk, hop]
  · exact nodup_deleteEdits _ _ _
  · intro e _ w hw hid; exact absurd (hid.trans hop) (not_inflightOn hfree hw)
  · intro e he; obtain ⟨idx, _, _, _, _, hd⟩ := mem_deleteEdits he; exact .inl hd

theorem StagedOk.append {a b : List (List Edit)} {ta tb : List (InodeId × TailUpdate)} {ga gb : Segments}
    (ha : StagedOk s op ⟨a, ta, ga⟩) (hb : StagedOk s op ⟨b, tb, gb⟩)
    (hdis : ∀ e ∈ a.flatten, ∀ e' ∈ b.flatten, e.key ≠ e'.key) : StagedOk s op ⟨a ++ b, ta ++ tb, g⟩ := by
  refine ⟨?_, ?_, ?_, ?_⟩ <;> simp only [flatten_append]
  · intro e he; exact (mem_append.1 he).elim (ha.key_id e) (hb.key_id e)
  · rw [map_append]
    refine nodup_append.2 ⟨ha.nodup, hb.nodup, ?_⟩
    rintro _ hk _ hk'
    obtain ⟨e, he, rfl⟩ := mem_map.1 hk
    obtain ⟨e', he', rfl⟩ := mem_map.1 hk'
    exact hdis e he e' he'
  · intro e he; exact (mem_append.1 he).elim (ha.free e) (hb.free e)
  · intro e he; exact (mem_append.1 he).elim (ha.debit e) (hb.debit e)

theorem extentCount_pred_lt {n : Nat} (h : n % extentSize ≠ 0) : extentCount n - 1 < extentCount n := by
  have : 0 < extentCount n := by
    unfold extentCount extentSize at *
    omega
  omega

theorem stageTruncate_spec (hc : s.LocationsCached) {newSize : Nat} (hfree : s.inflightOn id = false)
    (h : s.stageTruncate sealedLen lane id oldSize newSize = some r) :
    StagedOk s (.truncate id oldSize newSize) r ∧ s.segments.Claims r.segments r.passes.flatten := by
  unfold stageTruncate at h
  split at h
  · cases h
    refine ⟨stagedOk_of_delete rfl hfree, .refl fun g => ?_⟩
    simp only [flatten_singleton, bytesIn_deleteEdits]
  rename_i hmod
  obtain ⟨⟨es, g⟩, hst, h⟩ := Option.bind_eq_some_iff.1 h
  cases h
  have hdel : StagedOk s (.truncate id oldSize newSize)
      ⟨[s.deleteEdits id (extentCount newSize) (extentCount oldSize)], [], s.segments⟩ := stagedOk_of_delete rfl hfree
  have hpass : StagedOk s (.truncate id oldSize newSize) ⟨[es], [], g⟩ := by
    refine stagedOk_of_pass hc rfl ?_ hst rfl (by simp)
    exact hfree
  refine ⟨hdel.append hpass ?_, ?_⟩
  · -- the partial extent lies below the deleted ones
    simp only [flatten_singleton]
    intro e he e' he' heq
    obtain ⟨idx, hk, hle, _⟩ := mem_deleteEdits he
    obtain ⟨p, hp, hk', _⟩ := mem_stageEdits hc hst he'
    cases mem_singleton.1 hp
    rw [hk, hk'] at heq
    have hidx := (Prod.mk.inj heq).2
    have hlt := extentCount_pred_lt hmod
    omega
  · obtain ⟨hused, hbound, hlanes, hepoch, hnext, hknown, hplaces⟩ := (stageEdits_spec hc hst).2
    refine ⟨fun segid => ?_, hbound, hlanes, hepoch, hnext, hknown, hplaces⟩
    rw [hused segid]
    simp [bytesIn_deleteEdits]

theorem nodup_zeroRangeEdits (existing : Nat → Option Extent) (offset length fileSize : Nat) :
    ((zeroRangeEdits existing offset length fileSize).map Prod.fst).Nodup := by
  refine pairwise_map.2 (List.Pairwise.filterMap _ ?_ nodup_range')
  intro i j hne a ha b hb heq
  rw [(zeroEdit_idx ha).1, (zeroEdit_idx hb).1] at heq
  exact hne heq

/-- **What staging adds**: edits of the operation's inode at different extents that no queued write claims. -/
theorem stageOp_spec (hc : s.LocationsCached) (hw : ∀ id offset oldSize, op ≠ .write id offset [] oldSize)
    (hr : ∀ id items, op ≠ .repoint id items) (h : s.stageOp sealedLen lane op = some r) :
    StagedOk s op r ∧ s.segments.Claims r.segments r.passes.flatten := by
  cases op with
  | write id offset data oldSize =>
    have hne : data ≠ [] := by
      rintro rfl
      exact hw _ _ _ rfl
    exact ⟨(stageWrite_spec hc hne h).1, (stageWrite_spec hc hne h).2.1⟩
  | truncate id oldSize newSize =>
    simp only [stageOp] at h
    split at h
    · cases h; exact ⟨⟨nofun, nodup_nil, nofun, nofun⟩, .refl fun _ => rfl⟩
    split at h
    · cases h
    · rename_i hfree; exact stageTruncate_spec hc (by simpa using hfree) h
  | zeroRange id offset length fileSize =>
    simp only [stageOp] at h
    split at h
    · cases h
    rename_i hfree
    obtain ⟨⟨es, g⟩, hst, h⟩ := Option.bind_eq_some_iff.1 h
    cases h
    refine ⟨?_, by simpa using (stageEdits_spec hc hst).2⟩
    refine stagedOk_of_pass hc rfl ?_ hst rfl (nodup_zeroRangeEdits _ _ _ _)
    exact Bool.eq_false_iff.2 hfree
  | deleteRange id start stop =>
    obtain ⟨hfree, rfl⟩ := Machine.of_guard_not h
    refine ⟨stagedOk_of_delete rfl (Bool.eq_false_iff.2 hfree), .refl fun g => ?_⟩
    simp [bytesIn_deleteEdits]
  | repoint id items => exact absurd rfl (hr id items)

/-- A swapped extent: its stored frame is debited and moves to the packed location. -/
theorem repointEdit_eq_some {item : Nat × FrameLoc × FrameLoc}
    (h : s.repointEdit id item = some e) :
    ∃ f, s.db.extents.get (id, item.1) = some f ∧ e.key = (id, item.1) ∧ e.frame = some ⟨item.2.2, f.data⟩ ∧
      e.debit = s.db.locOf e.key := by
  unfold repointEdit at h
  split at h
  · rename_i f hf
    obtain ⟨hold, rfl⟩ := Machine.of_guard h
    exact ⟨f, hf, rfl, rfl, by simp [Db.locOf, hf, hold]⟩
  · cases h

theorem stagedOk_repoint {items : List (Nat × FrameLoc × FrameLoc)} (hn : (items.map Prod.fst).Nodup)
    (h : s.stageOp sealedLen lane (.repoint id items) = some r) :
    StagedOk s (.repoint id items) r ∧ r.passes.flatten = s.repointEdits id items ∧ r.segments = s.segments := by
  obtain ⟨hfree, rfl⟩ := Machine.of_guard_not h
  simp only [flatten_singleton]
  refine ⟨⟨?_, ?_, ?_, ?_⟩, trivial, trivial⟩ <;> simp only [flatten_singleton]
  · intro e he
    obtain ⟨item, _, he⟩ := mem_filterMap.1 he
    obtain ⟨f, _, hk, _⟩ := repointEdit_eq_some he
    rw [hk]
    rfl
  · have hp : items.Pairwise fun a b => a.1 ≠ b.1 := pairwise_map.1 hn
    refine pairwise_map.2 (List.Pairwise.filterMap _ ?_ hp)
    intro a b hne e he e' he' heq
    obtain ⟨_, _, hk, _⟩ := repointEdit_eq_some he
    obtain ⟨_, _, hk', _⟩ := repointEdit_eq_some he'
    rw [hk, hk'] at heq
    exact hne (Prod.mk.inj heq).2
  · intro e _ w hw hid; exact absurd hid (not_inflightOn (Bool.eq_false_iff.2 hfree) hw)
  · intro e he
    obtain ⟨item, _, he⟩ := mem_filterMap.1 he
    obtain ⟨f, _, _, _, hd⟩ := repointEdit_eq_some he
    exact .inl hd

/-- The staged extents of a write lie in the range that it claims in flight. -/
theorem stageWrite_span (hc : s.LocationsCached) (hne : data ≠ [])
    (h : s.stageWrite sealedLen lane id offset data oldSize = some r) :
    extentSpan offset data.length = some (offset / extentSize, (offset + data.length - 1) / extentSize) ∧
      ∀ e ∈ r.passes.flatten, offset / extentSize ≤ e.key.2 ∧ e.key.2 ≤ (offset + data.length - 1) / extentSize := by
  have hlen : 0 < data.length := length_pos_iff.2 hne
  constructor
  · have hfit : offset + data.length ≤ u64Max := by
      unfold stageWrite at h
      simp only at h
      split at h
      · cases h
      rename_i hguard
      have := Nat.not_lt.1 (not_or.1 hguard).2
      unfold extentSize at this
      omega
    unfold extentSpan
    rw [checkedAdd_of_le hfit]
    simp only
    rw [if_neg (by omega)]
  · intro e he
    obtain ⟨_, _, heq, _⟩ := stageWrite_spec hc hne h
    have hmem := mem_map_of_mem (f := fun e => (e.key, e.frame.map Frame.data, e.debit)) he
    rw [heq, writeEdits_eq hne] at hmem
    obtain ⟨p, hp, hk⟩ := mem_map.1 hmem
    obtain ⟨i, hi, rfl⟩ := mem_map.1 hp
    have hkey : e.key = (id, i) := (Prod.mk.inj hk).1.symm
    rw [hkey]
    exact (mem_writeRange hne).1 hi

end Sys

end ZeroFS
