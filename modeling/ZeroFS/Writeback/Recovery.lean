import ZeroFS.Writeback.Containers

/-!
# The local journal after a crash

`LocalJournal.Ok`: the rows above `remoteSeq` keep `Stable` containers, and a container between `remoteSeq` and
`localSeq` has the row of its last record. A name that is found and was never synced breaks this (`shard_name_lost`).
-/

namespace ZeroFS.Writeback

open List Option Machine Disk

/-! ## The container of a batch -/

section Batches

variable {sha256 : Payload → List UInt8} {c : Container} {records : List (Option Payload)} {s offset : Nat} {r : Row}

theorem mem_bearing : s ∈ bearing offset records ↔ ∃ i bytes, records[i]? = some (some bytes) ∧ s = offset + i := by
  unfold bearing
  simp only [mem_filterMap, map_eq_some_iff]
  constructor
  · rintro ⟨⟨b, s'⟩, hmem, bytes, rfl, rfl⟩
    obtain ⟨hle, hget⟩ := mem_zipIdx_iff_le_and_getElem?_sub.1 hmem
    exact ⟨s' - offset, bytes, hget, by omega⟩
  · rintro ⟨i, bytes, hget, rfl⟩
    refine ⟨(some bytes, offset + i), ?_, bytes, rfl, rfl⟩
    rw [mem_zipIdx_iff_le_and_getElem?_sub]
    exact ⟨Nat.le_add_right _ _, by simpa using hget⟩

theorem bearing_sorted (offset : Nat) (records : List (Option Payload)) :
    (bearing offset records).Pairwise (· < ·) := by
  induction records generalizing offset with
  | nil => exact List.Pairwise.nil
  | cons b records ih =>
    have hrest : bearing offset (b :: records) = (b.map fun _ => offset).toList ++ bearing (offset + 1) records := by
      cases b <;> simp [bearing, zipIdx_cons]
    rw [hrest, pairwise_append]
    refine ⟨by cases b <;> simp, ih (offset + 1), fun a ha s hs => ?_⟩
    obtain ⟨i, bytes, -, rfl⟩ := mem_bearing.1 hs
    cases b with
    | none => cases ha
    | some bytes =>
      have ha' : a = offset := by simpa using ha
      omega

/-- A container is named for two payload-bearing records of its batch, and the second is the last one. -/
theorem containerOf_spec (h : containerOf offset records = some c) :
    c.first ∈ bearing offset records ∧ c.last ∈ bearing offset records ∧ ∀ s ∈ bearing offset records, s ≤ c.last := by
  unfold containerOf at h
  split at h
  · rename_i f l hf hl
    cases h
    refine ⟨mem_of_head? hf, mem_of_getLast? hl, fun s hs => ?_⟩
    obtain ⟨front, hfront⟩ := getLast?_eq_some_iff.1 hl
    have hsorted := bearing_sorted offset records
    rw [hfront] at hs hsorted
    rcases mem_append.1 hs with hs | hs
    · exact Nat.le_of_lt ((pairwise_append.1 hsorted).2.2 s hs l (by simp))
    · exact (mem_singleton.1 hs).le
  · cases h

theorem containerOf_isSome (hs : s ∈ bearing offset records) : ∃ c, containerOf offset records = some c := by
  unfold containerOf
  cases hb : bearing offset records with
  | nil => rw [hb] at hs; cases hs
  | cons a rest => simp [getLast?_cons]

theorem containerOf_bounds (h : containerOf offset records = some c) :
    offset ≤ c.first ∧ c.first < offset + records.length ∧ offset ≤ c.last ∧ c.last < offset + records.length := by
  obtain ⟨hf, hl, -⟩ := containerOf_spec h
  obtain ⟨i, bytes, hi, hfirst⟩ := mem_bearing.1 hf
  obtain ⟨i', bytes', hi', hlast⟩ := mem_bearing.1 hl
  have := (List.getElem?_eq_some_iff.1 hi).1
  have := (List.getElem?_eq_some_iff.1 hi').1
  omega

theorem map_sequence_batchRows (sha256 : Payload → List UInt8) (c : Container) (s offset : Nat)
    (records : List (Option Payload)) :
    (batchRows sha256 c s offset records).map (·.sequence) = range' s records.length := by
  induction records generalizing s offset with
  | nil => rfl
  | cons b records ih => cases b <;> simp [batchRows, ih, range'_succ]

theorem mem_batchRows (h : r ∈ batchRows sha256 c s offset records) : ∃ i, r.sequence = s + i ∧
    (records[i]? = some none ∧ r.blob = none ∨ ∃ bytes, records[i]? = some (some bytes) ∧
      r.blob = some ⟨bytes.length, sha256 bytes, c, offset + (containerBytes (records.take i)).length,
        bytes.length⟩) := by
  induction records generalizing s offset with
  | nil => cases h
  | cons b records ih =>
    -- the rows of the rest stand one sequence further, and after the payload of this record
    have hstep : ∀ {k}, r ∈ batchRows sha256 c (s + 1) (offset + k) records → (containerBytes [b]).length = k →
        ∃ i, r.sequence = s + i ∧ ((b :: records)[i]? = some none ∧ r.blob = none ∨
        ∃ bytes, (b :: records)[i]? = some (some bytes) ∧
        r.blob = some ⟨bytes.length, sha256 bytes, c, offset + (containerBytes ((b :: records).take i)).length,
        bytes.length⟩) := by
      rintro k h rfl
      obtain ⟨i, hseq, hrow⟩ := ih h
      refine ⟨i + 1, by omega, hrow.imp id ?_⟩
      rintro ⟨bytes, hget, hblob⟩
      exact ⟨bytes, hget, by rw [hblob]; simp [containerBytes, Nat.add_assoc]⟩
    cases b with
    | none =>
      rcases mem_cons.1 h with rfl | h
      · exact ⟨0, rfl, .inl ⟨rfl, rfl⟩⟩
      · exact hstep (k := 0) h rfl
    | some head =>
      rcases mem_cons.1 h with rfl | h
      · exact ⟨0, rfl, .inr ⟨head, rfl, by simp [containerBytes]⟩⟩
      · exact hstep h (by simp [containerBytes])

/-- The slice at the offset of a record is its payload. -/
theorem containerBytes_slice {i : Nat} {bytes : Payload} (h : records[i]? = some (some bytes)) :
    (containerBytes (records.take i)).length + bytes.length ≤ (containerBytes records).length ∧
      ((containerBytes records).drop (containerBytes (records.take i)).length).take bytes.length = bytes := by
  have hsplit : containerBytes records =
      containerBytes (records.take i) ++ (bytes ++ containerBytes (records.drop (i + 1))) := by
    obtain ⟨hlt, hget⟩ := List.getElem?_eq_some_iff.1 h
    conv_lhs => rw [← take_append_drop i records, drop_eq_getElem_cons hlt, hget]
    simp [containerBytes]
  rw [hsplit]
  constructor
  · simp only [length_append]; omega
  · rw [drop_left, take_left]

theorem referenced_batchRows (sha256 : Payload → List UInt8) (h : containerOf s records = some c) (offset : Nat) :
    ∃ r ∈ batchRows sha256 c s offset records, r.sequence = c.last ∧ ∃ b, r.blob = some b ∧ b.container = c := by
  obtain ⟨i, bytes, hi, hlast⟩ := mem_bearing.1 (containerOf_spec h).2.1
  have hlt := (List.getElem?_eq_some_iff.1 hi).1
  have hmem : c.last ∈ (batchRows sha256 c s offset records).map (·.sequence) := by
    rw [map_sequence_batchRows, mem_range'_1]
    omega
  obtain ⟨r, hr, hseq⟩ := mem_map.1 hmem
  obtain ⟨i', hi', hrow⟩ := mem_batchRows hr
  obtain rfl : i' = i := by omega
  rcases hrow with ⟨hnone, -⟩ | ⟨bytes', -, hblob⟩
  · rw [hi] at hnone; cases hnone
  · exact ⟨r, hr, hseq, _, hblob, rfl⟩

end Batches

/-! ## The invariant -/

/-- A row and the record that it was committed for; the container is there for good until its last record is remote. -/
inductive RowOk (sha256 : Payload → List UInt8) (committed : List (Option Payload)) (localSeq remoteSeq : Nat)
    (m : Disk Container Nat) : Row → Prop
  | bare (s : Nat) : committed[s - 1]? = some none → RowOk sha256 committed localSeq remoteSeq m ⟨s, none⟩
  | blob (s : Nat) (c : Container) (offset : Nat) (bytes : Payload) : committed[s - 1]? = some (some bytes) →
      s ≤ c.last →
      c.last ≤ localSeq →
      (remoteSeq < c.last → ∃ content, m.Stable Container.shard c content ∧ offset + bytes.length ≤ content.length ∧
        (content.drop offset).take bytes.length = bytes) →
      RowOk sha256 committed localSeq remoteSeq m ⟨s, some ⟨bytes.length, sha256 bytes, c, offset, bytes.length⟩⟩

/-- The row of the last record of the container refers to it. -/
def Referenced (rows : List Row) (c : Container) : Prop :=
  ∃ r ∈ rows, r.sequence = c.last ∧ ∃ b, r.blob = some b ∧ b.container = c

/-- The rows name synced containers. -/
structure RowsOk (sha256 : Payload → List UInt8) (rows : List Row) (committed : List (Option Payload))
    (localSeq remoteSeq : Nat) (m : Disk Container Nat) : Prop where
  length : committed.length = localSeq
  remoteSeq_le : remoteSeq ≤ localSeq
  sequences : ∃ d ≤ remoteSeq, rows.map (·.sequence) = range' (d + 1) (localSeq - d)
  row : ∀ r ∈ rows, RowOk sha256 committed localSeq remoteSeq m r
  pos : ∀ c f, m.files.get c = some f → 0 < c.last
  file : ∀ c f, m.files.get c = some f → remoteSeq < c.last → c.last ≤ localSeq → Referenced rows c

def Clear (m : Disk Container Nat) (p : Container → Prop) : Prop :=
  ∀ c f, m.files.get c = some f → f.linked = true → ¬p c

/-- The batches follow each other from this sequence on. -/
def Contiguous : Nat → List Batch → Prop
  | _, [] => True
  | n, b :: rest => b.first = n ∧ Contiguous (n + b.records.length) rest

def ContainerAt (m : Disk Container Nat) (c : Container) (bytes : Payload) : StageStep → Prop
  | .begun | .discarded => True
  | .made => ∃ named, m.dirs.get c.shard = some named
  | .opened => m.dirs.get c.shard = some true
  | .created => m.dirs.get c.shard = some true ∧ ∃ f, m.files.get c = some f ∧ f.linked = true
  | .filled => m.dirs.get c.shard = some true ∧ ∃ f, m.files.get c = some f ∧ f.linked = true ∧ f.content = bytes
  | .written => m.dirs.get c.shard = some true ∧
      ∃ f, m.files.get c = some f ∧ f.linked = true ∧ f.content = bytes ∧ f.written = true
  | .durable => m.Stable Container.shard c bytes

def BatchOk (m : Disk Container Nat) (b : Batch) : Prop :=
  ∀ c, b.container = some c → ContainerAt m c (containerBytes b.records) b.step

namespace LocalJournal

/-- A journal that is open, or whose journaler is terminal. -/
structure LiveOk (j : LocalJournal) : Prop where
  base : j.disk.base = some true
  rowed : ∀ c f, j.disk.files.get c = some f → f.linked = true → c.last ≤ j.localSeq → Referenced j.rows c
  staged : ∀ c f, j.disk.files.get c = some f → f.linked = true → j.localSeq < c.last →
    ∃ (i : Nat) (b : Batch), j.batches[i]? = some b ∧ b.container = some c
  contiguous : Contiguous (j.localSeq + 1) j.batches
  batch : ∀ (i : Nat) (b : Batch), j.batches[i]? = some b → BatchOk j.disk b
  pruning : ∀ through step, j.pruning = some (through, step) → through ≤ j.remoteSeq ∧
    (step = .started ∨ Clear j.disk fun c => c.last ≤ through)

def PhaseOk (j : LocalJournal) : Prop :=
  match j.phase with
  | .closed | .creating _ => True
  | .blobsOpen => j.disk.base.isSome ∧ (j.disk.base = some false → j.tmp = none ∨ j.database = false)
  | .tmpOpen => j.disk.base.isSome ∧ (j.disk.base = some false → j.database = false)
  | .opened => j.disk.base = some true
  | .removed _ | .recovered | .swept _ | .synced | .pruned =>
    j.disk.base = some true ∧ Clear j.disk fun c => j.localSeq < c.last
  | .reclaimed _ | .checking =>
    j.disk.base = some true ∧ (Clear j.disk fun c => j.localSeq < c.last) ∧ Clear j.disk fun c => c.last ≤ j.remoteSeq
  | .running | .failed => LiveOk j
  | .refused => False

/-- What every run keeps. -/
structure Ok (sha256 : Payload → List UInt8) (j : LocalJournal) : Prop where
  rows : RowsOk sha256 j.rows j.committed j.localSeq j.remoteSeq j.disk
  phase : PhaseOk j
  idle : j.isLive = false → j.batches = [] ∧ j.pruning = none

end LocalJournal

/-! ## Moves -/

section Moves

variable {sha256 : Payload → List UInt8} {rows : List Row} {committed : List (Option Payload)}
  {localSeq remoteSeq : Nat} {m m' : Disk Container Nat} {r : Row} {c : Container} {b : Batch}

theorem RowOk.disk (h : RowOk sha256 committed localSeq remoteSeq m r)
    (hkeep : ∀ c content, remoteSeq < c.last → c.last ≤ localSeq → m.Stable Container.shard c content →
      m'.Stable Container.shard c content) : RowOk sha256 committed localSeq remoteSeq m' r := by
  cases h with
  | bare s hs => exact .bare s hs
  | blob s c offset bytes hs hlast hle hheld =>
    refine .blob s c offset bytes hs hlast hle fun hpending => ?_
    obtain ⟨content, hstable, hslice⟩ := hheld hpending
    exact ⟨content, hkeep c content hpending hle hstable, hslice⟩

section Rows

variable (h : RowsOk sha256 rows committed localSeq remoteSeq m)
include h

variable {through : Nat}

theorem RowsOk.disk
    (hkeep : ∀ c content, remoteSeq < c.last → c.last ≤ localSeq → m.Stable Container.shard c content →
      m'.Stable Container.shard c content)
    (hback : ∀ c f, m'.files.get c = some f → (∃ f', m.files.get c = some f') ∨ localSeq < c.last) :
    RowsOk sha256 rows committed localSeq remoteSeq m' := by
  refine { h with row := fun r hr => (h.row r hr).disk hkeep, pos := fun c f hf => ?_, file := fun c f hf => ?_ }
  · rcases hback c f hf with ⟨f', hf'⟩ | hlt
    · exact h.pos c f' hf'
    · omega
  · intro hpending hle
    rcases hback c f hf with ⟨f', hf'⟩ | hlt
    · exact h.file c f' hf' hpending hle
    · omega

theorem RowsOk.shrink
    (hkeep : ∀ c, remoteSeq < c.last → c.last ≤ localSeq → Keeps Container.shard m m' c) (hback : m.Shrinks m') :
    RowsOk sha256 rows committed localSeq remoteSeq m' :=
  h.disk (fun c _ hpending hle hstable => hstable.keeps (hkeep c hpending hle)) fun c f hf =>
    let ⟨f', hf', _⟩ := hback c f hf
    .inl ⟨f', hf'⟩

theorem RowsOk.sync (shards : List Nat) :
    RowsOk sha256 rows committed localSeq remoteSeq (m.syncDirs Container.shard shards) :=
  h.shrink (fun c _ _ => keeps_syncDirs m shards c) (shrinks_syncDirs m shards)

theorem RowsOk.unlink {p : Container → Bool} (hp : ∀ c, remoteSeq < c.last → c.last ≤ localSeq → p c = false) :
    RowsOk sha256 rows committed localSeq remoteSeq (m.unlink p) :=
  h.shrink (fun c hpending hle => keeps_unlink (hp c hpending hle)) (shrinks_unlink m p)

theorem RowsOk.mark {n : Nat} (hn : remoteSeq + n ≤ localSeq) :
    RowsOk sha256 rows committed localSeq (remoteSeq + n) m := by
  refine { h with
    remoteSeq_le := hn, sequences := ?_, row := fun r hr => ?_,
    file := fun c f hf hpending => h.file c f hf (by omega) }
  · obtain ⟨d, hd, hseq⟩ := h.sequences; exact ⟨d, by omega, hseq⟩
  cases h.row r hr with
  | bare s hs => exact .bare s hs
  | blob s c offset bytes hs hlast hle hheld =>
    exact .blob s c offset bytes hs hlast hle fun hpending => hheld (by omega)

theorem RowsOk.sequences_above (hle : through ≤ remoteSeq) :
    ∃ d, through ≤ d ∧ d ≤ remoteSeq ∧
      (rows.filter fun r => through < r.sequence).map (·.sequence) = range' (d + 1) (localSeq - d) := by
  obtain ⟨d, hd, hseq⟩ := h.sequences
  have hremote := h.remoteSeq_le
  have hmap : (rows.filter fun r => through < r.sequence).map (·.sequence) = (rows.map (·.sequence)).filter
      (through < ·) := by
    rw [List.filter_map]
    rfl
  refine ⟨max d through, le_max_right _ _, by omega, ?_⟩
  rw [hmap, hseq]
  have hsplit : range' (d + 1) (localSeq - d) =
      range' (d + 1) (max d through - d) ++ range' (max d through + 1) (localSeq - max d through) := by
    rw [show max d through + 1 = d + 1 + 1 * (max d through - d) by omega, range'_append,
      show max d through - d + (localSeq - max d through) = localSeq - d by omega]
  rw [hsplit, filter_append, filter_eq_nil_iff.2, filter_eq_self.2, nil_append]
  · intro s hs
    have := mem_range'_1.1 hs
    simp only [decide_eq_true_eq]
    omega
  · intro s hs
    have := mem_range'_1.1 hs
    simp only [decide_eq_true_eq]
    omega

omit h in
theorem Referenced.filter (h : Referenced rows c) (hlt : through < c.last) :
    Referenced (rows.filter fun r => through < r.sequence) c := by
  obtain ⟨r, hr, hseq, hblob⟩ := h
  exact ⟨r, mem_filter.2 ⟨hr, by simpa [hseq] using hlt⟩, hseq, hblob⟩

theorem RowsOk.filter (hle : through ≤ remoteSeq) :
    RowsOk sha256 (rows.filter fun r => through < r.sequence) committed localSeq remoteSeq m := by
  obtain ⟨d, -, hd, hseq⟩ := h.sequences_above hle
  exact { h with
    sequences := ⟨d, hd, hseq⟩
    row := fun r hr => h.row r (mem_of_mem_filter hr)
    file := fun c f hf hpending hlocal => (h.file c f hf hpending hlocal).filter (by omega) }

/-- A commit of a batch whose container, if it has one, is durable. -/
theorem RowsOk.commit {records : List (Option Payload)}
    (hdurable : ∀ c, containerOf (localSeq + 1) records = some c → m.Stable Container.shard c (containerBytes records))
    (hfile : ∀ c f, m.files.get c = some f → localSeq < c.last → c.last ≤ localSeq + records.length →
      containerOf (localSeq + 1) records = some c) :
    RowsOk sha256 (rows ++ batchRows sha256 ((containerOf (localSeq + 1) records).getD ⟨0, 0⟩) (localSeq + 1) 0 records)
      (committed ++ records) (localSeq + records.length) remoteSeq m := by
  have hlen := h.length
  have hremote := h.remoteSeq_le
  refine ⟨by rw [length_append, hlen], by omega, ?_, fun r hr => ?_, h.pos, fun c f hf hpending hle => ?_⟩
  · obtain ⟨d, hd, hseq⟩ := h.sequences
    refine ⟨d, hd, ?_⟩
    rw [map_append, hseq, map_sequence_batchRows, show localSeq + 1 = d + 1 + 1 * (localSeq - d) by omega,
      range'_append, show localSeq - d + records.length = localSeq + records.length - d by omega]
  · rcases mem_append.1 hr with hr | hr
    · cases h.row r hr with
      | bare s hs => exact .bare s (by rw [List.getElem?_append_left (List.getElem?_eq_some_iff.1 hs).1, hs])
      | blob s c offset bytes hs hlast hle hheld =>
        exact .blob s c offset bytes (by rw [List.getElem?_append_left (List.getElem?_eq_some_iff.1 hs).1, hs]) hlast
          (by omega) hheld
    obtain ⟨i, hseq, hrow⟩ := mem_batchRows hr
    obtain ⟨sequence, blob⟩ := r
    subst hseq
    have hget : (committed ++ records)[localSeq + 1 + i - 1]? = records[i]? := by
      rw [List.getElem?_append_right (by omega)]
      congr 1
      omega
    rcases hrow with ⟨hnone, rfl⟩ | ⟨bytes, hsome, rfl⟩
    · exact .bare _ (by rw [hget, hnone])
    have hbearing : localSeq + 1 + i ∈ bearing (localSeq + 1) records := mem_bearing.2 ⟨i, bytes, hsome, rfl⟩
    obtain ⟨c, hc⟩ := containerOf_isSome hbearing
    have hbounds := containerOf_bounds hc
    rw [hc, getD_some, Nat.zero_add]
    refine .blob _ c _ bytes (by rw [hget, hsome]) ((containerOf_spec hc).2.2 _ hbearing) (by omega) fun _ => ?_
    exact ⟨_, hdurable c hc, containerBytes_slice hsome⟩
  · rcases Nat.lt_or_ge localSeq c.last with hnew | hold
    · have hc := hfile c f hf hnew hle
      obtain ⟨r, hr, hseq, hblob⟩ := referenced_batchRows sha256 hc 0
      rw [hc, getD_some]
      exact ⟨r, mem_append_right _ hr, hseq, hblob⟩
    · obtain ⟨r, hr, hseq, hblob⟩ := h.file c f hf hpending hold
      exact ⟨r, mem_append_left _ hr, hseq, hblob⟩

end Rows

variable {step : StageStep} {n i k : Nat} {l : List Batch} {b' : Batch}

theorem ContainerAt.keeps {bytes : Payload} (h : ContainerAt m c bytes step)
    (hk : Keeps Container.shard m m' c) : ContainerAt m' c bytes step := by
  have hnamed : m.dirs.get c.shard = some true → m'.dirs.get c.shard = some true := fun hd => by
    obtain ⟨y, hy, hyes⟩ := hk.dir true hd
    rw [hy, hyes rfl]
  cases step with
  | begun => trivial
  | discarded => trivial
  | made => obtain ⟨named, hd⟩ := h; obtain ⟨y, hy, -⟩ := hk.dir named hd; exact ⟨y, hy⟩
  | opened => exact hnamed h
  | created =>
    obtain ⟨hd, f, hf, hl⟩ := h
    obtain ⟨f', hf', hl', -⟩ := hk.file f hf hl
    exact ⟨hnamed hd, f', hf', hl'⟩
  | filled =>
    obtain ⟨hd, f, hf, hl, hcontent⟩ := h
    obtain ⟨f', hf', hl', hcontent', -⟩ := hk.file f hf hl
    exact ⟨hnamed hd, f', hf', hl', by rw [hcontent', hcontent]⟩
  | written =>
    obtain ⟨hd, f, hf, hl, hcontent, hw⟩ := h
    obtain ⟨f', hf', hl', hcontent', hw', -⟩ := hk.file f hf hl
    exact ⟨hnamed hd, f', hf', hl', by rw [hcontent', hcontent], hw' hw⟩
  | durable => exact Stable.keeps h hk

theorem batchOk_of (hc : b.container = some c) (h : ContainerAt m c (containerBytes b.records) step) :
    BatchOk m { b with step := step } := by
  intro c' hc'
  rw [show b.container = some c' from hc'] at hc
  cases hc
  exact h

theorem Contiguous.set (h : Contiguous n l) (hb : l[i]? = some b) (step : StageStep) :
    Contiguous n (l.set i { b with step := step }) := by
  induction l generalizing n i with
  | nil => cases hb
  | cons b' rest ih =>
    cases i with
    | zero => cases hb; exact ⟨h.1, h.2⟩
    | succ i => exact ⟨h.1, ih h.2 hb⟩

theorem Contiguous.append (h : Contiguous n l) (hb : b.first = n + (l.map (·.records.length)).sum) :
    Contiguous n (l ++ [b]) := by
  induction l generalizing n with
  | nil => exact ⟨by simpa using hb, trivial⟩
  | cons b' rest ih => refine ⟨h.1, ih h.2 ?_⟩; rw [hb, map_cons, sum_cons]; omega

theorem Contiguous.first_le (h : Contiguous n l) (hb : l[i]? = some b) : n ≤ b.first := by
  induction l generalizing n i with
  | nil => cases hb
  | cons b₀ rest ih =>
    cases i with
    | zero => cases hb; exact h.1.ge
    | succ i => exact Nat.le_trans (Nat.le_add_right _ _) (ih h.2 hb)

/-- A batch ends before the later ones start. -/
theorem Contiguous.end_le (h : Contiguous n l) (hb : l[i]? = some b)
    (hb' : l[k]? = some b') (hik : i < k) : b.first + b.records.length ≤ b'.first := by
  induction l generalizing n i k with
  | nil => cases hb
  | cons b₀ rest ih =>
    obtain ⟨hfirst, hrest⟩ := h
    cases k with
    | zero => omega
    | succ k =>
      cases i with
      | zero =>
        cases hb
        have hle : n + b.records.length ≤ b'.first := hrest.first_le hb'
        omega
      | succ i => exact ih hrest hb hb' (by omega)

/-- The containers of two batches are different. -/
theorem Contiguous.container_ne (h : Contiguous n l) (hb : l[i]? = some b)
    (hb' : l[k]? = some b') (hik : i ≠ k) (hc : b.container = some c) : b'.container ≠ some c := by
  intro hc'
  have hbounds := containerOf_bounds hc
  have hbounds' := containerOf_bounds hc'
  rcases Nat.lt_or_ge i k with hlt | hge
  · have := h.end_le hb hb' hlt; omega
  · have := h.end_le hb' hb (by omega); omega

theorem Clear.shrink {p : Container → Prop} (h : Clear m p) (hs : m.Shrinks m') : Clear m' p := by
  intro c f' hf' hlinked
  obtain ⟨f, hf, hold⟩ := hs c f' hf'
  exact h c f hf (hold hlinked)

theorem clear_unlink (m : Disk Container Nat) {p : Container → Bool} {q : Container → Prop}
    (hq : ∀ c, q c → p c = true) : Clear (m.unlink p) q := by
  intro c f hf hlinked hc
  have := unlinked hf hlinked
  rw [hq c hc] at this
  cases this

end Moves

/-! ## Steps -/

namespace LocalJournal

variable {sha256 : Payload → List UInt8} {j j' : LocalJournal} {i : Nat} {b : Batch} {c : Container} {a : JournalAction}

section

variable {through : Nat} {next : StageStep} {m : Disk Container Nat} {phase : JournalPhase}

theorem phaseOk_iff (hlive : j.isLive = true) : PhaseOk j ↔ LiveOk j := by
  unfold PhaseOk
  cases hp : j.phase <;> simp_all [isLive]

theorem Ok.live (h : Ok sha256 j) (hlive : j.isLive = true) : LiveOk j := (phaseOk_iff hlive).1 h.phase

theorem ok_of_live (hrows : RowsOk sha256 j.rows j.committed j.localSeq j.remoteSeq j.disk) (hlive : j.isLive = true)
    (h : LiveOk j) : Ok sha256 j := ⟨hrows, (phaseOk_iff hlive).2 h, fun hidle => absurd hidle (by rw [hlive]; decide)⟩

theorem isLive_of_running (h : j.isRunning = true) : j.isLive = true := by
  cases hp : j.phase <;> simp_all [isRunning, isLive]

theorem Ok.isLive_of_pruning (h : Ok sha256 j) {step : PruneStep} (hp : j.pruning = some (through, step)) :
    j.isLive = true := Bool.of_not_eq_false fun hl => nomatch (h.idle hl).2.symm.trans hp

theorem Ok.isLive_of_batch (h : Ok sha256 j) (hb : j.batches[i]? = some b) : j.isLive = true :=
  Bool.of_not_eq_false fun hl => by rw [(h.idle hl).1] at hb; cases hb

/-- A container that is being staged is above the committed ones. -/
theorem LiveOk.localSeq_lt (h : LiveOk j) (hb : j.batches[i]? = some b) (hc : b.container = some c) :
    j.localSeq < c.last := by
  have := h.contiguous.first_le hb
  have := containerOf_bounds hc
  omega

/-- A staging step touches the container of its own batch only. -/
theorem Ok.setBatch (h : Ok sha256 j) (hb : j.batches[i]? = some b)
    (hbase : m.base = j.disk.base) (hkeep : ∀ c, b.container ≠ some c → Keeps Container.shard j.disk m c)
    (hback : ∀ c f', m.files.get c = some f' → b.container ≠ some c →
      ∃ f, j.disk.files.get c = some f ∧ (f'.linked = true → f.linked = true))
    (hbatch : BatchOk m { b with step := next }) : Ok sha256 (j.setBatch i b next m) := by
  have hlive := h.isLive_of_batch hb
  have hl := h.live hlive
  have hremote := h.rows.remoteSeq_le
  have hother : ∀ c : Container, c.last ≤ j.localSeq → b.container ≠ some c := by
    intro c hle hc
    have := hl.localSeq_lt hb hc
    omega
  have hself : (j.batches.set i { b with step := next })[i]? = some { b with step := next } :=
    List.getElem?_set_self (List.getElem?_eq_some_iff.1 hb).1
  refine ok_of_live (j := j.setBatch i b next m) (h.rows.disk ?_ ?_) hlive ?_
  · intro c content hpending hle hstable; exact hstable.keeps (hkeep c (hother c hle))
  · intro c f' hf'
    by_cases hown : b.container = some c
    · exact .inr (hl.localSeq_lt hb hown)
    · obtain ⟨f, hf, -⟩ := hback c f' hf' hown; exact .inl ⟨f, hf⟩
  refine ⟨hbase.trans hl.base, fun c f' hf' hlinked hle => ?_, fun c f' hf' hlinked hlt => ?_,
    hl.contiguous.set hb next, fun k b' hb' => ?_, fun through step hp => ?_⟩
  · obtain ⟨f, hf, hold⟩ := hback c f' hf' (hother c hle); exact hl.rowed c f hf (hold hlinked) hle
  · by_cases hown : b.container = some c
    · exact ⟨i, _, hself, hown⟩
    obtain ⟨f, hf, hold⟩ := hback c f' hf' hown
    obtain ⟨k, b', hb', hc'⟩ := hl.staged c f hf (hold hlinked) hlt
    have hne : i ≠ k := by
      rintro rfl
      rw [hb] at hb'
      cases hb'
      exact hown hc'
    exact ⟨k, b', (List.getElem?_set_ne hne).trans hb', hc'⟩
  · by_cases hik : i = k
    · rw [← hik, show (j.setBatch i b next m).batches[i]? = _ from hself] at hb'
      cases hb'
      exact hbatch
    · have hb'' : j.batches[k]? = some b' := (List.getElem?_set_ne hik).symm.trans hb'
      exact fun c hc => (hl.batch k b' hb'' c hc).keeps
        (hkeep c fun hown => hl.contiguous.container_ne hb hb'' hik hown hc)
  · obtain ⟨hle, hswept⟩ := hl.pruning through step hp
    refine ⟨hle, hswept.imp_right fun hclear c f' hf' hlinked hlast => ?_⟩
    obtain ⟨f, hf, hold⟩ := hback c f' hf' (hother c (Nat.le_trans hlast (Nat.le_trans hle hremote)))
    exact hclear c f hf (hold hlinked) hlast

/-- A staging step: what it does to the container of its batch, and what it leaves of the others. -/
theorem Ok.stageStep (h : Ok sha256 j) {step : StageStep} {g : Container → Option (Disk Container Nat)}
    (hs : j.stageStep i step next g = some j')
    (hmove : ∀ b c m, j.batches[i]? = some b → b.container = some c → g c = some m →
      ContainerAt j.disk c (containerBytes b.records) step → m.base = j.disk.base ∧
      (∀ c', c' ≠ c → Keeps Container.shard j.disk m c') ∧
      (∀ c' f', c' ≠ c → m.files.get c' = some f' → ∃ f, j.disk.files.get c' = some f ∧
      (f'.linked = true → f.linked = true)) ∧ ContainerAt m c (containerBytes b.records) next) : Ok sha256 j' := by
  obtain ⟨b, hb, hstep, hs⟩ := of_slot hs
  obtain ⟨c, hc, hs⟩ := bind_eq_some_iff.1 hs
  obtain ⟨m, hm, rfl⟩ := map_eq_some_iff.1 hs
  have hat := (h.live (h.isLive_of_batch hb)).batch i b hb c hc
  rw [hstep] at hat
  obtain ⟨hbase, hkeep, hback, hnext⟩ := hmove b c m hb hc hm hat
  have hne : ∀ {c'}, b.container ≠ some c' → c' ≠ c := fun hown heq => hown (heq ▸ hc)
  exact h.setBatch hb hbase (fun c' hown => hkeep c' (hne hown)) (fun c' f' hf' hown => hback c' f' (hne hown) hf')
    (batchOk_of hc hnext)

theorem Ok.openShard (h : Ok sha256 j) (hc : Anchored j (.openShard i)) (hs : j.step sha256 (.openShard i) = some j') :
    Ok sha256 j' := by
  unfold step at hs
  dsimp only at hs
  unfold Anchored anchored at hc
  dsimp only at hc
  split at hs
  · cases hs
  rename_i c hbc
  rw [hbc] at hc
  obtain ⟨b₀, hb₀, hown⟩ := bind_eq_some_iff.1 hbc
  split at hs
  · rename_i hfound
    refine h.stageStep hs fun b c' m hb hc' hm _ => ?_
    cases hm
    cases hb₀.symm.trans hb
    cases hown.symm.trans hc'
    refine ⟨rfl, fun c' _ => keeps_refl _ _ c', fun c' f _ hf => ⟨f, hf, id⟩, ?_⟩
    -- the name is synced, so it is the same as if this batch had made the directory
    cases hdir : j.disk.dirs.get c.shard with
    | none => simp [hdir] at hfound
    | some named =>
      cases named with
      | true => exact hdir
      | false => simp [hdir] at hc
  · rename_i hmissing
    refine h.stageStep hs fun b c' m hb hc' hm _ => ?_
    cases hm
    cases hb₀.symm.trans hb
    cases hown.symm.trans hc'
    exact ⟨rfl, fun c' _ => keeps_mkdir (by simpa using hmissing) c', fun c' f _ hf => ⟨f, hf, id⟩, false,
      Table.get_put_self _ _ _⟩

/-- The staging steps after the shard is open. -/
theorem Ok.staging (h : Ok sha256 j) (hs : j.step sha256 a = some j')
    (ha : a ∈ [.syncBlobs i, .create i, .fill i, .syncData i, .syncShard i, .syncDiscard i]) : Ok sha256 j' := by
  simp only [mem_cons, not_mem_nil, or_false] at ha
  rcases ha with rfl | rfl | rfl | rfl | rfl | rfl
  · refine h.stageStep hs fun b c m hb hc hm hat => ?_
    cases hm
    obtain ⟨named, hdir⟩ := hat
    refine ⟨rfl, fun c' _ => keeps_syncBase _ c', fun c' f _ hf => ⟨f, hf, id⟩, ?_⟩
    show (j.disk.dirs.filterMapVals fun _ _ => some true).get c.shard = some true
    rw [Table.get_filterMapVals, hdir]
    rfl
  · refine h.stageStep hs fun b c m hb hc hm hat => ?_
    obtain ⟨-, rfl⟩ := of_guard_not hm
    refine ⟨rfl, fun c' hne => keeps_create hne, fun c' f hne hf => ⟨f, ?_, id⟩, hat, _, Table.get_put_self _ _ _, rfl⟩
    rwa [show (j.disk.create c).files = j.disk.files.put c _ from rfl, Table.get_put_ne hne] at hf
  · obtain ⟨b₀, hb₀, hs⟩ := bind_eq_some_iff.1 hs
    refine h.stageStep hs fun b c m hb hc hm hat => ?_
    cases hm
    cases hb₀.symm.trans hb
    obtain ⟨hdir, f, hf, hl⟩ := hat
    exact ⟨rfl, fun c' hne => keeps_edit hne _, fun c' f' _ hf' => shrinks_fill _ _ _ c' f' hf', hdir, _,
      get_fill_self hf _, hl, rfl⟩
  · refine h.stageStep hs fun b c m hb hc hm hat => ?_
    cases hm
    obtain ⟨hdir, f, hf, hl, hcontent⟩ := hat
    exact ⟨rfl, fun c' hne => keeps_edit hne _, fun c' f' _ hf' => shrinks_syncData _ _ c' f' hf', hdir, _,
      get_syncData_self hf, hl, hcontent, rfl⟩
  · refine h.stageStep hs fun b c m hb hc hm hat => ?_
    cases hm
    obtain ⟨hdir, f, hf, hl, hcontent, hw⟩ := hat
    refine ⟨rfl, fun c' _ => keeps_syncDirs _ _ c', fun c' f' _ hf' => shrinks_syncDirs _ _ c' f' hf',
      (h.live (h.isLive_of_batch hb)).base, hdir, ?_⟩
    rw [get_syncDirs, hf, bind_some, if_pos (mem_singleton_self _), if_pos hl, hl, hcontent, hw]
  · refine h.stageStep hs fun b c m hb hc hm _ => ?_
    cases hm
    exact ⟨rfl, fun c' _ => keeps_syncDirs _ _ c', fun c' f' _ hf' => shrinks_syncDirs _ _ c' f' hf', trivial⟩

theorem Ok.discard (h : Ok sha256 j) (hs : j.step sha256 (.discard i) = some j') : Ok sha256 j' := by
  unfold step at hs
  dsimp only at hs
  split at hs
  · obtain ⟨b, hb, hs⟩ := bind_eq_some_iff.1 hs
    have hunlink : ∀ c, b.container = some c →
        Ok sha256 (j.setBatch i b .discarded (j.disk.unlink fun c' => decide (c' = c))) := by
      intro c hc
      refine h.setBatch hb rfl (fun c' hne => keeps_unlink ?_)
        (fun c' f' hf' _ => shrinks_unlink _ _ c' f' hf') (batchOk_of hc trivial)
      simp only [decide_eq_false_iff_not]
      rintro rfl
      exact hne hc
    split at hs <;> cases hs
    case h_6 =>
      exact h.setBatch hb rfl (fun c _ => keeps_refl _ _ c) (fun _ f hf _ => ⟨f, hf, id⟩) fun c hc => trivial
    all_goals exact hunlink _ ‹_›
  · cases hs

/-- A change of the files of a live journal that leaves the staged containers alone. -/
theorem LiveOk.disk (h : LiveOk j) (hbase : m.base = some true) (hshrink : j.disk.Shrinks m)
    (hkeep : ∀ c : Container, j.localSeq < c.last → Keeps Container.shard j.disk m c) :
    LiveOk { j with disk := m } where
  base := hbase
  rowed c f' hf' hlinked := by
    obtain ⟨f, hf, hold⟩ := hshrink c f' hf'
    exact h.rowed c f hf (hold hlinked)
  staged c f' hf' hlinked := by
    obtain ⟨f, hf, hold⟩ := hshrink c f' hf'
    exact h.staged c f hf (hold hlinked)
  contiguous := h.contiguous
  batch k b hb c hc := (h.batch k b hb c hc).keeps (hkeep c (h.localSeq_lt hb hc))
  pruning through step hp := by
    obtain ⟨hle, hswept⟩ := h.pruning through step hp
    exact ⟨hle, hswept.imp_right fun hclear => Clear.shrink hclear hshrink⟩

theorem drainedIn_eq_false {shards : List Nat} (h : through < c.last) : drainedIn shards through c = false := by
  simp only [drainedIn, Bool.and_eq_false_iff, decide_eq_false_iff_not]
  exact .inr (by omega)

/-- The shards of the rows up to `through` have all the containers that end there. -/
theorem Referenced.drainedIn (h : Referenced j.rows c) (hle : c.last ≤ through) :
    drainedIn (j.touchedShards through) through c = true := by
  obtain ⟨r, hr, hseq, b, hb, rfl⟩ := h
  simp only [LocalJournal.drainedIn, Bool.and_eq_true, decide_eq_true_eq]
  refine ⟨mem_filterMap.2 ⟨r, hr, ?_⟩, hle⟩
  rw [if_pos (by omega), hb]
  rfl

theorem Ok.sweep (h : Ok sha256 j) (hs : j.step sha256 .sweep = some j') : Ok sha256 j' := by
  unfold step at hs
  dsimp only at hs
  split at hs
  · rename_i through hp
    cases hs
    have hlive := h.isLive_of_pruning hp
    have hl := h.live hlive
    have hle := (hl.pruning through _ hp).1
    have hremote := h.rows.remoteSeq_le
    have hswept : LiveOk { j with disk := j.disk.unlink (drainedIn (j.touchedShards through) through) } :=
      hl.disk hl.base (shrinks_unlink _ _) fun c hc => keeps_unlink (drainedIn_eq_false (by omega))
    refine ok_of_live (h.rows.unlink fun c hpending _ => drainedIn_eq_false (by omega)) hlive
      { hswept with pruning := ?_ }
    rintro through' step' heq
    cases heq
    refine ⟨hle, .inr fun c f' hf' hlinked hlast => ?_⟩
    obtain ⟨f, hf, hold⟩ := shrinks_unlink _ _ c f' hf'
    have hrow := hl.rowed c f hf (hold hlinked) (by omega)
    have := unlinked hf' hlinked
    rw [Referenced.drainedIn hrow hlast] at this
    cases this
  · cases hs

theorem Ok.commit (h : Ok sha256 j) (hc : Anchored j .commit) (hs : j.step sha256 .commit = some j') :
    Ok sha256 j' := by
  unfold step at hs
  dsimp only at hs
  unfold Anchored anchored at hc
  split at hs
  · rename_i b rest hbatches
    rw [hbatches] at hc
    split at hs
    · rename_i hgo
      obtain ⟨-, hstep, hfirst⟩ := hgo
      cases hs
      have hb : j.batches[0]? = some b := by rw [hbatches]; rfl
      have hlive := h.isLive_of_batch hb
      have hl := h.live hlive
      have hown : b.container = containerOf (j.localSeq + 1) b.records := by rw [← hfirst]; rfl
      have hcontiguous := hl.contiguous
      rw [hbatches] at hcontiguous
      have hlater : ∀ c k b', j.batches[k + 1]? = some b' → b'.container = some c →
          j.localSeq + b.records.length < c.last := by
        intro c k b' hb' hc'
        have := hl.contiguous.end_le hb hb' (by omega)
        have := containerOf_bounds hc'
        omega
      have hdurable : ∀ c, containerOf (j.localSeq + 1) b.records = some c →
          j.disk.Stable Container.shard c (containerBytes b.records) := by
        intro c hc'
        have := hl.batch 0 b hb c (by rw [hown, hc'])
        rwa [hstep] at this
      have hrows := h.rows.commit hdurable
        (fun c f hf hlt hle => by
          have hlinked : f.linked = true := by
            have := all_eq_true.1 hc ⟨c, f⟩ (Table.mem_entries.2 hf)
            simp only [Bool.or_eq_true, decide_eq_true_eq] at this
            rcases this with (hlinked | hold) | hnew
            · exact hlinked
            · omega
            · omega
          obtain ⟨k, b', hb', hc'⟩ := hl.staged c f hf hlinked hlt
          cases k with
          | zero => rw [hb] at hb'; cases hb'; rw [← hown, hc']
          | succ k =>
            have := hlater c k b' hb' hc'
            omega)
      rw [← hown, ← hfirst] at hrows
      refine ok_of_live hrows hlive ⟨hl.base, fun c f hf hlinked hle => ?_, fun c f hf hlinked hlt => ?_, ?_,
        fun k b' hb' => ?_, hl.pruning⟩
      · rcases Nat.lt_or_ge j.localSeq c.last with hnew | hold
        · exact hrows.file c f hf (Nat.lt_of_le_of_lt h.rows.remoteSeq_le hnew) hle
        · obtain ⟨r, hr, hrow⟩ := hl.rowed c f hf hlinked hold
          exact ⟨r, mem_append_left _ hr, hrow⟩
      · dsimp only at hlt
        obtain ⟨k, b', hb', hc'⟩ := hl.staged c f hf hlinked (by omega)
        cases k with
        | zero =>
          rw [hb] at hb'
          cases hb'
          have := containerOf_bounds hc'
          omega
        | succ k => rw [hbatches] at hb'; exact ⟨k, b', hb', hc'⟩
      · rw [show j.localSeq + b.records.length + 1 = j.localSeq + 1 + b.records.length by omega]
        exact hcontiguous.2
      · refine hl.batch (k + 1) b' ?_; rw [hbatches]; exact hb'
    · cases hs
  · cases hs

/-! ## Opening -/

section

variable (h : RowsOk sha256 j.rows j.committed j.localSeq j.remoteSeq j.disk)
include h

/-- A pending row reads back what was committed. -/
theorem readBlob_pending {s : Nat} {b : Blob}
    (hr : ⟨s, some b⟩ ∈ j.rows) (hs : j.remoteSeq < s) :
    ∃ bytes, j.committed[s - 1]? = some (some bytes) ∧ readBlob sha256 j b = some bytes := by
  cases h.row _ hr with
  | blob s c offset bytes hcommitted hlast hle hheld =>
    obtain ⟨content, hstable, hlen, hslice⟩ := hheld (by omega)
    refine ⟨bytes, hcommitted, ?_⟩
    unfold LocalJournal.readBlob
    rw [hstable.read_eq, bind_some, if_pos ⟨rfl, hlen, by rw [hslice]⟩, hslice]

/-- **Validation accepts what opening leaves.** -/
theorem validateRecoveryState_eq
    (hcommitted : Clear j.disk fun c => j.localSeq < c.last) (hdrained : Clear j.disk fun c => c.last ≤ j.remoteSeq) :
    validateRecoveryState sha256 j = true := by
  obtain ⟨d, hge, hle, hseq⟩ := h.sequences_above le_rfl
  obtain rfl : d = j.remoteSeq := by omega
  unfold validateRecoveryState dropRows
  simp only [Bool.and_eq_true, decide_eq_true_eq, List.all_eq_true]
  refine ⟨⟨⟨h.remoteSeq_le, hseq⟩, fun r hr => ?_⟩, fun row hrow => ?_⟩
  · obtain ⟨hr, habove⟩ := mem_filter.1 hr
    obtain ⟨s, blob⟩ := r
    cases blob with
    | none => rfl
    | some b =>
      obtain ⟨bytes, -, hread⟩ := readBlob_pending h hr (by simpa using habove)
      simp [hread]
  · obtain ⟨c, f⟩ := row
    have hf := Table.mem_entries.1 hrow
    cases hlinked : f.linked with
    | false => simp
    | true =>
      have hlocal := hcommitted c f hf hlinked
      have hremote := hdrained c f hf hlinked
      obtain ⟨r, hr, hlast, b, hb, hc⟩ := h.file c f hf (by omega) (by omega)
      simp only [Bool.not_true, Bool.false_or, List.any_eq_true]
      exact ⟨r, mem_filter.2 ⟨hr, by simp; omega⟩, by simp [hb, hc]⟩

theorem liveOk_running (hbase : j.disk.base = some true)
    (hcommitted : Clear j.disk fun c => j.localSeq < c.last) (hdrained : Clear j.disk fun c => c.last ≤ j.remoteSeq)
    (hbatches : j.batches = []) (hpruning : j.pruning = none) : LiveOk { j with phase := .running } where
  base := hbase
  rowed c f hf hlinked hle := h.file c f hf (by have := hdrained c f hf hlinked; omega) hle
  staged c f hf hlinked hlt := absurd hlt (hcommitted c f hf hlinked)
  contiguous := by
    rw [hbatches]
    trivial
  batch k b hb := by
    rw [hbatches] at hb
    cases hb
  pruning through step hp := by
    rw [hpruning] at hp
    cases hp

end

theorem isLive_of_phase (hp : j.phase = phase) (hlive : { j with phase := phase }.isLive = false) :
    j.isLive = false := by
  unfold isLive at hlive ⊢
  rwa [hp]

theorem Ok.closed (h : Ok sha256 j) (hp : j.phase = phase) (hlive : { j with phase := phase }.isLive = false) :
    PhaseOk { j with phase := phase } ∧ j.batches = [] ∧ j.pruning = none := by
  refine ⟨?_, h.idle (isLive_of_phase hp hlive)⟩
  subst hp
  exact h.phase

/-- The root is opened: no row is touched. -/
theorem Ok.openRoot (h : Ok sha256 j) (hc : Anchored j a) (hs : j.step sha256 a = some j')
    (ha : a ∈ [.openBlobs, .openTmp, .openDatabase, .syncRoot]) : Ok sha256 j' := by
  simp only [mem_cons, not_mem_nil, or_false] at ha
  rcases ha with rfl | rfl | rfl | rfl <;> unfold step at hs <;> dsimp only at hs <;> split at hs <;> try cases hs
  all_goals rename_i hp; obtain ⟨hphase, hidle⟩ := h.closed hp rfl
  · split at hs <;> cases hs
    · rename_i hnone
      refine ⟨h.rows.disk (fun c content _ _ hstable => ?_) fun c f hf => .inl ⟨f, hf⟩, trivial, fun _ => hidle⟩
      rw [hstable.base] at hnone
      cases hnone
    rename_i hsome
    refine ⟨h.rows, ⟨by simpa [isSome_iff_ne_none] using hsome, fun hbase => ?_⟩, fun _ => hidle⟩
    have hroot : (j.tmp.isNone || !j.database) = true := by
      simpa [Anchored, anchored, show j.disk.base = some false from hbase] using hc
    simpa using hroot
  · split at hs <;> cases hs
    · exact ⟨h.rows, trivial, fun _ => hidle⟩
    rename_i hsome
    refine ⟨h.rows, ⟨hphase.1, fun hbase => (hphase.2 hbase).resolve_left fun hnone => ?_⟩, fun _ => hidle⟩
    exact hsome (by rw [show j.tmp = none from hnone]; rfl)
  · split at hs <;> cases hs
    · rename_i hfound
      refine ⟨h.rows, ?_, fun _ => hidle⟩
      obtain ⟨named, hbase⟩ := isSome_iff_exists.1 hphase.1
      cases named with
      | true => exact hbase
      | false => exact absurd hfound (by rw [show j.database = false from hphase.2 hbase]; decide)
    · exact ⟨h.rows, trivial, fun _ => hidle⟩
  · rename_i name
    refine ⟨h.rows.disk (fun c content _ _ hstable => ⟨rfl, hstable.dir, hstable.file⟩) fun c f hf => .inl ⟨f, hf⟩, ?_,
      fun _ => hidle⟩
    cases name with
    | blobs | tmp => exact ⟨rfl, nofun⟩
    | database => rfl

theorem Ok.opening (h : Ok sha256 j) (hs : j.step sha256 a = some j')
    (ha : a ∈ [.removeUncommitted, .syncUncommitted, .sweepRemote, .syncRemote, .cleanRemote, .reclaimDrained,
      .syncReclaimed, .validate]) : Ok sha256 j' := by
  simp only [mem_cons, not_mem_nil, or_false] at ha
  rcases ha with rfl | rfl | rfl | rfl | rfl | rfl | rfl | rfl <;>
    unfold step at hs <;> dsimp only at hs <;> split at hs <;> try cases hs
  all_goals rename_i hp; obtain ⟨hphase, hidle⟩ := h.closed hp rfl
  · exact ⟨h.rows.unlink fun c _ hle => by simpa using hle, ⟨hphase, clear_unlink _ fun c hlt => by simpa using hlt⟩,
      fun _ => hidle⟩
  · exact ⟨h.rows.sync _, ⟨hphase.1, hphase.2.shrink (shrinks_syncDirs _ _)⟩, fun _ => hidle⟩
  · split at hs <;> cases hs
    · rename_i hzero
      refine ⟨h.rows, ⟨hphase.1, hphase.2, fun c f hf _ hle => ?_⟩, fun _ => hidle⟩
      have := h.rows.pos c f hf
      dsimp only at hle
      omega
    · exact ⟨h.rows.unlink fun c hpending _ => drainedIn_eq_false hpending,
        ⟨hphase.1, hphase.2.shrink (shrinks_unlink _ _)⟩, fun _ => hidle⟩
  · exact ⟨h.rows.sync _, ⟨hphase.1, hphase.2.shrink (shrinks_syncDirs _ _)⟩, fun _ => hidle⟩
  · exact ⟨h.rows.filter le_rfl, hphase, fun _ => hidle⟩
  · exact ⟨h.rows.unlink fun c hpending _ => by simpa using hpending, ⟨hphase.1, hphase.2.shrink (shrinks_unlink _ _),
      clear_unlink _ fun c hle => by simpa using hle⟩, fun _ => hidle⟩
  · exact ⟨h.rows.sync _, ⟨hphase.1, hphase.2.1.shrink (shrinks_syncDirs _ _),
      hphase.2.2.shrink (shrinks_syncDirs _ _)⟩, fun _ => hidle⟩
  · rw [validateRecoveryState_eq h.rows hphase.2.1 hphase.2.2]
    exact ⟨h.rows, liveOk_running h.rows hphase.1 hphase.2.1 hphase.2.2 hidle.1 hidle.2, fun _ => hidle⟩

theorem step_ok (h : Ok sha256 j) (hc : Anchored j a) (hs : j.step sha256 a = some j') : Ok sha256 j' := by
  cases a with
  | openBlobs | openTmp | openDatabase | syncRoot => exact h.openRoot hc hs (by simp)
  | removeUncommitted | syncUncommitted | sweepRemote | syncRemote | cleanRemote | reclaimDrained | syncReclaimed
  | validate => exact h.opening hs (by simp)
  | openShard i => exact h.openShard hc hs
  | syncBlobs i | create i | fill i | syncData i | syncShard i | syncDiscard i => exact h.staging (i := i) hs (by simp)
  | commit => exact h.commit hc hs
  | discard i => exact h.discard hs
  | sweep => exact h.sweep hs
  | stage records =>
    obtain ⟨hgo, rfl⟩ := of_guard hs
    have hlive := isLive_of_running hgo.1
    have hl := h.live hlive
    refine ok_of_live h.rows hlive { hl with staged := ?_, contiguous := hl.contiguous.append rfl, batch := ?_ }
    · intro c f hf hlinked hlt
      obtain ⟨k, b, hb, hc⟩ := hl.staged c f hf hlinked hlt
      exact ⟨k, b, by rw [List.getElem?_append_left (List.getElem?_eq_some_iff.1 hb).1, hb], hc⟩
    intro k b hb
    rcases Nat.lt_or_ge k j.batches.length with hk | hk
    · rw [List.getElem?_append_left hk] at hb; exact hl.batch k b hb
    -- a batch without payloads has no container to write
    rw [List.getElem?_append_right hk, List.getElem?_singleton] at hb
    split at hb <;> cases hb
    intro c hc
    have hsome : (Batch.container ⟨j.nextFirst, records, .begun⟩) = some c := hc
    rw [hsome]
    trivial
  | fail =>
    obtain ⟨hgo, rfl⟩ := of_guard hs
    have hl := h.live (isLive_of_running hgo)
    exact ⟨h.rows, show LiveOk { j with phase := .failed } from { hl with }, fun hidle => by cases hidle⟩
  | mark n =>
    obtain ⟨hgo, rfl⟩ := of_guard hs
    have hl := h.live hgo.1
    refine ok_of_live (j := { j with remoteSeq := j.remoteSeq + n }) (h.rows.mark hgo.2) hgo.1 { hl with pruning := ?_ }
    intro through step hp
    obtain ⟨hle, hswept⟩ := hl.pruning through step hp
    exact ⟨Nat.le_trans hle (Nat.le_add_right _ _), hswept⟩
  | prune through =>
    obtain ⟨hgo, rfl⟩ := of_guard hs
    have hl := h.live hgo.1
    refine ok_of_live (j := { j with pruning := some (through, .started) }) h.rows hgo.1 { hl with pruning := ?_ }
    rintro through' step' heq
    cases heq
    exact ⟨hgo.2.2, .inl rfl⟩
  | syncSwept =>
    unfold step at hs
    dsimp only at hs
    split at hs
    · rename_i through shards hp
      cases hs
      have hlive := h.isLive_of_pruning hp
      have hl := h.live hlive
      have hsynced : LiveOk { j with disk := j.disk.syncDirs Container.shard shards } :=
        hl.disk hl.base (shrinks_syncDirs _ _) fun c _ => keeps_syncDirs _ _ c
      refine ok_of_live (h.rows.sync shards) hlive { hsynced with pruning := ?_ }
      rintro through' step' heq
      cases heq
      obtain ⟨hle, hswept⟩ := hsynced.pruning through _ hp
      exact ⟨hle, .inr (hswept.resolve_left (by rintro ⟨⟩))⟩
    · cases hs
  | deleteRows =>
    unfold step at hs
    dsimp only at hs
    split at hs
    · rename_i through hp
      cases hs
      have hlive := h.isLive_of_pruning hp
      have hl := h.live hlive
      obtain ⟨hle, hswept⟩ := hl.pruning through _ hp
      have hclear := hswept.resolve_left (by rintro ⟨⟩)
      refine ok_of_live (h.rows.filter hle) hlive
        { hl with rowed := fun c f hf hlinked hlast => ?_, pruning := fun _ _ heq => by cases heq }
      have hkept := hclear c f hf hlinked
      exact (hl.rowed c f hf hlinked hlast).filter (by omega)
    · cases hs
  | crash loseBlobs loseTmp lose residue =>
    cases hs
    exact ⟨h.rows.disk (fun c content _ _ hstable => hstable.crash loseBlobs lose residue)
      (fun c f hf => .inl (get_of_crash hf)), trivial, fun _ => ⟨rfl, rfl⟩⟩

theorem boot_ok (sha256 : Payload → List UInt8) : Ok sha256 {} :=
  ⟨⟨rfl, le_rfl, ⟨0, le_rfl, rfl⟩, fun r hr => (by cases hr), fun c f hf => (by cases hf), fun c f hf => (by cases hf)⟩,
    trivial,
    fun _ => ⟨rfl, rfl⟩⟩

theorem reach_ok (h : Machine.Reach (step sha256) Anchored {} j) : Ok sha256 j :=
  h.invariant (boot_ok sha256) fun _ _ _ hok hc hs => step_ok hok hc hs

/-! ## Reopening and pruning -/

end

/-- What `open` does with a journal that is closed. -/
def reopening (j : LocalJournal) : List JournalAction :=
  .openBlobs :: (if j.disk.base.isNone then [.syncRoot] else []) ++ .openTmp ::
    (if j.tmp.isNone then [.syncRoot] else []) ++ .openDatabase :: (if j.database then [] else [.syncRoot]) ++
    [.removeUncommitted, .syncUncommitted, .sweepRemote] ++
    (if j.remoteSeq = 0 then [] else [.syncRemote, .cleanRemote, .reclaimDrained, .syncReclaimed]) ++ [.validate]

/-- The row is that of a committed record, and its payload is on the disk with the row's length and digest. -/
def Intact (sha256 : Payload → List UInt8) (j : LocalJournal) (r : Row) : Prop :=
  match r.blob with
  | none => j.committed[r.sequence - 1]? = some none
  | some b => ∃ bytes, j.committed[r.sequence - 1]? = some (some bytes) ∧ b.payloadLen = bytes.length ∧
      b.payloadSha256 = sha256 bytes ∧ readBlob sha256 j b = some bytes

theorem intact_of_mem (h : RowsOk sha256 j.rows j.committed j.localSeq j.remoteSeq j.disk) {r : Row}
    (hr : r ∈ j.dropRows j.remoteSeq) : j.Intact sha256 r := by
  obtain ⟨hr, habove⟩ := mem_filter.1 hr
  have hrow := h.row r hr
  obtain ⟨s, blob⟩ := r
  cases blob with
  | none =>
    cases hrow with
    | bare s hs => exact hs
  | some b =>
    obtain ⟨bytes, hcommitted, hread⟩ := readBlob_pending h hr (by simpa using habove)
    refine ⟨bytes, hcommitted, ?_, ?_, hread⟩ <;>
    · cases hrow with
      | blob s c offset bytes' hs => rw [hs] at hcommitted; cases hcommitted; rfl

theorem run_openRoot (sha256 : Payload → List UInt8) (hp : j.phase = .closed) (hc : Anchored j .openBlobs)
    (as : List JournalAction) :
    ∃ m tmp, run (guarded (step sha256) Anchored) j
        (.openBlobs :: (if j.disk.base.isNone then [.syncRoot] else []) ++ .openTmp ::
          (if j.tmp.isNone then [.syncRoot] else []) ++
          .openDatabase :: (if j.database then [] else [.syncRoot]) ++ as) =
      run (guarded (step sha256) Anchored) { j with disk := m, tmp := tmp, database := true, phase := .opened } as := by
  obtain ⟨⟨base, dirs, files⟩, tmp, database, rows, localSeq, remoteSeq, committed, phase, batches, pruning⟩ := j
  cases hp
  rcases base with _ | _ | _ <;> rcases tmp with _ | _ <;> cases database <;> first
    | exact ⟨_, _, rfl⟩
    | cases hc

theorem run_recovery (sha256 : Payload → List UInt8) (j : LocalJournal) :
    ∃ t, run (guarded (step sha256) Anchored) { j with phase := .opened }
      ([.removeUncommitted, .syncUncommitted, .sweepRemote] ++
        (if j.remoteSeq = 0 then [] else [.syncRemote, .cleanRemote, .reclaimDrained, .syncReclaimed]) ++ [.validate]) =
          some t ∧
      (t.phase = .running ∨ t.phase = .refused) ∧ t.localSeq = j.localSeq ∧ t.remoteSeq = j.remoteSeq ∧
      t.committed = j.committed ∧
      t.batches = j.batches ∧ t.rows = if j.remoteSeq = 0 then j.rows else j.dropRows j.remoteSeq := by
  have hverdict : ∀ v : Bool, (if v then JournalPhase.running else .refused) = .running ∨
      (if v then JournalPhase.running else .refused) = .refused := by
    intro v
    cases v
    · exact .inr rfl
    · exact .inl rfl
  -- the containers above `localSeq` are removed
  obtain ⟨m, hrecovered⟩ : ∃ m, ∀ as, run (guarded (step sha256) Anchored) { j with phase := .opened }
    ([.removeUncommitted, .syncUncommitted] ++ as) = run (guarded (step sha256) Anchored)
    { j with disk := m, phase := .recovered } as :=
    ⟨_, fun _ => rfl⟩
  refine (hrecovered _).symm ▸ ?_
  by_cases hremote : j.remoteSeq = 0
  · rw [if_pos hremote, if_pos hremote]
    have hs : step sha256 { j with disk := m, phase := .recovered } .sweepRemote =
      some { j with disk := m, phase := .checking } :=
      if_pos hremote
    exact ⟨_, run_guarded_cons (C := Anchored) rfl hs [.validate], hverdict _, rfl, rfl, rfl, rfl, rfl⟩
  · rw [if_neg hremote, if_neg hremote]
    obtain ⟨m', shards, hs⟩ : ∃ m' shards, step sha256 { j with disk := m, phase := .recovered } .sweepRemote =
        some { j with disk := m', phase := .swept shards } := ⟨_, _, if_neg hremote⟩
    exact ⟨_, run_guarded_cons (C := Anchored) rfl hs [.syncRemote, .cleanRemote, .reclaimDrained, .syncReclaimed,
      .validate], hverdict _, rfl, rfl, rfl, rfl, rfl⟩

theorem run_reopening (sha256 : Payload → List UInt8) (hp : j.phase = .closed) (hc : Anchored j .openBlobs) :
    ∃ t, run (guarded (step sha256) Anchored) j j.reopening = some t ∧ (t.phase = .running ∨ t.phase = .refused) ∧
      t.localSeq = j.localSeq ∧ t.remoteSeq = j.remoteSeq ∧ t.committed = j.committed ∧ t.batches = j.batches ∧
      t.rows = if j.remoteSeq = 0 then j.rows else j.dropRows j.remoteSeq := by
  unfold reopening
  rw [append_assoc, append_assoc]
  obtain ⟨m, tmp, hrun⟩ := run_openRoot sha256 hp hc ([.removeUncommitted, .syncUncommitted, .sweepRemote] ++
    ((if j.remoteSeq = 0 then [] else [.syncRemote, .cleanRemote, .reclaimDrained, .syncReclaimed]) ++ [.validate]))
  rw [hrun, ← append_assoc]
  exact run_recovery sha256 { j with disk := m, tmp := tmp, database := true }

theorem reopening_ok (h : Machine.Reach (step sha256) Anchored {} j) (hp : j.phase = .closed)
    (hc : Anchored j .openBlobs) :
    ∃ t, run (guarded (step sha256) Anchored) j j.reopening = some t ∧ t.phase = .running ∧
      t.localSeq = j.localSeq ∧ t.remoteSeq = j.remoteSeq ∧ t.committed = j.committed ∧
      t.rows = j.dropRows j.remoteSeq ∧ ∀ c f, t.disk.files.get c = some f → f.linked = true → Referenced t.rows c := by
  obtain ⟨t, hrun, hverdict, hlocal, hremote, hcommitted, hbatches, hrows⟩ := run_reopening sha256 hp hc
  have hok := reach_ok h
  have ht := reach_ok (reach_of_run h hrun)
  have hphase := ht.phase
  unfold PhaseOk at hphase
  have hrunning : t.phase = .running := by
    rcases hverdict with hv | hv
    · exact hv
    · rw [hv] at hphase; exact hphase.elim
  rw [hrunning] at hphase
  refine ⟨t, hrun, hrunning, hlocal, hremote, hcommitted, ?_, fun c f hf hlinked => ?_⟩
  · rw [hrows]
    split
    · rename_i hzero
      -- no row has sequence 0
      refine (filter_eq_self.2 fun r hr => ?_).symm
      obtain ⟨d, -, hseq⟩ := hok.rows.sequences
      have := mem_range'_1.1 (hseq ▸ mem_map_of_mem hr)
      simp only [decide_eq_true_eq]
      omega
    · rfl
  · rcases Nat.lt_or_ge t.localSeq c.last with hlt | hle
    · -- nothing is staged
      obtain ⟨i, b, hb, -⟩ := hphase.staged c f hf hlinked hlt
      have hclosed := (hok.idle (isLive_of_phase hp rfl)).1
      rw [hbatches, hclosed] at hb
      cases hb
    · exact hphase.rowed c f hf hlinked hle

theorem run_prune (sha256 : Payload → List UInt8) (hlive : j.isLive = true) (hp : j.pruning = none) :
    ∃ m, run (guarded (step sha256) Anchored) j [.prune j.remoteSeq, .sweep, .syncSwept, .deleteRows] =
      some { j with disk := m, rows := j.dropRows j.remoteSeq, pruning := none } := by
  have hs : j.step sha256 (.prune j.remoteSeq) = some { j with pruning := some (j.remoteSeq, .started) } :=
    if_pos ⟨hlive, by rw [hp]; rfl, le_rfl⟩
  have hrest := run_guarded_cons (C := Anchored) rfl hs [.sweep, .syncSwept, .deleteRows]
  exact ⟨_, hrest⟩

theorem prune_ok (h : Machine.Reach (step sha256) Anchored {} j) (hlive : j.isLive = true) (hp : j.pruning = none) :
    ∃ t, run (guarded (step sha256) Anchored) j [.prune j.remoteSeq, .sweep, .syncSwept, .deleteRows] = some t ∧
      t.rows = j.dropRows j.remoteSeq ∧ ∀ c f, t.disk.files.get c = some f → f.linked = true → c.last ≤ j.localSeq →
      Referenced t.rows c := by
  obtain ⟨m, hrun⟩ := run_prune sha256 hlive hp
  have ht := (reach_ok (reach_of_run h hrun)).live hlive
  exact ⟨_, hrun, rfl, ht.rowed⟩

/-- **The local journal survives every crash** of a run in which a shard that is found has a synced name and no commit
covers a container whose removal is not synced, and `blobs/` is synced before all names of the root are there. In each
state that such a run reaches:

- no reopening has been refused;
- the rows above `remoteSeq` are those of the records in `(remoteSeq, localSeq]`, which are the last ones that were
  committed, and each of them reads its payload back;
- if the journal is closed, opening it succeeds with these rows, and keeps only the containers that they refer to;
- if it is open, a pruning leaves no other committed container. -/
theorem journal_survives (sha256 : Payload → List UInt8) (j : LocalJournal)
    (h : Machine.Reach (step sha256) Anchored {} j) :
    j.phase ≠ .refused ∧
    j.committed.length = j.localSeq ∧ j.remoteSeq ≤ j.localSeq ∧
    (j.dropRows j.remoteSeq).map (·.sequence) = range' (j.remoteSeq + 1) (j.localSeq - j.remoteSeq) ∧
    (∀ r ∈ j.dropRows j.remoteSeq, j.Intact sha256 r) ∧
    (j.phase = .closed → Anchored j .openBlobs →
      ∃ t, run (guarded (step sha256) Anchored) j j.reopening = some t ∧ t.phase = .running ∧
        t.localSeq = j.localSeq ∧ t.remoteSeq = j.remoteSeq ∧ t.committed = j.committed ∧
        t.rows = j.dropRows j.remoteSeq ∧ ∀ c f, t.disk.files.get c = some f → f.linked = true → Referenced t.rows c) ∧
    (j.isLive = true → j.pruning = none →
      ∃ t, run (guarded (step sha256) Anchored) j [.prune j.remoteSeq, .sweep, .syncSwept, .deleteRows] = some t ∧
        t.rows = j.dropRows j.remoteSeq ∧
        ∀ c f, t.disk.files.get c = some f → f.linked = true → c.last ≤ j.localSeq → Referenced t.rows c) := by
  have hok := reach_ok h
  obtain ⟨d, hge, hle, hseq⟩ := hok.rows.sequences_above le_rfl
  obtain rfl : d = j.remoteSeq := by omega
  refine ⟨fun hrefused => ?_, hok.rows.length, hok.rows.remoteSeq_le, hseq, fun r hr => intact_of_mem hok.rows hr,
    reopening_ok h, prune_ok h⟩
  have hphase := hok.phase
  unfold PhaseOk at hphase
  rw [hrefused] at hphase
  exact hphase

/-- The first opening makes and syncs the directories. -/
def firstOpening : List JournalAction :=
  [.openBlobs, .syncRoot, .openTmp, .syncRoot, .openDatabase, .syncRoot, .removeUncommitted, .syncUncommitted,
    .sweepRemote, .validate]

def commits : List JournalAction :=
  [.create 0, .fill 0, .syncData 0, .syncShard 0, .commit, .crash true true (fun _ => true) fun _ => .gone]

/-- A batch of one record is committed, and the power fails. -/
def powerFailure : List JournalAction := firstOpening ++ [.stage [some [1, 2]], .openShard 0, .syncBlobs 0] ++ commits

theorem journal_survives_powerFailure : ∃ j, Machine.Reach (step id) Anchored {} j ∧ j.phase = .closed ∧
    j.localSeq = 1 ∧
    ∃ t, run (guarded (step id) Anchored) j j.reopening = some t ∧ t.phase = .running ∧
    t.rows = j.dropRows j.remoteSeq := by
  have hreach : Machine.Reach (step id) Anchored {} _ := reach_of_run .init (l := powerFailure) rfl
  obtain ⟨-, -, -, -, -, hreopen, -⟩ := journal_survives id _ hreach
  obtain ⟨t, ht, hrunning, -, -, -, hrows, -⟩ := hreopen rfl rfl
  exact ⟨_, hreach, rfl, rfl, t, ht, hrunning, hrows⟩

/-- Two batches are staged at a time. The second one has made the shard, whose name is not synced yet, when the first
one finds it and is committed. The power fails. -/
def foundShard : List JournalAction :=
  firstOpening ++ [.stage [some [1, 2]], .stage [some [3]], .openShard 1, .openShard 0] ++ commits ++
    [.openBlobs, .openTmp, .openDatabase, .removeUncommitted, .syncUncommitted, .sweepRemote, .validate]

/-- **A committed record is lost with the name of its shard**: reopening is refused. -/
theorem shard_name_lost : ∃ j, Machine.Reach (step id) anyStep {} j ∧ j.phase = .refused ∧ j.localSeq = 1 ∧
    j.committed = [some [1, 2]] ∧ j.disk.files.entries = [] :=
  ⟨_, reach_of_run .init (l := foundShard) rfl, rfl, rfl, rfl, rfl⟩

end LocalJournal

end ZeroFS.Writeback
