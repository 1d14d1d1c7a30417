import ZeroFS.Extent.Edits
import ZeroFS.Lib.Word
import ZeroFS.Quota

/-!
# Extent arithmetic at the top of the address space

The extent operations with every sum, difference, product and slice as a machine computes it. The end of the last
extent, `2 ^ 64`, is not a word; below it every operation is exact (`accepted_is_safe_iff`), and the edits are those of
`ZeroFS.Extent.Edits`.
-/

namespace ZeroFS

open Word List

/-! ## Buffers -/

/-- `buf[start..stop].copy_from_slice(src)`, which checks the range and the lengths. -/
def Extent.copyInto (buf : Extent) (start stop : Nat) (src : List UInt8) : Except Fault Extent :=
  if start ≤ stop ∧ stop ≤ extentSize ∧ src.length = stop - start then .ok (buf.copyFromSlice start stop src)
    else .error .bounds

def Extent.fillInto (buf : Extent) (start stop : Nat) : Except Fault Extent :=
  if start ≤ stop ∧ stop ≤ extentSize then .ok (buf.fillZero start stop) else .error .bounds

namespace ExtentArith

variable (m : Arith) {stop : Nat}

/-! ## The operations -/

/-- The extents that an operation looks at, and the edits that it stages. -/
structure Visit where
  visited : List Nat := []
  edits : List (Nat × Option Extent) := []

/-- `extent_start` and `extent_end`. -/
def extentBounds (idx : Nat) : Except Fault (Nat × Nat) := do
  let extentStart ← m.mul idx extentSize
  let extentEnd ← m.add extentStart extentSize
  return (extentStart, extentEnd)

def startIn (offset extentStart : Nat) : Except Fault Nat :=
  if offset > extentStart then m.sub offset extentStart else .ok 0

def stopIn (endOffset extentStart extentEnd : Nat) : Except Fault Nat :=
  if endOffset < extentEnd then m.sub endOffset extentStart else .ok extentSize

/-- The bytes under a write; those that it overwrites, or that are past the end of the file, are not read. -/
def readExisting (stored : Nat → Option Extent) (offset endOffset oldSize idx : Nat) : Except Fault (Nat × Extent) := do
  let (extentStart, extentEnd) ← extentBounds m idx
  return (idx, if (offset ≤ extentStart ∧ endOffset ≥ extentEnd) ∨ extentStart ≥ oldSize then .zero else .ofEdit
    (stored idx))

def writeRound (offset endOffset : Nat) (data : List UInt8) (existing : Nat × Extent) (dataOffset : Nat) :
    Except Fault (Extent × Nat) := do
  let (extentStart, extentEnd) ← extentBounds m existing.1
  let writeStart ← startIn m offset extentStart
  let writeEnd ← stopIn m endOffset extentStart extentEnd
  let writeLen ← m.sub writeEnd writeStart
  let next ← m.add dataOffset writeLen
  let src ← slice data dataOffset next
  -- a whole extent is a slice of the data, without the existing bytes
  let extent ← (if writeStart = 0 ∧ writeEnd = extentSize then Extent.zero else existing.2).copyInto
    writeStart writeEnd src
  return (extent, next)

def writeRounds (offset endOffset : Nat) (data : List UInt8) :
    List (Nat × Extent) → Nat → Except Fault (List (Nat × Option Extent))
  | [], _ => .ok []
  | existing :: rest, dataOffset => do
    let (extent, next) ← writeRound m offset endOffset data existing dataOffset
    let edits ← writeRounds offset endOffset data rest next
    return (existing.1, extent.toEdit) :: edits

/-- `ExtentStore::write`. -/
def writeExtents (stored : Nat → Option Extent) (offset : Nat) (data : List UInt8) (oldSize : Nat) :
    Except Fault (Except FsError Visit) :=
  if data = [] then .ok (.ok {})
  else match checkedAdd offset data.length with
    | none => .ok (.error .invalidArgument)
    | some endOffset => do
      let last ← m.sub endOffset 1
      let startExtent := offset / extentSize
      let endExtent := last / extentSize
      let existing ← traverse (readExisting m stored offset endOffset oldSize) (endExtent + 1 - startExtent) startExtent
      let capacity ← m.sub endExtent startExtent
      let _ ← m.add capacity 1
      let edits ← writeRounds m offset endOffset data existing 0
      return .ok ⟨edits.map (·.1), edits⟩

/-- `delete_range`: the extents between its two keys. -/
def deleteRange (start stop : Nat) : List Nat := if start ≥ stop then [] else range' start (stop - start)

/-- `ExtentStore::truncate`; `div_ceil` divides before it adds. -/
def truncate (stored : Nat → Option Extent) (oldSize newSize : Nat) : Except Fault Visit :=
  if newSize ≥ oldSize then .ok {}
  else do
    let oldExtents := extentCount oldSize
    let newExtents := extentCount newSize
    let deleted := deleteRange newExtents oldExtents
    if 0 < newSize then
      let last ← m.sub newExtents 1
      let clearFrom := newSize % extentSize
      if 0 < clearFrom then
        let extent ← (Extent.ofEdit (stored last)).fillInto clearFrom extentSize
        return ⟨last :: deleted, [(last, extent.toEdit)]⟩
      else return ⟨deleted, []⟩
    else return ⟨deleted, []⟩

def zeroRound (stored : Nat → Option Extent) (offset endOffset fileSize idx : Nat) :
    Except Fault (Option (Nat × Option Extent)) := do
  let (extentStart, extentEnd) ← extentBounds m idx
  if extentStart ≥ fileSize then return none
  else if offset ≤ extentStart ∧ endOffset ≥ extentEnd then return some (idx, none)
  else match stored idx with
    | none => return none
    | some bytes =>
      let zeroStart ← startIn m offset extentStart
      let zeroEnd ← stopIn m endOffset extentStart extentEnd
      let bytes ← bytes.fillInto zeroStart zeroEnd
      return some (idx, bytes.toEdit)

/-- `ExtentStore::zero_range`. -/
def zeroRange (stored : Nat → Option Extent) (offset length fileSize : Nat) : Except Fault (Except FsError Visit) :=
  if length = 0 then .ok (.ok {})
  else match checkedAdd offset length with
    | none => .ok (.error .invalidArgument)
    | some endOffset => do
      let last ← m.sub endOffset 1
      let startExtent := offset / extentSize
      let endExtent := last / extentSize
      let rounds ← traverse (zeroRound m stored offset endOffset fileSize) (endExtent + 1 - startExtent) startExtent
      return .ok ⟨range' startExtent (endExtent + 1 - startExtent), rounds.filterMap id⟩

/-! ## The callers -/

inductive SizeRequest
  | write (offset : Nat) (data : List UInt8)
  | trim (offset length : Nat)
  | fallocate (offset length : Nat) (mode : FallocateMode)
  | setSize (newSize : Nat)

inductive ExtentCall
  | write (offset : Nat) (data : List UInt8) (oldSize : Nat)
  | zeroRange (offset length fileSize : Nat)
  | truncate (oldSize newSize : Nat)
  deriving DecidableEq

/-- Growth is reserved before anything is staged. -/
def reserveGrowth (quota : LogicalQuota) (oldSize newSize : Nat) : Except FsError Unit := do
  if newSize > oldSize then
    let _ ← (quota.reserve (newSize - oldSize)).1
    return ()

/-- The extent operation that a request on a file of `oldSize` bytes makes, if it is accepted. -/
def extentCall (quota : LogicalQuota) (oldSize : Nat) : SizeRequest → Except FsError (Option ExtentCall)
  | .write offset data =>
    if data = [] then .ok none
    else match checkedAdd offset data.length with
      | none => .error .invalidArgument
      | some endOffset => do
        reserveGrowth quota oldSize (max oldSize endOffset)
        return some (.write offset data oldSize)
  | .trim offset length =>
    if length = 0 then .ok none
    else match checkedAdd offset length with
      | none => .error .invalidArgument
      | some _ => .ok (some (.zeroRange offset length oldSize))
  | .fallocate offset length mode =>
    if length = 0 then .error .invalidArgument
    else match checkedAdd offset length with
      | none => .error .invalidArgument
      | some stop => do
        let newSize := fallocateSize mode oldSize stop
        reserveGrowth quota oldSize newSize
        return if mode ≠ .allocate ∧ offset < oldSize then some (.zeroRange offset (min stop oldSize - offset) oldSize)
        else none
  | .setSize newSize =>
    if newSize = oldSize then .ok none
    else do
      reserveGrowth quota oldSize newSize
      return some (.truncate oldSize newSize)

namespace ExtentCall

def run (stored : Nat → Option Extent) : ExtentCall → Except Fault (Except FsError Visit)
  | .write offset data oldSize => writeExtents m stored offset data oldSize
  | .zeroRange offset length fileSize => ExtentArith.zeroRange m stored offset length fileSize
  | .truncate oldSize newSize => do return .ok (← ExtentArith.truncate m stored oldSize newSize)

/-- The bytes that the operation is about: from the first offset up to the second. -/
def range : ExtentCall → Nat × Nat
  | .write offset data _ => (offset, offset + data.length)
  | .zeroRange offset length _ => (offset, offset + length)
  | .truncate oldSize newSize => (newSize, oldSize)

/-- The operation computes no extent bound past the top: it cuts extents off, or ends below the last one. -/
def belowTop : ExtentCall → Bool
  | .write offset data _ => decide (offset + data.length ≤ radix - extentSize)
  | .zeroRange offset length _ => decide (offset + length ≤ radix - extentSize)
  | .truncate _ _ => true

/-- The extents from that of the first byte to that of the last. -/
def spans (call : ExtentCall) (idx : Nat) : Prop :=
  call.range.1 < call.range.2 ∧ call.range.1 / extentSize ≤ idx ∧ idx ≤ (call.range.2 - 1) / extentSize

end ExtentCall

/-! ## Below the top -/

section Below

variable {m : Arith} {stored : Nat → Option Extent} {offset endOffset oldSize fileSize idx : Nat} {data : List UInt8}

theorem extentBounds_of_lt (h : idx * extentSize + extentSize < radix) :
    extentBounds m idx = .ok (idx * extentSize, idx * extentSize + extentSize) := by
  simp [extentBounds, m.mul_of_lt (show idx * extentSize < radix by omega), m.add_of_lt h, ok_bind, pure_eq]

/-- The end of the last extent is not a word. -/
theorem extentBounds_of_le (h : radix ≤ idx * extentSize + extentSize) (bounds : Nat × Nat) :
    extentBounds .checked idx ≠ .ok bounds := by
  intro hb
  obtain ⟨start, hstart, hb⟩ := bind_eq_ok.1 hb
  by_cases hmul : idx * extentSize < radix
  · rw [Arith.mul_of_lt .checked hmul] at hstart
    cases hstart
    obtain ⟨stop, hstop, -⟩ := bind_eq_ok.1 hb
    rw [Arith.checked_add_of_le h] at hstop
    cases hstop
  · simp [Arith.mul, hmul] at hstart

theorem startIn_eq : startIn m offset (idx * extentSize) = .ok (writeStart offset idx) := by
  unfold startIn writeStart
  split
  · exact m.sub_of_le (by omega)
  · rfl

theorem stopIn_eq (h : idx * extentSize ≤ endOffset) :
    stopIn m endOffset (idx * extentSize) (idx * extentSize + extentSize) = .ok (writeEnd endOffset idx) := by
  unfold stopIn writeEnd
  split
  · exact m.sub_of_le h
  · rfl

theorem writeStart_le_writeEnd (hlt : offset < endOffset) (hge : offset < (idx + 1) * extentSize)
    (hle : idx * extentSize < endOffset) :
    writeStart offset idx ≤ writeEnd endOffset idx ∧ writeEnd endOffset idx ≤ extentSize := by
  have hmul : (idx + 1) * extentSize = idx * extentSize + extentSize := Nat.succ_mul _ _
  unfold writeStart writeEnd
  split <;> split <;> omega

/-- The bytes that a write reads under extent `idx`. -/
def existingBytes (stored : Nat → Option Extent) (offset endOffset oldSize idx : Nat) : Extent :=
  if coversExtent offset endOffset idx ∨ idx * extentSize ≥ oldSize then .zero else .ofEdit (stored idx)

theorem readExisting_of_lt (h : idx * extentSize + extentSize < radix) :
    readExisting m stored offset endOffset oldSize idx =
      .ok (idx, existingBytes stored offset endOffset oldSize idx) := by
  rw [readExisting, extentBounds_of_lt h]
  rfl

theorem copyFromSlice_take (base : Extent) (start stop d : Nat) :
    base.copyFromSlice start stop ((data.take (d + (stop - start))).drop d) = base.copyFromSlice start stop
      (data.drop d) := by
  funext j
  unfold Extent.copyFromSlice
  split
  · rw [getD_eq_getElem?_getD, getD_eq_getElem?_getD, getElem?_drop, getElem?_drop, getElem?_take, if_pos (by omega)]
  · rfl

theorem copyFromSlice_base {base base' : Extent} {src : List UInt8} {start : Nat} (h : start = 0 ∧ stop = extentSize) :
    base.copyFromSlice start stop src = base'.copyFromSlice start stop src := by
  funext j
  unfold Extent.copyFromSlice
  rw [if_pos ⟨by omega, by have := j.isLt; omega⟩, if_pos ⟨by omega, by have := j.isLt; omega⟩]

theorem writeRound_of_lt {existing : Extent} {dataOffset : Nat} (h : idx * extentSize + extentSize < radix)
    (hd : dataOffset = idx * extentSize - offset) (hge : offset < (idx + 1) * extentSize)
    (hlt : idx * extentSize < endOffset) (hend : endOffset = offset + data.length) (hlen : endOffset < radix)
    (hpos : 0 < data.length) :
    writeRound m offset endOffset data (idx, existing) dataOffset =
      .ok (existing.copyFromSlice (writeStart offset idx) (writeEnd endOffset idx) (data.drop dataOffset),
        dataOffset + (writeEnd endOffset idx - writeStart offset idx)) := by
  obtain ⟨hle, hsize⟩ := writeStart_le_writeEnd (show offset < endOffset by omega) hge hlt
  have hnext : dataOffset + (writeEnd endOffset idx - writeStart offset idx) ≤ data.length := by
    unfold writeStart writeEnd
    split <;> split <;> omega
  have hstart : startIn m offset (idx * extentSize) = .ok (writeStart offset idx) := startIn_eq
  have hstop : stopIn m endOffset (idx * extentSize) (idx * extentSize + extentSize) = .ok (writeEnd endOffset idx) :=
    stopIn_eq (Nat.le_of_lt hlt)
  generalize writeStart offset idx = start at *
  generalize writeEnd endOffset idx = stop at *
  have hslice : slice data dataOffset (dataOffset + (stop - start)) =
      .ok ((data.take (dataOffset + (stop - start))).drop dataOffset) := if_pos ⟨by omega, hnext⟩
  have hcopy : ∀ base : Extent, base.copyInto start stop ((data.take (dataOffset + (stop - start))).drop dataOffset) =
      .ok (base.copyFromSlice start stop (data.drop dataOffset)) := by
    intro base
    rw [← copyFromSlice_take]
    refine if_pos ⟨hle, hsize, ?_⟩
    rw [length_drop, length_take, Nat.min_eq_left hnext, Nat.add_sub_cancel_left]
  have hbase : (if start = 0 ∧ stop = extentSize then Extent.zero else existing).copyFromSlice start stop
      (data.drop dataOffset) = existing.copyFromSlice start stop (data.drop dataOffset) := by
    split
    · exact copyFromSlice_base ‹_›
    · rfl
  simp only [writeRound, extentBounds_of_lt h, hstart, hstop, m.sub_of_le hle,
    m.add_of_lt (show dataOffset + (stop - start) < radix by omega),
    hslice, hcopy, hbase, ok_bind, pure_eq]

theorem writeRounds_eq {existing : Nat → Extent} (hend : endOffset = offset + data.length) (hlen : endOffset < radix)
    (hpos : 0 < data.length) :
    ∀ {n idx dataOffset : Nat}, dataOffset = idx * extentSize - offset → (n ≠ 0 → offset < (idx + 1) * extentSize) →
      (n ≠ 0 → (idx + n - 1) * extentSize < endOffset) → (n ≠ 0 → (idx + n) * extentSize < radix) →
      writeRounds m offset endOffset data ((range' idx n).map fun i => (i, existing i)) dataOffset =
        .ok (writeLoop existing offset endOffset data n idx dataOffset)
  | 0, _, _, _, _, _, _ => rfl
  | n + 1, idx, dataOffset, hd, hge, hlt, htop => by
    have hmul : (idx + 1) * extentSize = idx * extentSize + extentSize := Nat.succ_mul _ _
    have hmono : idx * extentSize ≤ (idx + (n + 1) - 1) * extentSize := Nat.mul_le_mul_right _ (by omega)
    have hmono' : (idx + 1) * extentSize ≤ (idx + (n + 1)) * extentSize := Nat.mul_le_mul_right _ (by omega)
    have hlt' := hlt (by omega)
    have htop' := htop (by omega)
    have hround := @writeRound_of_lt m _ _ _ _ (existing idx) _ (by omega) hd (hge (by omega)) (by omega) hend hlen hpos
    have hrest : writeRounds m offset endOffset data ((range' (idx + 1) n).map fun i => (i, existing i))
        (dataOffset + (writeEnd endOffset idx - writeStart offset idx)) =
        .ok (writeLoop existing offset endOffset data n (idx + 1)
        (dataOffset + (writeEnd endOffset idx - writeStart offset idx))) := by
      cases n with
      | zero => rfl
      | succ n =>
        -- the next extent also starts below the end of the data, so this one is written to its end
        have hnext : (idx + 1) * extentSize ≤ (idx + (n + 1 + 1) - 1) * extentSize := Nat.mul_le_mul_right _ (by omega)
        have hmul2 : (idx + 1 + 1) * extentSize = (idx + 1) * extentSize + extentSize := Nat.succ_mul _ _
        refine writeRounds_eq hend hlen hpos ?_ (fun _ => by have := hge (by omega); omega) (fun _ => ?_) (fun _ => ?_)
        · unfold writeStart writeEnd; split <;> split <;> omega
        · rw [show idx + 1 + (n + 1) - 1 = idx + (n + 1 + 1) - 1 by omega]; exact hlt'
        · rw [show idx + 1 + (n + 1) = idx + (n + 1 + 1) by omega]; exact htop'
    rw [range'_succ, map_cons, writeRounds, hround]
    simp only [ok_bind, hrest]
    rfl

theorem lt_top (hstop : stop ≤ radix - extentSize) (hpos : 0 < stop) (hle : idx ≤ (stop - 1) / extentSize) :
    idx * extentSize + extentSize < radix := by
  unfold extentSize at *
  omega

/-- **Below the top a write stages the edits of `writeEdits`.** -/
theorem writeExtents_eq (hne : data ≠ []) (hstop : offset + data.length ≤ radix - extentSize) :
    writeExtents m stored offset data oldSize =
      .ok (.ok ⟨range' (offset / extentSize) ((offset + data.length - 1) / extentSize - offset / extentSize + 1),
        writeEdits (existingBytes stored offset (offset + data.length) oldSize) offset data⟩) := by
  have hpos : 0 < data.length := length_pos_iff.2 hne
  have hlen : offset + data.length < radix := by
    unfold extentSize at hstop
    omega
  have hle : offset / extentSize ≤ (offset + data.length - 1) / extentSize := Nat.div_le_div_right (by omega)
  have htop : (offset + data.length - 1) / extentSize - offset / extentSize + 1 < radix := by
    unfold extentSize
    omega
  have hrounds : writeRounds m offset (offset + data.length) data
      ((range' (offset / extentSize) ((offset + data.length - 1) / extentSize - offset / extentSize + 1)).map
        fun i => (i, existingBytes stored offset (offset + data.length) oldSize i)) 0 =
      .ok (writeEdits (existingBytes stored offset (offset + data.length) oldSize) offset data) := by
    refine writeRounds_eq rfl hlen hpos ?_ (fun _ => ?_) (fun _ => ?_) (fun _ => ?_)
    all_goals
      unfold extentSize at *
      omega
  have hread : ∀ k, k ≤ (offset + data.length - 1) / extentSize →
    readExisting m stored offset (offset + data.length) oldSize k =
    .ok (k, existingBytes stored offset (offset + data.length) oldSize k) :=
    fun k hk => readExisting_of_lt (lt_top hstop (by omega) hk)
  have hidx : (writeEdits (existingBytes stored offset (offset + data.length) oldSize) offset data).map (·.1) =
      range' (offset / extentSize) ((offset + data.length - 1) / extentSize - offset / extentSize + 1) := by
    simp [writeEdits_eq hne, Function.comp_def]
  rw [writeExtents, if_neg hne, checkedAdd_of_le (by unfold u64Max; rw [radix_eq] at hlen; omega)]
  simp only [ok_bind, m.sub_of_le (show 1 ≤ offset + data.length by omega), m.sub_of_le hle, m.add_of_lt htop]
  generalize (offset + data.length - 1) / extentSize = last at *
  generalize offset / extentSize = first at *
  rw [show last + 1 - first = last - first + 1 by omega, traverse_ok fun k h1 h2 => hread k (by omega)]
  simp only [ok_bind, hrounds, hidx]
  rfl

theorem fillInto_writeEnd {bytes : Extent} (hlt : offset < endOffset) (hge : offset < (idx + 1) * extentSize)
    (hle : idx * extentSize < endOffset) :
    bytes.fillInto (writeStart offset idx) (writeEnd endOffset idx) =
      .ok (bytes.fillZero (writeStart offset idx) (writeEnd endOffset idx)) :=
  if_pos (writeStart_le_writeEnd hlt hge hle)

theorem zeroRound_of_lt (h : idx * extentSize + extentSize < radix) (hlt : offset < endOffset)
    (hge : offset < (idx + 1) * extentSize) (hle : idx * extentSize < endOffset) :
    zeroRound m stored offset endOffset fileSize idx = .ok (zeroEdit stored offset endOffset fileSize idx) := by
  have hend : extentEnd idx = idx * extentSize + extentSize := Nat.mod_eq_of_lt h
  rw [zeroRound, extentBounds_of_lt h, zeroEdit, hend]
  simp only [ok_bind, pure_eq]
  split
  · rfl
  split
  · rfl
  cases hs : stored idx with
  | none => rfl
  | some bytes =>
    simp only [startIn_eq, stopIn_eq (Nat.le_of_lt hle), ok_bind, fillInto_writeEnd hlt hge hle, Option.map_some]
    rfl

/-- **Below the top a zeroed range stages the edits of `zeroRangeEdits`.** -/
theorem zeroRange_eq {length : Nat} (hpos : 0 < length) (hstop : offset + length ≤ radix - extentSize) :
    zeroRange m stored offset length fileSize =
      .ok (.ok ⟨range' (offset / extentSize) ((offset + length - 1) / extentSize - offset / extentSize + 1),
        zeroRangeEdits stored offset length fileSize⟩) := by
  have hle : offset / extentSize ≤ (offset + length - 1) / extentSize := Nat.div_le_div_right (by omega)
  have hcount : (offset + length - 1) / extentSize + 1 - offset / extentSize =
      (offset + length - 1) / extentSize - offset / extentSize + 1 := by
    omega
  have hrounds : traverse (zeroRound m stored offset (offset + length) fileSize)
      ((offset + length - 1) / extentSize - offset / extentSize + 1) (offset / extentSize) =
      .ok ((range' (offset / extentSize) ((offset + length - 1) / extentSize - offset / extentSize + 1)).map
        (zeroEdit stored offset (offset + length) fileSize)) := by
    refine traverse_ok fun k h1 h2 => zeroRound_of_lt (lt_top hstop (by omega) (by omega)) (by omega) ?_ ?_
    all_goals
      unfold extentSize at *
      omega
  rw [zeroRange, if_neg (by omega), checkedAdd_of_le
    (by unfold u64Max; rw [radix_eq] at hstop; unfold extentSize at hstop; omega)]
  simp only [ok_bind, m.sub_of_le (show 1 ≤ offset + length by omega), hcount, hrounds]
  simp [pure_eq, zeroRangeEdits, filterMap_map]

theorem mem_deleteRange {start : Nat} : idx ∈ deleteRange start stop ↔ start ≤ idx ∧ idx < stop := by
  unfold deleteRange
  split
  · simp only [not_mem_nil, false_iff]; omega
  · rw [mem_range'_1]; omega

/-- Truncation computes nothing past the top. -/
theorem truncate_spans (m : Arith) (stored : Nat → Option Extent) (oldSize newSize : Nat) :
    ∃ v, truncate m stored oldSize newSize = .ok v ∧
    (∀ idx, idx ∈ v.visited ↔ (ExtentCall.truncate oldSize newSize).spans idx) ∧
      ∀ e ∈ v.edits, e.1 ∈ v.visited := by
  unfold truncate ExtentCall.spans ExtentCall.range
  dsimp only
  by_cases hge : newSize ≥ oldSize
  · rw [if_pos hge]
    refine ⟨_, rfl, fun idx => ?_, nofun⟩
    simp only [not_mem_nil, false_iff]
    omega
  rw [if_neg hge]
  by_cases hpos : 0 < newSize
  · rw [if_pos hpos, m.sub_of_le (show 1 ≤ extentCount newSize by unfold extentCount extentSize; omega)]
    simp only [ok_bind, pure_eq]
    by_cases hclear : 0 < newSize % extentSize
    · have hfill : ∀ bytes : Extent, bytes.fillInto (newSize % extentSize) extentSize =
        .ok (bytes.fillZero (newSize % extentSize) extentSize) :=
        fun _ => if_pos ⟨Nat.le_of_lt (Nat.mod_lt _ extentSize_pos), le_rfl⟩
      rw [if_pos hclear]
      simp only [hfill]
      refine ⟨_, rfl, fun idx => ?_, fun e he => ?_⟩
      · rw [mem_cons, mem_deleteRange]; unfold extentCount extentSize at *; omega
      · rw [mem_singleton.1 he]; exact mem_cons_self
    · rw [if_neg hclear]
      refine ⟨_, rfl, fun idx => ?_, nofun⟩
      rw [mem_deleteRange]
      unfold extentCount extentSize at *
      omega
  · rw [if_neg hpos]
    refine ⟨_, rfl, fun idx => ?_, nofun⟩
    rw [mem_deleteRange]
    unfold extentCount extentSize at *
    omega

end Below

/-! ## At the top -/

section Top

variable {stored : Nat → Option Extent} {offset oldSize fileSize length : Nat} {data : List UInt8}
  {visit : Except FsError Visit}

/-- A range that does not end below the last extent visits it. -/
theorem top_le (hstop : radix - extentSize < stop) : radix ≤ (stop - 1) / extentSize * extentSize + extentSize := by
  rw [radix_eq] at *
  unfold extentSize at *
  omega

theorem writeExtents_top (hne : data ≠ []) (hlen : offset + data.length ≤ u64Max)
    (hstop : radix - extentSize < offset + data.length) :
    writeExtents .checked stored offset data oldSize ≠ .ok visit := by
  have hpos : 0 < data.length := length_pos_iff.2 hne
  have hle : offset / extentSize ≤ (offset + data.length - 1) / extentSize := Nat.div_le_div_right (by omega)
  intro h
  rw [writeExtents, if_neg hne, checkedAdd_of_le hlen] at h
  dsimp only at h
  rw [Arith.sub_of_le .checked (show 1 ≤ offset + data.length by omega)] at h
  obtain ⟨_, hlast, h⟩ := bind_eq_ok.1 h
  cases hlast
  obtain ⟨existing, hread, -⟩ := bind_eq_ok.1 h
  obtain ⟨x, hx⟩ := ok_of_traverse_ok hread ((offset + data.length - 1) / extentSize) hle (by omega)
  obtain ⟨bounds, hb, -⟩ := bind_eq_ok.1 hx
  exact extentBounds_of_le (top_le hstop) bounds hb

theorem zeroRange_top (hpos : 0 < length) (hlen : offset + length ≤ u64Max)
    (hstop : radix - extentSize < offset + length) : zeroRange .checked stored offset length fileSize ≠ .ok visit := by
  have hle : offset / extentSize ≤ (offset + length - 1) / extentSize := Nat.div_le_div_right (by omega)
  intro h
  rw [zeroRange, if_neg (by omega), checkedAdd_of_le hlen] at h
  dsimp only at h
  rw [Arith.sub_of_le .checked (show 1 ≤ offset + length by omega)] at h
  obtain ⟨_, hlast, h⟩ := bind_eq_ok.1 h
  cases hlast
  obtain ⟨rounds, hrounds, -⟩ := bind_eq_ok.1 h
  obtain ⟨x, hx⟩ := ok_of_traverse_ok hrounds ((offset + length - 1) / extentSize) hle (by omega)
  obtain ⟨bounds, hb, -⟩ := bind_eq_ok.1 hx
  exact extentBounds_of_le (top_le hstop) bounds hb

end Top

/-! ## Accepted requests -/

section Accepted

variable {quota : LogicalQuota} {oldSize : Nat} {request : SizeRequest} {call : ExtentCall}

/-- What the callers have checked. -/
def ExtentCall.wellFormed : ExtentCall → Prop
  | .write offset data _ => data ≠ [] ∧ offset + data.length ≤ u64Max
  | .zeroRange offset length _ => 0 < length ∧ offset + length ≤ u64Max
  | .truncate _ _ => True

theorem wellFormed_of_accepted (h : extentCall quota oldSize request = .ok (some call)) : call.wellFormed := by
  cases request with
  | write offset data =>
    dsimp only [extentCall] at h
    split at h
    · cases h
    rename_i hne
    split at h
    · cases h
    rename_i hadd
    obtain ⟨hle, -⟩ := checkedAdd_eq_some.1 hadd
    obtain ⟨-, -, h⟩ := bind_eq_ok.1 h
    cases h
    exact ⟨hne, hle⟩
  | trim offset length =>
    dsimp only [extentCall] at h
    split at h
    · cases h
    rename_i hne
    split at h <;> cases h
    rename_i hadd
    exact ⟨Nat.pos_of_ne_zero hne, (checkedAdd_eq_some.1 hadd).1⟩
  | fallocate offset length mode =>
    dsimp only [extentCall] at h
    split at h
    · cases h
    split at h
    · cases h
    rename_i hadd
    obtain ⟨hle, rfl⟩ := checkedAdd_eq_some.1 hadd
    obtain ⟨-, -, h⟩ := bind_eq_ok.1 h
    split at h <;> cases h
    exact ⟨by omega, by omega⟩
  | setSize newSize =>
    dsimp only [extentCall] at h
    split at h
    · cases h
    obtain ⟨-, -, h⟩ := bind_eq_ok.1 h
    cases h
    trivial

theorem mem_span {offset idx : Nat} (hlt : offset < stop) :
    idx ∈ range' (offset / extentSize) ((stop - 1) / extentSize - offset / extentSize + 1) ↔
      offset < stop ∧ offset / extentSize ≤ idx ∧ idx ≤ (stop - 1) / extentSize := by
  have hle : offset / extentSize ≤ (stop - 1) / extentSize := Nat.div_le_div_right (by omega)
  rw [mem_range'_1]
  omega

/-- **Accepted requests are computed exactly, and visit the extents of their range, unless they reach into the last
extent of the address space.** -/
theorem accepted_is_safe_iff (h : extentCall quota oldSize request = .ok (some call)) (stored : Nat → Option Extent) :
    (∀ m : Arith, ∃ v, call.run m stored = .ok (.ok v) ∧ (∀ idx, idx ∈ v.visited ↔ call.spans idx) ∧
      ∀ e ∈ v.edits, e.1 ∈ v.visited) ↔ call.belowTop = true := by
  have hwf := wellFormed_of_accepted h
  cases call with
  | write offset data size =>
    obtain ⟨hne, hlen⟩ := hwf
    have hpos : 0 < data.length := length_pos_iff.2 hne
    refine ⟨fun hsafe => ?_, fun hbelow m => ⟨_, writeExtents_eq hne (of_decide_eq_true hbelow),
      fun idx => mem_span (by omega), fun e he => ?_⟩⟩
    · refine decide_eq_true (Nat.le_of_not_lt fun hstop => ?_)
      obtain ⟨v, hv, -⟩ := hsafe .checked
      exact writeExtents_top hne hlen hstop hv
    · rw [writeEdits_eq hne] at he; obtain ⟨i, hi, rfl⟩ := mem_map.1 he; exact hi
  | zeroRange offset length size =>
    obtain ⟨hpos, hlen⟩ := hwf
    refine ⟨fun hsafe => ?_, fun hbelow m => ⟨_, zeroRange_eq hpos (of_decide_eq_true hbelow),
      fun idx => mem_span (by omega), fun e he => ?_⟩⟩
    · refine decide_eq_true (Nat.le_of_not_lt fun hstop => ?_)
      obtain ⟨v, hv, -⟩ := hsafe .checked
      exact zeroRange_top hpos hlen hstop hv
    · obtain ⟨i, hi, hedit⟩ := mem_filterMap.1 he; rw [(zeroEdit_idx hedit).1]; exact hi
  | truncate size newSize =>
    refine ⟨fun _ => rfl, fun _ m => ?_⟩
    obtain ⟨v, hv, hrest⟩ := truncate_spans m stored size newSize
    exact ⟨v, by simp [ExtentCall.run, hv, ok_bind, pure_eq], hrest⟩

/-- A write over the end of the first extent, and a trim of two extents of which the second is past the end of the
file. -/
theorem accepted_is_safe_iff_across :
    (∀ stored (m : Arith), ∃ v, (ExtentCall.write (extentSize - 1) [1, 2] 0).run m stored = .ok (.ok v) ∧
      (∀ idx, idx ∈ v.visited ↔ (ExtentCall.write (extentSize - 1) [1, 2] 0).spans idx) ∧
      ∀ e ∈ v.edits, e.1 ∈ v.visited) ∧
    ∀ stored (m : Arith), ∃ v, (ExtentCall.zeroRange 5 (2 * extentSize) 9).run m stored = .ok (.ok v) ∧
      (∀ idx, idx ∈ v.visited ↔ (ExtentCall.zeroRange 5 (2 * extentSize) 9).spans idx) ∧
      ∀ e ∈ v.edits, e.1 ∈ v.visited := by
  have hwrite : extentCall (.new u64Max 0) 0 (.write (extentSize - 1) [1, 2]) =
      .ok (some (.write (extentSize - 1) [1, 2] 0)) := by
    decide +kernel
  have htrim : extentCall (.new u64Max 9) 9 (.trim 5 (2 * extentSize)) =
      .ok (some (.zeroRange 5 (2 * extentSize) 9)) := by
    decide +kernel
  exact ⟨fun stored => (accepted_is_safe_iff hwrite stored).2 (by decide +kernel),
    fun stored => (accepted_is_safe_iff htrim stored).2 (by decide +kernel)⟩

/-- **The last extent**: a write of one byte to it is accepted on an empty file and computes `2 ^ 64`. A build with
overflow checks stops there; without them the write then slices its one byte as if it had a whole extent of them.
Trimming one byte of it overflows on a file of any size. -/
theorem last_extent_overflows :
    extentCall (.new u64Max 0) 0 (.write (radix - extentSize) [1]) = .ok (some (.write (radix - extentSize) [1] 0)) ∧
    (ExtentCall.write (radix - extentSize) [1] 0).run .checked (fun _ => none) = .error .overflow ∧
    (ExtentCall.write (radix - extentSize) [1] 0).run .wrapping (fun _ => none) = .error .bounds ∧
    extentCall (.new u64Max 0) 0 (.trim (radix - extentSize) 1) = .ok (some (.zeroRange (radix - extentSize) 1 0)) ∧
    (ExtentCall.zeroRange (radix - extentSize) 1 0).run .checked (fun _ => none) = .error .overflow := by
  refine ⟨by decide +kernel, rfl, rfl, by decide +kernel, rfl⟩

end Accepted

end ExtentArith

end ZeroFS
