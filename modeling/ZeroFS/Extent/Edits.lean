import Mathlib.Data.List.Basic
import ZeroFS.Inode

/-!
# Extents and their edits

File content is stored in extents of `EXTENT_SIZE` bytes; an extent of zeros is a hole and has no key. A write, a
truncation and a zeroed range each turn into one edit per extent. The results say what the loops compute, byte by byte.
-/

namespace ZeroFS

def extentSize : Nat := 32 * 1024

theorem extentSize_pos : 0 < extentSize := by decide

abbrev Extent := Fin extentSize → UInt8

/-- `div_ceil(EXTENT_SIZE)`. -/
def extentCount (size : Nat) : Nat := (size + extentSize - 1) / extentSize

/-- An extent starts before the end of the file exactly when its index is below the number of extents. -/
theorem lt_extentCount {size idx : Nat} : idx < extentCount size ↔ idx * extentSize < size := by
  unfold extentCount extentSize
  omega

theorem extentCount_mono {a b : Nat} (h : a ≤ b) : extentCount a ≤ extentCount b := by
  unfold extentCount extentSize
  omega

namespace Extent

def zero : Extent := fun _ => 0

/-- The bytes at `i`, `i + 1`, … are zero, `n` of them. -/
def zeroFrom (x : Extent) : (n i : Nat) → Bool
  | 0, _ => true
  | n + 1, i => (if h : i < extentSize then x ⟨i, h⟩ == 0 else true) && zeroFrom x n (i + 1)

/-- Comparing an extent with `ZERO_EXTENT`, from its first byte on. -/
def isZero (x : Extent) : Bool := x.zeroFrom extentSize 0

theorem zeroFrom_iff {x : Extent} :
    ∀ {n i : Nat}, x.zeroFrom n i = true ↔ ∀ j : Fin extentSize, i ≤ j → j < i + n → x j = 0
  | 0, i => by
    refine ⟨fun _ j h1 h2 => ?_, fun _ => rfl⟩
    omega
  | n + 1, i => by
    rw [zeroFrom, Bool.and_eq_true, zeroFrom_iff]
    refine ⟨fun ⟨h0, hrest⟩ j h1 h2 => ?_, fun h => ⟨?_, fun j h1 h2 => h j (by omega) (by omega)⟩⟩
    · rcases Nat.lt_or_eq_of_le h1 with hlt | rfl
      · exact hrest j (by omega) (by omega)
      · simpa using h0
    · split
      · rename_i hi; simpa using h ⟨i, hi⟩ (le_refl i) (by simp)
      · rfl

theorem isZero_iff {x : Extent} : x.isZero = true ↔ x = zero := by
  unfold isZero
  rw [zeroFrom_iff]
  refine ⟨fun h => funext fun j => h j (Nat.zero_le _) (by simp), ?_⟩
  rintro rfl j _ _
  rfl

/-- The edit that stores an extent: nothing for an extent of zeros. -/
def toEdit (x : Extent) : Option Extent := if x.isZero then none else some x

/-- The bytes of a stored extent; a hole reads as zeros. -/
def ofEdit (e : Option Extent) : Extent := e.getD zero

@[simp] theorem ofEdit_toEdit (x : Extent) : ofEdit x.toEdit = x := by
  unfold toEdit
  split
  · rename_i h; rw [isZero_iff.1 h]; rfl
  · rfl

/-- `buf[start..stop].copy_from_slice(src)`. -/
def copyFromSlice (buf : Extent) (start stop : Nat) (src : List UInt8) : Extent :=
  fun j => if start ≤ j ∧ j < stop then src.getD (j - start) 0 else buf j

/-- `buf[start..stop].fill(0)`. -/
def fillZero (buf : Extent) (start stop : Nat) : Extent := fun j => if start ≤ j ∧ j < stop then 0 else buf j

/-- Extent `idx` of a file after `data` is written at `offset` over `base`. -/
def overlay (base : Extent) (idx offset : Nat) (data : List UInt8) : Extent :=
  fun j => if offset ≤ idx * extentSize + j ∧ idx * extentSize + j < offset + data.length
    then data.getD (idx * extentSize + j - offset) 0 else base j

end Extent

/-! ## Writing -/

/-- `extent_span`: the first and the last extent of a range that is not empty. -/
def extentSpan (offset len : Nat) : Option (Nat × Nat) :=
  match checkedAdd offset len with
  | none => none
  | some endOffset => if len = 0 then none else some (offset / extentSize, (endOffset - 1) / extentSize)

def writeStart (offset idx : Nat) : Nat := if offset > idx * extentSize then offset - idx * extentSize else 0

def writeEnd (endOffset idx : Nat) : Nat :=
  if endOffset < idx * extentSize + extentSize then endOffset - idx * extentSize else extentSize

/-- The write covers the whole of extent `idx`. -/
def coversExtent (offset endOffset idx : Nat) : Prop :=
  offset ≤ idx * extentSize ∧ endOffset ≥ idx * extentSize + extentSize

instance (offset endOffset idx : Nat) : Decidable (coversExtent offset endOffset idx) :=
  inferInstanceAs (Decidable (_ ∧ _))

/-- The loop of `write` over `n` extents from `idx` on; `dataOffset` bytes of the data are used up. Copying over a whole
extent is the slice that the source takes there. -/
def writeLoop (existing : Nat → Extent) (offset endOffset : Nat) (data : List UInt8) :
    (n idx dataOffset : Nat) → List (Nat × Option Extent)
  | 0, _, _ => []
  | n + 1, idx, dataOffset =>
    let start := writeStart offset idx
    let stop := writeEnd endOffset idx
    let extent := (existing idx).copyFromSlice start stop (data.drop dataOffset)
    (idx, extent.toEdit) :: writeLoop existing offset endOffset data n (idx + 1) (dataOffset + (stop - start))

def writeEdits (existing : Nat → Extent) (offset : Nat) (data : List UInt8) : List (Nat × Option Extent) :=
  let start := offset / extentSize
  let stop := (offset + data.length - 1) / extentSize
  writeLoop existing offset (offset + data.length) data (stop - start + 1) start 0

section

variable {offset : Nat} {data : List UInt8} {existing : Nat → Extent}

/-- One round of the loop: copying the next data bytes overlays the data. -/
theorem copyFromSlice_eq_overlay {base : Extent} {idx dataOffset : Nat}
    (hd : dataOffset = idx * extentSize - offset) (hlt : idx * extentSize < offset + data.length) :
    base.copyFromSlice (writeStart offset idx) (writeEnd (offset + data.length) idx) (data.drop dataOffset) =
      base.overlay idx offset data := by
  funext j
  have hstart : writeStart offset idx = offset - idx * extentSize := by
    unfold writeStart
    split <;> omega
  have hstop : writeEnd (offset + data.length) idx = min (offset + data.length - idx * extentSize) extentSize := by
    unfold writeEnd
    split <;> omega
  unfold Extent.copyFromSlice Extent.overlay
  rw [hstart, hstop]
  generalize idx * extentSize = start at *
  by_cases hin : offset ≤ start + j ∧ start + j < offset + data.length
  · rw [if_pos hin, if_pos (by omega), List.getD_eq_getElem?_getD, List.getD_eq_getElem?_getD, List.getElem?_drop]
    have hpos : dataOffset + (j - (offset - start)) = start + j - offset := by omega
    rw [hpos]
  · rw [if_neg hin, if_neg (by omega)]

theorem writeLoop_eq :
    ∀ {n idx dataOffset : Nat}, dataOffset = idx * extentSize - offset →
      (n ≠ 0 → offset < (idx + 1) * extentSize) → (n ≠ 0 → (idx + n - 1) * extentSize < offset + data.length) →
      writeLoop existing offset (offset + data.length) data n idx dataOffset =
        (List.range' idx n).map fun i => (i, ((existing i).overlay i offset data).toEdit)
  | 0, _, _, _, _, _ => rfl
  | n + 1, idx, dataOffset, hd, hge, hlt => by
    have hmul : (idx + 1) * extentSize = idx * extentSize + extentSize := Nat.succ_mul _ _
    have hge' := hge (by omega)
    have hmono : idx * extentSize ≤ (idx + (n + 1) - 1) * extentSize := Nat.mul_le_mul_right _ (by omega)
    have hlt' := hlt (by omega)
    rw [writeLoop, copyFromSlice_eq_overlay hd (by omega), List.range'_succ, List.map_cons]
    congr 1
    cases n with
    | zero => rfl
    | succ n =>
      -- the next extent also starts below the end of the data, so this one is written to its end
      have hnext : (idx + 1) * extentSize ≤ (idx + (n + 1 + 1) - 1) * extentSize := Nat.mul_le_mul_right _ (by omega)
      have hmul2 : (idx + 1 + 1) * extentSize = (idx + 1) * extentSize + extentSize := Nat.succ_mul _ _
      refine writeLoop_eq ?_ (fun _ => by omega) (fun _ => ?_)
      · unfold writeStart writeEnd; split <;> split <;> omega
      have : idx + 1 + (n + 1) - 1 = idx + (n + 1 + 1) - 1 := by omega
      rw [this]
      exact hlt'

/-- **The edits of a write**: every extent it touches, with the data laid over the existing bytes. -/
theorem writeEdits_eq (hne : data ≠ []) :
    writeEdits existing offset data =
      (List.range' (offset / extentSize) ((offset + data.length - 1) / extentSize - offset / extentSize + 1)).map
        fun i => (i, ((existing i).overlay i offset data).toEdit) := by
  have hlen : 0 < data.length := List.length_pos_iff.2 hne
  refine writeLoop_eq ?_ (fun _ => ?_) (fun _ => ?_)
  · have := Nat.div_mul_le_self offset extentSize; omega
  · unfold extentSize; omega
  · unfold extentSize; omega

end

/-! ## Truncating, zeroing and allocating -/

inductive FallocateMode
  | allocate
  | punchHole
  | zeroRange (keepSize : Bool)
  deriving DecidableEq, Repr

/-- The size of a file of `size` bytes after `fallocate` up to `stop`. -/
def fallocateSize (mode : FallocateMode) (size stop : Nat) : Nat :=
  match mode with
  | .allocate | .zeroRange false => max size stop
  | .punchHole | .zeroRange true => size

def truncateTail (existing : Extent) (newSize : Nat) : Extent := existing.fillZero (newSize % extentSize) extentSize

/-- `extent_start + EXTENT_SIZE` in `u64`. -/
def extentEnd (idx : Nat) : Nat := (idx * extentSize + extentSize) % 2 ^ 64

/-- The edit that `zero_range` makes to extent `idx` with the stored bytes `existing`: `none` for no edit. -/
def zeroEdit (existing : Nat → Option Extent) (offset endOffset fileSize idx : Nat) : Option (Nat × Option Extent) :=
  if idx * extentSize ≥ fileSize then none
  else if offset ≤ idx * extentSize ∧ endOffset ≥ extentEnd idx then some (idx, none)
  else (existing idx).map fun bytes =>
    (idx, (bytes.fillZero (writeStart offset idx)
      (if endOffset < extentEnd idx then endOffset - idx * extentSize else extentSize)).toEdit)

def zeroRangeEdits (existing : Nat → Option Extent) (offset length fileSize : Nat) : List (Nat × Option Extent) :=
  let start := offset / extentSize
  let stop := (offset + length - 1) / extentSize
  (List.range' start (stop - start + 1)).filterMap (zeroEdit existing offset (offset + length) fileSize)

variable {existing : Nat → Option Extent} {offset endOffset fileSize idx : Nat}

theorem zeroEdit_idx {e : Nat × Option Extent}
    (h : zeroEdit existing offset endOffset fileSize idx = some e) : e.1 = idx ∧ idx < extentCount fileSize := by
  unfold zeroEdit at h
  split at h
  · cases h
  refine ⟨?_, lt_extentCount.2 (by omega)⟩
  split at h
  · cases h; rfl
  · obtain ⟨_, _, rfl⟩ := Option.map_eq_some_iff.1 h; rfl

theorem zeroEdit_stored {p : Nat × Option Extent} (h : zeroEdit existing offset endOffset fileSize idx = some p)
    {x : Extent} (hx : p.2 = some x) : ∃ y, existing p.1 = some y := by
  obtain ⟨hidx, _⟩ := zeroEdit_idx h
  unfold zeroEdit at h
  split at h
  · cases h
  split at h
  · cases h; cases hx
  · obtain ⟨y, hy, _⟩ := Option.map_eq_some_iff.1 h; exact ⟨y, by rw [hidx]; exact hy⟩

end ZeroFS
