import ZeroFS.Extent.Edits

/-!
# Sparse files

What a file is for: a size and a byte at every position, zero where nothing was written.
-/

namespace ZeroFS

structure SparseFile where
  size : Nat
  byte : Nat → UInt8

namespace SparseFile

def write (f : SparseFile) (offset : Nat) (data : List UInt8) : SparseFile :=
  if data = [] then f
  else
    { size := max f.size (offset + data.length)
      byte := fun pos => if offset ≤ pos ∧ pos < offset + data.length then data.getD (pos - offset) 0 else f.byte pos }

theorem byte_write (f : SparseFile) (offset : Nat) (data : List UInt8) (pos : Nat) :
    (f.write offset data).byte pos =
      if offset ≤ pos ∧ pos < offset + data.length then data.getD (pos - offset) 0 else f.byte pos := by
  unfold write
  split
  · rename_i hnil; rw [hnil, if_neg]; simp
  · rfl

def writeAll (f : SparseFile) (writes : List (Nat × List UInt8)) : SparseFile :=
  writes.foldl (fun f w => f.write w.1 w.2) f

theorem writeAll_append (f : SparseFile) (ws ws' : List (Nat × List UInt8)) :
    f.writeAll (ws ++ ws') = (f.writeAll ws).writeAll ws' := List.foldl_append

/-- The byte that a write has at a position. -/
def written (w : Nat × List UInt8) (pos : Nat) : Option UInt8 := if w.1 ≤ pos then w.2[pos - w.1]? else none

/-- The byte of the last of the writes that cover a position. -/
def latest : List (Nat × List UInt8) → Nat → Option UInt8
  | [], _ => none
  | w :: ws, pos => (latest ws pos).or (written w pos)

theorem written_eq_none_iff {w : Nat × List UInt8} {pos : Nat} :
    written w pos = none ↔ ¬(w.1 ≤ pos ∧ pos < w.1 + w.2.length) := by
  unfold written
  split
  · rw [List.getElem?_eq_none_iff]; omega
  · simp only [true_iff]; omega

theorem latest_append (ws ws' : List (Nat × List UInt8)) (pos : Nat) :
    latest (ws ++ ws') pos = (latest ws' pos).or (latest ws pos) := by
  induction ws with
  | nil => simp [latest]
  | cons w ws ih => rw [List.cons_append, latest, ih, latest, Option.or_assoc]

theorem byte_write_eq (f : SparseFile) (offset : Nat) (data : List UInt8) (pos : Nat) :
    (f.write offset data).byte pos = (written (offset, data) pos).getD (f.byte pos) := by
  rw [byte_write]
  unfold written
  split
  · rename_i h
    rw [if_pos h.1, List.getD_eq_getElem?_getD, List.getElem?_eq_getElem (by omega)]
    rfl
  · split
    · rw [List.getElem?_eq_none (by dsimp only at *; omega)]; rfl
    · rfl

theorem byte_writeAll (f : SparseFile) (ws : List (Nat × List UInt8)) (pos : Nat) :
    (f.writeAll ws).byte pos = (latest ws pos).getD (f.byte pos) := by
  induction ws generalizing f with
  | nil => rfl
  | cons w ws ih =>
    show ((f.write w.1 w.2).writeAll ws).byte pos = _
    rw [ih, byte_write_eq, latest]
    cases latest ws pos <;> rfl

theorem size_write (f : SparseFile) (offset : Nat) (data : List UInt8) :
    (f.write offset data).size = if data = [] then f.size else max f.size (offset + data.length) := by
  unfold SparseFile.write
  split <;> rfl

theorem size_le_writeAll (f : SparseFile) (ws : List (Nat × List UInt8)) : f.size ≤ (f.writeAll ws).size := by
  induction ws generalizing f with
  | nil => exact le_rfl
  | cons e ws ih => refine Nat.le_trans ?_ (ih (f.write e.1 e.2)); rw [size_write]; split <;> omega

theorem stop_le_writeAll (f : SparseFile) {ws : List (Nat × List UInt8)} {e : Nat × List UInt8} (he : e ∈ ws)
    (hne : e.2 ≠ []) : e.1 + e.2.length ≤ (f.writeAll ws).size := by
  induction ws generalizing f with
  | nil => cases he
  | cons x ws ih =>
    rcases List.mem_cons.1 he with rfl | he
    · refine Nat.le_trans ?_ (size_le_writeAll (f.write e.1 e.2) ws)
      rw [size_write, if_neg hne]
      omega
    · exact ih (f.write x.1 x.2) he

theorem size_writeAll_le {f : SparseFile} {ws : List (Nat × List UInt8)} {n : Nat} (hf : f.size ≤ n)
    (h : ∀ e ∈ ws, e.1 + e.2.length ≤ n) : (f.writeAll ws).size ≤ n := by
  induction ws generalizing f with
  | nil => exact hf
  | cons x ws ih =>
    refine ih (f := f.write x.1 x.2) ?_ fun e he => h e (List.mem_cons_of_mem _ he)
    have := h x List.mem_cons_self
    rw [size_write]
    split <;> omega

/-- The bytes of a range of the file, and whether they reach its end. -/
def read (f : SparseFile) (offset count : Nat) : List UInt8 × Bool :=
  if offset ≥ f.size then ([], true)
  else
    let length := min count (f.size - offset)
    ((List.range length).map (fun n => f.byte (offset + n)), decide (f.size ≤ offset + length))

end SparseFile

end ZeroFS
