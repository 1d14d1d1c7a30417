import ZeroFS.Lib.Table

/-!
# Files and directories under crashes

What is written to a file is durable once the file is synced, and a name once its directory is. A crash keeps what is
durable; each other name may be gone, or there with arbitrary contents, or still as the kernel has it. `Stable` files
are those that every crash keeps.
-/

namespace ZeroFS

open Table Option

structure File where
  content : List UInt8
  /-- The contents are synced. -/
  written : Bool
  /-- The name is in the directory now. -/
  linked : Bool
  /-- The directory has been synced since the name changed. -/
  synced : Bool

/-- What a crash leaves of a file whose state is not durable. -/
inductive Residue
  | gone
  | torn (content : List UInt8)
  | cached

def File.after (f : File) : Residue → Option File
  | .cached => some f
  | .gone => if f.synced then some (if f.written then f else { f with content := [] }) else none
  | .torn b =>
    if f.synced then some (if f.written then f else { f with content := b }) else some ⟨b, false, true, false⟩

/-- A base directory, its directories and their files. -/
structure Disk (K D : Type) where
  base : Option Bool := none
  dirs : Table D Bool := empty
  files : Table K File := empty

namespace Disk

variable {K D : Type} [DecidableEq K] [DecidableEq D] (dir : K → D) (m : Disk K D)

def read (k : K) : Option (List UInt8) :=
  (m.dirs.get (dir k)).bind fun _ => (m.files.get k).bind fun f => if f.linked then some f.content else none

def mkdir (d : D) : Disk K D := { m with dirs := m.dirs.put d false }

/-- `fsync` of the base directory. -/
def syncBase : Disk K D := { m with dirs := m.dirs.filterMapVals fun _ _ => some true }

def create (k : K) : Disk K D := { m with files := m.files.put k ⟨[], false, true, false⟩ }

def edit (k : K) (g : File → File) : Disk K D :=
  { m with files := m.files.filterMapVals fun k' f => some (if k' = k then g f else f) }

def fill (k : K) (b : List UInt8) : Disk K D := m.edit k fun f => { f with content := b }

def syncData (k : K) : Disk K D := m.edit k fun f => { f with written := true }

/-- The names that satisfy `p` are removed. -/
def unlink (p : K → Bool) : Disk K D :=
  { m with
    files := m.files.filterMapVals fun k f =>
      some (if f.linked && p k then { f with linked := false, synced := false } else f) }

/-- The directories that `unlink` changes. -/
def unlinkedDirs (p : K → Bool) : List D :=
  m.files.entries.filterMap fun row => if row.2.linked && p row.1 then some (dir row.1) else none

/-- `fsync` of some of the directories. -/
def syncDirs (ds : List D) : Disk K D :=
  { m with files := m.files.filterMapVals fun k f =>
      if dir k ∈ ds then if f.linked then some { f with synced := true } else none else some f }

def crash (loseBase : Bool) (lose : D → Bool) (residue : K → Residue) : Disk K D :=
  if m.base ≠ some true ∧ loseBase then {}
  else
    { base := m.base
      dirs := m.dirs.filterMapVals fun d named => if !named && lose d then none else some named
      files := m.files.filterMapVals fun k f => if m.dirs.get (dir k) ≠ some true ∧ lose (dir k) then none else f.after
        (residue k) }

/-- The file is there with these contents, and every crash keeps it so. -/
structure Stable (k : K) (b : List UInt8) : Prop where
  base : m.base = some true
  dir : m.dirs.get (dir k) = some true
  file : m.files.get k = some ⟨b, true, true, true⟩

variable {dir} {m} {k k' : K} {b : List UInt8} {f : File}

theorem Stable.read_eq (h : Stable dir m k b) : m.read dir k = some b := by
  unfold read
  rw [h.dir, h.file]
  rfl

theorem Stable.crash (h : Stable dir m k b) (loseBase : Bool) (lose : D → Bool) (residue : K → Residue) :
    Stable dir (m.crash dir loseBase lose residue) k b := by
  unfold Disk.crash
  rw [if_neg (fun hb => hb.1 h.base)]
  refine ⟨h.base, ?_, ?_⟩
  · rw [get_filterMapVals, h.dir]; rfl
  · rw [get_filterMapVals, h.file, bind_some, if_neg (fun hd => hd.1 h.dir)]
    cases residue k <;> rfl

theorem get_of_crash {loseBase : Bool} {lose : D → Bool} {residue : K → Residue}
    (h : (m.crash dir loseBase lose residue).files.get k = some f) : ∃ f', m.files.get k = some f' := by
  unfold Disk.crash at h
  split at h
  · cases h
  rw [get_filterMapVals] at h
  obtain ⟨f', hf', -⟩ := bind_eq_some_iff.1 h
  exact ⟨f', hf'⟩

/-! ## What an operation keeps -/

/-- The file, if it is there, is as it was and no less durable. -/
structure Keeps (dir : K → D) (m m' : Disk K D) (k : K) : Prop where
  base : m.base = some true → m'.base = some true
  dir : ∀ x, m.dirs.get (dir k) = some x → ∃ y, m'.dirs.get (dir k) = some y ∧ (x = true → y = true)
  file : ∀ f, m.files.get k = some f → f.linked = true → ∃ f', m'.files.get k = some f' ∧ f'.linked = true ∧
    f'.content = f.content ∧ (f.written = true → f'.written = true) ∧ (f.synced = true → f'.synced = true)

/-- No name is there that was not there before. -/
def Shrinks (m m' : Disk K D) : Prop :=
  ∀ k f', m'.files.get k = some f' → ∃ f, m.files.get k = some f ∧ (f'.linked = true → f.linked = true)

variable {m' : Disk K D}

theorem Stable.keeps (h : Stable dir m k b) (hk : Keeps dir m m' k) : Stable dir m' k b := by
  obtain ⟨y, hy, hnamed⟩ := hk.dir true h.dir
  obtain ⟨⟨content, written, linked, synced⟩, hf, hlinked, hcontent, hwritten, hsynced⟩ := hk.file _ h.file rfl
  dsimp only at hlinked hcontent hwritten hsynced
  refine ⟨hk.base h.base, by rw [hy, hnamed rfl], ?_⟩
  rw [hf, hlinked, hcontent, hwritten rfl, hsynced rfl]

theorem keeps_refl (dir : K → D) (m : Disk K D) (k : K) : Keeps dir m m k :=
  ⟨id, fun x hx => ⟨x, hx, id⟩, fun f hf hl => ⟨f, hf, hl, rfl, id, id⟩⟩

theorem keeps_mkdir {d : D} (hd : m.dirs.get d = none) (k : K) : Keeps dir m (m.mkdir d) k := by
  refine { keeps_refl dir m k with dir := fun x hx => ⟨x, ?_, id⟩ }
  unfold mkdir
  rw [get_put_ne]
  · exact hx
  rintro heq
  rw [heq, hd] at hx
  cases hx

theorem keeps_syncBase (m : Disk K D) (k : K) : Keeps dir m m.syncBase k := by
  refine { keeps_refl dir m k with dir := fun x hx => ⟨true, ?_, fun _ => rfl⟩ }
  unfold syncBase
  rw [get_filterMapVals, hx]
  rfl

theorem keeps_create (hk : k ≠ k') : Keeps dir m (m.create k') k := by
  refine { keeps_refl dir m k with file := fun f hf hl => ⟨f, ?_, hl, rfl, id, id⟩ }
  unfold create
  rw [get_put_ne hk]
  exact hf

omit [DecidableEq D] in
theorem get_edit (m : Disk K D) (k : K) (g : File → File) (k' : K) :
    (m.edit k g).files.get k' = (m.files.get k').map fun f => if k' = k then g f else f := by
  unfold Disk.edit
  rw [get_filterMapVals]
  cases m.files.get k' <;> rfl

theorem keeps_edit (hk : k ≠ k') (g : File → File) : Keeps dir m (m.edit k' g) k := by
  refine { keeps_refl dir m k with file := fun f hf hl => ⟨f, ?_, hl, rfl, id, id⟩ }
  rw [get_edit, hf, map_some, if_neg hk]

omit [DecidableEq D] in
theorem shrinks_edit {g : File → File} (hg : ∀ f, (g f).linked = f.linked) (m : Disk K D) (k : K) :
    Shrinks m (m.edit k g) := by
  intro k' f' hf'
  rw [get_edit] at hf'
  obtain ⟨f, hf, rfl⟩ := map_eq_some_iff.1 hf'
  refine ⟨f, hf, fun hl => ?_⟩
  split at hl
  · rwa [hg] at hl
  · exact hl

omit [DecidableEq D] in
theorem shrinks_fill (m : Disk K D) (k : K) (b : List UInt8) : Shrinks m (m.fill k b) :=
  shrinks_edit (g := fun f => { f with content := b }) (fun _ => rfl) m k

omit [DecidableEq D] in
theorem shrinks_syncData (m : Disk K D) (k : K) : Shrinks m (m.syncData k) :=
  shrinks_edit (g := fun f => { f with written := true }) (fun _ => rfl) m k

omit [DecidableEq D] in
theorem get_fill_self (h : m.files.get k = some f) (b : List UInt8) :
    (m.fill k b).files.get k = some { f with content := b } := by
  rw [fill, get_edit, h, map_some, if_pos rfl]

omit [DecidableEq D] in
theorem get_syncData_self (h : m.files.get k = some f) :
    (m.syncData k).files.get k = some { f with written := true } := by
  rw [syncData, get_edit, h, map_some, if_pos rfl]

omit [DecidableEq D] in
theorem get_unlink (m : Disk K D) (p : K → Bool) (k : K) :
    (m.unlink p).files.get k =
      (m.files.get k).map fun f => if f.linked && p k then { f with linked := false, synced := false } else f := by
  unfold Disk.unlink
  rw [get_filterMapVals]
  cases m.files.get k <;> rfl

theorem keeps_unlink {p : K → Bool} (hp : p k = false) : Keeps dir m (m.unlink p) k := by
  refine { keeps_refl dir m k with file := fun f hf hl => ⟨f, ?_, hl, rfl, id, id⟩ }
  rw [get_unlink, hf, hp]
  simp

omit [DecidableEq D] in
theorem shrinks_unlink (m : Disk K D) (p : K → Bool) : Shrinks m (m.unlink p) := by
  intro k f' hf'
  rw [get_unlink] at hf'
  obtain ⟨f, hf, rfl⟩ := map_eq_some_iff.1 hf'
  refine ⟨f, hf, fun hl => ?_⟩
  split at hl
  · cases hl
  · exact hl

omit [DecidableEq D] in
theorem unlinked {p : K → Bool} (h : (m.unlink p).files.get k = some f) (hl : f.linked = true) : p k = false := by
  rw [get_unlink] at h
  obtain ⟨f', hf', rfl⟩ := map_eq_some_iff.1 h
  split at hl
  · cases hl
  rename_i hnot
  rw [hl, Bool.true_and] at hnot
  exact Bool.eq_false_iff.2 hnot

theorem get_syncDirs (m : Disk K D) (ds : List D) (k : K) :
    (m.syncDirs dir ds).files.get k =
      (m.files.get k).bind fun f => if dir k ∈ ds then if f.linked then some { f with synced := true } else none
        else some f := by
  unfold Disk.syncDirs
  rw [get_filterMapVals]

theorem keeps_syncDirs (m : Disk K D) (ds : List D) (k : K) : Keeps dir m (m.syncDirs dir ds) k := by
  refine { keeps_refl dir m k with file := fun f hf hl => ?_ }
  rw [get_syncDirs, hf, bind_some]
  split
  · exact ⟨_, rfl, hl, rfl, id, fun _ => rfl⟩
  · exact ⟨f, rfl, hl, rfl, id, id⟩

theorem shrinks_syncDirs (m : Disk K D) (ds : List D) : Shrinks m (m.syncDirs dir ds) := by
  intro k f' hf'
  rw [get_syncDirs] at hf'
  obtain ⟨f, hf, heq⟩ := bind_eq_some_iff.1 hf'
  refine ⟨f, hf, fun hl => ?_⟩
  split at heq
  · split at heq
    · assumption
    · cases heq
  · cases heq; exact hl

end Disk

end ZeroFS
