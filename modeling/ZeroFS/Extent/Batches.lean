import ZeroFS.Types
import Mathlib.Algebra.BigOperators.Intervals
import Mathlib.Data.List.Induction

/-!
# Batches of a compaction (`fs/store/extent/compact.rs`)

The gathered frames, sorted by inode and extent, are cut into batches of at most `target` stored bytes. A cut backs up
to a break between files or extents within `slack` bytes, or to the start of the run it would split if that run fits a
batch of its own.
-/

namespace ZeroFS.Compact

/-- `(inode, extent index, source store bytes)`. -/
structure Meta where
  inode : UInt64
  extent : UInt64
  bytes : UInt64
  deriving Inhabited

/-- `u64::saturating_add`. -/
def satAdd (a b : Nat) : Nat := min (a + b) u64Max

/-- `SMALL_SEGMENT_BYTES`. -/
def smallSegmentBytes : Nat := 2 ^ 20

variable (metas : List Meta) (target slack : Nat)

/-- Whether the metas before and after position `k` are file-adjacent. -/
def adj (k : Nat) : Bool :=
  metas[k - 1]!.inode == metas[k]!.inode && metas[k - 1]!.extent.toNat + 1 == metas[k]!.extent.toNat

def bytesAt (k : Nat) : Nat := metas[k]!.bytes.toNat

/-- The stored bytes of `metas[a..b]`. -/
def stored (a b : Nat) : Nat := ∑ k ∈ Finset.Ico a b, bytesAt metas k

/-- The greedy loop over `i`; the first meta always goes in. -/
def fill (start : Nat) : (fuel i sum : Nat) → Nat
  | 0, i, _ => i
  | fuel + 1, i, sum =>
    if i < metas.length ∧ (i = start ∨ satAdd sum (bytesAt metas i) ≤ target) then
      fill start fuel (i + 1) (satAdd sum (bytesAt metas i))
    else i

/-- The latest break after `start` with at most `slack` bytes deferred. -/
def latestBreak (start : Nat) : (j deferred : Nat) → Option Nat
  | 0, _ => none
  | j + 1, deferred =>
    if j + 1 ≤ start then none
    else if !adj metas (j + 1) then some (j + 1)
    else if slack < satAdd deferred (bytesAt metas j) then none
    else latestBreak start j (satAdd deferred (bytesAt metas j))

/-- The start of the run of adjacent metas around position `r`. -/
def runStart : Nat → Nat
  | 0 => 0
  | r + 1 => if adj metas (r + 1) then runStart r else r + 1

/-- The end of the run, from `e` on. -/
def runEnd : (fuel e : Nat) → Nat
  | 0, e => e
  | fuel + 1, e => if e < metas.length ∧ adj metas e then runEnd fuel (e + 1) else e

/-- Where the batch from `start` is cut when `metas[i]` no longer fits. The sum of the run wraps. -/
def cutAt (start i : Nat) : Nat :=
  (latestBreak metas slack start i 0).getD <|
    let r := runStart metas i
    if start < r ∧ stored metas r (runEnd metas metas.length (i + 1)) % 2 ^ 64 ≤ target then r else i

def planFrom : (fuel start : Nat) → List Nat
  | 0, _ => []
  | fuel + 1, start =>
    if metas.length ≤ start then []
    else
      let i := fill metas target start (metas.length - start) start 0
      if i = metas.length then [i]
      else cutAt metas target slack start i :: planFrom fuel (cutAt metas target slack start i)

/-- `plan_batches`. Every cut is past its start, so the length is fuel enough. -/
def planBatches : List Nat := planFrom metas target slack metas.length 0

/-- `plan_compaction_batches`: a last batch below the small threshold joins the one before it if both fit. The
boundaries are read from the end. -/
def planCompactionBatches : List Nat :=
  match (planBatches metas target slack).reverse with
  | last :: lastStart :: rest =>
    let predecessorStore := stored metas (rest.headD 0) lastStart % 2 ^ 64
    let lastStore := stored metas lastStart metas.length % 2 ^ 64
    if lastStore < smallSegmentBytes ∧ satAdd predecessorStore lastStore ≤ target then (last :: rest).reverse
    else planBatches metas target slack
  | _ => planBatches metas target slack

/-- A batch of at most `target` bytes, or of one frame. No saturated sum exceeds `u64::MAX`, so that target takes
everything. -/
def Fits (a b : Nat) : Prop :=
  a < b ∧ (stored metas a b ≤ target ∨ b = a + 1 ∨ u64Max ≤ target ∧ u64Max < stored metas a b)

/-- A maximal run of file-adjacent metas. -/
structure IsRun (r e : Nat) : Prop where
  le : e ≤ metas.length
  inner : ∀ k, r < k → k < e → adj metas k
  first : r = 0 ∨ ¬adj metas r
  last : e = metas.length ∨ ¬adj metas e

/-- Boundaries from `start` on: increasing to the length, between batches that fit, and at a seam only of a run that
does not. -/
structure Planned (start : Nat) (bounds : List Nat) : Prop where
  chain : (start :: bounds).IsChain (Fits metas target)
  last : (start :: bounds).getLast? = some metas.length
  seam : ∀ k ∈ bounds, k < metas.length → adj metas k → ∀ r e, IsRun metas r e → r < k → k < e →
    target < stored metas r e

variable {metas target slack}

theorem stored_add (metas : List Meta) {a b c : Nat} (hab : a ≤ b) (hbc : b ≤ c) :
    stored metas a b + stored metas b c = stored metas a c :=
  Finset.sum_Ico_consecutive _ hab hbc

theorem stored_succ {a b : Nat} (h : a ≤ b) : stored metas a (b + 1) = stored metas a b + bytesAt metas b :=
  Finset.sum_Ico_succ_top h _

/-! ## The loops -/

theorem fill_spec (target : Nat) {start : Nat} (fuel i : Nat) (hfuel : metas.length ≤ i + fuel) (hi : start ≤ i)
    (hn : i ≤ metas.length) (hfits : i ≤ start + 1 ∨ min (stored metas start i) u64Max ≤ target) :
    let j := fill metas target start fuel i (min (stored metas start i) u64Max)
    i ≤ j ∧ j ≤ metas.length ∧ (j ≤ start + 1 ∨ min (stored metas start j) u64Max ≤ target) ∧
      (j < metas.length → start < j ∧ target < min (stored metas start (j + 1)) u64Max) := by
  induction fuel generalizing i with
  | zero => exact ⟨le_rfl, hn, hfits, fun h => by simp only [fill] at h; omega⟩
  | succ fuel ih =>
    have hsum : satAdd (min (stored metas start i) u64Max) (bytesAt metas i) =
        min (stored metas start (i + 1)) u64Max := by
      rw [stored_succ hi, satAdd]
      omega
    simp only [fill, hsum]
    split
    · rename_i hgo
      have hnext := ih (i + 1) (by omega) (by omega) (by omega) (hgo.2.imp (by omega) id)
      exact ⟨by omega, hnext.2⟩
    · rename_i hstop
      refine ⟨le_rfl, hn, hfits, fun hlt => ?_⟩
      have hno := not_or.1 fun h => hstop ⟨hlt, h⟩
      exact ⟨lt_of_le_of_ne hi (Ne.symm hno.1), not_le.1 hno.2⟩

theorem latestBreak_spec {start j deferred c : Nat} (h : latestBreak metas slack start j deferred = some c) :
    start < c ∧ c ≤ j ∧ ¬adj metas c := by
  induction j generalizing deferred with
  | zero => cases h
  | succ j ih =>
    simp only [latestBreak] at h
    split at h
    · cases h
    · split at h
      · cases h; simp_all
      · split at h
        · cases h
        · exact ⟨(ih h).1, Nat.le_succ_of_le (ih h).2.1, (ih h).2.2⟩

theorem runStart_spec (metas : List Meta) (i : Nat) : runStart metas i ≤ i ∧
    (∀ k, runStart metas i < k → k ≤ i → adj metas k) ∧ (runStart metas i = 0 ∨ ¬adj metas (runStart metas i)) := by
  induction i with
  | zero => exact ⟨le_rfl, fun k hk hle => by omega, .inl rfl⟩
  | succ i ih =>
    simp only [runStart]
    split
    · refine ⟨Nat.le_succ_of_le ih.1, fun k hk hle => ?_, ih.2.2⟩
      rcases Nat.le_succ_iff.1 hle with hle | rfl
      · exact ih.2.1 k hk hle
      · assumption
    · exact ⟨le_rfl, fun k hk hle => by omega, .inr ‹_›⟩

theorem runEnd_spec (metas : List Meta) (fuel e : Nat) (hfuel : metas.length ≤ e + fuel) (he : e ≤ metas.length) :
    let e' := runEnd metas fuel e
    e ≤ e' ∧ e' ≤ metas.length ∧ (∀ k, e ≤ k → k < e' → adj metas k) ∧ (e' = metas.length ∨ ¬adj metas e') := by
  induction fuel generalizing e with
  | zero => exact ⟨le_rfl, he, fun k hk hlt => by simp only [runEnd] at hlt; omega, .inl (by simp only [runEnd]; omega)⟩
  | succ fuel ih =>
    simp only [runEnd]
    split
    · rename_i hgo
      have hnext := ih (e + 1) (by omega) (by omega)
      refine ⟨by omega, hnext.2.1, fun k hk hlt => ?_, hnext.2.2.2⟩
      rcases eq_or_lt_of_le hk with rfl | hk
      · exact hgo.2
      · exact hnext.2.2.1 k hk hlt
    · rename_i hstop
      exact ⟨le_rfl, he, fun k hk hlt => by omega, or_iff_not_imp_left.2 fun hne hadj => hstop ⟨by omega, hadj⟩⟩

/-- A cut that splits a run splits one that fits no batch. -/
theorem cutAt_spec (slack : Nat) {start i c : Nat} (hi : start < i) (hn : i < metas.length)
    (hover : target < stored metas start (i + 1)) (hc : cutAt metas target slack start i = c) :
    start < c ∧ c ≤ i ∧ (adj metas c → ∀ r e, IsRun metas r e → r < c → c < e → target < stored metas r e) := by
  subst hc
  unfold cutAt
  cases hb : latestBreak metas slack start i 0 with
  | some c =>
    obtain ⟨hlt, hle, hadj⟩ := latestBreak_spec hb
    exact ⟨hlt, hle, fun h => (hadj h).elim⟩
  | none =>
    obtain ⟨hrle, hrin, hr0⟩ := runStart_spec metas i
    obtain ⟨hele, hen, hein, he0⟩ := runEnd_spec metas metas.length (i + 1) (by omega) hn
    simp only [Option.getD_none]
    split
    · rename_i hwhole; exact ⟨hwhole.1, hrle, fun h => (hr0.resolve_left (by omega) h).elim⟩
    · rename_i hsplit
      refine ⟨hi, le_rfl, fun hadj r e hrun hr he => ?_⟩
      by_cases hstart : r ≤ start
      · have h₁ := stored_add metas hstart (show start ≤ e by omega)
        have h₂ := stored_add metas (show start ≤ i + 1 by omega) (show i + 1 ≤ e by omega)
        omega
      · -- The maximal run is the one that the code has found.
        have hreq : runStart metas i = r := by
          rcases lt_trichotomy (runStart metas i) r with h | h | h
          · exact (hrun.first.resolve_left (by omega) (hrin r h hr.le)).elim
          · exact h
          · exact (hr0.resolve_left (by omega) (hrun.inner _ h (by omega))).elim
        have heeq : runEnd metas metas.length (i + 1) = e := by
          rcases lt_trichotomy (runEnd metas metas.length (i + 1)) e with h | h | h
          · have := hrun.le; exact (he0.resolve_left (by omega) (hrun.inner _ (by omega) h)).elim
          · exact h
          · exact (hrun.last.resolve_left (by omega) (hein e he h)).elim
        rw [hreq, heeq] at hsplit
        have := Nat.mod_le (stored metas r e) (2 ^ 64)
        omega

/-! ## The plan -/

/-- The batch from `start` before it is cut: the rest, or as much as fits when the saturated sums can exceed the
target. -/
theorem fill_from (target : Nat) {start : Nat} (h : start < metas.length) :
    let i := fill metas target start (metas.length - start) start 0
    start < i ∧ i ≤ metas.length ∧ (i = metas.length → Fits metas target start i) ∧
      (i < metas.length → target < u64Max ∧ (stored metas start i ≤ target ∨ i = start + 1) ∧
        target < stored metas start (i + 1)) := by
  obtain ⟨hge, hle, hfits, hover⟩ :=
    fill_spec target (metas.length - start) start (by omega) le_rfl h.le (.inl (Nat.le_succ _))
  have hzero : stored metas start start = 0 := by simp [stored]
  rw [hzero, Nat.zero_min] at hge hle hfits hover
  refine ⟨?_, hle, fun hend => ?_, fun hlt => ?_⟩
  · exact (Nat.lt_or_ge _ metas.length).elim (fun hlt => (hover hlt).1) fun hge => by omega
  · unfold Fits; omega
  · have := hover hlt; omega

theorem planFrom_spec (fuel start : Nat) (hfuel : metas.length ≤ start + fuel) (hstart : start ≤ metas.length) :
    Planned metas target start (planFrom metas target slack fuel start) := by
  induction fuel generalizing start with
  | zero => exact ⟨.singleton _, by simp [planFrom]; omega, by simp [planFrom]⟩
  | succ fuel ih =>
    simp only [planFrom]
    split
    · exact ⟨.singleton _, by simp; omega, by simp⟩
    · obtain ⟨hlt, hle, hend, hmid⟩ := fill_from target (show start < metas.length by omega)
      split
      · rename_i hi; exact ⟨.cons_cons (hend hi) (.singleton _), by simp [hi], by simp [hi]⟩
      · obtain ⟨-, hfits, hover⟩ := hmid (by omega)
        obtain ⟨hcut, hcle, hseam⟩ := cutAt_spec slack hlt (by omega) hover rfl
        obtain ⟨hchain, hlast, hrest⟩ := ih _ (by omega) (hcle.trans hle)
        refine ⟨.cons_cons ⟨hcut, ?_⟩ hchain, by rw [List.getLast?_cons_cons]; exact hlast, fun k hk => ?_⟩
        · have := stored_add metas hcut.le hcle; omega
        · rcases List.mem_cons.1 hk with rfl | hk
          · exact fun _ => hseam
          · exact hrest k hk

theorem planBatches_spec (metas : List Meta) (target slack : Nat) :
    Planned metas target 0 (planBatches metas target slack) :=
  planFrom_spec _ _ (by omega) (Nat.zero_le _)

/-- A target of `u64::MAX` is never exceeded: everything is one batch. -/
theorem lt_max_of_mem {k : Nat} (hk : k ∈ planBatches metas target slack) (hlt : k < metas.length) :
    target < u64Max := by
  by_contra hmax
  obtain ⟨n, hn⟩ : ∃ n, metas.length = n + 1 := ⟨metas.length - 1, by omega⟩
  obtain ⟨-, hle, -, hmid⟩ := fill_from target (show 0 < metas.length by omega)
  have hend : fill metas target 0 (metas.length - 0) 0 0 = metas.length := by omega
  rw [planBatches, hn, planFrom, if_neg (by omega), if_pos hend, List.mem_singleton] at hk
  omega

theorem Fits.stored_lt {a b : Nat} (h : Fits metas target a b) (hmax : target < u64Max) :
    stored metas a b < 2 ^ 64 := by
  obtain ⟨-, hle | rfl | hle⟩ := h
  · unfold u64Max at hmax; omega
  · rw [stored_succ le_rfl, stored, Finset.Ico_self, Finset.sum_empty, Nat.zero_add]
    exact UInt64.toNat_lt _
  · omega

/-- **A compaction is planned in bounded batches that split no run which fits one.** -/
theorem plans_bounded (metas : List Meta) (target slack : Nat) :
    Planned metas target 0 (planBatches metas target slack) ∧
    Planned metas target 0 (planCompactionBatches metas target slack) := by
  have hplan := planBatches_spec metas target slack
  refine ⟨hplan, ?_⟩
  unfold planCompactionBatches
  split
  · rename_i last lastStart rest hrev
    dsimp only
    split
    · rename_i hjoin
      -- Read from the end, the plan is the last two boundaries and what `rest` and the start make.
      obtain ⟨tail, htail⟩ : ∃ tail, rest ++ [0] = rest.headD 0 :: tail := by cases rest <;> simp
      have hall : (0 :: planBatches metas target slack).reverse = last :: lastStart :: rest.headD 0 :: tail := by
        rw [List.reverse_cons, hrev, ← htail]
        rfl
      have hmem : ∀ k, k ∈ (last :: rest).reverse → k ∈ planBatches metas target slack := fun k hk => by
        rw [← List.mem_reverse, hrev]
        exact List.mem_cons.2 ((List.mem_cons.1 (List.mem_reverse.1 hk)).imp_right (List.mem_cons_of_mem _))
      obtain ⟨hchain, hlast, hseam⟩ := hplan
      rw [List.getLast?_eq_head?_reverse, hall, List.head?_cons, Option.some_inj] at hlast
      rw [← List.isChain_reverse, hall] at hchain
      obtain ⟨hfl, hfp, hrest⟩ := by simpa only [List.isChain_cons_cons] using hchain
      have hmax := lt_max_of_mem (by rw [← List.mem_reverse, hrev]; simp) (hlast ▸ hfl.1)
      have hsum := stored_add metas hfp.1.le hfl.1.le
      have hjoined : stored metas (rest.headD 0) last ≤ target := by
        have := hjoin.2
        rw [← hlast, Nat.mod_eq_of_lt (hfp.stored_lt hmax), Nat.mod_eq_of_lt (hfl.stored_lt hmax), satAdd] at this
        omega
      have hall' : (0 :: (last :: rest).reverse).reverse = last :: rest.headD 0 :: tail := by
        rw [List.reverse_cons, List.reverse_reverse, ← htail]
        rfl
      refine ⟨?_, by rw [List.getLast?_eq_head?_reverse, hall', hlast]; rfl, fun k hk => hseam k (hmem k hk)⟩
      rw [← List.isChain_reverse, hall']
      exact .cons_cons ⟨hfp.1.trans hfl.1, .inl hjoined⟩ hrest
    · exact hplan
  · exact hplan

/-- Two frames of `2^64` bytes together make one batch under the target `u64::MAX`. -/
theorem saturated_batch_exceeds :
    let metas : List Meta := [⟨0, 0, 18446744073709551615⟩, ⟨0, 1, 1⟩]
    planBatches metas u64Max 0 = [2] ∧ u64Max < stored metas 0 2 := by
  decide

end ZeroFS.Compact
