import ZeroFS.Lib.Fifo
import ZeroFS.Types
import Mathlib.Algebra.BigOperators.Group.List.Basic
import Mathlib.Data.List.Perm.Subperm

/-!
# Admission of writeback payloads to RAM

The dirty payloads of the writeback tier are charged to a gate. The shares of a multipart upload are merged into one
permit, without a new admission.
-/

namespace ZeroFS.Ram

open Machine Fifo List

inductive AdmissionError
  | closed
  | poisoned (message : String)
  | tooLarge (requested capacity : Nat)
  | unavailable (requested : Nat)
  | invalidConfiguration (message : String)
  deriving DecidableEq

structure Used where
  bytes : Nat := 0
  operations : Nat := 0

/-- `used.checked_add(requested).is_none_or(|total| total > limit)`. -/
def projectedExceeds (used requested limit : Nat) : Bool := (checkedAdd used requested).all (limit < ·)

def release (used : Used) (bytes : Nat) : Used × Option AdmissionError :=
  match checkedSub used.bytes bytes, checkedSub used.operations 1 with
  | some remaining, some operations => (⟨remaining, operations⟩, none)
  | none, _ => ({}, some (.poisoned "dirty RAM accounting underflow"))
  | _, none => ({}, some (.poisoned "dirty RAM operation accounting underflow"))

variable (capacity : Nat)

def ramPolicy : Policy Used Nat AdmissionError where
  accept terminal used bytes :=
    if capacity < bytes then .error (.tooLarge bytes capacity)
    else match terminal with
    | some error => .error error
    | none => .ok used
  fits used bytes := !projectedExceeds used.bytes bytes capacity
  charge used bytes := ⟨used.bytes + bytes, used.operations + 1⟩
  refund used bytes := ⟨used.bytes - bytes, used.operations - 1⟩
  release _ used bytes := release used bytes
  handsOver := true

abbrev Admission := Gate Used Nat AdmissionError

/-- The bytes of the shares, unless they overflow. -/
def total (shares : List Nat) : Option Nat := shares.foldlM checkedAdd 0

/-- `merge_accepted`. The shares of a merge that fails are dropped by its caller. -/
def mergeAccepted (s : Admission) (shares : List Nat) : Admission :=
  if shares = [] then s
  else match total shares with
  | none => s.terminate (.poisoned "multipart RAM promotion byte overflow")
  | some bytes =>
    if s.terminal.isSome then s
    else if s.ledger.bytes < bytes || s.ledger.operations < shares.length then
      s.terminate (.poisoned "multipart RAM promotion accounting mismatch")
    else { s with
      ledger := { s.ledger with operations := s.ledger.operations - (shares.length - 1) },
        permits := s.permits.diff shares ++ [bytes] }

inductive Action
  | gate (a : Fifo.Action Nat AdmissionError)
  | tryReserve (bytes : Nat)
  | merge (shares : List Nat)

def step (s : Admission) : Action → Option Admission
  | .gate a => Fifo.step (ramPolicy capacity) s a
  | .tryReserve bytes => some (s.tryAcquire (ramPolicy capacity) (.unavailable bytes) bytes).2
  | .merge shares => if shares.Subperm s.permits then some (mergeAccepted s shares) else none

/-- The ledger is that of the permits. -/
structure Accounts (used : Used) (permits : List Nat) : Prop where
  bytes : used.bytes = permits.sum
  operations : used.operations = permits.length
  bytes_le : used.bytes ≤ capacity

variable {capacity} {used : Used} {bytes : Nat} {s t : Admission}

theorem fits_iff :
    (ramPolicy capacity).fits used bytes = true ↔ used.bytes + bytes ≤ u64Max ∧ used.bytes + bytes ≤ capacity := by
  simp only [ramPolicy, projectedExceeds, checkedAdd]
  split <;> simp_all

theorem Accounts.charge {ps : List Nat} (h : Accounts capacity used ps)
    (hf : (ramPolicy capacity).fits used bytes = true) :
    Accounts capacity ((ramPolicy capacity).charge used bytes) (ps ++ [bytes]) := by
  have hb := h.bytes
  have ho := h.operations
  refine ⟨?_, ?_, (fits_iff.1 hf).2⟩
  · simp [ramPolicy, hb]
  · simp [ramPolicy, ho]

theorem ram_lawful : Lawful (ramPolicy capacity) (fun _ used ps _ => Accounts capacity used ps) fun _ _ => True where
  accept h := by
    simp only [ramPolicy] at h
    split at h <;> cases h
  enter {l r l' ps} hl h _ hf := by
    simp only [ramPolicy] at hl
    split at hl <;> cases hl
    exact h.charge hf
  queue {l r l' ps n} hl h _ := by
    simp only [ramPolicy] at hl
    split at hl <;> cases hl
    exact h
  refresh h := h
  grant h hf := h.charge hf
  refund {l r ps n} _ h hf := by
    simpa [ramPolicy] using h
  blocked h _ := h
  leave h := h
  release {b l r ps ps' n} hperm h := by
    have hb := h.bytes.trans hperm.sum_eq
    have ho := h.operations
    rw [hperm.length_eq, length_cons] at ho
    rw [sum_cons] at hb
    have hle := h.bytes_le
    have heq : release l r = (⟨l.bytes - r, l.operations - 1⟩, none) := by
      simp only [release, checkedSub_of_le (show r ≤ l.bytes by omega),
        checkedSub_of_le (show 1 ≤ l.operations by omega)]
    simp only [ramPolicy, heq, true_and]
    exact ⟨by simp only; omega, by simp only; omega, by simp only; omega⟩
  ended h := h

theorem foldlM_checkedAdd {acc : Nat} {shares : List Nat} (h : acc + shares.sum ≤ u64Max) :
    shares.foldlM checkedAdd acc = some (acc + shares.sum) := by
  induction shares generalizing acc with
  | nil => simp
  | cons b shares ih =>
    rw [sum_cons] at h ⊢
    rw [foldlM_cons, checkedAdd_of_le (by omega), Option.bind_eq_bind, Option.bind_some, ih (by omega), Nat.add_assoc]

/-- A merge changes its shares for one permit, or nothing; it never ends the gate. -/
theorem mergeAccepted_cases (hcap : capacity ≤ u64Max) (h : Accounts capacity s.ledger s.permits) {shares : List Nat}
    (hout : shares.Subperm s.permits) : mergeAccepted s shares = s ∨ ∃ used permits,
      mergeAccepted s shares = { s with ledger := used, permits := permits } ∧ Accounts capacity used permits ∧
      used.bytes = s.ledger.bytes := by
  have hperm : (shares ++ s.permits.diff shares).Perm s.permits :=
    subperm_append_diff_self_of_count_le (subperm_ext_iff.1 hout)
  have hsum := hperm.sum_eq
  have hlen := hperm.length_eq
  rw [sum_append] at hsum
  rw [length_append] at hlen
  have hb := h.bytes
  have ho := h.operations
  have hle := h.bytes_le
  unfold mergeAccepted
  split
  · exact .inl rfl
  rename_i hne
  have hpos := length_pos_iff.2 hne
  rw [total, foldlM_checkedAdd (by omega)]
  dsimp only
  split
  · exact .inl rfl
  rw [if_neg (by simp; omega)]
  refine .inr ⟨_, _, rfl, ⟨?_, ?_, hle⟩, rfl⟩
  · simp only [sum_append, sum_singleton]; omega
  · simp only [length_append, length_singleton]; omega

abbrev Balanced (capacity : Nat) (s : Admission) : Prop :=
  Inv (fun _ used ps _ => Accounts capacity used ps) s ∧ HeadWaits (ramPolicy capacity) s

theorem step_balanced (hcap : capacity ≤ u64Max) (h : Balanced capacity s) {a : Action}
    (hs : step capacity s a = some t) : Balanced capacity t := by
  have haccept : ∀ {e l r l'}, (ramPolicy capacity).accept e l r = .ok l' →
      ∀ r', (ramPolicy capacity).fits l' r' = (ramPolicy capacity).fits l r' := by
    intro e l r l' hl _
    simp only [ramPolicy] at hl
    split at hl
    · cases hl
    · cases e <;> cases hl; rfl
  cases a with
  | gate a =>
    refine ⟨step_inv ram_lawful h.1 ?_ hs, step_headWaits (fun _ _ => rfl) haccept h.2 hs⟩
    cases a <;> trivial
  | tryReserve bytes =>
    cases hs
    rcases tryAcquire_cases s (.unavailable bytes) bytes with ⟨hsame, -⟩ | ⟨-, hsame⟩
    · rwa [hsame]
    · rw [hsame]
      exact ⟨h.1.acquire ram_lawful trivial, step_headWaits (fun _ _ => rfl) haccept h.2 (a := .acquire bytes) rfl⟩
  | merge shares =>
    obtain ⟨hout, rfl⟩ := of_guard hs
    rcases mergeAccepted_cases hcap h.1.holds hout with hsame | ⟨used, permits, hsame, hacc, hbytes⟩
    · rwa [hsame]
    rw [hsame]
    refine ⟨h.1.exchange hacc _, fun hn hd w hw => ?_⟩
    have hno := h.2 hn hd w hw
    rw [← Bool.not_eq_true, fits_iff] at hno ⊢
    rwa [hbytes]

/-- **The bytes admitted to RAM are conserved, and served in order.** In every run: the bytes in use are those of the
live permits, and within the capacity; a merge keeps them; the waiters are granted in the order of their arrival, and a
request gets its permit at once only where nobody waits; a waiter that is cancelled leaves the queue, and once no grant
is due the first one left does not fit. -/
theorem admission_conserved (hcap : capacity ≤ u64Max)
    (h : Reach (step capacity) anyStep ⟨{}, 0, [], none, [], 0, [], [], []⟩ s) :
    s.ledger.bytes = s.permits.sum ∧ s.ledger.bytes ≤ capacity ∧
    (∀ shares t, step capacity s (.merge shares) = some t → t.permits.sum = s.permits.sum ∧ t.terminal = s.terminal) ∧
    (s.granted ++ s.waiters.map (·.id)).Pairwise (· < ·) ∧
    (∀ bytes, (s.acquire (ramPolicy capacity) bytes).1 = .permit ∨
      (s.tryAcquire (ramPolicy capacity) (.unavailable bytes) bytes).1 = .permit → s.waiters = []) ∧
    (∀ id t, step capacity s (.gate (.cancel id)) = some t → id ∉ t.waiters.map (·.id)) ∧
    (s.terminal = none → s.due = 0 → ∀ w ∈ s.waiters.head?, capacity < s.ledger.bytes + w.request) := by
  have hinv : Balanced capacity s := by
    refine Reach.invariant (I := Balanced capacity) ⟨?_, fun _ _ _ hw => by cases hw⟩
      (fun s a t hi _ hs => step_balanced hcap hi hs) h
    exact ⟨⟨rfl, rfl, Nat.zero_le _⟩, .nil, nofun, nofun, fun _ => rfl⟩
  obtain ⟨hi, hhead⟩ := hinv
  refine ⟨hi.holds.bytes, hi.holds.bytes_le, fun shares t ht => ?_, hi.ordered, fun bytes hp => ?_, fun id t ht => ?_,
    fun hn hd w hw => ?_⟩
  · obtain ⟨hout, rfl⟩ := of_guard ht
    rcases mergeAccepted_cases hcap hi.holds hout with hsame | ⟨used, permits, hsame, hacc, hbytes⟩
    · rw [hsame]; exact ⟨rfl, rfl⟩
    · rw [hsame]; exact ⟨by rw [← hacc.bytes, hbytes, hi.holds.bytes], rfl⟩
  · rcases hp with hp | hp
    · exact empty_of_permit hp
    rcases tryAcquire_cases s (.unavailable bytes) bytes with ⟨-, hno⟩ | ⟨hp, -⟩
    · exact absurd hp hno
    · exact empty_of_permit hp
  · simp only [step, Fifo.step, Option.ite_none_right_eq_some, Option.some.injEq] at ht
    obtain ⟨-, rfl⟩ := ht
    simp [Gate.cancel, withdraw]
  · have hno := hhead hn hd w hw
    rw [← Bool.not_eq_true, fits_iff] at hno
    by_contra hle'
    exact hno ⟨by omega, by omega⟩

/-- Two shares become one permit while a request waits; its cancellation lets the next one through. -/
theorem admission_conserved_run : ∃ s, run (guarded (step 5) anyStep) ⟨{}, 0, [], none, [], 0, [], [], []⟩
      [.gate (.acquire 1), .gate (.acquire 2), .gate (.acquire 4), .gate (.acquire 2), .merge [1, 2], .gate (.vanish 0),
        .gate (.cancel 0), .gate .grant] = some s ∧ s.permits = [3, 2] ∧ s.granted = [1] ∧ s.ledger.bytes ≤ 5 := by
  refine ⟨_, rfl, by decide, by decide, ?_⟩
  exact (@admission_conserved 5 _ (by decide)
    (reach_of_run .init (l := [.gate (.acquire 1), .gate (.acquire 2), .gate (.acquire 4),
    .gate (.acquire 2), .merge [1, 2], .gate (.vanish 0), .gate (.cancel 0), .gate .grant]) rfl)).2.1

end ZeroFS.Ram
