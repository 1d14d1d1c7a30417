import ZeroFS.Fence.Gate
import ZeroFS.Lib.Fifo

/-!
# The raw mutation budget

`RawMutationBudget` charges the bytes and one operation of every volatile write. Its waiters have paid for their
operation already. `grant_waiters` sends the permits after it has given up the lock, and a permit that comes back after
the termination is not accounted for.
-/

namespace ZeroFS.RawBudget

open Machine Fence Fifo

structure Limits where
  capacityBytes : Nat
  maxOperations : Nat
  capacity_le : capacityBytes ≤ u64Max

structure Used where
  bytes : Nat := 0
  operations : Nat := 0

variable (lim : Limits)

/-- `acquire` up to the queue: the operation is charged. -/
def accept (terminal : Option MutationError) (used : Used) (bytes : Nat) : Except MutationError Used :=
  if lim.capacityBytes < bytes then .error .tooLarge
  else match terminal with
  | some error => .error error
  | none =>
    if lim.maxOperations ≤ used.operations then .error .backpressure
      else .ok { used with operations := used.operations + 1 }

/-- `used_bytes.saturating_add(bytes) <= capacity_bytes`. -/
def fits (used : Used) (bytes : Nat) : Bool := min (used.bytes + bytes) u64Max ≤ lim.capacityBytes

/-- `used_bytes += bytes`, which wraps in a release build. -/
def charge (used : Used) (bytes : Nat) : Used := { used with bytes := (used.bytes + bytes) % 2 ^ 64 }

/-- The operation of a waiter that leaves. -/
def leave (used : Used) : Used := { used with operations := (checkedSub used.operations 1).getD used.operations }

def release (ended : Bool) (used : Used) (bytes : Nat) : Used :=
  if ended then used
  else ⟨(checkedSub used.bytes bytes).getD used.bytes, (checkedSub used.operations 1).getD used.operations⟩

def budget : Policy Used Nat MutationError where
  accept := accept lim
  fits := fits lim
  charge := charge
  refund used _ := used
  leave := leave
  release ended used bytes := (release ended used bytes, none)
  handsOver := false

abbrev Budget := Gate Used Nat MutationError

/-- No addition wraps: the capacity is below `u64::MAX`, or the sum of the bytes is still a `u64`. -/
def noWrap (s : Budget) : Fifo.Action Nat MutationError → Bool
  | .acquire bytes => lim.capacityBytes < u64Max || s.ledger.bytes + bytes ≤ u64Max
  | _ => true

abbrev NoWrap (s : Budget) (a : Fifo.Action Nat MutationError) : Prop := noWrap lim s a = true

/-- The accounts: the permits, and the operations of the waiters. Where the capacity is `u64::MAX` nobody waits. -/
structure Accounts (ended : Bool) (used : Used) (permits : List Nat) (waiters : Nat) : Prop where
  bytes : ended = false → used.bytes = permits.sum
  operations : ended = false → used.operations = permits.length + waiters
  bytes_le : used.bytes ≤ lim.capacityBytes
  operations_le : used.operations ≤ lim.maxOperations
  unlimited : lim.capacityBytes < u64Max ∨ waiters = 0

variable {lim} {used : Used} {bytes : Nat}

/-- Where nothing wraps, a request that fits is charged as it is. -/
theorem charge_of_fits (hfits : fits lim used bytes = true)
    (h : lim.capacityBytes < u64Max ∨ used.bytes + bytes ≤ u64Max) :
    charge used bytes = { used with bytes := used.bytes + bytes } ∧ used.bytes + bytes ≤ lim.capacityBytes := by
  simp only [fits, decide_eq_true_eq] at hfits
  simp only [charge, Used.mk.injEq, and_true]
  unfold u64Max at *
  omega

theorem Accounts.charge {ps : List Nat} {n n' : Nat} {used' : Used} (h : Accounts lim false used ps n)
    (hbytes : used'.bytes = used.bytes) (hops : used'.operations = ps.length + 1 + n')
    (hle : used'.operations ≤ lim.maxOperations) (hn : n' ≤ n) (hfits : fits lim used' bytes = true)
    (hc : lim.capacityBytes < u64Max ∨ used.bytes + bytes ≤ u64Max) :
    Accounts lim false (RawBudget.charge used' bytes) (ps ++ [bytes]) n' := by
  obtain ⟨hcharge, hcap⟩ := charge_of_fits hfits (hbytes ▸ hc)
  have hb := h.bytes rfl
  have hu := h.unlimited
  rw [hcharge]
  exact ⟨fun _ => by simp; omega, fun _ => by simp; omega, hcap, hle, by omega⟩

theorem accept_eq_ok {t : Option MutationError} {used' : Used} (h : (budget lim).accept t used bytes = .ok used') :
    t = none ∧ used.operations < lim.maxOperations ∧ used' = { used with operations := used.operations + 1 } := by
  simp only [budget, accept] at h
  split at h
  · cases h
  cases t with
  | some error => cases h
  | none => dsimp only at h; split at h <;> cases h; exact ⟨rfl, by omega, rfl⟩

theorem budget_lawful : Lawful (budget lim) (Accounts lim) fun used bytes =>
    lim.capacityBytes < u64Max ∨ used.bytes + bytes ≤ u64Max where
  accept h := nomatch (accept_eq_ok h).1
  enter {l r l' ps} hl h hc hf := by
    obtain ⟨-, hlt, rfl⟩ := accept_eq_ok hl
    have ho := h.operations rfl
    exact h.charge rfl (by simp only; omega) hlt le_rfl hf hc
  queue {l r l' ps n} hl h hn := by
    obtain ⟨-, hlt, rfl⟩ := accept_eq_ok hl
    have ho := h.operations rfl
    refine ⟨h.bytes, fun _ => by simp only [budget]; omega, h.bytes_le, hlt, .inl ?_⟩
    -- with an unlimited capacity every request fits, so nothing is ever queued
    by_contra hmax
    have hno := hn (h.unlimited.resolve_left hmax)
    simp only [budget, fits, decide_eq_false_iff_not] at hno
    omega
  refresh h := h
  grant {l r ps n} h hf := by
    have hlim := h.unlimited.resolve_right (Nat.succ_ne_zero n)
    have ho := h.operations rfl
    exact h.charge rfl (by omega) h.operations_le (Nat.le_succ n) hf (.inl hlim)
  refund := nofun
  blocked h _ := h
  leave {l ps n} h := by
    have ho := h.operations rfl
    have hol := h.operations_le
    simp only [budget, leave, checkedSub_of_le (show 1 ≤ l.operations by omega), Option.getD_some]
    exact { h with
      operations := fun _ => by simp only; omega
      operations_le := by simp only; omega
      unlimited := .inl (h.unlimited.resolve_right (Nat.succ_ne_zero n)) }
  release {b l r ps ps' n} hperm h := by
    refine ⟨rfl, ?_⟩
    cases b with
    | true => exact { h with bytes := nofun, operations := nofun }
    | false =>
      have hb := (h.bytes rfl).trans hperm.sum_eq
      have ho := h.operations rfl
      rw [hperm.length_eq, List.length_cons] at ho
      rw [List.sum_cons] at hb
      have hle := h.bytes_le
      have hol := h.operations_le
      simp only [budget, release, checkedSub_of_le (show r ≤ l.bytes by omega),
        checkedSub_of_le (show 1 ≤ l.operations by omega),
        Option.getD_some, Bool.false_eq_true, if_false]
      exact ⟨fun _ => by simp only; omega, fun _ => by simp only; omega, by simp only; omega,
        by simp only; omega, h.unlimited⟩
  ended h := ⟨nofun, nofun, h.bytes_le, h.operations_le, .inr rfl⟩

theorem inv_of_reach {s : Budget} (h : Reach (step (budget lim)) (NoWrap lim) ⟨{}, 0, [], none, [], 0, [], [], []⟩ s) :
    Inv (Accounts lim) s ∧ HeadWaits (budget lim) s := by
  refine Reach.invariant (I := fun s => Inv (Accounts lim) s ∧ HeadWaits (budget lim) s)
    ⟨?_, fun _ _ _ hw => by cases hw⟩ (fun s a t hi hc hs => ?_) h
  · exact ⟨⟨fun _ => rfl, fun _ => rfl, Nat.zero_le _, Nat.zero_le _, .inr rfl⟩, .nil, nofun, nofun, fun _ => rfl⟩
  refine ⟨step_inv budget_lawful hi.1 ?_ hs, step_headWaits (fun _ _ => rfl) (fun hl r => ?_) hi.2 hs⟩
  · cases a with
    | acquire bytes => simpa [NoWrap, noWrap, Asks] using hc
    | grant | drop bytes | vanish id | cancel id | terminate error => trivial
  · obtain ⟨-, -, rfl⟩ := accept_eq_ok hl; rfl

/-- **The budget is conserved and served in order.** In every run in which no addition wraps: until the budget is
terminated it has charged the bytes of the permits, and one operation for each of them and for each waiter; neither
passes its limit; the waiters are granted in the order of their numbers, and `acquire` answers with a permit only where
nobody waits; once no call is on its way the first waiter does not fit; a terminated budget has no waiter, and each one
there was got its permit, went away, or got the error. -/
theorem conserved_in_order (lim : Limits) {s : Budget}
    (h : Reach (step (budget lim)) (NoWrap lim) ⟨{}, 0, [], none, [], 0, [], [], []⟩ s) :
    (s.terminal = none → s.ledger.bytes = s.permits.sum ∧ s.ledger.operations = s.permits.length + s.waiters.length) ∧
    s.ledger.bytes ≤ lim.capacityBytes ∧ s.ledger.operations ≤ lim.maxOperations ∧
    (s.granted ++ s.waiters.map (·.id)).Pairwise (· < ·) ∧
    (∀ bytes, (s.acquire (budget lim) bytes).1 = .permit → s.waiters = []) ∧
    (s.terminal = none → s.due = 0 → ∀ w ∈ s.waiters.head?, lim.capacityBytes < s.ledger.bytes + w.request) ∧
    ∀ e, s.terminal = some e → s.waiters = [] ∧ ∀ id < s.nextWaiter, id ∈ s.granted ∨ id ∈ s.gone ∨
    (id, e) ∈ s.failed := by
  obtain ⟨hi, hhead⟩ := inv_of_reach h
  refine ⟨fun hn => ⟨hi.holds.bytes (by simp [hn]), hi.holds.operations (by simp [hn])⟩, hi.holds.bytes_le,
    hi.holds.operations_le, hi.ordered,
    fun bytes => empty_of_permit, fun hn hd w hw => ?_, fun e he => ?_⟩
  · have hno := hhead hn hd w hw; simp only [budget, fits, decide_eq_false_iff_not] at hno; omega
  · have hnil := hi.ended (by simp [he])
    exact ⟨hnil, fun id hid => by simpa [hnil, he] using hi.answered id hid⟩

def smallLimits : Limits := ⟨4, 3, by decide⟩

/-- Two waiters behind a permit that takes everything are granted after its drop. -/
theorem conserved_in_order_run : ∃ s, run (guarded (step (budget smallLimits)) (NoWrap smallLimits))
    ⟨{}, 0, [], none, [], 0, [], [], []⟩
      [.acquire 4, .acquire 3, .acquire 1, .drop 4, .grant] = some s ∧ s.permits = [3, 1] ∧ s.granted = [0, 1] ∧
    s.ledger.bytes ≤ smallLimits.capacityBytes := by
  refine ⟨_, rfl, by decide, by decide, ?_⟩
  exact (conserved_in_order smallLimits
    (reach_of_run .init (l := [.acquire 4, .acquire 3, .acquire 1, .drop 4, .grant]) rfl)).2.1

/-- The capacity that `MutationCoordinator::new` gives, which only tests call. -/
def unlimited : Limits := ⟨u64Max, 2, le_rfl⟩

/-- With the capacity `u64::MAX` the sum of the bytes wraps: two permits are out, and no byte is charged. -/
theorem wrap_loses_bytes : ∃ s, Reach (step (budget unlimited)) anyStep ⟨{}, 0, [], none, [], 0, [], [], []⟩ s ∧
    s.terminal = none ∧ s.permits = [u64Max, 1] ∧ s.ledger.bytes = 0 :=
  ⟨_, reach_of_run .init (l := [.acquire u64Max, .acquire 1]) rfl, rfl, by decide, by decide⟩

end ZeroFS.RawBudget
