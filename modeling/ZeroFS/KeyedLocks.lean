import ZeroFS.Lib.Machine
import ZeroFS.Lib.Table
import Mathlib.Data.List.Dedup
import Mathlib.Data.List.Sort
import Mathlib.Logic.Relation

/-!
# Keyed locks (`fs/lock_manager.rs`)

A table maps each key to the mutex of its lock. A call clones the mutex out of the table (creating it) and waits on the
clone. The drop of a guard releases the mutex, gives the clone back and then evicts the entry if only the table still
refers to it.
-/

namespace ZeroFS.KeyedLocks

open Machine Relation

variable {K : Type} [LinearOrder K]

/-- A clone that a call waits on or holds the guard of, and the keys it has to lock after it. A mutex is named by key
and number. -/
structure Ticket (K : Type) where
  key : K
  mutex : Nat
  call : Nat
  todo : List K
  held : Bool := false

/-- `KeyedLockManager` with its callers: `drops` are the keys of guards that are released and not yet evicted, `calls`
the calls that wait on nothing. -/
structure State (K : Type) where
  locks : Table K Nat := .empty
  tickets : Table Nat (Ticket K) := .empty
  drops : List K := []
  calls : Table Nat (List K) := .empty
  next : Nat := 0

inductive Action (K : Type) where
  | acquire (key : K)
  | acquireMulti (keys : List K)
  | clone (call : Nat)
  | lock (ticket : Nat)
  | cancel (ticket : Nat)
  | release (ticket : Nat)
  | evict (key : K)

namespace State

variable (s : State K)

/-- `Arc::strong_count` of a mutex that the table holds. -/
def strongCount (key : K) (mutex : Nat) : Nat := 1 + s.tickets.count fun _ x => x.key = key ∧ x.mutex = mutex

/-- `get_or_create_lock`, one step under the table's shard lock. -/
def getOrCreateLock (key : K) : Nat := (s.locks.get key).getD s.next

def step : Action K → Option (State K)
  | .acquire key => some { s with calls := s.calls.put s.next [key], next := s.next + 1 }
  | .acquireMulti keys => some { s with calls := s.calls.put s.next (keys.mergeSort (· ≤ ·)).dedup, next := s.next + 1 }
  | .clone call =>
    match s.calls.get call with
    | some (key :: todo) =>
      let mutex := s.getOrCreateLock key
      some { s with
        locks := s.locks.put key mutex
        calls := s.calls.del call
        tickets := s.tickets.put s.next { key, mutex, call, todo }
        next := s.next + 1 }
    | _ => none
  -- Which waiter a free mutex goes to is left open.
  | .lock ticket => (s.tickets.get ticket).bind fun x =>
    if ¬x.held ∧ s.tickets.count (fun _ y => y.key = x.key ∧ y.mutex = x.mutex ∧ y.held) = 0 then
      some { s with
        tickets := s.tickets.put ticket { x with todo := [], held := true }
        calls := s.calls.put x.call x.todo }
    else none
  -- Dropping the future drops the clone it waits on; the guards of the call are dropped one by one.
  | .cancel ticket => (s.tickets.get ticket).bind fun x =>
    if x.held then none else some { s with tickets := s.tickets.del ticket }
  -- Releasing the mutex gives the clone back with it.
  | .release ticket => (s.tickets.get ticket).bind fun x =>
    if x.held then some { s with tickets := s.tickets.del ticket, drops := x.key :: s.drops } else none
  | .evict key =>
    if key ∈ s.drops then
      let unshared := (s.locks.get key).any fun mutex => s.strongCount key mutex = 1
      some { s with drops := s.drops.erase key, locks := if unshared then s.locks.del key else s.locks }
    else none

/-- Whether some call waits on, holds or is still dropping the lock of a key. -/
def Attends (key : K) : Prop := (∃ t x, s.tickets.get t = some x ∧ x.key = key) ∨ key ∈ s.drops

/-- A cancelled wait is not the last that attends its key. -/
def NotLast : Action K → Prop
  | .cancel ticket => ∀ x, s.tickets.get ticket = some x → { s with tickets := s.tickets.del ticket }.Attends x.key
  | _ => True

/-- Call `c` waits for a guard of call `d`, or behind a wait of `d` that came first. -/
def WaitsFor (c d : Nat) : Prop :=
  ∃ t x u y, s.tickets.get t = some x ∧ s.tickets.get u = some y ∧ x.call = c ∧ y.call = d ∧ x.key = y.key ∧
    x.mutex = y.mutex ∧ ¬x.held ∧ (y.held ∨ u < t)

/-! ## The invariant -/

structure Inv : Prop where
  /-- The table has every mutex that is cloned. -/
  canon : ∀ t x, s.tickets.get t = some x → s.locks.get x.key = some x.mutex
  excl : ∀ t u x y, s.tickets.get t = some x → s.tickets.get u = some y → x.held → y.held → x.key = y.key → t = u
  below : (∀ t x, s.tickets.get t = some x → t < s.next ∧ x.call < s.next) ∧ ∀ c l, s.calls.get c = some l → c < s.next
  /-- A call waits on one lock, and its others are of smaller keys. -/
  waits : ∀ t x, s.tickets.get t = some x → ¬x.held → s.calls.get x.call = none ∧ (x.key :: x.todo).Pairwise (· < ·) ∧
    ∀ u y, s.tickets.get u = some y → y.call = x.call → u ≠ t → y.key < x.key
  calls : ∀ c l, s.calls.get c = some l → l.Pairwise (· < ·) ∧
    ∀ t x, s.tickets.get t = some x → x.call = c → ∀ k ∈ l, x.key < k

end State

open State

variable {s s' : State K} {a : Action K} {t : Nat} {x : Ticket K}

theorem sorted_dedup (keys : List K) : (keys.mergeSort (· ≤ ·)).dedup.Pairwise (· < ·) := by
  have hsorted := List.pairwise_mergeSort' (· ≤ ·) keys
  exact ((hsorted.sublist (List.dedup_sublist _)).and (List.nodup_dedup _)).imp fun h => lt_of_le_of_ne h.1 h.2

theorem State.Inv.begin (h : Inv s) {keys : List K} (hkeys : keys.Pairwise (· < ·)) :
    Inv { s with calls := s.calls.put s.next keys, next := s.next + 1 } := by
  obtain ⟨hcanon, hexcl, hbelow, hwaits, hcalls⟩ := h
  constructor <;> grind

theorem State.Inv.clone (h : Inv s) {call : Nat} {key : K} {todo : List K}
    (hc : s.calls.get call = some (key :: todo)) :
    Inv { s with
      locks := s.locks.put key (s.getOrCreateLock key)
      calls := s.calls.del call
      tickets := s.tickets.put s.next { key, mutex := s.getOrCreateLock key, call, todo }
      next := s.next + 1 } := by
  have hsort := (h.calls _ _ hc).1
  have hkey : ∀ t x, s.tickets.get t = some x → x.call = call → x.key < key := fun t x hx hxc =>
    (h.calls _ _ hc).2 t x hx hxc key List.mem_cons_self
  obtain ⟨hcanon, hexcl, hbelow, hwaits, hcalls⟩ := h
  unfold getOrCreateLock
  constructor <;> grind

theorem State.Inv.lock (h : Inv s) (hx : s.tickets.get t = some x) (hp : ¬x.held)
    (hfree : s.tickets.count (fun _ y => y.key = x.key ∧ y.mutex = x.mutex ∧ y.held) = 0) :
    Inv { s with
      tickets := s.tickets.put t { x with todo := [], held := true }, calls := s.calls.put x.call x.todo } := by
  have hnone : ∀ u y, s.tickets.get u = some y → y.key = x.key → ¬y.held := fun u y hy hk hheld => by
    have hm := (h.canon u y hy).symm.trans (hk ▸ h.canon t x hx)
    exact Table.count_eq_zero_iff.1 hfree u y hy ⟨hk, Option.some.inj hm, hheld⟩
  have hcons := List.pairwise_cons.1 (h.waits t x hx hp).2.1
  obtain ⟨hcanon, hexcl, hbelow, hwaits, hcalls⟩ := h
  refine ⟨by grind, fun u v y z hy hz hyh hzh hk => ?_, by grind, by grind, by grind⟩
  rcases Table.cases_put hy with ⟨rfl, rfl⟩ | ⟨-, hy'⟩ <;> rcases Table.cases_put hz with ⟨rfl, rfl⟩ | ⟨-, hz'⟩
  · rfl
  · exact (hnone v z hz' hk.symm hzh).elim
  · exact (hnone u y hy' hk hyh).elim
  · exact hexcl u v y z hy' hz' hyh hzh hk

theorem State.Inv.del (h : Inv s) (t : Nat) (drops : List K) : Inv { s with tickets := s.tickets.del t, drops } := by
  obtain ⟨hcanon, hexcl, hbelow, hwaits, hcalls⟩ := h
  constructor <;> grind

/-- An entry that only the table refers to has no clone. -/
theorem State.Inv.evict (h : Inv s) {key : K} {mutex : Nat} (hm : s.locks.get key = some mutex)
    (hcount : s.strongCount key mutex = 1) (drops : List K) : Inv { s with locks := s.locks.del key, drops } := by
  have hnone := Table.count_eq_zero_iff.1 (Nat.add_left_cancel hcount)
  obtain ⟨hcanon, hexcl, hbelow, hwaits, hcalls⟩ := h
  constructor <;> grind

theorem step_inv (h : Inv s) (hs : s.step a = some s') : Inv s' := by
  cases a with
  | acquire key => cases hs; exact h.begin (List.pairwise_singleton _ _)
  | acquireMulti keys => cases hs; exact h.begin (sorted_dedup keys)
  | clone call =>
    simp only [step] at hs
    split at hs
    · cases hs; exact h.clone ‹_›
    · cases hs
  | lock ticket =>
    obtain ⟨x, hx, hs⟩ := Option.bind_eq_some_iff.1 hs
    obtain ⟨⟨hp, hfree⟩, rfl⟩ := of_guard hs
    exact h.lock hx hp hfree
  | cancel ticket =>
    obtain ⟨x, hx, hs⟩ := Option.bind_eq_some_iff.1 hs
    obtain ⟨-, rfl⟩ := of_guard_not hs
    exact h.del ticket s.drops
  | release ticket =>
    obtain ⟨x, hx, hs⟩ := Option.bind_eq_some_iff.1 hs
    obtain ⟨-, rfl⟩ := of_guard hs
    exact h.del ticket _
  | evict key =>
    obtain ⟨-, rfl⟩ := of_guard hs
    split
    · rename_i hun
      obtain ⟨m, hm, hcount⟩ := (Option.any_eq_true _ _).1 hun
      exact h.evict hm (of_decide_eq_true hcount) _
    · exact ⟨h.canon, h.excl, h.below, h.waits, h.calls⟩

/-! ## Waits and entries -/

/-- Along a wait the awaited key grows, or it stays and the place in its queue comes nearer. -/
theorem rank_lt (h : Inv s) {c d u : Nat} {y : Ticket K} (hcd : TransGen s.WaitsFor c d) (hy : s.tickets.get u = some y)
    (hyc : y.call = d) (hyw : ¬y.held) :
    ∃ t x, s.tickets.get t = some x ∧ x.call = c ∧ ¬x.held ∧ (x.key < y.key ∨ x.key = y.key ∧ u < t) := by
  have hedge : ∀ {c d u : Nat} {y : Ticket K}, s.WaitsFor c d → s.tickets.get u = some y → y.call = d → ¬y.held →
      ∃ t x, s.tickets.get t = some x ∧ x.call = c ∧ ¬x.held ∧ (x.key < y.key ∨ x.key = y.key ∧ u < t) := by
    rintro c d u y ⟨t, x, v, z, hx, hz, hxc, hzc, hk, -, hxw, hzv⟩ hy hyc hyw
    refine ⟨t, x, hx, hxc, hxw, ?_⟩
    by_cases hvu : v = u
    · subst hvu; cases hz.symm.trans hy; exact .inr ⟨hk, hzv.resolve_left hyw⟩
    · exact .inl (hk ▸ (h.waits u y hy hyw).2.2 v z hz (hzc.trans hyc.symm) hvu)
  induction hcd generalizing u y with
  | single hr => exact hedge hr hy hyc hyw
  | tail _ hr ih =>
    obtain ⟨t, x, hx, hxc, hxw, hlt⟩ := hedge hr hy hyc hyw
    obtain ⟨t₀, x₀, hx₀, hc₀, hw₀, hlt₀⟩ := ih hx hxc hxw
    exact ⟨t₀, x₀, hx₀, hc₀, hw₀, by grind⟩

theorem no_cycle (h : Inv s) (c : Nat) : ¬TransGen s.WaitsFor c c := by
  intro hc
  obtain ⟨d, ⟨t, x, -, -, hx, -, rfl, -, -, -, hw, -⟩, -⟩ := TransGen.head'_iff.1 hc
  obtain ⟨u, y, hy, hyc, hyw, hlt⟩ := rank_lt h hc hx rfl hw
  by_cases htu : t = u
  · subst htu; cases hx.symm.trans hy; simp at hlt
  · have h₁ := (h.waits t x hx hw).2.2 u y hy hyc (Ne.symm htu)
    have h₂ := (h.waits u y hy hyw).2.2 t x hx hyc.symm htu
    exact lt_asymm h₁ h₂

/-- A step keeps a caller for every entry. -/
theorem step_attended (hinv : Inv s) (h : ∀ k m, s.locks.get k = some m → s.Attends k) (hc : s.NotLast a)
    (hs : s.step a = some s') {k : K} {m : Nat} (hk : s'.locks.get k = some m) : s'.Attends k := by
  cases a with
  | acquire key => cases hs; exact h k m hk
  | acquireMulti keys => cases hs; exact h k m hk
  | clone call =>
    simp only [step] at hs
    split at hs
    · cases hs
      rcases Table.cases_put hk with ⟨rfl, -⟩ | ⟨-, hk⟩
      · exact .inl ⟨s.next, _, Table.get_put_self .., rfl⟩
      · refine (h k m hk).imp_left fun ⟨t, x, hx, hxk⟩ => ⟨t, x, ?_, hxk⟩
        exact (Table.get_put_ne (Nat.ne_of_lt (hinv.below.1 t x hx).1)).trans hx
    · cases hs
  | lock ticket =>
    obtain ⟨x, hx, hs⟩ := Option.bind_eq_some_iff.1 hs
    obtain ⟨-, rfl⟩ := of_guard hs
    refine (h k m hk).imp_left fun ⟨t, y, hy, hyk⟩ => ?_
    by_cases ht : t = ticket
    · subst ht; cases hx.symm.trans hy; exact ⟨t, _, Table.get_put_self .., hyk⟩
    · exact ⟨t, y, (Table.get_put_ne ht).trans hy, hyk⟩
  | cancel ticket =>
    obtain ⟨x, hx, hs⟩ := Option.bind_eq_some_iff.1 hs
    obtain ⟨-, rfl⟩ := of_guard_not hs
    by_cases hxk : x.key = k
    · exact hxk ▸ hc x hx
    · refine (h k m hk).imp_left fun ⟨t, y, hy, hyk⟩ => ⟨t, y, (Table.get_del_ne ?_).trans hy, hyk⟩
      rintro rfl
      cases hx.symm.trans hy
      exact hxk hyk
  | release ticket =>
    obtain ⟨x, hx, hs⟩ := Option.bind_eq_some_iff.1 hs
    obtain ⟨-, rfl⟩ := of_guard hs
    rcases h k m hk with ⟨t, y, hy, rfl⟩ | hd
    · by_cases ht : t = ticket
      · subst ht; cases hx.symm.trans hy; exact .inr List.mem_cons_self
      · exact .inl ⟨t, y, (Table.get_del_ne ht).trans hy, rfl⟩
    · exact .inr (List.mem_cons_of_mem _ hd)
  | evict key =>
    obtain ⟨-, rfl⟩ := of_guard hs
    by_cases hkey : k = key
    · subst hkey
      split at hk
      · simp at hk
      · rename_i hun
        rw [hk] at hun
        by_contra hno
        refine hun (decide_eq_true ?_)
        unfold strongCount
        rw [Table.count_eq_zero_iff.2 fun t x hx hxk => hno (.inl ⟨t, x, hx, hxk.1⟩)]
    · have hk' : s.locks.get k = some m := by
        split at hk
        · exact (Table.of_del hk).2
        · exact hk
      exact (h k m hk').imp_right fun hd => (List.mem_erase_of_ne hkey).2 hd

/-- **Keyed locks exclude, never deadlock, and keep an entry only while some call attends it**, unless the last call
that attends it is cancelled in its wait. -/
theorem keyed_locks_exclude (h : Reach step anyStep ({} : State K) s) :
    (∀ t u x y, s.tickets.get t = some x → s.tickets.get u = some y → x.held → y.held → x.key = y.key → t = u) ∧
      (∀ c, ¬TransGen s.WaitsFor c c) ∧
      (Reach step NotLast ({} : State K) s → ∀ k m, s.locks.get k = some m → s.Attends k) := by
  have h0 : Inv ({} : State K) := by constructor <;> simp
  have hinv := Reach.invariant h0 (fun _ _ _ hi _ hs => step_inv hi hs) h
  refine ⟨hinv.excl, no_cycle hinv, fun hr => ?_⟩
  refine (Reach.invariant (I := fun s => Inv s ∧ ∀ k m, s.locks.get k = some m → s.Attends k) ⟨h0, by simp⟩ ?_ hr).2
  exact fun s a s' hi hc hs => ⟨step_inv hi.1 hs, fun k m hk => step_attended hi.1 hi.2 hc hs hk⟩

/-- A second call waits behind the guard of the first. -/
theorem keyed_locks_exclude_contended :
    ∃ s : State Nat, (∃ x, s.tickets.get 3 = some x ∧ ¬x.held) ∧ s.Attends 7 ∧ ∀ c, ¬TransGen s.WaitsFor c c := by
  have hany : Reach step anyStep ({} : State Nat) _ :=
    reach_of_run .init (l := [.acquire 7, .clone 0, .lock 1, .acquire 7, .clone 2]) rfl
  have hnot : Reach step NotLast ({} : State Nat) _ :=
    .step (.clone 2)
      (.step (.acquire 7) (.step (.lock 1) (.step (.clone 0) (.step (.acquire 7) .init trivial rfl) trivial rfl)
      trivial rfl) trivial rfl) trivial rfl
  have h := keyed_locks_exclude hany
  exact ⟨_, ⟨_, rfl, Bool.false_ne_true⟩, h.2.2 hnot 7 1 rfl, h.2.1⟩

/-- A waiter is cancelled after the guard it waited for was dropped: the entry stays. -/
theorem cancelled_wait_leaves_entry :
    ∃ s : State Nat, Reach step anyStep {} s ∧ s.locks.get 7 = some 1 ∧ s.tickets = .empty ∧ s.drops = [] :=
  ⟨_, reach_of_run .init (l := [.acquire 7, .clone 0, .lock 1, .acquire 7, .clone 2, .release 1, .evict 7, .cancel 3])
    rfl, rfl, rfl, rfl⟩

end ZeroFS.KeyedLocks
