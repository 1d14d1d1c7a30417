import ZeroFS.Pipeline.Tail

/-!
# The quota ledger and the sizes of the files

A call reserves the growth of its files over the sizes it reads, and settles it with its transaction. The committed
count is the total size of the files as far as the settled transactions go (`Chained`), unless a rejected batch had
changed a size that another call has planned on; `Sys.ledgerKept` excludes these runs.
-/

namespace ZeroFS

open Machine Updates List

/-! ## Settling reservations -/

namespace LogicalQuota

variable {q : LogicalQuota} {n : Nat}

def setCounts (q : LogicalQuota) (committed pending : Nat) : LogicalQuota :=
  ⟨q.maxBytes, ⟨committed, pending, q.inner.poisoned⟩⟩

theorem releasePending_eq (hp : q.inner.poisoned = none) (h : n ≤ q.inner.pending) :
    q.releasePending n = q.setCounts q.inner.committed (q.inner.pending - n) := by
  unfold releasePending
  by_cases h0 : n = 0
  · rw [if_pos (.inl h0), h0]; rfl
  · rw [if_neg (by rw [hp]; simp [h0]), checkedSub_of_le h]; rfl

theorem releaseCommitted_eq (hp : q.inner.poisoned = none) (h : n ≤ q.inner.committed) :
    q.releaseCommitted n = q.setCounts (q.inner.committed - n) q.inner.pending := by
  unfold releaseCommitted
  by_cases h0 : n = 0
  · rw [if_pos (.inl h0), h0]; rfl
  · rw [if_neg (by rw [hp]; simp [h0]), checkedSub_of_le h]; rfl

theorem transferToCommitted_eq (hp : q.inner.poisoned = none) (h : n ≤ q.inner.pending) (hv : q.visible ≤ u64Max) :
    q.transferToCommitted n = q.setCounts (q.inner.committed + n) (q.inner.pending - n) := by
  unfold transferToCommitted
  by_cases h0 : n = 0
  · rw [if_pos (.inl h0), h0]; rfl
  have hle : q.inner.committed + n ≤ u64Max := by
    unfold visible at hv
    omega
  rw [if_neg (by rw [hp]; simp [h0]), checkedSub_of_le h, checkedAdd_of_le hle]
  rfl

end LogicalQuota

def reservedBytes (rs : List ProvisionalQuotaReservation) : Nat := (rs.map ProvisionalQuotaReservation.bytes).sum

section

variable {rs : List ProvisionalQuotaReservation} {q : LogicalQuota}

theorem reservedBytes_cons (r : ProvisionalQuotaReservation) (rs : List ProvisionalQuotaReservation) :
    reservedBytes (r :: rs) = r.bytes + reservedBytes rs := rfl

theorem reservedBytes_append (rs rs' : List ProvisionalQuotaReservation) :
    reservedBytes (rs ++ rs') = reservedBytes rs + reservedBytes rs' := by
  unfold reservedBytes
  rw [map_append, sum_append]

/-- Reservations leave the pending count one after another, and are committed or dropped. -/
theorem foldl_settle {f : LogicalQuota → ProvisionalQuotaReservation → LogicalQuota} {k : Nat} (hk : k ≤ 1)
    (hf : ∀ q, ∀ r ∈ rs, q.inner.poisoned = none → q.visible ≤ u64Max → r.bytes ≤ q.inner.pending →
      f q r = q.setCounts (q.inner.committed + k * r.bytes) (q.inner.pending - r.bytes))
    (hp : q.inner.poisoned = none) (hv : q.visible ≤ u64Max) (hle : reservedBytes rs ≤ q.inner.pending) :
    rs.foldl f q = q.setCounts (q.inner.committed + k * reservedBytes rs) (q.inner.pending - reservedBytes rs) := by
  induction rs generalizing q with
  | nil => rfl
  | cons r rs ih =>
    rw [reservedBytes_cons] at hle ⊢
    have hv' : (q.setCounts (q.inner.committed + k * r.bytes) (q.inner.pending - r.bytes)).visible ≤ u64Max := by
      have hmul := Nat.mul_le_mul_right r.bytes hk
      unfold LogicalQuota.visible at hv ⊢
      show q.inner.committed + k * r.bytes + (q.inner.pending - r.bytes) ≤ u64Max
      omega
    have hrest := ih (fun q r' hr' => hf q r' (mem_cons_of_mem _ hr'))
      (q := q.setCounts (q.inner.committed + k * r.bytes) (q.inner.pending - r.bytes)) hp hv'
      (show reservedBytes rs ≤ q.inner.pending - r.bytes by omega)
    rw [foldl_cons, hf q r mem_cons_self hp hv (by omega), hrest, ← Nat.sub_sub, Nat.mul_add, ← Nat.add_assoc]
    rfl

end

namespace Call

variable {c : Call} {q : LogicalQuota}

/-- The bytes that a call has reserved and not settled. -/
def reserved (c : Call) : Nat := reservedBytes c.growth

theorem refund_eq (hrs : ∀ r ∈ c.growth, r.state = .provisional) (hp : q.inner.poisoned = none)
    (hv : q.visible ≤ u64Max) (hle : c.reserved ≤ q.inner.pending) :
    c.refund q = q.setCounts q.inner.committed (q.inner.pending - c.reserved) := by
  have hall := foldl_settle (f := fun q r => r.drop q) (k := 0) (Nat.zero_le 1) (fun q r hr hp _ hle => ?_) hp hv hle
  · rw [Nat.zero_mul] at hall; exact hall
  unfold ProvisionalQuotaReservation.drop
  rw [if_pos (hrs r hr), LogicalQuota.releasePending_eq hp hle, Nat.zero_mul]
  rfl

theorem settleQuota_eq (hrs : ∀ r ∈ c.growth, r.state = .provisional) (hp : q.inner.poisoned = none)
    (hv : q.visible ≤ u64Max) (hle : c.reserved ≤ q.inner.pending) (hsh : c.shrink ≤ q.inner.committed + c.reserved) :
    c.settleQuota q = q.setCounts (q.inner.committed + c.reserved - c.shrink) (q.inner.pending - c.reserved) := by
  have hall := foldl_settle (f := fun q r => (r.accept.canonical q).2) le_rfl (fun q r hr hp hv hle => ?_) hp hv hle
  · unfold settleQuota
    rw [hall, Nat.one_mul]
    exact LogicalQuota.releaseCommitted_eq
      (q := q.setCounts (q.inner.committed + c.reserved) (q.inner.pending - c.reserved)) hp hsh
  unfold ProvisionalQuotaReservation.accept ProvisionalQuotaReservation.canonical
  rw [if_pos (hrs r hr)]
  dsimp only
  rw [if_pos (.inr rfl), LogicalQuota.transferToCommitted_eq hp hle hv, Nat.one_mul]

end Call

/-! ## Sizes -/

def totalSize (t : Table InodeId Inode) : Nat := t.sum fun _ i => i.size

/-- The sizes of the rows that a transaction writes. -/
def Txn.newSizes (txn : Txn) : Nat := (txn.rows.map fun p => recordSize p.2).sum

/-- The sizes of the rows that a transaction replaces. -/
def Txn.oldSizes (txn : Txn) (inode : InodeId → Option Inode) : Nat :=
  (txn.rows.map fun p => recordSize (inode p.1)).sum

/-- The call reserves and releases the difference in size of the rows it writes. -/
def Call.Balanced (c : Call) (inode : InodeId → Option Inode) : Prop :=
  c.txn.newSizes + c.shrink = c.txn.oldSizes inode + c.reserved

/-- Each call is balanced on top of those before it. -/
def Chain : Table InodeId Inode → List Call → Prop
  | _, [] => True
  | t, c :: cs => c.Balanced t.get ∧ Chain (t.setAll c.txn.rows) cs

/-- The table after the rows of some calls. -/
def setCalls (t : Table InodeId Inode) (cs : List Call) : Table InodeId Inode :=
  cs.foldl (fun t c => t.setAll c.txn.rows) t

section Sizes

variable {t t' : Table InodeId Inode} {c : Call} {cs cs' : List Call}

theorem totalSize_setAll {rows : List (InodeId × Option Inode)} (hn : (rows.map Prod.fst).Nodup) :
    totalSize (t.setAll rows) + (rows.map fun p => recordSize (t.get p.1)).sum =
      totalSize t + (rows.map fun p => recordSize p.2).sum := Table.sum_setAll (fun _ i => Inode.size i) hn t

/-- A balanced call changes the total size by what it reserved and what it releases. -/
theorem Call.Balanced.total (h : c.Balanced t.get) (hok : CallOk c) :
    totalSize (t.setAll c.txn.rows) + c.shrink = totalSize t + c.reserved := by
  have hn : (c.txn.rows.map Prod.fst).Nodup := by
    unfold Txn.rows
    rw [map_map]
    exact hok.updates_nodup
  have hsum : totalSize (t.setAll c.txn.rows) + c.txn.oldSizes t.get = totalSize t + c.txn.newSizes :=
    totalSize_setAll hn
  unfold Call.Balanced at h
  omega

theorem Chain.append_iff : Chain t (cs ++ cs') ↔ Chain t cs ∧ Chain (setCalls t cs) cs' := by
  induction cs generalizing t with
  | nil => exact ⟨fun h => ⟨trivial, h⟩, fun h => h.2⟩
  | cons c cs ih =>
    show c.Balanced t.get ∧ Chain (t.setAll c.txn.rows) (cs ++ cs') ↔ _
    rw [ih]
    exact ⟨fun ⟨h1, h2, h3⟩ => ⟨⟨h1, h2⟩, h3⟩, fun ⟨⟨h1, h2⟩, h3⟩ => ⟨h1, h2, h3⟩⟩

theorem Balanced.congr {f g : InodeId → Option Inode} (h : ∀ p ∈ c.txn.rows, recordSize (g p.1) = recordSize (f p.1))
    (hb : c.Balanced f) : c.Balanced g := by
  have hold : c.txn.oldSizes g = c.txn.oldSizes f := by
    exact congrArg sum (map_congr_left h)
  unfold Call.Balanced at hb ⊢
  rw [hold]
  exact hb

theorem Chain.congr (h : ∀ c ∈ cs, ∀ p ∈ c.txn.rows, recordSize (t'.get p.1) = recordSize (t.get p.1))
    (hc : Chain t cs) : Chain t' cs := by
  induction cs generalizing t t' with
  | nil => trivial
  | cons c cs ih =>
    obtain ⟨hb, hrest⟩ := hc
    refine ⟨Balanced.congr (h c mem_cons_self) hb, ih ?_ hrest⟩
    intro c' hc' p hp
    rw [Table.get_setAll, Table.get_setAll]
    cases newest c.txn.rows p.1 with
    | some v => rfl
    | none => exact h c' (mem_cons_of_mem _ hc') p hp

theorem setCalls_eq (t : Table InodeId Inode) (cs : List Call) :
    setCalls t cs = t.setAll (cs.flatMap fun c => c.txn.rows) := by
  induction cs generalizing t with
  | nil => rfl
  | cons c cs ih =>
    show setCalls (t.setAll c.txn.rows) cs = _
    rw [ih, flatMap_cons]
    exact foldl_append.symm

end Sizes

/-! ## The condition -/

/-- The call is planned and neither settled nor given up. -/
def CallPhase.isOpen : CallPhase → Bool
  | .preparing .. | .staging _ | .queued => true
  | _ => false

namespace Sys

/-- The rows of the open calls outside a batch replace records whose size the batch does not change. -/
def sizesSurvive (s : Sys) (batch : List Nat) : Bool :=
  s.calls.entries.all fun e => batch.contains e.1 || !e.2.phase.isOpen || e.2.txn.rows.all fun p =>
    recordSize (s.db.inodes.get p.1) = recordSize ((s.db.applyBatch (s.txnsOf batch)).inodes.get p.1)

/-- The task reads the size that the queue leads to, and its growth fits `u64`. -/
def taskKept (s : Sys) (now : Nat → Timestamp) (c : Call) (task : Task) : Bool :=
  recordSize (s.visible task.id) = recordSize (s.view.inode task.id) &&
    match task.plan now c.creds c.checkPermissions (s.visible task.id) with
    | .ok plan => s.quota.visible + plan.growth ≤ u64Max
    | .error _ => true

/-- No call plans on the size of a rejected transaction, no growth leaves `u64`, and every caller waits. -/
def ledgerKept (s : Sys) : Action → Bool
  | .prepare tid now =>
    match s.calls.get tid with
    | some c =>
      match c.phase with
      | .preparing (task :: _) _ => s.taskKept now c task
      | _ => true
    | none => true
  | .reject _ =>
    match s.worker with
    | .drained batch => s.sizesSurvive batch
    | _ => true
  | .drop _ => false
  | _ => true

def callsOf (s : Sys) (tids : List Nat) : List Call := tids.filterMap s.calls.get

/-- The transactions that are applied and not settled, and those that are not applied, in order. -/
def unsettled (s : Sys) : List Nat := s.worker.landing ++ s.unapplied

end Sys

abbrev LedgerKept (s : Sys) (a : Action) : Prop := s.ledgerKept a = true

theorem Sys.awaited_of_ledgerKept {s : Sys} {a : Action} (h : s.ledgerKept a = true) : a.awaited = true := by
  cases a <;> first | rfl | cases h

/-! ## The invariants -/

/-- The ledger is healthy and its pending count is what the open calls have reserved. -/
structure Solvent (s : Sys) : Prop where
  healthy : s.quota.inner.poisoned = none
  fits : s.quota.visible ≤ u64Max
  provisional : ∀ t c, s.At t c → ∀ r ∈ c.growth, r.state = .provisional
  spent : ∀ t c, s.At t c → c.phase.isOpen = false → c.growth = []
  fresh : ∀ t c todo, s.At t c → c.phase = .locking todo → c.shrink = 0
  pending : s.quota.inner.pending = s.calls.sum fun _ c => c.reserved

/-- The committed count is the total size without the unsettled transactions, which are balanced one after another. -/
def Chained (s : Sys) : Prop :=
  ∃ base, totalSize base = s.quota.inner.committed ∧ setCalls base (s.callsOf s.worker.landing) = s.db.inodes ∧
    Chain base (s.callsOf s.unsettled)

/-- A planning call is balanced over the view, and has reserved nothing unless it writes a row. -/
def Planned (v : View) (c : Call) : Prop := c.Balanced v.inode ∧ (c.txn.inodes = [] → c.growth = [])

namespace Sys

variable {sealedLen : Extent → Nat} {s s' : Sys} {a : Action} {tid : Nat} {c c' : Call}

variable {batch : List Nat} {n : Nat} {q q' : LogicalQuota}

theorem sizesSurvive_iff : s.sizesSurvive batch = true ↔ ∀ t c, s.At t c → t ∉ batch →
    c.phase.isOpen = true → ∀ p ∈ c.txn.rows,
      recordSize (s.db.inodes.get p.1) = recordSize ((s.db.applyBatch (s.txnsOf batch)).inodes.get p.1) := by
  unfold sizesSurvive
  rw [all_eq_true]
  constructor
  · intro h t c hc hn ho p hp
    have := h ⟨t, c⟩ (Table.mem_entries.2 hc)
    simp only [ho, Bool.not_true, Bool.or_false, Bool.or_eq_true, contains_iff_mem, hn, false_or, all_eq_true,
      decide_eq_true_eq] at this
    exact this p hp
  · rintro h ⟨t, c⟩ he
    by_cases hn : t ∈ batch
    · simp [hn]
    cases ho : c.phase.isOpen with
    | false => simp
    | true => simpa [hn, ho] using h t c (Table.mem_entries.1 he) hn ho

/-! ## The pending count -/

theorem reserved_le (h : Solvent s) (hc : s.At tid c) : c.reserved ≤ s.quota.inner.pending := by
  rw [h.pending]
  exact Table.le_sum (fun _ c => Call.reserved c) hc

theorem solvent_put (h : Solvent s) (hcalls : s'.calls = s.calls.put tid c')
    (hold : (s.calls.get tid).elim 0 Call.reserved = n) (hp : s'.quota.inner.poisoned = none)
    (hv : s'.quota.visible ≤ u64Max) (hpend : s'.quota.inner.pending + n = s.quota.inner.pending + c'.reserved)
    (hrs : ∀ r ∈ c'.growth, r.state = .provisional) (hspent : c'.phase.isOpen = false → c'.growth = [])
    (hfresh : ∀ todo, c'.phase = .locking todo → c'.shrink = 0) : Solvent s' := by
  have hnew : ∀ t u, s'.At t u → u = c' ∨ s.At t u := by
    intro t u hu
    exact (cases_at hcalls hu).imp And.right And.right
  refine ⟨hp, hv, fun t u hu => ?_, fun t u hu => ?_, fun t u todo hu => ?_, ?_⟩
  · rcases hnew t u hu with rfl | hu
    · exact hrs
    · exact h.provisional t u hu
  · rcases hnew t u hu with rfl | hu
    · exact hspent
    · exact h.spent t u hu
  · rcases hnew t u hu with rfl | hu
    · exact hfresh todo
    · exact h.fresh t u todo hu
  have hsum : (s.calls.put tid c').sum (fun _ c => c.reserved) + n = s.calls.sum (fun _ c => c.reserved) +
      c'.reserved := by
    have := Table.sum_put (fun _ c => Call.reserved c) s.calls tid c'
    rw [← hold]
    exact this
  have := h.pending
  rw [hcalls]
  omega

theorem solvent_keep (h : Solvent s) (hc : s.At tid c) (hcalls : s'.calls = s.calls.put tid c')
    (hq : s'.quota = s.quota) (hg : c'.growth = c.growth) (hspent : c'.phase.isOpen = false → c.growth = [])
    (hfresh : ∀ todo, c'.phase = .locking todo → c'.shrink = 0) : Solvent s' := by
  have hres : c'.reserved = c.reserved := by
    unfold Call.reserved
    rw [hg]
  refine solvent_put (n := c.reserved) h hcalls (by rw [hc]; rfl) (hq ▸ h.healthy) (hq ▸ h.fits)
    (by rw [hq, hres]) ?_ ?_ hfresh
  · rw [hg]; exact h.provisional tid c hc
  · rw [hg]; exact hspent

theorem solvent_same (h : Solvent s) (hcalls : s'.calls = s.calls) (hq : s'.quota = s.quota) : Solvent s' := by
  refine ⟨hq ▸ h.healthy, hq ▸ h.fits, ?_, ?_, ?_, ?_⟩
  · rw [at_eq hcalls]; exact h.provisional
  · rw [at_eq hcalls]; exact h.spent
  · rw [at_eq hcalls]; exact h.fresh
  · rw [hcalls, hq]; exact h.pending

section

variable (h : Solvent s) (hc : s.At tid c) (hcalls : s'.calls = s.calls.put tid c')
include h hc hcalls

/-- The reservations of a call leave the pending count, and `committed` bytes are committed. -/
theorem solvent_close {committed : Nat}
    (hq : s'.quota = s.quota.setCounts committed (s.quota.inner.pending - c.reserved))
    (hle : committed ≤ s.quota.inner.committed + c.reserved) (hg : c'.growth = [])
    (hp : ∀ todo, c'.phase ≠ .locking todo) : Solvent s' := by
  have hpend := reserved_le h hc
  have hv := h.fits
  have hres : c'.reserved = 0 := by
    unfold Call.reserved
    rw [hg]
    rfl
  refine solvent_put (n := c.reserved) h hcalls (by rw [hc]; rfl) (by rw [hq]; exact h.healthy) ?_ ?_ ?_ (fun _ => hg)
    fun todo htodo => absurd htodo (hp todo)
  · rw [hq]
    unfold LogicalQuota.visible at hv ⊢
    show committed + (s.quota.inner.pending - c.reserved) ≤ u64Max
    omega
  · rw [hq, hres]
    show s.quota.inner.pending - c.reserved + c.reserved = s.quota.inner.pending + 0
    omega
  · rw [hg]; exact fun r hr => absurd hr not_mem_nil

theorem solvent_refund
    (hq : s'.quota = c.refund s.quota) (hg : c'.growth = []) (hp : ∀ todo, c'.phase ≠ .locking todo) : Solvent s' := by
  rw [Call.refund_eq (h.provisional tid c hc) h.healthy h.fits (reserved_le h hc)] at hq
  exact solvent_close h hc hcalls hq (Nat.le_add_right _ _) hg hp

theorem solvent_settle (hq : s'.quota = c.settleQuota s.quota) (hsh : c.shrink ≤ s.quota.inner.committed + c.reserved)
    (hg : c'.growth = []) (hp : ∀ todo, c'.phase ≠ .locking todo) :
    Solvent s' ∧ s'.quota.inner.committed = s.quota.inner.committed + c.reserved - c.shrink := by
  rw [Call.settleQuota_eq (h.provisional tid c hc) h.healthy h.fits (reserved_le h hc) hsh] at hq
  exact ⟨solvent_close h hc hcalls hq (Nat.sub_le _ _) hg hp, by rw [hq]; rfl⟩

end

/-! ## Reserving -/

theorem reserveGrowth_ok {rs : List ProvisionalQuotaReservation} (hp : q.inner.poisoned = none)
    (hv : q.visible ≤ u64Max) (h : reserveGrowth q n = (.ok rs, q')) :
    q' = q.setCounts q.inner.committed (q.inner.pending + n) ∧ reservedBytes rs = n ∧
    (∀ r ∈ rs, r.state = .provisional) ∧
      q'.visible ≤ u64Max ∧ (n = 0 → rs = []) := by
  unfold reserveGrowth at h
  split at h
  · rename_i h0
    cases h
    subst h0
    exact ⟨rfl, rfl, fun r hr => absurd hr not_mem_nil, hv, fun _ => rfl⟩
  rename_i h0
  rcases LogicalQuota.reserve_cases hp hv n with ⟨hz, _⟩ | ⟨_, _, hr⟩ | ⟨_, _, _, hr⟩ | ⟨_, hfit, _, hr⟩
  · exact absurd hz h0
  · rw [hr] at h; cases h
  · rw [hr] at h; cases h
  rw [hr] at h
  cases h
  refine ⟨rfl, Nat.add_zero n, ?_, ?_, fun hz => absurd hz h0⟩
  · intro r hr'; rw [mem_singleton.1 hr']
  unfold LogicalQuota.visible at hfit ⊢
  dsimp only
  omega

theorem reserveGrowth_error {e : FsError} (hp : q.inner.poisoned = none) (hv : q.visible ≤ u64Max)
    (hfit : q.visible + n ≤ u64Max) (h : reserveGrowth q n = (.error e, q')) : q' = q := by
  unfold reserveGrowth at h
  split at h
  · cases h
  rename_i h0
  rcases LogicalQuota.reserve_cases hp hv n with ⟨hz, _⟩ | ⟨_, hov, _⟩ | ⟨_, _, _, hr⟩ | ⟨_, _, _, hr⟩
  · exact absurd hz h0
  · omega
  · rw [hr] at h; cases h; rfl
  · rw [hr] at h; cases h

/-! ## The committed count -/

theorem callsOf_congr {l : List Nat} (h : ∀ t ∈ l, s'.calls.get t = s.calls.get t) : s'.callsOf l = s.callsOf l :=
  filterMap_congr h

theorem callsOf_put (hcalls : s'.calls = s.calls.put tid c') {l : List Nat} (hn : tid ∉ l) :
    s'.callsOf l = s.callsOf l :=
  callsOf_congr fun t ht => by rw [hcalls]; exact Table.get_put_ne fun e => hn (e ▸ ht)

theorem callsOf_append (l l' : List Nat) : s.callsOf (l ++ l') = s.callsOf l ++ s.callsOf l' := filterMap_append

theorem setCalls_append (t : Table InodeId Inode) (cs cs' : List Call) :
    setCalls t (cs ++ cs') = setCalls (setCalls t cs) cs' :=
  foldl_append

theorem mem_unsettled_subset : s.unsettled ⊆ s.unsent := by
  intro t ht
  rcases mem_append.1 ht with ht | ht
  · refine mem_append_left _ ?_
    cases hw : s.worker with
    | settling applied done todo =>
      rw [hw] at ht
      cases applied with
      | true => exact mem_append_right _ ht
      | false => cases ht
    | _ => rw [hw] at ht; cases ht
  · exact unapplied_subset_unsent ht

/-- No unsettled call changes, and none is settled. -/
theorem chained_same (h : Chained s) (hcalls : ∀ t ∈ s.unsettled, s'.calls.get t = s.calls.get t) (hdb : s'.db = s.db)
    (hland : s'.worker.landing = s.worker.landing) (hun : s'.unapplied = s.unapplied)
    (hq : s'.quota.inner.committed = s.quota.inner.committed) : Chained s' := by
  obtain ⟨base, htotal, hlanding, hchain⟩ := h
  refine ⟨base, by rw [hq, htotal], ?_, ?_⟩
  · rw [hland, hdb, callsOf_congr fun t ht => hcalls t (mem_append_left _ ht)]; exact hlanding
  · rw [unsettled, hland, hun, ← unsettled, callsOf_congr hcalls]; exact hchain

theorem chained_edit (h : Chained s) (hord : Ordered s) (he : Edited s s' tid c')
    (hq : s'.quota.inner.committed = s.quota.inner.committed) : Chained s' := by
  refine chained_same h (fun t ht => ?_) he.db (by rw [he.worker]) he.unapplied hq
  rw [he.calls, Table.get_put_ne]
  rintro rfl
  exact he.not_mem_unsent hord (mem_unsettled_subset ht)

/-- A call of the worker changes, and none of its batch is applied and unsettled. -/
theorem chained_worker (h : Chained s) (hcalls : s'.calls = s.calls.put tid c') (hdb : s'.db = s.db)
    (hland : s.worker.landing = []) (hland' : s'.worker.landing = []) (hun : s'.unapplied = s.unapplied)
    (hq : s'.quota.inner.committed = s.quota.inner.committed) (hn : tid ∉ s.unapplied) : Chained s' := by
  refine chained_same h (fun t ht => ?_) hdb (hland'.trans hland.symm) hun hq
  rw [unsettled, hland] at ht
  rw [hcalls]
  exact Table.get_put_ne fun e => hn (e ▸ ht)

theorem rows_callsOf (l : List Nat) : (s.callsOf l).flatMap (fun c => c.txn.rows) = s.rowsOf l := by
  have htxns : s.txnsOf l = (s.callsOf l).map Call.txn := by
    unfold txnsOf callsOf
    rw [map_filterMap]
  rw [rowsOf, htxns, flatMap_map]

/-- The rows that the queue leads to. -/
theorem get_unsettled {base : Table InodeId Inode} (hland : setCalls base (s.callsOf s.worker.landing) = s.db.inodes)
    (id : InodeId) : (setCalls base (s.callsOf s.unsettled)).get id = s.view.inode id := by
  unfold unsettled
  rw [callsOf_append, setCalls_append, hland, setCalls_eq, rows_callsOf, Table.get_setAll, view_inode]

theorem chained_submit (h : Chained s) (hord : Ordered s) (hpl : c.Balanced s.view.inode) (he : Enqueued s s' tid c)
    (hq : s'.quota = s.quota) : Chained s' := by
  obtain ⟨base, htotal, hland, hchain⟩ := h
  have hnot : tid ∉ s.unsettled := fun hm => not_mem_unsent hord he.get he.unsubmitted (mem_unsettled_subset hm)
  have hun : s'.unsettled = s.unsettled ++ [tid] := by rw [unsettled, he.worker, he.unapplied, unsettled, append_assoc]
  have hone : s'.callsOf [tid] = [s.queuedCall c] := by
    rw [callsOf, filterMap_cons, he.get_new]
    rfl
  refine ⟨base, by rw [hq, htotal], ?_, ?_⟩
  · rw [he.worker, he.db, callsOf_put he.calls fun hm => hnot (mem_append_left _ hm)]; exact hland
  rw [hun, callsOf_append, callsOf_put he.calls hnot, hone, Chain.append_iff]
  refine ⟨hchain, ?_, trivial⟩
  refine Balanced.congr (c := s.queuedCall c) (f := s.view.inode) (fun p _ => ?_) hpl
  rw [get_unsettled hland]

/-- The batch is rejected: the calls behind it replace records of the same sizes. -/
theorem chained_reject (h : Chained s) (hord : Ordered s) (hw : s.worker = .drained batch)
    (hkept : s.sizesSurvive batch = true) (hcalls : s'.calls = s.calls) (hdb : s'.db = s.db)
    (hland : s'.worker.landing = []) (hun : s'.unapplied = s.queue) (hq : s'.quota = s.quota) : Chained s' := by
  obtain ⟨base, htotal, hlanding, hchain⟩ := h
  rw [hw] at hlanding
  subst hlanding
  have hof : s'.callsOf s.queue = s.callsOf s.queue := callsOf_congr fun t _ => by rw [hcalls]
  have hunsettled : s.unsettled = batch ++ s.queue := by
    rw [unsettled, unapplied_drained hw, hw]
    rfl
  refine ⟨s.db.inodes, by rw [hq, htotal], by rw [hland, hdb]; rfl, ?_⟩
  rw [unsettled, hland, hun, nil_append, hof]
  rw [hunsettled, callsOf_append, Chain.append_iff] at hchain
  refine Chain.congr (fun c hc p hp => ?_) hchain.2
  obtain ⟨t, ht, hct⟩ := mem_filterMap.1 hc
  have hbatch : s.db.inodes.setAll (s.rowsOf batch) = (s.db.applyBatch (s.txnsOf batch)).inodes :=
    (Db.inodes_applyBatch _ _).symm
  rw [setCalls_eq, rows_callsOf, hbatch]
  refine sizesSurvive_iff.1 hkept t c hct (fun hm => ?_) ?_ p hp
  · exact not_mem_queue hord (by rw [hw]; exact hm) ht
  · rw [(hord.queue t ht).phase hct]; rfl

/-- A batch is applied: its transactions wait to be settled. -/
theorem chained_apply (h : Chained s) (hw : s.worker = .drained batch) (hcalls : s'.calls = s.calls)
    (hdb : s'.db = s.db.applyBatch (s.txnsOf batch)) (hland : s'.worker.landing = batch) (hun : s'.unapplied = s.queue)
    (hq : s'.quota = s.quota) : Chained s' := by
  obtain ⟨base, htotal, hlanding, hchain⟩ := h
  rw [hw] at hlanding
  subst hlanding
  have hof : ∀ l, s'.callsOf l = s.callsOf l := fun l => callsOf_congr fun t _ => by rw [hcalls]
  refine ⟨s.db.inodes, by rw [hq, htotal], ?_, ?_⟩
  · rw [hland, hof, setCalls_eq, rows_callsOf, hdb, Db.inodes_applyBatch]; rfl
  rw [unsettled, hland, hun, hof]
  rw [unsettled, unapplied, hw] at hchain
  exact hchain

/-- The first applied call is settled: the committed count takes its sizes in. -/
theorem chained_settle {done todo : List Nat} (h : Chained s) (hso : Sound s)
    (hw : s.worker = .settling true done (tid :: todo)) (hc : s.At tid c) (hcalls : s'.calls = s.calls.put tid c')
    (hdb : s'.db = s.db) (hw' : s'.worker = .settling true (done ++ [tid]) todo) (hqueue : s'.queue = s.queue) :
    c.shrink ≤ s.quota.inner.committed + c.reserved ∧
      (s'.quota.inner.committed = s.quota.inner.committed + c.reserved - c.shrink → Chained s') := by
  obtain ⟨base, htotal, hlanding, hchain⟩ := h
  have hun : s.unsettled = tid :: (todo ++ s.queue) := by rw [unsettled, unapplied, hw]; rfl
  have hun' : s'.unsettled = todo ++ s.queue := by rw [unsettled, unapplied, hw', hqueue]; rfl
  have hfirst : ∀ l, s.callsOf (tid :: l) = c :: s.callsOf l := fun l => by rw [callsOf, filterMap_cons, hc]; rfl
  have hnot : tid ∉ todo ++ s.queue := by
    have hn := hso.ordered.nodup
    rw [unsent, hw, Worker.unsent, append_assoc, cons_append] at hn
    exact (nodup_cons.1 (nodup_append.1 hn).2.1).1
  rw [hun, hfirst] at hchain
  obtain ⟨hb, hrest⟩ := hchain
  have htot := hb.total (hso.separated.call tid c hc)
  refine ⟨by omega, fun hcom => ⟨base.setAll c.txn.rows, by omega, ?_, ?_⟩⟩
  · have hl : s.worker.landing = tid :: todo := by rw [hw]; rfl
    have hl' : s'.worker.landing = todo := by rw [hw']; rfl
    rw [hl, hfirst] at hlanding
    rw [hl', hdb, callsOf_put hcalls fun hm => hnot (mem_append_left _ hm)]
    exact hlanding
  · rw [hun', callsOf_put hcalls hnot]; exact hrest

end Sys

/-! ## Planning -/

section Planning

variable {now : Nat → Timestamp} {creds : Credentials} {checkPermissions : Bool} {inode : Option Inode} {plan : Plan}
  {task : Task}

theorem growth_of_rowless (h : task.plan now creds checkPermissions inode = .ok plan) (hrow : plan.row inode = none) :
    plan.growth = 0 := by
  rw [(plan_ok h).size.1, Plan.after_eq, hrow]
  exact Nat.sub_self _

variable {v v' : View} {c : Call} {todo : List Task} {ops : List ExtentOp} {rs : List ProvisionalQuotaReservation}

theorem Planned.planned (hplan : task.plan now c.creds c.checkPermissions inode = .ok plan)
    (hsize : recordSize inode = recordSize (v.inode task.id)) (hres : reservedBytes rs = plan.growth)
    (hnil : plan.growth = 0 → rs = []) (h : Planned v c) :
    Planned v (Sys.planned c task.id inode plan rs todo ops) := by
  obtain ⟨hb, hempty⟩ := h
  obtain ⟨hgrowth, hshrunk⟩ := (plan_ok hplan).size
  rw [Plan.after_eq] at hgrowth hshrunk
  have hreserved : (Sys.planned c task.id inode plan rs todo ops).reserved = c.reserved + plan.growth := by
    rw [← hres]
    exact reservedBytes_append _ _
  have hshrink : (Sys.planned c task.id inode plan rs todo ops).shrink = c.shrink + plan.shrink := rfl
  refine ⟨?_, fun hin => ?_⟩
  · unfold Call.Balanced Txn.newSizes Txn.oldSizes at hb ⊢
    rw [planned_rows, hreserved, hshrink, map_append, map_append, sum_append, sum_append, hgrowth, hshrunk]
    cases plan.row inode with
    | none => simp only [Option.toList_none, map_nil, sum_nil, Option.getD_none]; omega
    | some value =>
      simp only [Option.toList_some, map_cons, map_nil, sum_cons, sum_nil, Option.getD_some]
      omega
  · have hin' : c.txn.inodes ++ Sys.updates task.id inode plan = [] := hin
    obtain ⟨hold, hup⟩ := append_eq_nil_iff.1 hin'
    have hrow : plan.row inode = none := by
      have hmap := @rows_updates plan inode task.id
      rw [hup] at hmap
      cases hr : plan.row inode with
      | none => rfl
      | some value => rw [hr] at hmap; cases hmap
    show c.growth ++ rs = []
    rw [hempty hold, hnil (growth_of_rowless hplan hrow)]
    rfl

theorem Planned.local (hok : CallOk c) (h : View.AgreeOn c.ids v v') (hp : Planned v c) : Planned v' c := by
  refine ⟨Balanced.congr (fun p hmem => ?_) hp.1, hp.2⟩
  obtain ⟨u, hu, rfl⟩ := mem_map.1 hmem
  rw [(h u.id (hok.updates_ids u hu)).1]

end Planning

namespace Sys

variable {sealedLen : Extent → Nat} {s s' : Sys} {a : Action}

variable {tid : Nat} {c c' : Call} {task : Task} {todo : List Task} {ops : List ExtentOp} {plan : Plan}
  {batch : List Nat} {rs : List ProvisionalQuotaReservation} {q : LogicalQuota} {inode : Option Inode}

theorem taskKept_of {now : Nat → Timestamp}
    (ha : LedgerKept s (.prepare tid now)) (hc : s.At tid c) (hp : c.phase = .preparing (task :: todo) ops)
    (hplan : task.plan now c.creds c.checkPermissions (s.visible task.id) = .ok plan) :
    recordSize (s.visible task.id) = recordSize (s.view.inode task.id) ∧ s.quota.visible + plan.growth ≤ u64Max := by
  simpa [LedgerKept, ledgerKept, hc, hp, taskKept, hplan] using ha

/-- A rejected batch leaves the sizes that the other calls were planned on. -/
theorem view_size_reject (hw : s.worker = .drained batch) (hdb : s'.db = s.db) (hcalls : s'.calls = s.calls)
    (hun : s'.unapplied = s.queue) {id : InodeId}
    (h : recordSize (s.db.inodes.get id) = recordSize ((s.db.applyBatch (s.txnsOf batch)).inodes.get id)) :
    recordSize (s'.view.inode id) = recordSize (s.view.inode id) := by
  have hrows : s'.rowsOf s.queue = s.rowsOf s.queue := by unfold rowsOf txnsOf; rw [hcalls]
  have happ : s.rowsOf (batch ++ s.queue) = s.rowsOf batch ++ s.rowsOf s.queue := by
    rw [rowsOf, txnsOf_append, flatMap_append]
    rfl
  rw [view_inode, view_inode, hun, hrows, hdb, unapplied_drained hw, happ, newest_append]
  cases newest (s.rowsOf s.queue) id with
  | some v => rfl
  | none => rw [Db.get_inodes_applyBatch] at h; exact h

/-- The calls that are planned stay balanced when a batch is rejected. -/
theorem planned_reject (h : Viewed (fun _ => True) Planned s) (hord : Ordered s) (hw : s.worker = .drained batch)
    (hkept : s.sizesSurvive batch = true) (hdb : s'.db = s.db) (hcalls : s'.calls = s.calls)
    (hun : s'.unapplied = s.queue) : Viewed (fun _ => True) Planned s' := by
  refine ⟨trivial, fun t c hc hp => ?_⟩
  rw [at_eq hcalls] at hc
  have hopen : c.phase.isOpen = true := by cases hph : c.phase <;> simp_all [CallPhase.isOpen, CallPhase.planning]
  have hout : t ∉ batch := by
    intro hm
    rw [(hord.phases hw t hm).phase hc] at hp
    exact hp
  obtain ⟨hb, hnil⟩ := h.call t c hc hp
  refine ⟨Balanced.congr (fun p hmem => ?_) hb, hnil⟩
  exact view_size_reject hw hdb hcalls hun (sizesSurvive_iff.1 hkept t c hc hout hopen p hmem)

theorem sizesSurvive_of {late : Bool} (ha : LedgerKept s (.reject late)) (hw : s.worker = .drained batch) :
    s.sizesSurvive batch = true := by simpa only [LedgerKept, ledgerKept, hw] using ha

theorem step_planned (h : Viewed (fun _ => True) Planned s) (hsol : Solvent s) (hso : Sound s) (ha : LedgerKept s a)
    (hs : Stepped sealedLen s a s') : Viewed (fun _ => True) Planned s' := by
  refine h.step hso hs (fun v v' c hok hag hp => hp.local hok hag) ⟨?_, ?_, ?_⟩ (fun _ _ _ _ => trivial) ?_
  · intro tid c hc hp
    have hph := (hso.separated.call tid c hc).phaseOk hp
    have hg : c.growth = [] := hsol.spent tid c hc (by rw [hp]; rfl)
    refine ⟨?_, fun _ => hg⟩
    show c.txn.newSizes + c.shrink = c.txn.oldSizes s.view.inode + c.reserved
    unfold Txn.newSizes Txn.oldSizes Txn.rows Call.reserved
    rw [hph.2.1, hg, hsol.fresh tid c [] hc hp]
    rfl
  · rintro tid now c task todo ops plan rs q rfl hc hp hplan hres
    obtain ⟨hsize, _⟩ := taskKept_of ha hc hp hplan
    obtain ⟨_, hbytes, _, _, hnil⟩ := reserveGrowth_ok hsol.healthy hsol.fits hres
    exact (h.call tid c hc (by rw [hp]; trivial)).planned hplan hsize hbytes hnil
  · intro tid lane c op todo r hc hp hst; exact h.call tid c hc (by rw [hp]; trivial)
  · rintro late rfl
    cases hs with
    | reject hw => cases late <;> exact planned_reject h hso.ordered hw (sizesSurvive_of ha hw) rfl rfl rfl

section

variable (h : Solvent s) (hc : s.At tid c)
include h hc

theorem solvent_fail {e : FsError} : Solvent (s.fail tid c e) :=
  solvent_refund h hc rfl rfl rfl nofun

theorem committed_refund :
    (c.refund s.quota).inner.committed = s.quota.inner.committed := by
  rw [Call.refund_eq (h.provisional tid c hc) h.healthy h.fits (reserved_le h hc)]
  rfl

theorem solvent_planned
    (hres : reserveGrowth s.quota plan.growth = (.ok rs, q))
    (hcalls : s'.calls = s.calls.put tid (planned c task.id inode plan rs todo ops)) (hq : s'.quota = q) :
    Solvent s' ∧ s'.quota.inner.committed = s.quota.inner.committed := by
  obtain ⟨heq, hbytes, hprov, hvis, _⟩ := reserveGrowth_ok h.healthy h.fits hres
  have hreserved : (planned c task.id inode plan rs todo ops).reserved = c.reserved + plan.growth := by
    rw [← hbytes]
    exact reservedBytes_append _ _
  refine ⟨solvent_put (n := c.reserved) h hcalls (by rw [hc]; rfl) (by rw [hq, heq]; exact h.healthy)
    (by rw [hq]; exact hvis) ?_ ?_ ?_ ?_,
    by rw [hq, heq]; rfl⟩
  · rw [hq, heq, hreserved]
    show s.quota.inner.pending + plan.growth + c.reserved = s.quota.inner.pending + (c.reserved + plan.growth)
    omega
  · exact fun r hr => (mem_append.1 hr).elim (h.provisional tid c hc r) (hprov r)
  · intro hclosed; unfold planned at hclosed; split at hclosed <;> cases hclosed
  · intro todo' hlock; unfold planned at hlock; split at hlock <;> cases hlock

end

theorem accounts_settle {done todo : List Nat} (h : Solvent s) (hch : Chained s) (hso : Sound s)
    (hw : s.worker = .settling true done (tid :: todo)) (hc : s.At tid c) (hcalls : s'.calls = s.calls.put tid c')
    (hdb : s'.db = s.db) (hw' : s'.worker = .settling true (done ++ [tid]) todo) (hqueue : s'.queue = s.queue)
    (hq : s'.quota = c.settleQuota s.quota) (hg : c'.growth = []) (hp : ∀ todo, c'.phase ≠ .locking todo) :
    Solvent s' ∧ Chained s' := by
  obtain ⟨hsh, hnext⟩ := chained_settle hch hso hw hc hcalls hdb hw' hqueue
  obtain ⟨hsol, hcom⟩ := solvent_settle h hc hcalls hq hsh hg hp
  exact ⟨hsol, hnext hcom⟩

theorem accounts_refund (h : Solvent s) (hch : Chained s) (hc : s.At tid c) (hcalls : s'.calls = s.calls.put tid c')
    (hdb : s'.db = s.db) (hland : s.worker.landing = []) (hland' : s'.worker.landing = [])
    (hun : s'.unapplied = s.unapplied) (hq : s'.quota = c.refund s.quota) (hg : c'.growth = [])
    (hp : ∀ todo, c'.phase ≠ .locking todo) (hn : tid ∉ s.unapplied) : Solvent s' ∧ Chained s' :=
  ⟨solvent_refund h hc hcalls hq hg hp,
    chained_worker hch hcalls hdb hland hland' hun (by rw [hq]; exact committed_refund h hc) hn⟩

/-- The pending count and the committed count follow every step. -/
theorem step_accounts (h : Solvent s) (hch : Chained s) (hpl : Viewed (fun _ => True) Planned s) (hso : Sound s)
    (ha : LedgerKept s a) (hs : Stepped sealedLen s a s') : Solvent s' ∧ Chained s' := by
  have hord := hso.ordered
  have hs' := hs
  have hedit : (∃ tid c', Edited s s' tid c') → s'.quota.inner.committed = s.quota.inner.committed → Chained s' :=
    fun ⟨_, _, he⟩ hq => chained_edit hch hord he hq
  cases hs with
  | spawn hnew hv | compact hnew =>
    exact ⟨solvent_put (n := 0) h rfl (by rw [hnew]; rfl) h.healthy h.fits rfl (fun _ hr => absurd hr not_mem_nil)
      (fun _ => rfl)
      fun _ _ => rfl, hedit (hs'.edited rfl) rfl⟩
  | @lock tid c id todo hc hp hb =>
    exact ⟨solvent_keep h hc rfl rfl rfl (fun _ => h.spent tid c hc (by rw [hp]; rfl)) fun _ _ => h.fresh tid c _ hc hp,
      hedit (hs'.edited rfl) rfl⟩
  | start hc hp hfree | stage hc hp hst => exact ⟨solvent_keep h hc rfl rfl rfl nofun nofun, hedit (hs'.edited rfl) rfl⟩
  | @prepare tid now c task todo ops plan rs q hc hp hplan hres =>
    obtain ⟨hsol, hcom⟩ := solvent_planned h hc hres
      (show ({ s with quota := q }.setCall tid (planned c task.id _ plan rs todo ops)).calls = _ from rfl) rfl
    exact ⟨hsol, hedit (hs'.edited rfl) hcom⟩
  | refused hc hp hplan hres =>
    obtain ⟨_, hfit⟩ := taskKept_of ha hc hp hplan
    have hq := reserveGrowth_error h.healthy h.fits hfit hres
    subst hq
    exact ⟨solvent_fail h hc, hedit (hs'.edited rfl) (committed_refund h hc)⟩
  | invalid hc hp | abort hc hp => exact ⟨solvent_fail h hc, hedit (hs'.edited rfl) (committed_refund h hc)⟩
  | @noop tid c hc hp he =>
    have hnil : c.growth = [] := (hpl.call tid c hc (by rw [hp]; trivial)).2
      (isEmpty_iff.1 (Bool.and_eq_true_iff.1 he).1)
    exact ⟨solvent_keep h hc rfl rfl rfl (fun _ => hnil) nofun, chained_edit hch hord (edited_noop hc hp) rfl⟩
  | @submit tid c hc hp he =>
    have hbal := (hpl.call tid c hc (by rw [hp]; trivial)).1
    exact ⟨solvent_keep h hc rfl rfl rfl nofun nofun,
      chained_submit hch hord hbal ⟨hc, hp, rfl, rfl, rfl, rfl, rfl, rfl, rfl⟩ rfl⟩
  | @drain n hw hn hle =>
    refine ⟨solvent_same h rfl rfl, chained_same hch (fun _ _ => rfl) rfl (by rw [hw]; rfl) ?_ rfl⟩
    rw [unapplied, unapplied, hw]
    exact take_append_drop n s.queue
  | @reject late batch hw =>
    have hkept := sizesSurvive_of ha hw
    refine ⟨solvent_same h rfl rfl, ?_⟩
    cases late <;> exact chained_reject hch hord hw hkept rfl rfl rfl rfl rfl
  | apply hw => exact ⟨solvent_same h rfl rfl, chained_apply hch hw rfl rfl rfl rfl rfl⟩
  | @settle applied done tid todo c hw hc hp =>
    cases applied with
    | true => exact accounts_settle h hch hso hw hc rfl rfl rfl rfl rfl rfl fun _ hp => by cases hp
    | false =>
      obtain ⟨hun, hnot⟩ := unapplied_settling hord hw
      exact accounts_refund h hch hc rfl rfl (by rw [hw]; rfl) rfl hun.symm rfl rfl (fun _ hp => by cases hp) hnot
  | @reply durable applied done hw =>
    refine ⟨solvent_same h rfl rfl, chained_same hch (fun _ _ => rfl) rfl ?_ ?_ rfl⟩
    · rw [hw]; cases applied <;> rfl
    · rw [unapplied, unapplied, hw]; rfl
  | @send applied result tid todo c hw hc hp =>
    obtain ⟨hun, hnot⟩ := unapplied_sending hord hw
    have hgrow : c.growth = [] := by
      refine h.spent tid c hc ?_
      have hq := hord.worker
      rw [hw] at hq
      rcases hq with hset | ⟨_, hqueued⟩
      · rw [(hset tid mem_cons_self).phase hc]; rfl
      · exact absurd ((hqueued tid mem_cons_self).phase hc) hp
    refine ⟨solvent_keep h hc rfl rfl hgrow.symm (fun _ => hgrow) (fun _ hp => by cases hp), ?_⟩
    refine chained_worker hch rfl rfl (by rw [hw]; rfl) (landing_afterSend _ _ _) ?_ rfl hnot
    exact (unapplied_eq_queue (afterSend_batch _ _ _)).trans hun.symm
  | @sendSettle applied result tid todo c hw hc hp =>
    obtain ⟨hun, hnot⟩ := unapplied_sending hord hw
    obtain rfl := rejected_of_queued hord hw hc hp
    refine accounts_refund h hch hc rfl rfl (by rw [hw]; rfl) (landing_afterSend _ _ _) ?_ rfl rfl (fun _ hp => ?_) hnot
    · exact (unapplied_eq_queue (afterSend_batch _ _ _)).trans hun.symm
    · cases hp
  | rotate | pack | loadLocation | evictLocation | evictTail =>
    exact ⟨solvent_same h rfl rfl, chained_same hch (fun _ _ => rfl) rfl rfl rfl rfl⟩

end Sys

/-! ## The result -/

/-- What holds in every run that keeps the ledger. -/
structure Audited (s : Sys) : Prop where
  sound : Sound s
  solvent : Solvent s
  chained : Chained s
  planned : Viewed (fun _ => True) Planned s

theorem Sys.step_audited {sealedLen : Extent → Nat} {s s' : Sys} {a : Action} (h : Audited s) (ha : LedgerKept s a)
    (hs : Sys.Stepped sealedLen s a s') : Audited s' := by
  obtain ⟨hsol, hch⟩ := step_accounts h.solvent h.chained h.planned h.sound ha hs
  exact ⟨h.sound.step hs, hsol, hch, step_planned h.planned h.solvent h.sound ha hs⟩

section Result

variable {sealedLen : Extent → Nat} {db : Db} {maxBytes : Nat} {segments : Segments} {s : Sys}

theorem boot_audited (h : totalSize db.inodes ≤ u64Max) :
    Audited (Sys.boot db (.new maxBytes (totalSize db.inodes)) segments) := by
  exact ⟨boot_sound _ _ _, ⟨rfl, h, fun _ _ => no_calls, fun _ _ => no_calls,
    fun _ _ _ => no_calls, rfl⟩, ⟨db.inodes, rfl, rfl, trivial⟩, trivial, fun _ _ => no_calls⟩

/-- **The ledger is the total size of the files.** In every run that keeps the ledger, whichever batches are rejected,
once every submitted transaction is settled the ledger is healthy, its committed count is the total size of the files,
and nothing is pending unless a call is being planned. -/
theorem ledger_agrees (h : totalSize db.inodes ≤ u64Max)
    (hr : Reach (Sys.step sealedLen) LedgerKept (Sys.boot db (.new maxBytes (totalSize db.inodes)) segments) s)
    (hsettled : ∀ t c, s.calls.get t = some c → c.phase ≠ .queued) :
    s.quota.inner.poisoned = none ∧ s.quota.inner.committed = totalSize s.db.inodes ∧
      ((∀ t c, s.calls.get t = some c → ¬c.phase.planning) → s.quota.inner.pending = 0) := by
  have hinv := hr.invariant (I := Audited) (boot_audited h) fun s a t hi ha hstep =>
    Sys.step_audited hi ha (hi.sound.stepped (Sys.awaited_of_ledgerKept ha) hstep)
  refine ⟨hinv.solvent.healthy, ?_, fun hidle => ?_⟩
  · -- nothing waits to be settled, so the committed tables are the base of the chain
    have hland : s.worker.landing = [] := by
      refine eq_nil_iff_forall_not_mem.2 fun t ht => ?_
      obtain ⟨c, hc, hp⟩ := Sys.queued_of_landing hinv.sound.ordered ht
      exact hsettled t c hc hp
    obtain ⟨base, htotal, hlanding, _⟩ := hinv.chained
    rw [hland] at hlanding
    rw [← htotal, ← hlanding]
    rfl
  · rw [hinv.solvent.pending, Table.sum_eq_zero_iff]
    intro t c hc
    have hclosed : c.phase.isOpen = false := by
      cases hp : c.phase with
      | preparing | staging => exact absurd (by rw [hp]; trivial) (hidle t c hc)
      | queued => exact absurd hp (hsettled t c hc)
      | _ => rfl
    unfold Call.reserved
    rw [hinv.solvent.spent t c hc hclosed]
    rfl

end Result

/-- No call is planned or waits to be settled. -/
def allClosed (s : Sys) : Bool := s.calls.entries.all fun e => !e.2.phase.isOpen

theorem allClosed_iff {s : Sys} (h : allClosed s = true) {t : Nat} {c : Call} (hc : s.At t c) :
    c.phase ≠ .queued ∧ ¬c.phase.planning := by
  have hclosed : c.phase.isOpen = false := by
    have := all_eq_true.1 h ⟨t, c⟩ (Table.mem_entries.2 hc)
    simpa using this
  cases hph : c.phase <;> simp_all [CallPhase.isOpen, CallPhase.planning]

/-- A call up to its answer, alone in the queue. -/
def Sample.call (tid : Nat) (task : Task) : List Action :=
  Sample.submit tid task ++ [.drain 1, .apply, .settle, .reply true, .send]

/-- The write to file 1 is rejected, the one to file 2 behind it is applied; then file 2 is emptied, and grown to 30
bytes. -/
def settledRun : List Action :=
  Sample.write 0 1 0 [7, 7] ++ Sample.write 1 2 10 [8] ++
    [.drain 1, .reject false, .send, .drain 1, .apply, .settle, .reply true, .send] ++
    Sample.call 2 (.setattr 2 { size := some 0 } true) ++ Sample.call 3 (.setattr 2 { size := some 30 } true)

theorem settledRun_kept : (run (guarded (Sys.step Sample.sealedLen) LedgerKept) (Sample.boot 1000) settledRun).map
    (fun s => (allClosed s, totalSize s.db.inodes)) = some (true, 30) := by decide +kernel

theorem ledger_agrees_settled : ∃ s, Reach (Sys.step Sample.sealedLen) LedgerKept (Sample.boot 1000) s ∧
    s.quota.inner.poisoned = none ∧ s.quota.inner.committed = 30 ∧ s.quota.inner.pending = 0 := by
  obtain ⟨s, hs, heq⟩ := Option.map_eq_some_iff.1 settledRun_kept
  obtain ⟨hclosed, htotal⟩ := Prod.mk.inj heq
  have hr : Reach (Sys.step Sample.sealedLen) LedgerKept (Sample.boot 1000) s := reach_of_run .init hs
  have hsize : totalSize Sample.db.inodes ≤ u64Max := by decide +kernel
  obtain ⟨hp, hcom, hpend⟩ := ledger_agrees hsize hr fun t c hc => (allClosed_iff hclosed hc).1
  exact ⟨s, hr, hp, hcom.trans htotal, hpend fun t c hc => (allClosed_iff hclosed hc).2⟩

/-- File 1 has one byte when file 2 is set to the largest size. -/
def overflowRun : List Action :=
  Sample.call 0 (.write 1 0 [7]) ++
    [.spawn 1 [.setattr 2 { size := some u64Max } true] .root false, .lock 1, .start 1, .prepare 1 Sample.now]

/-- A request past `u64` poisons the ledger, with every call answered. -/
theorem ledger_poisoned : (run (Sys.step Sample.sealedLen) (Sample.boot 1000) overflowRun).map
    (fun s => (allClosed s, s.quota.inner.poisoned.isSome)) = some (true, true) := by decide +kernel

/-- A call that was planned on the size of a rejected one leaves that size to the file, and nothing to the ledger. -/
theorem ledger_drifts : (run (Sys.step Sample.sealedLen) (Sample.boot 1000000)
    (rejectedGrowth (fun _ => ⟨1, 0⟩) ++ [.settle, .reply true, .send])).map
      (fun s => (allClosed s, s.quota.inner.committed, totalSize s.db.inodes)) = some (true, 0, 163841) := by
  decide +kernel

end ZeroFS
