import ZeroFS.Dedup.Ledger

/-!
# Owners and pins

The owners of an apply slot are the guards and staged requests with its claim, and the pins of a result are its replay
guards (`Inv`). Every operation of the ledger is a few changes of one entry that keep the counts.
-/

namespace ZeroFS.Dedup

open Machine List Table Option

open Ledger (Slot Result)

variable {A : Type}

/-! ## Entries -/

namespace Ledger

variable {l : Ledger A} {op : OpId} {r : TimedResult A} {now : Nat}

theorem unprotect_entries (l : Ledger A) (result : DedupResult A) : (l.unprotect result).entries = l.entries := by
  unfold unprotect
  split
  · rfl
  split
  · rfl
  · split <;> rfl

theorem removeResult_entries : (l.removeResult op r).entries = l.entries.del op := unprotect_entries _ _

theorem protectResultInode_entries (l : Ledger A) (result : DedupResult A) (expiresAt : Nat) :
    (l.protectResultInode result expiresAt).entries = l.entries := by
  unfold protectResultInode
  split <;> rfl

/-- The result is past its deadline, and neither pinned nor pending. -/
def Removable (r : TimedResult A) (now : Nat) : Prop :=
  r.expiresAt ≤ now ∧ r.replayPins = 0 ∧ r.materializationPending = false

/-- Lazy expiry removes an entry that may go, or does nothing. -/
theorem removeTarget_cases (l : Ledger A) (op : OpId) (now : Nat) :
    (∃ r, l.Result op r ∧ Removable r now ∧ l.removeTargetIfExpiredAndUnpinned op now = l.removeResult op r) ∨
    (l.removeTargetIfExpiredAndUnpinned op now = l ∧ ∀ r, l.Result op r → ¬Removable r now) := by
  unfold removeTargetIfExpiredAndUnpinned
  split
  · rename_i r he
    split
    · rename_i hr; exact .inl ⟨r, he, hr, rfl⟩
    · rename_i hr; exact .inr ⟨rfl, fun r' h' => by cases he.symm.trans h'; exact hr⟩
  · rename_i hno; exact .inr ⟨rfl, fun r h => absurd h (hno r)⟩

/-- The slot of a fresh attempt. -/
def reserve (l : Ledger A) (op : OpId) (claim : Nat) : Ledger A :=
  { l with entries := l.entries.put op (.applying claim 1), inflightIds := l.inflightIds + 1 }

theorem Result.not_slot (h : l.Result op r) (c n : Nat) : ¬l.Slot op c n := fun h' => nomatch h.symm.trans h'

theorem Slot.not_result {c n : Nat} (h : l.Slot op c n) (r : TimedResult A) : ¬l.Result op r :=
  fun h' => nomatch h.symm.trans h'

theorem no_result (h : ∀ r, ¬l.Result op r) :
    l.entries.get op = none ∨ ∃ c n, l.Slot op c n := by
  cases he : l.entries.get op with
  | none => exact .inl rfl
  | some e =>
    cases e with
    | applying c n => exact .inr ⟨c, n, he⟩
    | complete r => exact absurd he (h r)

/-- A result that may go is gone, or nothing is. -/
def Expires (l l' : Ledger A) (op : OpId) (now : Nat) : Prop :=
  (∃ r, l.Result op r ∧ Removable r now ∧ l' = l.removeResult op r) ∨ l' = l

theorem expires_removeTarget (l : Ledger A) (op : OpId) (now : Nat) :
    l.Expires (l.removeTargetIfExpiredAndUnpinned op now) op now :=
  (l.removeTarget_cases op now).imp_right And.left

theorem expires_reap (l : Ledger A) (e : ScheduledExpiry) : l.Expires (l.reapExpired e) e.op e.expiresAt := by
  unfold reapExpired
  split
  · rename_i r hold
    split
    · rename_i hr; exact .inl ⟨r, hold, ⟨hr.1.le, hr.2⟩, rfl⟩
    · exact .inr rfl
  · exact .inr rfl

theorem expires_get (l : Ledger A) (op : OpId) (now : Nat) : l.Expires (l.get op now).2 op now := by
  unfold get
  split
  · dsimp only; split <;> exact l.expires_removeTarget op now
  · exact .inr rfl

theorem expires_replayWriteEntry (l : Ledger A) (op : OpId) (fingerprint : BitVec 256) (now : Nat) :
    l.Expires (l.replayWriteEntry op fingerprint now).2 op now := by
  unfold replayWriteEntry
  split
  · have hexp := l.expires_removeTarget op now
    dsimp only
    split
    · split
      · exact hexp
      · split <;> exact hexp
    · exact hexp
  · exact .inr rfl

theorem arm_entries (l : Ledger A) (epoch deadline now retention : Nat) :
    (l.armPromotionRetryGraceUntil epoch deadline now retention).entries = l.entries := by
  unfold armPromotionRetryGraceUntil
  split <;> rfl

theorem reclaimWhenUnprotected_entries (l : Ledger A) (id : InodeId) :
    (l.reclaimWhenUnprotected id).2.entries = l.entries := by
  unfold reclaimWhenUnprotected
  split <;> rfl

end Ledger

/-! ## The invariant -/

namespace Sys

/-- The guards and staged requests with a claim on `op`. -/
def owners (s : Sys A) (op : OpId) (c : Nat) : Nat :=
  s.guards.count (fun _ w => w.op = op ∧ w.claim = some c) + s.pendings.count (fun _ w => w.op = op ∧ w.claim = some c)

/-- The replay guards of `op`. -/
def pins (s : Sys A) (op : OpId) : Nat := s.guards.count fun _ w => w.op = op ∧ w.claim = none

/-- A caller is admitted with a guard. -/
def enter (s : Sys A) (l : Ledger A) (g : Nat) (w : Guard) : Sys A :=
  { s with ledger := l, guards := s.guards.put g w, nextClaim := s.nextClaim + 1 }

/-- Lazy expiry. -/
def expire (s : Sys A) (op : OpId) : Sys A := { s with ledger := s.ledger.removeTargetIfExpiredAndUnpinned op s.now }

/-- A claim was given out, and unless it is settled its slot is there. -/
def Backed (s : Sys A) (op : OpId) (c : Nat) : Prop :=
  c < s.nextClaim ∧ (c ∉ s.settled → ∃ n, s.ledger.Slot op c n)

end Sys

/-- A result counts its replay guards. -/
structure ResultInv (s : Sys A) (op : OpId) (r : TimedResult A) : Prop where
  pins : r.replayPins = s.pins op
  serial : r.serial < s.nextSerial
  retracted : r.serial ∈ s.retractions ↔ r.retracted = true
  kept : r.retracted = true → r.expiresAt ≤ s.now ∧ r.materializationPending = false

/-- The claims, and the slots they are for. -/
structure ClaimsOk (s : Sys A) : Prop where
  applying : ∀ op c n, s.ledger.Slot op c n → c < s.nextClaim ∧ c ∉ s.settled ∧ n = s.owners op c
  injective : ∀ op op' c n n', s.ledger.Slot op c n → s.ledger.Slot op' c n' →
    op = op'
  guards : ∀ g w c, s.guards.get g = some w → w.claim = some c → s.Backed w.op c
  pendings : ∀ p w c, s.pendings.get p = some w → w.claim = some c → s.Backed w.op c
  unique : ∀ g g' w w' c, s.guards.get g = some w → s.guards.get g' = some w' → w.claim = some c →
    w'.claim = some c → g = g'
  settled : ∀ c ∈ s.settled, c < s.nextClaim

/-- The results, and their pins. -/
structure ResultsOk (s : Sys A) : Prop where
  complete : ∀ op r, s.ledger.Result op r → ResultInv s op r
  serials : ∀ op op' r r', s.ledger.Result op r → s.ledger.Result op' r' →
    r.serial = r'.serial → op = op'
  unpinned : ∀ op, (∀ r, ¬s.ledger.Result op r) → s.pins op = 0
  retractions : ∀ k ∈ s.retractions, k < s.nextSerial

/-- What every run keeps. -/
structure Inv (s : Sys A) : Prop where
  claims : ClaimsOk s
  results : ResultsOk s

variable {s s' : Sys A} {op : OpId} {g p c n : Nat}

/-! ## Claims -/

section Claims

variable {w : PendingWriteRequest}

theorem ClaimsOk.same (h : ClaimsOk s)
    (hentries : ∀ op c n, s'.ledger.Slot op c n ↔ s.ledger.Slot op c n)
    (howners : ∀ op c, s'.owners op c = s.owners op c)
    (hguards : ∀ g w c, s'.guards.get g = some w → w.claim = some c → s.guards.get g = some w)
    (hpendings : ∀ p w c, s'.pendings.get p = some w → w.claim = some c → s.pendings.get p = some w)
    (hnext : s.nextClaim ≤ s'.nextClaim) (hsettled : s'.settled = s.settled) : ClaimsOk s' := by
  have hbacked : ∀ op c, s.Backed op c → s'.Backed op c := by
    intro op c ⟨hlt, hslot⟩
    refine ⟨lt_of_lt_of_le hlt hnext, fun hn => ?_⟩
    rw [hsettled] at hn
    obtain ⟨n, hslot⟩ := hslot hn
    exact ⟨n, (hentries op c n).2 hslot⟩
  refine ⟨fun op c n he => ?_, fun op op' c n n' he he' => ?_, fun g w c hg hc => ?_, fun p w c hp hc => ?_,
    fun g g' w w' c hg hg' hc hc' => ?_, fun c hc => ?_⟩
  · obtain ⟨hlt, hns, hn⟩ := h.applying op c n ((hentries op c n).1 he)
    rw [hsettled, howners]
    exact ⟨lt_of_lt_of_le hlt hnext, hns, hn⟩
  · exact h.injective op op' c n n' ((hentries op c n).1 he) ((hentries op' c n').1 he')
  · exact hbacked _ _ (h.guards g w c (hguards g w c hg hc) hc)
  · exact hbacked _ _ (h.pendings p w c (hpendings p w c hp hc) hc)
  · exact h.unique g g' w w' c (hguards g w c hg hc) (hguards g' w' c hg' hc') hc hc'
  · rw [hsettled] at hc; exact lt_of_lt_of_le (h.settled c hc) hnext

theorem owners_enter {w : Guard} (hnew : s.guards.get g = none) (l : Ledger A) (op : OpId) (c : Nat) :
    (s.enter l g w).owners op c = s.owners op c + if w.op = op ∧ w.claim = some c then 1 else 0 := by
  simp only [Sys.owners, Sys.enter, count_put_new hnew]
  omega

theorem owners_put_pending (hnew : s.pendings.get p = none) (l : Ledger A) (op : OpId) (c : Nat) :
    Sys.owners { s with ledger := l, pendings := s.pendings.put p w } op c =
      s.owners op c + if w.op = op ∧ w.claim = some c then 1 else 0 := by
  simp only [Sys.owners, count_put_new hnew]
  omega

theorem owners_del_guard {w : Guard} (hold : s.guards.get g = some w) (l : Ledger A) (op : OpId) (c : Nat) :
    Sys.owners { s with ledger := l, guards := s.guards.del g } op c + (if w.op = op ∧ w.claim = some c then 1 else 0) =
      s.owners op c := by
  simp only [Sys.owners, ← count_del_of hold]
  omega

theorem owners_del_pending (hold : s.pendings.get p = some w) (l : Ledger A) (op : OpId) (c : Nat) :
    Sys.owners { s with ledger := l, pendings := s.pendings.del p } op c +
      (if w.op = op ∧ w.claim = some c then 1 else 0) = s.owners op c := by
  simp only [Sys.owners, ← count_del_of hold]
  omega

theorem ClaimsOk.backed (h : ClaimsOk s) (hown : s.owners op c ≠ 0) : s.Backed op c := by
  by_contra hnot
  refine hown (Nat.add_eq_zero_iff.2 ⟨count_eq_zero_iff.2 ?_, count_eq_zero_iff.2 ?_⟩)
  · rintro g w hw ⟨rfl, hc⟩; exact hnot (h.guards g w c hw hc)
  · rintro p w hw ⟨rfl, hc⟩; exact hnot (h.pendings p w c hw hc)

/-- A claim without a slot is settled. -/
theorem ClaimsOk.settled_of (h : ClaimsOk s) (hown : s.owners op c ≠ 0) (hno : ∀ n, ¬s.ledger.Slot op c n) :
    c ∈ s.settled := by
  by_contra hns
  obtain ⟨n, hslot⟩ := (h.backed hown).2 hns
  exact hno n hslot

theorem owned_by_guard {w : Guard} (hw : s.guards.get g = some w) (hc : w.claim = some c) : s.owners w.op c ≠ 0 := by
  have := count_pos (p := fun _ (v : Guard) => v.op = w.op ∧ v.claim = some c) hw ⟨rfl, hc⟩
  unfold Sys.owners
  omega

theorem owned_by_pending (hw : s.pendings.get p = some w) (hc : w.claim = some c) : s.owners w.op c ≠ 0 := by
  have := count_pos (p := fun _ (v : PendingWriteRequest) => v.op = w.op ∧ v.claim = some c) hw ⟨rfl, hc⟩
  unfold Sys.owners
  omega

/-- **The slot of one operation changes**, with its owners: it stays, or it is for a new claim. -/
theorem ClaimsOk.change (h : ClaimsOk s) (g₀ : Nat)
    (hother : ∀ op', op' ≠ op → s'.ledger.entries.get op' = s.ledger.entries.get op' ∧
      ∀ c, s'.owners op' c = s.owners op' c)
    (hself : ∀ c n, s'.ledger.Slot op c n → c < s'.nextClaim ∧ c ∉ s'.settled ∧ n = s'.owners op c ∧
      ((∃ n', s.ledger.Slot op c n') ∨ s.nextClaim ≤ c)) (hnext : s.nextClaim ≤ s'.nextClaim)
    (hkeep : ∀ c ∈ s.settled, c ∈ s'.settled) (hgone : ∀ c ∈ s'.settled, c ∈ s.settled ∨ ∃ n, s.ledger.Slot op c n)
    (hguards : ∀ g w c, s'.guards.get g = some w → w.claim = some c → s.guards.get g = some w ∨
      (g = g₀ ∧ s.nextClaim ≤ c ∧ w.op = op))
    (hpendings : ∀ p w c, s'.pendings.get p = some w → w.claim = some c → s.pendings.get p = some w ∨ w.op = op)
    (howned : ∀ c, s'.owners op c ≠ 0 → (∃ n, s'.ledger.Slot op c n) ∨ c ∈ s'.settled) : ClaimsOk s' := by
  have hback : ∀ {op' c}, op' ≠ op → s.Backed op' c → s'.Backed op' c := fun {op' c} hne ⟨hlt, hslot⟩ =>
    ⟨lt_of_lt_of_le hlt hnext, fun hns => (hslot fun hm => hns (hkeep c hm)).imp fun _ => (hother op' hne).1.trans⟩
  have hlt : ∀ c ∈ s'.settled, c < s'.nextClaim := by
    intro c hc
    rcases hgone c hc with hc | ⟨n, hslot⟩
    · exact lt_of_lt_of_le (h.settled c hc) hnext
    · exact lt_of_lt_of_le (h.applying op c n hslot).1 hnext
  have hbacked : ∀ c, s'.owners op c ≠ 0 → s'.Backed op c := by
    intro c hown
    rcases howned c hown with ⟨n, hslot⟩ | hc
    · exact ⟨(hself c n hslot).1, fun _ => ⟨n, hslot⟩⟩
    · exact ⟨hlt c hc, fun hns => absurd hc hns⟩
  -- a claim with a slot elsewhere is neither new nor that of the changed slot
  have hfar : ∀ {op' c n}, op' ≠ op → s.ledger.Slot op' c n →
      ¬((∃ n', s.ledger.Slot op c n') ∨ s.nextClaim ≤ c) := by
    rintro op' c n hne he (⟨n', he'⟩ | hle)
    · exact hne (h.injective _ _ _ _ _ he he')
    · exact absurd (h.applying _ _ _ he).1 (by omega)
  refine ⟨fun op' c n he => ?_, fun op₁ op₂ c n n' he he' => ?_, fun g w c hg hc => ?_, fun p w c hp hc => ?_,
    fun g₁ g₂ w w' c hg hg' hc hc' => ?_, hlt⟩
  · by_cases hop : op' = op
    · subst hop; obtain ⟨hlt, hns, hn, -⟩ := hself c n he; exact ⟨hlt, hns, hn⟩
    · rw [Slot, (hother op' hop).1] at he
      obtain ⟨hlt, hns, hn⟩ := h.applying op' c n he
      refine ⟨lt_of_lt_of_le hlt hnext, fun hm => ?_, hn.trans ((hother op' hop).2 c).symm⟩
      exact hfar hop he (.inl ((hgone c hm).resolve_left hns))
  · by_cases h₁ : op₁ = op <;> by_cases h₂ : op₂ = op
    · rw [h₁, h₂]
    · subst h₁; rw [Slot, (hother op₂ h₂).1] at he'; exact absurd (hself c n he).2.2.2 (hfar h₂ he')
    · subst h₂; rw [Slot, (hother op₁ h₁).1] at he; exact absurd (hself c n' he').2.2.2 (hfar h₁ he)
    · rw [Slot, (hother op₁ h₁).1] at he
      rw [Slot, (hother op₂ h₂).1] at he'
      exact h.injective _ _ _ _ _ he he'
  · by_cases hop : w.op = op
    · rw [hop]; exact hbacked c (hop ▸ owned_by_guard hg hc)
    · exact hback hop (h.guards g w c ((hguards g w c hg hc).resolve_right fun hnew => hop hnew.2.2) hc)
  · by_cases hop : w.op = op
    · rw [hop]; exact hbacked c (hop ▸ owned_by_pending hp hc)
    · exact hback hop (h.pendings p w c ((hpendings p w c hp hc).resolve_right hop) hc)
  · rcases hguards g₁ w c hg hc with hg | ⟨rfl, hle, -⟩ <;> rcases hguards g₂ w' c hg' hc' with hg' | ⟨rfl, hle', -⟩
    · exact h.unique g₁ g₂ w w' c hg hg' hc hc'
    · exact absurd (h.guards g₁ w c hg hc).1 (by omega)
    · exact absurd (h.guards g₂ w' c hg' hc').1 (by omega)
    · rfl

theorem ClaimsOk.fresh (h : ClaimsOk s) (hnone : s.ledger.entries.get op = none) (hnew : s.guards.get g = none)
    {l : Ledger A} (hentries : l.entries = s.ledger.entries.put op (.applying s.nextClaim 1)) :
    ClaimsOk (s.enter l g ⟨op, some s.nextClaim⟩) := by
  have howners := owners_enter (w := ⟨op, some s.nextClaim⟩) hnew l
  have hself : l.entries.get op = some (.applying s.nextClaim 1) := by rw [hentries, get_put_self]
  have hzero : s.owners op s.nextClaim = 0 := by
    by_contra hown
    exact absurd (h.backed hown).1 (lt_irrefl _)
  refine h.change g (fun op' hne => ⟨by rw [Sys.enter, hentries, get_put_ne hne], fun c => ?_⟩) (fun c n he => ?_)
    (Nat.le_succ _)
    (fun _ => id) (fun _ => .inl) (fun g' w c hg hc => ?_) (fun p w c hp _ => .inl hp) (fun c hown => ?_)
  · rw [howners, if_neg (fun hw => hne hw.1.symm)]; rfl
  · cases hself.symm.trans he
    refine ⟨Nat.lt_succ_self _, fun hm => absurd (h.settled _ hm) (lt_irrefl _), ?_, .inr le_rfl⟩
    rw [howners, hzero, if_pos ⟨rfl, rfl⟩]
  · rcases cases_put hg with ⟨rfl, rfl⟩ | ⟨-, hg⟩
    · cases hc; exact .inr ⟨rfl, le_rfl, rfl⟩
    · exact .inl hg
  by_cases hc : s.nextClaim = c
  · subst hc; exact .inl ⟨1, hself⟩
  rw [howners, if_neg (fun hw => hc (some.inj hw.2))] at hown
  exact .inr (h.settled_of hown fun _ he => nomatch hnone.symm.trans he)

theorem ClaimsOk.stage {request : WriteRequestReplay} (h : ClaimsOk s) (hslot : s.ledger.Slot op c n)
    (hnew : s.pendings.get p = none) : ClaimsOk { s with
      ledger := { s.ledger with entries := s.ledger.entries.put op (.applying c (n + 1)) },
      pendings := s.pendings.put p ⟨op, request, some c⟩ } := by
  have howners := owners_put_pending (w := ⟨op, request, some c⟩) hnew
    { s.ledger with entries := s.ledger.entries.put op (.applying c (n + 1)) }
  obtain ⟨hlt, hns, hn⟩ := h.applying op c n hslot
  refine h.change 0 (fun op' hne => ⟨get_put_ne hne, fun c => ?_⟩) (fun c' n' he => ?_) le_rfl (fun _ => id)
    (fun _ => .inl) (fun g' w c hg _ => .inl hg) (fun p' w c' hp _ => ?_) (fun c' hown => ?_)
  · rw [howners, if_neg (fun hw => hne hw.1.symm)]; rfl
  · cases (get_put_self _ _ _).symm.trans he
    refine ⟨hlt, hns, ?_, .inl ⟨n, hslot⟩⟩
    rw [howners, if_pos ⟨rfl, rfl⟩, hn]
  · rcases cases_put hp with ⟨-, rfl⟩ | ⟨-, hp⟩
    · exact .inr rfl
    · exact .inl hp
  by_cases hc : c = c'
  · subst hc; exact .inl ⟨n + 1, get_put_self _ _ _⟩
  rw [howners, if_neg (fun hw => hc (some.inj hw.2))] at hown
  exact .inr (h.settled_of hown fun n' hslot' => by cases hslot.symm.trans hslot'; exact hc rfl)

/-- One owner of a claim is gone, and its slot with the last one. -/
theorem ClaimsOk.release (h : ClaimsOk s) {guards : Table Nat Guard} {pendings : Table Nat PendingWriteRequest}
    (hs : s' = { s with ledger := s.ledger.releaseApplyingOwner op c, guards := guards, pendings := pendings })
    (howners : ∀ op' c', s'.owners op' c' + (if op = op' ∧ some c = some c' then 1 else 0) = s.owners op' c')
    (hguards : ∀ g w, guards.get g = some w → s.guards.get g = some w)
    (hpendings : ∀ p w, pendings.get p = some w → s.pendings.get p = some w) : ClaimsOk s' := by
  have hsame : ∀ {op' c'}, ¬(op = op' ∧ some c = some c') → s'.owners op' c' = s.owners op' c' := fun {op' c'} hne => by
    have := howners op' c'
    rwa [if_neg hne] at this
  have hsettled : s'.settled = s.settled := by rw [hs]
  have hnext : s'.nextClaim = s.nextClaim := by rw [hs]
  by_cases hslot : ∃ n, s.ledger.Slot op c n
  · obtain ⟨n, hslot⟩ := hslot
    obtain ⟨hlt, hns, hn⟩ := h.applying op c n hslot
    have hleft : n - 1 = s'.owners op c := by
      have := howners op c
      rw [if_pos ⟨rfl, rfl⟩] at this
      omega
    have hput : s'.ledger.entries = if s'.owners op c = 0 then s.ledger.entries.del op
        else s.ledger.entries.put op (.applying c (s'.owners op c)) := by
      rw [← hleft, hs, Ledger.releaseApplyingOwner, hslot]
      dsimp only
      rw [if_pos rfl]
      split <;> rfl
    have hself : s'.ledger.entries.get op =
        if s'.owners op c = 0 then none else some (.applying c (s'.owners op c)) := by
      rw [hput]
      split <;> simp
    refine h.change 0 (fun op' hne => ⟨?_, fun c' => hsame fun hw => hne hw.1.symm⟩) (fun c' n' he => ?_) (by omega)
      (fun c hc => by rwa [hsettled]) (fun c hc => .inl (by rwa [← hsettled]))
      (fun g' w c hg _ => .inl (hguards g' w (by rwa [hs] at hg)))
      (fun p' w c' hp _ => .inl (hpendings p' w (by rwa [hs] at hp))) (fun c' hown => ?_)
    · rw [hput]
      split
      · exact get_del_ne hne
      · exact get_put_ne hne
    · rw [Slot, hself] at he
      split at he <;> cases he
      exact ⟨by omega, by rwa [hsettled], rfl, .inl ⟨n, hslot⟩⟩
    by_cases hc : c = c'
    · subst hc; exact .inl ⟨_, by rw [Slot, hself, if_neg hown]⟩
    rw [hsame fun hw => hc (some.inj hw.2)] at hown
    exact .inr (hsettled ▸ h.settled_of hown fun n' hslot' => by cases hslot.symm.trans hslot'; exact hc rfl)
  · -- the slot was settled or is another caller's: the ledger ignores the release
    have hledger : s.ledger.releaseApplyingOwner op c = s.ledger := by
      unfold Ledger.releaseApplyingOwner
      split
      · rename_i c' n' he
        rw [if_neg]
        rintro rfl
        exact hslot ⟨n', he⟩
      · rfl
    rw [hledger] at hs
    subst hs
    refine h.change 0 (fun op' hne => ⟨rfl, fun c' => hsame fun hw => hne hw.1.symm⟩) (fun c' n' he => ?_) le_rfl
      (fun _ => id) (fun _ => .inl) (fun g' w c hg _ => .inl (hguards g' w hg))
      (fun p' w c' hp _ => .inl (hpendings p' w hp)) (fun c' hown => ?_)
    · obtain ⟨hlt, hns, hn⟩ := h.applying op c' n' he
      refine ⟨hlt, hns, hn.trans (hsame ?_).symm, .inl ⟨n', he⟩⟩
      rintro ⟨-, hc⟩
      cases hc
      exact hslot ⟨n', he⟩
    · have := howners op c'
      by_cases hc : ∃ n, s.ledger.Slot op c' n
      · exact .inl hc
      · exact .inr (h.settled_of (by omega) (not_exists.1 hc))

end Claims

/-! ## Results -/

section Results

variable {r r' : TimedResult A}

theorem ResultInv.mono (h : ResultInv s op r) (hpins : s'.pins op = s.pins op) (hnext : s.nextSerial ≤ s'.nextSerial)
    (hnow : s.now ≤ s'.now) (hret : r.serial ∈ s'.retractions ↔ r.serial ∈ s.retractions) : ResultInv s' op r :=
  ⟨h.pins.trans hpins.symm, lt_of_lt_of_le h.serial hnext, hret.trans h.retracted,
    fun hr => ⟨(h.kept hr).1.trans hnow, (h.kept hr).2⟩⟩

theorem ResultsOk.same (h : ResultsOk s)
    (hentries : ∀ op r, s'.ledger.Result op r ↔ s.ledger.Result op r)
    (hpins : ∀ op, s'.pins op = s.pins op) (hnext : s.nextSerial ≤ s'.nextSerial) (hnow : s.now ≤ s'.now)
    (hret : s'.retractions = s.retractions) :
    ResultsOk s' := by
  refine ⟨fun op r he => ?_, fun op op' r r' he he' => ?_, fun op hno => ?_, fun k hk => ?_⟩
  · exact (h.complete op r ((hentries op r).1 he)).mono (hpins op) hnext hnow (by rw [hret])
  · exact h.serials op op' r r' ((hentries op r).1 he) ((hentries op' r').1 he')
  · rw [hpins]; exact h.unpinned op fun r he => hno r ((hentries op r).2 he)
  · rw [hret] at hk; exact lt_of_lt_of_le (h.retractions k hk) hnext

/-- **The result of one operation changes**, or goes. -/
theorem ResultsOk.change (h : ResultsOk s)
    (hother : ∀ op', op' ≠ op → s'.ledger.entries.get op' = s.ledger.entries.get op' ∧ s'.pins op' = s.pins op')
    (hself : ∀ r, s'.ledger.Result op r → ResultInv s' op r ∧
      ∀ op' x, op' ≠ op → s.ledger.Result op' x → x.serial ≠ r.serial)
    (hnone : (∀ r, ¬s'.ledger.Result op r) → s'.pins op = 0) (hnext : s.nextSerial ≤ s'.nextSerial)
    (hnow : s.now ≤ s'.now) (hret : ∀ op' x, op' ≠ op → s.ledger.Result op' x →
      (x.serial ∈ s'.retractions ↔ x.serial ∈ s.retractions))
    (hlt : ∀ k ∈ s'.retractions, k < s'.nextSerial) : ResultsOk s' := by
  refine ⟨fun op' x he => ?_, fun op₁ op₂ x y he he' heq => ?_, fun op' hno => ?_, hlt⟩
  · by_cases hop : op' = op
    · subst hop; exact (hself x he).1
    · rw [Result, (hother op' hop).1] at he
      exact (h.complete op' x he).mono (hother op' hop).2 hnext hnow (hret op' x hop he)
  · by_cases h₁ : op₁ = op <;> by_cases h₂ : op₂ = op
    · rw [h₁, h₂]
    · subst h₁; rw [Result, (hother op₂ h₂).1] at he'; exact absurd heq.symm ((hself x he).2 op₂ y h₂ he')
    · subst h₂; rw [Result, (hother op₁ h₁).1] at he; exact absurd heq ((hself y he').2 op₁ x h₁ he)
    · rw [Result, (hother op₁ h₁).1] at he
      rw [Result, (hother op₂ h₂).1] at he'
      exact h.serials _ _ _ _ he he' heq
  · by_cases hop : op' = op
    · subst hop; exact hnone hno
    · rw [(hother op' hop).2]
      exact h.unpinned op' fun x he => hno x ((hother op' hop).1.trans he)

section

variable (h : ResultsOk s) (hold : s.ledger.Result op r) (hnext : s.nextSerial ≤ s'.nextSerial)
  (hret : ∀ k, k ≠ r.serial → (k ∈ s'.retractions ↔ k ∈ s.retractions))
include h hold hnext hret

theorem ResultsOk.retractions_lt (k : Nat) (hk : k ∈ s'.retractions) : k < s'.nextSerial := by
  by_cases heq : k = r.serial
  · rw [heq]; exact lt_of_lt_of_le (h.complete op r hold).serial hnext
  · exact lt_of_lt_of_le (h.retractions k ((hret k heq).1 hk)) hnext

variable (hpins : ∀ op', op' ≠ op → s'.pins op' = s.pins op') (hnow : s.now ≤ s'.now)
include hpins hnow

theorem ResultsOk.update (hentries : s'.ledger.entries = s.ledger.entries.put op (.complete r'))
    (hserial : r'.serial = r.serial) (hself : ResultInv s' op r') : ResultsOk s' := by
  have hne_serial : ∀ op' x, op' ≠ op → s.ledger.Result op' x → x.serial ≠ r.serial :=
    fun _ _ hne he heq => hne (h.serials _ _ _ _ he hold heq)
  have hput : s'.ledger.Result op r' := by rw [Result, hentries, get_put_self]
  refine h.change (fun op' hne => ⟨by rw [hentries, get_put_ne hne], hpins op' hne⟩) (fun x he => ?_)
    (fun hno => absurd hput (hno r'))
    hnext hnow (fun op' x hne he => hret _ (hne_serial op' x hne he)) (h.retractions_lt hold hnext hret)
  cases hput.symm.trans he
  exact ⟨hself, by rw [hserial]; exact hne_serial⟩

theorem ResultsOk.del (hentries : ∀ op', s'.ledger.entries.get op' = (s.ledger.entries.del op).get op')
    (hself : s'.pins op = 0) : ResultsOk s' := by
  refine h.change (fun op' hne => ⟨by rw [hentries, get_del_ne hne], hpins op' hne⟩) (fun x he => ?_)
    (fun _ => hself) hnext hnow
    (fun op' x hne he => hret _ fun heq => hne (h.serials _ _ _ _ he hold heq)) (h.retractions_lt hold hnext hret)
  rw [Result, hentries, get_del_self] at he
  cases he

end

/-- A result is stored that was not there. -/
structure Publication (s s' : Sys A) (op : OpId) (r : TimedResult A) : Prop where
  entries : s'.ledger.entries = s.ledger.entries.put op (.complete r)
  pins : r.replayPins = 0
  serial : r.serial = s.nextSerial
  unretracted : r.retracted = false
  guards : s'.guards = s.guards
  pendings : s'.pendings = s.pendings
  nextClaim : s'.nextClaim = s.nextClaim
  now : s'.now = s.now
  nextSerial : s'.nextSerial = s.nextSerial + 1
  retractions : s'.retractions = s.retractions

theorem ClaimsOk.settle (h : ClaimsOk s) (hp : Publication s s' op r) (hslot : s.ledger.Slot op c n)
    (hsettled : s'.settled = s.settled ++ [c]) : ClaimsOk s' := by
  obtain ⟨hentries, -, -, -, hguards, hpendings, hnext, -⟩ := hp
  have howners : ∀ op' c', s'.owners op' c' = s.owners op' c' :=
    fun op' c' => by rw [Sys.owners, Sys.owners, hguards, hpendings]
  refine h.change 0 (fun op' hne => ⟨by rw [hentries, get_put_ne hne], howners op'⟩) (fun c' n' he => ?_) (by omega)
    (fun c' hc => by simp [hsettled, hc]) (fun c' hc => ?_) (fun g' w c hg _ => .inl (by rwa [← hguards]))
    (fun p' w c' hp _ => .inl (by rwa [← hpendings])) (fun c' hown => ?_)
  · rw [Slot, hentries, get_put_self] at he; cases he
  · rw [hsettled] at hc
    rcases mem_append.1 hc with hc | hc
    · exact .inl hc
    · cases mem_singleton.1 hc; exact .inr ⟨n, hslot⟩
  · rw [howners] at hown
    rw [hsettled, mem_append, mem_singleton]
    by_cases hc : c' = c
    · exact .inr (.inr hc)
    · exact .inr (.inl (h.settled_of hown fun n' hslot' => by cases hslot.symm.trans hslot'; exact hc rfl))

theorem ResultsOk.publish (h : ResultsOk s) (hp : Publication s s' op r) (hnone : ∀ r, ¬s.ledger.Result op r) :
    ResultsOk s' := by
  obtain ⟨hentries, hpins, hserial, hret, hguards, -, -, hnow, hnext, hretractions⟩ := hp
  have hpins' : ∀ op', s'.pins op' = s.pins op' := fun op' => by rw [Sys.pins, Sys.pins, hguards]
  have hput : s'.ledger.Result op r := by rw [Result, hentries, get_put_self]
  have hlt : ∀ k ∈ s'.retractions, k < s.nextSerial := by rw [hretractions]; exact h.retractions
  refine h.change (fun op' hne => ⟨by rw [hentries, get_put_ne hne], hpins' op'⟩) (fun x he => ?_)
    (fun hno => absurd hput (hno r))
    (by omega) hnow.ge (fun _ _ _ _ => by rw [hretractions]) (fun k hk => by have := hlt k hk; omega)
  cases hput.symm.trans he
  refine ⟨⟨?_, by omega, ⟨fun hm => ?_, by simp [hret]⟩, by simp [hret]⟩, fun op' x _ he heq => ?_⟩
  · rw [hpins', h.unpinned op hnone, hpins]
  · have := hlt _ hm; omega
  · have := (h.complete op' x he).serial; omega

end Results

/-! ## Steps -/

/-- Only the ledger, the clock and the accepted writes differ. -/
structure SameUsers (s s' : Sys A) : Prop where
  guards : s'.guards = s.guards
  pendings : s'.pendings = s.pendings
  nextClaim : s'.nextClaim = s.nextClaim
  settled : s'.settled = s.settled
  now : s.now ≤ s'.now

namespace SameUsers

theorem owners (h : SameUsers s s') (op : OpId) (c : Nat) : s'.owners op c = s.owners op c := by
  unfold Sys.owners
  rw [h.guards, h.pendings]

theorem pins (h : SameUsers s s') (op : OpId) : s'.pins op = s.pins op := by
  unfold Sys.pins
  rw [h.guards]

theorem claims (hc : ClaimsOk s) (h : SameUsers s s')
    (hentries : ∀ op c n, s'.ledger.Slot op c n ↔ s.ledger.Slot op c n) :
    ClaimsOk s' :=
  hc.same hentries h.owners (fun g w c hg _ => by rw [← h.guards]; exact hg)
    (fun p w c hp _ => by rw [← h.pendings]; exact hp)
    (le_of_eq h.nextClaim.symm) h.settled

end SameUsers

section Steps

variable {r r' : TimedResult A}

theorem Inv.same (h : Inv s) (hu : SameUsers s s') (hentries : s'.ledger.entries = s.ledger.entries)
    (hnext : s'.nextSerial = s.nextSerial) (hret : s'.retractions = s.retractions) : Inv s' :=
  ⟨SameUsers.claims h.claims hu fun _ _ _ => by rw [Slot, hentries],
    h.results.same (fun _ _ => by rw [Result, hentries]) hu.pins (le_of_eq hnext.symm) hu.now hret⟩

theorem Inv.remove (h : Inv s) (hold : s.ledger.Result op r) (hpins : r.replayPins = 0) (hu : SameUsers s s')
    (hentries : s'.ledger.entries = s.ledger.entries.del op) (hnext : s'.nextSerial = s.nextSerial)
    (hret : ∀ k, k ≠ r.serial → (k ∈ s'.retractions ↔ k ∈ s.retractions)) : Inv s' := by
  refine ⟨SameUsers.claims h.claims hu fun op' c n => ?_,
    h.results.del hold hnext.ge hret (fun op' _ => hu.pins op') hu.now (fun op' => by rw [hentries]) ?_⟩
  · rw [Slot, hentries]; exact get_del_iff (hold.not_slot c n)
  · rw [hu.pins, ← (h.results.complete op r hold).pins]; exact hpins

theorem Inv.rewrite (h : Inv s) (hold : s.ledger.Result op r) (hu : SameUsers s s')
    (hentries : s'.ledger.entries = s.ledger.entries.put op (.complete r')) (hserial : r'.serial = r.serial)
    (hpins : r'.replayPins = r.replayPins) (hnext : s.nextSerial ≤ s'.nextSerial)
    (hret : ∀ k, k ≠ r.serial → (k ∈ s'.retractions ↔ k ∈ s.retractions))
    (hself : r.serial ∈ s'.retractions ↔ r'.retracted = true)
    (hkept : r'.retracted = true → r'.expiresAt ≤ s'.now ∧ r'.materializationPending = false) : Inv s' := by
  have hri := h.results.complete op r hold
  refine ⟨SameUsers.claims h.claims hu fun op' c n => ?_,
    h.results.update hold hnext hret (fun op' _ => hu.pins op') hu.now hentries hserial ⟨?_, ?_, ?_, hkept⟩⟩
  · rw [Slot, hentries]; exact get_put_iff nofun (hold.not_slot c n)
  · rw [hpins, hu.pins]; exact hri.pins
  · rw [hserial]; exact lt_of_lt_of_le hri.serial hnext
  · rw [hserial]; exact hself

variable {w : Guard} {l : Ledger A} {retention read : Nat}

theorem Inv.expires {now : Nat} (h : Inv s) (hl : s.ledger.Expires l op now) : Inv { s with ledger := l } := by
  rcases hl with ⟨r, hold, hr, rfl⟩ | rfl
  · exact h.remove hold hr.2.1 ⟨rfl, rfl, rfl, rfl, le_rfl⟩ Ledger.removeResult_entries rfl fun _ _ => Iff.rfl
  · exact h

theorem Inv.expire (h : Inv s) (op : OpId) : Inv (s.expire op) := h.expires (s.ledger.expires_removeTarget op s.now)

theorem pins_enter (hnew : s.guards.get g = none) (l : Ledger A) (op : OpId) :
    (s.enter l g w).pins op = s.pins op + if w.op = op ∧ w.claim = none then 1 else 0 :=
  count_put_new hnew

theorem pins_del_guard (hold : s.guards.get g = some w) (l : Ledger A) (op : OpId) :
    Sys.pins { s with ledger := l, guards := s.guards.del g } op + (if w.op = op ∧ w.claim = none then 1 else 0) =
      s.pins op :=
  count_del_of hold

/-- After the lazy expiry an admission is refused, pins the result or opens a slot. -/
theorem Ledger.admitNonzero_cases (l : Ledger A) (op : OpId) (retryOrigin : Option Nat) (now claim : Nat) :
    (∃ e, (∀ claim, e ≠ .admitted claim) ∧
      l.admitNonzero op retryOrigin now claim = (e, l.removeTargetIfExpiredAndUnpinned op now)) ∨
    (∃ r, (l.removeTargetIfExpiredAndUnpinned op now).Result op r ∧ r.retracted = false ∧
      l.admitNonzero op retryOrigin now claim =
        (.admitted none, (l.removeTargetIfExpiredAndUnpinned op now).pin op r)) ∨
    ((l.removeTargetIfExpiredAndUnpinned op now).entries.get op = none ∧
      l.admitNonzero op retryOrigin now claim =
        (.admitted (some claim), (l.removeTargetIfExpiredAndUnpinned op now).reserve op claim)) := by
  unfold admitNonzero
  dsimp only
  split
  · rename_i r he
    split
    · exact .inl ⟨.unseenRetry, nofun, rfl⟩
    rename_i hret
    split
    · exact .inl ⟨.unseenRetry, nofun, rfl⟩
    · exact .inr (.inl ⟨r, he, Bool.eq_false_iff.2 hret, rfl⟩)
  · exact .inl ⟨.inFlight, nofun, rfl⟩
  · rename_i he
    split
    · exact .inr (.inr ⟨he, rfl⟩)
    · exact .inl ⟨.unseenRetry, nofun, rfl⟩

theorem Sys.admitCaller_cases {retryOrigin : Option Nat} (hs : s.admitCaller g op retryOrigin = some s') :
    s' = s ∨ s' = s.expire op ∨ s.guards.get g = none ∧
      ((∃ r, (s.expire op).ledger.Result op r ∧ r.retracted = false ∧
        s' = (s.expire op).enter ((s.expire op).ledger.pin op r) g ⟨op, none⟩) ∨
      ((s.expire op).ledger.entries.get op = none ∧
        s' = (s.expire op).enter ((s.expire op).ledger.reserve op s.nextClaim) g ⟨op, some s.nextClaim⟩)) := by
  unfold admitCaller at hs
  split at hs
  · cases hs
  rename_i hnew
  have hnew' : s.guards.get g = none := by simpa using hnew
  split at hs
  · rcases s.ledger.admitNonzero_cases op retryOrigin s.now s.nextClaim with
      ⟨e, he, heq⟩ | ⟨r, hold, hret, heq⟩ | ⟨hnone, heq⟩
    · rw [heq] at hs
      cases e with
      | admitted claim => exact absurd rfl (he claim)
      | inFlight | unseenRetry => cases hs; exact .inr (.inl rfl)
    · rw [heq] at hs; cases hs; exact .inr (.inr ⟨hnew', .inl ⟨r, hold, hret, rfl⟩⟩)
    · rw [heq] at hs; cases hs; exact .inr (.inr ⟨hnew', .inr ⟨hnone, rfl⟩⟩)
  · cases hs; exact .inl rfl

theorem Inv.pin (h : Inv s) (hold : s.ledger.Result op r) (hret : r.retracted = false)
    (hnew : s.guards.get g = none) : Inv (s.enter (s.ledger.pin op r) g ⟨op, none⟩) := by
  have hri := h.results.complete op r hold
  have hpins := pins_enter (w := ⟨op, none⟩) hnew (s.ledger.pin op r)
  constructor
  · refine h.claims.same (fun op' c n => get_put_iff nofun (hold.not_slot c n)) (fun op' c => ?_)
      (fun g' w c hg hc => ?_) (fun p w c hp _ => hp) (Nat.le_succ _) rfl
    · rw [owners_enter hnew, if_neg (by simp)]; rfl
    rcases cases_put hg with ⟨-, rfl⟩ | ⟨-, hg⟩
    · cases hc
    · exact hg
  · refine h.results.update hold le_rfl (fun _ _ => Iff.rfl) (fun op' hne => ?_) le_rfl rfl rfl
      ⟨?_, hri.serial, hri.retracted, fun hr => nomatch hret.symm.trans hr⟩
    · rw [hpins, if_neg (fun hw => hne hw.1.symm)]; rfl
    · rw [hpins, if_pos ⟨rfl, rfl⟩, ← hri.pins]

theorem Inv.fresh (h : Inv s) (hnone : s.ledger.entries.get op = none) (hnew : s.guards.get g = none) :
    Inv (s.enter (s.ledger.reserve op s.nextClaim) g ⟨op, some s.nextClaim⟩) := by
  refine ⟨h.claims.fresh hnone hnew rfl, h.results.same (fun op' r => ?_) (fun op' => ?_) le_rfl le_rfl rfl⟩
  · exact get_put_iff nofun (by rw [hnone]; nofun)
  · rw [pins_enter hnew, if_neg (by simp)]; rfl

theorem Inv.admitCaller {retryOrigin : Option Nat} (h : Inv s) (hs : s.admitCaller g op retryOrigin = some s') :
    Inv s' := by
  have he := h.expire op
  rcases Sys.admitCaller_cases hs with rfl | rfl | ⟨hnew, ⟨r, hold, hret, rfl⟩ | ⟨hnone, rfl⟩⟩
  · exact h
  · exact he
  · exact he.pin hold hret hnew
  · exact he.fresh hnone hnew

theorem Ledger.record_cases (l : Ledger A) {op : OpId} (result : DedupResult A)
    (writeRequest : Option WriteRequestReplay) (pending : Bool) (now retention serial : Nat) (hop : hasOpId op = true) :
    (∃ r, (l.removeTargetIfExpiredAndUnpinned op now).Result op r ∧
      (l.recordEntryWithWriteRequest op result writeRequest pending now retention serial).entries =
        (l.removeTargetIfExpiredAndUnpinned op now).entries.put op
          (.complete { r with writeRequest := r.writeRequest.or writeRequest })) ∨
    ((∀ r, ¬(l.removeTargetIfExpiredAndUnpinned op now).Result op r) ∧
      (l.recordEntryWithWriteRequest op result writeRequest pending now retention serial).entries =
        (l.removeTargetIfExpiredAndUnpinned op now).entries.put op
          (.complete ⟨result, now + retention, 0, writeRequest, pending, false, serial⟩)) := by
  unfold recordEntryWithWriteRequest
  rw [if_pos hop]
  dsimp only
  split
  · rename_i r hold; exact .inl ⟨r, hold, rfl⟩
  rename_i hno
  refine .inr ⟨hno, ?_⟩
  rw [protectResultInode_entries]

theorem Sys.expire_settles (s : Sys A) (op : OpId) : (s.expire op).settles op = s.settles op := by
  unfold settles expire
  rcases Ledger.removeTarget_cases s.ledger op s.now with ⟨r, hold, _, hdel⟩ | ⟨heq, _⟩
  · rw [hdel, Ledger.removeResult_entries, get_del_self, hold]
  · rw [heq]

/-- A result is published, or the one that is there wins. -/
theorem Inv.record {result : DedupResult A} {writeRequest : Option WriteRequestReplay} {pending : Bool}
    (h : Inv s) : Inv (s.record retention op result writeRequest pending) := by
  have he := h.expire op
  have hset := s.expire_settles op
  have hsame : s.settles op = [] → s.settled ++ s.settles op = s.settled := fun hnil => by rw [hnil, append_nil]
  by_cases hop : hasOpId op = true
  · rcases Ledger.record_cases s.ledger result writeRequest pending s.now retention s.nextSerial hop with
      ⟨r, hold, hentries⟩ | ⟨hno, hentries⟩
    · have hri := he.results.complete op r hold
      refine he.rewrite hold ⟨rfl, rfl, rfl, hsame ?_, le_rfl⟩ hentries rfl rfl (Nat.le_succ _) (fun _ _ => Iff.rfl)
        hri.retracted hri.kept
      rw [← hset, Sys.settles, show (s.expire op).ledger.entries.get op = _ from hold]
    have hp : Publication (s.expire op) (s.record retention op result writeRequest pending) op _ :=
      ⟨hentries, rfl, rfl, rfl, rfl, rfl, rfl, rfl, rfl, rfl⟩
    refine ⟨?_, he.results.publish hp hno⟩
    rcases Ledger.no_result hno with hslot | ⟨c, n, hslot⟩
    · refine SameUsers.claims he.claims ⟨rfl, rfl, rfl, hsame ?_, le_rfl⟩ fun op' c n => ?_
      · rw [← hset, Sys.settles, show (s.expire op).ledger.entries.get op = _ from hslot]
      · rw [Slot, hp.entries]
        exact get_put_iff nofun (by rw [show (s.expire op).ledger.entries.get op = _ from hslot]; nofun)
    · have hone : s.settles op = [c] := by
        rw [← hset, Sys.settles, show (s.expire op).ledger.entries.get op = _ from hslot]
        exact if_pos hop
      exact he.claims.settle hp hslot (congrArg (s.settled ++ ·) hone)
  · have hledger : (s.record retention op result writeRequest pending).ledger = s.ledger := if_neg hop
    refine ⟨SameUsers.claims h.claims ⟨rfl, rfl, rfl, hsame ?_, le_rfl⟩ fun _ _ _ => by rw [hledger],
      h.results.same (fun _ _ => by rw [hledger]) (fun _ => rfl) (Nat.le_succ _) le_rfl rfl⟩
    unfold Sys.settles
    split
    · exact if_neg hop
    · rfl

/-- What finishing an accepted write does to a pending result. -/
theorem Ledger.finish_cases (l : Ledger A) (op : OpId) (materialized : Bool) (now : Nat) :
    (∃ r, l.Result op r ∧ hasOpId op = true ∧ r.materializationPending = true ∧
      ((r.replayPins = 0 ∧ (materialized = true → r.expiresAt ≤ now) ∧
          (l.finishAcceptedWrite op materialized now).entries = l.entries.del op) ∨
        (materialized = true ∧ (l.finishAcceptedWrite op materialized now).entries =
          l.entries.put op (.complete { r with materializationPending := false })) ∨
        (materialized = false ∧ r.replayPins ≠ 0 ∧ (l.finishAcceptedWrite op materialized now).entries =
          l.entries.put op
            (.complete { r with materializationPending := false, retracted := true, expiresAt := now })))) ∨
    (l.finishAcceptedWrite op materialized now = l ∧
      ∀ r, l.Result op r → (hasOpId op && r.materializationPending) = false) := by
  unfold finishAcceptedWrite
  split
  · rename_i r he
    split
    · rename_i hp
      obtain ⟨hop, hpend⟩ := Bool.and_eq_true_iff.1 hp
      refine .inl ⟨r, he, hop, hpend, ?_⟩
      dsimp only
      cases materialized with
      | true =>
        rw [if_pos rfl]
        split
        · rename_i hr; exact .inl ⟨hr.2, fun _ => hr.1, removeResult_entries⟩
        · exact .inr (.inl ⟨rfl, rfl⟩)
      | false =>
        rw [if_neg nofun]
        split
        · rename_i hr; exact .inl ⟨hr, nofun, removeResult_entries⟩
        · rename_i hr; exact .inr (.inr ⟨rfl, hr, rfl⟩)
    · rename_i hp; exact .inr ⟨rfl, fun r' hr' => by cases he.symm.trans hr'; exact Bool.eq_false_iff.2 hp⟩
  · rename_i hno; exact .inr ⟨rfl, fun r h => absurd h (hno r)⟩

theorem Inv.finish {materialized : Bool} (h : Inv s) (hread : read ≤ s.now) : Inv (s.finish op materialized read) := by
  rcases Ledger.finish_cases s.ledger op materialized read with ⟨r, hold, hop, hpend, hcase⟩ | ⟨heq, hno⟩
  · have hri := h.results.complete op r hold
    have hret : ∀ k, k ∈ (s.finish op materialized read).retractions ↔ k ∈ s.retractions ∨
        (materialized = false ∧ k = r.serial) := by
      intro k
      simp only [Sys.finish, Sys.retracts, hold, hop, hpend]
      cases materialized <;> simp
    have hother : ∀ k, k ≠ r.serial → (k ∈ (s.finish op materialized read).retractions ↔ k ∈ s.retractions) := by
      intro k hk
      rw [hret]
      exact or_iff_left fun hm => hk hm.2
    rcases hcase with ⟨hpins, _, hdel⟩ | ⟨rfl, hput⟩ | ⟨rfl, hpins, hput⟩
    · exact h.remove hold hpins ⟨rfl, rfl, rfl, rfl, le_rfl⟩ hdel rfl hother
    · refine h.rewrite hold ⟨rfl, rfl, rfl, rfl, le_rfl⟩ hput rfl rfl le_rfl hother ?_ fun hr => ?_
      · rw [hret]; exact (or_iff_left nofun).trans hri.retracted
      · cases (hri.kept hr).2.symm.trans hpend
    · refine h.rewrite hold ⟨rfl, rfl, rfl, rfl, le_rfl⟩ hput rfl rfl le_rfl hother ?_ fun _ => ⟨hread, rfl⟩
      rw [hret]
      exact ⟨fun _ => rfl, fun _ => .inr ⟨rfl, rfl⟩⟩
  · have hnil : s.retracts op materialized = [] := by
      unfold Sys.retracts
      split
      · rename_i r hr; rw [hno r hr]; rfl
      · rfl
    refine h.same ⟨rfl, rfl, rfl, rfl, le_rfl⟩ (congrArg Ledger.entries heq) rfl ?_
    show s.retractions ++ s.retracts op materialized = _
    rw [hnil]
    exact append_nil _

theorem Ledger.unpin_cases (l : Ledger A) (op : OpId) (now : Nat) :
    (∃ r, l.Result op r ∧ r.replayPins ≠ 0 ∧
      ((r.replayPins = 1 ∧ r.expiresAt ≤ now ∧ ∀ op', (l.unpin op now).entries.get op' = (l.entries.del op).get op') ∨
        (¬(r.replayPins = 1 ∧ r.expiresAt ≤ now) ∧
          (l.unpin op now).entries = l.entries.put op (.complete { r with replayPins := r.replayPins - 1 })))) ∨
    (l.unpin op now = l ∧ ∀ r, l.Result op r → r.replayPins = 0) := by
  unfold unpin
  split
  · rename_i r he
    split
    · rename_i hp
      refine .inl ⟨r, he, hp, ?_⟩
      dsimp only
      split
      · rename_i hr
        refine .inl ⟨by omega, hr.2, fun op' => ?_⟩
        rw [removeResult_entries, get_del, get_del, get_put]
        split <;> rfl
      · rename_i hr; exact .inr ⟨fun h => hr ⟨by omega, h.2⟩, rfl⟩
    · rename_i hp; exact .inr ⟨rfl, fun r' hr' => by cases he.symm.trans hr'; exact not_not.1 hp⟩
  · rename_i hno; exact .inr ⟨rfl, fun r h => absurd h (hno r)⟩

/-- A replay guard is dropped. -/
theorem Inv.unpin (h : Inv s) (hg : s.guards.get g = some ⟨op, none⟩)
    (hs : s' = { s with ledger := s.ledger.unpin op read, guards := s.guards.del g }) : Inv s' := by
  have hpins := hs ▸ pins_del_guard hg (s.ledger.unpin op read)
  have hfewer : s'.pins op + 1 = s.pins op := by
    have := hpins op
    rwa [if_pos ⟨rfl, rfl⟩] at this
  have hother : ∀ op', op' ≠ op → s'.pins op' = s.pins op' := by
    intro op' hne
    have := hpins op'
    rwa [if_neg (fun hw => hne hw.1.symm)] at this
  have hclaims : (∀ op' c n, s'.ledger.Slot op' c n ↔ s.ledger.Slot op' c n) →
      ClaimsOk s' := by
    intro hentries
    refine h.claims.same hentries (fun op' c => ?_) (fun g' w c hg' _ => ?_) (fun p w c hp _ => by rwa [hs] at hp)
      (by rw [hs]) (by rw [hs])
    · have := hs ▸ owners_del_guard hg (s.ledger.unpin op read) op' c
      rwa [if_neg (by simp)] at this
    · rw [hs] at hg'; exact (of_del hg').2
  have hret : ∀ k, k ∈ s'.retractions ↔ k ∈ s.retractions := fun k => by rw [hs]
  have hnext : s'.nextSerial = s.nextSerial := by rw [hs]
  have hnow : s'.now = s.now := by rw [hs]
  rcases Ledger.unpin_cases s.ledger op read with ⟨r, hold, hp, hcase⟩ | ⟨heq, hno⟩
  · have hri := h.results.complete op r hold
    have hfew := hri.pins
    rcases hcase with ⟨hone, _, hdel⟩ | ⟨hmany, hput⟩
    · have hdel' : ∀ op', s'.ledger.entries.get op' = (s.ledger.entries.del op).get op' := fun op' => by rw [hs, hdel]
      exact ⟨hclaims fun op' c n => by rw [Slot, hdel']; exact get_del_iff (hold.not_slot c n),
        h.results.del hold hnext.ge (fun k _ => hret k) hother hnow.ge hdel' (by omega)⟩
    have hput' : s'.ledger.entries = s.ledger.entries.put op (.complete { r with replayPins := r.replayPins - 1 }) := by
      rw [hs, hput]
    refine ⟨hclaims fun op' c n => by rw [Slot, hput']; exact get_put_iff nofun (hold.not_slot c n),
      h.results.update hold hnext.ge (fun k _ => hret k) hother hnow.ge hput' rfl
        ⟨?_, hnext.symm ▸ hri.serial, (hret _).trans hri.retracted, hnow.symm ▸ hri.kept⟩⟩
    show r.replayPins - 1 = s'.pins op
    omega
  · -- a replay guard pins the result it was given out for
    exfalso
    by_cases hcomplete : ∃ r, s.ledger.Result op r
    · obtain ⟨r, hold⟩ := hcomplete
      have := (h.results.complete op r hold).pins
      have := hno r hold
      omega
    · have := h.results.unpinned op fun r hr => hcomplete ⟨r, hr⟩; omega

theorem Ledger.release_complete (l : Ledger A) (op op' : OpId) (c : Nat) (r : TimedResult A) :
    (l.releaseApplyingOwner op c).Result op' r ↔ l.Result op' r := by
  unfold releaseApplyingOwner
  split
  · rename_i c' n he
    have hno := Slot.not_result he r
    split
    · split
      · exact get_del_iff hno
      · exact get_put_iff nofun hno
    · exact Iff.rfl
  · exact Iff.rfl

theorem Inv.dropClaim (h : Inv s) (hg : s.guards.get g = some ⟨op, some c⟩) :
    Inv { s with ledger := s.ledger.releaseApplyingOwner op c, guards := s.guards.del g } := by
  refine ⟨h.claims.release rfl (owners_del_guard hg _) (fun g' w hg' => (of_del hg').2) (fun p w => id),
    h.results.same (fun op' r => s.ledger.release_complete op op' c r) (fun op' => ?_) le_rfl le_rfl rfl⟩
  have := pins_del_guard hg (s.ledger.releaseApplyingOwner op c) op'
  rwa [if_neg (by simp)] at this

theorem Inv.dropPending {w : PendingWriteRequest} (h : Inv s) (hp : s.pendings.get p = some w) :
    Inv (s.dropPending p w) := by
  obtain ⟨op, request, claim⟩ := w
  have hsub : ∀ p' w', (s.pendings.del p).get p' = some w' → s.pendings.get p' = some w' := fun _ _ hw => (of_del hw).2
  cases claim with
  | none =>
    refine ⟨h.claims.same (fun _ _ _ => Iff.rfl) (fun op' c => ?_) (fun _ _ _ hg _ => hg)
      (fun p' w' _ hw _ => hsub p' w' hw) le_rfl rfl,
      h.results.same (fun _ _ => Iff.rfl) (fun _ => rfl) le_rfl le_rfl rfl⟩
    have := owners_del_pending hp s.ledger op' c
    rw [if_neg (by simp)] at this
    exact this
  | some c =>
    exact ⟨h.claims.release rfl (owners_del_pending hp _) (fun _ _ hg => hg) hsub,
      h.results.same (fun op' r => s.ledger.release_complete op op' c r) (fun _ => rfl) le_rfl le_rfl rfl⟩

theorem Inv.stage {request : WriteRequestReplay} (h : Inv s) (hnew : s.pendings.get p = none) : Inv { s with
    ledger := (s.ledger.stageWriteRequest op).2,
    pendings := s.pendings.put p ⟨op, request, (s.ledger.stageWriteRequest op).1⟩ } := by
  by_cases hslot : ∃ c n, s.ledger.Slot op c n
  · obtain ⟨c, n, hslot⟩ := hslot
    have hstage : s.ledger.stageWriteRequest op =
        (some c, { s.ledger with entries := s.ledger.entries.put op (.applying c (n + 1)) }) := by
      simp [Ledger.stageWriteRequest, hslot]
    rw [hstage]
    exact ⟨h.claims.stage hslot hnew, h.results.same (fun op' r => get_put_iff nofun (hslot.not_result r))
      (fun _ => rfl) le_rfl le_rfl rfl⟩
  have hstage : s.ledger.stageWriteRequest op = (none, s.ledger) := by
    unfold Ledger.stageWriteRequest
    split
    · rename_i c n he; exact absurd ⟨c, n, he⟩ hslot
    · rfl
  rw [hstage]
  refine ⟨h.claims.same (fun _ _ _ => Iff.rfl) (fun op' c => ?_) (fun _ _ _ hg _ => hg) (fun p' w c hw hc => ?_)
    le_rfl rfl, h.results.same (fun _ _ => Iff.rfl) (fun _ => rfl) le_rfl le_rfl rfl⟩
  · rw [owners_put_pending hnew, if_neg (by simp)]; rfl
  rcases cases_put hw with ⟨-, rfl⟩ | ⟨-, hw⟩
  · cases hc
  · exact hw

theorem Inv.reap (h : Inv s) (batch : List ScheduledExpiry) :
    Inv { s with ledger := s.ledger.reapExpiredBatch batch } := by
  induction batch generalizing s with
  | nil => exact h
  | cons e batch ih => exact ih (s := { s with ledger := s.ledger.reapExpired e }) (h.expires (s.ledger.expires_reap e))

/-- **The counts hold in every state.** -/
theorem step_inv {a : Action A} (h : Inv s) (hs : s.step retention a = some s') : Inv s' := by
  cases a with
  | attempt g op isRetry originEpoch | reserveInitial g op => exact h.admitCaller hs
  | stageWriteRequest p op request =>
    obtain ⟨hnew, rfl⟩ := of_guard_not hs
    exact h.stage (by simpa using hnew)
  | recordEntry op result writeRequest => cases hs; exact h.record
  | recordEntryWithPendingWrite p result =>
    obtain ⟨w, hw, rfl⟩ := map_eq_some_iff.1 hs
    exact h.record.dropPending hw
  | beginAcceptedWrite w op result request =>
    obtain ⟨-, rfl⟩ := of_guard_not hs
    have hrec : Inv (s.record retention op result (some request) true) := h.record
    exact hrec.same ⟨rfl, rfl, rfl, rfl, le_rfl⟩ rfl rfl rfl
  | finishAcceptedWrite w materialized read =>
    obtain ⟨hread, hs⟩ := ite_none_right_eq_some.1 hs
    obtain ⟨op, hop, rfl⟩ := map_eq_some_iff.1 hs
    have hfin : Inv (s.finish op materialized read) := h.finish hread
    exact hfin.same ⟨rfl, rfl, rfl, rfl, le_rfl⟩ rfl rfl rfl
  | dropGuard g read =>
    obtain ⟨⟨op, claim⟩, hg, rfl⟩ := map_eq_some_iff.1 (ite_none_right_eq_some.1 hs).2
    cases claim with
    | none => exact h.unpin hg rfl
    | some c => exact h.dropClaim hg
  | dropPending p => obtain ⟨w, hw, rfl⟩ := map_eq_some_iff.1 hs; exact h.dropPending hw
  | reap batch => obtain ⟨-, rfl⟩ := of_guard hs; exact h.reap batch
  | get op => cases hs; exact h.expires (s.ledger.expires_get op s.now)
  | replayWriteEntry op fingerprint =>
    cases hs
    exact h.expires (s.ledger.expires_replayWriteEntry op fingerprint s.now)
  | armPromotionRetryGraceUntil epoch deadline read =>
    obtain ⟨-, rfl⟩ := of_guard hs
    exact h.same ⟨rfl, rfl, rfl, rfl, le_rfl⟩ (Ledger.arm_entries ..) rfl rfl
  | clearPromotionRetryGrace => cases hs; exact h.same ⟨rfl, rfl, rfl, rfl, le_rfl⟩ rfl rfl rfl
  | reclaimWhenUnprotected id =>
    cases hs
    exact h.same ⟨rfl, rfl, rfl, rfl, le_rfl⟩ (Ledger.reclaimWhenUnprotected_entries ..) rfl rfl
  | tick nanos => cases hs; exact h.same ⟨rfl, rfl, rfl, rfl, Nat.le_add_right _ _⟩ rfl rfl rfl

theorem boot_inv : Inv ({} : Sys A) := by
  have hentry : ∀ op e, ({} : Sys A).ledger.entries.get op ≠ some e := by
    intro op e he
    cases (get_empty op).symm.trans he
  refine ⟨⟨fun op c n he => absurd he (hentry _ _), fun op op' c n n' he => absurd he (hentry _ _), fun g w c hg => ?_,
    fun p w c hp => ?_, fun g g' w w' c hg => ?_, fun c hc => absurd hc not_mem_nil⟩,
    fun op r he => absurd he (hentry _ _), fun op op' r r' he => absurd he (hentry _ _), fun op _ => rfl,
    fun k hk => absurd hk not_mem_nil⟩
  · cases (get_empty g).symm.trans hg
  · cases (get_empty p).symm.trans hp
  · cases (get_empty g).symm.trans hg

theorem reach_inv (h : Reach (Sys.step (A := A) · retention) anyStep {} s) : Inv s :=
  h.invariant (I := Inv) boot_inv fun _ _ _ hi _ hs => step_inv hi hs

end Steps

end ZeroFS.Dedup
