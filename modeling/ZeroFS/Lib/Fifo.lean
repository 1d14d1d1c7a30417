import ZeroFS.Lib.Machine
import Mathlib.Data.List.Basic

/-!
# Gates that serve a queue from its front

A request that does not fit, or finds others waiting, waits in the order of its arrival. Every return of a permit and
every cancellation is followed by a `grant`, which serves the front while it fits; `due` counts the grants that have not
run. A caller may vanish before it leaves the queue. `Policy` says what a request is charged, `Lawful` what relates the
ledger to the permits.
-/

namespace Fifo

open Machine List

structure Waiter (ρ : Type) where
  id : Nat
  request : ρ

/-- What a gate charges, and when a request fits. -/
structure Policy (σ ρ ε : Type) where
  /-- What an arrival is charged at once, or why it is turned away; the argument is the error of a gate that has
  ended. -/
  accept : Option ε → σ → ρ → Except ε σ
  fits : σ → ρ → Bool
  charge : σ → ρ → σ
  /-- The charge of a permit that nobody received is taken back. -/
  refund : σ → ρ → σ
  /-- A request has to wait. -/
  blocked : σ → ρ → σ := fun l _ => l
  refresh : σ → σ := fun l => l
  leave : σ → σ := fun l => l
  /-- A permit comes back, to a gate that may have ended; the answer may end it. -/
  release : Bool → σ → ρ → σ × Option ε
  /-- Permits are handed over under the lock, so that one nobody receives is noticed there. -/
  handsOver : Bool

variable {σ ρ ε : Type}

/-- The gate, with the permits that are out and what became of each waiter. -/
structure Gate (σ ρ ε : Type) where
  ledger : σ
  nextWaiter : Nat := 0
  waiters : List (Waiter ρ) := []
  terminal : Option ε := none
  permits : List ρ := []
  due : Nat := 0
  granted : List Nat := []
  gone : List Nat := []
  failed : List (Nat × ε) := []

inductive Answer (ε : Type)
  | refused (error : ε)
  | permit
  | queued
  deriving DecidableEq

/-! ## Operations -/

section Operations

variable (P : Policy σ ρ ε)

/-- The ledger afterwards, the requests that were granted, and those that go on waiting. -/
def serve (alive : Nat → Bool) : σ → List (Waiter ρ) → σ × List (Waiter ρ) × List (Waiter ρ)
  | l, [] => (l, [], [])
  | l, w :: ws =>
    if P.fits l w.request then
      if alive w.id then
        let r := serve alive (P.charge l w.request) ws
        (r.1, w :: r.2.1, r.2.2)
      else serve alive (P.refund (P.charge l w.request) w.request) ws
    else (P.blocked l w.request, [], w :: ws)

def withdraw (id : Nat) (ws : List (Waiter ρ)) : List (Waiter ρ) := ws.filter (·.id ≠ id)

namespace Gate

variable (g : Gate σ ρ ε)

def acquire (r : ρ) : Answer ε × Gate σ ρ ε :=
  match P.accept g.terminal g.ledger r with
  | .error e => (.refused e, g)
  | .ok l =>
    if g.waiters.isEmpty && P.fits l r then (.permit, { g with ledger := P.charge l r, permits := g.permits ++ [r] })
    else
      (.queued, { g with
        ledger := P.blocked l r, nextWaiter := g.nextWaiter + 1, waiters := g.waiters ++ [⟨g.nextWaiter, r⟩] })

/-- Nobody waits: what cannot be served at once is turned away. -/
def tryAcquire (busy : ε) (r : ρ) : Answer ε × Gate σ ρ ε :=
  match g.acquire P r with
  | (.queued, _) => (.refused busy, g)
  | answer => answer

/-- Whether a permit for the waiter would be received, as far as the gate can tell. -/
def alive (id : Nat) : Bool := !(P.handsOver && g.gone.contains id)

def grant : Gate σ ρ ε :=
  if g.terminal.isSome then g
  else
    let r := serve P (g.alive P) (P.refresh g.ledger) g.waiters
    { g with
      ledger := r.1, waiters := r.2.2, permits := g.permits ++ r.2.1.map (·.request),
        granted := g.granted ++ r.2.1.map (·.id) }

def terminate (error : ε) : Gate σ ρ ε :=
  if g.terminal.isSome then g
  else { g with terminal := some error, waiters := [], failed := g.failed ++ g.waiters.map fun w => (w.id, error) }

def drop [DecidableEq ρ] (r : ρ) : Gate σ ρ ε :=
  let (l, error) := P.release g.terminal.isSome g.ledger r
  let g' := { g with ledger := l, permits := g.permits.erase r }
  match error with
  | some e => g'.terminate e
  | none => { g' with due := g.due + 1 }

/-- A waiter leaves the queue, if it is still there. -/
def cancel (id : Nat) : Gate σ ρ ε :=
  { g with
    waiters := withdraw id g.waiters, due := g.due + 1
    ledger := if (withdraw id g.waiters).length ≠ g.waiters.length && g.terminal.isNone then P.leave g.ledger
      else g.ledger }

end Gate

inductive Action (ρ ε : Type)
  | acquire (r : ρ)
  | grant
  | drop (r : ρ)
  | vanish (id : Nat)
  | cancel (id : Nat)
  | terminate (error : ε)

def step [DecidableEq ρ] (g : Gate σ ρ ε) : Action ρ ε → Option (Gate σ ρ ε)
  | .acquire r => some (g.acquire P r).2
  | .grant => if 0 < g.due then some { g.grant P with due := g.due - 1 } else none
  | .drop r => if r ∈ g.permits then some (g.drop P r) else none
  | .vanish id => if id < g.nextWaiter then some { g with gone := id :: g.gone } else none
  | .cancel id => if id ∈ g.gone then some (g.cancel P id) else none
  | .terminate error => some (g.terminate error)

end Operations

/-! ## What holds in every run -/

/-- `Holds ended l ps n` relates the ledger to the permits and the number of waiters; `C` is what is asked of
requests. -/
structure Lawful (P : Policy σ ρ ε) (Holds : Bool → σ → List ρ → Nat → Prop) (C : σ → ρ → Prop) : Prop where
  accept : ∀ {e l r l'}, P.accept (some e) l r ≠ .ok l'
  enter : ∀ {l r l' ps}, P.accept none l r = .ok l' → Holds false l ps 0 → C l r → P.fits l' r = true →
    Holds false (P.charge l' r) (ps ++ [r]) 0
  queue : ∀ {l r l' ps n}, P.accept none l r = .ok l' → Holds false l ps n → (n = 0 → P.fits l' r = false) →
    Holds false (P.blocked l' r) ps (n + 1)
  refresh : ∀ {l ps n}, Holds false l ps n → Holds false (P.refresh l) ps n
  grant : ∀ {l r ps n}, Holds false l ps (n + 1) → P.fits l r = true → Holds false (P.charge l r) (ps ++ [r]) n
  refund : ∀ {l r ps n}, P.handsOver = true → Holds false l ps (n + 1) → P.fits l r = true →
    Holds false (P.refund (P.charge l r) r) ps n
  blocked : ∀ {l r ps n}, Holds false l ps (n + 1) → P.fits l r = false → Holds false (P.blocked l r) ps (n + 1)
  leave : ∀ {l ps n}, Holds false l ps (n + 1) → Holds false (P.leave l) ps n
  release : ∀ {b l r ps ps' n}, ps.Perm (r :: ps') → Holds b l ps n → (P.release b l r).2 = none ∧
    Holds b (P.release b l r).1 ps' n
  ended : ∀ {l ps n}, Holds false l ps n → Holds true l ps 0

/-- What every run keeps. -/
structure Inv (Holds : Bool → σ → List ρ → Nat → Prop) (g : Gate σ ρ ε) : Prop where
  holds : Holds g.terminal.isSome g.ledger g.permits g.waiters.length
  ordered : (g.granted ++ g.waiters.map (·.id)).Pairwise (· < ·)
  below : ∀ id ∈ g.granted ++ g.waiters.map (·.id), id < g.nextWaiter
  answered : ∀ id < g.nextWaiter, id ∈ g.granted ∨ id ∈ g.gone ∨ id ∈ g.waiters.map (·.id) ∨
    ∃ e, g.terminal = some e ∧ (id, e) ∈ g.failed
  ended : g.terminal ≠ none → g.waiters = []

section Serve

variable {P : Policy σ ρ ε} {alive : Nat → Bool}

/-- What every charge and every refund keeps, with the requests granted so far and the number of those that wait. -/
theorem serve_inv {I : σ → List ρ → Nat → Prop}
    (hcharge : ∀ l ps r n, I l ps (n + 1) → P.fits l r = true → I (P.charge l r) (ps ++ [r]) n)
    (hblocked : ∀ l ps r n, I l ps (n + 1) → P.fits l r = false → I (P.blocked l r) ps (n + 1)) (ws : List (Waiter ρ))
    (hrefund : ∀ w ∈ ws, alive w.id = false → ∀ l ps n, I l ps (n + 1) → P.fits l w.request = true →
      I (P.refund (P.charge l w.request) w.request) ps n) :
    ∀ {l ps}, I l ps ws.length →
      I (serve P alive l ws).1 (ps ++ (serve P alive l ws).2.1.map (·.request)) (serve P alive l ws).2.2.length := by
  induction ws with
  | nil => simp [serve]
  | cons w ws ih =>
    intro l ps h
    have ih := @ih fun v hv => hrefund v (mem_cons_of_mem w hv)
    unfold serve
    split
    · split
      · simpa using ih (hcharge l ps _ _ h ‹_›)
      · exact ih (hrefund w mem_cons_self (Bool.eq_false_iff.2 ‹_›) l ps _ h ‹_›)
    · simpa using hblocked l ps _ _ h (Bool.eq_false_iff.2 ‹_›)

/-- Nobody overtakes. -/
theorem serve_sublist (l : σ) (ws : List (Waiter ρ)) :
    ((serve P alive l ws).2.1 ++ (serve P alive l ws).2.2).Sublist ws := by
  induction ws generalizing l with
  | nil => simp [serve]
  | cons w ws ih =>
    unfold serve
    split
    · split
      · exact (ih _).cons_cons w
      · exact (ih _).cons w
    · simp

/-- Only those whose caller is gone leave without a permit. -/
theorem mem_serve (l : σ) (ws : List (Waiter ρ)) :
    ∀ w ∈ ws, w ∈ (serve P alive l ws).2.1 ++ (serve P alive l ws).2.2 ∨ alive w.id = false := by
  induction ws generalizing l with
  | nil => simp
  | cons v ws ih =>
    intro w hw
    unfold serve
    split
    · split
      · rcases mem_cons.1 hw with rfl | hw
        · simp
        · exact (ih _ w hw).imp_left (mem_cons_of_mem v)
      · rcases mem_cons.1 hw with rfl | hw
        · exact .inr (Bool.eq_false_iff.2 ‹_›)
        · exact ih _ w hw
    · simp [hw]

/-- The first that goes on waiting does not fit. -/
theorem serve_head (hblocked : ∀ l r, P.blocked l r = l) (l : σ) (ws : List (Waiter ρ)) :
    ∀ w ∈ (serve P alive l ws).2.2.head?, P.fits (serve P alive l ws).1 w.request = false := by
  induction ws generalizing l with
  | nil => simp [serve]
  | cons w ws ih =>
    unfold serve
    split
    · split
      · exact ih _
      · exact ih _
    · rename_i hfits; simpa [hblocked] using hfits

end Serve

variable {P : Policy σ ρ ε} {Holds : Bool → σ → List ρ → Nat → Prop} {C : σ → ρ → Prop} {g g' : Gate σ ρ ε}

theorem Inv.acquire (hP : Lawful P Holds C) (h : Inv Holds g) {r : ρ} (hc : C g.ledger r) :
    Inv Holds (g.acquire P r).2 := by
  unfold Gate.acquire
  split
  · exact h
  rename_i l hl
  have hterm : g.terminal = none := by
    cases ht : g.terminal with
    | none => rfl
    | some e => exact absurd (ht ▸ hl) hP.accept
  have hl : P.accept none g.ledger r = .ok l := hterm ▸ hl
  have hh : Holds false g.ledger g.permits g.waiters.length := by simpa [hterm] using h.holds
  split
  · rename_i hfast
    simp only [Bool.and_eq_true, List.isEmpty_iff] at hfast
    refine { h with holds := ?_ }
    rw [hfast.1] at hh
    simpa [hterm, hfast.1] using hP.enter hl hh hc hfast.2
  rename_i hslow
  have hids : g.granted ++ (g.waiters ++ [(⟨g.nextWaiter, r⟩ : Waiter ρ)]).map (·.id) = g.granted ++ g.waiters.map
      (·.id) ++ [g.nextWaiter] := by
    simp
  exact {
    holds := by simpa [hterm] using hP.queue hl hh fun hn => by simpa [length_eq_zero_iff.1 hn] using hslow
    ordered := by
      rw [hids, pairwise_append]
      exact ⟨h.ordered, pairwise_singleton _ _, fun a ha b hb => mem_singleton.1 hb ▸ h.below a ha⟩
    below := fun id hid => by
      rw [hids, mem_append, mem_singleton] at hid
      rcases hid with hid | rfl
      · exact Nat.lt_succ_of_lt (h.below id hid)
      · exact Nat.lt_succ_self _
    answered := fun id hid => by
      rcases Nat.lt_succ_iff_lt_or_eq.1 hid with hlt | rfl
      · refine (h.answered id hlt).imp_right (Or.imp_right (Or.imp_left fun hq => ?_))
        simp [map_append, mem_append.2 (.inl hq)]
      · exact .inr (.inr (.inl (by simp)))
    ended := fun hno => absurd hterm hno }

theorem Inv.grant (hP : Lawful P Holds C) (h : Inv Holds g) : Inv Holds (g.grant P) := by
  unfold Gate.grant
  split
  · exact h
  rename_i hterm
  have hterm : g.terminal = none := by simpa using hterm
  have hh : Holds false g.ledger g.permits g.waiters.length := by simpa [hterm] using h.holds
  set r := serve P (g.alive P) (P.refresh g.ledger) g.waiters with hr
  have hsub : (r.2.1 ++ r.2.2).Sublist g.waiters := serve_sublist _ _
  have hmem : ∀ w ∈ g.waiters, w ∈ r.2.1 ++ r.2.2 ∨ g.alive P w.id = false := mem_serve _ _
  have hserve : Holds false r.1 (g.permits ++ r.2.1.map (·.request)) r.2.2.length :=
    serve_inv (fun _ _ _ _ hi hf => hP.grant hi hf) (fun _ _ _ _ hi hf => hP.blocked hi hf) g.waiters
      (fun _ _ ha _ _ _ hi hf => hP.refund
      (by simp only [Gate.alive, Bool.not_eq_false', Bool.and_eq_true] at ha; exact ha.1) hi hf)
      (hP.refresh hh)
  have hids : (g.granted ++ r.2.1.map (·.id) ++ r.2.2.map (·.id)).Sublist (g.granted ++ g.waiters.map (·.id)) := by
    rw [append_assoc, ← map_append]
    exact (List.Sublist.refl _).append (hsub.map _)
  exact {
    holds := by simpa [hterm] using hserve
    ordered := h.ordered.sublist hids
    below := fun id hid => h.below id (hids.subset hid)
    answered := fun id hid => by
      rcases h.answered id hid with hg | hg | hg | hg
      · exact .inl (mem_append_left _ hg)
      · exact .inr (.inl hg)
      · obtain ⟨w, hw, rfl⟩ := mem_map.1 hg
        rcases hmem w hw with hm | hdead
        · rcases mem_append.1 hm with hm | hm
          · exact .inl (mem_append_right _ (mem_map_of_mem hm))
          · exact .inr (.inr (.inl (mem_map_of_mem hm)))
        · simp only [Gate.alive, Bool.not_eq_false', Bool.and_eq_true, contains_iff_mem] at hdead
          exact .inr (.inl hdead.2)
      · exact .inr (.inr (.inr hg))
    ended := fun hno => absurd hterm hno }

theorem Inv.terminate (hP : Lawful P Holds C) (h : Inv Holds g) (error : ε) : Inv Holds (g.terminate error) := by
  unfold Gate.terminate
  split
  · exact h
  rename_i hterm
  have hterm : g.terminal = none := by simpa using hterm
  have hh : Holds false g.ledger g.permits g.waiters.length := by simpa [hterm] using h.holds
  exact {
    holds := hP.ended hh
    ordered := by simpa using h.ordered.sublist (sublist_append_left _ _)
    below := fun id hid => h.below id (mem_append_left _ (by simpa using hid))
    answered := fun id hid => by
      have hold := h.answered id hid
      simp only [hterm, reduceCtorEq, false_and, exists_false, or_false] at hold
      refine hold.imp_right (Or.imp_right fun hq => .inr ⟨error, rfl, ?_⟩)
      obtain ⟨w, hw, rfl⟩ := mem_map.1 hq
      exact mem_append_right _ (mem_map.2 ⟨w, hw, rfl⟩)
    ended := fun _ => rfl }

theorem Inv.exchange (h : Inv Holds g) {l : σ} {ps : List ρ} (hh : Holds g.terminal.isSome l ps g.waiters.length)
    (due : Nat) : Inv Holds { g with ledger := l, permits := ps, due := due } :=
  { h with holds := hh }

/-- Where the numbers are distinct, nobody leaves, or one does. -/
theorem withdraw_cases (id : Nat) {ws : List (Waiter ρ)} (h : (ws.map (·.id)).Nodup) :
    withdraw id ws = ws ∧ id ∉ ws.map (·.id) ∨ (withdraw id ws).length + 1 = ws.length := by
  induction ws with
  | nil => simp [withdraw]
  | cons w ws ih =>
    obtain ⟨hw, hnodup⟩ := nodup_cons.1 h
    by_cases hid : w.id = id
    · subst hid
      have hcons : withdraw w.id (w :: ws) = withdraw w.id ws := by simp [withdraw]
      have hall : withdraw w.id ws = ws := by
        rw [withdraw, filter_eq_self]
        exact fun v hv => decide_eq_true fun hvid => hw (mem_map.2 ⟨v, hv, hvid⟩)
      simp [hcons, hall]
    · have hcons : withdraw id (w :: ws) = w :: withdraw id ws := by simp [withdraw, hid]
      simpa [hcons, Ne.symm hid] using ih hnodup

theorem Inv.cancel (hP : Lawful P Holds C) (h : Inv Holds g) {id : Nat} (hid : id ∈ g.gone) :
    Inv Holds (g.cancel P id) := by
  have hsub : (g.granted ++ (withdraw id g.waiters).map (·.id)).Sublist (g.granted ++ g.waiters.map (·.id)) :=
    (List.Sublist.refl _).append (filter_sublist.map _)
  have hnodup := (h.ordered.sublist (sublist_append_right _ _)).imp Nat.ne_of_lt
  exact {
    holds := by
      unfold Gate.cancel
      rcases withdraw_cases id hnodup with ⟨hsame, -⟩ | hlen
      · simpa [hsame] using h.holds
      have hne : (withdraw id g.waiters).length ≠ g.waiters.length := by omega
      have hterm : g.terminal = none := by
        by_contra hno
        simp [h.ended hno] at hlen
      have hh : Holds false g.ledger g.permits ((withdraw id g.waiters).length + 1) := by
        rw [hlen]
        simpa [hterm] using h.holds
      simpa [hterm, hne] using hP.leave hh
    ordered := h.ordered.sublist hsub
    below := fun i hi => h.below i (hsub.subset hi)
    answered := fun i hi => by
      rcases h.answered i hi with hg | hg | hg | hg
      · exact .inl hg
      · exact .inr (.inl hg)
      · by_cases heq : i = id
        · exact .inr (.inl (heq ▸ hid))
        · obtain ⟨w, hw, rfl⟩ := mem_map.1 hg
          exact .inr (.inr (.inl (mem_map_of_mem (mem_filter.2 ⟨hw, by simpa using heq⟩))))
      · exact .inr (.inr (.inr hg))
    ended := fun hno => by simp [Gate.cancel, withdraw, h.ended hno] }

theorem empty_of_permit {r : ρ} (h : (g.acquire P r).1 = .permit) : g.waiters = [] := by
  unfold Gate.acquire at h
  split at h
  · cases h
  split at h
  · rename_i hfast; simp only [Bool.and_eq_true, List.isEmpty_iff] at hfast; exact hfast.1
  · cases h

theorem tryAcquire_cases (g : Gate σ ρ ε) (busy : ε) (r : ρ) : (g.tryAcquire P busy r).2 = g ∧
    (g.tryAcquire P busy r).1 ≠ .permit ∨
    (g.acquire P r).1 = .permit ∧ (g.tryAcquire P busy r).2 = (g.acquire P r).2 := by
  unfold Gate.tryAcquire Gate.acquire
  rcases P.accept g.terminal g.ledger r with e | l
  · simp
  by_cases hfast : (g.waiters.isEmpty && P.fits l r) = true
  · simp [hfast]
  · simp [hfast]

variable [DecidableEq ρ]

theorem Inv.drop (hP : Lawful P Holds C) (h : Inv Holds g) {r : ρ} (hr : r ∈ g.permits) : Inv Holds (g.drop P r) := by
  obtain ⟨hnone, hh⟩ := hP.release (perm_cons_erase hr) h.holds
  simp only [Gate.drop, hnone]
  exact h.exchange hh _

/-- What is asked of the actions of a run. -/
def Asks (C : σ → ρ → Prop) (g : Gate σ ρ ε) : Action ρ ε → Prop
  | .acquire r => C g.ledger r
  | _ => True

/-- **Every step of a gate keeps its accounts and its order.** -/
theorem step_inv (hP : Lawful P Holds C) (h : Inv Holds g) {a : Action ρ ε} (hc : Asks C g a)
    (hs : step P g a = some g') : Inv Holds g' := by
  cases a with
  | acquire r => cases hs; exact h.acquire hP hc
  | grant => obtain ⟨-, rfl⟩ := of_guard hs; have hg := h.grant hP; exact hg.exchange hg.holds _
  | drop r => obtain ⟨hr, rfl⟩ := of_guard hs; exact h.drop hP hr
  | vanish id =>
    obtain ⟨-, rfl⟩ := of_guard hs
    exact { h with answered := fun i hi => (h.answered i hi).imp_right (Or.imp_left (mem_cons_of_mem id)) }
  | cancel id => obtain ⟨hid, rfl⟩ := of_guard hs; exact h.cancel hP hid
  | terminate error => cases hs; exact h.terminate hP error

/-- What is kept of the ledger alone, as long as nobody in the queue is gone. -/
theorem step_keeps {J : σ → Prop} (haccept : ∀ {t l r l'}, P.accept t l r = .ok l' → J l → J l')
    (hcharge : ∀ {l r}, P.fits l r = true → J l → J (P.charge l r)) (hblocked : ∀ {l r}, J l → J (P.blocked l r))
    (hrefresh : ∀ {l}, J l → J (P.refresh l)) (hleave : ∀ {l}, J l → J (P.leave l)) (h : J g.ledger) {a : Action ρ ε}
    (hgrant : a = .grant → ∀ w ∈ g.waiters, g.alive P w.id = true)
    (hdrop : ∀ r, a = .drop r → J (P.release g.terminal.isSome g.ledger r).1) (hs : step P g a = some g') :
    J g'.ledger := by
  cases a with
  | acquire r =>
    cases hs
    unfold Gate.acquire
    split
    · exact h
    rename_i hl
    split
    · rename_i hfast; exact hcharge (Bool.and_eq_true_iff.1 hfast).2 (haccept hl h)
    · exact hblocked (haccept hl h)
  | grant =>
    obtain ⟨-, rfl⟩ := of_guard hs
    unfold Gate.grant
    split
    · exact h
    · exact @serve_inv _ _ _ P _ (fun l _ _ => J l) (fun _ _ _ _ hi hf => hcharge hf hi)
        (fun _ _ _ _ hi _ => hblocked hi) g.waiters (fun w hw ha => absurd (hgrant rfl w hw) (Bool.eq_false_iff.1 ha)) _
        [] (hrefresh h)
  | drop r =>
    obtain ⟨-, rfl⟩ := of_guard hs
    unfold Gate.drop Gate.terminate
    dsimp only
    split
    · split <;> exact hdrop r rfl
    · exact hdrop r rfl
  | vanish id => obtain ⟨-, rfl⟩ := of_guard hs; exact h
  | cancel id =>
    obtain ⟨-, rfl⟩ := of_guard hs
    unfold Gate.cancel
    split
    · exact hleave h
    · exact h
  | terminate error => cases hs; unfold Gate.terminate; split <;> exact h

/-! ## The first waiter -/

/-- Once no grant is due, the first waiter does not fit. -/
def HeadWaits (P : Policy σ ρ ε) (g : Gate σ ρ ε) : Prop :=
  g.terminal = none → g.due = 0 → ∀ w ∈ g.waiters.head?, P.fits g.ledger w.request = false

/-- **A waiter that is gone holds up nobody.** -/
theorem step_headWaits (hblocked : ∀ l r, P.blocked l r = l)
    (haccept : ∀ {t l r l'}, P.accept t l r = .ok l' → ∀ r', P.fits l' r' = P.fits l r') (h : HeadWaits P g)
    {a : Action ρ ε} (hs : step P g a = some g') : HeadWaits P g' := by
  cases a with
  | acquire r =>
    cases hs
    unfold Gate.acquire
    split
    · exact h
    rename_i l hl
    split
    · rename_i hfast
      simp only [Bool.and_eq_true, List.isEmpty_iff] at hfast
      intro _ _
      simp [hfast.1]
    rename_i hslow
    intro hn hd w hw
    simp only [hblocked]
    rcases hempty : g.waiters with _ | ⟨v, vs⟩
    · simp only [hempty, nil_append, head?_cons, Option.mem_some_iff] at hw
      subst hw
      simpa [hempty] using hslow
    · rw [haccept hl]; exact h hn hd w (by simpa [hempty] using hw)
  | grant =>
    obtain ⟨-, rfl⟩ := of_guard hs
    unfold Gate.grant
    split
    · exact fun hn => absurd ‹_› (Option.not_isSome_iff_eq_none.2 hn)
    · exact fun _ _ => serve_head hblocked _ _
  | drop r =>
    obtain ⟨-, rfl⟩ := of_guard hs
    unfold Gate.drop Gate.terminate
    dsimp only
    split
    · split
      · exact fun hn => absurd ‹_› (Option.not_isSome_iff_eq_none.2 hn)
      · exact nofun
    · exact fun _ hd => nomatch hd
  | vanish id => obtain ⟨-, rfl⟩ := of_guard hs; exact h
  | cancel id => obtain ⟨-, rfl⟩ := of_guard hs; exact fun _ hd => nomatch hd
  | terminate error =>
    cases hs
    unfold Gate.terminate
    split
    · exact h
    · exact nofun

end Fifo
