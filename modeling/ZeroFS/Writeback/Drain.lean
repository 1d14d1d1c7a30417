import ZeroFS.Writeback.Stepped

/-!
# Draining in order

With `k` the durable remote sequence: the journal holds a stretch of the accepted records (`LogOk`); the records in
flight or completed and not marked are the next one, or immutable creates at keys that no record in between touches
(`DrainOk`); and every key holds what the first `k` records left there, or what one record ahead puts there
(`Replayed`).
-/

namespace ZeroFS.Writeback

open List

def Logged (l : List MutationRecord) (s : Nat) (r : MutationRecord) : Prop := ∃ i, s = i + 1 ∧ l[i]? = some r

/-- The record may be applied when the first `k` records have been. -/
def Ahead (l : List MutationRecord) (k s : Nat) (r : MutationRecord) : Prop :=
  s = k + 1 ∨ r.fence = .immutableCreate ∧ ∀ i q, k < i → i < s → Logged l i q → ∀ p ∈ r.touchedKeys, p ∉ q.touchedKeys

/-- The journal has the accepted records from some point on. -/
structure LogOk (l : List MutationRecord) (j : Journal) : Prop where
  sequence : ∀ (i : Nat) (r : MutationRecord), l[i]? = some r → r.sequence = i + 1
  rename : ∀ r ∈ l, ∀ source mode b, r.kind = .rename source mode b → source ≠ r.path
  immutable : ∀ r ∈ l, r.fence = .immutableCreate → ∃ e b, r.kind = .put .create e b
  remoteSeq_le : j.remoteSeq ≤ j.localSeq
  localSeq_le : j.localSeq ≤ l.length
  rows : ∃ d ≤ j.remoteSeq, j.rows = (l.take j.localSeq).drop d

/-- The scheduler has the record in flight, or has completed it and not yet marked it. -/
def InHand (k : Nat) (sch : Scheduler) (s : Nat) (r : MutationRecord) (f : Flight) : Prop :=
  sch.active.get s = some (r, f) ∨ k < s ∧ ∃ tag, sch.completed.get s = some (r, tag) ∧ f = .done tag

/-- The scheduler works on committed records. -/
structure DrainOk (l : List MutationRecord) (j : Journal) (sch : Scheduler) : Prop where
  window : ∀ r ∈ sch.window, Logged l r.sequence r ∧ r.sequence ≤ j.localSeq
  next_pos : 0 < sch.next
  next_le : sch.next ≤ j.remoteSeq + 1
  marked : ∀ s, sch.next ≤ s → s ≤ j.remoteSeq → (sch.completed.get s).isSome
  completed : ∀ s c, sch.completed.get s = some c → sch.next ≤ s ∧ s ≤ j.localSeq ∧ Logged l s c.1
  active : ∀ s f, sch.active.get s = some f → j.remoteSeq < s ∧ s ≤ j.localSeq ∧ Logged l s f.1 ∧
    sch.completed.get s = none
  ahead : ∀ s r f, InHand j.remoteSeq sch s r f → Ahead l j.remoteSeq s r
  ready : ∀ run, sch.committing = some (run, .ready) → sch.next = j.remoteSeq + 1 ∧
    ∀ (i : Nat) c, run[i]? = some c → sch.completed.get (sch.next + i) = some c
  committing : ∀ run phase, sch.committing = some (run, phase) → phase ≠ .ready →
    sch.next + run.length = j.remoteSeq + 1
  idle : sch.committing = none → sch.stopped = false → sch.next = j.remoteSeq + 1

/-- What the phase of an attempt says about the remote store. -/
def FlightOk (m : Remote) (r : MutationRecord) : Flight → Prop
  | .start => True
  | .put _ | .verify => r.kind ≠ .delete
  | .remove target _ =>
    r.kind = .delete ∧ target = r.path ∨
      ∃ mode b, r.kind = .rename target mode b ∧ m.contents r.path = some b
  | .done _ => ∀ p v, r.effect p = some v → m.contents p = v

/-- The store holds `k` of the first `n` records, the next one in whole or in part, and immutable creates at keys that
no record in between touches. A rename in part has its target and still its source. -/
structure Replayed (ns : Namespace) (l : List MutationRecord) (n k : Nat) (contents : Namespace) : Prop where
  le : k ≤ n
  keys : ∀ p, contents p = applied (l.take k) ns p ∨
    ∃ s r, Logged l s r ∧ k < s ∧ s ≤ n ∧ Ahead l k s r ∧ r.effect p = some (contents p)
  rename : ∀ r source mode b, Logged l (k + 1) r → r.kind = .rename source mode b →
    contents source = applied (l.take k) ns source ∨ contents r.path = some b

/-- The remote store is a replay of the journal. -/
structure RemoteOk (ns : Namespace) (l : List MutationRecord) (j : Journal) (sch : Scheduler) (m : Remote) : Prop where
  replayed : Replayed ns l j.localSeq j.remoteSeq m.contents
  flight : ∀ s r f, InHand j.remoteSeq sch s r f → FlightOk m r f

/-! ## The log -/

section Log

variable {l : List MutationRecord} {j : Journal} {sch : Scheduler} {m : Remote} {ns : Namespace} {k s s' n : Nat}
  {r r' : MutationRecord} {p : Path} {f f' : Flight}

theorem Logged.mem (h : Logged l s r) : r ∈ l := by
  obtain ⟨i, -, hi⟩ := h
  exact mem_of_getElem? hi

theorem Logged.le (h : Logged l s r) : s ≤ l.length := by
  obtain ⟨i, rfl, hi⟩ := h
  have := (List.getElem?_eq_some_iff.1 hi).1
  omega

theorem Logged.unique (h : Logged l s r) (h' : Logged l s r') : r = r' := by
  obtain ⟨i, rfl, hi⟩ := h
  obtain ⟨i', hs, hi'⟩ := h'
  cases Nat.succ.inj hs
  exact Option.some.inj (hi.symm.trans hi')

theorem Logged.append (h : Logged l s r) (l' : List MutationRecord) : Logged (l ++ l') s r := by
  obtain ⟨i, rfl, hi⟩ := h
  exact ⟨i, rfl, by rw [List.getElem?_append_left (List.getElem?_eq_some_iff.1 hi).1, hi]⟩

theorem Logged.of_append {l' : List MutationRecord} (h : Logged (l ++ l') s r) (hs : s ≤ l.length) : Logged l s r := by
  obtain ⟨i, rfl, hi⟩ := h
  exact ⟨i, rfl, by rwa [List.getElem?_append_left (by omega)] at hi⟩

theorem Logged.take (h : Logged l s r) (hs : s ≤ n) : Logged (l.take n) s r := by
  obtain ⟨i, rfl, hi⟩ := h
  exact ⟨i, rfl, by rw [List.getElem?_take_of_lt (by omega), hi]⟩

theorem Logged.of_take (h : Logged (l.take n) s r) : Logged l s r := by
  obtain ⟨i, rfl, hi⟩ := h
  exact ⟨i, rfl, (of_getElem?_take hi).2⟩

theorem exists_logged (hpos : 0 < s) (hs : s ≤ l.length) : ∃ r, Logged l s r :=
  ⟨l[s - 1], s - 1, by omega, by rw [List.getElem?_eq_getElem]⟩

theorem LogOk.logged (h : LogOk l j) (hr : r ∈ l) : Logged l r.sequence r := by
  obtain ⟨i, hi⟩ := List.getElem?_of_mem hr
  exact ⟨i, h.sequence i r hi, hi⟩

theorem LogOk.logged_sequence (h : LogOk l j) (hr : Logged l s r) : r.sequence = s := by
  obtain ⟨i, rfl, hi⟩ := hr
  exact h.sequence i r hi

theorem LogOk.mem_rows (h : LogOk l j) (hr : r ∈ j.rows) : Logged l r.sequence r ∧ r.sequence ≤ j.localSeq := by
  obtain ⟨d, -, hrows⟩ := h.rows
  rw [hrows] at hr
  have hmem := mem_of_mem_drop hr
  obtain ⟨i, hi⟩ := List.getElem?_of_mem hmem
  obtain ⟨hlt, hi⟩ := of_getElem?_take hi
  have hseq := h.sequence i r hi
  exact ⟨⟨i, hseq, hi⟩, by omega⟩

theorem LogOk.sorted (h : LogOk l j) : l.Pairwise fun a b => a.sequence < b.sequence := by
  rw [pairwise_iff_getElem]
  intro a b ha hb hab
  have hseqa := h.sequence a l[a] (List.getElem?_eq_getElem ha)
  have hseqb := h.sequence b l[b] (List.getElem?_eq_getElem hb)
  omega

/-- Keeping the sequences above a bound is dropping the records up to it. -/
theorem filter_above (base : Nat) {through : Nat}
    (hseq : ∀ (i : Nat) (r : MutationRecord), l[i]? = some r → r.sequence = base + i + 1) :
    l.filter (fun r => through < r.sequence) = l.drop (through - base) := by
  induction l generalizing base with
  | nil => simp
  | cons r l ih =>
    have hr : r.sequence = base + 1 := hseq 0 r rfl
    have hrest := ih (base + 1) fun i q hq => by
      have := hseq (i + 1) q hq
      omega
    by_cases hlt : through < r.sequence
    · have hdrop : through - base = 0 := by omega
      have hdrop' : through - (base + 1) = 0 := by omega
      rw [filter_cons_of_pos (by simpa using hlt), hrest, hdrop, hdrop']
      rfl
    · have hdrop : through - base = through - (base + 1) + 1 := by omega
      rw [filter_cons_of_neg (by simpa using hlt), hrest, hdrop, drop_succ_cons]

theorem filter_drop (hseq : ∀ (i : Nat) (r : MutationRecord), l[i]? = some r → r.sequence = i + 1) (d through n : Nat) :
    ((l.take n).drop d).filter (fun r => through < r.sequence) = (l.take n).drop (max d through) := by
  rw [filter_above d, drop_drop]
  · congr 1; omega
  intro i r hr
  rw [List.getElem?_drop] at hr
  exact hseq _ r (of_getElem?_take hr).2

theorem Ahead.append {l' : List MutationRecord} (h : Ahead l k s r) (hs : s ≤ l.length) : Ahead (l ++ l') k s r := by
  rcases h with h | ⟨himm, hfree⟩
  · exact .inl h
  · exact .inr ⟨himm, fun i q hki his hq => hfree i q hki his (hq.of_append (by omega))⟩

theorem Ahead.take (h : Ahead l k s r) : Ahead (l.take n) k s r := by
  rcases h with h | ⟨himm, hfree⟩
  · exact .inl h
  · exact .inr ⟨himm, fun i q hki his hq => hfree i q hki his hq.of_take⟩

theorem Ahead.mono {k' : Nat} (h : Ahead l k s r) (hk : k ≤ k') (hs : k' < s) : Ahead l k' s r := by
  rcases h with h | ⟨himm, hfree⟩
  · exact .inl (by omega)
  · exact .inr ⟨himm, fun i q hki his hq => hfree i q (by omega) his hq⟩

/-- Two records ahead of the same sequence touch no common key. -/
theorem Ahead.disjoint (h : Ahead l k s r) (h' : Ahead l k s' r') (hr : Logged l s r) (hr' : Logged l s' r')
    (hs : k < s) (hs' : k < s') (hne : s ≠ s') (hp : p ∈ r.touchedKeys) : p ∉ r'.touchedKeys := by
  intro hp'
  rcases Nat.lt_or_ge s s' with hlt | hge
  · rcases h' with h' | ⟨-, hfree⟩
    · omega
    · exact hfree s r hs hlt hr p hp' hp
  · rcases h with h | ⟨-, hfree⟩
    · omega
    · exact hfree s' r' hs' (by omega) hr' p hp hp'

theorem InHand.logged (h : InHand j.remoteSeq sch s r f) (hd : DrainOk l j sch) :
    Logged l s r ∧ j.remoteSeq < s ∧ s ≤ j.localSeq := by
  rcases h with hf | ⟨hlt, tag, hc, -⟩
  · obtain ⟨hlt, hle, hlog, -⟩ := hd.active s _ hf; exact ⟨hlog, hlt, hle⟩
  · obtain ⟨-, hle, hlog⟩ := hd.completed s _ hc; exact ⟨hlog, hlt, hle⟩

theorem InHand.disjoint (h : InHand j.remoteSeq sch s r f) (h' : InHand j.remoteSeq sch s' r' f') (hd : DrainOk l j sch)
    (hne : s ≠ s') (hp : p ∈ r.touchedKeys) : p ∉ r'.touchedKeys :=
  (hd.ahead s r f h).disjoint (hd.ahead s' r' f' h') (h.logged hd).1 (h'.logged hd).1 (h.logged hd).2.1
    (h'.logged hd).2.1 hne hp

/-! ## Growing the log -/

theorem LogOk.append (h : LogOk l j) (hseq : r.sequence = l.length + 1)
    (hren : ∀ source mode b, r.kind = .rename source mode b → source ≠ r.path)
    (himm : r.fence = .immutableCreate → ∃ e b, r.kind = .put .create e b) : LogOk (l ++ [r]) j where
  sequence i q hq := by
    rcases Nat.lt_or_ge i l.length with hi | hi
    · rw [List.getElem?_append_left hi] at hq; exact h.sequence i q hq
    rw [List.getElem?_append_right hi, List.getElem?_singleton] at hq
    split at hq
    · cases hq; omega
    · cases hq
  rename q hq := by
    rcases mem_append.1 hq with hq | hq
    · exact h.rename q hq
    · cases mem_singleton.1 hq; exact hren
  immutable q hq := by
    rcases mem_append.1 hq with hq | hq
    · exact h.immutable q hq
    · cases mem_singleton.1 hq; exact himm
  remoteSeq_le := h.remoteSeq_le
  localSeq_le := by
    have := h.localSeq_le
    rw [length_append]
    omega
  rows := by
    obtain ⟨d, hd, hrows⟩ := h.rows
    exact ⟨d, hd, by rw [hrows, take_append_of_le_length h.localSeq_le]⟩

theorem DrainOk.append (h : DrainOk l j sch) (hl : j.localSeq ≤ l.length) (l' : List MutationRecord) :
    DrainOk (l ++ l') j sch :=
  { h with
    window := fun r hr => ⟨(h.window r hr).1.append l', (h.window r hr).2⟩
    completed := fun s c hc =>
      have ⟨hn, hle, hlog⟩ := h.completed s c hc
      ⟨hn, hle, hlog.append l'⟩
    active := fun s f hf =>
      have ⟨hlt, hle, hlog, hnone⟩ := h.active s f hf
      ⟨hlt, hle, hlog.append l', hnone⟩
    ahead := fun s r f hr => (h.ahead s r f hr).append (Nat.le_trans (hr.logged h).2.2 hl) }

/-! ## The replayed prefix -/

section Replayed

variable {c : Namespace} (h : Replayed ns l n k c)
include h

theorem Replayed.append (hn : n ≤ l.length) (l' : List MutationRecord) : Replayed ns (l ++ l') n k c := by
  have htake : (l ++ l').take k = l.take k := take_append_of_le_length (Nat.le_trans h.le hn)
  refine ⟨h.le, fun p => ?_, fun r source mode b hr hk => ?_⟩
  · rw [htake]
    rcases h.keys p with heq | ⟨s, r, hlog, hlt, hle, hahead, heff⟩
    · exact .inl heq
    · exact .inr ⟨s, r, hlog.append l', hlt, hle, hahead.append (Nat.le_trans hle hn), heff⟩
  rw [htake]
  by_cases hin : k + 1 ≤ l.length
  · exact h.rename r source mode b (hr.of_append hin) hk
  -- a new record next to the remote sequence: nothing is ahead
  · rcases h.keys source with heq | ⟨s, r', -, hlt, hle, -⟩
    · exact .inl heq
    · omega

theorem Replayed.take : Replayed ns (l.take n) n k c := by
  have htake : (l.take n).take k = l.take k := by rw [take_take, Nat.min_eq_left h.le]
  refine ⟨h.le, fun p => ?_, fun r source mode b hr hk => by rw [htake]; exact h.rename r source mode b hr.of_take hk⟩
  rw [htake]
  rcases h.keys p with heq | ⟨s, r, hs, hlt, hle, hahead, heff⟩
  · exact .inl heq
  · exact .inr ⟨s, r, hs.take hle, hlt, hle, hahead.take, heff⟩

theorem Replayed.mono {n' : Nat} (hn : n ≤ n') : Replayed ns l n' k c := by
  refine ⟨Nat.le_trans h.le hn, fun p => ?_, h.rename⟩
  rcases h.keys p with heq | ⟨s, r, hlog, hlt, hle, hahead, heff⟩
  · exact .inl heq
  · exact .inr ⟨s, r, hlog, hlt, Nat.le_trans hle hn, hahead, heff⟩

variable (himmutable : ∀ r ∈ l, r.fence = .immutableCreate → ∃ e b, r.kind = .put .create e b)
include himmutable

/-- The next record has taken effect: the prefix is longer by one. -/
theorem Replayed.succ (hn : k + 1 ≤ n) (hr : Logged l (k + 1) r) (hdone : ∀ p v, r.effect p = some v → c p = v) :
    Replayed ns l n (k + 1) c := by
  have hkeys : ∀ p, c p = applied (l.take (k + 1)) ns p ∨
      ∃ s r', Logged l s r' ∧ k + 1 < s ∧ s ≤ n ∧ Ahead l k s r' ∧ r'.effect p = some (c p) := by
    intro p
    by_cases htouch : p ∈ r.touchedKeys
    · obtain ⟨v, hv⟩ := Option.isSome_iff_exists.1 (MutationRecord.effect_isSome_iff.2 htouch)
      obtain ⟨i, hi, hget⟩ := hr
      cases Nat.succ.inj hi
      exact .inl ((hdone p v hv).trans (applied_take_succ hget hv).symm)
    rcases h.keys p with heq | ⟨s, r', hlog, hlt, hle, hahead, heff⟩
    · refine .inl (heq.trans (applied_take_of_untouched (Nat.le_succ k) fun i q hi hin hq => ?_).symm)
      rwa [Logged.unique ⟨i, by omega, hq⟩ hr]
    · refine .inr ⟨s, r', hlog, Nat.lt_of_le_of_ne hlt ?_, hle, hahead, heff⟩
      rintro rfl
      cases hlog.unique hr
      exact htouch (MutationRecord.mem_touchedKeys heff)
  refine ⟨hn, fun p => ?_, fun q source mode b hq hk => ?_⟩
  · rcases hkeys p with heq | ⟨s, r', hlog, hlt, hle, hahead, heff⟩
    · exact .inl heq
    · exact .inr ⟨s, r', hlog, hlt, hle, hahead.mono (Nat.le_succ k) hlt, heff⟩
  rcases hkeys source with heq | ⟨s, r', hlog, hlt, -, hahead, heff⟩
  · exact .inl heq
  -- only an immutable create was applied ahead
  rcases hahead with hnext | ⟨himm, hfree⟩
  · omega
  obtain ⟨e, b', hput⟩ := himmutable r' hlog.mem himm
  by_cases hs : s = k + 1 + 1
  · rw [← hs] at hq; cases hlog.unique hq; cases hk.symm.trans hput
  · have hsource := hfree _ q (by omega) (by omega) hq source (MutationRecord.mem_touchedKeys heff)
    exact absurd (by simp [MutationRecord.touchedKeys, hk]) hsource

theorem Replayed.add {d : Nat} (hn : k + d ≤ n)
    (hdone : ∀ s, k < s → s ≤ k + d → ∃ r, Logged l s r ∧ ∀ p v, r.effect p = some v → c p = v) :
    Replayed ns l n (k + d) c := by
  induction d with
  | zero => exact h
  | succ d ih =>
    obtain ⟨r, hr, heff⟩ := hdone (k + d + 1) (by omega) le_rfl
    exact (ih (by omega) fun s hs hle => hdone s hs (by omega)).succ himmutable hn hr heff

end Replayed

/-! ## Growing the journal -/

theorem LogOk.commitRecordBatch (h : LogOk l j) (n : Nat) :
    LogOk l (j.commitRecordBatch ((l.drop j.localSeq).take n)) := by
  have hlen : ((l.drop j.localSeq).take n).length = min n (l.length - j.localSeq) := by
    rw [length_take, length_drop]
  refine { h with remoteSeq_le := ?_, localSeq_le := ?_, rows := ?_ }
  · have := h.remoteSeq_le; simp only [Journal.commitRecordBatch]; omega
  · have := h.localSeq_le; simp only [Journal.commitRecordBatch, hlen]; omega
  obtain ⟨d, hd, hrows⟩ := h.rows
  refine ⟨d, hd, ?_⟩
  have hgrow : l.take (j.localSeq + min n (l.length - j.localSeq)) =
      l.take j.localSeq ++ (l.drop j.localSeq).take n := by
    rw [take_add]
    congr 1
    rw [← length_drop, take_eq_take_iff]
    omega
  simp only [Journal.commitRecordBatch, hlen, hrows, hgrow]
  rw [drop_append_of_le_length]
  have hr := h.remoteSeq_le
  have hl := h.localSeq_le
  rw [length_take]
  omega

variable {j' : Journal}

theorem DrainOk.grow (h : DrainOk l j sch) (hk : j'.remoteSeq = j.remoteSeq) (hl : j.localSeq ≤ j'.localSeq) :
    DrainOk l j' sch where
  window r hr := ⟨(h.window r hr).1, Nat.le_trans (h.window r hr).2 hl⟩
  next_pos := h.next_pos
  next_le := hk ▸ h.next_le
  marked := hk ▸ h.marked
  completed s c hc :=
    have ⟨hn, hle, hlog⟩ := h.completed s c hc
    ⟨hn, Nat.le_trans hle hl, hlog⟩
  active s f hf :=
    have ⟨hlt, hle, hlog, hnone⟩ := h.active s f hf
    ⟨hk ▸ hlt, Nat.le_trans hle hl, hlog, hnone⟩
  ahead := hk ▸ h.ahead
  ready := hk ▸ h.ready
  committing := hk ▸ h.committing
  idle := hk ▸ h.idle

theorem RemoteOk.grow (h : RemoteOk ns l j sch m) (hk : j'.remoteSeq = j.remoteSeq) (hl : j.localSeq ≤ j'.localSeq) :
    RemoteOk ns l j' sch m := ⟨hk ▸ h.replayed.mono hl, hk ▸ h.flight⟩

theorem LogOk.removeRemotePrefix {through : Nat} (h : LogOk l j) (hle : through ≤ j.remoteSeq) :
    LogOk l (j.removeRemotePrefix through) := by
  obtain ⟨d, hd, hrows⟩ := h.rows
  refine { h with rows := ⟨max d through, max_le hd hle, ?_⟩ }
  simp only [Journal.removeRemotePrefix, hrows]
  exact filter_drop h.sequence d through _

end Log

/-! ## What the scheduler dispatches -/

section Dispatch

variable {available first expected : Nat} {skip : Nat → Bool} {rs batch : List MutationRecord} {keys : List Path}
  {r : MutationRecord}

/-- A collected record follows its predecessors without a gap and touches none of their keys. -/
theorem mem_collectFrom (h : r ∈ collectFrom available first skip rs expected keys batch) :
    r ∈ batch ∨ r ∈ rs ∧ skip r.sequence = false ∧ (r.sequence = first ∨ r.fence = .immutableCreate) ∧
    expected ≤ r.sequence ∧
      (∀ k ∈ r.touchedKeys, k ∉ keys) ∧
      ∀ i, expected ≤ i → i < r.sequence → ∃ q ∈ rs, q.sequence = i ∧ ∀ k ∈ r.touchedKeys, k ∉ q.touchedKeys := by
  induction rs generalizing expected keys batch with
  | nil => exact .inl h
  | cons a rs ih =>
    unfold collectFrom at h
    split at h
    · exact .inl h
    rename_i hgo
    have ha : a.sequence = expected := by
      by_contra hne
      exact hgo (.inl hne)
    rcases ih h with hbatch | ⟨hmem, hskip, hfence, hle, hkeys, hbetween⟩
    · split at hbatch
      · rename_i htaken
        rcases mem_append.1 hbatch with hold | hnew
        · exact .inl hold
        cases mem_singleton.1 hnew
        simp only [Bool.and_eq_true, Bool.not_eq_true', any_eq_false, contains_iff_mem, Bool.or_eq_true,
          decide_eq_true_eq] at htaken
        obtain ⟨⟨hskip, hfree⟩, hfence⟩ := htaken
        exact .inr ⟨mem_cons_self, hskip, hfence, by omega, hfree, fun i hi hlt => by omega⟩
      · exact .inl hbatch
    · refine .inr ⟨mem_cons_of_mem _ hmem, hskip, hfence, by omega, fun k hk hin => ?_, fun i hi hlt => ?_⟩
      · exact hkeys k hk (mem_append_left _ hin)
      rcases Nat.eq_or_lt_of_le hi with heq | hlt'
      · exact ⟨a, mem_cons_self, by omega, fun k hk hin => hkeys k hk (mem_append_right _ hin)⟩
      · obtain ⟨q, hq, hqi, hfree⟩ := hbetween i (by omega) hlt
        exact ⟨q, mem_cons_of_mem _ hq, hqi, hfree⟩

theorem mem_collectPipelineBatch {records : List MutationRecord} {limit completed active : Nat}
    {isCompleted isActive : Nat → Bool}
    (h : r ∈ collectPipelineBatch records first limit completed active isCompleted isActive) :
    r ∈ records ∧ isCompleted r.sequence = false ∧ isActive r.sequence = false ∧ first ≤ r.sequence ∧
      (r.sequence = first ∨ r.fence = .immutableCreate) ∧
      ∀ i, first ≤ i → i < r.sequence → ∃ q ∈ records, q.sequence = i ∧ ∀ k ∈ r.touchedKeys, k ∉ q.touchedKeys := by
  unfold collectPipelineBatch at h
  dsimp only at h
  split at h
  all_goals first
    | cases h
    | (split at h
       · cases h)
  all_goals
    rcases mem_collectFrom h with hnil | ⟨hmem, hskip, hfence, hle, -, hbetween⟩
    · cases hnil
    simp only [Bool.or_eq_false_iff] at hskip
    refine ⟨(mem_filter.1 hmem).1, hskip.1, hskip.2, hle, hfence, fun i hi hlt => ?_⟩
    obtain ⟨q, hq, hqi, hfree⟩ := hbetween i hi hlt
    exact ⟨q, (mem_filter.1 hq).1, hqi, hfree⟩

theorem get_foldl_start {m : Table Nat (MutationRecord × Flight)} {s : Nat} {f : MutationRecord × Flight}
    (h : (batch.foldl (fun m r => m.put r.sequence (r, .start)) m).get s = some f) :
    m.get s = some f ∨ ∃ r ∈ batch, r.sequence = s ∧ f = (r, .start) := by
  induction batch generalizing m with
  | nil => exact .inl h
  | cons a batch ih =>
    rcases ih h with hold | ⟨r, hr, hs, hf⟩
    · rcases Table.cases_put hold with ⟨hsa, rfl⟩ | ⟨-, hold⟩
      · exact .inr ⟨a, mem_cons_self, hsa.symm, rfl⟩
      · exact .inl hold
    · exact .inr ⟨r, mem_cons_of_mem _ hr, hs, hf⟩

end Dispatch

/-! ## Moves of the scheduler -/

section Moves

variable {l : List MutationRecord} {j : Journal} {sch : Scheduler} {m : Remote} {ns : Namespace} {s : Nat}
  {r : MutationRecord} {f f' : Flight}

/-- Another scheduler with less in flight, whose window is from the journal too. -/
theorem DrainOk.fewer (h : DrainOk l j sch) {sch' : Scheduler} (hnext : sch'.next = sch.next)
    (hcompleted : sch'.completed = sch.completed) (hcommitting : sch'.committing = sch.committing)
    (hstopped : sch.stopped = true → sch'.stopped = true)
    (hwindow : ∀ r ∈ sch'.window, Logged l r.sequence r ∧ r.sequence ≤ j.localSeq)
    (hactive : ∀ {s r f}, sch'.active.get s = some (r, f) → ∃ f', sch.active.get s = some (r, f')) :
    DrainOk l j sch' where
  window := hwindow
  next_pos := hnext ▸ h.next_pos
  next_le := hnext ▸ h.next_le
  marked := by rw [hnext, hcompleted]; exact h.marked
  completed := by rw [hnext, hcompleted]; exact h.completed
  active s f hf := by
    obtain ⟨f', hf'⟩ := hactive hf
    rw [hcompleted]
    exact h.active s (f.1, f') hf'
  ahead s r f hr := by
    rcases hr with hf | hc
    · obtain ⟨f', hf'⟩ := hactive hf; exact h.ahead s r f' (.inl hf')
    · rw [hcompleted] at hc; exact h.ahead s r f (.inr hc)
  ready := by rw [hnext, hcommitting, hcompleted]; exact h.ready
  committing := by rw [hnext, hcommitting]; exact h.committing
  idle hnone hgo := by
    rw [hcommitting] at hnone
    rw [hnext]
    refine h.idle hnone ?_
    cases hs : sch.stopped with
    | false => rfl
    | true => rw [hstopped hs] at hgo; cases hgo

theorem DrainOk.setFlight (h : DrainOk l j sch) (hs : sch.active.get s = some (r, f)) (f' : Flight) :
    DrainOk l j { sch with active := sch.active.put s (r, f') } := by
  refine h.fewer rfl rfl rfl id h.window fun {s' r' f''} hf'' => ?_
  rcases Table.cases_put hf'' with ⟨rfl, heq⟩ | ⟨-, hf''⟩
  · cases heq; exact ⟨f, hs⟩
  · exact ⟨f'', hf''⟩

/-- The attempt at one record goes on, and the others are where they were. -/
theorem DrainOk.inHand_setFlight {s' : Nat} {r' : MutationRecord} {f'' : Flight} (hd : DrainOk l j sch)
    (hs : sch.active.get s = some (r, f))
    (h : InHand j.remoteSeq { sch with active := sch.active.put s (r, f') } s' r' f'') :
    (r', f'') = (r, f') ∨ s' ≠ s ∧ InHand j.remoteSeq sch s' r' f'' := by
  rcases h with hf | ⟨hlt, tag, hc, hf⟩
  · rcases Table.cases_put hf with ⟨-, heq⟩ | ⟨hne, hf⟩
    · exact .inl heq
    · exact .inr ⟨hne, .inl hf⟩
  refine .inr ⟨?_, .inr ⟨hlt, tag, hc, hf⟩⟩
  rintro rfl
  cases hc.symm.trans (hd.active s' _ hs).2.2.2

theorem RemoteOk.fewer (h : RemoteOk ns l j sch m) {sch' : Scheduler}
    (hin : ∀ {s r f}, InHand j.remoteSeq sch' s r f → InHand j.remoteSeq sch s r f) : RemoteOk ns l j sch' m :=
  ⟨h.replayed, fun s r f hf => h.flight s r f (hin hf)⟩

theorem RemoteOk.setFlight (h : RemoteOk ns l j sch m) (hd : DrainOk l j sch) (hs : sch.active.get s = some (r, f))
    (hf : FlightOk m r f') : RemoteOk ns l j { sch with active := sch.active.put s (r, f') } m := by
  refine ⟨h.replayed, fun s' r' f'' hin => ?_⟩
  rcases hd.inHand_setFlight hs hin with heq | ⟨-, hin⟩
  · cases heq; exact hf
  · exact h.flight s' r' f'' hin

/-- The record that the scheduler has in flight takes effect at one of its keys. -/
theorem RemoteOk.touch (h : RemoteOk ns l j sch m) (hd : DrainOk l j sch) (hs : sch.active.get s = some (r, f))
    {m' : Remote} {k : Path} {v : Option Payload} (hk : r.effect k = some v) (hput : m'.contents k = v)
    (hother : ∀ p, p ≠ k → m'.contents p = m.contents p) (hf : FlightOk m' r f')
    (hren : ∀ source mode b, r.kind = .rename source mode b → m'.contents r.path = some b) :
    RemoteOk ns l j { sch with active := sch.active.put s (r, f') } m' := by
  have hin : InHand j.remoteSeq sch s r f := .inl hs
  have hkey := MutationRecord.mem_touchedKeys hk
  have hahead := hd.ahead s r f hin
  obtain ⟨hlog, hlt, hle⟩ := hin.logged hd
  refine ⟨⟨h.replayed.le, fun p => ?_, fun r' source mode b hr' hk' => ?_⟩, fun s' r' f'' hin' => ?_⟩
  · by_cases hp : p = k
    · subst hp; exact .inr ⟨s, r, hlog, hlt, hle, hahead, by rw [hput, hk]⟩
    · rw [hother p hp]; exact h.replayed.keys p
  · by_cases hnext : s = j.remoteSeq + 1
    · rw [← hnext] at hr'; cases hlog.unique hr'; exact .inr (hren source mode b hk')
    have hapart : ∀ p ∈ r'.touchedKeys, m'.contents p = m.contents p := by
      intro p hp
      refine hother p fun hpk => ?_
      subst hpk
      exact Ahead.disjoint (.inl rfl) hahead hr' hlog (Nat.lt_succ_self _) hlt (Ne.symm hnext) hp hkey
    rw [hapart source (by simp [MutationRecord.touchedKeys, hk']),
      hapart r'.path (by simp [MutationRecord.touchedKeys, hk'])]
    exact h.replayed.rename r' source mode b hr' hk'
  rcases hd.inHand_setFlight hs hin' with heq | ⟨hne, hin'⟩
  · cases heq; exact hf
  -- the keys of the other records in hand are left alone
  have hsame : ∀ p ∈ r'.touchedKeys, m'.contents p = m.contents p := by
    intro p hp
    refine hother p fun hpk => ?_
    subst hpk
    exact hin'.disjoint hin hd hne hp hkey
  have hold := h.flight s' r' f'' hin'
  cases f'' with
  | start => trivial
  | put mode | verify => exact hold
  | remove target tag =>
    rcases hold with hdel | ⟨mode, b, hren, hput'⟩
    · exact .inl hdel
    refine .inr ⟨mode, b, hren, ?_⟩
    rw [hsame r'.path (by simp [MutationRecord.touchedKeys, hren])]
    exact hput'
  | done tag => intro p v' hv'; rw [hsame p (MutationRecord.mem_touchedKeys hv')]; exact hold p v' hv'

theorem readyRun_get {completed : Table Nat Completion} {fuel n i : Nat} {c : Completion}
    (h : (readyRun completed fuel n)[i]? = some c) : completed.get (n + i) = some c := by
  induction fuel generalizing n i with
  | zero => cases h
  | succ fuel ih =>
    unfold readyRun at h
    split at h
    · cases h
    rename_i c' hc'
    cases i with
    | zero => cases h; exact hc'
    | succ i => have := ih h; rwa [Nat.add_assoc, Nat.add_comm 1] at this

end Moves

end ZeroFS.Writeback
