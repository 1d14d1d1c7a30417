import ZeroFS.Lib.Slots
import ZeroFS.Volatile.File

/-!
# What holds in every state of an inode

`Ok`: the size is that of the submitted writes and the bytes are those of the committed ones, in staging order. A plan
sees the sizes of all writes before it, since the inode lock is held until they are submitted. Replayed calls have the
payload of a published write.
-/

namespace ZeroFS.Volatile

open List Option Machine Slots Writer

open SparseFile (written latest)

namespace Writer

variable (w : Writer)

/-- The writer has an entry in the log. -/
@[simp]
def isStaged : Bool :=
  match w.phase with
  | .staged | .previewed | .published | .recorded | .accepted | .submitted | .committed | .settled
  | .completed | .retired
  | .rolledBack | .removed => true
  | _ => false

/-- The lane has not begun with the entry. -/
@[simp]
def isWaiting : Bool :=
  match w.phase with
  | .staged | .previewed | .published | .recorded | .accepted | .rolledBack => true
  | _ => false

/-- The entry has left the runtime. -/
@[simp]
def isGone : Bool :=
  match w.phase with
  | .retired | .removed => true
  | _ => false

/-- The sizes are decided, and the batch is not submitted. -/
@[simp]
def isPlanned : Bool :=
  match w.phase with
  | .prepared | .staged | .previewed | .published | .recorded | .accepted => !w.batch.replayed
  | _ => false

@[simp]
def isSubmitted : Bool :=
  match w.phase with
  | .submitted | .committed | .settled | .completed | .retired => !w.batch.replayed
  | _ => false

@[simp]
def isCommitted : Bool :=
  match w.phase with
  | .committed | .settled | .completed | .retired => !w.batch.replayed
  | _ => false

/-- A published write of its own. -/
@[simp]
def isEffective : Bool := w.isPublished && !w.batch.replayed

variable {w}

theorem planned_or_submitted (h : w.isEffective = true) : w.isPlanned = true ∨ w.isSubmitted = true := by
  cases hp : w.phase <;> simp_all

theorem holdsLock_of_planned (h : w.isPlanned = true) : w.holdsLock = true := by
  cases hp : w.phase <;> simp_all

theorem submitted_of_committed (h : w.isCommitted = true) : w.isSubmitted = true := by
  cases hp : w.phase <;> simp_all

theorem not_submitted_of_waiting (h : w.isWaiting = true) : w.isSubmitted = false := by
  cases hp : w.phase <;> simp_all

theorem effective_of_submitted (h : w.isSubmitted = true) : w.isEffective = true := by
  cases hp : w.phase <;> simp_all

theorem staged_of_published (h : w.isPublished = true) : w.isStaged = true := by
  cases hp : w.phase <;> simp_all

theorem not_published_of_refusable (h : w.isRefusable = true) : w.isPublished = false := by
  cases hp : w.phase <;> simp_all

theorem committed_of_gone (h : w.isEffective = true) (hgone : w.isGone = true) : w.isCommitted = true := by
  cases hp : w.phase <;> simp_all

end Writer

namespace FileState

/-- The entry of a writer that is selected. -/
def pick (s : FileState) (p : Writer → Bool) (k : Nat) : Option OverlayEntry :=
  (s.writers[k]?).bind fun w => if p w then some w.request.entry else none

def writesWith (s : FileState) (p : Writer → Bool) : List (Nat × List UInt8) := s.log.filterMap (s.pick p)

/-- Some effective write has carried out the operation. -/
def Carried (s : FileState) (op a : Nat) : Prop :=
  ∃ j v, s.At j v ∧ v.isEffective = true ∧ v.request.op = op ∧ a ≤ v.batch.attrsSize

/-- What the phase of a writer says of the file. -/
structure WriterOk (s : FileState) (k : Nat) (w : Writer) : Prop where
  lock : w.holdsLock = true ↔ s.lock = some k
  logged : w.isStaged = true ↔ k ∈ s.log
  nonempty : w.isStaged = true → w.request.data ≠ []
  planned : w.isPlanned = true → w.request.data ≠ [] → w.batch.newSize = max s.file.size w.request.stop ∧
    (w.batch.republish = false → w.batch.newSize = s.file.size) ∧ w.batch.attrsSize ≤ w.batch.newSize
  submitted : w.isSubmitted = true → w.request.stop ≤ s.file.size ∧ w.batch.attrsSize ≤ s.file.size
  loaded : w.phase = .loaded ∨ w.phase = .measured → w.canonical = s.file.size
  measured : w.phase = .measured → w.dirty ≤ s.file.size
  live : w.phase = .submitted → w.batch.replayed = false
  replay : w.batch.replayed = true → w.request.op ≠ 0 ∧ Carried s w.request.op w.batch.attrsSize

/-- What every run keeps. -/
structure Ok (f₀ : SparseFile) (s : FileState) : Prop where
  writer : ∀ k w, s.At k w → WriterOk s k w
  locked : ∀ k, s.lock = some k → ∃ w, s.At k w
  logged : ∀ k ∈ s.log, ∃ w, s.At k w
  nodup : s.log.Nodup
  lane : ∃ past, s.log = past ++ s.entries ∧ ∀ k ∈ past, ∃ w, s.At k w ∧ w.isGone = true
  waiting : ∀ k ∈ s.entries.tail, ∃ w, s.At k w ∧ w.isWaiting = true
  size : s.file.size = (f₀.writeAll (s.writesWith isSubmitted)).size
  bytes : ∀ p, s.file.byte p = (f₀.writeAll (s.writesWith isCommitted)).byte p
  recorded : ∀ op a, s.recorded.get op = some a → op ≠ 0 ∧ Carried s op a
  payload : ∀ j k v w, s.At j v → s.At k w → w.request.op ≠ 0 →
    v.request.op = w.request.op → v.request.samePayload w.request = true

section

variable {f₀ : SparseFile} {s s' : FileState} {i k n a op : Nat} {w w' v : Writer} {p : Writer → Bool}

theorem pick_eq_some {e : OverlayEntry} (h : s.pick p k = some e) :
    ∃ v, s.At k v ∧ p v = true ∧ e = v.request.entry := by
  obtain ⟨v, hv, hp, he⟩ := of_slot h
  cases he
  exact ⟨v, hv, hp, rfl⟩

theorem pick_of (hv : s.At k v) (hp : p v = true) : s.pick p k = some v.request.entry := by
  rw [pick, hv, bind_some, if_pos hp]

theorem pick_of_not (hv : s.At k v) (hp : p v = false) : s.pick p k = none := by
  rw [pick, hv, bind_some, if_neg (by rw [hp]; decide)]

theorem snapshot_eq (s : FileState) : s.snapshot = s.entries.filterMap (s.pick Writer.isPublished) := by
  unfold snapshot
  rw [filterMap_filter]
  refine filterMap_congr fun k _ => ?_
  unfold FileState.isPublished request pick
  cases s.writers[k]? with
  | none => rfl
  | some v => cases hp : Writer.isPublished v <;> simp only [any_some, map_some, bind_some, hp]

/-! ## Sizes under the lock -/

/-- While a writer holds the lock and has not planned yet, every effective write is submitted. -/
theorem Ok.effective_submitted (h : Ok f₀ s) (hw : s.At i w) (hlock : w.holdsLock = true) (hplan : w.isPlanned = false)
    (hv : s.At k v) (heff : v.isEffective = true) : v.isSubmitted = true := by
  rcases planned_or_submitted heff with hp | hs
  · have hk := (h.writer k v hv).lock.1 (holdsLock_of_planned hp)
    have hi := (h.writer i w hw).lock.1 hlock
    cases hi.symm.trans hk
    cases hw.symm.trans hv
    cases hplan.symm.trans hp
  · exact hs

theorem samePayload_stop {a b : IdentifiedWrite} (h : a.samePayload b = true) :
    a.entry = b.entry ∧ a.stop = b.stop := by
  unfold IdentifiedWrite.samePayload at h
  simp only [Bool.and_eq_true, decide_eq_true_eq] at h
  unfold IdentifiedWrite.entry IdentifiedWrite.stop
  rw [h.1.2, h.2]
  exact ⟨rfl, rfl⟩

/-- A published write ends below every bound of the effective ones. -/
theorem Ok.published_le (h : Ok f₀ s)
    (hn : ∀ k v, s.At k v → v.isEffective = true → v.request.stop ≤ n ∧ v.batch.attrsSize ≤ n)
    (hv : s.At k v) (hpub : v.isPublished = true) : v.request.stop ≤ n ∧ v.batch.attrsSize ≤ n := by
  cases hrep : v.batch.replayed with
  | false => exact hn k v hv (by rw [isEffective, hpub, hrep]; rfl)
  | true =>
    obtain ⟨hop, j, u, hu, heff, heq, hle⟩ := (h.writer k v hv).replay hrep
    have := hn j u hu heff
    have hsame := (samePayload_stop (h.payload j k u v hu hv hop heq)).2
    exact ⟨by omega, by omega⟩

theorem mem_snapshot {e : OverlayEntry} (he : e ∈ s.snapshot) :
    ∃ k v, k ∈ s.entries ∧ s.At k v ∧ v.isPublished = true ∧ e = v.request.entry := by
  rw [snapshot_eq] at he
  obtain ⟨k, hk, hpick⟩ := mem_filterMap.1 he
  obtain ⟨v, hv, hpub, rfl⟩ := pick_eq_some hpick
  exact ⟨k, v, hk, hv, hpub, rfl⟩

theorem foldl_max_le {l : List Nat} (ha : a ≤ n) (h : ∀ x ∈ l, x ≤ n) : l.foldl max a ≤ n := by
  induction l generalizing a with
  | nil => exact ha
  | cons x l ih => have := h x (by simp); exact ih (by omega) fun y hy => h y (by simp [hy])

theorem le_foldl_max {l : List Nat} (h : n ≤ a ∨ n ∈ l) : n ≤ l.foldl max a := by
  induction l generalizing a with
  | nil => exact h.resolve_right (by simp)
  | cons x l ih =>
    refine ih ?_
    rcases h with h | h
    · exact .inl (by omega)
    rcases mem_cons.1 h with rfl | h
    · exact .inl (by omega)
    · exact .inr h

theorem dirtyEnd_le (hn : ∀ k v, s.At k v → v.isPublished = true → v.request.stop ≤ n) :
    s.dirtyEnd ≤ n := by
  refine foldl_max_le (Nat.zero_le n) fun x hx => ?_
  obtain ⟨e, he, rfl⟩ := mem_map.1 hx
  obtain ⟨k, v, -, hv, hpub, rfl⟩ := mem_snapshot he
  exact hn k v hv hpub

theorem stop_le_dirtyEnd (hk : k ∈ s.entries) (hv : s.At k v) (hpub : v.isPublished = true) :
    v.request.stop ≤ s.dirtyEnd := by
  refine le_foldl_max (.inr (mem_map.2 ⟨v.request.entry, ?_, rfl⟩))
  rw [snapshot_eq]
  exact mem_filterMap.2 ⟨k, hk, pick_of hv hpub⟩

theorem attrsSize_le (hn : ∀ k v, s.At k v → v.isPublished = true → v.batch.attrsSize ≤ n) :
    s.attrsSize ≤ n := by
  unfold attrsSize
  cases hf : s.latestAttrs.reverse.find? s.isPublished with
  | none => exact Nat.zero_le n
  | some k =>
    have hpub := find?_some hf
    unfold isPublished at hpub
    cases hv : s.writers[k]? with
    | none => simp [hv]
    | some v => rw [hv] at hpub; simp only [bind_some, hv, elim_some]; exact hn k v hv hpub

/-- **A plan sees the size of all writes before it.** -/
theorem Ok.measured_le (h : Ok f₀ s) (hw : s.At i w) (hlock : w.holdsLock = true) (hplan : w.isPlanned = false) :
    s.dirtyEnd ≤ s.file.size ∧ s.attrsSize ≤ s.file.size := by
  have hn : ∀ k v, s.At k v → v.isEffective = true →
      v.request.stop ≤ s.file.size ∧ v.batch.attrsSize ≤ s.file.size :=
    fun k v hv heff => (h.writer k v hv).submitted (h.effective_submitted hw hlock hplan hv heff)
  exact ⟨dirtyEnd_le fun k v hv hpub => (h.published_le hn hv hpub).1,
    attrsSize_le fun k v hv hpub => (h.published_le hn hv hpub).2⟩

/-! ## Replacing one writer -/

/-- One writer changes; a write that has taken effect keeps its batch. -/
structure Swap (s s' : FileState) (i : Nat) (w w' : Writer) : Prop where
  get : s.At i w
  set : s'.writers = s.writers.set i w'
  request : w'.request = w.request
  kept : w.isEffective = true → w'.isEffective = true ∧ w'.batch = w.batch

/-- The file, the log and the entries stay. -/
structure Same (s s' : FileState) : Prop where
  file : s'.file = s.file
  log : s'.log = s.log
  entries : s'.entries = s.entries

/-- The lock and the ledger stay too. -/
structure Still (s s' : FileState) : Prop extends Same s s' where
  lock : s'.lock = s.lock
  recorded : s'.recorded = s.recorded

/-- What is recorded anew has been carried out. -/
def Learns (s s' : FileState) : Prop :=
  ∀ op a, s'.recorded.get op = some a → s.recorded.get op = some a ∨ (op ≠ 0 ∧ Carried s' op a)

theorem Learns.same (h : s'.recorded = s.recorded) : Learns s s' := fun op a hop => .inl (by rw [← h]; exact hop)

theorem Carried.swap (h : Carried s op a) (hx : Swap s s' i w w') : Carried s' op a := by
  refine any_set hx.set hx.get (fun ⟨hex, hop, hle⟩ => ?_) h
  obtain ⟨heff, hbatch⟩ := hx.kept hex
  exact ⟨heff, by rw [hx.request, hop], by rw [hbatch]; exact hle⟩

theorem Swap.writesWith (hx : Swap s s' i w w') (hp : p w' = p w) (hlog : s'.log = s.log) :
    s'.writesWith p = s.writesWith p := by
  unfold FileState.writesWith
  rw [hlog]
  refine filterMap_congr fun k _ => ?_
  rw [pick, pick]
  by_cases hk : k = i
  · subst hk; simp only [get_set_self hx.set hx.get, hx.get, bind_some, hp, hx.request]
  · rw [get_set_ne hx.set hk]

/-- What a step of another writer leaves of a writer. -/
theorem WriterOk.other (h : WriterOk s k v) (hlock : s'.lock = some k ↔ s.lock = some k) (hlog : k ∈ s'.log ↔ k ∈ s.log)
    (hsize : s'.file.size = s.file.size) (hcar : ∀ op a, Carried s op a → Carried s' op a) : WriterOk s' k v where
  lock := by rw [hlock]; exact h.lock
  logged := by rw [hlog]; exact h.logged
  nonempty := h.nonempty
  planned := by rw [hsize]; exact h.planned
  submitted := by rw [hsize]; exact h.submitted
  loaded := by rw [hsize]; exact h.loaded
  measured := by rw [hsize]; exact h.measured
  live := h.live
  replay hr := (h.replay hr).imp_right (hcar _ _)

/-- A writer that is staged afterwards. -/
theorem WriterOk.late (h : WriterOk s i w) (hx : Swap s s' i w w') (hbatch : w'.batch = w.batch)
    (hstaged : w'.isStaged = true) (hlog : i ∈ s'.log) (hdata : w.request.data ≠ [])
    (hlock : w'.holdsLock = true ↔ s'.lock = some i)
    (hplanned : w'.isPlanned = true → w.isPlanned = true ∧ s'.file.size = s.file.size)
    (hsubmitted : w'.isSubmitted = true → w.request.stop ≤ s'.file.size ∧ w.batch.attrsSize ≤ s'.file.size)
    (hlive : w'.phase = .submitted → w.batch.replayed = false) : WriterOk s' i w' where
  lock := hlock
  logged := ⟨fun _ => hlog, fun _ => hstaged⟩
  nonempty _ := by rw [hx.request]; exact hdata
  planned hp := by
    obtain ⟨hp, hsize⟩ := hplanned hp
    rw [hbatch, hx.request, hsize]
    exact h.planned hp
  submitted := by rw [hx.request, hbatch]; exact hsubmitted
  loaded hl := by rcases hl with hl | hl <;> simp [hl] at hstaged
  measured hl := by simp [hl] at hstaged
  live := by rw [hbatch]; exact hlive
  replay hr := by
    rw [hbatch] at hr ⊢
    rw [hx.request]
    exact (h.replay hr).imp_right fun hex => Carried.swap hex hx

/-- A step of one writer. -/
theorem Ok.change (h : Ok f₀ s) (hx : Swap s s' i w w') (hself : WriterOk s' i w')
    (hother : ∀ k v, k ≠ i → s.At k v → WriterOk s' k v) (hlocked : ∀ k, k ≠ i → s'.lock = some k → s.lock = some k)
    (hlogged : ∀ k ∈ s'.log, k ≠ i → k ∈ s.log) (hnodup : s'.log.Nodup)
    (hlane : ∃ past, s'.log = past ++ s'.entries ∧ ∀ k ∈ past, ∃ w, s'.At k w ∧ w.isGone = true)
    (hwait : i ∈ s'.entries.tail → w'.isWaiting = true) (hwaiting : ∀ k ∈ s'.entries.tail, k ≠ i → k ∈ s.entries.tail)
    (hsize : s'.file.size = (f₀.writeAll (s'.writesWith isSubmitted)).size)
    (hbytes : ∀ p, s'.file.byte p = (f₀.writeAll (s'.writesWith isCommitted)).byte p) (hrec : Learns s s') :
    Ok f₀ s' where
  writer := forall_set hx.set hx.get hself hother
  locked k hk := some_set hx.set hx.get fun hki => h.locked k (hlocked k hki hk)
  logged k hk := some_set hx.set hx.get fun hki => h.logged k (hlogged k hk hki)
  nodup := hnodup
  lane := hlane
  waiting k hk := by
    by_cases hki : k = i
    · subst hki; exact ⟨w', get_set_self hx.set hx.get, hwait hk⟩
    · obtain ⟨v, hv⟩ := h.waiting k (hwaiting k hk hki); exact ⟨v, (get_set_ne hx.set hki).trans hv.1, hv.2⟩
  size := hsize
  bytes := hbytes
  recorded op a hop := by
    rcases hrec op a hop with hold | hnew
    · exact (h.recorded op a hold).imp_right fun hex => Carried.swap hex hx
    · exact hnew
  payload j k v u hv hu hne hop := by
    have hold : ∀ {k v}, s'.At k v → ∃ v', s.At k v' ∧ v'.request = v.request := by
      intro k v hv
      rcases cases_set hx.set hx.get hv with ⟨rfl, rfl⟩ | ⟨-, hv⟩
      · exact ⟨w, hx.get, hx.request.symm⟩
      · exact ⟨v, hv, rfl⟩
    obtain ⟨v', hv', hvr⟩ := hold hv
    obtain ⟨u', hu', hur⟩ := hold hu
    rw [← hvr, ← hur] at hop ⊢
    exact h.payload j k v' u' hv' hu' (by rw [hur]; exact hne) hop

/-- **A step of one writer** that leaves the size, the log and the entries alone. -/
theorem Ok.setBytes (h : Ok f₀ s) (hx : Swap s s' i w w') (hsize : s'.file.size = s.file.size) (hlog : s'.log = s.log)
    (hentries : s'.entries = s.entries) (hgone : w.isGone = true → w'.isGone = true)
    (hwait : i ∈ s.entries.tail → w'.isWaiting = true) (hsub : w'.isSubmitted = w.isSubmitted)
    (hbytes : ∀ p, s'.file.byte p = (f₀.writeAll (s'.writesWith isCommitted)).byte p)
    (hlock : ∀ k, k ≠ i → (s'.lock = some k ↔ s.lock = some k)) (hrec : Learns s s') (hself : WriterOk s' i w') :
    Ok f₀ s' := by
  refine h.change hx hself (fun k v hk hv => ?_) (fun k hk => (hlock k hk).1) (fun k hk _ => by rw [← hlog]; exact hk)
    (by rw [hlog]; exact h.nodup) ?_ (by rw [hentries]; exact hwait) (fun k hk _ => by rw [← hentries]; exact hk)
    ?_ hbytes hrec
  · exact (h.writer k v hv).other (hlock k hk) (by rw [hlog]) hsize fun _ _ hc => hc.swap hx
  · obtain ⟨past, hpast, hall⟩ := h.lane
    exact ⟨past, by rw [hlog, hentries, hpast], fun k hk => exists_set hx.set hx.get hgone (hall k hk)⟩
  · rw [hsize, hx.writesWith hsub hlog]; exact h.size

/-- A step of one writer that leaves the file, the log and the entries alone. -/
theorem Ok.set (h : Ok f₀ s) (hx : Swap s s' i w w') (hsame : Same s s') (hgone : w.isGone = true → w'.isGone = true)
    (hwait : i ∈ s.entries.tail → w'.isWaiting = true) (hsub : w'.isSubmitted = w.isSubmitted)
    (hcom : w'.isCommitted = w.isCommitted) (hlock : ∀ k, k ≠ i → (s'.lock = some k ↔ s.lock = some k))
    (hrec : Learns s s') (hself : WriterOk s' i w') : Ok f₀ s' :=
  h.setBytes hx (by rw [hsame.file]) hsame.log hsame.entries hgone hwait hsub
    (fun p => by rw [hsame.file, hx.writesWith hcom hsame.log]; exact h.bytes p) hlock hrec hself

/-! ## Steps of a call -/

/-- What the invariant says about the place of a writer. -/
def standing (w : Writer) : Bool × Bool × Bool × Bool × Bool × Bool :=
  (w.holdsLock, w.isStaged, w.isGone, w.isPlanned, w.isSubmitted, w.isCommitted)

/-- **A writer that moves to a phase of the same standing.** -/
theorem Ok.advance (h : Ok f₀ s) (hx : Swap s s' i w w') (hbatch : w'.batch = w.batch) (hsame : Same s s')
    (hlock : s'.lock = s.lock) (hstanding : standing w' = standing w)
    (hloaded : w'.phase = .loaded ∨ w'.phase = .measured → w'.canonical = s.file.size)
    (hmeasured : w'.phase = .measured → w'.dirty ≤ s.file.size) (hlive : w'.phase ≠ .submitted)
    (hwait : i ∈ s.entries.tail → w'.isWaiting = true) (hrec : Learns s s') : Ok f₀ s' := by
  have hok := h.writer i w hx.get
  simp only [standing, Prod.mk.injEq] at hstanding
  obtain ⟨hholds, hstaged, hgone, hplanned, hsub, hcom⟩ := hstanding
  refine h.set hx hsame (by rw [hgone]; exact id) hwait hsub hcom (fun k _ => by rw [hlock]) hrec ?_
  exact {
    lock := by rw [hholds, hlock]; exact hok.lock
    logged := by rw [hstaged, hsame.log]; exact hok.logged
    nonempty := by rw [hstaged, hx.request]; exact hok.nonempty
    planned := by rw [hplanned, hbatch, hx.request, hsame.file]; exact hok.planned
    submitted := by rw [hsub, hbatch, hx.request, hsame.file]; exact hok.submitted
    loaded := by rw [hsame.file]; exact hloaded
    measured := by rw [hsame.file]; exact hmeasured
    live := fun hp => absurd hp hlive
    replay := fun hr => by
      rw [hbatch] at hr ⊢
      rw [hx.request]
      exact (hok.replay hr).imp_right fun hex => Carried.swap hex hx }

theorem Ok.not_mem_tail (h : Ok f₀ s) (hw : s.At i w) (hwait : w.isWaiting = false) : i ∉ s.entries.tail := by
  intro hi
  obtain ⟨v, hv, hvwait⟩ := h.waiting i hi
  cases hw.symm.trans hv
  cases hwait.symm.trans hvwait

theorem Ok.mem_log_of_mem_entries (h : Ok f₀ s) (hk : k ∈ s.entries) : k ∈ s.log := by
  obtain ⟨past, hpast, -⟩ := h.lane
  rw [hpast]
  exact mem_append_right _ hk

theorem Ok.not_mem_log (h : Ok f₀ s) (hw : s.At i w) (hstaged : w.isStaged = false) : i ∉ s.log := fun hi =>
  nomatch hstaged.symm.trans ((h.writer i w hw).logged.2 hi)

theorem Ok.not_mem_entries (h : Ok f₀ s) (hw : s.At i w) (hstaged : w.isStaged = false) : i ∉ s.entries := fun hi =>
  h.not_mem_log hw hstaged (h.mem_log_of_mem_entries hi)

theorem Ok.not_mem_rest (h : Ok f₀ s) {rest : List Nat} (hentries : s.entries = i :: rest) : i ∉ rest := by
  obtain ⟨past, hpast, -⟩ := h.lane
  have hnodup := h.nodup
  rw [hpast, hentries] at hnodup
  exact (nodup_cons.1 (nodup_append.1 hnodup).2.1).1

theorem Ok.not_mem_tail_of_head (h : Ok f₀ s) (hhead : s.entries.head? = some i) : i ∉ s.entries.tail := by
  obtain ⟨rest, hentries⟩ := head?_eq_some_iff.1 hhead
  rw [hentries]
  exact h.not_mem_rest hentries

/-- The entry with which the lane is busy is the first one. -/
theorem Ok.head (h : Ok f₀ s) (hw : s.At i w) (hstaged : w.isStaged = true) (hgone : w.isGone = false)
    (hwait : w.isWaiting = false) : ∃ rest, s.entries = i :: rest := by
  obtain ⟨past, hpast, hall⟩ := h.lane
  have hmem := (h.writer i w hw).logged.1 hstaged
  rw [hpast] at hmem
  rcases mem_append.1 hmem with hi | hi
  · obtain ⟨v, hv, hvgone⟩ := hall i hi; cases hw.symm.trans hv; cases hgone.symm.trans hvgone
  have htail := h.not_mem_tail hw hwait
  cases he : s.entries with
  | nil => rw [he] at hi; cases hi
  | cons e rest =>
    rw [he] at hi htail
    rcases mem_cons.1 hi with rfl | hi
    · exact ⟨rest, rfl⟩
    · exact absurd hi htail

/-- The phases that count as the same for the invariant, whatever the batch is. -/
def moves (p q : WritePhase) : Bool :=
  [true, false].all fun replayed =>
    let at' (phase : WritePhase) : Writer :=
      { request := ⟨0, 0, [], .nbd 0 0, .oneShot⟩, phase := phase, batch := { replayed := replayed } }
    decide (standing (at' q) = standing (at' p)) && (!(at' p).isEffective || (at' q).isEffective) &&
      (!(at' p).isWaiting || (at' q).isWaiting) && decide (q ≠ .submitted)

theorem Ok.move (h : Ok f₀ s) (hw : s.At i w) (hmoves : moves w.phase w'.phase = true)
    (hs : s'.writers = s.writers.set i w') (hreq : w'.request = w.request) (hbatch : w'.batch = w.batch)
    (hsame : Same s s') (hlock : s'.lock = s.lock)
    (hloaded : w'.phase = .loaded ∨ w'.phase = .measured → w'.canonical = s.file.size)
    (hmeasured : w'.phase = .measured → w'.dirty ≤ s.file.size) (hrec : Learns s s') : Ok f₀ s' := by
  have hm := all_eq_true.1 hmoves w.batch.replayed (by cases w.batch.replayed <;> simp)
  simp only [Bool.and_eq_true, decide_eq_true_eq, Bool.or_eq_true, Bool.not_eq_true'] at hm
  obtain ⟨⟨⟨hstanding, heff⟩, hwait⟩, hlive⟩ := hm
  have hstanding' : standing w' = standing w := by
    simpa [standing, hbatch] using hstanding
  refine h.advance ⟨hw, hs, hreq, fun he => ⟨?_, hbatch⟩⟩ hbatch hsame hlock hstanding' hloaded hmeasured hlive
    (fun hi => ?_) hrec
  · have : w'.isEffective = (Writer.isPublished w' && !w.batch.replayed) := by rw [isEffective, hbatch]
    exact this.trans (heff.resolve_left fun hno => nomatch hno.symm.trans he)
  · exact hwait.resolve_left fun hno => h.not_mem_tail hw hno hi

/-- The call neither holds the lock nor has it decided anything. -/
def isOutside : WritePhase → Bool
  | .called | .consulted | .pending | .reserved | .checked | .joined | .answered | .refused => true
  | _ => false

theorem standing_outside (h : isOutside w.phase = true) :
    standing w = (false, false, false, false, false, false) ∧ w.isPublished = false := by
  unfold isOutside at h
  cases hp : w.phase <;> simp_all [standing]

theorem Ok.outside (h : Ok f₀ s) (hw : s.At i w) (hout : isOutside w.phase = true) {next : WritePhase}
    (hnext : isOutside next = true) (hs : s'.writers = s.writers.set i { w with phase := next }) (hstill : Still s s') :
    Ok f₀ s' := by
  obtain ⟨hst, hpub⟩ := standing_outside hout
  have hstaged : w.isStaged = false := (Prod.mk.inj (Prod.mk.inj hst).2).1
  refine h.advance ⟨hw, hs, rfl, by rw [isEffective, hpub]; exact nofun⟩ rfl hstill.toSame hstill.lock
    ((standing_outside hnext).1.trans hst.symm) ?_ ?_ ?_
    (fun hi => absurd (mem_of_mem_tail hi) (h.not_mem_entries hw hstaged)) (.same hstill.recorded)
  all_goals cases next <;> simp_all [isOutside]

theorem Ok.call (h : Ok f₀ s) {request : IdentifiedWrite}
    (hsame : ∀ v ∈ s.writers, request.op ≠ 0 → v.request.op = request.op → v.request.samePayload request = true) :
    Ok f₀ { s with writers := s.writers ++ [{ request := request }] } := by
  have hnew : ∀ {k : Nat}, (∃ w, s.At k w) → k ≠ s.writers.length := fun ⟨_, hw⟩ => ne_length hw
  have hcar : ∀ op a, Carried s op a → Carried { s with writers := s.writers ++ [{ request := request }] } op a :=
    fun op a ⟨j, v, hv, hrest⟩ => ⟨j, v, get_snoc hv, hrest⟩
  have hwrites : ∀ p, FileState.writesWith { s with writers := s.writers ++ [{ request := request }] } p =
      s.writesWith p := by
    intro p
    refine filterMap_congr fun k hk => ?_
    obtain ⟨v, hv⟩ := h.logged k hk
    rw [pick, pick, get_snoc hv, hv]
  exact {
    writer := fun k v hv => by
      rcases cases_snoc hv with hv | ⟨rfl, rfl⟩
      · exact (h.writer k v hv).other Iff.rfl Iff.rfl rfl hcar
      exact {
        lock := ⟨nofun, fun hl => absurd rfl (hnew (h.locked _ hl))⟩
        logged := ⟨nofun, fun hl => absurd rfl (hnew (h.logged _ hl))⟩
        nonempty := nofun
        planned := nofun
        submitted := nofun
        loaded := by rintro (hp | hp) <;> cases hp
        measured := nofun
        live := nofun
        replay := nofun }
    locked := fun k hk => (h.locked k hk).imp fun _ => get_snoc
    logged := fun k hk => (h.logged k hk).imp fun _ => get_snoc
    nodup := h.nodup
    lane := h.lane.imp fun past hall => hall.imp_right fun hall k hk => (hall k hk).imp fun _ => And.imp_left get_snoc
    waiting := fun k hk => (h.waiting k hk).imp fun _ => And.imp_left get_snoc
    size := by rw [hwrites]; exact h.size
    bytes := fun p => by rw [hwrites]; exact h.bytes p
    recorded := fun op a hop => (h.recorded op a hop).imp_right (hcar _ _)
    payload := fun j k v w hv hw hne hop => by
      rcases cases_snoc hv with hv | ⟨rfl, rfl⟩ <;> rcases cases_snoc hw with hw | ⟨rfl, rfl⟩
      · exact h.payload j k v w hv hw hne hop
      · exact hsame v (mem_of_getElem? hv) hne hop
      · have := hsame w (mem_of_getElem? hw) (by rw [hop]; exact hne) hop.symm
        simp only [IdentifiedWrite.samePayload, Bool.and_eq_true, decide_eq_true_eq] at this ⊢
        exact ⟨⟨this.1.1.symm, this.1.2.symm⟩, this.2.symm⟩
      · simp [IdentifiedWrite.samePayload] }

theorem recordedOp_eq_some (h : s.recordedOp op = some a) : op ≠ 0 ∧ s.recorded.get op = some a := by
  unfold recordedOp at h
  split at h
  · cases h
  · exact ⟨‹_›, h⟩

/-- A writer that is not staged, and stays so, with what it has of its own. -/
theorem Ok.unstaged (h : Ok f₀ s) (hw : s.At i w) (href : w.isRefusable = true) (hs : s'.writers = s.writers.set i w')
    (hreq : w'.request = w.request) (hclass' : w'.isStaged = false ∧ w'.isSubmitted = false ∧ w'.isCommitted = false)
    (hphase : w'.phase ≠ .loaded ∧ w'.phase ≠ .measured ∧ w'.phase ≠ .submitted) (hsame : Same s s')
    (hrecorded : s'.recorded = s.recorded) (hother : ∀ k, k ≠ i → (s'.lock = some k ↔ s.lock = some k))
    (hlock : w'.holdsLock = true ↔ s'.lock = some i)
    (hplanned : w'.isPlanned = true → w'.request.data ≠ [] → w'.batch.newSize = max s'.file.size w'.request.stop ∧
      (w'.batch.republish = false → w'.batch.newSize = s'.file.size) ∧ w'.batch.attrsSize ≤ w'.batch.newSize)
    (hreplay : w'.batch.replayed = true → w.request.op ≠ 0 ∧ Carried s w.request.op w'.batch.attrsSize) : Ok f₀ s' := by
  have hclass : w.isStaged = false ∧ w.isEffective = false ∧ w.isGone = false ∧ w.isSubmitted = false ∧
      w.isCommitted = false := by
    cases hp : w.phase <;> simp [hp] at href ⊢
  obtain ⟨hstaged, heff, hgone, hsub, hcom⟩ := hclass
  obtain ⟨hstaged', hsub', hcom'⟩ := hclass'
  have hx : Swap s s' i w w' := ⟨hw, hs, hreq, by rw [heff]; exact nofun⟩
  refine h.set hx hsame (by rw [hgone]; exact nofun)
    (fun hi => absurd (mem_of_mem_tail hi) (h.not_mem_entries hw hstaged)) (by rw [hsub, hsub'])
    (by rw [hcom, hcom']) hother (.same hrecorded) ?_
  exact {
    lock := hlock
    logged := by rw [hsame.log, ← (h.writer i w hw).logged, hstaged, hstaged']
    nonempty := by rw [hstaged']; exact nofun
    planned := hplanned
    submitted := by rw [hsub']; exact nofun
    loaded := by simp [hphase]
    measured := by simp [hphase]
    live := by simp [hphase]
    replay := fun hr => by
      rw [hreq]
      exact (hreplay hr).imp_right fun hex => Carried.swap hex hx }

/-- A call whose operation is found is replayed, and gives the lock back. -/
theorem Ok.replayed (h : Ok f₀ s) (hw : s.At i w) (hp : w.phase = .reserved ∨ w.phase = .locked) {attrsSize : Nat}
    (hrec : s.recordedOp w.request.op = some attrsSize) :
    Ok f₀ { s.setWriter i { w with phase := .prepared, batch := replayedBatch attrsSize } with
      lock := if w.phase = .locked then none else s.lock } := by
  obtain ⟨hop, hget⟩ := recordedOp_eq_some hrec
  have hlock := (h.writer i w hw).lock
  refine h.unstaged hw (by rcases hp with hp | hp <;> simp [hp]) rfl rfl ⟨rfl, rfl, rfl⟩ ⟨nofun, nofun, nofun⟩
    ⟨rfl, rfl, rfl⟩ rfl
    (fun k hk => ?_) ⟨nofun, fun hl => ?_⟩ nofun fun _ => ⟨hop, (h.recorded _ _ hget).2⟩
  · rcases hp with hp | hp <;> simp only [hp, reduceCtorEq, if_false, if_true]
    rw [hlock.1 (by simp [hp])]
    simp [Ne.symm hk]
  · rcases hp with hp | hp <;> simp only [hp, reduceCtorEq, if_false, if_true] at hl
    have := hlock.2 hl
    simp [hp] at this

/-- Who else has the lock when one writer lets it go. -/
theorem release_iff {lock : Option Nat} (hk : k ≠ i) :
    ((if lock = some i then none else lock) = some k ↔ lock = some k) ∧
    (if lock = some i then none else lock) ≠ some i := by
  split
  · rename_i hi; simp [hi, Ne.symm hk]
  · exact ⟨Iff.rfl, ‹_›⟩

section

variable (h : Ok f₀ s) (hw : s.At i w)
include h hw

/-- A call that gives up before it is staged. -/
theorem Ok.refuse (href : w.isRefusable = true) (cache : Table RequestIdentity Nat) :
    Ok f₀ { s.setWriter i { w with phase := .refused } with
      lock := if s.lock = some i then none else s.lock, cache := cache } :=
  h.unstaged hw href rfl rfl ⟨rfl, rfl, rfl⟩ ⟨nofun, nofun, nofun⟩ ⟨rfl, rfl, rfl⟩ rfl (fun _ hk => (release_iff hk).1)
    ⟨nofun, fun hl => absurd hl (release_iff (Nat.succ_ne_self i)).2⟩ nofun (h.writer i w hw).replay

theorem Ok.acquire (hp : w.phase = .checked) (hfree : s.lock = none) :
    Ok f₀ { s.setWriter i { w with phase := .locked } with lock := some i } :=
  h.unstaged hw (by simp [hp]) rfl rfl ⟨rfl, rfl, rfl⟩ ⟨nofun, nofun, nofun⟩ ⟨rfl, rfl, rfl⟩ rfl
    (fun k hk => by simp [hfree, Ne.symm hk]) ⟨fun _ => rfl, fun _ => rfl⟩ nofun (h.writer i w hw).replay

theorem Ok.plan {batch : Batch}
    (hp : w.phase = .searched ∨ w.phase = .measured) (hrep : batch.replayed = false)
    (hbatch : w.request.data ≠ [] → batch.newSize = max s.file.size w.request.stop ∧
      (batch.republish = false → batch.newSize = s.file.size) ∧ batch.attrsSize ≤ batch.newSize) :
    Ok f₀ (s.setWriter i { w with phase := .prepared, batch := batch }) := by
  have hclass : w.holdsLock = true ∧ w.isRefusable = true := by rcases hp with hp | hp <;> simp [hp]
  exact h.unstaged hw hclass.2 rfl rfl ⟨rfl, rfl, rfl⟩ ⟨nofun, nofun, nofun⟩ ⟨rfl, rfl, rfl⟩ rfl (fun k _ => Iff.rfl)
    ⟨fun _ => (h.writer i w hw).lock.1 hclass.1, fun _ => by simp [hrep]⟩ (fun _ => hbatch) (by simp [hrep])

theorem Ok.planBatch (hp : w.phase = .measured) (touch : Bool) :
    (s.planBatch w touch).newSize = max s.file.size w.request.stop ∧
      ((s.planBatch w touch).republish = false → (s.planBatch w touch).newSize = s.file.size) ∧
      (s.planBatch w touch).attrsSize ≤ (s.planBatch w touch).newSize := by
  have hok := h.writer i w hw
  have hcanonical := hok.loaded (.inr hp)
  have hdirty := hok.measured hp
  have hattrs := (h.measured_le hw (by simp [hp]) (by simp [hp])).2
  have hold : max w.canonical (max w.dirty s.attrsSize) = s.file.size := by omega
  unfold FileState.planBatch
  dsimp only
  rw [hold]
  refine ⟨rfl, fun hrep => ?_, ?_⟩
  · simp only [Bool.or_eq_false_iff, decide_eq_false_iff_not, not_not] at hrep; exact hrep.1
  split
  · exact le_rfl
  · omega

/-! ## Staging and the lane -/

theorem Ok.writesWith_stage (hstaged : w.isStaged = false) (hp : p w' = false) (hs : s'.writers = s.writers.set i w')
    (hlog : s'.log = s.log ++ [i]) : s'.writesWith p = s.writesWith p := by
  have hnew : s'.pick p i = none := pick_of_not (get_set_self hs hw) hp
  rw [writesWith, hlog, filterMap_append, filterMap_cons_none hnew, filterMap_nil, append_nil]
  refine filterMap_congr fun k hk => ?_
  rw [pick, pick, get_set_ne hs]
  rintro rfl
  exact h.not_mem_log hw hstaged hk

theorem Ok.stage (hp : w.phase = .prepared) (hdata : w.request.data ≠ []) {entries : List Nat}
    (hrun : s.runtime = some entries) : Ok f₀ (s.stageWriter i w entries) := by
  have hok := h.writer i w hw
  have hstaged : w.isStaged = false := by simp [hp]
  have hx : Swap s (s.stageWriter i w entries) i w { w with phase := .staged } := ⟨hw, rfl, rfl, by simp [hp]⟩
  have hnot := h.not_mem_log hw hstaged
  have hentries : s.entries = entries := by simp [FileState.entries, hrun]
  refine h.change hx ?_ (fun k v hk hv => ?_) (fun k _ hk => hk) (fun k hk hki => ?_) ?_ ?_ (fun _ => rfl)
    (fun k hk hki => ?_) ?_ (fun p => ?_) (.same rfl)
  · exact hok.late hx rfl rfl (mem_append_right _ (mem_singleton_self i)) hdata
      (by simpa [stageWriter, setWriter, hp] using hok.lock) (fun hpl => ⟨by simpa [hp] using hpl, rfl⟩) nofun nofun
  · exact (h.writer k v hv).other Iff.rfl (by simp [stageWriter, hk]) rfl fun _ _ hex => Carried.swap hex hx
  · exact (mem_append.1 hk).resolve_right fun hm => hki (mem_singleton.1 hm)
  · exact nodup_append.2 ⟨h.nodup, by simp, by
      rintro a ha b hb rfl
      exact hnot (mem_singleton.1 hb ▸ ha)⟩
  · obtain ⟨past, hpast, hall⟩ := h.lane
    refine ⟨past, ?_, fun k hk => exists_set rfl hw (by simp [hp]) (hall k hk)⟩
    show s.log ++ [i] = past ++ (entries ++ [i])
    rw [hpast, hentries, append_assoc]
  · replace hk : k ∈ (entries ++ [i]).tail := hk
    rw [hentries]
    cases entries with
    | nil => cases hk
    | cons e rest => simpa [hki] using hk
  · rw [h.writesWith_stage hw hstaged rfl hx.set rfl]; exact h.size
  · rw [h.writesWith_stage hw hstaged rfl hx.set rfl]; exact h.bytes p

theorem Ok.rollBack (hp : w.phase = .staged) :
    Ok f₀ (s.rollBackWriter i w) := by
  have hok := h.writer i w hw
  have hstaged : w.isStaged = true := by simp [hp]
  have hx : Swap s (s.rollBackWriter i w) i w { w with phase := .rolledBack } := ⟨hw, rfl, rfl, by simp [hp]⟩
  exact h.set hx ⟨rfl, rfl, rfl⟩ (by simp [hp]) (fun _ => rfl) (by simp [hp]) (by simp [hp])
    (fun k hk => (release_iff hk).1) (.same rfl) (hok.late hx rfl rfl (hok.logged.1 hstaged) (hok.nonempty hstaged)
      ⟨nofun, fun hl => absurd hl (release_iff (Nat.succ_ne_self i)).2⟩ nofun nofun nofun)

/-- A writer at the head of the entries is selected, and none of those behind it. -/
theorem Ok.writesWith_head {rest : List Nat} (hentries : s.entries = i :: rest) (hp : p w = false) (hp' : p w' = true)
    (hreq : w'.request = w.request) (hwait : ∀ v : Writer, v.isWaiting = true → p v = false)
    (hs : s'.writers = s.writers.set i w') (hlog : s'.log = s.log) :
    s'.writesWith p = s.writesWith p ++ [w.request.entry] := by
  obtain ⟨past, hpast, -⟩ := h.lane
  rw [hentries] at hpast
  have hnodup := h.nodup
  rw [hpast] at hnodup
  have hne : ∀ k ∈ past, k ≠ i := by
    rintro k hk rfl
    exact (nodup_append.1 hnodup).2.2 k hk k (mem_cons_self) rfl
  have hne' : ∀ k ∈ rest, k ≠ i := by
    rintro k hk rfl
    exact h.not_mem_rest hentries hk
  have hrest : ∀ k ∈ rest, s.pick p k = none := by
    intro k hk
    obtain ⟨v, hv, hvwait⟩ := h.waiting k (by rw [hentries]; exact hk)
    exact pick_of_not hv (hwait v hvwait)
  have hother : ∀ k, k ≠ i → s'.pick p k = s.pick p k := fun k hk => by rw [pick, pick, get_set_ne hs hk]
  have hself : s'.pick p i = some w.request.entry := hreq ▸ pick_of (get_set_self hs hw) hp'
  rw [writesWith, writesWith, hlog, hpast, filterMap_append, filterMap_append, filterMap_cons_some hself,
    filterMap_cons_none (pick_of_not hw hp), filterMap_eq_nil_iff.2 hrest, append_nil,
    filterMap_eq_nil_iff.2 fun k hk => (hother k (hne' k hk)).trans (hrest k hk)]
  exact congrArg (· ++ _) (filterMap_congr fun k hk => hother k (hne k hk))

end

theorem size_writeAll_append (f : SparseFile) (ws : List (Nat × List UInt8)) {e : Nat × List UInt8} (he : e.2 ≠ []) :
    (f.writeAll (ws ++ [e])).size = max (f.writeAll ws).size (e.1 + e.2.length) := by
  rw [SparseFile.writeAll_append]
  show ((f.writeAll ws).write e.1 e.2).size = _
  unfold SparseFile.write
  rw [if_neg he]

/-- The lane submits the batch: the size is that of the plan, and the lock is free. -/
theorem Ok.submit (h : Ok f₀ s) (hw : s.At i w) (hp : w.phase = .accepted) (hhead : s.entries.head? = some i)
    (hrep : w.batch.replayed = false) :
    Ok f₀ (s.submitWriter i w) := by
  have hok := h.writer i w hw
  obtain ⟨rest, hentries⟩ := head?_eq_some_iff.1 hhead
  have hlock := hok.lock.1 (by simp [hp, hrep])
  have hstaged : w.isStaged = true := by simp [hp]
  have hdata := hok.nonempty hstaged
  obtain ⟨hnew, hrepub, hattrs⟩ := hok.planned (by simp [hp, hrep]) hdata
  have hsize : (s.submitWriter i w).file.size = w.batch.newSize := by
    unfold submitWriter
    dsimp only
    split
    · rfl
    · exact (hrepub (by simp_all)).symm
  -- nobody else holds the lock
  have hother : ∀ {k v}, k ≠ i → s.At k v → v.holdsLock = false := fun {k v} hk hv =>
    Bool.eq_false_iff.2 fun hvl => hk (some.inj (((h.writer k v hv).lock.1 hvl).symm.trans hlock))
  have hx : Swap s (s.submitWriter i w) i w { w with phase := .submitted } := ⟨hw, rfl, rfl, by simp [hrep]⟩
  refine h.change hx ?_ (fun k v hk hv => ?_) (fun k _ hk => nomatch hk) (fun k hk _ => hk) h.nodup ?_
    (fun hi => absurd hi (h.not_mem_tail_of_head hhead)) (fun k hk _ => hk) ?_ (fun p => ?_) (.same rfl)
  · exact hok.late hx rfl rfl (hok.logged.1 hstaged) hdata ⟨nofun, nofun⟩ nofun
      (fun _ => by rw [hsize]; exact ⟨by omega, hattrs⟩) fun _ => hrep
  · have hokk := h.writer k v hv
    have hvl := hother hk hv
    exact {
      lock := by rw [hvl]; exact ⟨nofun, nofun⟩
      logged := hokk.logged
      nonempty := hokk.nonempty
      planned := fun hpl => nomatch hvl.symm.trans (holdsLock_of_planned hpl)
      submitted := fun hs => by
        have := hokk.submitted hs
        rw [hsize]
        omega
      loaded := fun hl => by rcases hl with hl | hl <;> simp [hl] at hvl
      measured := fun hl => by simp [hl] at hvl
      live := hokk.live
      replay := fun hr => (hokk.replay hr).imp_right fun hex => Carried.swap hex hx }
  · obtain ⟨past, hpast, hall⟩ := h.lane
    exact ⟨past, hpast, fun k hk => exists_set rfl hw (by simp [hp]) (hall k hk)⟩
  · rw [h.writesWith_head hw hentries (by simp [hp]) (by simp [hrep]) (by rfl)
      (fun _ => not_submitted_of_waiting) hx.set rfl, size_writeAll_append _ _ hdata, ← h.size]
    exact hsize.trans hnew
  · rw [hx.writesWith (by simp [hp]) rfl]; exact h.bytes p

theorem get_recordOp {op' b : Nat} (h : (s.recordOp op b).get op' = some a) :
    s.recorded.get op' = some a ∨ op' = op ∧ op ≠ 0 ∧ a = b := by
  unfold recordOp at h
  split at h
  · exact .inl h
  rename_i hop
  rcases Table.cases_put h with ⟨heq, rfl⟩ | ⟨-, h⟩
  · exact .inr ⟨heq, fun hz => hop (.inl hz), rfl⟩
  · exact .inl h

/-- The commit: the bytes are those of the write. -/
theorem Ok.commit (h : Ok f₀ s) (hw : s.At i w) (hp : w.phase = .submitted) :
    Ok f₀ (s.commitWriter i w) := by
  have hok := h.writer i w hw
  have hrep := hok.live hp
  have hsub : w.isSubmitted = true := by simp [hp, hrep]
  have hstaged : w.isStaged = true := by simp [hp]
  have hwait : w.isWaiting = false := by simp [hp]
  have heff : isEffective { w with phase := .committed } = true := by simp [hrep]
  obtain ⟨rest, hentries⟩ := h.head hw hstaged (by simp [hp]) hwait
  have hx : Swap s (s.commitWriter i w) i w { w with phase := .committed } := ⟨hw, rfl, rfl, fun _ => ⟨heff, rfl⟩⟩
  refine h.setBytes hx rfl rfl rfl (by simp [hp]) (fun hi => absurd hi (h.not_mem_tail hw hwait))
    (by rw [hsub]; simp [hrep]) (fun p => ?_) (fun k _ => Iff.rfl) (fun op a hop => ?_) ?_
  · rw [h.writesWith_head hw hentries (by simp [hp]) (by simp [hrep]) (by rfl)
      (fun v hv => Bool.eq_false_iff.2 fun hc => nomatch (not_submitted_of_waiting hv).symm.trans
        (submitted_of_committed hc))
      hx.set rfl, SparseFile.writeAll_append]
    show (s.file.write w.request.offset w.request.data).byte p =
      ((f₀.writeAll (s.writesWith isCommitted)).write w.request.offset w.request.data).byte p
    rw [SparseFile.byte_write_eq, SparseFile.byte_write_eq, h.bytes p]
  · rcases get_recordOp hop with hold | ⟨rfl, hne, rfl⟩
    · exact .inl hold
    · exact .inr ⟨hne, i, _, get_set_self rfl hw, heff, rfl, le_rfl⟩
  · exact hok.late hx rfl rfl (hok.logged.1 hstaged) (hok.nonempty hstaged)
      (by simpa [commitWriter, setWriter, hp] using hok.lock) nofun
      (fun _ => hok.submitted hsub) nofun

theorem Ok.retire (h : Ok f₀ s) (hw : s.At i w) (hhead : s.entries.head? = some i) {next : WritePhase}
    (hp : w.phase = .completed ∧ next = .retired ∨ w.phase = .rolledBack ∧ next = .removed) :
    Ok f₀ (s.retireWriter i w next) := by
  have hok := h.writer i w hw
  obtain ⟨rest, hentries⟩ := head?_eq_some_iff.1 hhead
  have hclass : isGone { w with phase := next } = true ∧ w.holdsLock = false ∧
      holdsLock { w with phase := next } = false ∧ w.isStaged = true ∧ isStaged { w with phase := next } = true ∧
      isPlanned { w with phase := next } = false ∧ isSubmitted { w with phase := next } = w.isSubmitted ∧
      isCommitted { w with phase := next } = w.isCommitted ∧ isEffective { w with phase := next } = w.isEffective ∧
      next ≠ .submitted := by
    rcases hp with ⟨hp, rfl⟩ | ⟨hp, rfl⟩ <;> simp [hp]
  obtain ⟨hgone, hholds, hholds', hstaged, hstaged', hplanned', hsub, hcom, heff, hnext⟩ := hclass
  have hx : Swap s (s.retireWriter i w next) i w { w with phase := next } :=
    ⟨hw, rfl, rfl, fun he => ⟨by rw [heff]; exact he, rfl⟩⟩
  have htail : ∀ k ∈ s.entries.tail.tail, k ∈ s.entries.tail := fun _ => mem_of_mem_tail
  refine h.change hx ?_ (fun k v hk hv => ?_) (fun k _ hk => hk) (fun k hk _ => hk) h.nodup ?_
    (fun hi => absurd (htail i hi) (h.not_mem_tail_of_head hhead)) (fun k hk _ => htail k hk) ?_
    (fun p => ?_) (.same rfl)
  · exact hok.late hx rfl hstaged' (hok.logged.1 hstaged) (hok.nonempty hstaged)
      (by rw [hholds', ← hholds]; exact hok.lock)
      (by rw [hplanned']; exact nofun) (by rw [hsub]; exact hok.submitted) (absurd · hnext)
  · exact (h.writer k v hv).other Iff.rfl Iff.rfl rfl fun _ _ hex => Carried.swap hex hx
  · obtain ⟨past, hpast, hall⟩ := h.lane
    refine ⟨past ++ [i], ?_, fun k hk => ?_⟩
    · show s.log = past ++ [i] ++ s.entries.tail; rw [hpast, hentries, append_assoc]; rfl
    · rcases mem_append.1 hk with hk | hk
      · exact exists_set rfl hw (fun _ => hgone) (hall k hk)
      · cases mem_singleton.1 hk; exact ⟨_, get_set_self rfl hw, hgone⟩
  · rw [hx.writesWith hsub rfl]; exact h.size
  · rw [hx.writesWith hcom rfl]; exact h.bytes p

/-! ## Runs -/

theorem at_eq (hw : s'.writers = s.writers) : s'.At = s.At := funext₂ fun _ _ => by rw [At, hw]

theorem Ok.frame (h : Ok f₀ s) (hw : s'.writers = s.writers) (hstill : Still s s') : Ok f₀ s' := by
  have hwrites : ∀ p, s'.writesWith p = s.writesWith p := fun p => by
    rw [writesWith, writesWith, hstill.log]
    unfold pick
    rw [hw]
  replace hw := at_eq hw
  exact {
    writer := fun k w hk => by
      rw [hw] at hk
      exact (h.writer k w hk).other (by rw [hstill.lock]) (by rw [hstill.log]) (by rw [hstill.file])
        fun _ _ hex => by rw [Carried, hw]; exact hex
    locked := by rw [hstill.lock, hw]; exact h.locked
    logged := by rw [hstill.log, hw]; exact h.logged
    nodup := by rw [hstill.log]; exact h.nodup
    lane := by rw [hstill.log, hstill.entries, hw]; exact h.lane
    waiting := by rw [hstill.entries, hw]; exact h.waiting
    size := by rw [hstill.file, hwrites]; exact h.size
    bytes := fun p => by rw [hstill.file, hwrites]; exact h.bytes p
    recorded := by unfold Carried; rw [hstill.recorded, hw]; exact h.recorded
    payload := by rw [hw]; exact h.payload }

/-- The action is not one of a writer. -/
def isIdle : Action → Bool
  | .reap | .evict _ | .freeze | .startRead _ _ | .sample _ | .measureRead _ | .sizeRead _ | .attach _ | .pin _
  | .snapshot _ | .fetch _
  | .overlay _ => true
  | _ => false

def isRead : Action → Bool
  | .startRead _ _ | .sample _ | .measureRead _ | .sizeRead _ | .attach _ | .pin _ | .snapshot _ | .fetch _
  | .overlay _ =>
    true
  | _ => false

/-- **Reads and upkeep** leave the writers, the file and the entries alone. -/
theorem step_idle {a : Action} (hs : s.step a = some s') (ha : isIdle a = true) : s'.writers = s.writers ∧ Still s s' ∧
    (isRead a = false → s'.readers = s.readers) := by
  cases a with
  | reap =>
    obtain ⟨hgo, rfl⟩ := of_guard hs
    exact ⟨rfl, ⟨⟨rfl, rfl, by simp [entries, hgo.1]⟩, rfl, rfl⟩, fun _ => rfl⟩
  | evict identity =>
    obtain ⟨-, rfl⟩ := of_guard hs
    exact ⟨rfl, ⟨⟨rfl, rfl, rfl⟩, rfl, rfl⟩, fun _ => rfl⟩
  | freeze => cases hs; exact ⟨rfl, ⟨⟨rfl, rfl, rfl⟩, rfl, rfl⟩, fun _ => rfl⟩
  | startRead offset count => cases hs; exact ⟨rfl, ⟨⟨rfl, rfl, rfl⟩, rfl, rfl⟩, nofun⟩
  | sample j | measureRead j | sizeRead j | attach j | pin j | snapshot j =>
    obtain ⟨r, hr, hp, hg⟩ := of_slot hs
    try dsimp only at hg
    (repeat' split at hg) <;> cases hg <;> exact ⟨rfl, ⟨⟨rfl, rfl, rfl⟩, rfl, rfl⟩, nofun⟩
  | fetch j | overlay j =>
    obtain ⟨r, hr, hg⟩ := bind_eq_some_iff.1 hs
    (repeat' split at hg) <;> cases hg <;> exact ⟨rfl, ⟨⟨rfl, rfl, rfl⟩, rfl, rfl⟩, nofun⟩
  | _ => cases ha

end

/-- The ways of a call that neither looks up, decides nor commits. -/
inductive Along : WritePhase → WritePhase → Prop
  | preview : Along .staged .previewed
  | publish : Along .previewed .published
  | record : Along .published .recorded
  | accept : Along .recorded .accepted
  | settle : Along .committed .settled
  | complete : Along .settled .completed

theorem Along.moves {p q : WritePhase} (h : Along p q) : FileState.moves p q = true ∧ q ≠ .loaded ∧ q ≠ .measured := by
  cases h <;> decide

/-- What each step does. -/
inductive Stepped (s : FileState) : Action → FileState → Prop
  | idle {a s'} (ha : isIdle a = true) (hw : s'.writers = s.writers) (hstill : Still s s')
      (hr : isRead a = false → s'.readers = s.readers) : Stepped s a s'
  | call {request}
      (hall : (s.writers.all fun w => request.op = 0 || w.request.op ≠ request.op || w.request.samePayload request) =
        true) :
      Stepped s (.call request) { s with writers := s.writers ++ [{ request := request }] }
  | outside {a s' i w q} (hw : s.At i w) (hp : isOutside w.phase = true) (hq : isOutside q = true)
      (hs : s'.writers = s.writers.set i { w with phase := q }) (hstill : Still s s')
      (hr : s'.readers = s.readers) : Stepped s a s'
  | replay {a i w n} (hw : s.At i w) (hp : w.phase = .reserved ∨ w.phase = .locked)
      (hrec : s.recordedOp w.request.op = some n) :
      Stepped s a { s.setWriter i { w with phase := .prepared, batch := replayedBatch n } with
        lock := if w.phase = .locked then none else s.lock }
  | acquire {i w} (hw : s.At i w) (hp : w.phase = .checked) (hfree : s.lock = none) :
      Stepped s (.acquire i) { s.setWriter i { w with phase := .locked } with lock := some i }
  | search {i w} (hw : s.At i w) (hp : w.phase = .locked) (hfree : s.inflightOverlap w.request = false)
      (hnone : s.recordedOp w.request.op = none) : Stepped s (.search i) (s.setWriter i { w with phase := .searched })
  | loadNil {i w} (hw : s.At i w) (hp : w.phase = .searched) (hnil : w.request.data = []) :
      Stepped s (.load i)
      (s.setWriter i { w with phase := .prepared, batch := { newSize := s.file.size, attrsSize := s.file.size } })
  | load {i w} (hw : s.At i w) (hp : w.phase = .searched) :
      Stepped s (.load i) (s.setWriter i { w with phase := .loaded, canonical := s.file.size })
  | measure {i w} (hw : s.At i w) (hp : w.phase = .loaded) :
      Stepped s (.measure i) (s.setWriter i { w with phase := .measured, dirty := s.dirtyEnd })
  | plan {i w touch} (hw : s.At i w) (hp : w.phase = .measured) (hstop : w.request.stop ≤ u64Max) :
      Stepped s (.plan i touch) (s.setWriter i { w with phase := .prepared, batch := s.planBatch w touch })
  | stage {i w entries} (hw : s.At i w) (hp : w.phase = .prepared) (hdata : w.request.data ≠ [])
      (hrun : s.runtime = some entries) :
      Stepped s (.stage i) (s.stageWriter i w entries)
  | along {a s' i w q} (hw : s.At i w) (hway : Along w.phase q)
      (hs : s'.writers = s.writers.set i { w with phase := q })
      (hstill : Still s s') (hr : s'.readers = s.readers) : Stepped s a s'
  | record {i w} (hw : s.At i w) (hp : w.phase = .published) :
      Stepped s (.record i) { s.setWriter i { w with phase := .recorded } with
        recorded := s.recordOp w.request.op w.batch.attrsSize }
  | refuse {i w keep cache} (hw : s.At i w) (href : w.isRefusable = true) :
      Stepped s (.refuse i keep) { s.setWriter i { w with phase := .refused } with
        lock := if s.lock = some i then none else s.lock, cache := cache }
  | rollBack {i w} (hw : s.At i w) (hp : w.phase = .staged) :
      Stepped s (.rollBack i) (s.rollBackWriter i w)
  | submitReplay {i w} (hw : s.At i w) (hp : w.phase = .accepted) (hhead : s.entries.head? = some i)
      (hrep : w.batch.replayed = true) : Stepped s (.submit i) (s.setWriter i { w with phase := .committed })
  | submit {i w} (hw : s.At i w) (hp : w.phase = .accepted) (hhead : s.entries.head? = some i)
      (hrep : w.batch.replayed = false) :
      Stepped s (.submit i) (s.submitWriter i w)
  | commit {i w} (hw : s.At i w) (hp : w.phase = .submitted) :
      Stepped s (.commit i) (s.commitWriter i w)
  | retire {i w q} (hw : s.At i w) (hhead : s.entries.head? = some i) (hpin : s.readers.any (·.isPinned) = false)
      (hp : w.phase = .completed ∧ q = .retired ∨ w.phase = .rolledBack ∧ q = .removed) :
      Stepped s (.retire i) (s.retireWriter i w q)

variable {f₀ : SparseFile} {s s' : FileState}

theorem stepped {a : Action} (hs : s.step a = some s') : Stepped s a s' := by
  cases a with
  | call request => obtain ⟨hall, rfl⟩ := of_guard hs; exact .call hall
  | consult j | lookup j | answer j | reserve j =>
    obtain ⟨w, hw, hp, hg⟩ := of_slot hs
    (repeat' split at hg) <;> cases hg <;> exact .outside hw (by rw [hp]; rfl) rfl rfl ⟨⟨rfl, rfl, rfl⟩, rfl, rfl⟩ rfl
  | check j =>
    obtain ⟨w, hw, hp, hg⟩ := of_slot hs
    split at hg
    · rename_i n hrec
      cases hg
      have := Stepped.replay (a := .check j) hw (.inl hp) hrec
      rwa [hp] at this
    · cases hg; exact .outside hw (by rw [hp]; rfl) rfl rfl ⟨⟨rfl, rfl, rfl⟩, rfl, rfl⟩ rfl
  | acquire j =>
    obtain ⟨w, hw, hp, hg⟩ := of_slot hs
    obtain ⟨hfree, rfl⟩ := of_guard hg
    exact .acquire hw hp (isNone_iff_eq_none.1 hfree)
  | search j =>
    obtain ⟨w, hw, hp, hg⟩ := of_slot hs
    split at hg
    · cases hg
    rename_i hfree
    split at hg <;> cases hg
    · rename_i n hrec; have := Stepped.replay (a := .search j) hw (.inr hp) hrec; rwa [hp] at this
    · exact .search hw hp (Bool.eq_false_iff.2 hfree) ‹_›
  | load j =>
    obtain ⟨w, hw, hp, hg⟩ := of_slot hs
    split at hg <;> cases hg
    · exact .loadNil hw hp ‹_›
    · exact .load hw hp
  | measure j => obtain ⟨w, hw, hp, hg⟩ := of_slot hs; cases hg; exact .measure hw hp
  | plan j touch =>
    obtain ⟨w, hw, hp, hg⟩ := of_slot hs
    split at hg <;> cases hg
    rename_i hsome
    refine .plan hw hp (Nat.le_of_not_lt fun hlt => hsome ?_)
    rw [checkedAdd_of_lt hlt]
    rfl
  | stage j =>
    obtain ⟨w, hw, hp, hg⟩ := of_slot hs
    split at hg
    · cases hg
    rename_i hgo
    obtain ⟨entries, hrun, rfl⟩ := map_eq_some_iff.1 hg
    exact .stage hw hp (fun hnil => hgo (by simp [hnil])) hrun
  | preview j | publish j | accept j | settle j | complete j =>
    obtain ⟨w, hw, hp, hg⟩ := of_slot hs
    cases hg
    exact .along hw (by rw [hp]; constructor) rfl ⟨⟨rfl, rfl, rfl⟩, rfl, rfl⟩ rfl
  | record j =>
    obtain ⟨w, hw, hp, hg⟩ := of_slot hs
    split at hg <;> cases hg
    · exact .record hw hp
    · exact .along hw (by rw [hp]; constructor) rfl ⟨⟨rfl, rfl, rfl⟩, rfl, rfl⟩ rfl
  | refuse j keep =>
    obtain ⟨w, hw, hg⟩ := bind_eq_some_iff.1 hs
    obtain ⟨href, rfl⟩ := of_guard hg
    exact .refuse hw href
  | rollBack j => obtain ⟨w, hw, hp, hg⟩ := of_slot hs; cases hg; exact .rollBack hw hp
  | submit j =>
    obtain ⟨w, hw, hp, hg⟩ := of_slot hs
    split at hg
    · cases hg
    rename_i hgo
    have hhead : s.entries.head? = some j := by
      by_contra hne
      exact hgo (by simp [hne])
    split at hg <;> cases hg
    · exact .submitReplay hw hp hhead ‹_›
    · exact .submit hw hp hhead (Bool.eq_false_iff.2 ‹_›)
  | commit j => obtain ⟨w, hw, hp, hg⟩ := of_slot hs; cases hg; exact .commit hw hp
  | retire j =>
    obtain ⟨w, hw, hg⟩ := bind_eq_some_iff.1 hs
    split at hg
    · cases hg
    rename_i hgo
    obtain ⟨hhead, hpin⟩ := not_or.1 hgo
    split at hg
    · cases hg; exact .retire hw (not_not.1 hhead) (Bool.eq_false_iff.2 hpin) (.inl ⟨‹_›, rfl⟩)
    · split at hg <;> cases hg
      exact .retire hw (not_not.1 hhead) (Bool.eq_false_iff.2 hpin) (.inr ⟨‹_›, rfl⟩)
  | _ =>
    obtain ⟨hw, hstill, hr⟩ := step_idle hs rfl
    exact .idle rfl hw hstill hr

theorem step_ok (h : Ok f₀ s) {a : Action} (hs : Stepped s a s') : Ok f₀ s' := by
  cases hs with
  | idle ha hw hstill hr => exact h.frame hw hstill
  | call hall =>
    refine h.call fun v hv hne hop => ?_
    have := all_eq_true.1 hall v hv
    simp only [Bool.or_eq_true, decide_eq_true_eq] at this
    exact this.resolve_left (not_or.2 ⟨hne, not_not.2 hop⟩)
  | outside hw hp hq hs hstill hr => exact h.outside hw hp hq hs hstill
  | replay hw hp hrec => exact h.replayed hw hp hrec
  | acquire hw hp hfree => exact h.acquire hw hp hfree
  | search hw hp hfree hnone =>
    exact h.move hw (by rw [hp]; rfl) rfl rfl rfl ⟨rfl, rfl, rfl⟩ rfl (by simp) nofun (.same rfl)
  | loadNil hw hp hnil => exact h.plan hw (.inl hp) rfl fun hne => absurd hnil hne
  | load hw hp => exact h.move hw (by rw [hp]; rfl) rfl rfl rfl ⟨rfl, rfl, rfl⟩ rfl (fun _ => rfl) nofun (.same rfl)
  | @measure j w hw hp =>
    have hcanonical := (h.writer j w hw).loaded (.inl hp)
    have hdirty := (h.measured_le hw (by simp [hp]) (by simp [hp])).1
    exact h.move hw (by rw [hp]; rfl) rfl rfl rfl ⟨rfl, rfl, rfl⟩ rfl (fun _ => hcanonical)
      (fun _ => hdirty) (.same rfl)
  | plan hw hp hstop => exact h.plan hw (.inr hp) rfl fun _ => h.planBatch hw hp _
  | stage hw hp hdata hrun => exact h.stage hw hp hdata hrun
  | along hw hway hs hstill hr =>
    obtain ⟨hm, hl, hq⟩ := hway.moves
    exact h.move hw hm hs rfl rfl hstill.toSame hstill.lock (by simp [hl, hq]) (by simp [hq]) (.same hstill.recorded)
  | @record j w hw hp =>
    refine h.move hw (by rw [hp]; rfl) rfl rfl rfl ⟨rfl, rfl, rfl⟩ rfl (by simp) nofun fun op a hop => ?_
    rcases get_recordOp hop with hold | ⟨rfl, hne, rfl⟩
    · exact .inl hold
    refine .inr ⟨hne, ?_⟩
    cases hrep : w.batch.replayed with
    | false => exact ⟨j, _, get_set_self rfl hw, by simp [hrep], rfl, le_rfl⟩
    | true =>
      exact Carried.swap ((h.writer j w hw).replay hrep).2 ⟨hw, rfl, rfl, fun he => ⟨by simpa [hp] using he, rfl⟩⟩
  | refuse hw href => exact h.refuse hw href _
  | rollBack hw hp => exact h.rollBack hw hp
  | submitReplay hw hp hhead hrep =>
    exact h.advance ⟨hw, rfl, rfl, by simp [hrep]⟩ rfl ⟨rfl, rfl, rfl⟩ rfl (by simp [standing, hp, hrep])
      (by simp) nofun nofun
      (fun hi => absurd hi (h.not_mem_tail_of_head hhead)) (.same rfl)
  | submit hw hp hhead hrep => exact h.submit hw hp hhead hrep
  | commit hw hp => exact h.commit hw hp
  | retire hw hhead hpin hp => exact h.retire hw hhead hp

theorem boot_ok (f₀ : SparseFile) : Ok f₀ { file := f₀ } where
  writer k w hw := by cases hw
  locked k hk := by cases hk
  logged k hk := by cases hk
  nodup := nodup_nil
  lane := ⟨[], rfl, fun k hk => (by cases hk)⟩
  waiting k hk := by cases hk
  size := rfl
  bytes p := rfl
  recorded op a hop := by cases hop
  payload j k v w hv := by cases hv

end FileState

end ZeroFS.Volatile
