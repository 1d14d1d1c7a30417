import ZeroFS.Pipeline.Linear

/-!
# An acknowledged write survives the rejection of other writes

Whatever part of the queue is applied, a write that is applied leaves its bytes and a size that covers them, until a
later write touches the range (`Survives`). One that adopts the size of a queued write and saves no record can lose it
again; `Sys.sizeKept` excludes that.
-/

namespace ZeroFS

open Machine Updates List

/-- `read_file` of the committed state: the bytes from `offset` on, up to the end of the file. -/
def Db.readFile (db : Db) (id : InodeId) (offset count : Nat) : List UInt8 :=
  (range (min count (recordSize (db.inodes.get id) - offset))).map fun k => db.view.byte id (offset + k)

/-- The view holds the data of a write, below the end of the file. -/
def Written (v : View) (id : InodeId) (offset : Nat) (data : List UInt8) : Prop :=
  (∃ i, v.inode id = some i ∧ offset + data.length ≤ i.size) ∧
    ∀ pos, offset ≤ pos → pos < offset + data.length → v.byte id pos = data.getD (pos - offset) 0

namespace Sys

/-- The calls that are submitted after call `t`. -/
def submittedAfter (s : Sys) (t : Nat) : List Nat := (s.log.dropWhile fun u => u ≠ t).tail

/-- No call submitted after `t` writes to the range. -/
def Untouched (s : Sys) (t : Nat) (id : InodeId) (offset len : Nat) : Prop :=
  ∀ t' ∈ s.submittedAfter t, ∀ c', s.At t' c' → ∀ offset' data', Task.write id offset' data' ∈ c'.tasks →
    ∀ pos, offset ≤ pos → pos < offset + len → ¬(offset' ≤ pos ∧ pos < offset' + data'.length)

/-- The transaction of call `t` is applied, as far as the worker and the answers tell. -/
def IsApplied (s : Sys) (t : Nat) : Prop := t ∈ s.worker.applied ∨ InPhase s.calls (· = .answered (.ok ())) t

end Sys

/-- Every write that is applied in a state holds its range there, if no later call touches it. -/
def Survives (s : Sys) : Prop :=
  ∀ t ∈ s.log, ∀ c, s.At t c → ∀ id offset data, Task.write id offset data ∈ c.tasks → data ≠ [] →
    s.Untouched t id offset data.length → ∀ l, l.Sublist s.unapplied → (t ∈ l ∨ s.IsApplied t) →
    Written (s.after l) id offset data

/-- A success is only answered for an applied batch, and to a call that is in the log or had nothing to write. -/
structure Answers (s : Sys) : Prop where
  applied : ∀ applied todo, s.worker = .sending applied (.ok ()) todo → applied = true
  logged : ∀ t c, s.At t c → c.phase = .answered (.ok ()) →
    t ∈ s.log ∨ ∀ id offset data, Task.write id offset data ∈ c.tasks → data = []

/-! ## The range of a write -/

section

variable {v : View} {c : Call} {offset : Nat} {data : List UInt8}

/-- A submitted write holds its range on top of every state. -/
theorem written_apply {id : InodeId} (hok : CallOk c)
    (hp : c.phase = .staging []) (hach : Achieves WriteSafe v c) (hlaid : Laid v c) (hcomp : Complete c)
    (ht : Task.write id offset data ∈ c.tasks) (hne : data ≠ []) : Written (v.apply c.txn) id offset data := by
  unfold Achieves at hach
  rw [hp] at hach
  obtain ⟨b, a, _, ha, _, hend⟩ := hach _ ht
  refine ⟨⟨a, ha, hend hne⟩, fun pos hlo hhi => ?_⟩
  rw [byte_apply hok hp hlaid hcomp ht, if_pos ⟨hlo, hhi⟩]

theorem Written.apply {id : InodeId} (h : Written v id offset data) (hok : CallOk c) (hp : c.phase = .staging [])
    (hpipe : c.pipelined = true) (hach : Achieves WriteSafe v c) (hlaid : Laid v c) (hcomp : Complete c)
    (hout : ∀ offset' data', Task.write id offset' data' ∈ c.tasks → ∀ pos, offset ≤ pos → pos < offset + data.length →
      ¬(offset' ≤ pos ∧ pos < offset' + data'.length)) : Written (v.apply c.txn) id offset data := by
  obtain ⟨⟨i, hi, hsize⟩, hbytes⟩ := h
  by_cases hid : id ∈ c.ids
  · obtain ⟨t, ht, rfl⟩ := mem_map.1 hid
    have hwrite := all_eq_true.1 hpipe t ht
    unfold Achieves at hach
    rw [hp] at hach
    cases t with
    | write id' offset' data' =>
      obtain ⟨b, a, hb, ha, hle, _⟩ := hach _ ht
      have hb' : v.inode id' = some b := hb
      have hi' : v.inode id' = some i := hi
      rw [hi'] at hb'
      cases hb'
      refine ⟨⟨a, ha, hsize.trans hle⟩, fun pos hlo hhi => ?_⟩
      have hpos := byte_apply hok hp hlaid hcomp ht pos
      rw [if_neg (hout offset' data' ht pos hlo hhi)] at hpos
      exact hpos.trans (hbytes pos hlo hhi)
    | _ => cases hwrite
  · refine ⟨⟨i, ?_, hsize⟩, fun pos hlo hhi => ?_⟩
    · have hrow : (v.apply c.txn).inode id = v.inode id :=
        View.apply_inode_of_not_mem fun u hu e => hid (e ▸ hok.updates_ids u hu)
      rw [hrow]
      exact hi
    · rw [byte_apply_of_not_mem hok hid]; exact hbytes pos hlo hhi

end

namespace Sys

variable {sealedLen : Extent → Nat} {s s' : Sys} {a : Action} {tid : Nat}

/-! ## The log -/

variable {t tid : Nat} {c c' : Call} {applied : Bool} {result : Except FsError Unit} {todo : List Nat}

theorem tail_dropWhile_concat {l : List Nat} (ht : t ∈ l) :
    ((l ++ [tid]).dropWhile fun u => u ≠ t).tail = (l.dropWhile fun u => u ≠ t).tail ++ [tid] := by
  induction l with
  | nil => cases ht
  | cons u rest ih =>
    rw [cons_append, dropWhile_cons, dropWhile_cons]
    split
    · rename_i hne
      refine ih ?_
      rcases mem_cons.1 ht with rfl | ht
      · simp at hne
      · exact ht
    · rfl

theorem submittedAfter_concat (hlog : s'.log = s.log ++ [tid]) (ht : t ∈ s.log) :
    s'.submittedAfter t = s.submittedAfter t ++ [tid] := by
  unfold submittedAfter
  rw [hlog]
  exact tail_dropWhile_concat ht

theorem log_of_submitted (hord : Ordered s) (ht : t ∈ s.unsent) : t ∈ s.log := by
  obtain ⟨done, hlog, _⟩ := hord.log
  rw [hlog]
  exact mem_append_right _ ht

theorem not_mem_log (hord : Ordered s) (hc : s.At tid c) (hu : Unsubmitted c) : tid ∉ s.log := by
  intro ht
  obtain ⟨done, hlog, hdone⟩ := hord.log
  rw [hlog] at ht
  rcases mem_append.1 ht with ht | ht
  · exact (Ordered.unsubmitted hu).2 ((hdone tid ht).phase hc)
  · exact not_mem_unsent hord hc hu ht

/-! ## Steps that submit nothing -/

theorem survives_of (h : Survives s) (hord : Ordered s) (hs : Stepped sealedLen s a s') (hlog : s'.log = s.log)
    (hafter : ∀ t ∈ s.log, ∀ l, l.Sublist s'.unapplied → (t ∈ l ∨ s'.IsApplied t) →
      ∃ l', l'.Sublist s.unapplied ∧ s'.after l = s.after l' ∧ (t ∈ l' ∨ s.IsApplied t)) : Survives s' := by
  intro t ht c' hc' id offset data htask hne huntouched l hl happ
  rw [hlog] at ht
  obtain ⟨c, hc⟩ := get_of_log hord ht
  obtain ⟨u, hu, htasks⟩ := step_tasks hs hc
  cases hc'.symm.trans hu
  have hun : s.Untouched t id offset data.length := by
    intro t' ht' d hd offset' data' hmem
    obtain ⟨d', hd', htk⟩ := step_tasks hs hd
    refine huntouched t' ?_ d' hd' offset' data' (by rw [htk]; exact hmem)
    unfold submittedAfter at ht' ⊢
    rw [hlog]
    exact ht'
  obtain ⟨l', hl', heq, happ'⟩ := hafter t ht l hl happ
  rw [heq]
  exact h t ht c hc id offset data (htasks ▸ htask) hne hun l' hl' happ'

theorem survives_put (h : Survives s) (hord : Ordered s) (hs : Stepped sealedLen s a s')
    (hcalls : s'.calls = s.calls.put tid c') (hdb : s'.db = s.db) (hlog : s'.log = s.log)
    (hun : s'.unapplied = s.unapplied) (hn : tid ∉ s.unapplied) (hw : ∀ t ∈ s'.worker.applied, t ∈ s.worker.applied)
    (happ : c'.phase = .answered (.ok ()) → tid ∈ s.worker.applied) : Survives s' := by
  refine survives_of h hord hs hlog fun t ht l hl hcase => ⟨l, hun ▸ hl, ?_, ?_⟩
  · rw [hun] at hl; exact after_put hcalls hdb fun hm => hn (hl.subset hm)
  rcases hcase with hm | hm | hp
  · exact .inl hm
  · exact .inr (.inl (hw t hm))
  · rw [hcalls] at hp
    by_cases hne : t = tid
    · subst hne; exact .inr (.inl (happ (InPhase.put_self.1 hp)))
    · exact .inr (.inr ((InPhase.put_ne hne).1 hp))

/-! ## Submitting -/

theorem isApplied_submit (he : Enqueued s s' tid c) (h : s'.IsApplied t) : s.IsApplied t := by
  rcases h with hm | hp
  · exact .inl (he.worker ▸ hm)
  rw [he.calls] at hp
  by_cases hne : t = tid
  · subst hne; cases InPhase.put_self.1 hp
  · exact .inr ((InPhase.put_ne hne).1 hp)

theorem not_isApplied (hord : Ordered s) (hc : s.At tid c) (hu : Unsubmitted c) : ¬s.IsApplied tid := by
  rintro (hm | hp)
  · refine not_mem_unsent hord hc hu (mem_append_left _ ?_)
    cases hw : s.worker with
    | settling applied done todo | sending applied result todo =>
      rw [hw] at hm
      cases applied with
      | true => exact hm
      | false => cases hm
    | _ => rw [hw] at hm; cases hm
  · exact (Ordered.unsubmitted hu).2 ⟨_, hp.phase hc⟩

theorem survives_submit (h : Survives s) (htr : Trimmed s) (htail : TailOk s)
    (hstaged : Everywhere (fun _ => True) (fun v c => Laid v c ∧ Complete c) s) (hs : Stepped sealedLen s a s')
    (he : Enqueued s s' tid c) : Survives s' := by
  have hso := htr.sound
  have hord := hso.ordered
  have hc := he.get
  have hp := he.phase
  have hok := hso.separated.call tid c hc
  have hnot := not_mem_unapplied hord hc he.unsubmitted
  have hget := he.get_new
  intro t ht c' hc' id offset data htask hne huntouched l hl happ
  rw [he.unapplied] at hl
  obtain ⟨l₁, l₂, rfl, hl₁, hl₂⟩ := sublist_append_iff.1 hl
  have happ' : t ∈ l₁ ++ l₂ ∨ s.IsApplied t := happ.imp_right (isApplied_submit he)
  obtain ⟨hlaid, hcomp⟩ := hstaged.call l₁ hl₁ tid c hc he.planning
  have hach := (htr.everywhere.call l₁ hl₁ tid c hc he.planning).2
  by_cases hte : t = tid
  · -- the new write: it is applied in the states with it on top
    subst hte
    cases hget.symm.trans hc'
    have hmem : t ∈ l₁ ++ l₂ := happ'.resolve_right (not_isApplied hord hc he.unsubmitted)
    rcases sublist_singleton.1 hl₂ with rfl | rfl
    · rw [append_nil] at hmem; exact absurd (hl₁.subset hmem) hnot
    · rw [he.after_new hord hl₁]; exact written_apply hok hp hach hlaid hcomp htask hne
  have ht' : t ∈ s.log := by
    rw [he.log] at ht
    exact (mem_append.1 ht).resolve_right fun hm => hte (mem_singleton.1 hm)
  have hcold := (at_put_ne he.calls hte).1 hc'
  have happ₁ : t ∈ l₁ ∨ s.IsApplied t := by
    refine happ'.imp_left fun hm => ?_
    rcases mem_append.1 hm with hm | hm
    · exact hm
    · exact absurd (mem_singleton.1 (hl₂.subset hm)) hte
  have hsub : s'.submittedAfter t = s.submittedAfter t ++ [tid] := submittedAfter_concat he.log ht'
  have huntouched' : s.Untouched t id offset data.length := by
    intro t' hm d hd offset' data' hmem
    obtain ⟨d', hd', htasks⟩ := step_tasks hs hd
    exact huntouched t' (by rw [hsub]; exact mem_append_left _ hm) d' hd' offset' data' (by rw [htasks]; exact hmem)
  have hwritten := h t ht' c' hcold id offset data htask hne huntouched' l₁ hl₁ happ₁
  rcases sublist_singleton.1 hl₂ with rfl | rfl
  · rw [append_nil, he.after_old hord hl₁]; exact hwritten
  rw [he.after_new hord hl₁]
  refine hwritten.apply hok hp (htail.pipelined tid c hc) hach hlaid hcomp fun offset' data' hmem => ?_
  exact huntouched tid (by rw [hsub]; exact mem_append_right _ mem_cons_self) _ hget offset' data' hmem

/-! ## The invariant -/

theorem answers_put (h : Answers s) (hcalls : s'.calls = s.calls.put tid c')
    (hw : ∀ applied todo, s'.worker = .sending applied (.ok ()) todo → applied = true)
    (hlog : ∀ t ∈ s.log, t ∈ s'.log)
    (hans : c'.phase = .answered (.ok ()) → tid ∈ s.log ∨ ∀ id offset data, Task.write id offset data ∈ c'.tasks →
      data = []) : Answers s' := by
  refine ⟨hw, fun t u hu hp => ?_⟩
  rcases cases_at hcalls hu with ⟨rfl, rfl⟩ | ⟨-, hu⟩
  · exact (hans hp).imp_left (hlog _)
  · exact (h.logged t u hu hp).imp_left (hlog t)

theorem answers_same (h : Answers s) (hcalls : s'.calls = s.calls) (hlog : s'.log = s.log)
    (hw : ∀ applied todo, s'.worker = .sending applied (.ok ()) todo → applied = true) : Answers s' :=
  ⟨hw, fun t u hu hp => hlog ▸ h.logged t u (at_eq hcalls ▸ hu) hp⟩

theorem answers_send (h : Answers s) (hord : Ordered s) (hr : Replied s s' applied result tid todo c) : Answers s' := by
  refine answers_put h hr.calls (fun b rest heq => ?_) (fun t ht => hr.log ▸ ht) fun _ => .inl ?_
  · rw [hr.worker] at heq
    unfold afterSend at heq
    split at heq
    · cases heq
    · cases heq; exact h.applied _ _ hr.sending
  · refine log_of_submitted hord ?_; rw [hr.unsent]; exact mem_cons_self

theorem step_answers (h : Answers s) (hord : Ordered s)
    (hcomp : ∀ t c, s.At t c → c.phase = .staging [] → Complete c) (hs : Stepped sealedLen s a s') : Answers s' := by
  have hlog : ∀ t ∈ s.log, t ∈ s.log := fun _ ht => ht
  cases hs with
  | spawn hnew hv | compact hnew | lock hc hp hb | start hc hp hfree
  | refused hc hp hplan hres | invalid hc hp | stage hc hp hst | abort hc hp =>
    exact answers_put h rfl h.applied hlog nofun
  | @prepare tid now c task todo ops plan rs q hc hp hplan hres =>
    refine answers_put h rfl h.applied hlog fun hph => ?_
    unfold planned at hph
    split at hph <;> cases hph
  | @noop tid c hc hp he =>
    refine answers_put h rfl h.applied hlog fun _ => .inr fun id offset data ht => ?_
    -- a write that is not empty has staged its extents
    by_contra hne
    have hcov := hcomp tid c hc hp id offset data ht hne
    rw [hp] at hcov
    have hlen : 0 < data.length := length_pos_iff.2 hne
    obtain ⟨e, hmem, _⟩ := (hcov.resolve_left not_mem_nil) _ le_rfl (Nat.div_le_div_right (by omega))
    have hempty := (Bool.and_eq_true_iff.1 he).2
    rw [isEmpty_iff.1 hempty] at hmem
    cases hmem
  | submit hc hp he => exact answers_put h rfl h.applied (fun _ ht => mem_append_left _ ht) nofun
  | drain hw hn hle | apply hw => exact answers_same h rfl rfl nofun
  | @reject late batch hw => cases late <;> exact answers_same h rfl rfl nofun
  | settle hw hc hp => exact answers_put h rfl nofun hlog nofun
  | @reply durable applied done hw =>
    refine answers_same h rfl rfl fun b todo heq => ?_
    obtain ⟨happ, hres, _⟩ := Worker.sending.inj heq
    cases applied with
    | true => exact happ.symm
    | false => cases hres
  | send hw hc hp | sendSettle hw hc hp => exact answers_send h hord ⟨hw, hc, rfl, rfl, rfl, rfl, rfl, rfl, rfl⟩
  | rotate | pack | loadLocation | evictLocation | evictTail => exact answers_same h rfl rfl h.applied

/-- The first call in the worker's hands is answered; a success means that it is applied. -/
theorem survives_send (h : Survives s) (hord : Ordered s) (hs : Stepped sealedLen s a s') (hans : Answers s)
    (hr : Replied s s' applied result tid todo c) : Survives s' := by
  refine survives_put h hord hs hr.calls hr.db hr.log hr.unapplied (unapplied_sending hord hr.sending).2
    (fun t ht => ?_) fun hok => ?_
  · rw [hr.worker, afterSend_applied] at ht
    rw [hr.sending]
    cases applied with
    | true => exact mem_cons_of_mem _ ht
    | false => cases ht
  · have hres : result = .ok () := CallPhase.answered.inj hok
    subst hres
    obtain rfl := hans.applied _ _ hr.sending
    rw [hr.sending]
    exact mem_cons_self

/-- **Every step keeps the applied writes.** -/
theorem step_survives (h : Survives s) (htr : Trimmed s) (htail : TailOk s) (hans : Answers s)
    (hstaged : Everywhere (fun _ => True) (fun v c => Laid v c ∧ Complete c) s) (hs : Stepped sealedLen s a s') :
    Survives s' := by
  have hord := htr.sound.ordered
  have hs' := hs
  cases hs.moved hord with
  | @edit _ _ tid c' he =>
    refine survives_of h hord hs' he.log fun t ht l hl happ => ⟨l, he.unapplied ▸ hl, he.after_eq hord hl, ?_⟩
    -- the calls of the log are submitted or answered
    have hne : t ≠ tid := by
      rintro rfl
      obtain ⟨c, hc⟩ := get_of_log hord ht
      exact not_mem_log hord hc (he.before c hc) ht
    refine happ.imp id (Or.imp (fun hm => he.worker ▸ hm) fun hp => ?_)
    rw [he.calls] at hp
    exact (InPhase.put_ne hne).1 hp
  | shift hm =>
    refine survives_of h hord hs' hm.log fun t ht l hl happ =>
      ⟨l, hl.trans hm.sublist, after_congr hm.db fun t _ => by rw [hm.calls], ?_⟩
    exact happ.imp id (Or.imp (fun ht => hm.applied ▸ ht) fun hp => hm.calls ▸ hp)
  | submit he => exact survives_submit h htr htail hstaged hs' he
  | @apply batch hw =>
    -- a state after the batch is one that has the whole batch
    refine survives_of h hord hs' rfl fun t ht l hl happ => ⟨batch ++ l, ?_, after_applyBatch batch l rfl rfl, ?_⟩
    · rw [unapplied_drained hw]; exact List.Sublist.append_left hl batch
    · rcases happ with hm | hm | hp
      · exact .inl (mem_append_right _ hm)
      · exact .inl (mem_append_left _ hm)
      · exact .inr (.inr hp)
  | @settle applied done tid todo c hw hc hp =>
    obtain ⟨hun, hnot⟩ := unapplied_settling hord hw
    refine survives_put h hord hs' rfl rfl rfl hun.symm hnot (fun t ht => ?_) nofun
    rw [hw]
    cases applied with
    | true => have ht' : t ∈ (done ++ [tid]) ++ todo := ht; rwa [append_assoc] at ht'
    | false => cases ht
  | answer hr => exact survives_send h hord hs' hans hr

end Sys

/-- The writes keep the size and nothing else is done. -/
def Sys.keptWrite (s : Sys) (a : Action) : Bool := s.sizeKept a && a.isWriting

abbrev KeptWrite (s : Sys) (a : Action) : Prop := s.keptWrite a = true

/-- What holds in every run of writes that keep the size. -/
structure Kept (s : Sys) : Prop where
  trimmed : Trimmed s
  tail : TailOk s
  staged : Everywhere (fun _ => True) (fun v c => Laid v c ∧ Complete c) s
  answers : Answers s
  survives : Survives s

namespace Sys

variable {sealedLen : Extent → Nat} {s s' : Sys} {a : Action}

/-- What a call stages is its data over every state that the queue can lead to. -/
theorem step_laid_everywhere (htr : Trimmed s) (htail : TailOk s)
    (h : Everywhere (fun _ => True) (fun v c => Laid v c ∧ Complete c) s) (hs : Stepped sealedLen s a s') :
    Everywhere (fun _ => True) (fun v c => Laid v c ∧ Complete c) s' := by
  have hso := htr.sound
  refine h.step hso hs ?_ ⟨?_, ?_, ?_⟩ fun _ _ _ _ _ _ => trivial
  · intro v v' c hok hag ⟨hlaid, hcomp⟩; exact ⟨hlaid.local hok hag, hcomp⟩
  · intro tid c hc hp l hl; exact ⟨.start (hso.separated.call tid c hc) hp, .start c⟩
  · intro tid now c task todo ops plan rs q _ hc hp hplan _ l hl
    have hok := hso.separated.call tid c hc
    exact ⟨.planned hok hp, (h.call l hl tid c hc (by rw [hp]; trivial)).2.planned hok hp hplan⟩
  · intro tid lane c op todo r hc hp hst l hl
    obtain ⟨hlaid, hcomp⟩ := h.call l hl tid c hc (by rw [hp]; trivial)
    have hfits := (htr.everywhere.call l hl tid c hc (by rw [hp]; trivial)).1
    have hph := (hso.separated.call tid c hc).phase
    unfold Fits at hfits
    rw [hp] at hph hfits
    obtain ⟨id, offset, data, oldSize, rfl⟩ := write_of_pipelined (htail.pipelined tid c hc) (hph.2.1 op mem_cons_self)
    have hsize := (hfits.1 _ mem_cons_self).1
    exact ⟨Laid.staged hso htail hl (htr.everywhere.base l hl) hc hp hst hsize hlaid, hcomp.staged hso hc hp hst⟩

theorem step_kept (h : Kept s) (ha : KeptWrite s a) (hs : Stepped sealedLen s a s') : Kept s' := by
  obtain ⟨hkept, hwr⟩ := Bool.and_eq_true_iff.1 ha
  have hso := h.trimmed.sound
  refine ⟨step_trimmed h.trimmed hkept hs, step_tailOk h.tail hso hwr hs,
    step_laid_everywhere h.trimmed h.tail h.staged hs, step_answers h.answers hso.ordered (fun t c hc hp => ?_) hs,
    step_survives h.survives h.trimmed h.tail h.answers h.staged hs⟩
  exact (h.staged.call [] (nil_sublist _) t c hc (by rw [hp]; trivial)).2

end Sys

/-! ## The result -/

section Result

variable {sealedLen : Extent → Nat} {db : Db} {quota : LogicalQuota} {segments : Segments} {s : Sys}

variable {offset : Nat} {data : List UInt8}

theorem boot_kept (h : db.view.Bounded) : Kept (Sys.boot db quota segments) := by
  exact ⟨boot_trimmed h, boot_tailOk _ _ _, ⟨fun _ _ => trivial, fun _ _ _ _ => no_calls⟩,
    ⟨nofun, fun _ _ => no_calls⟩, fun t ht => absurd ht not_mem_nil⟩

/-- The bytes of a written range are read back. -/
theorem readFile_of_written {id : InodeId} (h : Written db.view id offset data) :
    db.readFile id offset data.length = data := by
  obtain ⟨⟨i, hi, hsize⟩, hbytes⟩ := h
  have hi' : db.inodes.get id = some i := hi
  have hlen : min data.length (recordSize (db.inodes.get id) - offset) = data.length := by
    rw [hi']
    show min data.length (i.size - offset) = _
    omega
  unfold Db.readFile
  rw [hlen]
  refine ext_getElem (by simp) fun k h1 h2 => ?_
  rw [getElem_map, getElem_range, hbytes _ (by omega) (by omega), Nat.add_sub_cancel_left,
    getD_eq_getElem?_getD, getElem?_eq_getElem h2, Option.getD_some]

/-- **An acknowledged write survives.** In every run of writes that keep the size, whichever batches are rejected, a
write that is answered with success, and that no later one touches, is committed: the file covers its range and has its
bytes there. -/
theorem acknowledged_write_survives (h : db.view.Bounded)
    (hr : Reach (Sys.step sealedLen) KeptWrite (Sys.boot db quota segments) s) {tid : Nat} {c : Call} {id : InodeId}
    (hc : s.calls.get tid = some c) (hans : c.phase = .answered (.ok ())) (ht : Task.write id offset data ∈ c.tasks)
    (hne : data ≠ []) (hun : s.Untouched tid id offset data.length) :
    (∃ i, s.db.inodes.get id = some i ∧ offset + data.length ≤ i.size) ∧
    s.db.readFile id offset data.length = data := by
  have hinv := hr.invariant (I := Kept) (boot_kept h) fun s a t hi ha hstep =>
    Sys.step_kept hi ha (hi.trimmed.sound.stepped (Sys.awaited_of_sizeKept (Bool.and_eq_true_iff.1 ha).1) hstep)
  have hlog : tid ∈ s.log := (hinv.answers.logged tid c hc hans).resolve_right fun hnil => hne (hnil id offset data ht)
  have hwritten := hinv.survives tid hlog c hc id offset data ht hne hun [] (nil_sublist _) (.inr (.inr ⟨c, hc, hans⟩))
  exact ⟨hwritten.1, readFile_of_written hwritten⟩

end Result

/-- The second write of `rejectedGrowth` is answered. -/
def acknowledgedRun (later : Nat → Timestamp) : List Action := rejectedGrowth later ++ [.settle, .reply true, .send]

theorem acknowledged_write_survives_rejected :
    ∃ s, Reach (Sys.step Sample.sealedLen) KeptWrite (Sample.boot 1000000) s ∧ s.db.readFile 1 65536 1 = [8] := by
  obtain ⟨s, hr, c, hc, hans, htasks, hafter⟩ : ∃ s, Reach (Sys.step Sample.sealedLen) KeptWrite (Sample.boot 1000000)
    s ∧ ∃ c, s.At 1 c ∧ c.phase = .answered (.ok ()) ∧ c.tasks = [.write 1 65536 [8]] ∧ s.submittedAfter 1 = [] :=
    ⟨_, reach_of_run .init (l := acknowledgedRun fun _ => ⟨1, 0⟩) rfl, _, rfl, rfl, rfl, rfl⟩
  have ht : Task.write 1 65536 [8] ∈ c.tasks := by
    rw [htasks]
    exact mem_cons_self
  have hun : s.Untouched 1 1 65536 1 := by
    intro t ht
    rw [hafter] at ht
    cases ht
  exact ⟨s, hr, (acknowledged_write_survives Sample.counts_exact.bounded hr hc hans ht (cons_ne_nil _ _) hun).2⟩

/-- The acknowledged write adopted the size of a rejected one: the file is empty. -/
theorem acknowledged_write_lost : ∃ s c,
    run (Sys.step Sample.sealedLen) (Sample.boot 1000000) (acknowledgedRun Sample.now) = some s ∧
    s.calls.get 1 = some c ∧
      c.phase = .answered (.ok ()) ∧ c.tasks = [.write 1 65536 [8]] ∧ s.Untouched 1 1 65536 1 ∧
      (s.db.inodes.get 1).map Inode.size = some 0 ∧ s.db.readFile 1 65536 1 = [] :=
  ⟨_, _, rfl, rfl, rfl, rfl, (fun _ ht => absurd ht not_mem_nil), rfl, rfl⟩

end ZeroFS
