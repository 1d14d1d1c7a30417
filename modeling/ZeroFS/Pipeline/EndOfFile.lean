import ZeroFS.Pipeline.Steady

/-!
# No extent lies past the end of its file

A write that saves no record may end below the size of a queued write only; when that one is rejected its extents are
committed without the size. In runs where each write saves the record or ends below the committed size (`Sys.sizeKept`)
every state that the queue can lead to is bounded.
-/

namespace ZeroFS

open Machine Updates List

/-! ## The condition -/

/-- The write saves the record of its file, or it ends below the committed size. -/
def Sys.writeKept (s : Sys) (now : Nat → Timestamp) (creds : Credentials) (id : InodeId) (offset : Nat)
    (data : List UInt8) : Bool :=
  match s.visible id with
  | some (.leaf ⟨.file size, a, _, _, _⟩) =>
    data = [] || size < offset + data.length || (creds.uid ≠ a.uid && creds.uid ≠ 0 && a.mode &&& 0o6000 ≠ 0) ||
      a.mtime.seconds ≠ (now 0).seconds || a.ctime.seconds ≠ (now 0).seconds ||
      offset + data.length ≤ recordSize (s.db.inodes.get id)
  | _ => true

/-- A step that prepares a write prepares one that keeps the size, and every caller waits. -/
def Sys.sizeKept (s : Sys) : Action → Bool
  | .prepare tid now =>
    match s.calls.get tid with
    | some c =>
      match c.phase with
      | .preparing (.write id offset data :: _) _ => s.writeKept now c.creds id offset data
      | _ => true
    | none => true
  | .drop _ => false
  | _ => true

abbrev SizeKept (s : Sys) (a : Action) : Prop := s.sizeKept a = true

theorem Sys.awaited_of_sizeKept {s : Sys} {a : Action} (h : s.sizeKept a = true) : a.awaited = true := by
  cases a <;> first | rfl | cases h

/-- A write leaves its file at least as long, and at least up to where it ends. -/
def WriteSafe (before after : Option Inode) : Task → Prop
  | .write _ offset data => ∃ b a, before = some b ∧ after = some a ∧ b.size ≤ a.size ∧
      (data ≠ [] → offset + data.length ≤ a.size)
  | _ => True

/-! ## Planning -/

section Planning

variable {now : Nat → Timestamp} {creds : Credentials} {checkPermissions : Bool} {inode w : Option Inode} {plan : Plan}
  {task : Task}

/-- The only operation that is not safe without a row is a write. -/
theorem OpFits.safe_rowless {op : ExtentOp} (h : OpFits inode inode op) (hg : Grows w inode)
    (hw : ∀ id offset data oldSize, op = .write id offset data oldSize → ∀ a, w = some a →
      offset + data.length ≤ a.size) : OpSafe w w op := by
  cases op with
  | write id offset data oldSize =>
    obtain ⟨b, _, hb, _, rfl, _⟩ := h
    exact ⟨hg b hb, .refl w, hw _ _ _ _ rfl⟩
  | truncate id oldSize newSize =>
    obtain ⟨b, a, hb, ha, rfl, rfl⟩ := h
    cases hb.symm.trans ha
    simp only [OpSafe, lt_irrefl, if_false]
    exact .refl w
  | zeroRange | deleteRange | repoint => exact .refl w

theorem writeRecord_eq_none {l : LeafInode} {size offset len : Nat}
    (h : NsDb.writeRecord now creds l size offset len = none) :
    offset + len ≤ size ∧ ¬(creds.uid ≠ l.attrs.uid ∧ creds.uid ≠ 0 ∧ l.attrs.mode &&& 0o6000 ≠ 0) ∧
      l.attrs.mtime.seconds = (now 0).seconds ∧ l.attrs.ctime.seconds = (now 0).seconds := by
  unfold NsDb.writeRecord at h
  dsimp only at h
  split at h
  · cases h
  rename_i hn
  simp only [not_or, not_not] at hn
  exact ⟨by omega, hn.2.1, hn.2.2.1, hn.2.2.2⟩

/-- A write without a row ends below the committed size. -/
theorem le_committed_of_rowless {s : Sys} {id : InodeId} {offset : Nat} {data : List UInt8}
    (hplan : (Task.write id offset data).plan now creds checkPermissions (s.visible id) = .ok plan)
    (hkept : s.writeKept now creds id offset data = true) (hops : plan.ops ≠ [])
    (hrow : plan.row (s.visible id) = none) : offset + data.length ≤ recordSize (s.db.inodes.get id) := by
  obtain ⟨i, hi, hp⟩ := withInode_eq_ok hplan
  obtain ⟨size, a, p, n, k, rfl, ⟨_, rfl⟩ | ⟨hne, _, rfl⟩⟩ := planWrite_ok hp
  · exact absurd rfl hops
  have hrec : NsDb.writeRecord now creds ⟨.file size, a, p, n, k⟩ size offset data.length = none := by
    rw [hi] at hrow
    cases hr : NsDb.writeRecord now creds ⟨.file size, a, p, n, k⟩ size offset data.length with
    | none => rfl
    | some l => rw [hr] at hrow; cases hrow
  obtain ⟨hle, hclear, hm, hc⟩ := writeRecord_eq_none hrec
  unfold Sys.writeKept at hkept
  rw [hi] at hkept
  simp only [Bool.or_eq_true, Bool.and_eq_true, decide_eq_true_eq] at hkept
  rcases hkept with ((((hnil | hlt) | hcl) | hms) | hcs) | hle'
  · exact absurd hnil hne
  · omega
  · exact absurd ⟨hcl.1.1, hcl.1.2, hcl.2⟩ hclear
  · exact absurd hm hms
  · exact absurd hc hcs
  · exact hle'

/-- **A planned task is safe for a file that is no longer than the record it read**, when a write without a row ends
below its size. -/
theorem plan_safe (hplan : task.plan now creds checkPermissions inode = .ok plan) (hg : Grows w inode)
    (hw : ∀ id offset data, task = .write id offset data → plan.ops ≠ [] → plan.row inode = none →
      ∀ a, w = some a → offset + data.length ≤ a.size) :
    (∀ op ∈ plan.ops, OpSafe w ((plan.row inode).getD w) op) ∧ (plan.ops = [] → Grows w ((plan.row inode).getD w)) ∧
      WriteSafe w ((plan.row inode).getD w) task := by
  obtain ⟨⟨_, hops⟩, hfits, hgrows, _⟩ := plan_ok hplan
  rw [Plan.after_eq] at hfits hgrows
  have hsafe : ∀ op ∈ plan.ops, OpSafe w ((plan.row inode).getD w) op := by
    intro op hop
    have hfit := hfits op hop
    have hok := hops [task] mem_cons_self op hop
    cases hrow : plan.row inode with
    | some value => rw [hrow] at hfit; exact hfit.safe hg
    | none =>
      rw [hrow] at hfit
      refine hfit.safe_rowless hg ?_
      rintro id offset data oldSize rfl
      exact hw id offset data (mem_singleton.1 hok.2).symm (ne_nil_of_mem hop) hrow
  have hnil : plan.ops = [] → Grows w ((plan.row inode).getD w) := by
    intro hnil
    have hgr := hgrows hnil
    cases hrow : plan.row inode with
    | some value => rw [hrow] at hgr; exact hg.trans hgr
    | none => exact .refl w
  refine ⟨hsafe, hnil, ?_⟩
  cases task with
  | write id offset data =>
    obtain ⟨i, rfl, hp⟩ := withInode_eq_ok hplan
    obtain ⟨size, a, p, n, k, rfl, ⟨hempty, rfl⟩ | ⟨hne, _, rfl⟩⟩ := planWrite_ok hp
    · obtain ⟨x, hx, _⟩ := hg _ rfl; exact ⟨x, x, hx, hx, le_rfl, fun hne => absurd hempty hne⟩
    obtain ⟨⟨x, hx, _⟩, hgrow, hend⟩ := hsafe _ mem_cons_self
    -- the record is the written one, or that of the file before
    have hsome : ∃ y, (Plan.row
        { update := (NsDb.writeRecord now creds ⟨.file size, a, p, n, k⟩ size offset data.length).map (some ∘ .leaf)
          ops := [.write id offset data size]
          growth := max size (offset + data.length) - size }
        (some (.leaf ⟨.file size, a, p, n, k⟩))).getD w = some y := by
      cases NsDb.writeRecord now creds ⟨.file size, a, p, n, k⟩ size offset data.length with
      | some l => exact ⟨_, rfl⟩
      | none => exact ⟨x, hx⟩
    obtain ⟨y, hy⟩ := hsome
    obtain ⟨b, hb, hle⟩ := hgrow y hy
    exact ⟨b, y, hb, hy, hle, fun _ => hend y hy⟩
  | _ => trivial

end Planning

/-! ## The invariant -/

/-- What holds in every run whose writes keep the size. -/
structure Trimmed (s : Sys) : Prop where
  sound : Sound s
  heldLast : HeldLast s
  everywhere : Everywhere View.Bounded (fun v c => Fits OpSafe v c ∧ Achieves WriteSafe v c) s
  steady : ∀ id, ¬Locked s id → Steady s id

namespace Sys

variable {sealedLen : Extent → Nat} {s s' : Sys} {a : Action}

theorem not_locked_planning (hso : Sound s) {tid : Nat} {c : Call} (hc : s.At tid c) (hp : c.phase.planning)
    {id : InodeId} (hid : id ∈ c.ids) : ¬Locked s id := by
  rintro ⟨t, u, hu, hsub, hheld⟩
  have hmine := Viewed.ids_held (hso.separated.call tid c hc) hp hid
  by_cases hne : t = tid
  · subst hne
    cases hc.symm.trans hu
    cases hph : c.phase <;> rw [hph] at hp hsub <;> first | exact hp | exact hsub
  · exact hso.separated.exclusive t tid u c hu hc hne id hheld hmine

theorem plan_safe_everywhere (h : Trimmed s) {tid : Nat} {now : Nat → Timestamp} {c : Call} {task : Task}
    {todo : List Task} {ops : List ExtentOp} {plan : Plan} (ha : SizeKept s (.prepare tid now)) (hc : s.At tid c)
    (hp : c.phase = .preparing (task :: todo) ops)
    (hplan : task.plan now c.creds c.checkPermissions (s.visible task.id) = .ok plan) {l : List Nat}
    (hl : l.Sublist s.unapplied) :
    (∀ op ∈ plan.ops, OpSafe ((s.after l).inode task.id)
      ((plan.row (s.visible task.id)).getD ((s.after l).inode task.id)) op) ∧
      (plan.ops = [] → Grows ((s.after l).inode task.id)
        ((plan.row (s.visible task.id)).getD ((s.after l).inode task.id))) ∧
      WriteSafe ((s.after l).inode task.id) ((plan.row (s.visible task.id)).getD ((s.after l).inode task.id)) task := by
  have hph := (h.sound.separated.call tid c hc).phaseOk hp
  have hid : task.id ∈ c.ids := mem_map_of_mem (f := Task.id) (hph.2.2.1 task mem_cons_self)
  have hsteady := h.steady task.id (not_locked_planning h.sound hc (by rw [hp]; trivial) hid)
  refine plan_safe hplan (hsteady.visible l hl) ?_
  rintro id offset data rfl hops hrow b hb
  have hkept : s.writeKept now c.creds id offset data = true := by
    have ha' : s.sizeKept (.prepare tid now) = true := ha
    unfold sizeKept at ha'
    simp only [hc, hp] at ha'
    exact ha'
  have hle := le_committed_of_rowless hplan hkept hops hrow
  -- the committed record is the start of the queue
  obtain ⟨x, hx, hxb⟩ := hsteady.mono [] l (by rw [nil_append]; exact hl) b hb
  have hx' : s.db.inodes.get id = some x := hx
  refine (Nat.le_trans hle ?_).trans hxb
  show recordSize (s.db.inodes.get id) ≤ x.size
  rw [hx']
  exact le_rfl

theorem step_everywhere (h : Trimmed s) (ha : SizeKept s a) (hs : Stepped sealedLen s a s') :
    Everywhere View.Bounded (fun v c => Fits OpSafe v c ∧ Achieves WriteSafe v c) s' := by
  have hso := h.sound
  refine h.everywhere.step hso hs ?_ ⟨?_, ?_, ?_⟩ ?_
  · intro v v' c hok hag hf; exact ⟨hf.1.local hok hag, hf.2.local hag⟩
  · intro tid c hc hp l hl
    exact ⟨⟨fun op hop => absurd hop not_mem_nil, fun id hid _ hnot => absurd hid hnot⟩,
      fun t ht hnot => absurd (mem_map_of_mem ht) hnot⟩
  · rintro tid now c task todo ops plan rs q rfl hc hp hplan _ l hl
    obtain ⟨hsafe, hnil, hwrite⟩ := plan_safe_everywhere h ha hc hp hplan hl
    have hok := hso.separated.call tid c hc
    obtain ⟨hf, hlen⟩ := h.everywhere.call l hl tid c hc (by rw [hp]; trivial)
    exact ⟨hf.planned hok hp (h.everywhere.base l hl) hplan hsafe hnil, hlen.planned hok hp hwrite⟩
  · intro tid lane c op todo r hc hp hst l hl
    obtain ⟨hf, hlen⟩ := h.everywhere.call l hl tid c hc (by rw [hp]; trivial)
    have hsafe : OpSafe ((s.after l).inode op.id) (((s.after l).apply c.txn).inode op.id) op := by
      unfold Fits at hf
      rw [hp] at hf
      exact hf.1 op mem_cons_self
    exact ⟨hf.staged hso hc hp hst (bounded_staged hso hl (h.everywhere.base l hl) hc hp hst hsafe), hlen.staged hp⟩
  · intro tid c hc hp l hl
    exact (h.everywhere.call l hl tid c hc (by rw [hp]; trivial)).1.bounded (hso.separated.call tid c hc) hp
      (h.everywhere.base l hl)

/-- **Runs whose writes keep the size.** -/
theorem step_trimmed (h : Trimmed s) (ha : SizeKept s a) (hs : Stepped sealedLen s a s') : Trimmed s' := by
  refine ⟨h.sound.step hs, step_heldLast h.heldLast h.sound hs, step_everywhere h ha hs, ?_⟩
  refine step_steady h.steady h.sound h.heldLast (fun tid c hc hp hpipe id hid l hl => ?_) hs
  have hach := (h.everywhere.call l hl tid c hc (by rw [hp]; trivial)).2
  unfold Achieves at hach
  rw [hp] at hach
  obtain ⟨t, ht, rfl⟩ := mem_map.1 hid
  have hwrite := all_eq_true.1 hpipe t ht
  have hsafe := hach t ht
  cases t with
  | write id offset data =>
    obtain ⟨b, a, hb, ha, hle, _⟩ := hsafe
    intro y hy
    cases ha.symm.trans hy
    exact ⟨b, hb, hle⟩
  | _ => cases hwrite

end Sys

/-! ## The result -/

section Result

variable {sealedLen : Extent → Nat} {db : Db} {quota : LogicalQuota} {segments : Segments} {s : Sys}

theorem boot_trimmed (h : db.view.Bounded) : Trimmed (Sys.boot db quota segments) := by
  refine ⟨boot_sound _ _ _, List.Pairwise.nil, ⟨fun l hl => ?_, fun _ _ _ _ => no_calls⟩, fun id _ => ?_⟩
  · cases sublist_nil.1 hl; exact h
  refine ⟨fun l l' hl => ?_, fun l hl => ?_⟩
  · obtain ⟨rfl, rfl⟩ := append_eq_nil_iff.1 (sublist_nil.1 hl); exact .refl _
  · cases sublist_nil.1 hl; exact .refl _

/-- **No extent lies at or past the end of its file**, in any run whose writes keep the size, whichever batches are
rejected. -/
theorem extents_end_with_file (h : db.view.Bounded)
    (hr : Reach (Sys.step sealedLen) SizeKept (Sys.boot db quota segments) s) :
    ∀ id idx f i, s.db.extents.get (id, idx) = some f → s.db.inodes.get id = some i → idx < extentCount i.size := by
  have hinv := hr.invariant (I := Trimmed) (boot_trimmed h) fun s a t hi ha hstep =>
    Sys.step_trimmed hi ha (hi.sound.stepped (Sys.awaited_of_sizeKept ha) hstep)
  exact hinv.everywhere.base [] (nil_sublist _)

end Result

/-- A write grows file 1 to six extents and is rejected; a second write, into the third extent, is applied. In the
sample the second write comes a second later and saves the record. -/
def rejectedGrowth (later : Nat → Timestamp) : List Action :=
  Sample.write 0 1 163840 [7] ++
    [.spawn 1 [.write 1 65536 [8]] .root false, .lock 1, .start 1, .prepare 1 later, .stage 1 0, .submit 1,
      .drain 1, .reject false, .send, .drain 1, .apply]

theorem extents_end_with_file_rejected : ∃ s f i, Reach (Sys.step Sample.sealedLen) SizeKept (Sample.boot 1000000) s ∧
    s.db.extents.get (1, 2) = some f ∧ s.db.inodes.get 1 = some i ∧ i.size = 163841 ∧ 2 < extentCount i.size := by
  have hr : Reach (Sys.step Sample.sealedLen) SizeKept (Sample.boot 1000000) _ :=
    reach_of_run .init (l := rejectedGrowth fun _ => ⟨1, 0⟩) rfl
  exact ⟨_, _, _, hr, rfl, rfl, rfl, extents_end_with_file Sample.counts_exact.bounded hr 1 2 _ _ rfl rfl⟩

/-- The second write adopted the size of the rejected one: its extent lies past the end of the empty file. -/
theorem adopted_size_lost : ∃ s f i,
    run (Sys.step Sample.sealedLen) (Sample.boot 1000000) (rejectedGrowth Sample.now) = some s ∧
    s.db.extents.get (1, 2) = some f ∧ s.db.inodes.get 1 = some i ∧ ¬2 < extentCount i.size :=
  ⟨_, _, _, rfl, rfl, rfl, by decide +kernel⟩

end ZeroFS
