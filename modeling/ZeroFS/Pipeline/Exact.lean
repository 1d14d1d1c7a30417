import ZeroFS.Pipeline.Bounded
import ZeroFS.Pipeline.Counters

/-!
# Exact counters

Without a rejected batch no extent key lies past the end of its file, so the superseded frame that a call does not look
up does not exist: every debit is the stored location.
-/

namespace ZeroFS

open Machine Updates Table

/-! ## Debits -/

section Staging

variable {s : Sys} {tid : Nat} {c : Call} {op : ExtentOp} {todo : List ExtentOp} {r : Sys.Staged}

theorem OpFits.oldSize {before after : Option Inode} {size : Nat} (h : OpFits before after op)
    (hs : op.oldSize = some size) : ∃ b, before = some b ∧ b.size = size := by
  cases op with
  | write | truncate | zeroRange => obtain ⟨b, _, hb, _, hsize, _⟩ := h; cases hs; exact ⟨b, hb, hsize⟩
  | deleteRange => cases hs
  | repoint => cases hs

/-- **Debits are exact**: past the end of the file nothing is stored. -/
theorem debit_exact (hso : Sound s) (hB : s.view.Bounded) (hc : s.At tid c)
    (hp : c.phase = .staging (op :: todo)) (hok : Sys.StagedOk s op r)
    (hfits : OpFits (s.view.inode op.id) ((s.view.apply c.txn).inode op.id) op) :
    ∀ e ∈ r.passes.flatten, e.debit = s.db.locOf e.key := by
  intro e he
  rcases hok.debit e he with hd | ⟨hd, size, hsize, hle⟩
  · exact hd
  obtain ⟨b, hb, rfl⟩ := hfits.oldSize hsize
  have hkey : e.key = (op.id, e.key.2) := by rw [← hok.key_id e he]
  unfold Db.locOf
  rw [hd, ← after_frame_staged hso hc hp (List.Sublist.refl _) hok he, Sys.after_unapplied]
  cases hf : s.view.frame e.key with
  | none => rfl
  | some f => rw [hkey] at hf; exact absurd (hB op.id e.key.2 f b hf hb) (Nat.not_lt.2 hle)

end Staging

/-! ## Runs without a rejected batch -/

/-- No batch is rejected, and every caller waits. -/
def Action.noReject : Action → Bool
  | .reject _ | .drop _ => false
  | _ => true

abbrev NoReject (_ : Sys) (a : Action) : Prop := a.noReject = true

theorem Action.awaited_of_noReject {a : Action} (h : a.noReject = true) : a.awaited = true := by
  cases a <;> first | rfl | cases h

/-- What a run without a rejected batch keeps. -/
structure Exact (s : Sys) : Prop where
  sound : Sound s
  counted : Counted s
  accepted : s.worker.rejected = []
  viewed : Viewed View.Bounded Fitted s
  debit : Debited (fun debit loc => debit = loc) s
  live : ∀ g, s.db.liveOf g = s.db.namedIn g

namespace Sys

variable {sealedLen : Extent → Nat} {s s' : Sys} {a : Action}

theorem step_accepted (h : s.worker.rejected = []) (hs : Stepped sealedLen s a s') (ha : NoReject s a) :
    s'.worker.rejected = [] := by
  cases hs with
  | reject hw => cases ha
  | drain hw => rfl
  | apply hw => rfl
  | @settle applied done tid todo c hw hc hp =>
    rw [hw] at h
    cases applied with
    | true => rfl
    | false => simp [Worker.rejected] at h
  | @reply durable applied done hw =>
    rw [hw] at h
    cases applied with
    | true => rfl
    | false => simpa [Worker.rejected] using h
  | @send applied result tid todo c hw hc hp | @sendSettle applied result tid todo c hw hc hp =>
    rw [hw] at h
    cases applied with
    | true => exact afterSend_rejected _ _ _
    | false => simp [Worker.rejected] at h
  | _ => exact h

/-- Without a rejected batch every reader sees the view. -/
theorem visible_of_accepted (hso : Sound s) (h : s.worker.rejected = []) (id : InodeId) :
    s.visible id = s.view.inode id := by
  refine visible_eq_view hso.overlaid hso.ordered ?_
  rw [h]
  exact nofun

theorem step_fitted (hso : Sound s) (hacc : s.worker.rejected = []) (h : Viewed View.Bounded Fitted s)
    (hs : Stepped sealedLen s a s') (ha : NoReject s a) : Viewed View.Bounded Fitted s' := by
  refine h.step hso hs (fun v v' c hok hag hf => hf.local hok hag) ⟨?_, ?_, ?_⟩ ?_ ?_
  · intro tid c hc hp
    exact ⟨fun op hop => absurd hop List.not_mem_nil, fun id hid _ hnot => absurd hid hnot⟩
  · intro tid now c task todo ops plan rs q _ hc hp hplan _
    have hsee := visible_of_accepted hso hacc task.id
    rw [hsee] at hplan ⊢
    have hok := plan_ok hplan
    refine Fits.planned (hso.separated.call tid c hc) hp h.base (h.call tid c hc (by rw [hp]; trivial)) hplan ?_ ?_
    · rw [← Plan.after_eq]; exact hok.fits
    · rw [← Plan.after_eq]; exact hok.grows
  · intro tid lane c op todo r hc hp hst
    have hf := h.call tid c hc (by rw [hp]; trivial)
    have hfits : OpFits (s.view.inode op.id) ((s.view.apply c.txn).inode op.id) op := by
      unfold Fitted Fits at hf
      rw [hp] at hf
      exact hf.1 op List.mem_cons_self
    exact hf.staged hso hc hp hst (bounded_staged hso (List.Sublist.refl _) h.base hc hp hst (hfits.safe (.refl _)))
  · intro tid c hc hp
    exact (h.call tid c hc (by rw [hp]; trivial)).bounded (hso.separated.call tid c hc) hp h.base
  · rintro late rfl; cases ha

theorem step_debit_exact (hso : Sound s) (hview : Viewed View.Bounded Fitted s)
    (h : Debited (fun debit loc => debit = loc) s) (hs : Stepped sealedLen s a s') :
    Debited (fun debit loc => debit = loc) s' := by
  refine step_debited h hso.separated hso.ordered hs fun tid lane c op todo r hc hp hst => ?_
  have hf := hview.call tid c hc (by rw [hp]; trivial)
  unfold Fitted Fits at hf
  rw [hp] at hf
  have hok := ((hso.separated.call tid c hc).staged hso.stored.cached hp hst).1
  exact debit_exact hso hview.base hc hp hok (hf.1 op List.mem_cons_self)

/-- The counters only move when a batch is applied, and then by what it names more and supersedes. -/
theorem step_live (hso : Sound s) (hcnt : Counted s) (hd : Debited (fun debit loc => debit = loc) s)
    (h : ∀ g, s.db.liveOf g = s.db.namedIn g) (hs : Stepped sealedLen s a s') (g : Segid) :
    s'.db.liveOf g = s'.db.namedIn g := by
  cases hs with
  | @apply batch hw =>
    obtain ⟨hkeys, hcounts⟩ := counts_apply hcnt hso hw
    have hmem : ∀ t ∈ batch, t ∈ s.unapplied := fun t ht => List.mem_append_left _ (by rw [hw]; exact ht)
    have hexact : debitIn g (s.editsOf batch) = s.db.supersededIn g (s.editsOf batch) := by
      refine Db.debitIn_eq fun e he => ?_
      obtain ⟨t, ht, c, hc, he⟩ := mem_editsOf.1 he
      exact hd t c hc (.inr (hmem t ht)) e he
    have hnamed : (s.db.applyBatch (s.txnsOf batch)).namedIn g + s.db.supersededIn g (s.editsOf batch) =
        s.db.namedIn g + bytesIn g (s.editsOf batch) := Db.namedIn_applyBatch hkeys
    have hlive := (hcounts g).1
    have hg := h g
    show (s.db.applyBatch (s.txnsOf batch)).liveOf g = (s.db.applyBatch (s.txnsOf batch)).namedIn g
    omega
  | _ => exact h g

/-- **Without a rejected batch the counters stay exact.** -/
theorem step_exact (h : Exact s) (ha : NoReject s a) (hs : Stepped sealedLen s a s') : Exact s' :=
  ⟨h.sound.step hs, step_counted h.counted h.sound hs, step_accepted h.accepted hs ha,
    step_fitted h.sound h.accepted h.viewed hs ha, step_debit_exact h.sound h.viewed h.debit hs,
    step_live h.sound h.counted h.debit h.live hs⟩

end Sys

/-! ## The result -/

/-- The counters of the store at rest: they cover the named frames and stay within the segments. -/
structure Db.CountsOk (db : Db) (segments : Segments) : Prop where
  ok : segments.Ok
  total_le : ∀ g, db.totalOf g ≤ segments.used g
  live_le : ∀ g, db.liveOf g ≤ db.totalOf g
  named_le : ∀ g, db.namedIn g ≤ db.liveOf g

/-- The store at rest has exact counters, and no extents past the end of a file. -/
structure Db.CountsExact (db : Db) : Prop where
  live : ∀ g, db.liveOf g = db.namedIn g
  bounded : db.view.Bounded

section Result

variable {sealedLen : Extent → Nat} {db : Db} {quota : LogicalQuota} {segments : Segments} {s : Sys}

theorem boot_counted (h : db.CountsOk segments) : Counted (Sys.boot db quota segments) := by
  refine ⟨h.ok, fun g => ?_, h.live_le, h.named_le⟩
  exact h.total_le g

theorem boot_exact (h : db.CountsOk segments) (hex : db.CountsExact) : Exact (Sys.boot db quota segments) := by
  exact ⟨boot_sound _ _ _, boot_counted h, rfl, ⟨hex.bounded, fun _ _ => no_calls⟩,
    fun _ _ => no_calls, hex.live⟩

/-- **The live counter never undercounts.** In every run the stored live bytes of a segment cover the frames that extent
keys name, and the total covers the live bytes; in a run without a rejected batch the live bytes are exact. -/
theorem live_covers_named (h : db.CountsOk segments) :
    (Reach (Sys.step sealedLen) Awaited (Sys.boot db quota segments) s →
      ∀ g, s.db.namedIn g ≤ s.db.liveOf g ∧ s.db.liveOf g ≤ s.db.totalOf g) ∧
    (db.CountsExact → Reach (Sys.step sealedLen) NoReject (Sys.boot db quota segments) s →
      ∀ g, s.db.liveOf g = s.db.namedIn g) := by
  refine ⟨fun hr g => ?_, fun hex hr g => ?_⟩
  · have hinv := hr.invariant (I := fun s => Sound s ∧ Counted s) ⟨boot_sound _ _ _, boot_counted h⟩
      fun s a t hi ha hstep =>
        have hs := hi.1.stepped ha hstep
        ⟨hi.1.step hs, Sys.step_counted hi.2 hi.1 hs⟩
    exact ⟨hinv.2.named_le g, hinv.2.live_le g⟩
  · have hinv := hr.invariant (I := Exact) (boot_exact h hex)
      fun s a t hi ha hstep => Sys.step_exact hi ha (hi.sound.stepped (Action.awaited_of_noReject ha) hstep)
    exact hinv.live g

end Result

/-! ## A run -/

namespace Sample

def file : Inode := .leaf ⟨.file 0, ⟨⟨0, 0⟩, ⟨0, 0⟩, ⟨0, 0⟩, 0o644, 0, 0⟩, some 0, some [0x61], 1⟩

def db : Db := ⟨(empty.put 1 file).put 2 file, empty, empty⟩

/-- The open segment of the only lane. -/
def segid : Segid := ⟨1, 0⟩

def segments : Segments := ⟨1, 1, [segid], empty.put segid ⟨0, 0⟩⟩

/-- A file system with two empty files and a quota of `maxBytes`. -/
def boot (maxBytes : Nat) : Sys := Sys.boot db (.new maxBytes 0) segments

def now (_ : Nat) : Timestamp := ⟨0, 0⟩

def sealedLen (_ : Extent) : Nat := 41

/-- A call up to its submission. -/
def submit (tid : Nat) (task : Task) : List Action :=
  [.spawn tid [task] .root false, .lock tid, .start tid, .prepare tid now, .stage tid 0, .submit tid]

def write (tid id offset : Nat) (data : List UInt8) : List Action := submit tid (.write id offset data)

theorem counts : db.CountsOk segments := by
  have hused : ∀ g, segments.used g = 0 := by
    intro g
    unfold Segments.used Segments.infoOf segments
    rw [get_put]
    split <;> rfl
  have hinfo : ∀ g, (segments.info.get g).isSome → g = segid := by
    intro g hg
    unfold segments at hg
    rw [get_put] at hg
    split at hg
    · assumption
    · cases hg
  refine ⟨⟨fun g => ?_, fun g hg => ?_, fun g hg _ => ?_⟩, fun g => Nat.zero_le _, fun g => Nat.zero_le _,
    fun g => Nat.zero_le _⟩
  · rw [hused]; exact Nat.zero_le _
  · rw [List.mem_singleton.1 hg]; rfl
  · rw [hinfo g hg]; exact Nat.zero_lt_one

theorem counts_exact : db.CountsExact := by
  refine ⟨fun g => rfl, fun id idx f i hf => ?_⟩
  cases (get_empty (id, idx)).symm.trans hf

end Sample

/-- One byte is written and overwritten: the segment holds two frames of 45 bytes, one of them live. -/
def overwriteRun : List Action :=
  Sample.write 0 1 0 [7] ++ [.drain 1, .apply, .settle, .reply true, .send] ++ Sample.write 1 1 0
    [8] ++ [.drain 1, .apply]

theorem live_covers_named_overwrite : ∃ s, Reach (Sys.step Sample.sealedLen) NoReject (Sample.boot 10) s ∧
    s.db.namedIn Sample.segid = 45 ∧ s.db.totalOf Sample.segid = 90 ∧ s.db.liveOf Sample.segid = 45 := by
  have hr : Reach (Sys.step Sample.sealedLen) NoReject (Sample.boot 10) _ := reach_of_run .init (l := overwriteRun) rfl
  have hnamed := (live_covers_named Sample.counts).2 Sample.counts_exact hr Sample.segid
  exact ⟨_, hr, by decide +kernel, by decide +kernel, hnamed.trans (by decide +kernel)⟩

/-- A device striped over the files 1 and 2 is trimmed: the trim of file 1 is rejected, which drops the queued trim of
file 2. The client then trims file 2 again. -/
def droppedTrim : List Action :=
  Sample.write 0 1 0 [7] ++ Sample.write 1 2 32767 [8, 8] ++ [.drain 2, .apply, .settle, .settle, .reply true, .send,
    .send] ++ Sample.submit 2 (.trim 1 0 32768) ++ Sample.submit 3 (.trim 2 0 32768) ++ [.drain 1, .reject false, .send,
    .drop 3] ++ Sample.submit 4 (.trim 2 0 32768) ++ [.drain 2, .apply]

/-- Both trims debit the frame of the trimmed extent, so the live bytes fall below those of the two frames that are
left. -/
theorem dropped_trim_undercounts : (run (Sys.step Sample.sealedLen) (Sample.boot 100000) droppedTrim).map
    (fun s => (s.db.namedIn Sample.segid, s.db.liveOf Sample.segid)) = some (90, 45) := by decide +kernel

end ZeroFS
