import ZeroFS.Lib.Table
import ZeroFS.Writeback.Record

/-!
# The overlay index

The overlay (`writeback/overlay.rs`) holds, for each path, the accepted mutations that are not drained, oldest first;
the last one is what clients see. `entriesOf` is what it holds for a list of records whose first `observed` sequences
are local, and each operation is one on that list.
-/

namespace ZeroFS.Writeback

open List

inductive OverlayEffect
  | put
  | delete
  deriving DecidableEq

inductive PayloadLocation
  | pending (payload : Payload)
  | journal (sequence : Nat)
  deriving DecidableEq

/-- A mutation that is not yet published. -/
structure OverlayEntry where
  record : MutationRecord
  effect : OverlayEffect
  payload : Option PayloadLocation
  deriving DecidableEq

abbrev OverlayIndex := Table Path (List OverlayEntry)

namespace OverlayIndex

variable (o : OverlayIndex)

def versions (p : Path) : List OverlayEntry := (o.get p).getD []

def visibleEntry (p : Path) : Option OverlayEntry := (versions o p).getLast?

def hasVisibleLocalObject (p : Path) : Bool := (visibleEntry o p).any fun e => e.effect = .put

def installLocked (p : Path) (e : OverlayEntry) : Option OverlayIndex :=
  match (versions o p).getLast? with
  | some previous =>
    if e.record.sequence ≤ previous.record.sequence then none
    else some (o.put p (versions o p ++ [e]))
  | none => some (o.put p (versions o p ++ [e]))

/-- The entries of a record: an object at its path, and for a rename a hidden source. -/
def installRecord (r : MutationRecord) (location : Payload → PayloadLocation) : Option OverlayIndex :=
  match r.kind with
  | .put _ _ b | .copy _ _ b => installLocked o r.path ⟨r, .put, some (location b)⟩
  | .delete => installLocked o r.path ⟨r, .delete, none⟩
  | .rename source _ b =>
    (installLocked o r.path ⟨r, .put, some (location b)⟩).bind fun o' => installLocked o' source ⟨r, .delete, none⟩

/-- `install_verified_memory`, `install_delete`, `install_verified_copy`, `install_verified_rename` -/
def install (r : MutationRecord) : Option OverlayIndex := installRecord o r .pending

/-- An entry of a committed record reads its payload from the journal from now on. -/
def markEntry (r : MutationRecord) (e : OverlayEntry) : OverlayEntry :=
  if e.record.sequence = r.sequence then
    { record := r
      effect := e.effect
      payload := if e.effect = .put then some (.journal r.sequence) else e.payload }
  else e

def holdsSequence (s : Nat) : Bool := o.entries.any fun row => row.2.any fun e => e.record.sequence = s

/-- `mark_local_batch`: the records before the first one without an entry stay marked, and the call fails. -/
def markLocalBatch : OverlayIndex → List MutationRecord → OverlayIndex × Bool
  | o, [] => (o, true)
  | o, r :: rs =>
    if holdsSequence o r.sequence then markLocalBatch (o.filterMapVals fun _ vs => some (vs.map (markEntry r))) rs
    else (o, false)

def removeRemotePrefix (through : Nat) : OverlayIndex :=
  o.filterMapVals fun _ vs =>
    let kept := vs.filter fun e => through < e.record.sequence
    if kept.isEmpty then none else some kept

/-- `recover`: every record of the journal, with its payload there. -/
def recover (rows : List MutationRecord) : Option OverlayIndex :=
  rows.foldlM (fun o r => installRecord o r fun _ => .journal r.sequence) Table.empty

end OverlayIndex

/-! ## The entries of a list of records -/

/-- The entry of a record at a path, when the first `observed` sequences have been marked local. -/
def entryAt (observed : Nat) (p : Path) (r : MutationRecord) : Option OverlayEntry :=
  match r.effect p with
  | none => none
  | some none => some ⟨r, .delete, none⟩
  | some (some b) => some ⟨r, .put, some (if r.sequence ≤ observed then .journal r.sequence else .pending b)⟩

def entriesOf (observed : Nat) (p : Path) (rs : List MutationRecord) : List OverlayEntry :=
  rs.filterMap (entryAt observed p)

variable {observed through : Nat} {p q : Path} {r : MutationRecord} {rs : List MutationRecord} {e : OverlayEntry}

theorem entryAt_record (h : entryAt observed p r = some e) : e.record = r := by
  unfold entryAt at h
  split at h <;> cases h <;> rfl

theorem entryAt_eq_none_iff : entryAt observed p r = none ↔ p ∉ r.touchedKeys := by
  rw [← MutationRecord.effect_eq_none_iff]
  unfold entryAt
  split <;> simp_all

theorem mem_entriesOf (h : e ∈ entriesOf observed p rs) : e.record ∈ rs ∧ entryAt observed p e.record = some e := by
  obtain ⟨r, hr, he⟩ := mem_filterMap.1 h
  cases entryAt_record he
  exact ⟨hr, he⟩

theorem entriesOf_append (observed : Nat) (p : Path) (as bs : List MutationRecord) :
    entriesOf observed p (as ++ bs) = entriesOf observed p as ++ entriesOf observed p bs := filterMap_append

theorem entriesOf_singleton (observed : Nat) (p : Path) (r : MutationRecord) :
    entriesOf observed p [r] = (entryAt observed p r).toList := by
  unfold entriesOf
  cases h : entryAt observed p r <;> simp [h]

theorem entriesOf_eq_nil_iff : entriesOf observed p rs = [] ↔ ∀ r ∈ rs, p ∉ r.touchedKeys := by
  unfold entriesOf
  rw [filterMap_eq_nil_iff]
  exact forall₂_congr fun r _ => entryAt_eq_none_iff

theorem getLast?_entriesOf (h : (entriesOf observed p rs).getLast? = some e) :
    ∃ as bs, rs = as ++ e.record :: bs ∧ entryAt observed p e.record = some e ∧ ∀ r ∈ bs, p ∉ r.touchedKeys := by
  induction rs using reverseRecOn with
  | nil => cases h
  | append_singleton rs r ih =>
    rw [entriesOf_append] at h
    cases hr : entryAt observed p r with
    | none =>
      rw [entriesOf_singleton, hr, Option.toList_none, append_nil] at h
      obtain ⟨as, bs, hsplit, hentry, hbs⟩ := ih h
      refine ⟨as, bs ++ [r], by rw [hsplit]; simp, hentry, fun q hq => ?_⟩
      rcases mem_append.1 hq with hq | hq
      · exact hbs q hq
      · rw [mem_singleton.1 hq]; exact entryAt_eq_none_iff.1 hr
    | some e' =>
      rw [entriesOf_singleton, hr, Option.toList_some, getLast?_concat] at h
      cases h
      cases entryAt_record hr
      exact ⟨rs, [], rfl, hr, fun q hq => by cases hq⟩

namespace OverlayIndex

variable {o o' : OverlayIndex}

theorem versions_put (o : OverlayIndex) (p q : Path) (vs : List OverlayEntry) :
    versions (o.put p vs) q = if q = p then vs else versions o q := by
  unfold versions
  rw [Table.get_put]
  split <;> rfl

/-! ## Installing records -/

theorem installLocked_some (h : ∀ e' ∈ versions o p, e'.record.sequence < e.record.sequence) :
    installLocked o p e = some (o.put p (versions o p ++ [e])) := by
  unfold installLocked
  split
  · rename_i previous hprevious
    have := h previous (mem_of_getLast? hprevious)
    rw [if_neg (by omega)]
  · rfl

/-- Where each path holds older sequences only, a record can be installed, and every path then ends with the entry of
the record for it. -/
theorem versions_installRecord (location : Payload → PayloadLocation)
    (hfresh : ∀ q, ∀ e ∈ versions o q, e.record.sequence < r.sequence)
    (hloc : ∀ b, location b = if r.sequence ≤ observed then .journal r.sequence else .pending b)
    (hne : ∀ source mode b, r.kind = .rename source mode b → source ≠ r.path) :
    ∃ o', installRecord o r location = some o' ∧
    ∀ q, versions o' q = versions o q ++ (entryAt observed q r).toList := by
  unfold installRecord
  split <;> rename_i hk
  · refine ⟨_, installLocked_some (hfresh _), fun q => ?_⟩
    rw [versions_put]
    simp only [entryAt, MutationRecord.effect, hk, hloc]
    split <;> simp_all
  · refine ⟨_, installLocked_some (hfresh _), fun q => ?_⟩
    rw [versions_put]
    simp only [entryAt, MutationRecord.effect, hk, hloc]
    split <;> simp_all
  · refine ⟨_, installLocked_some (hfresh _), fun q => ?_⟩
    rw [versions_put]
    simp only [entryAt, MutationRecord.effect, hk]
    split <;> simp_all
  rename_i source mode b
  have hsource : source ≠ r.path := hne _ _ _ hk
  rw [installLocked_some (hfresh _), Option.bind_some]
  have hsame : ∀ vs, versions (o.put r.path vs) source = versions o source := fun vs => by
    rw [versions_put, if_neg hsource]
  rw [installLocked_some (by rw [hsame]; exact hfresh _)]
  refine ⟨_, rfl, fun q => ?_⟩
  rw [versions_put, versions_put, versions_put]
  simp only [entryAt, MutationRecord.effect, hk, hloc]
  by_cases hq : q = source
  · subst hq; simp [hsource]
  by_cases hp : q = r.path
  · subst hp; simp [hq]
  · simp [hq, hp]

theorem versions_install (hfresh : ∀ q, ∀ e ∈ versions o q, e.record.sequence < r.sequence)
    (hobs : observed < r.sequence) (hne : ∀ source mode b, r.kind = .rename source mode b → source ≠ r.path) :
    ∃ o', install o r = some o' ∧ ∀ q, versions o' q = versions o q ++ (entryAt observed q r).toList :=
  versions_installRecord _ hfresh (fun b => by rw [if_neg (by omega)]) hne

/-- Recovering increasing records gives the entries of records that have all been marked local. -/
theorem versions_recover (hsorted : rs.Pairwise fun a b => a.sequence < b.sequence)
    (hobs : ∀ r ∈ rs, r.sequence ≤ observed)
    (hne : ∀ r ∈ rs, ∀ source mode b, r.kind = .rename source mode b → source ≠ r.path) :
    ∃ o, recover rs = some o ∧ ∀ q, versions o q = entriesOf observed q rs := by
  induction rs using reverseRecOn with
  | nil => exact ⟨Table.empty, rfl, fun q => rfl⟩
  | append_singleton rs r ih =>
    have hlt : ∀ a ∈ rs, a.sequence < r.sequence := fun a ha => (pairwise_append.1 hsorted).2.2 a ha r (by simp)
    obtain ⟨o, ho, hversions⟩ := ih (pairwise_append.1 hsorted).1 (fun a ha => hobs a (mem_append_left _ ha))
      (fun a ha => hne a (mem_append_left _ ha))
    have hfresh : ∀ q, ∀ e ∈ versions o q, e.record.sequence < r.sequence := by
      intro q e he
      rw [hversions] at he
      exact hlt _ (mem_entriesOf he).1
    have hlast : r ∈ rs ++ [r] := by simp
    obtain ⟨o', ho', hversions'⟩ := versions_installRecord (fun _ => .journal r.sequence) hfresh
      (fun b => by rw [if_pos (hobs r hlast)]) (hne r hlast)
    refine ⟨o', ?_, fun q => ?_⟩
    · have hfold : recover (rs ++ [r]) = (recover rs).bind fun o => installRecord o r fun _ => .journal r.sequence := by
        unfold recover
        simp
      rw [hfold, ho]
      exact ho'
    · rw [hversions', hversions, entriesOf_append, entriesOf_singleton]

/-! ## Publication and removal -/

theorem holdsSequence_iff {s : Nat} :
    holdsSequence o s = true ↔ ∃ q, ∃ e ∈ versions o q, e.record.sequence = s := by
  unfold holdsSequence versions
  simp only [any_eq_true, decide_eq_true_eq]
  constructor
  · rintro ⟨⟨q, vs⟩, hrow, e, he, hs⟩
    refine ⟨q, e, ?_, hs⟩
    rw [Table.mem_entries.1 hrow]
    exact he
  rintro ⟨q, e, he, hs⟩
  cases hq : o.get q with
  | none => rw [hq] at he; cases he
  | some vs => rw [hq] at he; exact ⟨⟨q, vs⟩, Table.mem_entries.2 hq, e, he, hs⟩

theorem holdsSequence_of_mem (hversions : ∀ q, o.versions q = entriesOf observed q rs) (hr : r ∈ rs) :
    holdsSequence o r.sequence = true := by
  have htouch : r.path ∈ r.touchedKeys := by
    unfold MutationRecord.touchedKeys
    split <;> simp
  obtain ⟨e, he⟩ : ∃ e, entryAt observed r.path r = some e :=
    Option.ne_none_iff_exists'.1 fun h => entryAt_eq_none_iff.1 h htouch
  refine holdsSequence_iff.2 ⟨r.path, e, ?_, by rw [entryAt_record he]⟩
  rw [hversions]
  exact mem_filterMap.2 ⟨r, hr, he⟩

/-- Only the entries above the removed prefix are left. -/
theorem versions_removeRemotePrefix (o : OverlayIndex) (through : Nat) (q : Path) :
    versions (removeRemotePrefix o through) q = (versions o q).filter fun e => through < e.record.sequence := by
  unfold versions removeRemotePrefix
  rw [Table.get_filterMapVals]
  cases o.get q with
  | none => rfl
  | some vs => simp only [Option.bind_some, Option.getD_some, List.isEmpty_iff]; split <;> simp_all

theorem filter_entriesOf (observed through : Nat) (q : Path) (rs : List MutationRecord) :
    (entriesOf observed q rs).filter (fun e => through < e.record.sequence) =
      entriesOf observed q (rs.filter fun r => through < r.sequence) := by
  induction rs with
  | nil => rfl
  | cons r rs ih =>
    have hcons : ∀ l, entriesOf observed q (r :: l) = (entryAt observed q r).toList ++ entriesOf observed q l :=
      fun l => by
      rw [← entriesOf_singleton, ← entriesOf_append]
      rfl
    have hhead : (entryAt observed q r).toList.filter (fun e => through < e.record.sequence) =
        if through < r.sequence then (entryAt observed q r).toList else [] := by
      cases he : entryAt observed q r with
      | none => simp
      | some e => cases entryAt_record he; simp [filter_cons]
    rw [hcons, filter_append, ih, hhead]
    by_cases hlt : through < r.sequence
    · rw [if_pos hlt, filter_cons_of_pos (by simpa using hlt), hcons]
    · rw [if_neg hlt, filter_cons_of_neg (by simpa using hlt), nil_append]

theorem versions_mark (o : OverlayIndex) (r : MutationRecord) (q : Path) :
    versions (o.filterMapVals fun _ vs => some (vs.map (markEntry r))) q = (versions o q).map (markEntry r) := by
  unfold versions
  rw [Table.get_filterMapVals]
  cases o.get q <;> rfl

/-- Marking the next sequence moves the line between the entries in the journal and those in memory. -/
theorem map_markEntry (hsorted : rs.Pairwise fun a b => a.sequence < b.sequence) (hr : r ∈ rs)
    (hseq : r.sequence = observed + 1) (q : Path) :
    (entriesOf observed q rs).map (markEntry r) = entriesOf (observed + 1) q rs := by
  unfold entriesOf
  rw [map_filterMap]
  refine filterMap_congr fun x hx => ?_
  by_cases hxr : x.sequence = r.sequence
  · have hsame : x = r := by
      rcases pairwise_iff_getElem.1 hsorted with hlt
      obtain ⟨i, hi, rfl⟩ := getElem_of_mem hx
      obtain ⟨j, hj, rfl⟩ := getElem_of_mem hr
      rcases Nat.lt_trichotomy i j with hij | rfl | hij
      · have := hlt i j hi hj hij; omega
      · rfl
      · have := hlt j i hj hi hij; omega
    subst hsame
    unfold entryAt
    split
    · rfl
    · simp [markEntry]
    · simp [markEntry, hseq]
  · unfold entryAt
    split
    · rfl
    · simp [markEntry, hxr]
    · have hline : x.sequence ≤ observed ↔ x.sequence ≤ observed + 1 := by omega
      simp [markEntry, hxr, hline]

theorem versions_markLocalBatch (hsorted : rs.Pairwise fun a b => a.sequence < b.sequence)
    (hversions : ∀ q, versions o q = entriesOf observed q rs) {batch : List MutationRecord}
    (hmem : ∀ r ∈ batch, r ∈ rs)
    (hseq : ∀ (i : Nat) (r : MutationRecord), batch[i]? = some r → r.sequence = observed + 1 + i) :
    ∃ o', markLocalBatch o batch = (o', true) ∧ ∀ q, versions o' q = entriesOf (observed + batch.length) q rs := by
  induction batch generalizing o observed with
  | nil => exact ⟨o, rfl, hversions⟩
  | cons r batch ih =>
    have hr : r ∈ rs := hmem r mem_cons_self
    have hr_seq : r.sequence = observed + 1 := hseq 0 r rfl
    have hheld : holdsSequence o r.sequence = true := holdsSequence_of_mem hversions hr
    have hnext : ∀ q, versions (o.filterMapVals fun _ vs => some (vs.map (markEntry r))) q =
        entriesOf (observed + 1) q rs := by
      intro q
      rw [versions_mark, hversions, map_markEntry hsorted hr hr_seq]
    obtain ⟨o', ho', hfinal⟩ := ih hnext (fun a ha => hmem a (mem_cons_of_mem _ ha)) (fun i a ha => by
      have := hseq (i + 1) a ha
      omega)
    refine ⟨o', ?_, fun q => ?_⟩
    · rw [markLocalBatch, if_pos hheld]; exact ho'
    · rw [hfinal, length_cons, Nat.add_assoc, Nat.add_comm 1]

/-- A batch whose first record has left the overlay is refused, and nothing is marked. -/
theorem markLocalBatch_gone {batch : List MutationRecord}
    (h : ∀ q, ∀ e ∈ versions o q, e.record.sequence ≠ r.sequence) : markLocalBatch o (r :: batch) = (o, false) := by
  rw [markLocalBatch, if_neg]
  rw [holdsSequence_iff]
  rintro ⟨q, e, he, hs⟩
  exact h q e he hs

end OverlayIndex

end ZeroFS.Writeback
