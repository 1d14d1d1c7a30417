import ZeroFS.Writeback.Stages

/-!
# What the tier shows

A read gives what the accepted records leave (`readObject_eq`): from the overlay while the path's last mutation has an
entry, and from the remote store afterwards. An update is checked against the version that is shown, which after the
drain is the `e_tag` of the remote store.
-/

namespace ZeroFS.Writeback

open List Machine

/-- The last record that touches a path. -/
structure Latest (l : List MutationRecord) (p : Path) (s : Nat) (r : MutationRecord) : Prop where
  logged : Logged l s r
  touched : p ∈ r.touchedKeys
  last : ∀ s' r', Logged l s' r' → s < s' → p ∉ r'.touchedKeys

section

variable {l : List MutationRecord} {p : Path} {s : Nat} {r : MutationRecord}

theorem Latest.unique {s' : Nat} {r' : MutationRecord} (h : Latest l p s r)
    (h' : Latest l p s' r') : s = s' ∧ r = r' := by
  obtain rfl : s = s' := by
    rcases Nat.lt_trichotomy s s' with hlt | heq | hlt
    · exact absurd h'.touched (h.last s' r' h'.logged hlt)
    · exact heq
    · exact absurd h.touched (h'.last s r h.logged hlt)
  exact ⟨rfl, h.logged.unique h'.logged⟩

theorem Latest.applied_eq {ns : Namespace} {v : Option Payload}
    (h : Latest l p s r) (heff : r.effect p = some v) : applied l ns p = v := by
  obtain ⟨i, rfl, hi⟩ := h.logged
  have hall : applied (l.take l.length) ns p = v :=
    applied_take_last (List.getElem?_eq_some_iff.1 hi).1 hi heff
      fun j q hj _ hq => h.last (j + 1) q ⟨j, rfl, hq⟩ (by omega)
  rwa [take_length] at hall

theorem MutationRecord.effect_payload {b : Payload} (h : r.effect p = some (some b)) :
    r.payload = some b := by
  unfold MutationRecord.effect at h
  unfold MutationRecord.payload
  split at h <;> grind

theorem entryAt_cases {observed : Nat} {e : OverlayEntry} (h : entryAt observed p r = some e) :
    r.effect p = some none ∧ e = ⟨r, .delete, none⟩ ∨
      ∃ b, r.effect p = some (some b) ∧
        e = ⟨r, .put, some (if r.sequence ≤ observed then .journal r.sequence else .pending b)⟩ := by
  unfold entryAt at h
  split at h
  · cases h
  · rename_i heff; cases h; exact .inl ⟨heff, rfl⟩
  · rename_i b heff; cases h; exact .inr ⟨b, heff, rfl⟩

end

/-- The version that a client holds for what is shown. -/
def VisibleVersion.version : VisibleVersion → Version
  | .loc etag => .wb etag
  | .remote tag => .remote tag

theorem versionMatches_version {expected : UpdateVersion} {visible : VisibleVersion}
    (h : versionMatches expected visible = true) {v : Version}
    (hv : expected.eTag = some v ∨ expected.version = some v) : v = visible.version := by
  unfold versionMatches at h
  cases visible <;> rcases hv with hv | hv <;> simp_all [VisibleVersion.version]

namespace Tier

variable {cfg : Config} {P : Prop} {ns : Namespace} {t t' : Tier} {removed observed s : Nat} {a : Action} {p : Path}
  {r : MutationRecord} {e : OverlayEntry}

/-! ## The entry that is shown -/

theorem Held.visible_none (h : Held t removed observed) (hv : t.overlay.visibleEntry p = none)
    (hr : Logged t.accepted s r) (hp : p ∈ r.touchedKeys) : s ≤ removed := by
  by_contra hlt
  have hnil : entriesOf observed p (t.accepted.drop removed) = [] := by
    rw [← h.versions]
    exact getLast?_eq_none_iff.1 hv
  obtain ⟨i, rfl, hi⟩ := hr
  have hmem : r ∈ t.accepted.drop removed := by
    refine mem_of_getElem? (i := i - removed) ?_
    rw [List.getElem?_drop, show removed + (i - removed) = i by omega, hi]
  exact entriesOf_eq_nil_iff.1 hnil r hmem hp

theorem Held.visible_some (h : Held t removed observed) (hv : t.overlay.visibleEntry p = some e) :
    ∃ s, removed < s ∧ Latest t.accepted p s e.record ∧ entryAt observed p e.record = some e := by
  unfold OverlayIndex.visibleEntry at hv
  rw [h.versions] at hv
  obtain ⟨as, bs, hsplit, hentry, hlast⟩ := getLast?_entriesOf hv
  have hget : ∀ i, t.accepted[removed + i]? = (as ++ e.record :: bs)[i]? :=
    fun i => by rw [← hsplit, List.getElem?_drop]
  have htouch : p ∈ e.record.touchedKeys := by
    by_contra hnot
    rw [entryAt_eq_none_iff.2 hnot] at hentry
    cases hentry
  refine ⟨removed + as.length + 1, by omega, ⟨⟨removed + as.length, rfl, ?_⟩, htouch, ?_⟩, hentry⟩
  · rw [hget]; simp
  rintro s r ⟨i, rfl, hi⟩ hlt
  refine hlast r (mem_of_getElem? (i := i - removed - as.length - 1) ?_)
  rw [show i = removed + (i - removed) by omega, hget, List.getElem?_append_right (by omega),
    show i - removed - as.length = i - removed - as.length - 1 + 1 by omega, List.getElem?_cons_succ] at hi
  exact hi

/-! ## Reads between steps -/

/-- What the store holds at a path that no record of the first `n` still has to reach. -/
theorem Ok.contents_settled (h : Ok True ns t) {n : Nat} (hn : n ≤ t.accepted.length)
    (hp : ∀ s r, Logged t.accepted s r → s ≤ n → p ∈ r.touchedKeys → s ≤ t.journal.remoteSeq) :
    ∃ m, n ≤ m ∧ m ≤ t.accepted.length ∧ t.remote.contents p = applied (t.accepted.take m) ns p := by
  have hlocal := h.log.localSeq_le
  have hremote := h.log.remoteSeq_le
  rcases (h.remote trivial).replayed.keys p with heq | ⟨s, r, hr, hlt, hle, hahead, heff⟩
  · refine ⟨max n t.journal.remoteSeq, le_max_left _ _, by omega, ?_⟩
    rw [heq]
    symm
    refine applied_take_of_untouched (le_max_right _ _) fun i r hi hlt hr htouch => ?_
    have := hp (i + 1) r ⟨i, rfl, hr⟩ (by omega) htouch
    omega
  · -- the record ahead is the last one of its path, so the prefix that ends with it has its effect
    have htouch : p ∈ r.touchedKeys := MutationRecord.mem_touchedKeys heff
    have hbeyond : n < s := by
      by_contra hge
      have := hp s r hr (by omega) htouch
      omega
    obtain ⟨i, rfl, hi⟩ := hr
    exact ⟨i + 1, by omega, by omega, (applied_take_succ hi heff).symm⟩

theorem Held.visible_value (h : Held t removed observed) (hok : Ok P ns t) (hv : t.overlay.visibleEntry p = some e) :
    e.payload.bind t.loadPayload = applied t.accepted ns p := by
  obtain ⟨s, hs, hlatest, hentry⟩ := h.visible_some hv
  have hseq := hok.log.logged_sequence hlatest.logged
  rcases entryAt_cases hentry with ⟨heff, he⟩ | ⟨b, heff, he⟩
  · rw [hlatest.applied_eq heff, he]; rfl
  rw [hlatest.applied_eq heff, he]
  dsimp only [Option.bind_some]
  split
  · rename_i hobs
    have hobserved := h.observed_le
    dsimp only [loadPayload]
    rw [hseq, h.mutation hok hlatest.logged hs (by omega)]
    exact MutationRecord.effect_payload heff
  · rfl

/-- **A read through the tier gives what the accepted records leave.** -/
theorem Held.readObject_eq (h : Held t removed observed) (hok : Ok True ns t) (p : Path) :
    t.readObject p = applied t.accepted ns p := by
  unfold readObject
  cases hv : t.overlay.visibleEntry p with
  | some e => exact h.visible_value hok hv
  | none =>
    have hremoved := h.removed_le
    obtain ⟨m, hle, hlen, heq⟩ := hok.contents_settled le_rfl fun s r hr _ htouch => by
      have := h.visible_none hv hr htouch
      omega
    rw [heq, take_of_length_le hle]

/-! ## The accepted records -/

/-- What a step does to the log. -/
theorem step_accepted (ht : t.step cfg a = some t') :
    t'.accepted = t.accepted ∨ (∃ request r, t.validate cfg request = .ok r ∧ t'.accepted = t.accepted ++ [r]) ∨
      ∃ n, t'.accepted = t.accepted.take n := by
  cases step_stepped ht with
  | accept hr _ => exact .inr (.inl ⟨_, _, hr, rfl⟩)
  | restart _ => exact .inr (.inr ⟨_, rfl⟩)
  | attempt _ hat _ => exact .inl hat.uploads.accepted
  | openWindow | dispatch | complete => exact .inl ((step_stepped ht).uploads rfl).accepted
  | _ => exact .inl rfl

/-- The accepted records carry their sequence as their version and, when no request lands late, the objects at their
sources. -/
structure Entered (P : Prop) (cfg : Config) (ns : Namespace) (l : List MutationRecord) : Prop where
  stamped : ∀ r ∈ l, r.localEtag = ⟨cfg.incarnation, r.sequence⟩
  sourced : P → AllSourced l ns

theorem Entered.take {l : List MutationRecord} (h : Entered P cfg ns l) (n : Nat) : Entered P cfg ns (l.take n) where
  stamped r hr := h.stamped r (mem_of_mem_take hr)
  sourced hP i r hr := by
    obtain ⟨hlt, hr⟩ := of_getElem?_take hr
    rw [take_take, Nat.min_eq_left (Nat.le_of_lt hlt)]
    exact h.sourced hP i r hr

theorem Entered.append {l : List MutationRecord} (h : Entered P cfg ns l)
    (hstamp : r.localEtag = ⟨cfg.incarnation, r.sequence⟩) (hsource : P → r.Sourced (applied l ns)) :
    Entered P cfg ns (l ++ [r]) where
  stamped q hq := by
    rcases mem_append.1 hq with hq | hq
    · exact h.stamped q hq
    · rwa [mem_singleton.1 hq]
  sourced hP i q hq := by
    rcases Nat.lt_or_ge i l.length with hi | hi
    · rw [List.getElem?_append_left hi] at hq
      rw [take_append_of_le_length (Nat.le_of_lt hi)]
      exact h.sourced hP i q hq
    · rw [List.getElem?_append_right hi, List.getElem?_singleton] at hq
      split at hq
      · cases hq; rw [show i = l.length by omega, take_left]; exact hsource hP
      · cases hq

theorem step_entered (h : Entered P cfg ns t.accepted) (hheld : Held t removed observed) (hok : Ok P ns t)
    (ht : t.step cfg a = some t') : Entered P cfg ns t'.accepted := by
  rcases step_accepted ht with hlog | ⟨request, r, hr, hlog⟩ | ⟨n, hlog⟩
  · rwa [hlog]
  · rw [hlog]
    obtain ⟨path, kind, predecessor, rfl, -, hsource⟩ := validate_record hr
    refine h.append rfl fun hP => ?_
    have hread := hheld.readObject_eq ⟨hok.log, hok.drain, fun _ => hok.remote hP⟩
    unfold MutationRecord.Sourced
    split
    · rename_i hk; rw [← hread]; exact hsource _ _ _ (.inl hk)
    · rename_i hk; rw [← hread]; exact hsource _ _ _ (.inr hk)
    · trivial
  · rw [hlog]; exact h.take n

/-- What every state of a run keeps; `P` says that no request lands late. -/
structure Shows (P : Prop) (cfg : Config) (ns : Namespace) (t : Tier) : Prop where
  ok : Ok P ns t
  held : ∃ removed observed, Held t removed observed
  entered : Entered P cfg ns t.accepted

theorem boot_shows (P : Prop) (cfg : Config) (remote : Remote) : Shows P cfg remote.contents (boot remote) :=
  ⟨boot_ok P remote, ⟨0, 0, boot_held remote⟩, nofun, nofun⟩

theorem step_shows (h : Shows P cfg ns t) (hc : P → Punctual t a) (ht : t.step cfg a = some t') :
    Shows P cfg ns t' := by
  obtain ⟨removed, observed, hheld⟩ := h.held
  exact ⟨step_ok h.ok hc ht, step_held hheld h.ok ht, step_entered h.entered hheld h.ok ht⟩

theorem reach_shows {remote : Remote} {C : Tier → Action → Prop} (hC : ∀ t a, C t a → P → Punctual t a)
    (h : Machine.Reach (step cfg) C (boot remote) t) : Shows P cfg remote.contents t :=
  h.invariant (boot_shows P cfg remote) fun s a _ hs hc ht => step_shows hs (hC s a hc) ht

/-- The literal namespace is what a read through the tier gives. -/
theorem Shows.readObject_literal (h : Shows True cfg ns t) (p : Path) : t.readObject p = literalOf t.accepted ns p := by
  obtain ⟨removed, observed, hheld⟩ := h.held
  rw [hheld.readObject_eq h.ok, applied_eq_literal (h.entered.sourced trivial)]

/-! ## Versions -/

theorem Held.visible_latest (h : Held t removed observed) (hok : Ok P ns t) (hl : Latest t.accepted p s r)
    (hs : t.overlay.holdsSequence s = true) : ∃ e, t.overlay.visibleEntry p = some e ∧ e.record = r := by
  cases hv : t.overlay.visibleEntry p with
  | some e => obtain ⟨s', -, hlatest, -⟩ := h.visible_some hv; exact ⟨e, rfl, (hlatest.unique hl).2⟩
  | none =>
    have hgone := h.visible_none hv hl.logged hl.touched
    obtain ⟨q, e, he, hseq⟩ := OverlayIndex.holdsSequence_iff.1 hs
    rw [h.versions] at he
    obtain ⟨i, hi⟩ := List.getElem?_of_mem (mem_entriesOf he).1
    rw [List.getElem?_drop] at hi
    have := hok.log.sequence _ _ hi
    omega

/-- A path has a version exactly when the literal namespace has an object there. -/
theorem Shows.visibleVersion_isSome (h : Shows True cfg ns t) (p : Path) :
    (t.visibleVersion p).isSome ↔ literalOf t.accepted ns p ≠ none := by
  obtain ⟨removed, observed, hheld⟩ := h.held
  rw [← h.readObject_literal, hheld.readObject_eq h.ok]
  unfold visibleVersion
  cases hv : t.overlay.visibleEntry p with
  | some e =>
    obtain ⟨s, -, hlatest, hentry⟩ := hheld.visible_some hv
    rcases entryAt_cases hentry with ⟨heff, he⟩ | ⟨b, heff, he⟩
    · rw [hlatest.applied_eq heff, he]; simp
    · rw [hlatest.applied_eq heff, he]; simp
  | none =>
    rw [← hheld.readObject_eq h.ok, readObject, hv]
    cases hget : t.remote.objects.get p <;> simp [Remote.contents, hget]

/-- The version of the last mutation of a path, or the `e_tag` of the remote object when no mutation of the path is
pending. -/
def Shown (t : Tier) (p : Path) (v : Version) : Prop :=
  (∃ s r, Latest t.accepted p s r ∧ v = .wb r.localEtag) ∨
    t.overlay.visibleEntry p = none ∧ ∃ o, t.remote.objects.get p = some o ∧ v = .remote o.tag

theorem Held.shown (h : Held t removed observed) {visible : VisibleVersion} (hv : t.visibleVersion p = some visible) :
    Shown t p visible.version := by
  unfold visibleVersion at hv
  cases he : t.overlay.visibleEntry p with
  | some e =>
    rw [he] at hv
    obtain ⟨s, -, hlatest, -⟩ := h.visible_some he
    dsimp only at hv
    split at hv
    · cases hv
    · cases hv; exact .inl ⟨s, e.record, hlatest, rfl⟩
  | none =>
    rw [he] at hv
    obtain ⟨o, ho, rfl⟩ := Option.map_eq_some_iff.1 hv
    exact .inr ⟨he, o, ho, rfl⟩

theorem Held.update_refused (h : Held t removed observed) {expected : UpdateVersion} {v : Version}
    (hv : expected.eTag = some v ∨ expected.version = some v) (hstale : ¬Shown t p v) (b : Payload) (generated : Bool) :
    ∃ source, t.validate cfg (.put p b (.update expected) generated) = .error (.precondition source) := by
  have hmode : ∃ source, validatePutMode (.update expected) (t.visibleVersion p) = .error (.precondition source) := by
    unfold validatePutMode
    cases hvis : t.visibleVersion p with
    | none => exact ⟨_, rfl⟩
    | some visible =>
      have hno : versionMatches expected visible = false := by
        by_contra hyes
        rw [Bool.not_eq_false] at hyes
        rw [versionMatches_version hyes hv] at hstale
        exact hstale (h.shown hvis)
      dsimp only
      rw [hno]
      exact ⟨_, rfl⟩
  obtain ⟨source, hsource⟩ := hmode
  refine ⟨source, ?_⟩
  unfold validate
  dsimp only
  rw [hsource]
  rfl

theorem Held.accepts (h : Held t removed observed) (hok : Ok P ns t) (hgo : t.failed = false)
    (hopen : t.poisoned = false) {request : Request} (hr : t.validate cfg request = .ok r) :
    ∃ t', t.step cfg (.accept request) = some t' := by
  obtain ⟨path, kind, predecessor, rfl, hren, -⟩ := validate_record hr
  obtain ⟨overlay, ho, -⟩ := h.install hok cfg predecessor hren
  refine Option.isSome_iff_exists.1 ?_
  unfold step
  dsimp only
  rw [hgo, hopen, hr]
  simp [Tier.install, ho]

/-- The version that a put returns. -/
def returned (r : MutationRecord) : UpdateVersion := ⟨some (.wb r.localEtag), some (.wb r.localEtag)⟩

/-- While the last mutation of a path has an entry, the version that it returned is accepted. -/
theorem Held.update_accepted (h : Held t removed observed) (hok : Ok P ns t) (hgo : t.failed = false)
    (hopen : t.poisoned = false) (hl : Latest t.accepted p s r) {c : Payload} (hput : r.effect p = some (some c))
    (hs : t.overlay.holdsSequence s = true) (b : Payload) (generated : Bool) :
    ∃ t', t.step cfg (.accept (.put p b (.update (returned r)) generated)) = some t' := by
  obtain ⟨e, hv, rfl⟩ := h.visible_latest hok hl hs
  have hvisible : t.visibleVersion p = some (.loc e.record.localEtag) := by
    obtain ⟨s', -, -, hentry⟩ := h.visible_some hv
    rcases entryAt_cases hentry with ⟨heff, -⟩ | ⟨b', -, he⟩
    · rw [hput] at heff; cases heff
    · unfold visibleVersion; rw [hv, he]
  have hmode : validatePutMode (.update (returned e.record)) (t.visibleVersion p) =
      .ok (.update, some (.wb e.record.localEtag), none) := by
    rw [hvisible]
    simp [validatePutMode, versionMatches, returned]
  refine h.accepts hok hgo hopen (r := t.record cfg p (.put .update (some (.wb e.record.localEtag)) b) none) ?_
  unfold validate
  dsimp only
  rw [hmode]
  rfl

theorem Shows.create_accepted (h : Shows True cfg ns t) (hgo : t.failed = false) (hopen : t.poisoned = false)
    (p : Path) (b : Payload) :
    (∃ t', t.step cfg (.accept (.put p b .create false)) = some t') ↔ literalOf t.accepted ns p = none := by
  obtain ⟨removed, observed, hheld⟩ := h.held
  have hsome := h.visibleVersion_isSome p
  have hvalidate : ∀ v, validatePutMode .create (t.visibleVersion p) = v → t.validate cfg (.put p b .create false) =
      v.map fun m => t.record cfg p (.put m.1 m.2.1 b) m.2.2 := by
    rintro v rfl
    unfold validate
    dsimp only
    cases validatePutMode .create (t.visibleVersion p) <;> rfl
  cases hv : t.visibleVersion p with
  | none =>
    rw [hv] at hsome hvalidate
    refine iff_of_true (hheld.accepts h.ok hgo hopen (hvalidate _ rfl)) ?_
    simpa using hsome
  | some visible =>
    rw [hv] at hsome hvalidate
    refine iff_of_false ?_ (by simpa using hsome)
    rintro ⟨t', ht⟩
    unfold step at ht
    dsimp only at ht
    rw [hgo, hopen, hvalidate _ rfl] at ht
    cases ht

/-- **Updates follow the last mutation of the path.** The version that it returned is accepted while it has an entry in
the overlay; the versions of earlier mutations, and versions that are not shown, are refused; and when no request lands
late, a create that is not marked as a generated segment is accepted exactly when the path has no object in the literal
namespace. -/
theorem update_follows_latest {remote : Remote} (h : Machine.Reach (step cfg) anyStep (boot remote) t)
    (hgo : t.failed = false) (hopen : t.poisoned = false) (p : Path) (b : Payload) :
    (∀ s r c generated, Latest t.accepted p s r → r.effect p = some (some c) → t.overlay.holdsSequence s = true →
      ∃ t', t.step cfg (.accept (.put p b (.update (returned r)) generated)) = some t') ∧
    (∀ s r s' r' expected generated, Latest t.accepted p s r → Logged t.accepted s' r' → s' < s →
      expected.eTag = some (.wb r'.localEtag) ∨ expected.version = some (.wb r'.localEtag) →
      ∃ source, t.validate cfg (.put p b (.update expected) generated) = .error (.precondition source)) ∧
    (∀ expected v generated, expected.eTag = some v ∨ expected.version = some v → ¬Shown t p v →
      ∃ source, t.validate cfg (.put p b (.update expected) generated) = .error (.precondition source)) ∧
    (Machine.Reach (step cfg) Punctual (boot remote) t →
      ((∃ t', t.step cfg (.accept (.put p b .create false)) = some t') ↔
        literalOf t.accepted remote.contents p = none)) := by
  have hshows := reach_shows (P := False) (fun _ _ _ hP => hP.elim) h
  obtain ⟨removed, observed, hheld⟩ := hshows.held
  refine ⟨fun s r c generated hl hput hs => hheld.update_accepted hshows.ok hgo hopen hl hput hs b generated, ?_,
    fun expected v generated hv hstale => hheld.update_refused hv hstale b generated,
    fun h => (reach_shows (fun _ _ hc _ => hc) h).create_accepted hgo hopen p b⟩
  intro s r s' r' expected generated hl hr' hlt hv
  refine hheld.update_refused hv ?_ b generated
  rintro (⟨s'', r'', hl'', heq⟩ | ⟨-, o, -, heq⟩)
  · obtain ⟨rfl, rfl⟩ := hl.unique hl''
    rw [hshows.entered.stamped r' hr'.mem, hshows.entered.stamped r hl.logged.mem, hshows.ok.log.logged_sequence hr',
      hshows.ok.log.logged_sequence hl.logged] at heq
    simp only [Version.wb.injEq, LocalEtag.mk.injEq, true_and] at heq
    omega
  · cases heq

/-- The record of an overwrite of the object of the sample store. -/
def overwritten : MutationRecord := ⟨1, ["a"], .put .overwrite none [2], ⟨1, 1⟩, none, .fence⟩

theorem latest_overwritten : Latest [overwritten] ["a"] 1 overwritten := by
  refine ⟨⟨0, rfl, rfl⟩, by decide, ?_⟩
  rintro s r hr hlt
  have := hr.le
  simp only [length_singleton] at this
  omega

theorem update_follows_latest_pending : ∃ t, Machine.Reach (step sampleConfig) anyStep (boot sampleRemote) t ∧
    t.failed = false ∧ t.poisoned = false ∧ t.accepted = [overwritten] ∧ t.overlay.holdsSequence 1 = true ∧
      ∃ t', t.step sampleConfig (.accept (.put ["a"] [3] (.update (returned overwritten)) false)) = some t' := by
  have hreach : Machine.Reach (step sampleConfig) anyStep (boot sampleRemote) _ :=
    reach_of_run .init (l := [.accept (.put ["a"] [2] .overwrite false)]) rfl
  have haccepts := (update_follows_latest hreach rfl rfl ["a"] [3]).1 1 overwritten [2] false
  exact ⟨_, hreach, rfl, rfl, rfl, rfl, haccepts latest_overwritten rfl rfl⟩

/-- Once the last mutation has drained, the version that it returned is refused; and a create that is marked as a
generated segment is accepted over an object of the remote store. -/
theorem drained_version_refused :
    (∃ t, Machine.Reach (step sampleConfig) Punctual (boot sampleRemote) t ∧ t.failed = false ∧
      Latest t.accepted ["a"] 1 overwritten ∧
      t.validate sampleConfig (.put ["a"] [3] (.update (returned overwritten)) false) =
        .error (.precondition "update version is stale")) ∧
    literalOf (boot sampleRemote).accepted sampleRemote.contents ["a"] ≠ none ∧
      ∃ t', (boot sampleRemote).step sampleConfig (.accept (.put ["a"] [3] .create true)) = some t' := by
  exact ⟨⟨_, reach_of_run .init (l := .accept (.put ["a"] [2] .overwrite false) :: publish 1 ++ drainPut 1) rfl, rfl,
    latest_overwritten, rfl⟩, by decide +kernel, _, rfl⟩

end Tier

end ZeroFS.Writeback
