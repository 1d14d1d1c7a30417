import Mathlib.Algebra.Order.Ring.Int
import Mathlib.Data.List.Basic
import Mathlib.Data.List.Induction
import Mathlib.Data.List.TakeDrop
import Mathlib.Logic.Function.Basic

/-!
# Mutation records of the writeback tier

A put, multipart completion, delete, copy or rename is accepted as a `MutationRecord` (`writeback/model.rs`); the
payload of a copy or a rename is the source object as read under the key locks. `effect` is what a record does to one
key, `literal` the client's operation; where every payload was read from its source both replay the same.
-/

namespace ZeroFS.Writeback

/-- An object path by its segments. -/
abbrev Path := List String

abbrev Payload := List UInt8

/-- The version `wb:{incarnation}:{sequence}` that the tier returns for an accepted mutation. -/
structure LocalEtag where
  incarnation : Nat
  sequence : Nat
  deriving DecidableEq

/-- A version string: minted by the tier, or issued by the remote store. -/
inductive Version
  | wb (etag : LocalEtag)
  | remote (tag : Nat)
  deriving DecidableEq

inductive MutationMode
  | overwrite
  | create
  | update
  deriving DecidableEq

/-- The payload stands for the blob that the record's length, digest and blob path name. -/
inductive MutationKind
  | put (mode : MutationMode) (expectedVisibleVersion : Option Version) (payload : Payload)
  | delete
  | copy (source : Path) (mode : MutationMode) (payload : Payload)
  | rename (source : Path) (mode : MutationMode) (payload : Payload)
  deriving DecidableEq

inductive FenceClass
  | immutableCreate
  | fence
  deriving DecidableEq

/-- Only a create-only put of a canonical database object may be uploaded before its predecessors. -/
def classifyMutationFence (canonical : Path → Bool) (path : Path) : MutationKind → FenceClass
  | .put .create _ _ => if canonical path then .immutableCreate else .fence
  | _ => .fence

structure MutationRecord where
  sequence : Nat
  path : Path
  kind : MutationKind
  localEtag : LocalEtag
  remotePredecessorEtag : Option Nat
  fence : FenceClass
  deriving DecidableEq

namespace MutationRecord

variable (r : MutationRecord)

def payload : Option Payload :=
  match r.kind with
  | .put _ _ b | .copy _ _ b | .rename _ _ b => some b
  | .delete => none

def touchedKeys : List Path :=
  match r.kind with
  | .rename source _ _ => [r.path, source]
  | _ => [r.path]

/-- What the record leaves at a key: `none` when it does not touch it. -/
def effect (p : Path) : Option (Option Payload) :=
  match r.kind with
  | .put _ _ b | .copy _ _ b => if p = r.path then some (some b) else none
  | .delete => if p = r.path then some none else none
  | .rename source _ b => if p = source then some none else if p = r.path then some (some b) else none

end MutationRecord

abbrev Namespace := Path → Option Payload

namespace MutationRecord

variable {r : MutationRecord} {p : Path} {ns : Namespace}

def apply (r : MutationRecord) (ns : Namespace) : Namespace := fun p => (r.effect p).getD (ns p)

/-- The client's operation on the literal namespace. -/
def literal (r : MutationRecord) (ns : Namespace) : Namespace :=
  match r.kind with
  | .put _ _ b => Function.update ns r.path (some b)
  | .delete => Function.update ns r.path none
  | .copy source _ _ => Function.update ns r.path (ns source)
  | .rename source _ _ => Function.update (Function.update ns r.path (ns source)) source none

/-- The payload of a copy or a rename is the object at its source. -/
def Sourced (r : MutationRecord) (ns : Namespace) : Prop :=
  match r.kind with
  | .copy source _ b | .rename source _ b => ns source = some b
  | _ => True

theorem effect_eq_none_iff : r.effect p = none ↔ p ∉ r.touchedKeys := by
  unfold effect touchedKeys
  split <;> grind

theorem effect_isSome_iff : (r.effect p).isSome ↔ p ∈ r.touchedKeys := by
  have := effect_eq_none_iff (r := r) (p := p)
  cases h : r.effect p <;> simp_all

theorem mem_touchedKeys {v : Option Payload} (h : r.effect p = some v) : p ∈ r.touchedKeys :=
  effect_isSome_iff.1 (by rw [h]; rfl)

theorem apply_of_effect {v : Option Payload} (h : r.effect p = some v) : r.apply ns p = v := by
  simp [apply, h]

theorem apply_of_untouched (h : p ∉ r.touchedKeys) : r.apply ns p = ns p := by
  simp [apply, effect_eq_none_iff.2 h]

/-- A record whose payload was read from its source does what the client asked for. -/
theorem literal_eq_apply (h : r.Sourced ns) : r.literal ns = r.apply ns := by
  funext q
  obtain ⟨seq, path, kind, etag, predecessor, cls⟩ := r
  cases kind <;> simp only [literal, apply, effect, Sourced, Function.update_apply] at h ⊢ <;> grind

end MutationRecord

/-! ## Replaying records -/

def applied (rs : List MutationRecord) (ns : Namespace) : Namespace := rs.foldl (fun ns r => r.apply ns) ns

def literalOf (rs : List MutationRecord) (ns : Namespace) : Namespace := rs.foldl (fun ns r => r.literal ns) ns

/-- The payload of every record was at its source when the records before it had been applied. -/
def AllSourced (rs : List MutationRecord) (ns : Namespace) : Prop :=
  ∀ (i : Nat) (r : MutationRecord), rs[i]? = some r → r.Sourced (applied (rs.take i) ns)

variable {rs : List MutationRecord} {ns : Namespace} {p : Path}

theorem applied_append (as bs : List MutationRecord) (ns : Namespace) :
    applied (as ++ bs) ns = applied bs (applied as ns) := List.foldl_append

theorem applied_singleton (r : MutationRecord) (ns : Namespace) : applied [r] ns = r.apply ns := rfl

theorem applied_untouched (h : ∀ r ∈ rs, p ∉ r.touchedKeys) : applied rs ns p = ns p := by
  induction rs generalizing ns with
  | nil => rfl
  | cons r rs ih =>
    have hrest : applied rs (r.apply ns) p = r.apply ns p := ih fun q hq => h q (List.mem_cons_of_mem _ hq)
    exact hrest.trans (MutationRecord.apply_of_untouched (h r List.mem_cons_self))

/-- **Replaying the accepted records is replaying the clients' operations.** -/
theorem applied_eq_literal (h : AllSourced rs ns) : literalOf rs ns = applied rs ns := by
  induction rs using List.reverseRecOn with
  | nil => rfl
  | append_singleton rs r ih =>
    have hpre : AllSourced rs ns := by
      intro i q hq
      have hi : i < rs.length := (List.getElem?_eq_some_iff.1 hq).1
      have hfull := h i q (by rw [List.getElem?_append_left hi, hq])
      rwa [List.take_append_of_le_length (Nat.le_of_lt hi)] at hfull
    have hr : r.Sourced (applied rs ns) := by
      have hlast := h rs.length r (by simp)
      simpa using hlast
    have hlit : literalOf (rs ++ [r]) ns = r.literal (literalOf rs ns) := List.foldl_append
    rw [hlit, ih hpre, MutationRecord.literal_eq_apply hr, applied_append, applied_singleton]

/-! ## Prefixes of a log -/

theorem of_getElem?_take {α : Type} {l : List α} {n i : Nat} {a : α} (h : (l.take n)[i]? = some a) :
    i < n ∧ l[i]? = some a := by
  rw [List.getElem?_take] at h
  split at h
  · exact ⟨by assumption, h⟩
  · cases h

theorem applied_take_of_untouched {k n : Nat} (hk : k ≤ n)
    (h : ∀ i r, k ≤ i → i < n → rs[i]? = some r → p ∉ r.touchedKeys) :
    applied (rs.take n) ns p = applied (rs.take k) ns p := by
  have hsplit : rs.take n = rs.take k ++ (rs.take n).drop k := by
    conv_lhs => rw [← List.take_append_drop k (rs.take n), List.take_take, Nat.min_eq_left hk]
  rw [hsplit, applied_append]
  refine applied_untouched fun r hr => ?_
  obtain ⟨j, hj⟩ := List.getElem?_of_mem hr
  rw [List.getElem?_drop] at hj
  obtain ⟨hlt, hj⟩ := of_getElem?_take hj
  exact h (k + j) r (Nat.le_add_right k j) hlt hj

theorem applied_take_succ {i : Nat} {r : MutationRecord} {v : Option Payload} (hr : rs[i]? = some r)
    (hv : r.effect p = some v) : applied (rs.take (i + 1)) ns p = v := by
  rw [List.take_add_one, hr, applied_append]
  exact MutationRecord.apply_of_effect hv

/-- The last record of a stretch that touches a key decides it. -/
theorem applied_take_last {n i : Nat} {r : MutationRecord} {v : Option Payload} (hin : i < n)
    (hr : rs[i]? = some r) (hv : r.effect p = some v)
    (hlast : ∀ j q, i < j → j < n → rs[j]? = some q → p ∉ q.touchedKeys) : applied (rs.take n) ns p = v := by
  rw [applied_take_of_untouched hin fun j q hj hjn hq => hlast j q hj hjn hq]
  exact applied_take_succ hr hv

end ZeroFS.Writeback
