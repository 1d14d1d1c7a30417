import Mathlib.Data.Finset.Dedup
import ZeroFS.Writeback.Visible

/-!
# Serving reads while the journal drains

A read samples the overlay and goes to the journal or the remote store afterwards, with any steps of the tier in
between; it must answer what the literal namespace held at some moment since it started. That fails when a sampled row
is pruned before its bytes are read, when a record accepted after a listing has sampled reaches the remote store before
it lists, and when a pending object's path is the listed prefix itself.
-/

namespace ZeroFS.Writeback

/-! ## The cache of journal blobs -/

def BLOB_CACHE_MAX_BYTES : Nat := 32 * 1024 * 1024

def BLOB_CACHE_INLINE_MAX_BYTES : Nat := 1024 * 1024

abbrev BlobCache := List (Nat × Payload)

namespace BlobCache

def totalBytes (c : BlobCache) : Nat := (c.map (·.2.length)).sum

def lookup (c : BlobCache) (s : Nat) : Option (Payload × BlobCache) :=
  (c.find? fun e => e.1 = s).map fun e => (e.2, c.eraseP (fun e => e.1 = s) ++ [e])

def evict : BlobCache → BlobCache
  | [] => []
  | e :: c => if BLOB_CACHE_MAX_BYTES < totalBytes (e :: c) then evict c else e :: c

def insert (c : BlobCache) (s : Nat) (b : Payload) : BlobCache :=
  if BLOB_CACHE_MAX_BYTES < b.length ∨ c.any (fun e => e.1 = s) then c else evict (c ++ [(s, b)])

def retain (c : BlobCache) (keep : Nat → Bool) : BlobCache := c.filter fun e => keep e.1

end BlobCache

/-! ## Reads -/

/-- A read in progress, with what it has sampled of the overlay. -/
inductive Reader
  | object (path : Path) (head : Bool) (entry : Option OverlayEntry)
  | listing (below : Path) (delimiter : Bool) (entries : Table Path OverlayEntry)

inductive Answer
  | object (payload : Payload)
  | size (bytes : Nat)
  | listing (objects : Table Path Nat)
  | delimited (objects : Table Path Nat) (commonPrefixes : Finset Path)

/-- The tier with its cache and the reads in progress. -/
structure Serve where
  tier : Tier
  cache : BlobCache := []
  /-- The reads in progress, each with the number of records that were accepted when it sampled. -/
  readers : Table Nat (Nat × Reader) := Table.empty

inductive ServeAction
  | tier (a : Action)
  | openObject (id : Nat) (path : Path) (head : Bool)
  | openListing (id : Nat) (below : Path) (delimiter : Bool)
  | close (id : Nat)

/-- The size in `entry_meta`. -/
def entrySize (r : MutationRecord) : Except StoreError Nat :=
  match r.payload with
  | none => .error .notFound
  | some b => .ok b.length

/-- What a store lists: the objects strictly below the prefix, at segment boundaries. -/
def Remote.list (m : Remote) (below : Path) : Table Path Nat :=
  m.objects.filterMapVals fun q o => if below <+: q ∧ below ≠ q then some o.payload.length else none

def OverlayIndex.visibleEntries (o : OverlayIndex) (below : Path) : Table Path OverlayEntry :=
  o.filterMapVals fun q vs => if below <+: q then vs.getLast? else none

/-- The sampled entries over a listing of the remote store. -/
def mergeEntries : List (Sigma fun _ : Path => OverlayEntry) → Table Path Nat → Except StoreError (Table Path Nat)
  | [], merged => .ok merged
  | ⟨q, e⟩ :: es, merged =>
    match e.effect with
    | .delete => mergeEntries es (merged.del q)
    | .put =>
      match entrySize e.record with
      | .error err => .error err
      | .ok size => mergeEntries es (merged.put q size)

def delimit (below : Path) (listed : Table Path Nat) : Answer :=
  .delimited (listed.filterMapVals fun q n => if (q.drop below.length).length ≤ 1 then some n else none)
    ((listed.entries.filterMap fun row =>
      if (row.1.drop below.length).length ≤ 1 then none else some (below ++ (row.1.drop below.length).take 1)).toFinset)

namespace Serve

variable (cfg : Config) (s : Serve)

/-- The end of a read: the journal, the cache and the remote store as they are now. -/
def finish : Reader → Except StoreError Answer × BlobCache
  | .object path head none =>
    match s.tier.remote.objects.get path with
    | none => (.error .notFound, s.cache)
    | some o => (.ok (if head then .size o.payload.length else .object o.payload), s.cache)
  | .object _ head (some e) =>
    match e.payload with
    | none => (.error .notFound, s.cache)
    | some location =>
      match entrySize e.record with
      | .error err => (.error err, s.cache)
      | .ok size =>
        if head then (.ok (.size size), s.cache)
        else
          match location with
          | .pending b => (.ok (.object b), s.cache)
          | .journal n =>
            if BLOB_CACHE_INLINE_MAX_BYTES < size then
              match s.tier.loadPayload (.journal n) with
              | none => (.error .generic, s.cache)
              | some b => (.ok (.object b), s.cache)
            else
              match BlobCache.lookup s.cache n with
              | some (b, cache) => (.ok (.object b), cache)
              | none =>
                match s.tier.loadPayload (.journal n) with
                | none => (.error .generic, s.cache)
                | some b => (.ok (.object b), BlobCache.insert s.cache n b)
  | .listing below delimiter entries =>
    match mergeEntries entries.entries (s.tier.remote.list below) with
    | .error err => (.error err, s.cache)
    | .ok merged => (.ok (if delimiter then delimit below merged else .listing merged), s.cache)

/-- The last sequence of the run that is being committed. -/
def committedThrough (t : Tier) : Nat :=
  match t.scheduler.committing with
  | some (run, _) => t.scheduler.next + run.length - 1
  | none => 0

def step (a : ServeAction) : Option Serve :=
  match a with
  | .tier .restart => (s.tier.step cfg .restart).map fun t => { tier := t }
  | .tier .retire =>
    (s.tier.step cfg .retire).map fun t =>
      { s with tier := t, cache := BlobCache.retain s.cache fun n => committedThrough s.tier < n }
  | .tier a => (s.tier.step cfg a).map fun t => { s with tier := t }
  | .openObject id path head =>
    if (s.readers.get id).isSome then none
    else some { s with
      readers := s.readers.put id (s.tier.accepted.length, .object path head (s.tier.overlay.visibleEntry path)) }
  | .openListing id below delimiter =>
    if (s.readers.get id).isSome then none
    else some { s with
      readers := s.readers.put id (s.tier.accepted.length,
        .listing below delimiter (s.tier.overlay.visibleEntries below)) }
  | .close id =>
    (s.readers.get id).map fun reader => { s with readers := s.readers.del id, cache := (s.finish reader.2).2 }

/-- The `get` has sampled a row of the journal up to this sequence; a `head` does not go to the journal. -/
def sampledRow (through : Nat) : Reader → Bool
  | .object _ false (some ⟨_, _, some (.journal n)⟩) => n ≤ through
  | _ => false

def isListing : Reader → Bool
  | .listing .. => true
  | _ => false

/-- No request lands late, no row is pruned that a `get` has sampled, no record accepted after a listing has sampled
takes effect before it lists, and no listing is opened at the path of a pending object. -/
def seamless : ServeAction → Bool
  | .tier (.land _) => false
  | .tier .prune => s.readers.entries.all fun row => !sampledRow (committedThrough s.tier) row.2.2
  | .tier (.effect n) => s.readers.entries.all fun row => !isListing row.2.2 || n ≤ row.2.1
  | .openListing _ below _ => !s.tier.overlay.hasVisibleLocalObject below
  | _ => true

abbrev Seamless (s : Serve) (a : ServeAction) : Prop := seamless s a = true

end Serve

/-- What a `get` or a `head` answers for an object. -/
def objectAnswer (head : Bool) : Option Payload → Except StoreError Answer
  | none => .error .notFound
  | some b => .ok (if head then .size b.length else .object b)

/-- What a read answers on a namespace. -/
def Answers (ns : Namespace) : Reader → Except StoreError Answer → Prop
  | .object p head _, o => o = objectAnswer head (ns p)
  | .listing below false _, o => ∃ listed, o = .ok (.listing listed) ∧
    ∀ q, listed.get q = if below <+: q ∧ below ≠ q then (ns q).map (·.length) else none
  | .listing below true _, o => ∃ objects commonPrefixes, o = .ok (.delimited objects commonPrefixes) ∧
    (∀ q, objects.get q = if below <+: q ∧ q.length = below.length + 1 then (ns q).map (·.length) else none) ∧
    ∀ c, c ∈ commonPrefixes ↔ ∃ q b, ns q = some b ∧ below <+: q ∧ below.length + 1 < q.length ∧
    c = q.take (below.length + 1)

end ZeroFS.Writeback
