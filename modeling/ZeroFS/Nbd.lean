import ZeroFS.Types

/-!
# Reads of an NBD export (`nbd/handler.rs`)

A device is one file or striped over several, with the sizes that were resolved when it was attached. In the volatile
mode the pieces of a read are laid over zeros, and a piece that is too short leaves them there.
-/

namespace ZeroFS.Nbd

inductive CommandError
  | invalidArgument
  | ioError
  | noSpace
  deriving DecidableEq

structure NbdMember where
  inode : Nat
  size : Nat

inductive NbdBacking
  | single (inode size : Nat)
  | striped (members : List NbdMember) (stripeBytes : Nat)

structure NbdDevice where
  backing : NbdBacking
  volatileMode : Bool

def NbdBacking.size : NbdBacking → Nat
  | .single _ size => size
  | .striped members _ => (members.head?.map fun m => m.size * members.length).getD 0

/-- A part of a request that one member serves. -/
structure StripeChunk where
  memberIndex : Nat
  inode : Nat
  memberOffset : Nat
  logicalOffset : Nat
  length : Nat

def checkedMul (a b : Nat) : Option Nat := if a * b ≤ u64Max then some (a * b) else none

/-- The loop of `map_stripe_chunks`. Every round takes at least one byte, so `length` rounds are enough. -/
def stripeLoop (members : List NbdMember) (stripeBytes offset length : Nat) :
    (fuel logicalOffset : Nat) → Except CommandError (List StripeChunk)
  | 0, _ => .ok []
  | fuel + 1, logicalOffset =>
    if length ≤ logicalOffset then .ok []
    else match checkedAdd offset logicalOffset with
      | none => .error .invalidArgument
      | some position =>
        match (checkedMul (position / stripeBytes / members.length) stripeBytes).bind
          (checkedAdd · (position % stripeBytes)), members[position / stripeBytes % members.length]? with
        | some memberOffset, some member =>
          let chunkLength := min (length - logicalOffset) (stripeBytes - position % stripeBytes)
          if (checkedAdd memberOffset chunkLength).all (member.size < ·) then .error .invalidArgument
          else do
            let rest ← stripeLoop members stripeBytes offset length fuel (logicalOffset + chunkLength)
            return ⟨position / stripeBytes % members.length, member.inode, memberOffset, logicalOffset, chunkLength⟩ ::
            rest
        | _, _ => .error .invalidArgument

def mapStripeChunks (backing : NbdBacking) (offset length : Nat) : Except CommandError (List StripeChunk) :=
  if length = 0 then .ok []
  else match backing with
    | .single inode size =>
      if (checkedAdd offset length).all (size < ·) then .error .invalidArgument else .ok [⟨0, inode, offset, 0, length⟩]
    | .striped members stripeBytes =>
      if members = [] ∨ stripeBytes = 0 then .error .invalidArgument
        else stripeLoop members stripeBytes offset length length 0

def groupStripeChunks (chunks : List StripeChunk) (memberCount : Nat) : List (List StripeChunk) :=
  (List.range memberCount).map fun i => chunks.filter (·.memberIndex = i)

section Read

-- `files` are the contents of the backing files as they are now, or why they cannot be read.
variable (files : Nat → Except CommandError (List UInt8))

/-- `read_file`, which stops at the end of the file. -/
def readFile (inode offset count : Nat) : Except CommandError (List UInt8) := do
  let data ← files inode
  return (data.drop offset).take count

/-- `read_visible` from its first chunk on; `out` starts as zeros. -/
def readPieces : List StripeChunk → List UInt8 → Except CommandError (List UInt8)
  | [], out => .ok out
  | c :: rest, out => do
    let piece ← readFile files c.inode c.memberOffset c.length
    readPieces rest (out.take c.logicalOffset ++ piece ++ out.drop (c.logicalOffset + piece.length))

def readVisible (backing : NbdBacking) (offset length : Nat) : Except CommandError (List UInt8) := do
  let chunks ← mapStripeChunks backing offset length
  readPieces files chunks (List.replicate length 0)

/-- The reads of the groups, one after the other. -/
def readParts : List StripeChunk → Except CommandError (List (Nat × List UInt8))
  | [] => .ok []
  | c :: rest => do
    let data ← readFile files c.inode c.memberOffset c.length
    if data.length ≠ c.length then .error .ioError
    else do
      let parts ← readParts rest
      return (c.logicalOffset, data) :: parts

def joinParts (length : Nat) : List (Nat × List UInt8) → List UInt8 → Except CommandError (List UInt8)
  | [], output => if output.length ≠ length then .error .ioError else .ok output
  | (logicalOffset, data) :: rest, output =>
    if logicalOffset ≠ output.length then .error .ioError else joinParts length rest (output ++ data)

def readBacking (backing : NbdBacking) (offset length : Nat) : Except CommandError (List UInt8) :=
  match backing with
  | .single inode _ => do
    let data ← readFile files inode offset length
    if data.length ≠ length then .error .ioError else .ok data
  | .striped members _ => do
    let chunks ← mapStripeChunks backing offset length
    let parts ← readParts files (groupStripeChunks chunks members.length).flatten
    joinParts length (parts.mergeSort fun a b => a.1 ≤ b.1) []

/-- `NBDHandler::read`. -/
def read (device : NbdDevice) (offset length : Nat) : Except CommandError (List UInt8) :=
  if (checkedAdd offset length).all (device.backing.size < ·) then .error .invalidArgument
  else if length = 0 then .ok []
  else if device.volatileMode then readVisible files device.backing offset length
  else readBacking files device.backing offset length

end Read

/-- The file and the offset in it of a byte of the device. -/
def locate : NbdBacking → Nat → Option (Nat × Nat)
  | .single inode _, p => some (inode, p)
  | .striped members stripeBytes, p => (members[p / stripeBytes % members.length]?).map fun m =>
    (m.inode, p / stripeBytes / members.length * stripeBytes + p % stripeBytes)

variable {files : Nat → Except CommandError (List UInt8)} {members : List NbdMember} {stripeBytes offset length : Nat}
  {chunks : List StripeChunk}

theorem div_mod_add {p b k : Nat} (h : p % b + k < b) : (p + k) / b = p / b ∧ (p + k) % b = p % b + k := by
  have hb : 0 < b := by omega
  constructor
  · conv_lhs => rw [← Nat.div_add_mod p b, Nat.add_assoc, Nat.mul_add_div hb, Nat.div_eq_of_lt h, Nat.add_zero]
  · conv_lhs => rw [← Nat.div_add_mod p b, Nat.add_assoc, Nat.mul_add_mod, Nat.mod_eq_of_lt h]

/-- Every byte of the request is in a chunk. -/
theorem stripeLoop_covers {fuel logicalOffset j : Nat} (hb : 0 < stripeBytes) (hle : logicalOffset ≤ j)
    (hj : j < length) (hfuel : length ≤ logicalOffset + fuel)
    (h : stripeLoop members stripeBytes offset length fuel logicalOffset = .ok chunks) :
    ∃ c ∈ chunks, c.memberIndex < members.length ∧
      ∃ k < c.length, locate (.striped members stripeBytes) (offset + j) = some (c.inode, c.memberOffset + k) := by
  induction fuel generalizing logicalOffset chunks with
  | zero => omega
  | succ fuel ih =>
    rw [stripeLoop, if_neg (by omega)] at h
    split at h
    · cases h
    rename_i position hposition
    obtain ⟨-, rfl⟩ := checkedAdd_eq_some.1 hposition
    split at h
    · rename_i memberOffset member hoffset hmember
      obtain ⟨base, hbase, hsum⟩ := Option.bind_eq_some_iff.1 hoffset
      obtain ⟨-, rfl⟩ := checkedAdd_eq_some.1 hsum
      obtain rfl : base = _ := by
        unfold checkedMul at hbase
        split at hbase <;> cases hbase
        rfl
      dsimp only at h
      split at h
      · cases h
      obtain ⟨rest, hrest, h⟩ := bind_eq_ok.1 h
      cases h
      have hmod := Nat.mod_lt (offset + logicalOffset) hb
      rcases Nat.lt_or_ge j (logicalOffset + min (length - logicalOffset)
        (stripeBytes - (offset + logicalOffset) % stripeBytes)) with hin | hout
      · refine ⟨_, List.mem_cons_self, (List.getElem?_eq_some_iff.1 hmember).1, j - logicalOffset,
          by dsimp only; omega, ?_⟩
        obtain ⟨hdiv, hrem⟩ := div_mod_add (p := offset + logicalOffset) (b := stripeBytes) (k := j - logicalOffset)
          (by omega)
        rw [show offset + j = offset + logicalOffset + (j - logicalOffset) by omega, locate, hdiv, hrem, hmember]
        simp [Nat.add_assoc]
      · obtain ⟨c, hc, hcover⟩ := ih hout (by omega) hrest
        exact ⟨c, List.mem_cons_of_mem _ hc, hcover⟩
    · cases h

/-- A read that succeeds has found every byte of its chunks. -/
theorem readParts_full {parts : List (Nat × List UInt8)} (h : readParts files chunks = .ok parts) {c : StripeChunk}
    (hc : c ∈ chunks) {data : List UInt8} (hdata : files c.inode = .ok data) :
    ((data.drop c.memberOffset).take c.length).length = c.length := by
  induction chunks generalizing parts with
  | nil => cases hc
  | cons c' rest ih =>
    obtain ⟨piece, hpiece, h⟩ := bind_eq_ok.1 h
    split at h
    · cases h
    rename_i hfull
    obtain ⟨parts', hparts, -⟩ := bind_eq_ok.1 h
    rcases List.mem_cons.1 hc with rfl | hc
    · rw [readFile, hdata] at hpiece; cases hpiece; exact not_not.1 hfull
    · exact ih hparts hc

theorem readPieces_error_iff {out : List UInt8} :
    (∃ e, readPieces files chunks out = .error e) ↔ ∃ c ∈ chunks, ∃ e, files c.inode = .error e := by
  induction chunks generalizing out with
  | nil => simp [readPieces]
  | cons c rest ih =>
    cases hc : files c.inode with
    | error e => simp [readPieces, readFile, hc, bind, Except.bind]
    | ok data => simp [readPieces, readFile, hc, bind, Except.bind, pure, Except.pure, ih]

theorem readBacking_short {backing : NbdBacking} {p inode place : Nat} {data : List UInt8}
    (hp : offset ≤ p ∧ p < offset + length) (hloc : locate backing p = some (inode, place))
    (hdata : files inode = .ok data) (hshort : data.length ≤ place) :
    ∃ e, readBacking files backing offset length = .error e := by
  cases hread : readBacking files backing offset length with
  | error e => exact ⟨e, rfl⟩
  | ok out =>
    cases backing with
    | single inode' size =>
      cases hloc
      obtain ⟨piece, hpiece, h⟩ := bind_eq_ok.1 hread
      rw [readFile, hdata] at hpiece
      cases hpiece
      split at h
      · cases h
      · rename_i hfull; simp only [List.length_take, List.length_drop] at hfull; omega
    | striped members stripeBytes =>
      obtain ⟨chunks, hchunks, h⟩ := bind_eq_ok.1 hread
      obtain ⟨parts, hparts, -⟩ := bind_eq_ok.1 h
      rw [mapStripeChunks, if_neg (by omega)] at hchunks
      split at hchunks
      · cases hchunks
      rename_i hok
      obtain ⟨c, hc, hindex, k, hk, hplace⟩ :=
        stripeLoop_covers (j := p - offset) (by omega) (by omega) (by omega) (by omega) hchunks
      rw [show offset + (p - offset) = p by omega, hloc] at hplace
      cases hplace
      have hmem : c ∈ (groupStripeChunks chunks members.length).flatten := by
        refine List.mem_flatten.2 ⟨_, List.mem_map.2 ⟨c.memberIndex, List.mem_range.2 hindex, rfl⟩, ?_⟩
        simpa using hc
      have hfull := readParts_full hparts hmem hdata
      simp only [List.length_take, List.length_drop] at hfull
      omega

/-- **A byte past the end of its file** makes a read fail exactly if the device is not in the volatile mode, or the
chunks cannot be made, or a file cannot be read at all. -/
theorem short_read_fails_iff (device : NbdDevice) {p inode place : Nat} {data : List UInt8}
    (hin : (checkedAdd offset length).all (device.backing.size < ·) = false) (hp : offset ≤ p ∧ p < offset + length)
    (hloc : locate device.backing p = some (inode, place)) (hdata : files inode = .ok data)
    (hshort : data.length ≤ place) :
    (∃ e, read files device offset length = .error e) ↔ device.volatileMode = false ∨
      ∃ e, mapStripeChunks device.backing offset length = .error e ∨
        ∃ chunks, mapStripeChunks device.backing offset length = .ok chunks ∧
        ∃ c ∈ chunks, files c.inode = .error e := by
  have hread : read files device offset length =
      if device.volatileMode then readVisible files device.backing offset length
          else readBacking files device.backing offset length := by
    rw [read, hin, if_neg (by simp), if_neg (by omega)]
  rw [hread]
  cases device.volatileMode with
  | false => simpa using readBacking_short hp hloc hdata hshort
  | true =>
    rw [if_pos rfl, readVisible]
    cases hchunks : mapStripeChunks device.backing offset length with
    | error e => simp [bind, Except.bind]
    | ok chunks =>
      show (∃ e, readPieces files chunks _ = .error e) ↔ _
      rw [readPieces_error_iff]
      simp only [Bool.true_eq_false, false_or, reduceCtorEq, Except.ok.injEq, exists_eq_left']
      exact ⟨fun ⟨c, hc, e, he⟩ => ⟨e, c, hc, he⟩, fun ⟨e, c, hc, he⟩ => ⟨c, hc, e, he⟩⟩

/-- Eight bytes were resolved, and the file has been cut to five since. -/
theorem short_read_fails_materialized :
    ∃ e, read (fun _ => .ok [1, 2, 3, 4, 5]) ⟨.single 7 8, false⟩ 2 4 = .error e :=
  (short_read_fails_iff (p := 5) ⟨.single 7 8, false⟩ rfl (by decide) rfl rfl (by decide)).2 (.inl rfl)

theorem volatile_read_fabricates :
    read (fun _ => .ok [1, 2, 3, 4, 5]) ⟨.single 7 8, true⟩ 2 4 = .ok [3, 4, 5, 0] ∧
    locate (.single 7 8) 5 = some (7, 5) := by
  decide

end ZeroFS.Nbd
