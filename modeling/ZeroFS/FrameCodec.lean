import ZeroFS.Lib.Lz4

/-!
# The frame codec (`frame_codec.rs`)

A frame is compressed, then encrypted. It carries no tag of its compression: the reader looks for the zstd magic behind
the length prefix and takes everything else for LZ4.
-/

namespace ZeroFS

inductive CompressionConfig where
  | lz4
  | zstd (level : Int)

inductive CodecError where
  | compress (message : String)
  | decompress (message : String)
  | encrypt
  | tooShort (length : Nat)
  | decrypt

def nonceSize : Nat := 24
def tagSize : Nat := 16
def sealedFrameOverhead : Nat := nonceSize + tagSize
def zstdMagic : List UInt8 := [0x28, 0xB5, 0x2F, 0xFD]

/-- `FrameCodec`: its configuration, and the two compression libraries and the cipher with what is assumed of them. -/
structure FrameCodec where
  compression : CompressionConfig
  lz4Block : List UInt8 → List UInt8
  lz4Decompress : List UInt8 → Nat → Except String (List UInt8)
  zstdCompress : Int → List UInt8 → Except String (List UInt8)
  zstdDecompress : List UInt8 → Nat → Except String (List UInt8)
  encrypt : (nonce aad plain : List UInt8) → Option (List UInt8 × Vector UInt8 tagSize)
  decrypt : (nonce aad sealed : List UInt8) → Option (List UInt8)
  lz4_valid : ∀ d, Lz4.decode (lz4Block d) = some d
  lz4_round : ∀ d, lz4Decompress (lz4Block d) d.length = .ok d
  zstd_magic : ∀ {level d z}, zstdCompress level d = .ok z → ∃ rest, z = zstdMagic ++ rest
  zstd_round : ∀ {level d z}, zstdCompress level d = .ok z → zstdDecompress z d.length = .ok d
  encrypt_length : ∀ {nonce aad p c t}, encrypt nonce aad p = some (c, t) → c.length = p.length
  decrypt_encrypt : ∀ {nonce aad p c t}, encrypt nonce aad p = some (c, t) → decrypt nonce aad (c ++ t.toList) = some p

structure Compressed where
  bytes : List UInt8

def Compressed.sealedLen (c : Compressed) : Nat := c.bytes.length + sealedFrameOverhead

/-- `(n as u32).to_le_bytes()`. -/
def toLeBytes (n : Nat) : List UInt8 := [.ofNat n, .ofNat (n / 256), .ofNat (n / 65536), .ofNat (n / 16777216)]

/-- `u32::from_le_bytes` of the first four bytes. -/
def fromLeBytes : List UInt8 → Nat
  | a :: b :: c :: d :: _ => a.toNat + 256 * b.toNat + 65536 * c.toNat + 16777216 * d.toNat
  | _ => 0

theorem fromLeBytes_toLeBytes {n : Nat} (h : n < 2 ^ 32) (rest : List UInt8) :
    fromLeBytes (toLeBytes n ++ rest) = n := by
  simp [toLeBytes, fromLeBytes]
  omega

/-- The test by which `decompress` takes a payload for zstd. -/
def isZstd (data : List UInt8) : Bool := 8 ≤ data.length && (data.drop 4).take 4 == zstdMagic

namespace FrameCodec

variable (codec : FrameCodec)

def compress (data : List UInt8) : Except CodecError Compressed :=
  match codec.compression with
  | .lz4 => .ok ⟨toLeBytes data.length ++ codec.lz4Block data⟩
  | .zstd level =>
    match codec.zstdCompress level data with
    | .error e => .error (.compress e)
    | .ok compressed => .ok ⟨toLeBytes data.length ++ compressed⟩

/-- Both decompressors take the size that the first four bytes name; `lz4_flex` refuses an input without them. -/
def decompress (data : List UInt8) : Except CodecError (List UInt8) :=
  if isZstd data then (codec.zstdDecompress (data.drop 4) (fromLeBytes data)).mapError .decompress
  else if data.length < 4 then .error (.decompress "expected another byte, found none")
  else (codec.lz4Decompress (data.drop 4) (fromLeBytes data)).mapError .decompress

/-- `seal_compressed` with the nonce it draws. -/
def sealCompressed (nonce : Vector UInt8 nonceSize) (body : Compressed) (aad : List UInt8) :
    Except CodecError (List UInt8) :=
  match codec.encrypt nonce.toList aad body.bytes with
  | none => .error .encrypt
  | some (out, tag) => .ok (nonce.toList ++ out ++ tag.toList)

def sealFrame (nonce : Vector UInt8 nonceSize) (plain aad : List UInt8) : Except CodecError (List UInt8) := do
  codec.sealCompressed nonce (← codec.compress plain) aad

def openCompressed (frame aad : List UInt8) : Except CodecError Compressed :=
  if frame.length < nonceSize + tagSize then .error (.tooShort frame.length)
  else match codec.decrypt (frame.take nonceSize) aad (frame.drop nonceSize) with
    | none => .error .decrypt
    | some bytes => .ok ⟨bytes⟩

def openFrame (frame aad : List UInt8) : Except CodecError (List UInt8) := do
  codec.decompress (← codec.openCompressed frame aad).bytes

/-! ## Detection -/

variable {codec} {nonce : Vector UInt8 nonceSize} {plain aad frame : List UInt8} {body : Compressed}

/-- The magic is a token for two literals and then a match from at least 253 bytes back: no block starts with it. -/
theorem lz4_not_zstd (data : List UInt8) : isZstd (toLeBytes data.length ++ codec.lz4Block data) = false := by
  have hvalid := codec.lz4_valid data
  by_contra h
  obtain ⟨hlen, hmagic⟩ := by simpa [isZstd, toLeBytes] using h
  obtain ⟨rest, hrest⟩ : ∃ rest, codec.lz4Block data = zstdMagic ++ rest := ⟨_, by rw [← hmagic, List.take_append_drop]⟩
  rw [hrest, zstdMagic] at hvalid
  have hnone : Lz4.decode (0x28 :: 0xB5 :: 0x2F :: 0xFD :: rest) = none := Lz4.decode_far_match rfl (by decide) rest
  exact nomatch hnone.symm.trans hvalid

theorem isZstd_zstd (n : Nat) (rest : List UInt8) : isZstd (toLeBytes n ++ (zstdMagic ++ rest)) = true := by
  simp [isZstd, toLeBytes, zstdMagic]

/-- A payload is taken for what wrote it, and decompressed to the data. -/
theorem decompress_compress (reader : CompressionConfig) (h : codec.compress plain = .ok body)
    (hlen : plain.length < 2 ^ 32) :
    (isZstd body.bytes = true ↔ codec.compression ≠ .lz4) ∧
      { codec with compression := reader }.decompress body.bytes = .ok plain := by
  have hsize := fun rest => fromLeBytes_toLeBytes hlen rest
  unfold compress at h
  split at h
  · rename_i hc
    cases h
    have hshort : ¬(toLeBytes plain.length ++ codec.lz4Block plain).length < 4 := by simp [toLeBytes]
    have hround := codec.lz4_round plain
    refine ⟨by simp [lz4_not_zstd, hc], ?_⟩
    rw [decompress, if_neg (by simp [lz4_not_zstd]), if_neg hshort, hsize]
    simp [toLeBytes, hround, Except.mapError]
  · rename_i level hc
    split at h
    · cases h
    · rename_i z hz
      cases h
      obtain ⟨rest, rfl⟩ := codec.zstd_magic hz
      have hround := codec.zstd_round hz
      refine ⟨by simp [isZstd_zstd, hc], ?_⟩
      rw [decompress, if_pos (isZstd_zstd ..), hsize]
      simp [toLeBytes, hround, Except.mapError]

/-! ## Frames -/

theorem length_sealCompressed (h : codec.sealCompressed nonce body aad = .ok frame) :
    frame.length = body.sealedLen := by
  unfold sealCompressed at h
  split at h
  · cases h
  · rename_i henc
    cases h
    have := codec.encrypt_length henc
    simp [Compressed.sealedLen, sealedFrameOverhead]
    omega

theorem openCompressed_sealCompressed (h : codec.sealCompressed nonce body aad = .ok frame) :
    codec.openCompressed frame aad = .ok body := by
  have hlen := length_sealCompressed h
  unfold Compressed.sealedLen sealedFrameOverhead at hlen
  unfold sealCompressed at h
  split at h
  · cases h
  · rename_i henc
    cases h
    have hdec := codec.decrypt_encrypt henc
    rw [openCompressed, if_neg (by omega), List.append_assoc, List.take_left' (by simp), List.drop_left' (by simp),
      hdec]

/-- **Detection is unambiguous.** Whatever the writer's setting and the reader's, a payload is taken for zstd exactly
when zstd wrote it, a sealed frame opens to the plaintext under the same additional data, and every sealed body has its
predicted length. -/
theorem open_seal (codec : FrameCodec) (reader : CompressionConfig) (nonce : Vector UInt8 nonceSize)
    (plain aad : List UInt8) (hlen : plain.length < 2 ^ 32) :
    (∀ body, codec.compress plain = .ok body → (isZstd body.bytes = true ↔ codec.compression ≠ .lz4)) ∧
      (∀ frame, codec.sealFrame nonce plain aad = .ok frame →
        { codec with compression := reader }.openFrame frame aad = .ok plain) ∧
      ∀ body frame, codec.sealCompressed nonce body aad = .ok frame → frame.length = body.sealedLen := by
  refine ⟨fun body h => (decompress_compress reader h hlen).1, fun frame h => ?_,
    fun body frame h => length_sealCompressed h⟩
  unfold sealFrame at h
  cases hbody : codec.compress plain with
  | error e => rw [hbody] at h; cases h
  | ok body =>
    rw [hbody] at h
    have hopen : { codec with compression := reader }.openCompressed frame aad = .ok body :=
      openCompressed_sealCompressed h
    simp only [openFrame, hopen]
    exact (decompress_compress reader hbody hlen).2

/-- Literal-only LZ4, zstd's magic before the data, and a cipher that keeps the text and appends zeros. -/
def plainCodec (compression : CompressionConfig) : FrameCodec where
  compression
  lz4Block := Lz4.store
  lz4Decompress b _ := (Lz4.decode b).elim (.error "") .ok
  zstdCompress _ d := .ok (zstdMagic ++ d)
  zstdDecompress b _ := .ok (b.drop 4)
  encrypt _ _ p := some (p, .replicate _ 0)
  decrypt _ _ c := some (c.take (c.length - tagSize))
  lz4_valid := Lz4.decode_store
  lz4_round d := by rw [Lz4.decode_store]; rfl
  zstd_magic h := ⟨_, (Except.ok.inj h).symm⟩
  zstd_round h := by cases h; rfl
  encrypt_length h := by cases h; rfl
  decrypt_encrypt h := by cases h; simp

theorem open_seal_lz4 :
    ∃ frame, (plainCodec .lz4).sealFrame (.replicate _ 7) [1, 2, 3] [9] = .ok frame ∧
      (plainCodec (.zstd 3)).openFrame frame [9] = .ok [1, 2, 3] :=
  ⟨_, rfl, (open_seal (plainCodec .lz4) (.zstd 3) (.replicate _ 7) [1, 2, 3] [9] (by decide)).2.1 _ rfl⟩

end FrameCodec

end ZeroFS
