import FzzOverlay.Lib.Hex
import FzzOverlay.Entry

/-!
# File handles

The bytes of `struct ovl_fh`: built by `ovl_encode_real_fh` of `copy_up.c`, rounded to
whole dwords by `ovl_dentry_to_fh` of `export.c`, checked and decoded by
`ovl_check_fh_len` and `ovl_decode_real_fh` of `namei.c`, and turned into the name of an
index entry and back. What a filesystem does to encode and decode its own part is an
argument.
-/

namespace FzzOverlay

/-- Byte order of the machine, which `OVL_FH_FLAG_CPU_ENDIAN` depends on. -/
inductive Endian where
  | little
  | big

def OVL_FH_VERSION : UInt8 := 0
def OVL_FH_MAGIC : UInt8 := 0xfb
def OVL_FH_FLAG_BIG_ENDIAN : UInt8 := 1
def OVL_FH_FLAG_ANY_ENDIAN : UInt8 := 2
def OVL_FH_FLAG_PATH_UPPER : UInt8 := 4
def OVL_FH_FLAG_ALL : UInt8 := 7
def OVL_FILEID : ℕ := 0xfb
def FILEID_INVALID : ℕ := 0xff
def MAX_HANDLE_SZ : ℕ := 128

def Endian.flag : Endian → UInt8
  | .little => 0
  | .big => OVL_FH_FLAG_BIG_ENDIAN

structure Uuid where
  bytes : List UInt8
  length_eq : bytes.length = 16

/-- What `exportfs_encode_fh` returns: a type, and a whole number of dwords. -/
structure ExportFid where
  type : ℤ
  bytes : List UInt8
  whole : 4 ∣ bytes.length

/-- The fields of `struct ovl_fh` in memory. -/
structure OvlFh where
  bytes : List UInt8

namespace OvlFh

/-- `sizeof(struct ovl_fh)`, also the offset of `fid`. -/
def headerSize : ℕ := 21

def version (fh : OvlFh) : UInt8 := fh.bytes.getD 0 0
def magic (fh : OvlFh) : UInt8 := fh.bytes.getD 1 0
def len (fh : OvlFh) : UInt8 := fh.bytes.getD 2 0
def flags (fh : OvlFh) : UInt8 := fh.bytes.getD 3 0
def type (fh : OvlFh) : UInt8 := fh.bytes.getD 4 0
def uuid (fh : OvlFh) : List UInt8 := (fh.bytes.drop 5).take 16
def fid (fh : OvlFh) : List UInt8 := fh.bytes.drop headerSize

end OvlFh

/-- The header and the fid, as `ovl_encode_real_fh` lays them out. -/
def fhBytes (cpu : Endian) (enc : ExportFid) (uuid : Uuid) (isUpper : Bool) : List UInt8 :=
  [OVL_FH_VERSION, OVL_FH_MAGIC, .ofNat (OvlFh.headerSize + enc.bytes.length),
    if isUpper then cpu.flag ||| OVL_FH_FLAG_PATH_UPPER else cpu.flag, .ofNat enc.type.toNat] ++
    uuid.bytes ++ enc.bytes

/-- `ovl_encode_real_fh`; `memBuf` and `memFh` say whether its two `kmalloc`s succeed. -/
def ovlEncodeRealFh (cpu : Endian) (memBuf memFh : Bool) (enc : ExportFid) (uuid : Uuid)
    (isUpper : Bool) : Except Errno OvlFh :=
  if !memBuf then .error ENOMEM
  else if enc.type < 0 ∨ MAX_HANDLE_SZ < enc.bytes.length ∨ enc.type = FILEID_INVALID then
    .error EIO
  else if !memFh then .error ENOMEM
  else .ok ⟨fhBytes cpu enc uuid isUpper⟩

/-- `ovl_check_fh_len`. -/
def ovlCheckFhLen (cpu : Endian) (fh : OvlFh) (fhLen : ℕ) : ℤ :=
  if fhLen < OvlFh.headerSize ∨ fhLen < fh.len.toNat then EINVAL.ret
  else if fh.magic ≠ OVL_FH_MAGIC then EINVAL.ret
  else if OVL_FH_VERSION < fh.version ∨ fh.flags &&& ~~~OVL_FH_FLAG_ALL ≠ 0 then ENODATA.ret
  else if fh.flags &&& OVL_FH_FLAG_ANY_ENDIAN = 0 ∧
      fh.flags &&& OVL_FH_FLAG_BIG_ENDIAN ≠ cpu.flag then ENODATA.ret
  else 0

/-- `ovl_d_to_fh`, given what `ovl_encode_real_fh` returned: the return value and the
caller's buffer. -/
def ovlDToFh (fh : Except Errno OvlFh) (buf : List UInt8) (buflen : ℕ) : ℤ × List UInt8 :=
  match fh with
  | .error e => (e.ret, buf)
  | .ok fh =>
    if buflen < fh.len.toNat then (EOVERFLOW.ret, buf)
    else (fh.len.toNat, fh.bytes.take fh.len.toNat ++ buf.drop fh.len.toNat)

/-- `ovl_dentry_to_fh`: the file id type, the buffer, and the number of dwords used. -/
def ovlDentryToFh (fh : Except Errno OvlFh) (buf : List UInt8) (maxLen : ℕ) :
    ℕ × List UInt8 × ℕ :=
  let r := ovlDToFh fh buf (maxLen <<< 2)
  if r.1 ≤ 0 then (FILEID_INVALID, r.2, maxLen) else (OVL_FILEID, r.2, (r.1.toNat + 3) >>> 2)

section Decode

variable {δ : Type}

/-- The end of `ovl_decode_real_fh`: a stale handle of a lower file means that the origin
is not known. -/
def decodedFh (weird : δ → Bool) (flags : UInt8) : Except Errno δ → Except Errno (Option δ)
  | .error e =>
    if e.code = ESTALE.code ∧ flags &&& OVL_FH_FLAG_PATH_UPPER = 0 then .ok none else .error e
  | .ok real => if weird real then .ok none else .ok (some real)

/-- `ovl_decode_real_fh`. `exportfsDecodeFh` gets the dwords of the fid, their number, the
type, and whether the dentry has to be connected. -/
def ovlDecodeRealFh (exportfsDecodeFh : List UInt8 → ℤ → ℕ → Bool → Except Errno δ)
    (weird : δ → Bool) (fh : OvlFh) (mntUuid : Uuid) (connected : Bool) :
    Except Errno (Option δ) :=
  if fh.uuid ≠ mntUuid.bytes then .ok none
  else
    let dwords : ℤ := ((fh.len.toNat : ℤ) - OvlFh.headerSize) >>> (2 : ℕ)
    decodedFh weird fh.flags
      (exportfsDecodeFh (fh.fid.take (4 * dwords.toNat)) dwords fh.type.toNat connected)

end Decode

/-- `ovl_get_index_name_fh`. -/
def ovlGetIndexNameFh (mem : Bool) (fh : OvlFh) : Except Errno (List Char) :=
  if mem then .ok (Hex.encode (fh.bytes.take fh.len.toNat)) else .error ENOMEM

/-- The part of `ovl_verify_index` that converts the name of an entry which is not a
leftover: the handle, or the value it fails with. -/
def indexHandle (cpu : Endian) (mem : Bool) (name : List Char) : Except ℤ OvlFh :=
  if name.length < OvlFh.headerSize * 2 then .error EINVAL.ret
  else if !mem then .error ENOMEM.ret
  else
    match Hex.decode (name.length / 2) name with
    | none => .error EINVAL.ret
    | some bytes =>
      if ovlCheckFhLen cpu ⟨bytes⟩ (name.length / 2) = 0 then .ok ⟨bytes⟩
      else .error (ovlCheckFhLen cpu ⟨bytes⟩ (name.length / 2))

/-- What the encoder builds, followed by any padding: the fields, and the part that
belongs to the handle. -/
structure Encoded (cpu : Endian) (enc : ExportFid) (uuid : Uuid) (isUpper : Bool) (fh : OvlFh)
    (pad : List UInt8) : Prop where
  version : fh.version = OVL_FH_VERSION
  magic : fh.magic = OVL_FH_MAGIC
  len : fh.len.toNat = OvlFh.headerSize + enc.bytes.length
  flags : fh.flags = if isUpper then cpu.flag ||| OVL_FH_FLAG_PATH_UPPER else cpu.flag
  type : fh.type.toNat = enc.type.toNat
  uuid : fh.uuid = uuid.bytes
  fid : fh.fid = enc.bytes ++ pad
  length : fh.bytes.length = OvlFh.headerSize + enc.bytes.length + pad.length

section RoundTrip

variable {cpu : Endian} {enc : ExportFid} {uuid : Uuid} {isUpper : Bool} {fh : OvlFh}
  {pad : List UInt8}

/-- A fid of at most 128 bytes and a type below `FILEID_INVALID`. -/
structure ExportFid.Fits (enc : ExportFid) : Prop where
  length : enc.bytes.length ≤ MAX_HANDLE_SZ
  typeNonneg : 0 ≤ enc.type
  typeLt : enc.type < FILEID_INVALID

theorem ExportFid.Fits.encode (h : enc.Fits) :
    ovlEncodeRealFh cpu true true enc uuid isUpper = .ok ⟨fhBytes cpu enc uuid isUpper⟩ := by
  obtain ⟨hlen, hnonneg, hlt⟩ := h
  rw [ovlEncodeRealFh, if_neg (by simp), if_neg (by omega), if_neg (by simp)]

theorem ExportFid.Fits.encoded (h : enc.Fits) (pad : List UInt8) :
    Encoded cpu enc uuid isUpper ⟨fhBytes cpu enc uuid isUpper ++ pad⟩ pad := by
  obtain ⟨hlen, hnonneg, hlt⟩ := h
  have hmax : MAX_HANDLE_SZ = 128 := rfl
  have hinv : FILEID_INVALID = 255 := rfl
  have hhead : OvlFh.headerSize = 21 := rfl
  have huuid := uuid.length_eq
  refine ⟨rfl, rfl, ?_, rfl, ?_, ?_, ?_, ?_⟩
  · show (UInt8.ofNat _).toNat = _
    rw [UInt8.toNat_ofNat', Nat.mod_eq_of_lt (by omega)]
  · show (UInt8.ofNat _).toNat = _
    rw [UInt8.toNat_ofNat', Nat.mod_eq_of_lt (by omega)]
  · show List.take 16 (uuid.bytes ++ enc.bytes ++ pad) = uuid.bytes
    rw [List.append_assoc, List.take_left' huuid]
  · show List.drop 16 (uuid.bytes ++ enc.bytes ++ pad) = enc.bytes ++ pad
    rw [List.append_assoc, List.drop_left' huuid]
  · rw [fhBytes, List.length_append, List.length_append, List.length_append, huuid, hhead]
    rfl

theorem Encoded.checkFhLen (h : Encoded cpu enc uuid isUpper fh pad) {fhLen : ℕ}
    (hlen : OvlFh.headerSize + enc.bytes.length ≤ fhLen) : ovlCheckFhLen cpu fh fhLen = 0 := by
  rw [ovlCheckFhLen, h.len, if_neg (by omega), h.magic, if_neg (by simp), h.version, h.flags]
  cases cpu <;> cases isUpper <;> decide

theorem Encoded.take_len (h : Encoded cpu enc uuid isUpper fh []) :
    fh.bytes.take fh.len.toNat = fh.bytes := by
  rw [h.len]
  exact List.take_of_length_le (by rw [h.length]; simp)

/-- The filesystem is given its own dwords and type back. -/
theorem Encoded.decode {δ : Type} (h : Encoded cpu enc uuid isUpper fh pad)
    (exportfsDecodeFh : List UInt8 → ℤ → ℕ → Bool → Except Errno δ) (weird : δ → Bool)
    (connected : Bool) :
    ovlDecodeRealFh exportfsDecodeFh weird fh uuid connected =
      decodedFh weird fh.flags
        (exportfsDecodeFh enc.bytes (enc.bytes.length / 4 : ℕ) enc.type.toNat connected) := by
  obtain ⟨n, hn⟩ := enc.whole
  have hdwords : ((fh.len.toNat : ℤ) - OvlFh.headerSize) >>> (2 : ℕ) =
      ((enc.bytes.length / 4 : ℕ) : ℤ) := by
    rw [h.len, Int.natCast_add, Int.shiftRight_eq_div_pow]
    omega
  have htake : (enc.bytes ++ pad).take (4 * (enc.bytes.length / 4)) = enc.bytes :=
    List.take_left' (by omega)
  rw [ovlDecodeRealFh, h.uuid, if_neg (by simp)]
  dsimp only
  rw [hdwords, h.fid, h.type, Int.toNat_natCast, htake]

theorem Encoded.indexName (h : Encoded cpu enc uuid isUpper fh []) :
    ovlGetIndexNameFh true fh = .ok (Hex.encode fh.bytes) := by
  rw [ovlGetIndexNameFh, if_pos rfl, h.take_len]

theorem Encoded.indexHandle (h : Encoded cpu enc uuid isUpper fh []) :
    indexHandle cpu true (Hex.encode fh.bytes) = .ok fh := by
  have hlen := h.length
  rw [List.length_nil, Nat.add_zero] at hlen
  have hhalf : (Hex.encode fh.bytes).length / 2 = fh.bytes.length := by
    rw [Hex.length_encode, Nat.mul_div_cancel_left _ (by decide)]
  have hcheck := h.checkFhLen (Nat.le_of_eq hlen.symm)
  rw [FzzOverlay.indexHandle, hhalf, Hex.length_encode, if_neg (by omega), if_neg (by simp),
    Hex.decode_encode]
  exact if_pos hcheck

/-- The handle in the buffer of the caller, and the dword-rounded length. -/
theorem Encoded.dentryToFh (h : Encoded cpu enc uuid isUpper fh []) (buf : List UInt8) {maxLen : ℕ}
    (hbuf : fh.bytes.length ≤ 4 * maxLen) :
    ∃ n, ovlDentryToFh (.ok fh) buf maxLen =
        (OVL_FILEID, fh.bytes ++ buf.drop fh.bytes.length, n) ∧
      fh.bytes.length ≤ n <<< 2 ∧ n <<< 2 < fh.bytes.length + 4 := by
  have hlen : fh.len.toNat = fh.bytes.length := by
    rw [h.len, h.length]
    rfl
  have hpos : 0 < fh.bytes.length := by
    rw [h.length, OvlFh.headerSize]
    omega
  refine ⟨(fh.bytes.length + 3) >>> 2, ?_, ?_, ?_⟩
  · have hto : ovlDToFh (.ok fh) buf (maxLen <<< 2) =
        ((fh.bytes.length : ℤ), fh.bytes ++ buf.drop fh.bytes.length) := by
      unfold ovlDToFh
      dsimp only
      rw [h.take_len, hlen, if_neg (by rw [Nat.shiftLeft_eq]; omega)]
    unfold ovlDentryToFh
    rw [hto, if_neg (by omega)]
    rfl
  · rw [Nat.shiftLeft_eq, Nat.shiftRight_eq_div_pow]
    omega
  · rw [Nat.shiftLeft_eq, Nat.shiftRight_eq_div_pow]
    omega

/-- Handles round-trip: the one that is built passes the check with its own length and with
the dword-rounded one, in a buffer with anything behind it; a mount with the same uuid
decodes the dwords and the type that were encoded; and the index name gives the handle
back, so it determines the handle. -/
theorem file_handle_round_trip (cpu : Endian) (enc : ExportFid) (uuid : Uuid) (isUpper : Bool)
    (hfits : enc.Fits) :
    ∃ fh, ovlEncodeRealFh cpu true true enc uuid isUpper = .ok fh ∧
      ovlCheckFhLen cpu fh fh.bytes.length = 0 ∧
      (∀ buf maxLen, fh.bytes.length ≤ 4 * maxLen → ∃ buf' n,
        ovlDentryToFh (.ok fh) buf maxLen = (OVL_FILEID, buf', n) ∧
        ovlCheckFhLen cpu ⟨buf'⟩ (n <<< 2) = 0 ∧
        ∀ (δ : Type) (exportfsDecodeFh : List UInt8 → ℤ → ℕ → Bool → Except Errno δ)
          (weird : δ → Bool) (connected : Bool),
          ovlDecodeRealFh exportfsDecodeFh weird ⟨buf'⟩ uuid connected =
            ovlDecodeRealFh exportfsDecodeFh weird fh uuid connected) ∧
      (∀ (δ : Type) (exportfsDecodeFh : List UInt8 → ℤ → ℕ → Bool → Except Errno δ)
        (weird : δ → Bool) (connected : Bool),
        ovlDecodeRealFh exportfsDecodeFh weird fh uuid connected =
          decodedFh weird fh.flags
            (exportfsDecodeFh enc.bytes (enc.bytes.length / 4 : ℕ) enc.type.toNat connected)) ∧
      ∃ name, ovlGetIndexNameFh true fh = .ok name ∧ indexHandle cpu true name = .ok fh ∧
        ∀ enc' uuid' isUpper' fh', enc'.Fits →
          ovlEncodeRealFh cpu true true enc' uuid' isUpper' = .ok fh' →
          ovlGetIndexNameFh true fh' = .ok name → fh' = fh := by
  have henc : ∀ pad, Encoded cpu enc uuid isUpper ⟨fhBytes cpu enc uuid isUpper ++ pad⟩ pad :=
    hfits.encoded
  have hnil := henc []
  rw [List.append_nil] at hnil
  have hlen := hnil.length
  rw [List.length_nil, Nat.add_zero] at hlen
  refine ⟨_, hfits.encode, hnil.checkFhLen (Nat.le_of_eq hlen.symm), fun buf maxLen hbuf => ?_,
    fun δ dec weird connected => hnil.decode dec weird connected,
    _, hnil.indexName, hnil.indexHandle, fun enc' uuid' isUpper' fh' hfits' hfh' hname => ?_⟩
  · obtain ⟨n, hto, hle, -⟩ := hnil.dentryToFh buf hbuf
    have hpad := henc (buf.drop (fhBytes cpu enc uuid isUpper).length)
    refine ⟨_, n, hto, hpad.checkFhLen (hlen ▸ hle), fun δ dec weird connected => ?_⟩
    rw [hpad.decode dec weird connected, hnil.decode dec weird connected, hpad.flags, hnil.flags]
  · have hnil' : Encoded cpu enc' uuid' isUpper' ⟨fhBytes cpu enc' uuid' isUpper' ++ []⟩ [] :=
      hfits'.encoded []
    rw [List.append_nil] at hnil'
    rw [hfits'.encode] at hfh'
    cases hfh'
    rw [hnil'.indexName] at hname
    exact congrArg OvlFh.mk (Hex.encode_injective (Except.ok.inj hname))

end RoundTrip

/-- A handle of one dword on a big-endian machine. -/
theorem file_handle_round_trip_dword :
    ∃ fh, ovlEncodeRealFh .big true true ⟨1, [5, 0, 0, 0], by decide⟩
        ⟨List.replicate 16 7, rfl⟩ true = .ok fh ∧
      fh.bytes = [0, 0xfb, 25, 5, 1] ++ List.replicate 16 7 ++ [5, 0, 0, 0] ∧
      ovlCheckFhLen .big fh 25 = 0 := by
  obtain ⟨fh, henc, hcheck, -⟩ := file_handle_round_trip .big ⟨1, [5, 0, 0, 0], by decide⟩
    ⟨List.replicate 16 7, rfl⟩ true ⟨by decide, by decide, by decide⟩
  have hbytes : fh.bytes = [0, 0xfb, 25, 5, 1] ++ List.replicate 16 7 ++ [5, 0, 0, 0] := by
    cases henc
    rfl
  refine ⟨fh, henc, hbytes, ?_⟩
  rwa [hbytes] at hcheck

namespace OvlFh

/-- The `bytes` of `ovl_decode_real_fh`. -/
def fidBytes (fh : OvlFh) : ℤ := (fh.len.toNat : ℤ) - headerSize

/-- The decoder asks the filesystem only for dwords that its argument has: two decoders
that agree on every such question cannot be told apart. -/
def AsksInside (fh : OvlFh) : Prop :=
  ∀ (δ : Type) (dec dec' : List UInt8 → ℤ → ℕ → Bool → Except Errno δ) (weird : δ → Bool)
    (mntUuid : Uuid) (connected : Bool),
    (∀ fid dwords type c, 0 ≤ dwords → (fid.length : ℤ) = 4 * dwords →
      dec fid dwords type c = dec' fid dwords type c) →
    ovlDecodeRealFh dec weird fh mntUuid connected =
      ovlDecodeRealFh dec' weird fh mntUuid connected

/-- The handle occupies the first `len` of `n` bytes, header included. -/
structure WellFormed (fh : OvlFh) (n : ℕ) : Prop where
  header : headerSize ≤ fh.len.toNat
  buffer : fh.len.toNat ≤ n
  bytes : 0 ≤ fh.fidBytes
  inside : (headerSize : ℤ) + 4 * (fh.fidBytes >>> (2 : ℕ)) ≤ n
  asks : fh.AsksInside

/-- One of the tests of `ovl_check_fh_len` turns the buffer away. -/
def Refused (cpu : Endian) (fh : OvlFh) (n : ℕ) : Prop :=
  n < headerSize ∨ n < fh.len.toNat ∨ fh.magic ≠ OVL_FH_MAGIC ∨ OVL_FH_VERSION < fh.version ∨
    fh.flags &&& ~~~OVL_FH_FLAG_ALL ≠ 0 ∨
    (fh.flags &&& OVL_FH_FLAG_ANY_ENDIAN = 0 ∧
      fh.flags &&& OVL_FH_FLAG_BIG_ENDIAN ≠ cpu.flag)

theorem AsksInside.of_len {fh : OvlFh} (hhead : headerSize ≤ fh.len.toNat)
    (hlen : fh.len.toNat ≤ fh.bytes.length) : fh.AsksInside := by
  intro δ dec dec' weird mntUuid connected hsame
  have hhalf : ((fh.len.toNat : ℤ) - headerSize) >>> (2 : ℕ) =
      (((fh.len.toNat - headerSize) / 4 : ℕ) : ℤ) := by
    rw [Int.shiftRight_eq_div_pow]
    omega
  have hfid : (fh.fid.take (4 * ((fh.len.toNat - headerSize) / 4))).length =
      4 * ((fh.len.toNat - headerSize) / 4) := by
    rw [fid, List.length_take, List.length_drop]
    omega
  rw [ovlDecodeRealFh, ovlDecodeRealFh]
  split
  · rfl
  · dsimp only
    rw [hhalf, Int.toNat_natCast]
    rw [hsame _ _ _ _ (Int.natCast_nonneg _) (by rw [hfid]; push_cast; rfl)]

theorem WellFormed.of_len {fh : OvlFh} (hhead : headerSize ≤ fh.len.toNat)
    (hlen : fh.len.toNat ≤ fh.bytes.length) : fh.WellFormed fh.bytes.length := by
  refine ⟨hhead, hlen, ?_, ?_, AsksInside.of_len hhead hlen⟩
  · rw [fidBytes]
    omega
  · rw [fidBytes, Int.shiftRight_eq_div_pow]
    omega

end OvlFh

/-- The check returns 0 exactly when none of its tests turns the buffer away. -/
theorem ovlCheckFhLen_eq_zero {cpu : Endian} {fh : OvlFh} {n : ℕ} :
    ovlCheckFhLen cpu fh n = 0 ↔ ¬fh.Refused cpu n := by
  have hinval : EINVAL.ret ≠ 0 := by decide
  have hnodata : ENODATA.ret ≠ 0 := by decide
  rw [ovlCheckFhLen, OvlFh.Refused]
  split_ifs <;> tauto

/-- `ovl_check_fh_len` lets through only handles that lie in their buffer exactly when the
length byte covers the header, or another test turns the buffer away. -/
theorem checked_handle_wellFormed_iff (cpu : Endian) (fh : OvlFh) :
    (ovlCheckFhLen cpu fh fh.bytes.length = 0 → fh.WellFormed fh.bytes.length) ↔
      OvlFh.headerSize ≤ fh.len.toNat ∨ fh.Refused cpu fh.bytes.length := by
  rw [ovlCheckFhLen_eq_zero]
  constructor
  · intro hwell
    by_cases href : fh.Refused cpu fh.bytes.length
    · exact .inr href
    · exact .inl (hwell href).header
  · rintro (hhead | href) hok
    · refine OvlFh.WellFormed.of_len hhead ?_
      by_contra hlen
      exact hok (.inr (.inl (Nat.lt_of_not_le hlen)))
    · exact absurd href hok

/-- A buffer of 21 bytes whose length byte is 0 passes the check; the decoder computes
-21 bytes, and asks for -6 dwords. -/
theorem empty_handle_accepted :
    ∃ buf : List UInt8, buf = [0, 0xfb, 0, 0, 0] ++ List.replicate 16 0 ∧
      ovlCheckFhLen .little ⟨buf⟩ buf.length = 0 ∧
      ¬OvlFh.WellFormed ⟨buf⟩ buf.length ∧ OvlFh.fidBytes ⟨buf⟩ = -21 ∧
      OvlFh.fidBytes ⟨buf⟩ >>> (2 : ℕ) = -6 := by
  refine ⟨_, rfl, by decide, fun hwell => ?_, by decide, by decide⟩
  exact absurd hwell.header (by decide)

end FzzOverlay
