import Zrtools.Lib.CrcBursts

/-!
# zrtools — CRC-32 (`zrt_crc32.h`)

`Crc32::Calc` promises the CRC-32 of zlib and gzip and computes it from a table
of 256 hand-written words. This module embeds the table and the loop, and
compares them with the bit-by-bit register of `ReflectedCrc` at the IEEE
polynomial.

The table is exact except for the word at index 111, which reads `0xdd0d7a9b`
where eight bit steps give `0xdd0d7cc9` (`kCrcTable_toBitVec`). The loop's result
is therefore the reference CRC with the defect `0x652` folded in once for every
lookup of that word, advanced over the bytes that follow the lookup:

* `crc32Calc_toBitVec` — the exact error of `crc32Calc` on every message;
* `crc32Calc_eq_reference_iff` — `crc32Calc` is CRC-32/IEEE exactly on the messages whose
  lookups of word 111 cancel out, in particular on those that make none.

Two things do not depend on the wrong word:

* `foldl_update_eq_crc32Calc` — `Update` over the chunks of a message is `Calc` of the message;
* `crc32Calc_burst_ne` — a change inside four consecutive bytes changes the checksum, because
  the wrong word still has a top byte of its own.
-/

namespace Zrtools.Crc32

open ReflectedCrc

/-- `kCrcTable`, word for word. -/
def kCrcTable : Array UInt32 := #[
    0x00000000, 0x77073096, 0xee0e612c, 0x990951ba, 0x076dc419, 0x706af48f,
    0xe963a535, 0x9e6495a3, 0x0edb8832, 0x79dcb8a4, 0xe0d5e91e, 0x97d2d988,
    0x09b64c2b, 0x7eb17cbd, 0xe7b82d07, 0x90bf1d91, 0x1db71064, 0x6ab020f2,
    0xf3b97148, 0x84be41de, 0x1adad47d, 0x6ddde4eb, 0xf4d4b551, 0x83d385c7,
    0x136c9856, 0x646ba8c0, 0xfd62f97a, 0x8a65c9ec, 0x14015c4f, 0x63066cd9,
    0xfa0f3d63, 0x8d080df5, 0x3b6e20c8, 0x4c69105e, 0xd56041e4, 0xa2677172,
    0x3c03e4d1, 0x4b04d447, 0xd20d85fd, 0xa50ab56b, 0x35b5a8fa, 0x42b2986c,
    0xdbbbc9d6, 0xacbcf940, 0x32d86ce3, 0x45df5c75, 0xdcd60dcf, 0xabd13d59,
    0x26d930ac, 0x51de003a, 0xc8d75180, 0xbfd06116, 0x21b4f4b5, 0x56b3c423,
    0xcfba9599, 0xb8bda50f, 0x2802b89e, 0x5f058808, 0xc60cd9b2, 0xb10be924,
    0x2f6f7c87, 0x58684c11, 0xc1611dab, 0xb6662d3d, 0x76dc4190, 0x01db7106,
    0x98d220bc, 0xefd5102a, 0x71b18589, 0x06b6b51f, 0x9fbfe4a5, 0xe8b8d433,
    0x7807c9a2, 0x0f00f934, 0x9609a88e, 0xe10e9818, 0x7f6a0dbb, 0x086d3d2d,
    0x91646c97, 0xe6635c01, 0x6b6b51f4, 0x1c6c6162, 0x856530d8, 0xf262004e,
    0x6c0695ed, 0x1b01a57b, 0x8208f4c1, 0xf50fc457, 0x65b0d9c6, 0x12b7e950,
    0x8bbeb8ea, 0xfcb9887c, 0x62dd1ddf, 0x15da2d49, 0x8cd37cf3, 0xfbd44c65,
    0x4db26158, 0x3ab551ce, 0xa3bc0074, 0xd4bb30e2, 0x4adfa541, 0x3dd895d7,
    0xa4d1c46d, 0xd3d6f4fb, 0x4369e96a, 0x346ed9fc, 0xad678846, 0xda60b8d0,
    0x44042d73, 0x33031de5, 0xaa0a4c5f, 0xdd0d7a9b, 0x5005713c, 0x270241aa,
    0xbe0b1010, 0xc90c2086, 0x5768b525, 0x206f85b3, 0xb966d409, 0xce61e49f,
    0x5edef90e, 0x29d9c998, 0xb0d09822, 0xc7d7a8b4, 0x59b33d17, 0x2eb40d81,
    0xb7bd5c3b, 0xc0ba6cad, 0xedb88320, 0x9abfb3b6, 0x03b6e20c, 0x74b1d29a,
    0xead54739, 0x9dd277af, 0x04db2615, 0x73dc1683, 0xe3630b12, 0x94643b84,
    0x0d6d6a3e, 0x7a6a5aa8, 0xe40ecf0b, 0x9309ff9d, 0x0a00ae27, 0x7d079eb1,
    0xf00f9344, 0x8708a3d2, 0x1e01f268, 0x6906c2fe, 0xf762575d, 0x806567cb,
    0x196c3671, 0x6e6b06e7, 0xfed41b76, 0x89d32be0, 0x10da7a5a, 0x67dd4acc,
    0xf9b9df6f, 0x8ebeeff9, 0x17b7be43, 0x60b08ed5, 0xd6d6a3e8, 0xa1d1937e,
    0x38d8c2c4, 0x4fdff252, 0xd1bb67f1, 0xa6bc5767, 0x3fb506dd, 0x48b2364b,
    0xd80d2bda, 0xaf0a1b4c, 0x36034af6, 0x41047a60, 0xdf60efc3, 0xa867df55,
    0x316e8eef, 0x4669be79, 0xcb61b38c, 0xbc66831a, 0x256fd2a0, 0x5268e236,
    0xcc0c7795, 0xbb0b4703, 0x220216b9, 0x5505262f, 0xc5ba3bbe, 0xb2bd0b28,
    0x2bb45a92, 0x5cb36a04, 0xc2d7ffa7, 0xb5d0cf31, 0x2cd99e8b, 0x5bdeae1d,
    0x9b64c2b0, 0xec63f226, 0x756aa39c, 0x026d930a, 0x9c0906a9, 0xeb0e363f,
    0x72076785, 0x05005713, 0x95bf4a82, 0xe2b87a14, 0x7bb12bae, 0x0cb61b38,
    0x92d28e9b, 0xe5d5be0d, 0x7cdcefb7, 0x0bdbdf21, 0x86d3d2d4, 0xf1d4e242,
    0x68ddb3f8, 0x1fda836e, 0x81be16cd, 0xf6b9265b, 0x6fb077e1, 0x18b74777,
    0x88085ae6, 0xff0f6a70, 0x66063bca, 0x11010b5c, 0x8f659eff, 0xf862ae69,
    0x616bffd3, 0x166ccf45, 0xa00ae278, 0xd70dd2ee, 0x4e048354, 0x3903b3c2,
    0xa7672661, 0xd06016f7, 0x4969474d, 0x3e6e77db, 0xaed16a4a, 0xd9d65adc,
    0x40df0b66, 0x37d83bf0, 0xa9bcae53, 0xdebb9ec5, 0x47b2cf7f, 0x30b5ffe9,
    0xbdbdf21c, 0xcabac28a, 0x53b39330, 0x24b4a3a6, 0xbad03605, 0xcdd70693,
    0x54de5729, 0x23d967bf, 0xb3667a2e, 0xc4614ab8, 0x5d681b02, 0x2a6f2b94,
    0xb40bbe37, 0xc30c8ea1, 0x5a05df1b, 0x2d02ef8d
]

/-- One turn of the loop of `Calc`:
`crc = kCrcTable[(crc ^ bytes[i]) & 0xFF] ^ (crc >> 8)`. -/
def calcStep (crc : UInt32) (byte : UInt8) : UInt32 :=
  kCrcTable.getD ((crc ^^^ byte.toUInt32) &&& 0xFF).toNat 0 ^^^ (crc >>> 8)

/-- `Crc32::Calc(data, len)`. -/
def crc32Calc (bytes : List UInt8) : UInt32 :=
  bytes.foldl calcStep 0xFFFFFFFF ^^^ 0xFFFFFFFF

/-- `Crc32::Update(crc, data, len)`. -/
def update (crc : UInt32) (bytes : List UInt8) : UInt32 :=
  bytes.foldl calcStep (if crc = 0 then 0xFFFFFFFF else ~~~crc) ^^^ 0xFFFFFFFF

-- ---------------------------------------------------------------------------
-- Chunks
-- ---------------------------------------------------------------------------

/-- The first call needs no case of its own: the complement of zero is the initial value. -/
theorem update_start (crc : UInt32) :
    (if crc = 0 then 0xFFFFFFFF else ~~~crc) = crc ^^^ 0xFFFFFFFF := by
  have hones : crc ^^^ 0xFFFFFFFF = ~~~crc := UInt32.xor_neg_one
  split
  next h => rw [h, UInt32.zero_xor]
  next => exact hones.symm

/-- `Update` goes on where the checksum of the bytes before stopped. -/
theorem update_crc32Calc (front chunk : List UInt8) :
    update (crc32Calc front) chunk = crc32Calc (front ++ chunk) := by
  rw [update, update_start, crc32Calc, crc32Calc, UInt32.xor_assoc, UInt32.xor_self,
    UInt32.xor_zero, List.foldl_append]

/-- Nothing to go over, nothing to add: `Calc` of no bytes is the value a first call gets. -/
theorem crc32Calc_nil : crc32Calc [] = 0 := by decide

theorem foldl_update_crc32Calc (front : List UInt8) (chunks : List (List UInt8)) :
    chunks.foldl update (crc32Calc front) = crc32Calc (front ++ chunks.flatten) := by
  induction chunks generalizing front with
  | nil => rw [List.flatten_nil, List.append_nil, List.foldl_nil]
  | cons chunk rest ih =>
    rw [List.foldl_cons, update_crc32Calc, ih, List.flatten_cons, List.append_assoc]

/-- **Chunk by chunk** or at once, the checksum is the same, however the bytes are cut. -/
theorem foldl_update_eq_crc32Calc (chunks : List (List UInt8)) :
    chunks.foldl update 0 = crc32Calc chunks.flatten := by
  rw [← crc32Calc_nil, foldl_update_crc32Calc, List.nil_append]

-- ---------------------------------------------------------------------------
-- The reference
-- ---------------------------------------------------------------------------

/-- The reflected IEEE 802.3 polynomial. -/
def ieeePoly : BitVec 32 := 0xEDB88320#32

/-- The register value before the first byte. -/
def initial : BitVec 32 := 0xFFFFFFFF#32

def messageBits (bytes : List UInt8) : List (BitVec 8) := bytes.map UInt8.toBitVec

/-- Bit-by-bit CRC-32/IEEE: the checksum of zlib and gzip. -/
def reference (bytes : List UInt8) : UInt32 :=
  UInt32.ofBitVec (register ieeePoly initial (messageBits bytes) ^^^ 0xFFFFFFFF#32)

-- ---------------------------------------------------------------------------
-- The table against the polynomial
-- ---------------------------------------------------------------------------

/-- The table as a function of the looked-up byte. -/
def tableWord (i : BitVec 8) : BitVec 32 := (kCrcTable.getD i.toNat 0).toBitVec

/-- The index of the one wrong word. -/
def wrongIndex : BitVec 8 := 111#8

/-- What the wrong word differs by from the exact one. -/
def wordDefect : BitVec 32 := 0xdd0d7a9b#32 ^^^ 0xdd0d7cc9#32

theorem kCrcTable_check :
    ∀ i : Fin 256, tableWord (BitVec.ofFin i) =
      tableEntry ieeePoly (BitVec.ofFin i) ^^^ injected wrongIndex wordDefect (BitVec.ofFin i) := by
  decide +kernel

/-- Every word of the table is eight bit steps of its index, except word 111. -/
theorem kCrcTable_toBitVec (i : BitVec 8) :
    tableWord i = tableEntry ieeePoly i ^^^ injected wrongIndex wordDefect i :=
  kCrcTable_check i.toFin

theorem ieeePoly_top : ieeePoly.getLsbD (32 - 1) = true := by decide

theorem wordDefect_ne_zero : wordDefect ≠ 0#32 := by decide

-- ---------------------------------------------------------------------------
-- The loop against the register
-- ---------------------------------------------------------------------------

theorem calcStep_toBitVec (crc : UInt32) (byte : UInt8) :
    (calcStep crc byte).toBitVec =
      tableWord (index crc.toBitVec byte.toBitVec) ^^^ (crc.toBitVec >>> 8) := by
  have hindex : ((crc ^^^ byte.toUInt32) &&& 0xFF).toNat =
      (index crc.toBitVec byte.toBitVec).toNat := by
    have hlow := Nat.and_two_pow_sub_one_eq_mod (crc ^^^ byte.toUInt32).toNat 8
    rw [UInt32.toNat_and]
    change _ &&& (2 ^ 8 - 1) = _
    rw [hlow, UInt32.toNat_xor, index, BitVec.toNat_xor, BitVec.toNat_setWidth,
      Nat.xor_mod_two_pow]
    simp
  rw [calcStep, hindex, tableWord]
  simp

theorem foldl_calcStep_toBitVec (bytes : List UInt8) (crc : UInt32) :
    (bytes.foldl calcStep crc).toBitVec =
      tableRegister tableWord crc.toBitVec (messageBits bytes) := by
  induction bytes generalizing crc with
  | nil => rfl
  | cons b rest ih =>
    rw [List.foldl_cons, ih, calcStep_toBitVec]
    rfl

/-- The lookups of word 111 that `Calc` makes on a message, each given by the
number of bytes after it; computed from the reference register alone. -/
def wrongLookups (bytes : List UInt8) : List Nat :=
  misreads ieeePoly wrongIndex wordDefect initial 0#32 (messageBits bytes)

/-- They are the lookups the loop of `Calc` makes itself. -/
theorem wrongLookups_eq_lookups (bytes : List UInt8) :
    wrongLookups bytes = lookups tableWord wrongIndex initial (messageBits bytes) := by
  rw [wrongLookups, misreads_eq_lookups ieeePoly kCrcTable_toBitVec, BitVec.xor_zero]

/-- The total error of a message: the defect of word 111, advanced through the
reference register from each wrong lookup to the end of the message. -/
def lookupError (bytes : List UInt8) : BitVec 32 :=
  propagated ieeePoly wordDefect (wrongLookups bytes)

/-- **What `Calc` computes**, on every message. -/
theorem crc32Calc_toBitVec (bytes : List UInt8) :
    (crc32Calc bytes).toBitVec = (reference bytes).toBitVec ^^^ lookupError bytes := by
  have hloop := tableRegister_eq ieeePoly kCrcTable_toBitVec initial (messageBits bytes)
  rw [crc32Calc, UInt32.toBitVec_xor, foldl_calcStep_toBitVec]
  change tableRegister tableWord initial (messageBits bytes) ^^^ 0xFFFFFFFF#32 = _
  rw [hloop, reference, lookupError, wrongLookups]
  change _ = (_ ^^^ 0xFFFFFFFF#32) ^^^ _
  ac_rfl

/-- Without a lookup of word 111 there is no error. -/
theorem lookupError_of_no_lookup {bytes : List UInt8} (h : wrongLookups bytes = []) :
    lookupError bytes = 0#32 := by
  rw [lookupError, h, propagated_nil]

/-- A message with exactly one lookup of word 111 always gets a wrong checksum. -/
theorem lookupError_of_one_lookup {bytes : List UInt8} {k : Nat} (h : wrongLookups bytes = [k]) :
    lookupError bytes ≠ 0#32 := by
  rw [lookupError, h]
  exact propagated_singleton_ne_zero ieeePoly ieeePoly_top wordDefect_ne_zero k

/-- **`Calc` is CRC-32/IEEE exactly where its wrong lookups cancel out.** -/
theorem crc32Calc_eq_reference_iff (bytes : List UInt8) :
    crc32Calc bytes = reference bytes ↔ lookupError bytes = 0#32 := by
  rw [← UInt32.toBitVec_inj, crc32Calc_toBitVec]
  refine ⟨?_, ?_⟩
  · intro h
    have hcancel := congrArg ((reference bytes).toBitVec ^^^ ·) h
    simpa [← BitVec.xor_assoc] using hcancel
  · intro h
    rw [h, BitVec.xor_zero]

/-- The one-byte message `0x90` looks word 111 up at once. -/
theorem crc32Calc_ne_reference : crc32Calc [0x90] ≠ reference [0x90] := by
  decide +kernel

-- ---------------------------------------------------------------------------
-- Bursts
-- ---------------------------------------------------------------------------

theorem tableEntry_topByte_check :
    ∀ i : Fin 256, topByte (tableEntry ieeePoly (BitVec.ofFin i)) = 0#8 → i = 0 := by
  decide +kernel

/-- The wrong word has the top byte of the exact one. -/
theorem topByte_tableWord (i : BitVec 8) :
    topByte (tableWord i) = topByte (tableEntry ieeePoly i) := by
  have hdefect : topByte (injected wrongIndex wordDefect i) = 0#8 := by
    unfold injected
    split <;> decide
  rw [kCrcTable_toBitVec, topByte_xor, hdefect, BitVec.xor_zero]

/-- No two words of the table have the same top byte. -/
theorem tableWord_topDistinct : TopDistinct tableWord := by
  intro i j h
  have hxor : topByte (tableEntry ieeePoly (i ^^^ j)) = 0#8 := by
    dsimp only at h
    rw [tableEntry_xor, topByte_xor, ← topByte_tableWord, ← topByte_tableWord, h, BitVec.xor_self]
  have hsame : i ^^^ j = 0#8 := congrArg BitVec.ofFin (tableEntry_topByte_check _ hxor)
  exact BitVec.xor_eq_zero_iff.mp hsame

/-- **A change inside four consecutive bytes** changes the checksum. -/
theorem crc32Calc_burst_ne {data changed : List UInt8} {off : Nat}
    (hlen : changed.length = data.length)
    (hwindow : ∀ i, changed[i]? ≠ data[i]? → off ≤ i ∧ i < off + 4) (hne : changed ≠ data) :
    crc32Calc changed ≠ crc32Calc data := by
  have hbits : messageBits changed ≠ messageBits data :=
    fun h => hne (List.map_injective_iff.mpr (fun _ _ => UInt8.eq_of_toBitVec_eq) h)
  have hinside : ∀ i, (messageBits changed)[i]? ≠ (messageBits data)[i]? →
      off ≤ i ∧ i < off + 4 := by
    intro i hi
    refine hwindow i fun h => hi ?_
    rw [messageBits, messageBits, List.getElem?_map, List.getElem?_map, h]
  have hregister := tableRegister_window_ne tableWord_topDistinct (by simpa [messageBits])
    (by decide) hinside hbits initial
  intro h
  have hfold := congrArg UInt32.toBitVec (UInt32.xor_left_inj _ |>.mp h)
  rw [foldl_calcStep_toBitVec, foldl_calcStep_toBitVec] at hfold
  exact hregister hfold

end Zrtools.Crc32
