import Zrtools.Snowflake

/-!
# zrtools — The layout of an ID (`zrt_snowflake.h`)

An ID is three fields next to each other: the time since the epoch, the server and the
sequence number. `nextId` puts them together with shifts and ors, `parseId` takes them apart
with shifts and masks, and the two are inverse to each other on all values that leave the sign
bit clear.

* `parseId_packFields` — fields that fit come back;
* `packFields_parseId` — every value below 2^63 is made of the fields that are read from it;
* `parseId_inverts` — both, for what `nextId` returns and for every value.
-/

namespace Zrtools.Snowflake

open PackedWord

variable {p : Params} {gen : Generator p}

/-- The packing at the end of `nextId`, for any server. -/
def packFields (gen : Generator p) (f : ParsedId) : UInt64 :=
  ((f.timestampMs - gen.epochMs) <<< UInt64.ofNat p.timestampShift) |||
    (f.serverId <<< UInt64.ofNat p.serverIdShift) ||| f.sequence

/-- Fields that the layout has room for. -/
structure FieldsFit (gen : Generator p) (f : ParsedId) : Prop where
  time_le : f.timestampMs - gen.epochMs ≤ p.maxTimestamp
  server_le : f.serverId ≤ p.maxServerId
  sequence_le : f.sequence ≤ p.maxSequence

theorem makeId_eq_packFields {timestamp sequence : UInt64}
    (htime : timestamp - gen.epochMs ≤ p.maxTimestamp) :
    makeId gen timestamp sequence = some (packFields gen ⟨timestamp, gen.serverId, sequence⟩) :=
  if_neg (UInt64.not_lt.mpr htime)

/-- **Fields that fit come back**, whatever the server. -/
theorem parseId_packFields {f : ParsedId} (h : FieldsFit gen f) :
    parseId gen (packFields gen f) = f := by
  -- the generator of that server
  let other : Generator p := ⟨f.serverId, gen.epochMs, h.server_le⟩
  have hmake : makeId other f.timestampMs f.sequence = some (packFields gen f) :=
    makeId_eq_packFields h.time_le
  exact parseId_makeId ((le_mask_iff p.sequenceBits_lt).mp h.sequence_le) hmake

/-- The server and the sequence number are the bits below the timestamp. -/
theorem pack_server_sequence (p : Params) (id : UInt64) :
    pack p.sequenceBits (low p.serverIdBits (high p.sequenceBits id)) (low p.sequenceBits id) =
      low p.timestampShift id := by
  have hk := p.sequenceBits_lt
  have hm := p.serverIdBits_lt
  have hroom : (low p.serverIdBits (high p.sequenceBits id)).toNat < 2 ^ (64 - p.sequenceBits) := by
    refine lt_of_lt_of_le (low_lt hm _) (Nat.pow_le_pow_right (by decide) ?_)
    have := p.total_bits
    omega
  have hsplit : 2 ^ p.timestampShift = 2 ^ p.sequenceBits * 2 ^ p.serverIdBits :=
    Nat.pow_add 2 p.sequenceBits p.serverIdBits
  apply UInt64.toNat_inj.mp
  rw [toNat_pack hk hroom (low_lt hk id), toNat_low hm, toNat_high hk, toNat_low hk,
    toNat_low p.timestampShift_lt, hsplit, Nat.mod_mul, Nat.mul_comm, Nat.add_comm]

/-- **Every value is made of the fields that are read from it.** -/
theorem packFields_parseId (gen : Generator p) (id : UInt64) :
    packFields gen (parseId gen id) = id := by
  have hback : (parseId gen id).timestampMs - gen.epochMs = high p.timestampShift id :=
    UInt64.add_sub_cancel _ _
  have hpack := pack_high_low p.timestampShift_lt id
  rw [← pack_server_sequence] at hpack
  rw [packFields, hback, UInt64.or_assoc]
  exact hpack

theorem parseId_fits {id : UInt64} (hid : id.toNat < 2 ^ 63) : FieldsFit gen (parseId gen id) := by
  have hbits : 2 ^ 63 = 2 ^ p.timestampBits * 2 ^ p.timestampShift := by
    rw [← Nat.pow_add]
    congr 1
    have := p.total_bits
    show 63 = p.timestampBits + (p.sequenceBits + p.serverIdBits)
    omega
  have hts : p.timestampBits < 64 := by
    have := p.timestampBits_range
    omega
  have hback : (parseId gen id).timestampMs - gen.epochMs = high p.timestampShift id :=
    UInt64.add_sub_cancel _ _
  refine ⟨?_, ?_, ?_⟩
  · rw [hback, Params.maxTimestamp, le_mask_iff hts, toNat_high p.timestampShift_lt,
      Nat.div_lt_iff_lt_mul (Nat.two_pow_pos _), ← hbits]
    exact hid
  · exact (le_mask_iff p.serverIdBits_lt).mpr (low_lt p.serverIdBits_lt _)
  · exact (le_mask_iff p.sequenceBits_lt).mpr (low_lt p.sequenceBits_lt _)

/-- **`parseId` inverts the packing.** What `nextId` returns parses to what it was made of, and
every value below 2^63 is the packing of one triple of fields only, the one `parseId` reads. -/
theorem parseId_inverts (gen : Generator p) :
    (∀ t q, t - gen.epochMs ≤ p.maxTimestamp → q ≤ p.maxSequence →
      ∃ id, makeId gen t q = some id ∧ parseId gen id = ⟨t, gen.serverId, q⟩) ∧
    ∀ id : UInt64, id.toNat < 2 ^ 63 →
      ∀ f, FieldsFit gen f ∧ packFields gen f = id ↔ f = parseId gen id := by
  refine ⟨?_, ?_⟩
  · intro t q htime hseq
    exact ⟨_, makeId_eq_packFields htime, parseId_packFields ⟨htime, gen.serverId_le, hseq⟩⟩
  · intro id hid f
    refine ⟨?_, ?_⟩
    · rintro ⟨hfit, rfl⟩
      exact (parseId_packFields hfit).symm
    · rintro rfl
      exact ⟨parseId_fits hid, packFields_parseId gen id⟩

/-- Number 5 of server 1 in the seventh millisecond. -/
theorem parseId_inverts_server_one :
    ∃ id, makeId (twoServers true) 1704067200007 5 = some id ∧
      parseId (twoServers true) id = ⟨1704067200007, 1, 5⟩ :=
  (parseId_inverts (twoServers true)).1 _ _ (by decide) (by decide)

end Zrtools.Snowflake
