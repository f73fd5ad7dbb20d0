import OpenProxy.Devin.Malformed

/-!
# Fields that are written and read back

The writers of `adapters/devin/protoc.rs`, and its readers one by one: fields that were written are read back, and `skip`
passes over what the reader of the same wire type reads.  A varint may have ten bytes, and its bits from the 64th on are
dropped without an error; these are the only numbers of ten bytes at most that are not read as they are
(`codec_iff`).
-/

namespace OpenProxy.Devin

/-! ### Writers -/

/-- `append_varint`. -/
def appendVarint (value : Nat) : Bytes :=
  let byte := UInt8.ofNat (value % 128)
  if value / 128 = 0 then [byte] else (byte ||| 0x80) :: appendVarint (value / 128)
termination_by value
decreasing_by omega

/-- `append_tag`. -/
def appendTag (field wire : Nat) : Bytes := appendVarint (field <<< 3 ||| wire)

/-- `to_le_bytes`. -/
def toLeBytes (w n : Nat) : Bytes := (toBeBytes w n).reverse

def appendVarintField (field value : Nat) : Bytes := appendTag field 0 ++ appendVarint value

def appendBytes (field : Nat) (data : Bytes) : Bytes := appendTag field 2 ++ (appendVarint data.length ++ data)

def appendFixed64 (field value : Nat) : Bytes := appendTag field 1 ++ toLeBytes 8 value

def appendFixed32 (field value : Nat) : Bytes := appendTag field 5 ++ toLeBytes 4 value

/-- A value as the value readers return it. -/
inductive FieldValue
  | varint (value : Nat)
  | fixed64 (value : Nat)
  | bytes (data : Bytes)
  | fixed32 (value : Nat)
  deriving DecidableEq, Repr

/-- The numbers and the length are those of the machine types. -/
def FieldValue.Fits : FieldValue → Prop
  | varint value => value < 2 ^ 64
  | fixed64 value => value < 2 ^ 64
  | bytes data => data.length < 2 ^ 64
  | fixed32 value => value < 2 ^ 32

structure Field where
  number : Nat
  value : FieldValue
  pos : 1 ≤ number
  lt : number < 2 ^ 32
  fits : value.Fits

def Field.encode (f : Field) : Bytes :=
  match f.value with
  | .varint value => appendVarintField f.number value
  | .fixed64 value => appendFixed64 f.number value
  | .bytes data => appendBytes f.number data
  | .fixed32 value => appendFixed32 f.number value

/-! ### Value readers -/

namespace ProtoReader

/-- The turns of `varint`, with the bytes that are left also where no number is returned. -/
def varintFrom : Nat → Nat → Nat → Bytes → Option Nat × Bytes
  | 0, _, _, bytes => (none, bytes)
  | _ + 1, _, _, [] => (none, [])
  | turns + 1, shift, value, b :: bytes =>
    let value := value ||| (b.toNat % 128) <<< shift % 2 ^ 64
    if b < 0x80 then (some value, bytes) else varintFrom turns (shift + 7) value bytes

def varint (bytes : Bytes) : Option Nat × Bytes := varintFrom 10 0 0 bytes

/-- `take`, which leaves the cursor where it is if there are too few bytes. -/
def take (n : Nat) (bytes : Bytes) : Option Bytes × Bytes :=
  if bytes.length < n then (none, bytes) else (some (bytes.take n), bytes.drop n)

def varintValue (bytes : Bytes) : Option Nat × Bytes := varint bytes

def bytesValue (bytes : Bytes) : Option Bytes × Bytes :=
  match varint bytes with
  | (some len, bytes) => take len bytes
  | (none, bytes) => (none, bytes)

def fixed64Value (bytes : Bytes) : Option Nat × Bytes := (take 8 bytes).map (Option.map fromLeBytes) id

def fixed32Value (bytes : Bytes) : Option Nat × Bytes := (take 4 bytes).map (Option.map fromLeBytes) id

/-- The value reader of a wire type. -/
def readValue (wire : Nat) (bytes : Bytes) : Option FieldValue × Bytes :=
  match wire with
  | 0 => (varintValue bytes).map (Option.map .varint) id
  | 1 => (fixed64Value bytes).map (Option.map .fixed64) id
  | 2 => (bytesValue bytes).map (Option.map .bytes) id
  | 5 => (fixed32Value bytes).map (Option.map .fixed32) id
  | _ => (none, bytes)

def skip (wire : Nat) (bytes : Bytes) : Option Unit × Bytes :=
  match wire with
  | 0 => (varint bytes).map (Option.map fun _ => ()) id
  | 1 => (take 8 bytes).map (Option.map fun _ => ()) id
  | 2 =>
    match varint bytes with
    | (some len, bytes) => (take len bytes).map (Option.map fun _ => ()) id
    | (none, bytes) => (none, bytes)
  | 5 => (take 4 bytes).map (Option.map fun _ => ()) id
  | _ => (none, bytes)

/-- A tag and then the value of its wire type, a number of times. -/
def readFields : Nat → Bytes → Option (List (Nat × FieldValue) × Bytes)
  | 0, bytes => some ([], bytes)
  | k + 1, bytes => do
    let ((number, wire), bytes) ← tag bytes
    match readValue wire bytes with
    | (some value, bytes) =>
      let (fields, bytes) ← readFields k bytes
      some ((number, value) :: fields, bytes)
    | (none, _) => none

/-- `is_done`. -/
def isDone (bytes : Bytes) : Bool := bytes.isEmpty

/-- `skip` fails where the value reader does, and always leaves the same bytes. -/
theorem skip_eq (wire : Nat) (bytes : Bytes) :
    skip wire bytes = (readValue wire bytes).map (Option.map fun _ => ()) id := by
  unfold skip readValue varintValue fixed64Value fixed32Value bytesValue
  split
  · rcases varint bytes with ⟨_ | n, rest⟩ <;> rfl
  · rcases take 8 bytes with ⟨_ | taken, rest⟩ <;> rfl
  · rcases varint bytes with ⟨_ | len, rest⟩
    · rfl
    · show (take len rest).map _ id = ((take len rest).map _ id).map _ id
      rcases take len rest with ⟨_ | taken, left⟩ <;> rfl
  · rcases take 4 bytes with ⟨_ | taken, rest⟩ <;> rfl
  · rfl

/-- The reader of a message, which stops where no number is returned. -/
theorem varintFrom_eq (turns shift value : Nat) (bytes : Bytes) :
    Devin.varintFrom turns shift value bytes =
      (varintFrom turns shift value bytes).1.map (·, (varintFrom turns shift value bytes).2) := by
  induction turns generalizing shift value bytes with
  | zero => rfl
  | succ turns ih =>
    cases bytes with
    | nil => rfl
    | cons b bytes =>
      rw [Devin.varintFrom, varintFrom]
      split
      · rfl
      · exact ih _ _ _

theorem varint_eq_iff {bytes rest : Bytes} {n : Nat} :
    varint bytes = (some n, rest) ↔ Devin.varint bytes = some (n, rest) := by
  unfold varint Devin.varint
  rw [varintFrom_eq]
  rcases varintFrom 10 0 0 bytes with ⟨_ | m, left⟩ <;> simp

end ProtoReader

/-! ### Fields are read back -/

section

variable {n m number wire : Nat} {bytes enc rest : Bytes}

theorem or_highBit : ∀ d < 128, (UInt8.ofNat d ||| 0x80).toNat = d + 128 := by
  decide +kernel

theorem isVarint_appendVarint (n : Nat) : IsVarint n (appendVarint n) := by
  induction n using Nat.strongRecOn with
  | ind n ih =>
    have hmod : n % 128 < 128 := Nat.mod_lt _ (by omega)
    have hbyte : (UInt8.ofNat (n % 128)).toNat = n % 128 := by
      rw [UInt8.toNat_ofNat']
      omega
    rw [appendVarint]
    split
    · have hlast : UInt8.ofNat (n % 128) < 0x80 := by
        rw [UInt8.lt_iff_toNat_lt, hbyte]
        exact hmod
      have h := IsVarint.last hlast
      rw [hbyte] at h
      rwa [show n % 128 = n by omega] at h ⊢
    · have hmore : ¬ (UInt8.ofNat (n % 128) ||| 0x80) < 0x80 := by
        rw [UInt8.lt_iff_toNat_lt, or_highBit _ hmod]
        exact Nat.not_lt.mpr (Nat.le_add_left 128 (n % 128))
      have h := IsVarint.more hmore (ih (n / 128) (by omega))
      rw [or_highBit _ hmod] at h
      rwa [show (n % 128 + 128) % 128 + 128 * (n / 128) = n by omega] at h

/-- A number below a power of 128 has as many bytes at most. -/
theorem length_appendVarint {k : Nat} (h : n < 128 ^ (k + 1)) : (appendVarint n).length ≤ k + 1 := by
  induction k generalizing n with
  | zero =>
    rw [appendVarint]
    rw [if_pos (by omega)]
    exact le_rfl
  | succ k ih =>
    rw [appendVarint]
    split
    · exact Nat.le_add_left 1 (k + 1)
    · rw [Nat.pow_succ] at h
      exact Nat.succ_le_succ (ih (by omega))

theorem isNumber_appendVarint (h : n < 2 ^ 64) : IsNumber n (appendVarint n) := by
  have hpow : (2 : Nat) ^ 64 ≤ 128 ^ (9 + 1) := by decide
  exact ⟨n, isVarint_appendVarint n, length_appendVarint (h.trans_le hpow), (Nat.mod_eq_of_lt h).symm⟩

theorem varint_appendVarint (h : n < 2 ^ 64) (rest : Bytes) :
    ProtoReader.varint (appendVarint n ++ rest) = (some n, rest) :=
  ProtoReader.varint_eq_iff.mpr (varint_eq_some_iff.mpr ⟨_, rfl, isNumber_appendVarint h⟩)

theorem tag_appendTag (hpos : 1 ≤ number) (hlt : number < 2 ^ 32) (hwire : wire < 8) (rest : Bytes) :
    tag (appendTag number wire ++ rest) = some ((number, wire), rest) := by
  have hraw : number <<< 3 ||| wire = 8 * number + wire := by
    rw [← Nat.shiftLeft_add_eq_or_of_lt (show wire < 2 ^ 3 from hwire), Nat.shiftLeft_eq]
    omega
  unfold appendTag
  rw [hraw]
  exact tag_eq_some_iff.mpr ⟨_, rfl, isNumber_appendVarint (by omega), hpos, hlt, hwire⟩

theorem take_append (taken rest : Bytes) : ProtoReader.take taken.length (taken ++ rest) = (some taken, rest) := by
  unfold ProtoReader.take
  rw [if_neg (by simp), List.take_left, List.drop_left]

theorem take_toLeBytes (w n : Nat) (rest : Bytes) :
    ProtoReader.take w (toLeBytes w n ++ rest) = (some (toLeBytes w n), rest) := by
  have hlength : (toLeBytes w n).length = w := by rw [toLeBytes, List.length_reverse, length_toBeBytes]
  have h := take_append (toLeBytes w n) rest
  rwa [hlength] at h

theorem fromLeBytes_toLeBytes {w : Nat} (h : n < 256 ^ w) : fromLeBytes (toLeBytes w n) = n := by
  unfold fromLeBytes toLeBytes
  rw [List.reverse_reverse, fromBeBytes_toBeBytes h]

/-- A field is read back, whatever stands behind it. -/
theorem readFields_encode (f : Field) (k : Nat) (rest : Bytes) :
    ProtoReader.readFields (k + 1) (f.encode ++ rest) =
      (ProtoReader.readFields k rest).map fun read => ((f.number, f.value) :: read.1, read.2) := by
  obtain ⟨number, value, hpos, hlt, hfits⟩ := f
  have hstep : ∀ wire enc, wire < 8 → ProtoReader.readValue wire (enc ++ rest) = (some value, rest) →
      ProtoReader.readFields (k + 1) (appendTag number wire ++ enc ++ rest) =
        (ProtoReader.readFields k rest).map fun read => ((number, value) :: read.1, read.2) := by
    intro wire enc hwire hread
    rw [ProtoReader.readFields, List.append_assoc, tag_appendTag hpos hlt hwire]
    simp only [Option.bind_eq_bind, Option.bind_some]
    rw [hread]
    dsimp only
    cases ProtoReader.readFields k rest <;> rfl
  cases value with
  | varint n =>
    refine hstep 0 _ (by omega) ?_
    show (ProtoReader.varint _).map _ _ = _
    rw [varint_appendVarint hfits]
    rfl
  | fixed64 n =>
    refine hstep 1 _ (by omega) ?_
    unfold ProtoReader.readValue ProtoReader.fixed64Value
    rw [take_toLeBytes]
    simp only [Prod.map_apply, Option.map_some, id_eq]
    rw [fromLeBytes_toLeBytes (show n < 256 ^ 8 from hfits)]
  | bytes data =>
    refine hstep 2 _ (by omega) ?_
    unfold ProtoReader.readValue ProtoReader.bytesValue
    rw [List.append_assoc, varint_appendVarint hfits]
    dsimp only
    rw [take_append]
    rfl
  | fixed32 n =>
    refine hstep 5 _ (by omega) ?_
    unfold ProtoReader.readValue ProtoReader.fixed32Value
    rw [take_toLeBytes]
    simp only [Prod.map_apply, Option.map_some, id_eq]
    rw [fromLeBytes_toLeBytes (show n < 256 ^ 4 from hfits)]

theorem readFields_flatMap (fields : List Field) :
    ProtoReader.readFields fields.length (fields.flatMap Field.encode) =
      some (fields.map fun f => (f.number, f.value), []) := by
  induction fields with
  | nil => rfl
  | cons f fields ih =>
    rw [List.length_cons, List.flatMap_cons, readFields_encode, ih]
    rfl

/-! ### Numbers past 64 bits -/

/-- The last byte of a number has its highest bits. -/
theorem IsVarint.bounds (h : IsVarint m enc) : ∃ high last, enc = high ++ [last] ∧ (∀ b ∈ high, ¬ b < 0x80) ∧
    last < 0x80 ∧ last.toNat * 128 ^ high.length ≤ m ∧ m < (last.toNat + 1) * 128 ^ high.length := by
  induction h with
  | @last b hb => exact ⟨[], b, rfl, by simp, hb, by simp, by simp⟩
  | @more b n bytes hb _ ih =>
    obtain ⟨high, last, rfl, hhigh, hlast, hle, hlt⟩ := ih
    have hmod : b.toNat % 128 < 128 := Nat.mod_lt _ (by omega)
    refine ⟨b :: high, last, rfl, ?_, hlast, ?_, ?_⟩
    · rintro x (_ | ⟨_, hx⟩)
      · exact hb
      · exact hhigh x hx
    · rw [List.length_cons, Nat.pow_succ, ← Nat.mul_assoc]
      omega
    · rw [List.length_cons, Nat.pow_succ, ← Nat.mul_assoc]
      omega

theorem exists_isVarint {high : Bytes} {last : UInt8} (hhigh : ∀ b ∈ high, ¬ b < 0x80) (hlast : last < 0x80) :
    ∃ m, IsVarint m (high ++ [last]) := by
  induction high with
  | nil => exact ⟨_, .last hlast⟩
  | cons b high ih =>
    obtain ⟨m, hm⟩ := ih fun x hx => hhigh x (List.mem_cons_of_mem _ hx)
    exact ⟨_, .more (hhigh b List.mem_cons_self) hm⟩

/-- The bytes begin with a number of ten bytes that has bits from the 64th on. -/
def PastSixtyFour (bytes : Bytes) : Prop :=
  ∃ high last rest, bytes = high ++ last :: rest ∧ high.length = 9 ∧ (∀ b ∈ high, ¬ b < 0x80) ∧ 2 ≤ last.toNat ∧
    last < 0x80

/-- The varint that is read is the number that its bytes encode. -/
def VarintSound (bytes : Bytes) : Prop :=
  ∀ v rest, ProtoReader.varint bytes = (some v, rest) → ∃ enc, bytes = enc ++ rest ∧ IsVarint v enc ∧ v < 2 ^ 64

theorem varintSound_iff : VarintSound bytes ↔ ¬ PastSixtyFour bytes := by
  constructor
  · rintro hsound ⟨high, last, rest, rfl, hlength, hhigh, htwo, hlast⟩
    obtain ⟨m, hm⟩ := exists_isVarint hhigh hlast
    have hread : ProtoReader.varint (high ++ last :: rest) = (some (m % 2 ^ 64), rest) := by
      refine ProtoReader.varint_eq_iff.mpr (varint_eq_some_iff.mpr ⟨high ++ [last], by simp, m, hm, ?_, rfl⟩)
      rw [List.length_append, hlength, List.length_singleton]
    obtain ⟨enc, hsplit, henc, hlt⟩ := hsound _ _ hread
    have henceq : enc = high ++ [last] := by
      rw [show high ++ last :: rest = high ++ [last] ++ rest by simp] at hsplit
      exact (List.append_cancel_right hsplit).symm
    rw [henceq] at henc
    obtain ⟨high', last', heq, -, -, hle, -⟩ := henc.bounds
    obtain ⟨rfl, hl⟩ := List.append_inj' heq rfl
    obtain rfl := List.head_eq_of_cons_eq hl
    rw [hlength] at hle
    have hpow : (128 : Nat) ^ 9 = 2 ^ 63 := by decide
    omega
  · intro hpast v rest hread
    obtain ⟨enc, hsplit, m, hm, hlength, hv⟩ := varint_eq_some_iff.mp (ProtoReader.varint_eq_iff.mp hread)
    have hfits : m < 2 ^ 64 := by
      by_contra hbig
      obtain ⟨high, last, rfl, hhigh, hlast, hle, hlt⟩ := hm.bounds
      rw [List.length_append, List.length_singleton] at hlength
      have hlast' : last.toNat < 128 := hlast
      have hnine : high.length = 9 := by
        by_contra hne
        have hpow : 128 ^ high.length ≤ 128 ^ 8 := Nat.pow_le_pow_right (by omega) (by omega)
        have hmul := Nat.mul_le_mul (show last.toNat + 1 ≤ 128 by omega) hpow
        omega
      rw [hnine] at hlt
      refine hpast ⟨high, last, rest, by simp [hsplit], hnine, hhigh, ?_, hlast⟩
      have hpow : (128 : Nat) ^ 9 = 2 ^ 63 := by decide
      by_contra htwo
      have hmul := Nat.mul_le_mul_right (128 ^ 9) (show last.toNat + 1 ≤ 2 by omega)
      omega
    rw [Nat.mod_eq_of_lt hfits] at hv
    rw [hv]
    exact ⟨enc, hsplit, hm, hfits⟩

end

/-- The codec keeps its contract on some fields, a wire type and some bytes. -/
def CodecHolds (fields : List Field) (wire : Nat) (bytes : Bytes) : Prop :=
  (∃ rest, ProtoReader.readFields fields.length (fields.flatMap Field.encode) =
      some (fields.map fun f => (f.number, f.value), rest) ∧ ProtoReader.isDone rest = true) ∧
  ProtoReader.skip wire bytes = (ProtoReader.readValue wire bytes).map (Option.map fun _ => ()) id ∧
  VarintSound bytes

/-- The contract holds but for numbers past 64 bits. -/
theorem codec_iff (fields : List Field) (wire : Nat) (bytes : Bytes) :
    CodecHolds fields wire bytes ↔ ¬ PastSixtyFour bytes := by
  constructor
  · rintro ⟨-, -, hsound⟩
    exact varintSound_iff.mp hsound
  · intro hpast
    exact ⟨⟨[], readFields_flatMap fields, rfl⟩, ProtoReader.skip_eq wire bytes, varintSound_iff.mpr hpast⟩

/-- The number 2 ^ 64, which is read as zero. -/
def sixtyFifthBit : Bytes := List.replicate 9 0x80 ++ [2]

theorem not_codecHolds_sixtyFifthBit :
    ProtoReader.varint sixtyFifthBit = (some 0, []) ∧ ¬ CodecHolds [] 0 sixtyFifthBit := by
  refine ⟨by decide +kernel, fun h => ?_⟩
  obtain ⟨enc, hsplit, henc, -⟩ := h.2.2 0 [] (by decide +kernel)
  rw [List.append_nil] at hsplit
  obtain ⟨high, last, rfl, -, -, hle, -⟩ := henc.bounds
  obtain ⟨rfl, hlast⟩ := List.append_inj' hsplit rfl
  obtain rfl := List.head_eq_of_cons_eq hlast
  revert hle
  decide +kernel

end OpenProxy.Devin
