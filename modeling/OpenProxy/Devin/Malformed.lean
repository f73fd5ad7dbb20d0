import OpenProxy.Devin.Stream
import Mathlib.Tactic.Ring

/-!
# Malformed messages

The grammar of a protobuf message (`IsMessage`), which says nothing about a reader, and what the readers of
`OpenProxy.Devin.Protobuf` make of bytes that are not in it.  A loop over the fields ends without an error where no tag can be
read, so a frame is accepted with all the fields that stand before such a place (`protoFields_eq_some_iff`): what is behind it
is passed over in silence.

The counts of a frame are added without a check.  Which numbers are added is read off the payload (`wireAddends`).
-/

namespace OpenProxy.Devin

open Upstream hiding CoreError OpenAIResponse
open Option (bind_eq_some_iff map_eq_some_iff)

/-! ### The grammar -/

/-- Base 128: groups of seven bits, the lowest first; all but the last one have the highest bit set. -/
inductive IsVarint : Nat → Bytes → Prop
  | last {b : UInt8} (hb : b < 0x80) : IsVarint b.toNat [b]
  | more {b : UInt8} {n : Nat} {bytes : Bytes} (hb : ¬ b < 0x80) (h : IsVarint n bytes) :
    IsVarint (b.toNat % 128 + 128 * n) (b :: bytes)

/-- A number of a message has ten bytes at most, and 64 bits of it count. -/
def IsNumber (n : Nat) (bytes : Bytes) : Prop := ∃ m, IsVarint m bytes ∧ bytes.length ≤ 10 ∧ n = m % 2 ^ 64

/-- A value with its wire type. -/
inductive IsValue : Nat → WireValue → Bytes → Prop
  | varint {n : Nat} {bytes : Bytes} (h : IsNumber n bytes) : IsValue 0 (.varint n) bytes
  | fixed64 {bytes : Bytes} (h : bytes.length = 8) : IsValue 1 (.fixed64 bytes) bytes
  | bytes {body len : Bytes} (h : IsNumber body.length len) : IsValue 2 (.bytes body) (len ++ body)
  | fixed32 {bytes : Bytes} (h : bytes.length = 4) : IsValue 5 (.fixed32 bytes) bytes

/-- A sequence of fields; a field has a number from 1 on, of 32 bits. -/
inductive IsMessage : List (Nat × WireValue) → Bytes → Prop
  | nil : IsMessage [] []
  | cons {number wire : Nat} {value : WireValue} {tag enc bytes : Bytes} {fields : List (Nat × WireValue)}
    (htag : IsNumber (8 * number + wire) tag) (hpos : 1 ≤ number) (hlt : number < 2 ^ 32) (hvalue : IsValue wire value enc)
    (h : IsMessage fields bytes) : IsMessage ((number, value) :: fields) (tag ++ (enc ++ bytes))

/-! ### What is read -/

section

variable {n number wire : Nat} {bytes enc rest : Bytes} {value : WireValue} {fields : List (Nat × WireValue)}

theorem IsVarint.ne_nil (h : IsVarint n bytes) : bytes ≠ [] := by
  cases h <;> exact List.cons_ne_nil _ _

theorem IsValue.wire_lt (h : IsValue wire value bytes) : wire < 8 := by
  cases h <;> omega

/-- Bits are added where there are none. -/
theorem or_shiftLeft_mod {value x shift : Nat} (hvalue : value < 2 ^ shift) (hshift : shift ≤ 63) :
    value ||| x <<< shift % 2 ^ 64 = value + x * 2 ^ shift % 2 ^ 64 := by
  have hsplit : 2 ^ 64 = 2 ^ (64 - shift) * 2 ^ shift := by
    rw [← Nat.pow_add]
    congr 1
    omega
  rw [Nat.shiftLeft_eq, hsplit, Nat.mul_mod_mul_right, Nat.or_comm, Nat.mul_comm _ (2 ^ shift),
    ← Nat.two_pow_add_eq_or_of_lt hvalue, Nat.add_comm]

/-- A group and the ones behind it. -/
theorem group_add {x y shift : Nat} (hx : x < 128) (hshift : shift ≤ 56) :
    x * 2 ^ shift % 2 ^ 64 + y * 2 ^ (shift + 7) % 2 ^ 64 = (x + 128 * y) * 2 ^ shift % 2 ^ 64 := by
  have hsplit : 2 ^ 64 = 128 * 2 ^ (57 - shift) * 2 ^ shift := by
    rw [show (128 : Nat) = 2 ^ 7 from rfl, ← Nat.pow_add, ← Nat.pow_add]
    congr 1
    omega
  have hone : 1 ≤ 2 ^ (57 - shift) := Nat.one_le_two_pow
  have hy : y * 2 ^ (shift + 7) = 128 * y * 2 ^ shift := by
    rw [Nat.pow_add, show (2 : Nat) ^ 7 = 128 from rfl]
    ring
  have hfirst : x % (128 * 2 ^ (57 - shift)) = x := Nat.mod_eq_of_lt (by omega)
  have hrest : 128 * y % (128 * 2 ^ (57 - shift)) = 128 * (y % 2 ^ (57 - shift)) := Nat.mul_mod_mul_left _ _ _
  have hboth : (x + 128 * y) % (128 * 2 ^ (57 - shift)) = x + 128 * (y % 2 ^ (57 - shift)) := by
    rw [Nat.mod_mul, Nat.add_mul_mod_self_left, Nat.mod_eq_of_lt hx, Nat.add_mul_div_left _ _ (by omega),
      Nat.div_eq_of_lt hx, Nat.zero_add]
  rw [hy, hsplit, Nat.mul_mod_mul_right, Nat.mul_mod_mul_right, Nat.mul_mod_mul_right, hfirst, hrest, hboth, Nat.add_mul]

theorem varintFrom_eq_some_iff {turns shift value : Nat} (hturns : shift + 7 * turns = 70) (hvalue : value < 2 ^ shift) :
    varintFrom turns shift value bytes = some (n, rest) ↔
      ∃ enc m, bytes = enc ++ rest ∧ IsVarint m enc ∧ enc.length ≤ turns ∧ n = value + m * 2 ^ shift % 2 ^ 64 := by
  induction turns generalizing shift value bytes with
  | zero =>
    refine iff_of_false nofun ?_
    rintro ⟨enc, m, -, hm, hlength, -⟩
    exact hm.ne_nil (List.eq_nil_of_length_eq_zero (Nat.le_zero.mp hlength))
  | succ turns ih =>
    cases bytes with
    | nil =>
      refine iff_of_false nofun ?_
      rintro ⟨enc, m, hsplit, hm, -, -⟩
      exact hm.ne_nil (List.append_eq_nil_iff.mp hsplit.symm).1
    | cons b bytes =>
      have hor := or_shiftLeft_mod (x := b.toNat % 128) hvalue (by omega)
      rw [varintFrom, hor]
      split
      · rename_i hb
        have hsmall : b.toNat % 128 = b.toNat := Nat.mod_eq_of_lt (UInt8.lt_iff_toNat_lt.mp hb)
        constructor
        · intro h
          obtain ⟨hn, rfl⟩ := Prod.mk.inj (Option.some.inj h)
          exact ⟨[b], b.toNat, rfl, .last hb, by rw [List.length_singleton]; omega, by rw [← hn, hsmall]⟩
        · rintro ⟨enc, m, hsplit, hm, -, rfl⟩
          cases hm with
          | last hlast =>
            obtain ⟨rfl, rfl⟩ := List.cons.inj hsplit
            rw [hsmall]
          | more hmore _ =>
            obtain ⟨rfl, -⟩ := List.cons.inj hsplit
            exact absurd hb hmore
      · rename_i hb
        have hgroup : b.toNat % 128 * 2 ^ shift % 2 ^ 64 ≤ 127 * 2 ^ shift :=
          (Nat.mod_le _ _).trans (Nat.mul_le_mul_right _ (by omega))
        have hpow : 2 ^ (shift + 7) = 128 * 2 ^ shift := by rw [Nat.pow_add, Nat.mul_comm]
        have hlate : ∀ {m : Nat} {enc : Bytes}, IsVarint m enc → enc.length ≤ turns → shift ≤ 56 := by
          intro m enc hm hlength
          have := List.length_pos_iff.mpr hm.ne_nil
          omega
        rw [ih (by omega) (by omega)]
        constructor
        · rintro ⟨enc, m, rfl, hm, hlength, hn⟩
          refine ⟨b :: enc, _, rfl, .more hb hm, Nat.succ_le_succ hlength, ?_⟩
          rw [hn, Nat.add_assoc, group_add (Nat.mod_lt _ (by omega)) (hlate hm hlength)]
        · rintro ⟨enc, m, hsplit, hm, hlength, hn⟩
          cases hm with
          | last hlast =>
            obtain ⟨rfl, -⟩ := List.cons.inj hsplit
            exact absurd hlast hb
          | @more _ m' enc' hmore hm =>
            obtain ⟨rfl, rfl⟩ := List.cons.inj hsplit
            have hlength := Nat.le_of_succ_le_succ hlength
            refine ⟨enc', m', rfl, hm, hlength, ?_⟩
            rw [hn, Nat.add_assoc, group_add (Nat.mod_lt _ (by omega)) (hlate hm hlength)]

theorem varint_eq_some_iff : varint bytes = some (n, rest) ↔ ∃ enc, bytes = enc ++ rest ∧ IsNumber n enc := by
  unfold varint IsNumber
  rw [varintFrom_eq_some_iff (by omega) (by omega)]
  constructor
  · rintro ⟨enc, m, hsplit, hm, hlength, hn⟩
    exact ⟨enc, hsplit, m, hm, hlength, by rw [hn, Nat.pow_zero, Nat.mul_one, Nat.zero_add]⟩
  · rintro ⟨enc, hsplit, m, hm, hlength, hn⟩
    exact ⟨enc, m, hsplit, hm, hlength, by rw [hn, Nat.pow_zero, Nat.mul_one, Nat.zero_add]⟩

theorem takeBytes_eq_some_iff {taken : Bytes} :
    takeBytes n bytes = some (taken, rest) ↔ bytes = taken ++ rest ∧ taken.length = n := by
  unfold takeBytes
  constructor
  · intro h
    split at h
    · cases h
    · rename_i hlength
      obtain ⟨rfl, rfl⟩ := Prod.mk.inj (Option.some.inj h)
      exact ⟨(List.take_append_drop n bytes).symm, by rw [List.length_take]; omega⟩
  · rintro ⟨rfl, rfl⟩
    rw [if_neg (by rw [List.length_append]; omega), List.take_left, List.drop_left]

theorem tag_eq_some_iff : tag bytes = some ((number, wire), rest) ↔
    ∃ enc, bytes = enc ++ rest ∧ IsNumber (8 * number + wire) enc ∧ 1 ≤ number ∧ number < 2 ^ 32 ∧ wire < 8 := by
  unfold tag
  constructor
  · intro h
    split at h
    · cases h
    · rename_i raw rest' hraw
      dsimp only at h
      split at h
      · cases h
      · rename_i hnumber
        obtain ⟨hfield, rfl⟩ := Prod.mk.inj (Option.some.inj h)
        obtain ⟨rfl, rfl⟩ := Prod.mk.inj hfield
        obtain ⟨enc, hsplit, hnum⟩ := varint_eq_some_iff.mp hraw
        refine ⟨enc, hsplit, ?_, by omega, by omega, by omega⟩
        rwa [Nat.div_add_mod]
  · rintro ⟨enc, hsplit, hnum, hpos, hlt, hwire⟩
    rw [varint_eq_some_iff.mpr ⟨enc, hsplit, hnum⟩]
    dsimp only
    have hdiv : (8 * number + wire) / 8 = number := by omega
    have hmod : (8 * number + wire) % 8 = wire := by omega
    rw [hdiv, hmod, if_neg (by omega)]

theorem wireValue_eq_some_iff :
    wireValue wire bytes = some (value, rest) ↔ ∃ enc, bytes = enc ++ rest ∧ IsValue wire value enc := by
  constructor
  · intro h
    unfold wireValue at h
    split at h
    · obtain ⟨⟨n, rest'⟩, hn, heq⟩ := map_eq_some_iff.mp h
      obtain ⟨rfl, rfl⟩ := Prod.mk.inj heq
      obtain ⟨enc, hsplit, hnum⟩ := varint_eq_some_iff.mp hn
      exact ⟨enc, hsplit, .varint hnum⟩
    · obtain ⟨⟨taken, rest'⟩, htaken, heq⟩ := map_eq_some_iff.mp h
      obtain ⟨rfl, rfl⟩ := Prod.mk.inj heq
      obtain ⟨hsplit, hlength⟩ := takeBytes_eq_some_iff.mp htaken
      exact ⟨taken, hsplit, .fixed64 hlength⟩
    · obtain ⟨⟨len, rest'⟩, hlen, hbody⟩ := bind_eq_some_iff.mp h
      obtain ⟨⟨taken, rest''⟩, htaken, heq⟩ := map_eq_some_iff.mp hbody
      obtain ⟨rfl, rfl⟩ := Prod.mk.inj heq
      obtain ⟨enc, rfl, hnum⟩ := varint_eq_some_iff.mp hlen
      obtain ⟨hsplit, rfl⟩ := takeBytes_eq_some_iff.mp htaken
      refine ⟨enc ++ taken, ?_, .bytes hnum⟩
      rw [hsplit, List.append_assoc]
    · obtain ⟨⟨taken, rest'⟩, htaken, heq⟩ := map_eq_some_iff.mp h
      obtain ⟨rfl, rfl⟩ := Prod.mk.inj heq
      obtain ⟨hsplit, hlength⟩ := takeBytes_eq_some_iff.mp htaken
      exact ⟨taken, hsplit, .fixed32 hlength⟩
    · cases h
  · rintro ⟨enc, rfl, hvalue⟩
    cases hvalue with
    | varint hnum => rw [wireValue, varint_eq_some_iff.mpr ⟨enc, rfl, hnum⟩, Option.map_some]
    | fixed64 hlength => rw [wireValue, takeBytes_eq_some_iff.mpr ⟨rfl, hlength⟩, Option.map_some]
    | @bytes body len hnum =>
      rw [wireValue, List.append_assoc, varint_eq_some_iff.mpr ⟨len, rfl, hnum⟩, Option.bind_some]
      dsimp only
      rw [takeBytes_eq_some_iff.mpr ⟨rfl, rfl⟩, Option.map_some]
    | fixed32 hlength => rw [wireValue, takeBytes_eq_some_iff.mpr ⟨rfl, hlength⟩, Option.map_some]

/-- A field is read as it was written, whatever stands behind it. -/
theorem read_field {tagEnc : Bytes} (hnum : IsNumber (8 * number + wire) tagEnc) (hpos : 1 ≤ number)
    (hlt : number < 2 ^ 32) (hvalue : IsValue wire value enc) (rest : Bytes) :
    tag (tagEnc ++ (enc ++ rest)) = some ((number, wire), enc ++ rest) ∧
      wireValue wire (enc ++ rest) = some (value, rest) :=
  ⟨tag_eq_some_iff.mpr ⟨tagEnc, rfl, hnum, hpos, hlt, hvalue.wire_lt⟩, wireValue_eq_some_iff.mpr ⟨enc, rfl, hvalue⟩⟩

/-- The fields that are read stand before the first place where there is no tag. -/
theorem protoFields_eq_some_iff : protoFields bytes = some fields ↔
    ∃ enc rest, bytes = enc ++ rest ∧ IsMessage fields enc ∧ tag rest = none := by
  constructor
  · intro h
    fun_induction protoFields bytes generalizing fields with
    | case1 bytes hend =>
      cases h
      exact ⟨[], bytes, rfl, .nil, hend⟩
    | case2 => cases h
    | case3 bytes field wire rest htag value rest' hvalue ih =>
      obtain ⟨fields', hfields, rfl⟩ := map_eq_some_iff.mp h
      obtain ⟨enc, last, rfl, hmessage, hend⟩ := ih hfields
      obtain ⟨tagEnc, rfl, hnum, hpos, hlt, -⟩ := tag_eq_some_iff.mp htag
      obtain ⟨valueEnc, rfl, henc⟩ := wireValue_eq_some_iff.mp hvalue
      refine ⟨tagEnc ++ (valueEnc ++ enc), last, ?_, .cons hnum hpos hlt henc hmessage, hend⟩
      rw [List.append_assoc, List.append_assoc]
  · rintro ⟨enc, rest, rfl, hmessage, hend⟩
    induction hmessage with
    | nil => exact protoFields_end hend
    | @cons number wire value tagEnc enc bytes fields hnum hpos hlt hvalue _ ih =>
      obtain ⟨htag, hread⟩ := read_field hnum hpos hlt hvalue (bytes ++ rest)
      have hshape : tagEnc ++ (enc ++ bytes) ++ rest = tagEnc ++ (enc ++ (bytes ++ rest)) := by
        rw [List.append_assoc, List.append_assoc]
      rw [hshape, protoFields_cons htag hread, ih, Option.map_some]

/-- The first fields of a message are its first fields, and what is behind them is a message. -/
theorem IsMessage.of_append (h : IsMessage fields enc) {all : List (Nat × WireValue)}
    (hall : IsMessage all (enc ++ rest)) : ∃ fields', all = fields ++ fields' ∧ IsMessage fields' rest := by
  induction h generalizing all with
  | nil => exact ⟨all, rfl, hall⟩
  | @cons number wire value tagEnc enc bytes fields hnum hpos hlt hvalue _ ih =>
    have hshape : tagEnc ++ (enc ++ bytes) ++ rest = tagEnc ++ (enc ++ (bytes ++ rest)) := by
      rw [List.append_assoc, List.append_assoc]
    obtain ⟨htag, hread⟩ := read_field hnum hpos hlt hvalue (bytes ++ rest)
    rw [hshape] at hall
    generalize hwhole : tagEnc ++ (enc ++ (bytes ++ rest)) = whole at hall
    rw [hwhole] at htag
    cases hall with
    | nil => cases htag
    | @cons number' wire' value' tagEnc' enc' bytes' fields' hnum' hpos' hlt' hvalue' htail =>
      -- Both ways to take the first field off are what the reader does.
      obtain ⟨htag', hread'⟩ := read_field hnum' hpos' hlt' hvalue' bytes'
      obtain ⟨hfield, hbehind⟩ := Prod.mk.inj (Option.some.inj (htag.symm.trans htag'))
      obtain ⟨rfl, rfl⟩ := Prod.mk.inj hfield
      rw [hbehind, hread'] at hread
      obtain ⟨rfl, rfl⟩ := Prod.mk.inj (Option.some.inj hread)
      obtain ⟨behind, rfl, hbehind⟩ := ih htail
      exact ⟨behind, rfl, hbehind⟩

end

/-! ### Bytes that are passed over -/

/-- Behind some fields there are bytes that do not begin with a tag: the number is not finished or too long, or the number
of the field is zero or has more than 32 bits. -/
def StopsShort (bytes : Bytes) : Prop :=
  ∃ fields enc rest, bytes = enc ++ rest ∧ IsMessage fields enc ∧ rest ≠ [] ∧ tag rest = none

/-- The messages in a frame that have to be read: the timestamp, the tool calls and the usage. -/
def nestedMessage : Nat × WireValue → Option Bytes
  | (2, .bytes b) => some b
  | (6, .bytes b) => some b
  | (7, .bytes b) => some b
  | _ => none

/-- A payload is a sequence of fields, and so is every message in it. -/
def WellFormed (payload : Bytes) : Prop :=
  ∃ fields, IsMessage fields payload ∧
    ∀ field ∈ fields, ∀ b, nestedMessage field = some b → ∃ fields', IsMessage fields' b

/-- No field of a payload, or of a message in one of its fields, is followed by bytes that do not begin with a tag. -/
def TagsReadable (payload : Bytes) : Prop :=
  ¬ StopsShort payload ∧ ∀ fields enc rest, payload = enc ++ rest → IsMessage fields enc →
    ∀ field ∈ fields, ∀ b, nestedMessage field = some b → ¬ StopsShort b

section

variable {bytes payload : Bytes} {fields : List (Nat × WireValue)} {frame : DevinFrame}

/-- A sequence of fields is read to its end. -/
theorem IsMessage.not_stopsShort (h : IsMessage fields bytes) : ¬ StopsShort bytes := by
  rintro ⟨fields', enc, rest, rfl, hmessage, hne, hend⟩
  obtain ⟨behind, -, hbehind⟩ := hmessage.of_append h
  cases hbehind with
  | nil => exact hne rfl
  | cons hnum hpos hlt hvalue _ =>
    rw [(read_field hnum hpos hlt hvalue _).1] at hend
    cases hend

/-- Fields that are read to the end are the whole message. -/
theorem isMessage_of_not_stopsShort (h : protoFields bytes = some fields) (hfull : ¬ StopsShort bytes) :
    IsMessage fields bytes := by
  obtain ⟨enc, rest, rfl, hmessage, hend⟩ := protoFields_eq_some_iff.mp h
  have hnil : rest = [] := by
    by_contra hne
    exact hfull ⟨fields, enc, rest, rfl, hmessage, hne, hend⟩
  rwa [hnil, List.append_nil]

theorem foldlM_addFrameField {initial : DevinFrame} (h : fields.foldlM addFrameField initial = some frame) :
    ∀ field ∈ fields, ∀ b, nestedMessage field = some b → ∃ fields', protoFields b = some fields' := by
  induction fields generalizing initial with
  | nil => exact fun field hfield => absurd hfield List.not_mem_nil
  | cons first fields ih =>
    rw [List.foldlM_cons] at h
    obtain ⟨next, hnext, hrest⟩ := bind_eq_some_iff.mp h
    intro field hfield b hb
    rcases List.mem_cons.mp hfield with rfl | hfield
    · -- The parsers of the messages fail where the fields cannot be read.
      unfold nestedMessage at hb
      split at hb
      · obtain rfl := Option.some.inj hb
        obtain ⟨secs, hsecs, -⟩ := map_eq_some_iff.mp hnext
        exact (map_eq_some_iff.mp hsecs).imp fun _ h => h.1
      · obtain rfl := Option.some.inj hb
        obtain ⟨delta, hdelta, -⟩ := map_eq_some_iff.mp hnext
        exact (map_eq_some_iff.mp hdelta).imp fun _ h => h.1
      · obtain rfl := Option.some.inj hb
        obtain ⟨usage, husage, -⟩ := map_eq_some_iff.mp hnext
        exact (map_eq_some_iff.mp husage).imp fun _ h => h.1
      · cases hb
    · exact ih hrest field hfield b hb

/-- An accepted payload is well-formed if and only if nothing of it was passed over. -/
theorem wellFormed_iff (h : parseDevinFrame payload = some frame) : WellFormed payload ↔ TagsReadable payload := by
  obtain ⟨fields, hfields, hfold⟩ := bind_eq_some_iff.mp h
  have hnested := foldlM_addFrameField hfold
  constructor
  · rintro ⟨all, hall, hmessages⟩
    refine ⟨hall.not_stopsShort, ?_⟩
    rintro fields' enc rest rfl hmessage field hfield b hb
    obtain ⟨behind, rfl, -⟩ := hmessage.of_append hall
    obtain ⟨fields'', hnestedMessage⟩ := hmessages field (List.mem_append_left _ hfield) b hb
    exact hnestedMessage.not_stopsShort
  · rintro ⟨hfull, hmessages⟩
    have hmessage := isMessage_of_not_stopsShort hfields hfull
    refine ⟨fields, hmessage, fun field hfield b hb => ?_⟩
    obtain ⟨fields', hread⟩ := hnested field hfield b hb
    exact ⟨fields', isMessage_of_not_stopsShort hread
      (hmessages fields payload [] (List.append_nil _).symm hmessage field hfield b hb)⟩

end

/-! ### The counts of a frame -/

/-- The numbers that `devin_frame_usage` adds. -/
def addends (frame : DevinFrame) : Option (Int × Int) :=
  match frame.usage with
  | some u => some (u.promptTokens, u.cachedTokens)
  | none => if frame.dimFound then some (frame.dimPrompt, frame.dimCached) else none

/-- The sum does not overflow. -/
def NoOverflow (frame : DevinFrame) : Prop := ∀ a b, addends frame = some (a, b) → i64 (a + b) = a + b

def promptField : Nat × WireValue → Int
  | (2, .varint n) => n
  | _ => 0

/-- The prompt tokens in the fields of a usage message. -/
def promptCount (fields : List (Nat × WireValue)) : Int := (fields.map promptField).sum

def cachedField : Nat × WireValue → Option Nat
  | (5, .varint n) => some n
  | _ => none

/-- The last count of cached tokens in the fields of a usage message. -/
def cachedCount (fields : List (Nat × WireValue)) : Int :=
  ((fields.filterMap cachedField).getLast?.map fun n : Nat => i64 n).getD 0

def usageMessage : Nat × WireValue → Option (List (Nat × WireValue))
  | (7, .bytes b) => protoFields b
  | _ => none

/-- The fields of the usage messages of a frame. -/
def usageMessages (fields : List (Nat × WireValue)) : List (List (Nat × WireValue)) := fields.filterMap usageMessage

def dimGroup : Nat × WireValue → Option Bytes
  | (28, .bytes b) => some b
  | _ => none

/-- The groups of metrics of a frame. -/
def dimGroups (fields : List (Nat × WireValue)) : List Bytes := fields.filterMap dimGroup

/-- A count that is not zero takes the place of the one before it. -/
def laterCount (count later : Int) : Int := if later ≠ 0 then later else count

/-- The addends as they stand in the fields of a payload: all prompt tokens of the usage messages and the last count of
cached tokens that is not zero, or else the metrics of the first group with some. -/
def wireAddends (fields : List (Nat × WireValue)) : Option (Int × Int) :=
  if usageMessages fields = [] then
    let frame := (dimGroups fields).foldl (fun frame b => parseDimGroup b frame) {}
    if frame.dimFound then some (frame.dimPrompt, frame.dimCached) else none
  else
    some (i64 ((usageMessages fields).map promptCount).sum, ((usageMessages fields).map cachedCount).foldl laterCount 0)

/-- The sum is a number of 64 bits. -/
theorem i64_eq_self_iff (z : Int) : i64 z = z ↔ -2 ^ 63 ≤ z ∧ z < 2 ^ 63 := by
  unfold i64
  rw [Int.bmod_def]
  omega

theorem i64_add_i64 (a b : Int) : i64 (i64 a + i64 b) = i64 (a + b) := by
  unfold i64
  rw [Int.bmod_add_bmod, Int.add_bmod_bmod]

section

variable {fields : List (Nat × WireValue)} {frame : DevinFrame}

theorem promptTokens_addUsageField {usage : DevinUsage} {z : Int} (h : usage.promptTokens = i64 z)
    (field : Nat × WireValue) : (addUsageField usage field).promptTokens = i64 (z + promptField field) := by
  have hkept : promptField field = 0 → usage.promptTokens = i64 (z + promptField field) := by
    intro hnone
    rw [hnone, Int.add_zero, h]
  unfold addUsageField
  split
  · rename_i n
    have hn : promptField (2, .varint n) = n := by rw [promptField]
    dsimp only
    rw [hn, h, i64_add_i64]
  · exact hkept rfl
  · exact hkept rfl
  · exact hkept rfl
  · rename_i hprompt _ _ _
    refine hkept ?_
    unfold promptField
    split
    · exact absurd rfl (hprompt _)
    · rfl

theorem cachedTokens_addUsageField (usage : DevinUsage) (field : Nat × WireValue) :
    (addUsageField usage field).cachedTokens = ((cachedField field).map fun n : Nat => i64 n).getD usage.cachedTokens := by
  have hkept : cachedField field = none →
      usage.cachedTokens = ((cachedField field).map fun n : Nat => i64 n).getD usage.cachedTokens := by
    intro hnone
    rw [hnone, Option.map_none, Option.getD_none]
  unfold addUsageField
  split
  · exact hkept rfl
  · exact hkept rfl
  · rename_i n
    rw [show cachedField (5, .varint n) = some n from rfl, Option.map_some, Option.getD_some]
  · exact hkept rfl
  · rename_i hcached _
    refine hkept ?_
    unfold cachedField
    split
    · exact absurd rfl (hcached _)
    · rfl

/-- What `parse_usage` makes of the counts. -/
theorem foldl_addUsageField (fields : List (Nat × WireValue)) :
    (fields.foldl addUsageField {}).promptTokens = i64 (promptCount fields) ∧
      (fields.foldl addUsageField {}).cachedTokens = cachedCount fields := by
  induction fields using List.reverseRecOn with
  | nil => exact ⟨rfl, rfl⟩
  | append_singleton fields field ih =>
    obtain ⟨hprompt, hcached⟩ := ih
    rw [List.foldl_append, List.foldl_cons, List.foldl_nil]
    constructor
    · rw [promptTokens_addUsageField hprompt]
      unfold promptCount
      rw [List.map_append, List.sum_append, List.map_singleton, List.sum_singleton]
    · rw [cachedTokens_addUsageField, hcached]
      unfold cachedCount
      rw [List.filterMap_append, List.getLast?_append, List.filterMap_cons, List.filterMap_nil]
      cases cachedField field with
      | none => rfl
      | some n => rfl

theorem parseUsage_counts {b : Bytes} {usage : DevinUsage} (h : parseUsage b = some usage) :
    ∃ message, protoFields b = some message ∧ usage.promptTokens = i64 (promptCount message) ∧
      usage.cachedTokens = cachedCount message := by
  obtain ⟨message, hmessage, rfl⟩ := map_eq_some_iff.mp h
  exact ⟨message, hmessage, foldl_addUsageField message⟩

/-- The metrics of a frame. -/
def metrics (frame : DevinFrame) : Int × Int × Int × Bool :=
  (frame.dimPrompt, frame.dimCompletion, frame.dimCached, frame.dimFound)

theorem metrics_addMetric {frame' : DevinFrame} (h : metrics frame = metrics frame') (metric : Text × Int) :
    metrics (addMetric frame metric) = metrics (addMetric frame' metric) := by
  unfold metrics at h
  obtain ⟨hprompt, hcompletion, hcached, hfound⟩ : frame.dimPrompt = frame'.dimPrompt ∧
      frame.dimCompletion = frame'.dimCompletion ∧ frame.dimCached = frame'.dimCached ∧
      frame.dimFound = frame'.dimFound := by simpa using h
  unfold addMetric metrics
  split_ifs <;> simp only [hprompt, hcompletion, hcached, hfound]

theorem usage_addMetric (frame : DevinFrame) (metric : Text × Int) : (addMetric frame metric).usage = frame.usage := by
  unfold addMetric
  split_ifs <;> rfl

/-- Only the metrics of a frame matter to a group, and only they are changed. -/
theorem metrics_parseDimGroup {frame' : DevinFrame} (h : metrics frame = metrics frame') (b : Bytes) :
    metrics (parseDimGroup b frame) = metrics (parseDimGroup b frame') := by
  have hfound : frame.dimFound = frame'.dimFound := congrArg (fun m => m.2.2.2) h
  have hfold : ∀ (ms : List (Text × Int)) {f g : DevinFrame}, metrics f = metrics g →
      metrics (ms.foldl addMetric f) = metrics (ms.foldl addMetric g) := by
    intro ms
    induction ms with
    | nil => exact fun h => h
    | cons metric ms ih => exact fun h => ih (metrics_addMetric h metric)
  unfold parseDimGroup
  rw [hfound]
  split
  · exact h
  · split
    · exact h
    · dsimp only
      split
      · exact h
      · exact hfold _ h

theorem usage_parseDimGroup (b : Bytes) (frame : DevinFrame) : (parseDimGroup b frame).usage = frame.usage := by
  have hfold : ∀ (ms : List (Text × Int)) (f : DevinFrame), (ms.foldl addMetric f).usage = f.usage := by
    intro ms
    induction ms with
    | nil => exact fun f => rfl
    | cons metric ms ih => exact fun f => (ih _).trans (usage_addMetric f metric)
  unfold parseDimGroup
  split
  · rfl
  · split
    · rfl
    · dsimp only
      split
      · rfl
      · exact hfold _ _

/-- The counts of a frame are those of its fields. -/
structure Counted (fields : List (Nat × WireValue)) (frame : DevinFrame) : Prop where
  none_iff : frame.usage = none ↔ usageMessages fields = []
  counts : ∀ u, frame.usage = some u → u.promptTokens = i64 ((usageMessages fields).map promptCount).sum ∧
    u.cachedTokens = ((usageMessages fields).map cachedCount).foldl laterCount 0
  metrics : metrics frame = metrics ((dimGroups fields).foldl (fun frame b => parseDimGroup b frame) {})

/-- A field that has nothing to do with the counts. -/
theorem Counted.other {frame' : DevinFrame} {field : Nat × WireValue} (h : Counted fields frame)
    (husage : usageMessage field = none) (hgroup : dimGroup field = none) (hsame : frame'.usage = frame.usage)
    (hmetrics : OpenProxy.Devin.metrics frame' = OpenProxy.Devin.metrics frame) : Counted (fields ++ [field]) frame' := by
  have husages : usageMessages (fields ++ [field]) = usageMessages fields := by
    unfold usageMessages
    rw [List.filterMap_append, List.filterMap_cons, husage, List.filterMap_nil, List.append_nil]
  have hgroups : dimGroups (fields ++ [field]) = dimGroups fields := by
    unfold dimGroups
    rw [List.filterMap_append, List.filterMap_cons, hgroup, List.filterMap_nil, List.append_nil]
  refine ⟨?_, ?_, ?_⟩
  · rw [hsame, husages]
    exact h.none_iff
  · rw [hsame, husages]
    exact h.counts
  · rw [hmetrics, hgroups]
    exact h.metrics

/-- A usage message. -/
theorem Counted.usage {b : Bytes} {usage : DevinUsage} (h : Counted fields frame) (hparse : parseUsage b = some usage) :
    Counted (fields ++ [(7, .bytes b)]) { frame with usage := some (match frame.usage with
      | some existing => existing.merge usage
      | none => usage) } := by
  obtain ⟨message, hmessage, hprompt, hcached⟩ := parseUsage_counts hparse
  have husages : usageMessages (fields ++ [(7, .bytes b)]) = usageMessages fields ++ [message] := by
    unfold usageMessages
    rw [List.filterMap_append, List.filterMap_cons, show usageMessage (7, .bytes b) = some message from hmessage,
      List.filterMap_nil]
  have hgroups : dimGroups (fields ++ [(7, .bytes b)]) = dimGroups fields := by
    unfold dimGroups
    rw [List.filterMap_append]
    exact List.append_nil _
  refine ⟨?_, ?_, ?_⟩
  · rw [husages]
    exact iff_of_false (Option.some_ne_none _) (List.append_ne_nil_of_right_ne_nil _ (List.cons_ne_nil _ _))
  · intro u hu
    rw [husages, List.map_append, List.sum_append, List.map_singleton, List.sum_singleton, List.map_append,
      List.map_singleton, List.foldl_append, List.foldl_cons, List.foldl_nil]
    cases hbefore : frame.usage with
    | none =>
      rw [hbefore] at hu
      obtain rfl := Option.some.inj hu
      rw [h.none_iff.mp hbefore, List.map_nil, List.map_nil, List.sum_nil, Int.zero_add, List.foldl_nil]
      refine ⟨hprompt, hcached.trans ?_⟩
      unfold laterCount
      split
      · rfl
      · rename_i hzero
        exact not_not.mp hzero
    | some existing =>
      rw [hbefore] at hu
      obtain rfl := Option.some.inj hu
      obtain ⟨hsum, hlast⟩ := h.counts existing hbefore
      constructor
      · show i64 (existing.promptTokens + usage.promptTokens) = _
        rw [hsum, hprompt, i64_add_i64]
      · show (if usage.cachedTokens ≠ 0 then usage.cachedTokens else existing.cachedTokens) = _
        rw [hcached, hlast]
        rfl
  · rw [hgroups]
    exact h.metrics

/-- A group of metrics. -/
theorem Counted.group {b : Bytes} (h : Counted fields frame) :
    Counted (fields ++ [(28, .bytes b)]) (parseDimGroup b frame) := by
  have husages : usageMessages (fields ++ [(28, .bytes b)]) = usageMessages fields := by
    unfold usageMessages
    rw [List.filterMap_append]
    exact List.append_nil _
  have hgroups : dimGroups (fields ++ [(28, .bytes b)]) = dimGroups fields ++ [b] := by
    unfold dimGroups
    rw [List.filterMap_append]
    rfl
  refine ⟨?_, ?_, ?_⟩
  · rw [usage_parseDimGroup, husages]
    exact h.none_iff
  · rw [usage_parseDimGroup, husages]
    exact h.counts
  · rw [hgroups, List.foldl_append]
    exact metrics_parseDimGroup h.metrics b

theorem Counted.step {frame' : DevinFrame} {field : Nat × WireValue} (h : Counted fields frame)
    (hstep : addFrameField frame field = some frame') : Counted (fields ++ [field]) frame' := by
  unfold addFrameField at hstep
  split at hstep
  · obtain rfl := Option.some.inj hstep
    exact h.other rfl rfl rfl rfl
  · obtain rfl := Option.some.inj hstep
    exact h.other rfl rfl rfl rfl
  · obtain ⟨secs, -, rfl⟩ := map_eq_some_iff.mp hstep
    exact h.other rfl rfl rfl rfl
  · obtain rfl := Option.some.inj hstep
    exact h.other rfl rfl rfl rfl
  · obtain rfl := Option.some.inj hstep
    exact h.other rfl rfl rfl rfl
  · obtain ⟨delta, -, rfl⟩ := map_eq_some_iff.mp hstep
    exact h.other rfl rfl rfl rfl
  · obtain ⟨usage, husage, rfl⟩ := map_eq_some_iff.mp hstep
    exact h.usage husage
  · obtain rfl := Option.some.inj hstep
    exact h.other rfl rfl rfl rfl
  · obtain rfl := Option.some.inj hstep
    exact h.other rfl rfl rfl rfl
  · obtain rfl := Option.some.inj hstep
    exact h.group
  · rename_i husage _ _ hgroup
    obtain rfl := Option.some.inj hstep
    refine h.other ?_ ?_ rfl rfl
    · unfold usageMessage
      split
      · exact absurd rfl (husage _)
      · rfl
    · unfold dimGroup
      split
      · exact absurd rfl (hgroup _)
      · rfl

theorem counted_foldlM (h : fields.foldlM addFrameField {} = some frame) : Counted fields frame := by
  induction fields using List.reverseRecOn generalizing frame with
  | nil =>
    obtain rfl := Option.some.inj h
    exact ⟨⟨fun _ => rfl, fun _ => rfl⟩, nofun, rfl⟩
  | append_singleton fields field ih =>
    rw [List.foldlM_append] at h
    obtain ⟨before, hbefore, hlast⟩ := bind_eq_some_iff.mp h
    obtain ⟨after, hafter, hdone⟩ := bind_eq_some_iff.mp hlast
    obtain rfl := Option.some.inj hdone
    exact (ih hbefore).step hafter

/-- What is added stands in the payload. -/
theorem Counted.addends_eq (h : Counted fields frame) : addends frame = wireAddends fields := by
  unfold addends wireAddends
  cases husage : frame.usage with
  | none =>
    have hmetrics := h.metrics
    rw [if_pos (h.none_iff.mp husage)]
    generalize (dimGroups fields).foldl (fun frame b => parseDimGroup b frame) {} = group at hmetrics
    have hfound : frame.dimFound = group.dimFound := congrArg (fun m => m.2.2.2) hmetrics
    have hprompt : frame.dimPrompt = group.dimPrompt := congrArg (fun m => m.1) hmetrics
    have hcached : frame.dimCached = group.dimCached := congrArg (fun m => m.2.2.1) hmetrics
    dsimp only
    rw [hfound, hprompt, hcached]
  | some u =>
    have hsome : usageMessages fields ≠ [] := fun hnil => Option.some_ne_none u (husage.symm.trans (h.none_iff.mpr hnil))
    obtain ⟨hprompt, hcached⟩ := h.counts u husage
    rw [if_neg hsome, ← hprompt, ← hcached]

end

/-! ### Accepted frames -/

/-- The sum of the counts in a payload is a number of 64 bits. -/
def CountsFit (payload : Bytes) : Prop :=
  ∀ fields, protoFields payload = some fields → ∀ a b, wireAddends fields = some (a, b) → -2 ^ 63 ≤ a + b ∧ a + b < 2 ^ 63

/-- An accepted frame is well-formed if and only if no field of it is followed by bytes that do not begin with a tag, and its
usage does not overflow if and only if the counts in it fit. -/
theorem accepted_iff {payload : Bytes} {frame : DevinFrame} (h : parseDevinFrame payload = some frame) :
    (WellFormed payload ↔ TagsReadable payload) ∧ (NoOverflow frame ↔ CountsFit payload) := by
  refine ⟨wellFormed_iff h, ?_⟩
  obtain ⟨fields, hfields, hfold⟩ := bind_eq_some_iff.mp h
  have hadd := (counted_foldlM hfold).addends_eq
  unfold NoOverflow CountsFit
  rw [hadd]
  constructor
  · intro hfits fields' hfields' a b hab
    obtain rfl := Option.some.inj (hfields.symm.trans hfields')
    exact (i64_eq_self_iff _).mp (hfits a b hab)
  · exact fun hfits a b hab => (i64_eq_self_iff _).mpr (hfits fields hfields a b hab)

/-- A usage message with five prompt tokens, two of which are cached. -/
def smallUsage : Bytes := [0x10, 0x05, 0x28, 0x02]

/-- A stop reason and a usage message. -/
theorem accepted_iff_stop : ∃ frame, parseDevinFrame (0x28 :: 0x02 :: 0x3a :: 0x04 :: smallUsage) = some frame ∧
    addends frame = some (5, 2) ∧
    (WellFormed (0x28 :: 0x02 :: 0x3a :: 0x04 :: smallUsage) ↔
      TagsReadable (0x28 :: 0x02 :: 0x3a :: 0x04 :: smallUsage)) ∧
    (NoOverflow frame ↔ CountsFit (0x28 :: 0x02 :: 0x3a :: 0x04 :: smallUsage)) := by
  have husage : parseUsage smallUsage = some { promptTokens := 5, cachedTokens := 2 } := by
    unfold parseUsage smallUsage
    rw [protoFields_cons (by rfl) (by rfl), protoFields_cons (by rfl) (by rfl), protoFields_end (by rfl)]
    decide
  have hparse : parseDevinFrame (0x28 :: 0x02 :: 0x3a :: 0x04 :: smallUsage) =
      some { stopReason := 2, usage := some { promptTokens := 5, cachedTokens := 2 } } := by
    unfold parseDevinFrame
    rw [protoFields_cons (by rfl) (by rfl), protoFields_cons (by rfl) (by rfl), protoFields_end (by rfl)]
    show (parseUsage smallUsage).map _ >>= _ = _
    rw [husage]
    rfl
  exact ⟨_, hparse, rfl, accepted_iff hparse⟩

/-- The fields of a usage message with as many prompt tokens as possible, and one that is cached. -/
def largeUsage : Bytes := [0x10, 0xff, 0xff, 0xff, 0xff, 0xff, 0xff, 0xff, 0xff, 0x7f, 0x28, 0x01]

/-- A field with the number zero is passed over with all that follows, and the sum of two counts overflows. -/
theorem not_wellFormed_zero :
    (parseDevinFrame [0x00, 0x01] = some {} ∧ ¬ WellFormed [0x00, 0x01]) ∧
      ∃ frame, parseDevinFrame (0x3a :: 0x0c :: largeUsage) = some frame ∧ ¬ NoOverflow frame := by
  have hzero : parseDevinFrame [0x00, 0x01] = some {} := by
    unfold parseDevinFrame
    rw [protoFields_end rfl]
    rfl
  refine ⟨⟨hzero, fun hformed => ?_⟩, ?_⟩
  · exact ((wellFormed_iff hzero).mp hformed).1 ⟨[], [], [0x00, 0x01], rfl, .nil, List.cons_ne_nil _ _, rfl⟩
  · have husage : parseUsage largeUsage = some { promptTokens := 2 ^ 63 - 1, cachedTokens := 1 } := by
      unfold parseUsage largeUsage
      rw [protoFields_cons (by rfl) (by rfl), protoFields_cons (by rfl) (by rfl), protoFields_end (by rfl)]
      decide
    refine ⟨{ usage := some { promptTokens := 2 ^ 63 - 1, cachedTokens := 1 } }, ?_, ?_⟩
    · unfold parseDevinFrame
      rw [protoFields_cons (by rfl) (by rfl), protoFields_end (by rfl)]
      show (parseUsage largeUsage).map _ >>= _ = _
      rw [husage]
      rfl
    · intro hfits
      have := hfits (2 ^ 63 - 1) 1 rfl
      rw [i64_eq_self_iff] at this
      omega

end OpenProxy.Devin
