import OpenProxy.Data.JsonText

/-!
# Bytes

Byte sequences and the search for a byte in them; big-endian numbers and UTF-8, each with its writer and its reader, and
that what was written is read back; and base64 with the alphabet for URLs, whose reader takes what was written only.
-/

namespace OpenProxy

/-- `bytes::Bytes`. -/
abbrev Bytes := List UInt8

/-- `memchr::memchr`: the offset of the first occurrence. -/
def memchr (b : UInt8) (s : Bytes) : Option Nat := s.findIdx? (· == b)

theorem memchr_eq_none {b : UInt8} {s : Bytes} : memchr b s = none ↔ b ∉ s := by
  unfold memchr
  rw [List.findIdx?_eq_none_iff]
  constructor
  · intro h hb
    have := h b hb
    simp at this
  · intro h x hx
    rw [beq_eq_false_iff_ne]
    rintro rfl
    exact h hx

/-- The byte stands between the bytes before it, none of which is equal to it, and those after it. -/
theorem memchr_eq_some {b : UInt8} {s : Bytes} {n : Nat} :
    memchr b s = some n ↔ s = s.take n ++ b :: s.drop (n + 1) ∧ n < s.length ∧ b ∉ s.take n := by
  unfold memchr
  rw [List.findIdx?_eq_some_iff_getElem]
  constructor
  · rintro ⟨hn, hb, hbefore⟩
    rw [beq_iff_eq] at hb
    refine ⟨?_, hn, ?_⟩
    · rw [← hb, ← List.drop_eq_getElem_cons hn, List.take_append_drop]
    · intro hmem
      obtain ⟨m, hm, hget⟩ := List.getElem_of_mem hmem
      rw [List.length_take] at hm
      rw [List.getElem_take] at hget
      have := hbefore m (by omega)
      rw [hget] at this
      simp at this
  · rintro ⟨hs, hn, hbefore⟩
    refine ⟨hn, ?_, ?_⟩
    · have hget := congrArg (fun l => l[n]?) hs
      have hlen : (s.take n).length = n := by rw [List.length_take]; omega
      rw [beq_iff_eq]
      simpa [List.getElem?_append_right, hlen, List.getElem?_eq_getElem hn] using hget
    · intro m hm hb
      rw [beq_iff_eq] at hb
      refine hbefore ?_
      rw [← hb]
      have hm' : m < (s.take n).length := by rw [List.length_take]; omega
      have := List.getElem_mem hm'
      rwa [List.getElem_take] at this

/-! ### Big-endian numbers -/

/-- The last `w` bytes of a number, the most significant one first. -/
def toBeBytes : Nat → Nat → Bytes
  | 0, _ => []
  | w + 1, n => toBeBytes w (n / 256) ++ [UInt8.ofNat (n % 256)]

/-- `from_be_bytes`. -/
def fromBeBytes (b : Bytes) : Nat := b.foldl (fun n x => n * 256 + x.toNat) 0

@[simp] theorem length_toBeBytes (w n : Nat) : (toBeBytes w n).length = w := by
  induction w generalizing n with
  | zero => rfl
  | succ w ih => rw [toBeBytes, List.length_append, ih, List.length_singleton]

theorem fromBeBytes_lt (b : Bytes) : fromBeBytes b < 256 ^ b.length := by
  induction b using List.reverseRecOn with
  | nil => simp [fromBeBytes]
  | append_singleton b x ih =>
    unfold fromBeBytes at ih ⊢
    rw [List.foldl_append, List.foldl_cons, List.foldl_nil, List.length_append, List.length_singleton, Nat.pow_succ]
    have := x.toNat_lt
    omega

theorem fromBeBytes_toBeBytes {w n : Nat} (h : n < 256 ^ w) : fromBeBytes (toBeBytes w n) = n := by
  induction w generalizing n with
  | zero =>
    rw [Nat.pow_zero] at h
    have hn : n = 0 := by omega
    rw [hn]
    rfl
  | succ w ih =>
    rw [Nat.pow_succ] at h
    have hrec := ih (show n / 256 < 256 ^ w by omega)
    unfold fromBeBytes at hrec ⊢
    have hbyte : (UInt8.ofNat (n % 256)).toNat = n % 256 := by
      rw [UInt8.toNat_ofNat']
      omega
    rw [toBeBytes, List.foldl_append, hrec, List.foldl_cons, List.foldl_nil, hbyte]
    omega

/-! ### UTF-8 -/

/-- `as_bytes`. -/
def asBytes (t : Text) : Bytes := t.flatMap String.utf8EncodeChar

/-- `std::str::from_utf8`. -/
def fromUtf8 (b : Bytes) : Option Text := b.toByteArray.utf8Decode?.map Array.toList

@[simp] theorem fromUtf8_asBytes (t : Text) : fromUtf8 (asBytes t) = some t := by
  have h : (asBytes t).toByteArray = t.utf8Encode := rfl
  rw [fromUtf8, h, List.utf8Decode?_utf8Encode, Option.map_some]

/-- A byte that continues a character. -/
def isContinuation (b : UInt8) : Bool := 0x80 ≤ b && b ≤ 0xbf

/-- The second byte of a character whose first byte is `b`. -/
def isSecond (b second : UInt8) : Bool :=
  if b = 0xe0 then 0xa0 ≤ second && second ≤ 0xbf
  else if b = 0xed then 0x80 ≤ second && second ≤ 0x9f
  else if b = 0xf0 then 0x90 ≤ second && second ≤ 0xbf
  else if b = 0xf4 then 0x80 ≤ second && second ≤ 0x8f
  else isContinuation second

/-- The character that begins with `b`, and how many of the next bytes belong to it.  What is not a character is replaced:
the longest beginning of a character, or one byte. -/
def lossyChar (b : UInt8) (bytes : Bytes) : Char × Nat :=
  let next (i : Nat) : UInt8 := bytes.getD i 0
  let low (i : Nat) : Nat := (next i).toNat % 64
  if b < 0x80 then (Char.ofNat b.toNat, 0)
  else if 0xc2 ≤ b ∧ b ≤ 0xdf then
    if !isSecond b (next 0) then ('\ufffd', 0)
    else (Char.ofNat (b.toNat % 32 * 64 + low 0), 1)
  else if 0xe0 ≤ b ∧ b ≤ 0xef then
    if !isSecond b (next 0) then ('\ufffd', 0)
    else if !isContinuation (next 1) then ('\ufffd', 1)
    else (Char.ofNat (b.toNat % 16 * 4096 + low 0 * 64 + low 1), 2)
  else if 0xf0 ≤ b ∧ b ≤ 0xf4 then
    if !isSecond b (next 0) then ('\ufffd', 0)
    else if !isContinuation (next 1) then ('\ufffd', 1)
    else if !isContinuation (next 2) then ('\ufffd', 2)
    else (Char.ofNat (b.toNat % 8 * 262144 + low 0 * 4096 + low 1 * 64 + low 2), 3)
  else ('\ufffd', 0)

/-- `String::from_utf8_lossy`. -/
def fromUtf8Lossy : Bytes → Text
  | [] => []
  | b :: bytes => (lossyChar b bytes).1 :: fromUtf8Lossy (bytes.drop (lossyChar b bytes).2)
termination_by bytes => bytes.length
decreasing_by
  rw [List.length_drop, List.length_cons]
  omega

/-- `serde_json::from_slice::<Value>`. -/
def fromSlice (b : Bytes) : Option Json := (fromUtf8 b).bind fromStr

/-! ### Base64 -/

/-- A character of the alphabet for URLs. -/
def base64Char (d : Nat) : Char :=
  if d < 26 then Char.ofNat (65 + d)
  else if d < 52 then Char.ofNat (71 + d)
  else if d < 62 then Char.ofNat (d - 4)
  else if d = 62 then '-'
  else '_'

/-- `URL_SAFE_NO_PAD.encode`. -/
def encodeBase64 : Bytes → Text
  | [] => []
  | [a] => [base64Char (a.toNat / 4), base64Char (a.toNat % 4 * 16)]
  | [a, b] =>
    [base64Char (a.toNat / 4), base64Char (a.toNat % 4 * 16 + b.toNat / 16), base64Char (b.toNat % 16 * 4)]
  | a :: b :: c :: bytes =>
    base64Char (a.toNat / 4) :: base64Char (a.toNat % 4 * 16 + b.toNat / 16) ::
      base64Char (b.toNat % 16 * 4 + c.toNat / 64) :: base64Char (c.toNat % 64) :: encodeBase64 bytes

/-- The value of a character of the alphabet. -/
def base64Value (c : Char) : Option Nat :=
  if 'A' ≤ c ∧ c ≤ 'Z' then some (c.toNat - 65)
  else if 'a' ≤ c ∧ c ≤ 'z' then some (c.toNat - 71)
  else if '0' ≤ c ∧ c ≤ '9' then some (c.toNat + 4)
  else if c = '-' then some 62
  else if c = '_' then some 63
  else none

/-- `URL_SAFE_NO_PAD.decode`: there is no padding, and the bits behind the last byte are zero. -/
def decodeBase64 : Text → Option Bytes
  | [] => some []
  | [_] => none
  | [w, x] => do
    let w ← base64Value w
    let x ← base64Value x
    if x % 16 = 0 then some [UInt8.ofNat (w * 4 + x / 16)] else none
  | [w, x, y] => do
    let w ← base64Value w
    let x ← base64Value x
    let y ← base64Value y
    if y % 4 = 0 then some [UInt8.ofNat (w * 4 + x / 16), UInt8.ofNat (x % 16 * 16 + y / 4)] else none
  | w :: x :: y :: z :: text => do
    let w ← base64Value w
    let x ← base64Value x
    let y ← base64Value y
    let z ← base64Value z
    let bytes ← decodeBase64 text
    some (UInt8.ofNat (w * 4 + x / 16) :: UInt8.ofNat (x % 16 * 16 + y / 4) :: UInt8.ofNat (y % 4 * 64 + z) :: bytes)

theorem base64Value_base64Char : ∀ d < 64, base64Value (base64Char d) = some d := by
  decide

theorem base64Char_isAlphanum : ∀ d < 64, (base64Char d).isAlphanum ∨ base64Char d = '_' ∨ base64Char d = '-' := by
  decide

private theorem ofNat_eq_of_toNat {n : Nat} (a : UInt8) (h : n = a.toNat) : UInt8.ofNat n = a := by
  rw [h, UInt8.ofNat_toNat]

/-- What was written is read back. -/
theorem decodeBase64_encodeBase64 (bytes : Bytes) : decodeBase64 (encodeBase64 bytes) = some bytes := by
  induction bytes using encodeBase64.induct with
  | case1 => rfl
  | case2 a =>
    have ha := a.toNat_lt
    simp only [encodeBase64, decodeBase64]
    rw [base64Value_base64Char _ (by omega), base64Value_base64Char _ (by omega)]
    simp only [Option.bind_eq_bind, Option.bind_some]
    rw [if_pos (by omega), ofNat_eq_of_toNat a (by omega)]
  | case3 a b =>
    have ha := a.toNat_lt
    have hb := b.toNat_lt
    simp only [encodeBase64, decodeBase64]
    rw [base64Value_base64Char _ (by omega), base64Value_base64Char _ (by omega), base64Value_base64Char _ (by omega)]
    simp only [Option.bind_eq_bind, Option.bind_some]
    rw [if_pos (by omega), ofNat_eq_of_toNat a (by omega), ofNat_eq_of_toNat b (by omega)]
  | case4 a b c bytes ih =>
    have ha := a.toNat_lt
    have hb := b.toNat_lt
    have hc := c.toNat_lt
    simp only [encodeBase64, decodeBase64]
    rw [base64Value_base64Char _ (by omega), base64Value_base64Char _ (by omega), base64Value_base64Char _ (by omega),
      base64Value_base64Char _ (by omega), ih]
    simp only [Option.bind_eq_bind, Option.bind_some]
    rw [ofNat_eq_of_toNat a (by omega), ofNat_eq_of_toNat b (by omega), ofNat_eq_of_toNat c (by omega)]

/-- Each character of the text is one of the alphabet. -/
theorem exists_base64Char_of_mem {bytes : Bytes} {c : Char} (h : c ∈ encodeBase64 bytes) :
    ∃ d < 64, c = base64Char d := by
  induction bytes using encodeBase64.induct with
  | case1 => cases h
  | case2 a =>
    have ha := a.toNat_lt
    rw [encodeBase64, List.mem_pair] at h
    rcases h with rfl | rfl
    · exact ⟨_, by omega, rfl⟩
    · exact ⟨_, by omega, rfl⟩
  | case3 a b =>
    have ha := a.toNat_lt
    have hb := b.toNat_lt
    rw [encodeBase64, List.mem_cons, List.mem_pair] at h
    rcases h with rfl | rfl | rfl
    · exact ⟨_, by omega, rfl⟩
    · exact ⟨_, by omega, rfl⟩
    · exact ⟨_, by omega, rfl⟩
  | case4 a b c' bytes ih =>
    have ha := a.toNat_lt
    have hb := b.toNat_lt
    have hc := c'.toNat_lt
    rw [encodeBase64, List.mem_cons, List.mem_cons, List.mem_cons, List.mem_cons] at h
    rcases h with rfl | rfl | rfl | rfl | h
    · exact ⟨_, by omega, rfl⟩
    · exact ⟨_, by omega, rfl⟩
    · exact ⟨_, by omega, rfl⟩
    · exact ⟨_, by omega, rfl⟩
    · exact ih h

end OpenProxy
