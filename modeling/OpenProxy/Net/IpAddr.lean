import OpenProxy.Text.Basic

/-!
# Internet addresses

What the standard library reads as an address of version 4 or 6, alone or with a port, how it writes an address of version
6, and the ranges of addresses that are written with the length of their prefix.  A reader takes what it recognises from
the beginning of a text and returns the rest.
-/

namespace OpenProxy.Net

/-- `char::to_digit`. -/
def toDigit (radix : Nat) (c : Char) : Option Nat :=
  let value :=
    if c.isDigit then some (c.toNat - '0'.toNat)
    else if c.isLower then some (c.toNat - 'a'.toNat + 10)
    else if c.isUpper then some (c.toNat - 'A'.toNat + 10)
    else none
  value.filter (· < radix)

/-- `read_number`: all the digits there are, if they are not too many and their value is at most `bound`. -/
def readNumber (radix maxDigits bound : Nat) (allowZeroPrefix : Bool) (s : Text) : Option (Nat × Text) :=
  let digits := s.takeWhile fun c => (toDigit radix c).isSome
  let value := digits.foldl (fun n c => radix * n + (toDigit radix c).getD 0) 0
  if digits.length > maxDigits ∨ digits = [] ∨ (!allowZeroPrefix && s.head? == some '0' && decide (digits.length > 1)) ∨
      value > bound then none
  else some (value, s.drop digits.length)

/-- `read_separator`: what `inner` reads, after a separator unless it is the first item. -/
def readSeparator {α : Type} (sep : Char) (first : Bool) (inner : Text → Option (α × Text)) (s : Text) :
    Option (α × Text) :=
  if first then inner s
  else
    match s with
    | c :: rest => if c = sep then inner rest else none
    | [] => none

/-- Some octets of an address of version 4. -/
def readOctets (first : Bool) : Nat → Text → Option (List Nat × Text)
  | 0, s => some ([], s)
  | n + 1, s =>
    (readSeparator '.' first (readNumber 10 3 255 false) s).bind fun (octet, rest) =>
      (readOctets false n rest).map fun (octets, rest) => (octet :: octets, rest)

/-- `read_ipv4_addr`. -/
def readIpv4Addr (s : Text) : Option (List Nat × Text) := readOctets true 4 s

/-- `read_groups`: at most so many groups of an address of version 6, the last two of which may be written as an
address of version 4; whether they were, and the rest of the text. -/
def readGroups (first : Bool) : Nat → Text → List Nat × Bool × Text
  | 0, s => ([], false, s)
  | left + 1, s =>
    match if 0 < left then readSeparator ':' first readIpv4Addr s else none with
    | some (octets, rest) =>
      ([256 * octets.getD 0 0 + octets.getD 1 0, 256 * octets.getD 2 0 + octets.getD 3 0], true, rest)
    | none =>
      match readSeparator ':' first (readNumber 16 4 0xffff true) s with
      | none => ([], false, s)
      | some (group, rest) =>
        let (groups, ipv4, rest) := readGroups false left rest
        (group :: groups, ipv4, rest)

/-- `read_ipv6_addr`: the eight segments. -/
def readIpv6Addr (s : Text) : Option (List Nat × Text) :=
  let (head, headIpv4, rest) := readGroups true 8 s
  if head.length = 8 then some (head, rest)
  else if headIpv4 then none
  else
    match rest with
    | ':' :: ':' :: rest =>
      let (tail, _, rest) := readGroups true (8 - (head.length + 1)) rest
      some (head ++ List.replicate (8 - head.length - tail.length) 0 ++ tail, rest)
    | _ => none

/-- `str::parse::<Ipv4Addr>`. -/
def parseIpv4Addr (s : Text) : Option (List Nat) :=
  if 15 < s.length then none
  else (readIpv4Addr s).bind fun (octets, rest) => if rest = [] then some octets else none

/-- `str::parse::<Ipv6Addr>`. -/
def parseIpv6Addr (s : Text) : Option (List Nat) :=
  (readIpv6Addr s).bind fun (segments, rest) => if rest = [] then some segments else none

/-- A number in hexadecimal. -/
def hex (n : Nat) : Text := Nat.toDigits 16 n

/-- A number in hexadecimal, padded with zeros to four digits. -/
def hexPadded (n : Nat) : Text := (hex n).leftpad 4 '0'

/-- The texts with a colon between them. -/
def joinColon (parts : List Text) : Text := [':'].intercalate parts

/-- The first of the longest runs of zero segments, as its start and its length, after the segments before index `i`. -/
def longestZeroes : Nat → Nat × Nat → Nat × Nat → List Nat → Nat × Nat
  | _, longest, _, [] => longest
  | i, longest, current, segment :: segments =>
    if segment = 0 then
      let current := if current.2 = 0 then (i, 1) else (current.1, current.2 + 1)
      longestZeroes (i + 1) (if current.2 > longest.2 then current else longest) current segments
    else longestZeroes (i + 1) longest (0, 0) segments

/-- `Ipv6Addr::to_string`. -/
def ipv6ToString (segments : List Nat) : Text :=
  match segments with
  | [0, 0, 0, 0, 0, 0xffff, a, b] =>
    "::ffff:".toList ++ ['.'].intercalate ([a / 256, a % 256, b / 256, b % 256].map (Nat.toDigits 10))
  | _ =>
    let zeroes := longestZeroes 0 (0, 0) (0, 0) segments
    if zeroes.2 > 1 then
      joinColon ((segments.take zeroes.1).map hex) ++ "::".toList ++
        joinColon ((segments.drop (zeroes.1 + zeroes.2)).map hex)
    else joinColon (segments.map hex)

example : (parseIpv6Addr "fd00:10:240::12".toList).map ipv6ToString = some "fd00:10:240::12".toList := by decide

example : parseIpv6Addr "::ffff:10.0.0.1".toList = some [0, 0, 0, 0, 0, 0xffff, 0xa00, 1] := by decide

example : parseIpv4Addr "10.240.0.1".toList = some [10, 240, 0, 1] ∧ parseIpv4Addr "10.240.0.01".toList = none := by decide

/-! ### Addresses of either version -/

/-- `std::net::IpAddr`, each version as the number of its bits. -/
inductive IpAddr
  | v4 (bits : BitVec 32)
  | v6 (bits : BitVec 128)
  deriving DecidableEq, Repr

/-- `Ipv4Addr::from` on octets. -/
def ofOctets (octets : List Nat) : IpAddr := .v4 (BitVec.ofNat 32 (octets.foldl (fun n octet => 256 * n + octet) 0))

/-- `Ipv6Addr::from` on segments. -/
def ofSegments (segments : List Nat) : IpAddr :=
  .v6 (BitVec.ofNat 128 (segments.foldl (fun n segment => 65536 * n + segment) 0))

/-- `parse_with`: what is read has to be the whole text. -/
def parseWith {α : Type} (read : Text → Option (α × Text)) (s : Text) : Option α :=
  (read s).bind fun (value, rest) => if rest = [] then some value else none

/-- `read_ip_addr`. -/
def readIpAddr (s : Text) : Option (IpAddr × Text) :=
  ((readIpv4Addr s).map fun (octets, rest) => (ofOctets octets, rest)).or
    ((readIpv6Addr s).map fun (segments, rest) => (ofSegments segments, rest))

/-- `str::parse::<IpAddr>`. -/
def parseIpAddr (s : Text) : Option IpAddr := parseWith readIpAddr s

/-- `read_given_char`. -/
def readGivenChar (c : Char) (s : Text) : Option Text :=
  match s with
  | d :: rest => if d = c then some rest else none
  | [] => none

/-- A decimal number of any number of digits. -/
def readDecimal (bound : Nat) (s : Text) : Option (Nat × Text) := readNumber 10 s.length bound true s

/-- `read_port`. -/
def readPort (s : Text) : Option (Nat × Text) := (readGivenChar ':' s).bind (readDecimal 65535)

/-- `read_scope_id`. -/
def readScopeId (s : Text) : Option (Nat × Text) := (readGivenChar '%' s).bind (readDecimal (2 ^ 32 - 1))

/-- `SocketAddr`, without the scope of an address of version 6. -/
structure SocketAddr where
  ip : IpAddr
  port : Nat
  deriving DecidableEq, Repr

/-- `read_socket_addr_v4`. -/
def readSocketAddrV4 (s : Text) : Option (SocketAddr × Text) :=
  (readIpv4Addr s).bind fun (octets, rest) => (readPort rest).map fun (port, rest) => (⟨ofOctets octets, port⟩, rest)

/-- `read_socket_addr_v6`. -/
def readSocketAddrV6 (s : Text) : Option (SocketAddr × Text) :=
  (readGivenChar '[' s).bind fun s =>
    (readIpv6Addr s).bind fun (segments, rest) =>
      let rest := ((readScopeId rest).map (·.2)).getD rest
      (readGivenChar ']' rest).bind fun rest =>
        (readPort rest).map fun (port, rest) => (⟨ofSegments segments, port⟩, rest)

/-- `str::parse::<SocketAddr>`. -/
def parseSocketAddr (s : Text) : Option SocketAddr := parseWith (fun s => (readSocketAddrV4 s).or (readSocketAddrV6 s)) s

/-- `str::parse::<u8>`: decimal digits after an optional sign. -/
def parseU8 (s : Text) : Option Nat :=
  let digits := match s with | '+' :: rest => rest | s => s
  parseWith (readDecimal 255) digits

/-- `is_ip_in_cidr`. -/
def isIpInCidr (ip : IpAddr) (cidr : Text) : Bool :=
  let cidr := trim cidr
  match splitOnce '/' cidr with
  | none => parseIpAddr cidr == some ip
  | some (netStr, prefixStr) =>
    match parseU8 prefixStr with
    | none => false
    | some prefixLen =>
      match ip, parseIpAddr netStr with
      | .v4 ip4, some (.v4 net4) =>
        if prefixLen ≤ 32 then
          let mask := if prefixLen = 0 then 0 else BitVec.allOnes 32 <<< (32 - prefixLen)
          ip4 &&& mask == net4 &&& mask
        else false
      | .v6 ip6, some (.v6 net6) =>
        if prefixLen ≤ 128 then
          let mask := if prefixLen = 0 then 0 else BitVec.allOnes 128 <<< (128 - prefixLen)
          ip6 &&& mask == net6 &&& mask
        else false
      | _, _ => false

/-- `is_trusted_proxy`. -/
def isTrustedProxy (ip : IpAddr) (trustedProxies : List Text) : Bool := trustedProxies.any (isIpInCidr ip)

example : isTrustedProxy (ofOctets [172, 20, 3, 4]) ["10.0.0.0/8".toList, " 172.16.0.0/12".toList] = true := by decide

end OpenProxy.Net
