import OpenProxy.Data.Encoding
import OpenProxy.Net.IpAddr

/-!
# The address of a client

`resolve_client_ip` takes the address from the headers of a request when the peer is a trusted proxy.  The proxy appends
the address of the client to `X-Forwarded-For`, as the last entry of the last line or as a line of its own.  That address
is the one that is found when it stands on the first line and the line is plain ASCII; in every other case what is found
is decided by the lines of the client alone (`client_cannot_choose_iff`).
-/

namespace OpenProxy.Net

/-- `HeaderMap`: the lines of the headers in the order in which they were received, the names in small letters. -/
abbrev HeaderMap := List (Text × Bytes)

namespace HeaderMap

/-- `HeaderMap::get_all`. -/
def getAll (headers : HeaderMap) (name : Text) : List Bytes := (headers.filter fun h => h.1 == name).map (·.2)

/-- `HeaderMap::get`: the first line. -/
def get (headers : HeaderMap) (name : Text) : Option Bytes := (headers.getAll name).head?

end HeaderMap

/-- A visible character of ASCII, or a tab. -/
def isVisibleAscii (b : UInt8) : Bool := (32 ≤ b && b < 127) || b == 9

/-- `HeaderValue::to_str`. -/
def toStr (value : Bytes) : Option Text :=
  if value.all isVisibleAscii then some (value.map fun b => Char.ofNat b.toNat) else none

/-- `str::trim_matches`. -/
def trimMatches (c : Char) (s : Text) : Text := ((s.dropWhile (· == c)).reverse.dropWhile (· == c)).reverse

/-- `parse_ip_or_bracketed`. -/
def parseIpOrBracketed (val : Text) : Option IpAddr :=
  let val := trimMatches '"' (trim val)
  if val.isEmpty then none
  else
    match (stripPrefix ['['] val).bind (splitOnce ']') with
    | some (ipv6Str, _) => parseIpAddr ipv6Str
    | none =>
      match parseSocketAddr val with
      | some socket => some socket.ip
      | none => parseIpAddr val

/-- `rightmost_untrusted`. -/
def rightmostUntrusted (entries : List (Option IpAddr)) (trustedProxies : List Text) : Option IpAddr :=
  entries.reverse.findSome? fun entry => entry.filter fun ip => !isTrustedProxy ip trustedProxies

/-- What an `X-Forwarded-For` line says. -/
def xffAddress (trustedProxies : List Text) (xff : Text) : Option IpAddr :=
  rightmostUntrusted ((xff.splitOn ',').map parseIpOrBracketed) trustedProxies

/-- What a `Forwarded` line says. -/
def forwardedAddress (trustedProxies : List Text) (forwarded : Text) : Option IpAddr :=
  let entries := (forwarded.splitOn ',').filterMap fun part =>
    (part.splitOn ';').findSome? fun pair => (stripPrefix "for=".toList (trim pair)).bind parseIpOrBracketed
  rightmostUntrusted (entries.map some) trustedProxies

def resolveClientIp (headers : HeaderMap) (peerAddr : Option SocketAddr) (trustedProxies : List Text) : Option IpAddr :=
  let peerIp := peerAddr.map (·.ip)
  let isTrusted := peerIp.any fun ip => isTrustedProxy ip trustedProxies
  let fromHeaders :=
    if isTrusted then
      (((headers.get "x-real-ip".toList).bind toStr).bind parseIpOrBracketed).or
        ((((headers.get "x-forwarded-for".toList).bind toStr).bind (xffAddress trustedProxies)).or
          (((headers.get "forwarded".toList).bind toStr).bind (forwardedAddress trustedProxies)))
    else none
  fromHeaders.or peerIp

/-! ### What a proxy appends -/

/-- How a proxy appends the address of its client. -/
inductive Appending
  /-- To the last line, behind a comma and blanks. -/
  | lastEntry (blanks : Bytes)
  /-- As a line of its own. -/
  | newLine

/-- The `X-Forwarded-For` lines after the proxy has appended an entry to those of the client. -/
def Appending.append (how : Appending) (lines : List Bytes) (entry : Bytes) : List Bytes :=
  match how with
  | newLine => lines ++ [entry]
  | lastEntry blanks =>
    match lines.getLast? with
    | none => [entry]
    | some last => lines.dropLast ++ [last ++ 44 :: (blanks ++ entry)]

/-- The bytes are spaces and tabs. -/
def Appending.Blank : Appending → Prop
  | newLine => True
  | lastEntry blanks => ∀ b ∈ blanks, b = 32 ∨ b = 9

/-- A request that a trusted proxy has passed on, with the untrusted address `a` appended to the `X-Forwarded-For` lines of
the client. -/
structure ProxiedRequest (trustedProxies : List Text) (a : IpAddr) where
  peer : SocketAddr
  trusted : isTrustedProxy peer.ip trustedProxies = true
  untrusted : isTrustedProxy a trustedProxies = false
  headers : HeaderMap
  noRealIp : headers.get "x-real-ip".toList = none
  /-- The lines of the client. -/
  lines : List Bytes
  how : Appending
  blank : how.Blank
  /-- The entry of the proxy: one entry, which stands for the address. -/
  entry : Bytes
  entryText : Text
  visible : toStr entry = some entryText
  oneEntry : ',' ∉ entryText
  denotes : parseIpOrBracketed entryText = some a
  xff : headers.getAll "x-forwarded-for".toList = how.append lines entry

namespace ProxiedRequest

variable {trustedProxies : List Text} {a : IpAddr}

def resolved (r : ProxiedRequest trustedProxies a) : Option IpAddr := resolveClientIp r.headers (some r.peer) trustedProxies

/-- The entry of the proxy stands on the first line, and the client has sent nothing there but visible characters. -/
def FirstLine (r : ProxiedRequest trustedProxies a) : Prop :=
  r.lines = [] ∨ (∃ blanks, r.how = .lastEntry blanks) ∧ ∃ line text, r.lines = [line] ∧ toStr line = some text

/-- The lines of the client name the address themselves: the first of its `X-Forwarded-For` lines, or, where that says
nothing, the first `Forwarded` line. -/
def ClientNames (r : ProxiedRequest trustedProxies a) : Prop :=
  (((r.lines.head?.bind toStr).bind (xffAddress trustedProxies)).or
    (((r.headers.get "forwarded".toList).bind toStr).bind (forwardedAddress trustedProxies))) = some a

end ProxiedRequest

/-! ### The entry of the proxy -/

private theorem toStr_eq_some {value : Bytes} {s : Text} :
    toStr value = some s ↔ value.all isVisibleAscii = true ∧ value.map (fun b => Char.ofNat b.toNat) = s := by
  unfold toStr
  split <;> simp_all

theorem toStr_append {v w : Bytes} {s t : Text} (hv : toStr v = some s) (hw : toStr w = some t) :
    toStr (v ++ w) = some (s ++ t) := by
  rw [toStr_eq_some] at hv hw ⊢
  rw [List.all_append, List.map_append, hv.1, hw.1, hv.2, hw.2]
  exact ⟨rfl, rfl⟩

/-- An invisible byte makes the whole line unreadable. -/
theorem toStr_append_eq_none {v : Bytes} (w : Bytes) (hv : toStr v = none) : toStr (v ++ w) = none := by
  unfold toStr at hv ⊢
  split at hv
  · simp at hv
  · rename_i hinvisible
    rw [List.all_append, if_neg]
    intro h
    rw [Bool.and_eq_true] at h
    exact hinvisible h.1

/-- Blanks as text. -/
private theorem toStr_blanks {blanks : Bytes} (h : ∀ b ∈ blanks, b = 32 ∨ b = 9) :
    ∃ text : Text, toStr blanks = some text ∧ text.all isWhitespace = true ∧ ',' ∉ text := by
  refine ⟨blanks.map fun b => Char.ofNat b.toNat, toStr_eq_some.mpr ⟨?_, rfl⟩, ?_, ?_⟩
  · rw [List.all_eq_true]
    intro b hb
    rcases h b hb with rfl | rfl <;> decide
  · rw [List.all_map, List.all_eq_true]
    intro b hb
    rcases h b hb with rfl | rfl <;> decide
  · rw [List.mem_map]
    rintro ⟨b, hb, heq⟩
    rcases h b hb with rfl | rfl <;> exact absurd heq (by decide)

private theorem trim_blanks {blanks s : Text} (h : blanks.all isWhitespace = true) : trim (blanks ++ s) = trim s := by
  unfold trim
  rw [List.dropWhile_append_of_pos (List.all_eq_true.mp h)]

/-- The last entry of a line, when it is untrusted. -/
theorem xffAddress_append {trustedProxies : List Text} {a : IpAddr} (s : Text) {entry : Text} (hone : ',' ∉ entry)
    (hdenotes : parseIpOrBracketed entry = some a) (huntrusted : isTrustedProxy a trustedProxies = false) :
    xffAddress trustedProxies (s ++ ',' :: entry) = some a := by
  unfold xffAddress rightmostUntrusted
  rw [List.splitOn_append_cons_self, List.splitOn_eq_singleton hone, List.map_append, List.reverse_append]
  simp [hdenotes, huntrusted, Option.filter]

theorem xffAddress_single {trustedProxies : List Text} {a : IpAddr} {entry : Text} (hone : ',' ∉ entry)
    (hdenotes : parseIpOrBracketed entry = some a) (huntrusted : isTrustedProxy a trustedProxies = false) :
    xffAddress trustedProxies entry = some a := by
  unfold xffAddress rightmostUntrusted
  rw [List.splitOn_eq_singleton hone]
  simp [hdenotes, huntrusted, Option.filter]

namespace ProxiedRequest

variable {trustedProxies : List Text} {a : IpAddr}

/-- What is found is what the first `X-Forwarded-For` line or else the first `Forwarded` line says. -/
theorem resolved_eq (r : ProxiedRequest trustedProxies a) :
    r.resolved = ((((r.how.append r.lines r.entry).head?.bind toStr).bind (xffAddress trustedProxies)).or
      (((r.headers.get "forwarded".toList).bind toStr).bind (forwardedAddress trustedProxies))).or (some r.peer.ip) := by
  unfold resolved resolveClientIp
  simp only [Option.map_some, Option.any_some, r.trusted, ↓reduceIte, r.noRealIp, Option.bind_none, Option.none_or]
  rw [HeaderMap.get, r.xff]

/-- The peer is trusted and the address is not, so that the peer is not taken for it. -/
private theorem or_peer (r : ProxiedRequest trustedProxies a) (found : Option IpAddr) :
    found.or (some r.peer.ip) = some a ↔ found = some a := by
  cases found with
  | some ip => rfl
  | none =>
    simp only [Option.none_or, Option.some.injEq, reduceCtorEq, iff_false]
    intro heq
    have := r.trusted
    rw [heq, r.untrusted] at this
    exact absurd this (by simp)

/-- On the first line the entry of the proxy is found. -/
theorem resolved_of_firstLine (r : ProxiedRequest trustedProxies a) (h : r.FirstLine) : r.resolved = some a := by
  rw [r.resolved_eq, r.or_peer]
  have hfound : ((r.how.append r.lines r.entry).head?.bind toStr).bind (xffAddress trustedProxies) = some a := by
    rcases h with hnil | ⟨⟨blanks, hhow⟩, line, text, hline, htext⟩
    · have hhead : (r.how.append r.lines r.entry).head? = some r.entry := by
        rw [hnil]
        cases r.how <;> rfl
      rw [hhead, Option.bind_some, r.visible, Option.bind_some]
      exact xffAddress_single r.oneEntry r.denotes r.untrusted
    · have hblank := r.blank
      rw [hhow] at hblank ⊢
      obtain ⟨spaces, hspaces, hwhite, hcomma⟩ := toStr_blanks hblank
      have hcommaByte : toStr [44] = some [','] := rfl
      have hall := toStr_append htext (toStr_append hcommaByte (toStr_append hspaces r.visible))
      have hdenotes : parseIpOrBracketed (spaces ++ r.entryText) = some a := by
        have := r.denotes
        unfold parseIpOrBracketed at this ⊢
        rwa [trim_blanks hwhite]
      rw [hline]
      show ((some (line ++ 44 :: (blanks ++ r.entry))).bind toStr).bind (xffAddress trustedProxies) = some a
      rw [Option.bind_some]
      rw [List.singleton_append] at hall
      rw [hall, Option.bind_some, List.singleton_append]
      exact xffAddress_append text (by simp [hcomma, r.oneEntry]) hdenotes r.untrusted
  rw [hfound]
  rfl

/-- Elsewhere the entry of the proxy plays no part. -/
theorem resolved_of_not_firstLine (r : ProxiedRequest trustedProxies a) (h : ¬ r.FirstLine) :
    (r.how.append r.lines r.entry).head?.bind toStr = r.lines.head?.bind toStr := by
  unfold FirstLine at h
  rw [not_or] at h
  obtain ⟨hne, hfirst⟩ := h
  cases hhow : r.how with
  | newLine =>
    cases hlines : r.lines with
    | nil => exact absurd hlines hne
    | cons line lines => rfl
  | lastEntry blanks =>
    cases hlines : r.lines with
    | nil => exact absurd hlines hne
    | cons line lines =>
      cases lines with
      | cons line' lines =>
        unfold Appending.append
        simp only [List.getLast?_cons_cons]
        cases hlast : (line' :: lines).getLast? with
        | none => simp at hlast
        | some last => simp [List.dropLast_cons_cons]
      | nil =>
        have hinvisible : toStr line = none := by
          cases htext : toStr line with
          | none => rfl
          | some text => exact absurd ⟨⟨blanks, hhow⟩, line, text, hlines, htext⟩ hfirst
        show (some (line ++ 44 :: (blanks ++ r.entry))).bind toStr = (some line).bind toStr
        rw [Option.bind_some, Option.bind_some, hinvisible]
        exact toStr_append_eq_none _ hinvisible

/-- The address that the proxy has appended is found exactly when it stands on the first line, and that line is readable,
or when the client itself names it. -/
theorem resolved_iff (r : ProxiedRequest trustedProxies a) : r.resolved = some a ↔ r.FirstLine ∨ r.ClientNames := by
  by_cases hfirst : r.FirstLine
  · exact iff_of_true (r.resolved_of_firstLine hfirst) (Or.inl hfirst)
  · rw [r.resolved_eq, r.or_peer, r.resolved_of_not_firstLine hfirst]
    simp only [hfirst, false_or]
    rfl

end ProxiedRequest

/-- Two requests with whatever lines of the client are both resolved to the address that the trusted proxy has appended
exactly when, in both, the proxy's entry is on the first line and that line is readable, or the client names the address
itself.  A peer that is not trusted is taken for the client, whatever the headers. -/
theorem client_cannot_choose_iff (trustedProxies : List Text) (a : IpAddr) :
    (∀ r r' : ProxiedRequest trustedProxies a, (r.resolved = some a ∧ r'.resolved = some a) ↔
      (r.FirstLine ∨ r.ClientNames) ∧ (r'.FirstLine ∨ r'.ClientNames)) ∧
    ∀ (headers : HeaderMap) (peer : SocketAddr), isTrustedProxy peer.ip trustedProxies = false →
      resolveClientIp headers (some peer) trustedProxies = some peer.ip := by
  constructor
  · intro r r'
    rw [r.resolved_iff, r'.resolved_iff]
  · intro headers peer huntrusted
    simp [resolveClientIp, huntrusted]

/-! ### Clients that choose -/

/-- The bytes of an ASCII text. -/
def asciiBytes (s : Text) : Bytes := s.map fun c => c.toNat.toUInt8

/-- 198.51.100.42. -/
def realClient : IpAddr := ofOctets [198, 51, 100, 42]

/-- The proxy adds a line to that of the client. -/
def addedLineRequest : ProxiedRequest ["127.0.0.0/8".toList] realClient where
  peer := ⟨ofOctets [127, 0, 0, 1], 8787⟩
  trusted := by decide
  untrusted := by decide
  headers := [("x-forwarded-for".toList, asciiBytes "1.2.3.4".toList),
    ("x-forwarded-for".toList, asciiBytes "198.51.100.42".toList)]
  noRealIp := by decide
  lines := [asciiBytes "1.2.3.4".toList]
  how := .newLine
  blank := trivial
  entry := asciiBytes "198.51.100.42".toList
  entryText := "198.51.100.42".toList
  visible := by decide
  oneEntry := by decide
  denotes := by decide
  xff := by decide

/-- The line of the client has a byte that is not ASCII, and the proxy appends its entry to it. -/
def unreadableLineRequest : ProxiedRequest ["127.0.0.0/8".toList] realClient where
  peer := ⟨ofOctets [127, 0, 0, 1], 8787⟩
  trusted := by decide
  untrusted := by decide
  headers := [("x-forwarded-for".toList, 0xe9 :: asciiBytes ", 198.51.100.42".toList),
    ("forwarded".toList, asciiBytes "for=1.2.3.4".toList)]
  noRealIp := by decide
  lines := [[0xe9]]
  how := .lastEntry [32]
  blank := by simp [Appending.Blank]
  entry := asciiBytes "198.51.100.42".toList
  entryText := "198.51.100.42".toList
  visible := by decide
  oneEntry := by decide
  denotes := by decide
  xff := by decide

/-- In both requests the client is taken for 1.2.3.4. -/
theorem client_chooses :
    addedLineRequest.resolved = some (ofOctets [1, 2, 3, 4]) ∧
      unreadableLineRequest.resolved = some (ofOctets [1, 2, 3, 4]) ∧
      ¬ ∀ r r' : ProxiedRequest ["127.0.0.0/8".toList] realClient,
        r.resolved = some realClient ∧ r'.resolved = some realClient := by
  have hadded : addedLineRequest.resolved = some (ofOctets [1, 2, 3, 4]) := by decide
  refine ⟨hadded, by decide, ?_⟩
  intro h
  have := (h addedLineRequest unreadableLineRequest).1
  rw [hadded] at this
  exact absurd this (by decide)

end OpenProxy.Net
