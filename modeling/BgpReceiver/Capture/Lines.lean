import BgpReceiver.Framework.Fields
import BgpReceiver.Framework.Pattern
import BgpReceiver.Framework.Text
import BgpReceiver.Json
import BgpReceiver.Wire.Basic

/-!
# Reading the output of tcpdump

What `capture.rs` does with a line that `tcpdump` prints. A line that the regular
expression matches begins a packet, with the addresses, the flags and the length; the lines
behind it that begin with an offset hold the octets of the packet, as words of hexadecimal
digits. A packet is reported when the next one begins, or at the end (`report`).

Which characters are decimal digits is a parameter, since the engine of the regular
expression goes by the tables of Unicode.
-/

namespace Capture

open Pattern (seq alt symbol many group)

/-! ### The regular expression -/

/-- The letters of a text, one after the other. -/
def lit (s : String) : Pattern Char := s.toList.foldr (fun c r => seq (symbol (· = c)) r) .empty

/-- One or more characters of a set. -/
def some' (greedy : Bool) (p : Char → Bool) : Pattern Char := seq (symbol p) (many greedy p)

/-- Patterns one after the other. -/
def chain (rs : List (Pattern Char)) : Pattern Char := rs.foldr seq .empty

variable (digit : Char → Bool)

/-- The time and the interface. -/
def timePattern : Pattern Char :=
  chain [symbol digit, symbol digit, lit ":", symbol digit, symbol digit, lit ":", symbol digit,
    symbol digit, lit ".", some' true digit, some' false (· ≠ '\n'), symbol Text.isWhitespace]

/-- The direction of the packet at its interface. -/
def directionPattern : Pattern Char := group 1 (alt (lit "In") (lit "Out"))

/-- An address and a port. -/
def endPattern (n : ℕ) : Pattern Char :=
  chain [group n (some' true fun c => digit c || c = '.'), lit ".",
    group (n + 1) (some' true digit)]

/-- What is behind the direction and its space. -/
def packetPattern : Pattern Char :=
  chain [lit "IP", symbol Text.isWhitespace, endPattern digit 2, some' true Text.isWhitespace,
    lit ">", some' true Text.isWhitespace, endPattern digit 4, lit ":",
    some' true Text.isWhitespace, lit "Flags", some' true Text.isWhitespace, lit "[",
    group 6 (some' true (· ≠ ']')), lit "]", many false (· ≠ '\n'), lit "length",
    some' true Text.isWhitespace, group 7 (some' true digit)]

/-- The whole expression of `capture.rs`, from the time to the length of the packet. -/
def headerPattern : Pattern Char :=
  seq (timePattern digit) (seq directionPattern (seq (some' true Text.isWhitespace)
    (packetPattern digit)))

/-- `Regex::captures`. -/
def captures (line : String) : Option (Pattern.Way Char) :=
  Pattern.search (headerPattern digit) line.toList

/-- The text of a group. -/
def capture (c : Pattern.Way Char) (n : ℕ) : String := String.ofList (c.group n)

/-! ### Packets -/

/-- `str::parse::<u32>`. -/
def parseU32 (s : String) : Option ℕ :=
  let digits := match s.toList with
    | '+' :: rest => rest
    | digits => digits
  if digits = [] ∨ digits.any fun c => !c.isDigit then none
  else
    let n := digits.foldl (fun n c => n * 10 + (c.toNat - 48)) 0
    if n < 2 ^ 32 then some n else none

/-- The name of the flags of a segment, or the letters of the line where there is none. -/
def flagsText (flags : String) : String :=
  match flags with
  | "S" => "SYN"
  | "R" => "RST"
  | "F" => "FIN"
  | "P" => "PSH"
  | "." => "ACK"
  | "S." => "SYN-ACK"
  | "F." => "FIN-ACK"
  | "R." => "RST-ACK"
  | "P." => "PSH-ACK"
  | f => f

/-- What a segment with these flags does to its connection, if it begins or ends one. -/
def tcpEvent (flags : String) : Option String :=
  match flags with
  | "S" => some "TCP SYN - connection attempt"
  | "S." => some "TCP SYN-ACK - connection accepted"
  | "R" | "R." => some "TCP RST - connection refused/reset"
  | "F" | "F." => some "TCP FIN - connection closing"
  | _ => none

/-- What a line that begins a packet says. -/
def packet (peer : String) (c : Pattern.Way Char) : Json :=
  .object [("src", .str (capture c 2 ++ ":" ++ capture c 3)),
    ("dst", .str (capture c 4 ++ ":" ++ capture c 5)),
    ("direction", .str (if capture c 4 = peer then "→" else "←")),
    ("flags", .str (flagsText (capture c 6))),
    ("length", .num ((parseU32 (capture c 7)).getD 0)),
    ("tcp_event", ((tcpEvent (capture c 6)).map Json.str).getD .null)]

/-! ### Octets -/

/-- `split_whitespace`. -/
def splitWhitespace (s : String) : List (List Char) := Fields.fields Text.isWhitespace s.toList

/-- `is_ascii_hexdigit` -/
def isHexDigit (c : Char) : Bool :=
  c.isDigit || ('a' ≤ c && c ≤ 'f') || ('A' ≤ c && c ≤ 'F')

/-- A word of one octet or of two. -/
def isWord (w : List Char) : Bool := (w.length = 2 || w.length = 4) && w.all isHexDigit

/-- What a hexadecimal digit stands for. -/
def hexValue (c : Char) : ℕ :=
  if c.isDigit then c.toNat - 48
  else if 'a' ≤ c ∧ c ≤ 'f' then c.toNat - 87
  else c.toNat - 55

/-- The octets of a word, each with two digits. -/
def wordOctets : List Char → Bytes
  | high :: low :: rest => UInt8.ofNat (hexValue high * 16 + hexValue low) :: wordOctets rest
  | _ => []

/-- The octets of a line: of its first eight words, up to one that is none. -/
def lineOctets (line : String) : Bytes :=
  if Text.startsWith (String.ofList (line.toList.dropWhile Text.isWhitespace)) "0x" then
    match Text.splitOnce line ':' with
    | some (_, hex) => (((splitWhitespace hex).take 8).takeWhile isWord).flatMap wordOctets
    | none => []
  else []

/-! ### Reports -/

/-- An event that is emitted. -/
structure Emission where
  kind : String
  level : String
  message : String
  extra : Json

/-- `windows`. -/
def windows (n : ℕ) (bytes : Bytes) : List Bytes :=
  (List.range (bytes.length + 1 - n)).map fun i => (bytes.drop i).take n

/-- The name of a kind of messages. -/
def kindName (kind : UInt8) : Option String :=
  match kind with
  | 1 => some "OPEN"
  | 2 => some "UPDATE"
  | 3 => some "NOTIFICATION"
  | 4 => some "KEEPALIVE"
  | _ => none

/-- The kind of the message that a window is the header of. -/
def windowKind (w : Bytes) : Option String :=
  if w.take 16 = List.replicate 16 255 then kindName w[18]! else none

/-- The kind of the first message in the octets. -/
def bgpKind (bytes : Bytes) : Option String := (windows 19 bytes).findSome? windowKind

/-- What is reported of a packet. -/
def report (p : Json) (bytes : Bytes) : Emission :=
  let kind := bgpKind bytes
  let p := p.set "bgp_type" ((kind.map Json.str).getD .null)
  let field := fun key => ((p.index key).asStr).getD ""
  ⟨"capture", "packet", "[" ++ field "flags" ++ "] " ++ field "src" ++ " " ++ field "direction"
    ++ " " ++ field "dst" ++ " len=" ++ (p.index "length").text
    ++ ((kind.map (" BGP " ++ ·)).getD ""), p⟩

/-- The kind of the message is reported with the packet. -/
@[simp] theorem index_bgpType_report (peer : String) (c : Pattern.Way Char) (bytes : Bytes) :
    (report (packet peer c) bytes).extra.index "bgp_type" =
      ((bgpKind bytes).map Json.str).getD .null := by
  rw [report, packet, Json.index, Json.get_set_object, if_pos rfl]
  rfl

/-- The packet in hand and its octets. -/
structure Scan where
  packet : Option Json
  bytes : Bytes

/-- `flush`. -/
def flush (s : Scan) : List Emission :=
  match s.packet with
  | none => []
  | some p => [report p s.bytes]

/-- What is done with a line. -/
def onLine (peer : String) (s : Scan) (line : String) : Scan × List Emission :=
  match captures digit line with
  | some c => (⟨some (packet peer c), []⟩, flush s)
  | none => ({ s with bytes := s.bytes ++ lineOctets line }, [])

variable {digit}

/-- A line that begins a packet has the one in hand reported, and drops its octets. -/
theorem onLine_header {line : String} {c : Pattern.Way Char} (h : captures digit line = some c)
    (peer : String) (s : Scan) :
    onLine digit peer s line = (⟨some (packet peer c), []⟩, flush s) := by
  simp only [onLine, h]

/-- Any other line adds its octets to those in hand. Most lines that are not of a dump have none. -/
theorem onLine_other {line : String} (h : captures digit line = none) (peer : String) (s : Scan) :
    onLine digit peer s line = (⟨s.packet, s.bytes ++ lineOctets line⟩, []) := by
  simp only [onLine, h]

/-! ### What begins a packet -/

/-- The letters of a text match that text only. -/
theorem matches_lit {s : String} {w : List Char} {g : List (ℕ × List Char)}
    (h : Pattern.Matches (lit s) w g) : w = s.toList := by
  unfold lit at h
  generalize s.toList = cs at h ⊢
  -- letter by letter, each of which takes one character
  induction cs generalizing w g with
  | nil =>
    cases h
    rfl
  | cons c cs ih =>
    obtain ⟨v, w', _, _, rfl, rfl, hv, hw⟩ := Pattern.matches_seq_iff.mp h
    cases hv with
    | symbol hc => rw [ih hw, of_decide_eq_true hc, List.singleton_append]

/-- One or more characters of a set begin with one of the set. -/
theorem matches_some' {greedy : Bool} {p : Char → Bool} {w : List Char}
    {g : List (ℕ × List Char)} (h : Pattern.Matches (some' greedy p) w g) :
    ∃ c w', w = c :: w' ∧ p c = true := by
  obtain ⟨v, w', _, _, rfl, rfl, hv, -⟩ := Pattern.matches_seq_iff.mp h
  cases hv with
  | symbol hc => exact ⟨_, w', rfl, hc⟩

/-- **A text that begins a packet** says a direction, with white space behind it. -/
theorem direction_of_matches {w : List Char} {g : List (ℕ × List Char)}
    (h : Pattern.Matches (headerPattern digit) w g) : ∃ time x rest, w = time ++ x :: rest ∧
      (x = 'I' ∨ x = 'O') ∧ ∃ s ∈ rest, Text.isWhitespace s = true := by
  -- the expression is taken apart from the left: the time, the direction, the gap behind it
  obtain ⟨time, w₁, _, _, rfl, -, -, h₁⟩ := Pattern.matches_seq_iff.mp h
  obtain ⟨direction, w₂, _, _, rfl, -, hdirection, h₂⟩ := Pattern.matches_seq_iff.mp h₁
  obtain ⟨gap, w₃, _, _, rfl, -, hgap, -⟩ := Pattern.matches_seq_iff.mp h₂
  obtain ⟨s, gap', rfl, hs⟩ := matches_some' hgap
  -- the group holds one of the two words
  have hword : direction = "In".toList ∨ direction = "Out".toList := by
    cases hdirection with
    | group hm =>
      cases hm with
      | left hm => exact .inl (matches_lit hm)
      | right hm => exact .inr (matches_lit hm)
  rcases hword with rfl | rfl
  · exact ⟨time, 'I', 'n' :: (s :: gap' ++ w₃), rfl, .inl rfl, s, by simp, hs⟩
  · exact ⟨time, 'O', 'u' :: 't' :: (s :: gap' ++ w₃), rfl, .inr rfl, s, by simp, hs⟩

end Capture
