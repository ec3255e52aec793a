import LightWalletd.Model.Types

/-!
# The address of a client

Rate limits and caps are kept by address. Behind a proxy the address is read out of the header
`x-forwarded-for`, to which every proxy appends the one it was called from. A text is the list
of its characters. The text of a header value is a parameter.
-/

set_option autoImplicit false

namespace LightWalletd

/-! ## Addresses -/

/-- `std::net::IpAddr`. -/
inductive IpAddr
  | v4 (addr : BitVec 32)
  | v6 (addr : BitVec 128)
  deriving DecidableEq

/-- `Ipv4Addr::UNSPECIFIED`. -/
def unspecified : IpAddr := .v4 0

/-- `char::is_whitespace`. -/
def isWhitespace (c : Char) : Bool :=
  let n := c.toNat
  decide (9 ≤ n ∧ n ≤ 13) || [0x20, 0x85, 0xa0, 0x1680].contains n ||
    decide (0x2000 ≤ n ∧ n ≤ 0x200a) || [0x2028, 0x2029, 0x202f, 0x205f, 0x3000].contains n

/-- `str::trim`. -/
def trim (text : List Char) : List Char :=
  ((text.dropWhile isWhitespace).reverse.dropWhile isWhitespace).reverse

/-- `str::split_once`. -/
def splitOnce (sep : Char) (text : List Char) : Option (List Char × List Char) :=
  if sep ∈ text then some (text.takeWhile (· ≠ sep), (text.dropWhile (· ≠ sep)).tail) else none

/-- `char::to_digit`. -/
def toDigit (radix : ℕ) (c : Char) : Option ℕ :=
  let value :=
    if '0' ≤ c ∧ c ≤ '9' then c.toNat - '0'.toNat
    else if 'a' ≤ c ∧ c ≤ 'z' then c.toNat - 'a'.toNat + 10
    else if 'A' ≤ c ∧ c ≤ 'Z' then c.toNat - 'A'.toNat + 10
    else radix
  if value < radix then some value else none

/-- The number with these digits. -/
def digitsValue (radix : ℕ) (digits : List Char) : ℕ :=
  digits.foldl (fun n c => n * radix + (toDigit radix c).getD 0) 0

/-- `str::parse::<u32>`. -/
def parseU32 (text : List Char) : Option ℕ :=
  let digits := match text with
    | '+' :: digits => digits
    | digits => digits
  if digits = [] ∨ digits.any (fun c => (toDigit 10 c).isNone) then none
  else if u32Max < digitsValue 10 digits then none
  else some (digitsValue 10 digits)

/-! ## The parser of `std::net` -/

/-- A reader returns what it has read and the text behind it. -/
abbrev Reader (α : Type) := List Char → Option (α × List Char)

/-- `Parser::read_given_char`. -/
def readGivenChar (target : Char) : List Char → Option (List Char)
  | [] => none
  | c :: text => if c = target then some text else none

/-- The separator stands before every part but the first. -/
def readSeparator {α : Type} (sep : Char) (index : ℕ) (inner : Reader α) :
    Reader α := fun text => do
  let text ← if 0 < index then readGivenChar sep text else some text
  inner text

/-- `Parser::read_number`. -/
def readNumber (radix maxDigits bound : ℕ) (allowZeroPrefix : Bool) : Reader ℕ := fun text =>
  let digits := text.takeWhile fun c => (toDigit radix c).isSome
  if digits = [] ∨ maxDigits < digits.length then none
  else if allowZeroPrefix = false ∧ digits.head? = some '0' ∧ 1 < digits.length then none
  else if bound < digitsValue radix digits then none
  else some (digitsValue radix digits, text.drop digits.length)

/-- `Parser::read_ipv4_addr`. -/
def readIpv4Addr : Reader (BitVec 32) := fun text => do
  let part := readNumber 10 3 255 false
  let (a, text) ← readSeparator '.' 0 part text
  let (b, text) ← readSeparator '.' 1 part text
  let (c, text) ← readSeparator '.' 2 part text
  let (d, text) ← readSeparator '.' 3 part text
  some (BitVec.ofNat 32 (((a * 256 + b) * 256 + c) * 256 + d), text)

/-- Groups of four hexadecimal digits, at most so many, of which `i` stand before. The last two
may be written as an address of version 4. -/
def readGroups : ℕ → ℕ → List Char → List ℕ × Bool × List Char
  | 0, _, text => ([], false, text)
  | room + 1, i, text =>
    match if 0 < room then readSeparator ':' i readIpv4Addr text else none with
    | some (addr, text) => ([addr.toNat / 65536, addr.toNat % 65536], true, text)
    | none => match readSeparator ':' i (readNumber 16 4 65535 true) text with
      | none => ([], false, text)
      | some (group, text) =>
        let (groups, ipv4, text) := readGroups room (i + 1) text
        (group :: groups, ipv4, text)

/-- The address with these groups. -/
def groupsAddr (groups : List ℕ) : BitVec 128 :=
  BitVec.ofNat 128 (groups.foldl (fun n group => n * 65536 + group) 0)

/-- `Parser::read_ipv6_addr`. -/
def readIpv6Addr : Reader (BitVec 128) := fun text =>
  let (head, headIpv4, text) := readGroups 8 0 text
  if head.length = 8 then some (groupsAddr head, text)
  else if headIpv4 then none
  else do
    let text ← readGivenChar ':' text
    let text ← readGivenChar ':' text
    let (tail, _, text) := readGroups (8 - (head.length + 1)) 0 text
    let zeros := List.replicate (8 - head.length - tail.length) 0
    some (groupsAddr (head ++ zeros ++ tail), text)

/-- All of a text. -/
def parseWith {α : Type} (inner : Reader α) (text : List Char) : Option α :=
  match inner text with
  | some (a, []) => some a
  | _ => none

/-- `str::parse::<IpAddr>`. -/
def parseIpAddr : List Char → Option IpAddr :=
  parseWith fun text => match readIpv4Addr text with
    | some (addr, text) => some (.v4 addr, text)
    | none => (readIpv6Addr text).map fun p => (.v6 p.1, p.2)

/-- `str::parse::<Ipv4Addr>`; a text above 15 bytes is not looked at. -/
def parseIpv4Addr (text : List Char) : Option (BitVec 32) :=
  if 15 < (text.map Char.utf8Size).sum then none else parseWith readIpv4Addr text

/-! ## Proxies -/

/-- SOURCE: server.rs:574-592 -/
def ipMatchesProxyEntry (ip : IpAddr) (entry : String) : Bool :=
  let entry := trim entry.toList
  match parseIpAddr entry with
  | some exact => ip == exact
  | none => match splitOnce '/' entry with
    | none => false
    | some (base, bits) => match parseU32 bits with
      | none => false
      | some bits => match ip, parseIpv4Addr base with
        | .v4 ip4, some base4 =>
          if bits ≤ 32 then
            let mask : BitVec 32 := if bits = 0 then 0 else BitVec.allOnes 32 <<< (32 - bits)
            ip4 &&& mask == base4 &&& mask
          else false
        | _, _ => false

/-- The first hop that is an address and no proxy. SOURCE: server.rs:601-612 -/
def firstClient (trusted : List String) : List (List Char) → Option IpAddr
  | [] => none
  | hop :: hops =>
    let hop := trim hop
    if hop.isEmpty then firstClient trusted hops
    else match parseIpAddr hop with
      | none => firstClient trusted hops
      | some ip =>
        if trusted.any (ipMatchesProxyEntry ip) then firstClient trusted hops else some ip

/-- SOURCE: server.rs:594-615 -/
def clientIpFromForwarded (header : List Char) (trusted : List String) : Option IpAddr :=
  firstClient trusted (header.splitOn ',').reverse

/-- The text of a header value: there is one if all of its bytes are visible characters of
ASCII. -/
structure HeaderText where
  visible : UInt8 → Bool
  toStr : Bytes → Option (List Char)
  visible_printable : ∀ b : UInt8, 32 ≤ b → b < 127 → visible b = true
  visible_ascii : ∀ b : UInt8, visible b = true → b < 128
  toStr_eq : ∀ value, toStr value =
    if value.all visible then some (value.map fun b => Char.ofNat b.toNat) else none

/-- The address that a request is counted under; `forwarded` is the first value of the header.
SOURCE: server.rs:1103-1124 -/
def peerIp (headerText : HeaderText) (trustedProxies : List String) (remoteAddr : Option IpAddr)
    (forwarded : Option Bytes) : IpAddr :=
  let remote := remoteAddr.getD unspecified
  if trustedProxies.isEmpty then remote
  else if ¬ trustedProxies.any (ipMatchesProxyEntry remote) then remote
  else
    ((forwarded.bind headerText.toStr).bind fun h => clientIpFromForwarded h trustedProxies).getD
      remote

end LightWalletd
