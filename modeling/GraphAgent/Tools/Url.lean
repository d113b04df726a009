import GraphAgent.Tools.Policy
import Mathlib.Data.List.Basic

/-!
# URLs and addresses

What `urlparse` and `ipaddress.ip_address` of Python 3.12 say of a text: the scheme and the
host of a URL, and the special blocks that a literal address belongs to.
-/

namespace GraphAgent.Url

section Address

/-- A literal address as a number. -/
inductive Address where
  | v4 (ip : Nat)
  | v6 (ip : Nat)
  deriving DecidableEq, Repr

/-- The digits of one octet: three at most, without leading zeros. -/
def parseOctet (text : List Char) : Option Nat :=
  let value := text.foldl (fun value c => 10 * value + (c.toNat - '0'.toNat)) 0
  if text ≠ [] ∧ text.all Char.isDigit ∧ text.length ≤ 3 ∧ (text = ['0'] ∨ text.head? ≠ some '0') ∧
      value ≤ 255 then some value
  else none

/-- `IPv4Address(text)`. -/
def parseV4 (text : List Char) : Option Nat :=
  let octets := text.splitOn '.'
  if octets.length ≠ 4 then none
  else (octets.mapM parseOctet).map fun values =>
    values.foldl (fun ip octet => 256 * ip + octet) 0

def isHexDigit (c : Char) : Bool :=
  c.isDigit || ('a' ≤ c && c ≤ 'f') || ('A' ≤ c && c ≤ 'F')

def hexValue (c : Char) : Nat :=
  if c.isDigit then c.toNat - '0'.toNat else 10 + (c.toLower.toNat - 'a'.toNat)

/-- `_parse_hextet`. -/
def parseHextet (text : List Char) : Option Nat :=
  if text ≠ [] ∧ text.all isHexDigit ∧ text.length ≤ 4 then
    some (text.foldl (fun value c => 16 * value + hexValue c) 0)
  else none

/-- The hextets of an address, where the part behind the last colon may be an IPv4
address. -/
def hextetTexts (text : List Char) : Option (List (List Char)) :=
  let parts := text.splitOn ':'
  if parts.length < 3 then none
  else
    match parts.getLast? with
    | some last =>
        if '.' ∈ last then
          (parseV4 last).map fun ip =>
            parts.dropLast ++ [Nat.toDigits 16 (ip / 65536), Nat.toDigits 16 (ip % 65536)]
        else some parts
    | none => none

/-- The number of the hextets, with `skipped` zero hextets between the two lists. -/
def joinHextets (high low : List (List Char)) (skipped : Nat) : Option Nat := do
  let high ← high.mapM parseHextet
  let low ← low.mapM parseHextet
  return (high ++ List.replicate skipped 0 ++ low).foldl (fun ip hextet => 65536 * ip + hextet) 0

/-- `_ip_int_from_string`: at most one part other than the first and the last is empty, and
stands for the zero hextets that are left out. -/
def parseHextets (parts : List (List Char)) : Option Nat :=
  let inner := (parts.drop 1).dropLast
  if 9 < parts.length ∨ 1 < inner.count [] then none
  else if inner.contains [] then
    let skip := inner.idxOf [] + 1
    let high := parts.take skip
    let low := parts.drop (skip + 1)
    -- A leading or trailing colon has to be a part of the `::`.
    if (high.head? = some [] ∧ high.length ≠ 1) ∨ (low.getLast? = some [] ∧ low.length ≠ 1) then none
    else
      let high := if high.head? = some [] then [] else high
      let low := if low.getLast? = some [] then [] else low
      if 8 ≤ high.length + low.length then none
      else joinHextets high low (8 - (high.length + low.length))
  else if parts.length ≠ 8 then none
  else joinHextets parts [] 0

/-- `IPv6Address(text)`, without its zone. -/
def parseV6 (text : List Char) : Option Nat :=
  let zone := (text.dropWhile fun c => c ≠ '%').drop 1
  if '/' ∈ text ∨ ('%' ∈ text ∧ (zone = [] ∨ '%' ∈ zone)) then none
  else
    match hextetTexts (text.takeWhile fun c => c ≠ '%') with
    | some parts => parseHextets parts
    | none => none

/-- `ipaddress.ip_address(text)`; `none` is its ValueError. -/
def ipAddress (text : List Char) : Option Address :=
  ((parseV4 text).map .v4).or ((parseV6 text).map .v6)

/-- A block of addresses: the addresses that share their first `bits` of `width` bits with
one of them. -/
def inBlock (width ip address bits : Nat) : Bool :=
  ip / 2 ^ (width - bits) = address / 2 ^ (width - bits)

def v4 (a b c d : Nat) : Nat := ((256 * a + b) * 256 + c) * 256 + d

/-- The address that begins with the given hextets. -/
def v6 (hextets : List Nat) : Nat :=
  (hextets ++ List.replicate (8 - hextets.length) 0).foldl (fun ip hextet => 65536 * ip + hextet) 0

/-- `_private_networks` and their exceptions, for IPv4. -/
def privateV4 (ip : Nat) : Bool :=
  [(v4 0 0 0 0, 8), (v4 10 0 0 0, 8), (v4 127 0 0 0, 8), (v4 169 254 0 0, 16), (v4 172 16 0 0, 12),
      (v4 192 0 0 0, 24), (v4 192 0 0 170, 31), (v4 192 0 2 0, 24), (v4 192 168 0 0, 16),
      (v4 198 18 0 0, 15), (v4 198 51 100 0, 24), (v4 203 0 113 0, 24), (v4 240 0 0 0, 4),
      (v4 255 255 255 255, 32)].any (fun block => inBlock 32 ip block.1 block.2) &&
    ip ≠ v4 192 0 0 9 && ip ≠ v4 192 0 0 10

/-- `_private_networks` and their exceptions, for IPv6. -/
def privateV6 (ip : Nat) : Bool :=
  if ip / 2 ^ 32 = 0xffff then privateV4 (ip % 2 ^ 32)
  else
    [(1, 128), (0, 128), (v6 [0, 0, 0, 0, 0, 0xffff], 96), (v6 [0x64, 0xff9b, 1], 48),
        (v6 [0x100], 64), (v6 [0x2001], 23), (v6 [0x2001, 0xdb8], 32), (v6 [0x2002], 16),
        (v6 [0x3fff], 20), (v6 [0xfc00], 7), (v6 [0xfe80], 10)].any
      (fun block => inBlock 128 ip block.1 block.2) &&
    [(v6 [0x2001, 1, 0, 0, 0, 0, 0, 1], 128), (v6 [0x2001, 1, 0, 0, 0, 0, 0, 2], 128),
        (v6 [0x2001, 3], 32), (v6 [0x2001, 4, 0x112], 48), (v6 [0x2001, 0x20], 28),
        (v6 [0x2001, 0x30], 28)].all (fun block => !inBlock 128 ip block.1 block.2)

/-- `_reserved_networks` for IPv6. -/
def reservedV6 (ip : Nat) : Bool :=
  [(0, 8), (v6 [0x100], 8), (v6 [0x200], 7), (v6 [0x400], 6), (v6 [0x800], 5), (v6 [0x1000], 4),
      (v6 [0x4000], 3), (v6 [0x6000], 3), (v6 [0x8000], 3), (v6 [0xa000], 3), (v6 [0xc000], 3),
      (v6 [0xe000], 4), (v6 [0xf000], 5), (v6 [0xf800], 6), (v6 [0xfe00], 9)].any
    fun block => inBlock 128 ip block.1 block.2

namespace Address

def isPrivate : Address → Bool
  | .v4 ip => privateV4 ip
  | .v6 ip => privateV6 ip

def isLoopback : Address → Bool
  | .v4 ip => inBlock 32 ip (Url.v4 127 0 0 0) 8
  | .v6 ip => ip = 1

def isLinkLocal : Address → Bool
  | .v4 ip => inBlock 32 ip (Url.v4 169 254 0 0) 16
  | .v6 ip => inBlock 128 ip (Url.v6 [0xfe80]) 10

def isReserved : Address → Bool
  | .v4 ip => inBlock 32 ip (Url.v4 240 0 0 0) 4
  | .v6 ip => reservedV6 ip

def isUnspecified : Address → Bool
  | .v4 ip => ip = 0
  | .v6 ip => ip = 0

end Address

end Address

section Split

/-- `unicodedata.normalize("NFKC", text)` comes from Python's Unicode tables. -/
structure Normalization where
  nfkc : List Char → List Char

variable (py : Python) (norm : Normalization)

/-- What `urlparse` finds of a URL, as far as its scheme and host are concerned. -/
structure SplitResult where
  scheme : String
  netloc : List Char

/-- `scheme_chars` -/
def isSchemeChar (c : Char) : Bool := c.isAlphanum || c = '+' || c = '-' || c = '.'

/-- The scheme of a URL in lower case, and what stands behind it. -/
def splitScheme (url : List Char) : List Char × List Char :=
  let before := url.takeWhile fun c => c ≠ ':'
  if ':' ∈ url ∧ (before.head?.any Char.isAlpha) ∧ before.all isSchemeChar then
    (before.map Char.toLower, url.drop (before.length + 1))
  else ([], url)

/-- `_check_bracketed_host`. -/
def checkBracketedHost (hostname : List Char) : Except String Unit :=
  if hostname.head? = some 'v' then
    let version := (hostname.drop 1).takeWhile isHexDigit
    let rest := hostname.drop (1 + version.length)
    if version ≠ [] ∧ rest.head? = some '.' ∧ rest.drop 1 ≠ [] then .ok ()
    else .error "IPvFuture address is invalid"
  else
    match ipAddress hostname with
    | some (.v6 _) => .ok ()
    | some (.v4 _) => .error "An IPv4 address cannot be in brackets"
    | none =>
        .error (py.repr (.str (String.ofList hostname)) ++
          " does not appear to be an IPv4 or IPv6 address")

/-- `netloc.rpartition("@")[2]` -/
def hostAndPort (netloc : List Char) : List Char :=
  (netloc.reverse.takeWhile fun c => c ≠ '@').reverse

/-- `_check_bracketed_netloc`. -/
def checkBracketedNetloc (netloc : List Char) : Except String Unit :=
  let host := hostAndPort netloc
  if '[' ∈ host then
    let bracketed := (host.dropWhile fun c => c ≠ '[').drop 1
    let port := (bracketed.dropWhile fun c => c ≠ ']').drop 1
    if host.head? ≠ some '[' ∨ (port ≠ [] ∧ port.head? ≠ some ':') then .error "Invalid IPv6 URL"
    else checkBracketedHost py (bracketed.takeWhile fun c => c ≠ ']')
  else checkBracketedHost py (host.takeWhile fun c => c ≠ ':')

/-- `_checknetloc`: no delimiter may come out of the normalization. -/
def checkNetloc (netloc : List Char) : Except String Unit :=
  let n := netloc.filter fun c => c ≠ '@' ∧ c ≠ ':' ∧ c ≠ '#' ∧ c ≠ '?'
  let netloc2 := norm.nfkc n
  if netloc.all (fun c => c.toNat < 128) ∨ n = netloc2 then .ok ()
  else if netloc2.any fun c => c = '/' || c = '?' || c = '#' || c = '@' || c = ':' then
    .error ("netloc '" ++ String.ofList netloc ++
      "' contains invalid characters under NFKC normalization")
  else .ok ()

/-- `urlparse(url)`: leading control characters and blanks, and line breaks and tabs
anywhere, do not count. -/
def urlparse (url : String) : Except String SplitResult := do
  let url := (url.toList.dropWhile fun c => c.toNat ≤ 32).filter
    fun c => c ≠ '\t' ∧ c ≠ '\r' ∧ c ≠ '\n'
  let (scheme, rest) := splitScheme url
  let netloc := if rest.take 2 = ['/', '/'] then
    (rest.drop 2).takeWhile fun c => c ≠ '/' ∧ c ≠ '?' ∧ c ≠ '#' else []
  if ('[' ∈ netloc) ≠ (']' ∈ netloc) then throw "Invalid IPv6 URL"
  if '[' ∈ netloc then checkBracketedNetloc py netloc
  checkNetloc norm netloc
  return ⟨String.ofList scheme, netloc⟩

/-- `parsed.hostname`: in lower case, but for a zone. -/
def SplitResult.hostname (parsed : SplitResult) : Option String :=
  let host := hostAndPort parsed.netloc
  let hostname :=
    if '[' ∈ host then ((host.dropWhile fun c => c ≠ '[').drop 1).takeWhile fun c => c ≠ ']'
    else host.takeWhile fun c => c ≠ ':'
  if hostname = [] then none
  else some (py.lower (String.ofList (hostname.takeWhile fun c => c ≠ '%')) ++
    String.ofList (hostname.dropWhile fun c => c ≠ '%'))

end Split

end GraphAgent.Url
