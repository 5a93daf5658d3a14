import LangServer.Text.Basic
import LangServer.Text.Point

/-!
# Parts of a URI

A URI is cut into scheme, authority, path, parameters, query and fragment, and put together again.
Blanks and control characters at the start are dropped, tabs and line ends anywhere. An authority
with brackets has to hold an address in them, and its characters may not hide a delimiter.
-/

namespace LangServer.Uri

/-- The six parts of a URI, in characters or in code points. -/
structure Parts (α : Type) where
  scheme : List α
  authority : List α
  path : List α
  params : List α
  query : List α
  fragment : List α
  deriving DecidableEq, Repr, Inhabited

/-- The parts in order. -/
def Parts.toList {α : Type} (p : Parts α) : List (List α) :=
  [p.scheme, p.authority, p.path, p.params, p.query, p.fragment]

/-- The parts from a list that has to hold six. -/
def Parts.ofList {α : Type} : List (List α) → Except Fault (Parts α)
  | [scheme, authority, path, params, query, fragment] =>
    .ok { scheme, authority, path, params, query, fragment }
  | parts => .error (.wrongCount 6 parts.length)

/-- The parts in code points. -/
def Parts.points (p : Parts Char) : Parts Text.Point where
  scheme := Text.points p.scheme
  authority := Text.points p.authority
  path := Text.points p.path
  params := Text.points p.params
  query := Text.points p.query
  fragment := Text.points p.fragment

/-- Schemes after which an authority is always written. -/
def withAuthority : List String :=
  ["", "ftp", "http", "gopher", "nntp", "telnet", "imap", "wais", "file", "mms", "https", "shttp",
    "snews", "prospero", "rtsp", "rtsps", "rtspu", "rsync", "svn", "svn+ssh", "sftp", "nfs", "git",
    "git+ssh", "ws", "wss"]

/-- Schemes whose last path segment may carry parameters. -/
def withParams : List String :=
  ["", "ftp", "hdl", "prospero", "http", "imap", "https", "shttp", "rtsp", "rtsps", "rtspu", "sip",
    "sips", "mms", "sftp", "tel"]

def isSchemeChar (c : Char) : Bool := c.isAlphanum || c == '+' || c == '-' || c == '.'

/-- Drops what no URI holds: blanks and control characters at the start, tabs and line ends. -/
def clean (s : List Char) : List Char :=
  (s.dropWhile fun c => decide (c.toNat ≤ 32)).filter fun c => c != '\t' && c != '\r' && c != '\n'

/-- The scheme in lower case and the rest. -/
def cutScheme (s : List Char) : List Char × List Char :=
  match Text.cutFirst? ':' s with
  | some (c :: name, rest) =>
    if c.isAlpha && (c :: name).all isSchemeChar then ((c :: name).map Char.toLower, rest)
    else ([], s)
  | _ => ([], s)

/-! ## Addresses in brackets -/

/-- One of four decimal numbers up to 255, without a leading zero. -/
def isOctet (s : List Char) : Bool :=
  !s.isEmpty && s.all Char.isDigit && decide (s.length ≤ 3) &&
    (s.length == 1 || s.head? != some '0') &&
    decide (((Text.readDigits true 0 s).getD 256) ≤ 255)

def isDottedQuad (s : List Char) : Bool :=
  let fields := Text.splitOn '.' s
  fields.length == 4 && fields.all isOctet

def isHextet (s : List Char) : Bool :=
  !s.isEmpty && decide (s.length ≤ 4) &&
    s.all fun c => c.isDigit || ('a' ≤ c && c ≤ 'f') || ('A' ≤ c && c ≤ 'F')

/-- An address of eight groups, of which one run may be left out; the last two may be written as
four decimal numbers, and a zone may follow. -/
def isSixteenBytes (s : List Char) : Bool :=
  let (address, zoneOk) :=
    match Text.cutFirst? '%' s with
    | some (a, zone) => (a, !zone.isEmpty && !zone.contains '%')
    | none => (s, true)
  let fields := Text.splitOn ':' address
  let (fields, quadOk) :=
    match fields.getLast? with
    | some l => if l.contains '.' then (fields.dropLast ++ [['0'], ['0']], isDottedQuad l)
                else (fields, true)
    | none => (fields, true)
  let inner := (fields.drop 1).dropLast
  let gaps := (inner.filter (·.isEmpty)).length
  let headEmpty := fields.head? == some []
  let lastEmpty := fields.getLast? == some []
  let groups := fields.filter (!·.isEmpty)
  let shape :=
    if gaps = 1 then
      -- an empty end stands only beside the gap
      let left := fields.takeWhile (!·.isEmpty)
      let leftOk := !headEmpty || (fields.drop 1).head? == some []
      let rightOk := !lastEmpty || fields.dropLast.getLast? == some []
      leftOk && rightOk && decide (groups.length ≤ 7) && decide (left.length ≤ 8)
    else gaps == 0 && !headEmpty && !lastEmpty && fields.length == 8
  zoneOk && quadOk && decide (3 ≤ (Text.splitOn ':' address).length) &&
    decide (fields.length ≤ 9) && shape && groups.all isHextet

/-- An address of a version to come: `v`, hexadecimal digits, a point and something more. -/
def isFuture (s : List Char) : Bool :=
  match s with
  | 'v' :: rest =>
    match Text.cutFirst? '.' rest with
    | some (version, more) =>
      !version.isEmpty && version.all (fun c => c.isDigit || ('a' ≤ c && c ≤ 'f') ||
        ('A' ≤ c && c ≤ 'F')) && !more.isEmpty && !more.contains '\n'
    | none => false
  | _ => false

/-- Checks what stands between the brackets of an authority. -/
def checkHost (host : List Char) : Except Fault Unit :=
  if host.head? == some 'v' then
    if isFuture host then .ok () else .error (.invalid "IPvFuture address is invalid")
  else if isDottedQuad host then .error (.invalid "An IPv4 address cannot be in brackets")
  else if isSixteenBytes host then .ok ()
  else
    .error (.invalid
      s!"{Text.quote (String.ofList host)} does not appear to be an IPv4 or IPv6 address")

/-- Characters whose compatibility form holds one of `/ ? # @ :`. -/
def hidesDelimiter (c : Char) : Bool :=
  [0x2047, 0x2048, 0x2049, 0x2100, 0x2101, 0x2105, 0x2106, 0x2A74, 0xFE13, 0xFE16, 0xFE55, 0xFE56,
    0xFE5F, 0xFE6B, 0xFF03, 0xFF0F, 0xFF1A, 0xFF1F, 0xFF20].contains c.toNat

def checkAuthority (a : List Char) : Except Fault Unit :=
  if a.any hidesDelimiter then
    .error (.invalid
      s!"netloc '{String.ofList a}' contains invalid characters under NFKC normalization")
  else .ok ()

def checkBrackets (a : List Char) : Except Fault Unit :=
  if a.contains '[' != a.contains ']' then .error (.invalid "Invalid IPv6 URL")
  else if a.contains '[' then
    let inside := (a.dropWhile (· != '[')).drop 1
    checkHost (inside.takeWhile (· != ']'))
  else .ok ()

/-! ## Cutting and joining -/

/-- Cuts off the part after a mark, if the mark is there. -/
def cutAt (mark : Char) (s : List Char) : List Char × List Char :=
  (Text.cutFirst? mark s).getD (s, [])

/-- The parameters of the last path segment. -/
def cutParams (path : List Char) : List Char × List Char :=
  let tail := (path.reverse.takeWhile (· != '/')).reverse
  let front := path.take (path.length - tail.length)
  match Text.cutFirst? ';' tail with
  | some (name, params) => (front ++ name, params)
  | none => (path, [])

/-- The authority after two slashes, and the rest. -/
def cutAuthority (s : List Char) : List Char × List Char :=
  let a := s.takeWhile fun c => c != '/' && c != '?' && c != '#'
  (a, s.drop a.length)

/-- The parts of a URI, still encoded. -/
def split (uri : List Char) : Except Fault (Parts Char) := do
  let (scheme, rest) := cutScheme (clean uri)
  let (authority, rest) ←
    match rest with
    | '/' :: '/' :: more => do
      let (a, rest) := cutAuthority more
      checkBrackets a
      pure (a, rest)
    | _ => pure ([], rest)
  let (rest, fragment) := cutAt '#' rest
  let (rest, query) := cutAt '?' rest
  checkAuthority authority
  let (path, params) :=
    if withParams.contains (String.ofList scheme) then cutParams rest else (rest, [])
  return { scheme, authority, path, params, query, fragment }

/-- The URI of encoded parts. -/
def unsplit (p : Parts Char) : List Char :=
  let path := if p.params.isEmpty then p.path else p.path ++ ';' :: p.params
  let doubled := path.take 2 == ['/', '/']
  let hasAuthority := !p.authority.isEmpty ||
    (!p.scheme.isEmpty && withAuthority.contains (String.ofList p.scheme) && !doubled)
  let body :=
    if hasAuthority then
      let path := if !path.isEmpty && path.head? != some '/' then '/' :: path else path
      '/' :: '/' :: (p.authority ++ path)
    else path
  let body := if p.scheme.isEmpty then body else p.scheme ++ ':' :: body
  let body := if p.query.isEmpty then body else body ++ '?' :: p.query
  if p.fragment.isEmpty then body else body ++ '#' :: p.fragment

end LangServer.Uri
