import CacheAudit.Verification.Service
import CacheAudit.Decimal.Reading
import CacheAudit.Json.Parser

/-!
# Endpoints

The service under test can stand behind a URL. An endpoint that is no URL, or one of another
scheme, is refused before anything is sent. Nothing listens behind the others as far as this
library is concerned: a request to them cannot be delivered.
-/

namespace CacheAudit.Endpoint

/-- The schemes whose URLs have a host. -/
def hostSchemes : List String :=
  ["http", "https", "ws", "wss", "ftp"]

/-- Characters that a scheme may have after its first letter. -/
def isSchemeChar (c : Char) : Bool :=
  c.isAlphanum || c = '+' || c = '-' || c = '.'

/-- A text without control characters and blanks at its ends, and without tabs and line breaks. -/
def clean (text : List Char) : List Char :=
  let isOuter (c : Char) : Bool := c.toNat ≤ 0x20
  let inner := (((text.dropWhile isOuter).reverse).dropWhile isOuter).reverse
  inner.filter fun c => c != '\t' && c != '\n' && c != '\r'

/-- The scheme in lower case, and what follows its colon. -/
def scheme? (text : List Char) : Option (String × List Char) :=
  let name := text.takeWhile isSchemeChar
  match text.dropWhile isSchemeChar with
  | ':' :: rest =>
    if name.head?.any Char.isAlpha then some (String.ofList (name.map Char.toLower), rest) else none
  | _ => none

/-- The authority of a URL: what stands before the path, after any user name. -/
def authority (text : List Char) : List Char :=
  let isEnd (c : Char) : Bool := c = '/' || c = '\\' || c = '?' || c = '#'
  let whole := (text.dropWhile fun c => c = '/' || c = '\\').takeWhile fun c => !isEnd c
  (whole.reverse.takeWhile (· != '@')).reverse

/-- Characters that no host may have. -/
def isForbidden (c : Char) : Bool :=
  c.toNat ≤ 0x20 || c.toNat = 0x7F || "#/:<>?@[\\]^|%\x60\"".toList.contains c

/-- The groups of an address in brackets: up to four hexadecimal digits each, eight of them, or
fewer with one gap. -/
def isAddress (text : List Char) : Bool :=
  let groups := ((String.ofList text).splitOn ":").map String.toList
  let gaps := (groups.filter List.isEmpty).length
  let isGroup (g : List Char) : Bool := g.length ≤ 4 && g.all fun c => (Json.hexValue? c).isSome
  groups.all isGroup &&
    (if gaps = 0 then groups.length == 8
      else 3 ≤ groups.length && groups.length ≤ 9 &&
        ((String.ofList text).splitOn "::").length == 2)

/-- Why what follows a host and a colon does not name a socket. It may be empty. -/
def socketDefect? (number : List Char) : Option String :=
  if number.isEmpty || (Decimal.natural? number).any (· < 65536) then none
  else some "invalid port number"

/-- Why an authority cannot be used. -/
def authorityDefect? (text : List Char) : Option String :=
  match text with
  | '[' :: rest =>
    let address := rest.takeWhile (· != ']')
    match rest.dropWhile (· != ']') with
    | [] => some "invalid IPv6 address"
    | _ :: after =>
      if !isAddress address then some "invalid IPv6 address"
      else match after with
        | ':' :: number => socketDefect? number
        | [] => none
        | _ => some "invalid port number"
  | _ =>
    let host := text.takeWhile (· != ':')
    let number := (text.dropWhile (· != ':')).drop 1
    if host.isEmpty then some "empty host"
    else match socketDefect? number with
      | some defect => some defect
      | none => if host.any isForbidden then some "invalid international domain name" else none

/-- Why a request to an endpoint cannot be delivered. -/
def refusal (endpoint : String) : String :=
  let text := clean endpoint.toList
  let shown := String.ofList text
  match scheme? text with
  | none => "builder error: relative URL without a base"
  | some (scheme, rest) =>
    if !hostSchemes.contains scheme then
      "builder error for url (" ++ shown ++ "): URL scheme is not allowed"
    else match authorityDefect? (authority rest) with
      | some defect => "builder error: " ++ defect
      | none =>
        if scheme = "http" ∨ scheme = "https" then
          "error sending request for url (" ++ shown ++ ")"
        else "builder error for url (" ++ shown ++ "): URL scheme is not allowed"

/-- The service behind an endpoint. -/
def service (endpoint : String) : Service := fun request _ d =>
  let failure : Failure :=
    { kind := .invocation, op := some "invoke", requestId := some request.id
      message := refusal endpoint }
  { answer := .failed failure
    elapsedNs := 0
    disk := d
    events := [
      .starting "invoke" [("endpoint", endpoint), ("request_id", request.id)],
      .failing "invoke" failure.kind [("request_id", request.id)]] }

end CacheAudit.Endpoint
