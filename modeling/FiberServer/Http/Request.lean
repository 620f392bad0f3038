import FiberServer.Artifact.Servlets

/-!
# `HttpRequest`

The parts of a request that the servlets read: the path, the query, the headers
and the body, and what `getHeader`, `getParam` and `parseQuery` find in them.
-/

namespace FiberServer

open FileSystem (cstr)

namespace StringUtil

def isxdigit (c : Char) : Bool :=
  c.isDigit || ('a' ≤ c && c ≤ 'f') || ('A' ≤ c && c ≤ 'F')

/-- `xdigit_chars`. -/
def xdigit (c : Char) : Nat :=
  if c.isDigit then c.toNat - '0'.toNat
  else if 'a' ≤ c then c.toNat - 'a'.toNat + 10
  else c.toNat - 'A'.toNat + 10

def UrlDecode : Str → Str
  | [] => []
  | '+' :: s => ' ' :: UrlDecode s
  | '%' :: a :: b :: s =>
    if isxdigit a && isxdigit b then Char.ofNat (16 * xdigit a + xdigit b) :: UrlDecode s
    else '%' :: UrlDecode (a :: b :: s)
  | c :: s => c :: UrlDecode s

end StringUtil

/-- The loop of `PARSE_PARAM` and of `parseQuery`: the key goes up to the next `=`,
the value up to the next `&`. -/
def splitParams (str : Str) : List (Str × Str) :=
  match _h : str.dropWhile (· ≠ '=') with
  | [] => []
  | _ :: rest =>
    (str.takeWhile (· ≠ '='), rest.takeWhile (· ≠ '&'))
      :: splitParams (rest.dropWhile (· ≠ '&')).tail
termination_by str.length
decreasing_by
  have hstr := (List.dropWhile_suffix (l := str) (· ≠ '=')).length_le
  have hrest := (List.dropWhile_suffix (l := rest) (· ≠ '&')).length_le
  rw [_h, List.length_cons] at hstr
  rw [List.length_tail]
  omega

/-- `PARSE_PARAM` without trimming: the values are decoded. -/
def parseParam (str : Str) : List (Str × Str) :=
  (splitParams str).map fun p => (p.1, StringUtil.UrlDecode p.2)

/-- `parseQuery`: a map, in which a later value replaces an earlier one. -/
def parseQuery (query : Str) (key : Str) : Option Str :=
  let m := (splitParams query).map fun p =>
    (StringUtil.UrlDecode p.1, StringUtil.UrlDecode p.2)
  (m.reverse.find? fun p => p.1 = key).map Prod.snd

/-- The keys that `CaseInsensitiveLess` does not tell apart. -/
def strcaseeq (lhs rhs : Str) : Bool :=
  (cstr lhs).map Char.toLower == (cstr rhs).map Char.toLower

/-- `strcasestr` finds the second text in the first. -/
def strcasestr (text s : Str) : Bool :=
  ((cstr text).map Char.toLower).tails.any fun t => ((cstr s).map Char.toLower).isPrefixOf t

/-- The headers are in the order in which they were set. -/
structure HttpRequest where
  m_path : Str
  m_query : Str
  m_headers : List (Str × Str)
  m_body : Bytes
  deriving DecidableEq, Repr

namespace HttpRequest

/-- The body as a `std::string`. -/
def getBody (request : HttpRequest) : Str := request.m_body.map fun b => Char.ofNat b.toNat

def getHeader (request : HttpRequest) (key : Str) : Str :=
  ((request.m_headers.reverse.find? fun h => strcaseeq h.1 key).map Prod.snd).getD []

/-- `initQueryParam` and `initBodyParam`; a key that is there already is not inserted
again. -/
def m_params (request : HttpRequest) : List (Str × Str) :=
  parseParam request.m_query
    ++ if strcasestr (request.getHeader "content-type".toList)
        "application/x-www-form-urlencoded".toList
      then parseParam request.getBody else []

def getParam (request : HttpRequest) (key : Str) : Str :=
  ((request.m_params.find? fun p => strcaseeq p.1 key).map Prod.snd).getD []

/-- `GetArtifactToken`. -/
def GetArtifactToken (request : HttpRequest) : Str :=
  let authorization := request.getHeader "authorization".toList
  let bearer := "Bearer ".toList
  if bearer.length < authorization.length ∧ authorization.take bearer.length = bearer then
    authorization.drop bearer.length
  else
    let token := request.getHeader "X-Artifact-Token".toList
    if token ≠ [] then token else request.getParam "token".toList

end HttpRequest

end FiberServer
