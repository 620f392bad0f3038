import FiberServer.Chunk.FSUtil

/-!
# `ArtifactMetadata`

How a request names an artifact.  A `std::map` of parameters and the members of a
JSON object are partial functions from names; jsoncpp's parser and the parsers of
query strings are not modelled, their results are the inputs here.
-/

namespace FiberServer

namespace TypeUtil

open FSUtil (isspace)

/-- The sign and the digits at the front of a text, as `strtol` and its siblings
read them. -/
def signDigits (s : Str) : Bool × Str :=
  let s := s.dropWhile isspace
  let signed := s.head? == some '-' || s.head? == some '+'
  (s.head? == some '-', (if signed then s.tail else s).takeWhile Char.isDigit)

/-- A C++ integer type of `bits` bits holds the value modulo `2 ^ bits`. -/
def wrap (bits : Nat) (v : Int) : Int := Int.bmod v (2 ^ bits)

def strtoull (s : Str) : Nat :=
  let r := signDigits s
  let v := Nat.ofDigitChars 10 r.2 0
  if 2 ^ 64 ≤ v then 2 ^ 64 - 1 else if r.1 then (2 ^ 64 - v) % 2 ^ 64 else v

/-- `TypeUtil::Atoi`, an `int64_t`. -/
def Atoi (s : Str) : Int := wrap 64 (strtoull s)

/-- `std::stoll`; `none` when it throws. -/
def stoll (s : Str) : Option Int :=
  let r := signDigits s
  let v : Int := if r.1 then -(Nat.ofDigitChars 10 r.2 0 : Int) else Nat.ofDigitChars 10 r.2 0
  if r.2 ≠ [] ∧ -2 ^ 63 ≤ v ∧ v < 2 ^ 63 then some v else none

/-- `boost::lexical_cast<int>`; `none` when it throws. -/
def lexicalCastInt (s : Str) : Option Int :=
  let neg := s.head? == some '-'
  let ds := if neg || s.head? == some '+' then s.tail else s
  let v : Int := if neg then -(Nat.ofDigitChars 10 ds 0 : Int) else Nat.ofDigitChars 10 ds 0
  if ds ≠ [] ∧ ds.all Char.isDigit ∧ -2 ^ 31 ≤ v ∧ v < 2 ^ 31 then some v else none

end TypeUtil

/-! ### JSON -/

/-- A member of a JSON object; `int64` is a number for which `isInt64` holds, `uint64` one for
which only `isUInt64` does. -/
inductive Value
  | string (s : Str)
  | int64 (i : Int)
  | uint64 (n : Nat)
  | other
  deriving DecidableEq, Repr

inductive Json
  | object (members : Str → Option Value)
  | null
  | other

namespace JsonUtil

def GetString (members : Str → Option Value) (name : Str) : Str :=
  match members name with
  | some (.string s) => s
  | _ => []

def GetInt32 (members : Str → Option Value) (name : Str) (default_value : Int) : Int :=
  match members name with
  | some (.int64 i) => if -2 ^ 31 ≤ i ∧ i < 2 ^ 31 then i else default_value
  | some (.string s) => TypeUtil.wrap 32 (TypeUtil.Atoi s)
  | _ => default_value

def GetInt64 (members : Str → Option Value) (name : Str) (default_value : Int) : Int :=
  match members name with
  | some (.int64 i) => i
  | some (.string s) => TypeUtil.Atoi s
  | _ => default_value

def GetUint32 (members : Str → Option Value) (name : Str) (default_value : Int) : Int :=
  match members name with
  | some (.int64 i) => if 0 ≤ i ∧ i < 2 ^ 32 then i else default_value
  | some (.string s) => TypeUtil.Atoi s % 2 ^ 32
  | _ => default_value

def GetUint64 (members : Str → Option Value) (name : Str) (default_value : Int) : Int :=
  match members name with
  | some (.int64 i) => if 0 ≤ i then i else default_value
  | some (.uint64 n) => n
  | some (.string s) => TypeUtil.Atoi s % 2 ^ 64
  | _ => default_value

end JsonUtil

/-! ### The metadata of a request -/

structure ArtifactMetadata where
  owner : Str
  checksum : Str
  artifact_name : Str
  storage_name : Str
  type : Str
  version : Str
  build_no : Str
  branch : Str
  commit_id : Str
  size : Int
  artifact_mode : Bool
  deriving DecidableEq, Repr

namespace ArtifactMetadata

def BuildStorageName (artifact_name version build_no : Str) : Str :=
  if version = [] then artifact_name
  else if build_no = [] then version ++ '/' :: artifact_name
  else version ++ '/' :: (build_no ++ '/' :: artifact_name)

def FromFields (owner checksum artifact_name : Str) (size : Int)
    (type version build_no branch commit_id : Str) (explicit_artifact_mode : Bool) :
    ArtifactMetadata where
  owner := owner
  checksum := checksum
  artifact_name := artifact_name
  storage_name := BuildStorageName artifact_name version build_no
  type := type
  version := version
  build_no := build_no
  branch := branch
  commit_id := commit_id
  size := size
  artifact_mode := explicit_artifact_mode || version != [] || build_no != []

def ownerNames : List Str :=
  ["project_name", "project", "namespace", "username", "user"].map String.toList

def checksumNames : List Str := ["checksum", "md5"].map String.toList

def artifactNames : List Str := ["artifact_name", "filename", "file_name"].map String.toList

def typeNames : List Str := ["artifact_type", "type"].map String.toList

/-- The names that make a request an artifact request. -/
def artifactFields : List Str :=
  ["project_name", "project", "namespace", "checksum", "artifact_name", "artifact_type",
    "version", "build_no", "branch", "commit_id"].map String.toList

/-- The first of the names with a value that is not empty. -/
def firstNonEmpty (get : Str → Str) : List Str → Str
  | [] => []
  | name :: names => if get name ≠ [] then get name else firstNonEmpty get names

def FromJson (members : Str → Option Value) : ArtifactMetadata :=
  let get := JsonUtil.GetString members
  FromFields (firstNonEmpty get ownerNames) (firstNonEmpty get checksumNames)
    (firstNonEmpty get artifactNames) (JsonUtil.GetInt64 members "size".toList 0)
    (firstNonEmpty get typeNames) (get "version".toList) (get "build_no".toList)
    (get "branch".toList) (get "commit_id".toList)
    (artifactFields.any fun name => (members name).isSome)

def int64Param (params : Str → Option Str) (name : Str) : Int :=
  match params name with
  | none => 0
  | some s => if s = [] then 0 else (TypeUtil.stoll s).getD 0

def FromParams (params : Str → Option Str) : ArtifactMetadata :=
  let get := fun name => (params name).getD []
  FromFields (firstNonEmpty get ownerNames) (firstNonEmpty get checksumNames)
    (firstNonEmpty get artifactNames) (int64Param params "size".toList)
    (firstNonEmpty get typeNames) (get "version".toList) (get "build_no".toList)
    (get "branch".toList) (get "commit_id".toList)
    (artifactFields.any fun name => (params name).isSome)

/-- `FromJson` on any JSON value; `none` when jsoncpp throws. -/
def ofJson : Json → Option ArtifactMetadata
  | .object members => some (FromJson members)
  | .null => some (FromJson fun _ => none)
  | .other => none

end ArtifactMetadata

end FiberServer
