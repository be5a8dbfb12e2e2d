import ThirdParty.Httpd.State

/-!
# `Httpd.Uri` — the C string functions on a request URI

`http_recv` works on pointers into the payload of the received segment: it looks for characters, compares with
names and writes terminators in place. Every read is an event with its exact extent, every write an event and a
change of the payload. A string constant (the name of a default file, or what a CGI handler returns) lies
outside the payload.
-/

namespace ThirdParty.Httpd

open Lib Lwip

namespace Ctx

/-- The C string behind a URI. -/
def uriText (c : Ctx) : Uri → List Byte
  | .payload off => cstr (c.payload.drop off)
  | .const s     => s
  | .null        => []

/-- `n` bytes of the string are read, from its byte `i` on. -/
def readUri (c : Ctx) (u : Uri) (i n : Nat) : Ctx :=
  match u with
  | .payload off => c.emit (.payloadRead (off + i) n)
  | .const _     => c
  | .null        => c.emit .nullDeref

def writePayload (c : Ctx) (i : Nat) (b : Byte) : Ctx :=
  { c.emit (.payloadWrite i) with payload := c.payload.set i b }

/-- `strchr(uri + i, ch)`, as an index into the string. -/
def uriStrchr (c : Ctx) (u : Uri) (i : Nat) (ch : Byte) : Option Nat × Ctx :=
  let s := (c.uriText u).drop i
  let found := strchr s ch
  (found.map (i + ·), c.readUri u i (found.getD s.length + 1))

/-- `strstr(uri, t) != NULL`. -/
def uriStrstr (c : Ctx) (u : Uri) (t : List Byte) : Bool × Ctx :=
  let s := c.uriText u
  match strstr s t with
  | some i => (true, c.readUri u 0 (i + t.length))
  | none   => (false, c.readUri u 0 (s.length + 1))

/-- `strcmp(uri + i, t) == 0`. -/
def uriStrcmp (c : Ctx) (u : Uri) (i : Nat) (t : List Byte) : Bool × Ctx :=
  let s := (c.uriText u).drop i
  (s = t, c.readUri u i (strcmpReads s t))

/-- `uri[i] = '\0'`. A constant is not part of the modelled memory, so the shorter string stands for it. -/
def cutUri (c : Ctx) (u : Uri) (i : Nat) : Uri × Ctx :=
  match u with
  | .payload off => (u, c.writePayload (off + i) 0)
  | .const s     => (.const (s.take i), c)
  | .null        => (u, c.emit .nullDeref)

/-- Puts the character back that `cutUri` has overwritten. -/
def restoreUri (c : Ctx) (u : Uri) (i : Nat) (ch : Byte) : Ctx :=
  match u with
  | .payload off => c.writePayload (off + i) ch
  | .const _     => c
  | .null        => c.emit .nullDeref

/-- The comparisons of `fs_open`, record after record up to the first match. -/
def readNames (u : Uri) : List FsDataFile → Ctx → Ctx
  | [],      c => c
  | f :: fs, c =>
      let (same, c) := c.uriStrcmp u 0 f.name
      if same then c else readNames u fs c

/-- `fs_open(uri)`. The name is looked at only once a slot was found. -/
def fsOpenUri (c : Ctx) (root : List FsDataFile) (u : Uri) : Option Nat × Ctx :=
  let name := c.uriText u
  let c := if (fsMalloc c.fs).isSome then readNames u root c else c
  let (file, fs) := fsOpen root c.fs name
  (file, { c with fs := fs })

end Ctx

end ThirdParty.Httpd
