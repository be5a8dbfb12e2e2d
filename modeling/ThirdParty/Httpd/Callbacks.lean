import ThirdParty.Httpd.Response
import ThirdParty.Httpd.Headers
import ThirdParty.Httpd.Cgi

/-!
# `Httpd.Callbacks` — the callbacks of the web server (`httpd.c`)

`http_accept`, `http_recv`, `http_sent` and `http_poll`, each as one function on a `Ctx`. `http_recv` is cut at
its own joints: the bounded search for `" HTTP"`, the default files, the CGI dispatch, the response set-up.
-/

namespace ThirdParty.Httpd

open Lib Lwip

/-! ## The received segment -/

/-- The first `pbuf` of a segment: `mem` is the memory from `p->payload` on, of which the first `len` bytes are
    the payload. Memory behind the list reads as zero. -/
structure Segment where
  len    : Nat
  totLen : Nat
  mem    : List Byte
  len_le : len ≤ mem.length
  len_lt : len < 65536

/-- `for (i = 4; i < (p->len - 5); i++) { ... }`: where the loop stops, at the first `" HTTP"` or at its bound.
    The terminator is written over the space found. -/
def findHttp (len : Nat) : Nat → Nat → Ctx → Nat × Ctx
  | 0,        i, c => (i, c)
  | fuel + 1, i, c =>
      if (i : Int) < (len : Int) - 5 then
        let c := c.emit (.payloadRead i (prefixReads (lit " HTTP") (c.payload.drop i)))
        if lit " HTTP" <+: c.payload.drop i then (i, c.writePayload i 0) else findHttp len fuel (i + 1) c
      else (i, c)

/-! ## Finding the file -/

/-- `g_psDefaultFilenames`. -/
def defaultFilenames : List (List Byte × Bool) :=
  [ (lit "/index.shtml", true), (lit "/index.ssi", true), (lit "/index.shtm", true),
    (lit "/index.html", false), (lit "/index.htm", false) ]

/-- `g_pcSSIExtensions`. -/
def ssiExtensions : List (List Byte) := [lit ".shtml", lit ".shtm", lit ".ssi"]

/-- `hs->tag_check = b;`, a field that is there with SSI only. -/
def setTagCheck (cfg : Config) (c : Ctx) (b : Bool) : Ctx :=
  if cfg.includeHttpdSsi then (c.useState).setHs { c.hs with tagCheck := b } else c

/-- `get_404_file`: the file and the URI it leaves. -/
def get404File (cfg : Config) (c : Ctx) : Option Nat × Uri × Ctx :=
  match c.fsOpenUri cfg.fsRoot (.const (lit "/404.html")) with
  | (some i, c) => (some i, .const (lit "/404.html"), c)
  | (none, c) =>
      match c.fsOpenUri cfg.fsRoot (.const (lit "/404.htm")) with
      | (some i, c) => (some i, .const (lit "/404.htm"), c)
      | (none, c)   => (none, .null, c)

/-- The loop over the default file names, and the 404 page when none of them exists. -/
def openDefault (cfg : Config) : List (List Byte × Bool) → Ctx → Option Nat × Uri × Ctx
  | [], c =>
      let (file, uri, c) := get404File cfg c
      (file, uri, setTagCheck cfg c false)
  | (name, shtml) :: names, c =>
      match c.fsOpenUri cfg.fsRoot (.const name) with
      | (some i, c) => (some i, .const name, setTagCheck cfg c shtml)
      | (none, c)   => openDefault cfg names c

/-- `for (i = 0; i < g_iNumCGIs; i++) if (strcmp(uri, g_pCGIs[i].pcCGIName) == 0) ...` -/
def findCgi (u : Uri) : List (List Byte) → Nat → Ctx → Option Nat × Ctx
  | [],         _, c => (none, c)
  | name :: ns, i, c =>
      let (same, c) := c.uriStrcmp u 0 name
      if same then (some i, c) else findCgi u ns (i + 1) c

/-- `params = strchr(uri, '?'); if (params) { *params = '\0'; params++; }`: the index of the `?`. -/
def isolateBase (off : Nat) (c : Ctx) : Option Nat × Ctx :=
  match c.uriStrchr (.payload off) 0 63 with
  | (some i, c) => (some i, c.writePayload (off + i) 0)
  | (none, c)   => (none, c)

/-- `if (params) { params--; *params = '?'; }` -/
def reinstateQuery (off : Nat) (query : Option Nat) (c : Ctx) : Ctx :=
  match query with
  | some i => c.writePayload (off + i) 63
  | none   => c

/-- The CGI dispatch: the URI to open. `if (g_iNumCGIs && g_pCGIs)`: without handlers, and also with a table of
    none, the `?` is not put back. -/
def dispatchCgi (cfg : Config) (env : Env) (off : Nat) (c : Ctx) : Uri × Ctx :=
  let (query, c) := isolateBase off c
  match cfg.cgis with
  | none | some [] => (.payload off, c)
  | some names     =>
      match findCgi (.payload off) names 0 c with
      | (some i, c) =>
          let (count, c) := extractUriParameters cfg (query.map (off + · + 1)) c
          (env.cgi i count, c)
      | (none, c) => (.payload off, reinstateQuery off query c)

/-- `for (loop = 0; loop < NUM_SHTML_EXTENSIONS; loop++) if (strstr(uri, ...)) ...` -/
def hasSsiExtension (u : Uri) : List (List Byte) → Ctx → Bool × Ctx
  | [],        c => (false, c)
  | ext :: es, c =>
      let (found, c) := c.uriStrstr u ext
      if found then (true, c) else hasSsiExtension u es c

/-- A request for a file by its name. -/
def openNamed (cfg : Config) (env : Env) (off : Nat) (c : Ctx) : Option Nat × Uri × Ctx :=
  let (uri, c) := if cfg.includeHttpdCgi then dispatchCgi cfg env off c else (Uri.payload off, c)
  match c.fsOpenUri cfg.fsRoot uri with
  | (none, c) => get404File cfg c
  | (some i, c) =>
      if cfg.includeHttpdSsi then
        let (ssi, c) := hasSsiExtension uri ssiExtensions (setTagCheck cfg c false)
        (some i, uri, if ssi then setTagCheck cfg c true else c)
      else (some i, uri, c)

/-- `if ((uri[0] == '/') && (uri[1] == 0)) { ... } else { ... }` with `uri = &data[4]`. -/
def openRequested (cfg : Config) (env : Env) (c : Ctx) : Option Nat × Uri × Ctx :=
  let c := setTagCheck cfg c false
  let c := c.emit (.payloadRead 4 1)
  let slash := c.payload.getD 4 0 = 47
  let c := if slash then c.emit (.payloadRead 5 1) else c
  if slash ∧ c.payload.getD 5 0 = 0 then openDefault cfg defaultFilenames c else openNamed cfg env 4 c

/-! ## `http_recv` -/

/-- `hs->handle = NULL; hs->file = NULL; hs->left = 0; hs->retries = 0;` -/
def HttpState.serveNothing (hs : HttpState) : HttpState :=
  { hs with handle := none, file := 0, left := 0, retries := 0 }

/-- The response set-up: the segment is released where there is a file to serve. -/
def setUpResponse (cfg : Config) (file : Option Nat) (uri : Uri) (c : Ctx) : Ctx :=
  let c := c.useState
  let c := match file with
    | some i => (c.setHs (c.hs.serve i (fsFile c.fs i))).emit .pbufFree
    | none   => c.setHs c.hs.serveNothing
  if cfg.dynamicHttpHeaders then getHttpHeaders c uri else c

/-- `strncmp(data, "GET ", 4) == 0`. -/
def isGet (c : Ctx) : Bool := c.payload.take 4 = lit "GET "

/-- A request on a connection that is not serving a file. -/
def handleRequest (cfg : Config) (env : Env) (fuel : Nat) (p : Segment) (c : Ctx) : Outcome :=
  let c := c.emit (.payloadRead 0 (prefixReads (lit "GET ") c.payload))
  if isGet c then
    let (i, c) := findHttp p.len p.len 4 c
    if (i : Int) = (p.len : Int) - 5 then ⟨closeConn env (c.emit .pbufFree), true⟩
    else
      let (file, uri, c) := openRequested cfg env c
      let c := setUpResponse cfg file uri c
      sendData cfg env fuel (c.emit (.tcpSent true))
  else ⟨closeConn env (c.emit .pbufFree), true⟩

/-- `tcp_recved(pcb, p->tot_len);` and a look at `hs`, with the payload at hand. -/
def Ctx.receive (c : Ctx) (p : Segment) : Ctx := { (c.emit (.tcpRecved p.totLen)).useState with payload := p.mem }

/-- `http_recv` with a non-`NULL` argument; `none` for `p == NULL`. -/
def httpRecv (cfg : Config) (env : Env) (fuel : Nat) (p : Option Segment) (err : Err) (c : Ctx) : Outcome :=
  if err = .ok then
    match p with
    | none   => ⟨closeConn env c, true⟩
    | some p =>
        let c := c.receive p
        if c.hs.handle = none then handleRequest cfg env fuel p c else ⟨c.emit .pbufFree, true⟩
  else ⟨c, true⟩

theorem httpRecv_some (cfg : Config) (env : Env) (fuel : Nat) (p : Segment) (c : Ctx) :
    httpRecv cfg env fuel (some p) .ok c =
      if c.hs.handle = none then handleRequest cfg env fuel p (c.receive p) else ⟨(c.receive p).emit .pbufFree, true⟩ :=
  rfl

/-! ## The other callbacks -/

/-- `tcp_abort(pcb)`: lwIP calls the error callback, `conn_err`, with the current argument. -/
def tcpAbort (c : Ctx) : Ctx := connErr (c.emit .tcpAbort)

/-- `http_poll` with a non-`NULL` argument. -/
def httpPoll (cfg : Config) (env : Env) (fuel : Nat) (c : Ctx) : Outcome :=
  let c := c.useState
  let c := c.setHs { c.hs with retries := toU8 ((c.hs.retries : Int) + 1) }
  if c.hs.retries = 4 then ⟨tcpAbort c, true⟩
  else if c.hs.handle ≠ none then sendData cfg env fuel c else ⟨c, true⟩

/-- `http_poll` with a `NULL` argument. -/
def httpPollNull : List Ev := [.tcpAbort]

/-- `hs->retries = 0; tcp_sent(pcb, NULL);` -/
def Ctx.notify (c : Ctx) : Ctx := (c.useState.setHs { c.hs with retries := 0 }).emit (.tcpSent false)

/-- `http_sent` with a non-`NULL` argument (with `NULL` it does nothing). Notifications are enabled again once
    `send_data` is back. -/
def httpSent (cfg : Config) (env : Env) (fuel : Nat) (c : Ctx) : Outcome :=
  let o := sendData cfg env fuel c.notify
  if o.returned then ⟨o.ctx.emit (.tcpSent true), true⟩ else o

/-- The fields that `http_accept` sets; the others keep what the memory held. -/
def HttpState.accept (cfg : Config) (garbage : HttpState) : HttpState :=
  { garbage with
    handle := none, file := 0, buf := none, bufLen := 0, left := 0, retries := 0
    hdrIndex := if cfg.dynamicHttpHeaders then numFileHdrStrings else garbage.hdrIndex }

/-- `http_accept` when `mem_malloc` gives it a block (else it returns `ERR_MEM`). -/
def httpAccept (cfg : Config) (garbage : HttpState) (c : Ctx) : Ctx :=
  let c := { c.emit (.mallocState c.nextSerial) with self := c.nextSerial, nextSerial := c.nextSerial + 1 }
  let c := (c.useState).setHs (garbage.accept cfg)
  (((c.emit (.tcpArg true)).emit (.tcpRecv true)).emit (.tcpErr true)).emit (.tcpPoll true)

/-! A page, and a request for it. -/

theorem pageFile_len_lt : 3 < 2147483648 := by decide

def pageFile : FsDataFile := ⟨lit "/a.htm", 4096, 3, pageFile_len_lt⟩

def pageRequest : Segment := ⟨23, 23, lit "GET /a.htm HTTP/1.0\r\n\r\n", by decide, by decide⟩

end ThirdParty.Httpd
