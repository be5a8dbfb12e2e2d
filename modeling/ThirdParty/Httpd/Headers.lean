import ThirdParty.Httpd.Uri

/-!
# `Httpd.Headers` — `get_http_headers` (`httpd.c`)

The header strings, the table from file extensions to content types, and the selection of the three strings for
a URI. The table is declared with one entry more than it has initialisers, so its last entry is `NULL`.
-/

namespace ThirdParty.Httpd

open Lib Lwip

/-- `enum HTTPHeaderTypes`. -/
inductive HttpHeaderType where
  | html | ssi | gif | jpg | png | bmp | app | js | ra | css | swf | defaultType
  | ok | notFound | server | default404Html
  deriving DecidableEq, Repr

/-- `g_psHTTPHeaderStrings`, in the order of its initialisers: the entry named `jpg` holds the type of PNG files
    and the other way round. -/
def httpHeaderString : HttpHeaderType → List Byte
  | .html           => lit "Content-type: text/html\r\n\r\n"
  | .ssi            => lit ("Content-type: text/html\r\nExpires: Fri, 10 Apr 2008 14:00:00 GMT\r\n" ++
                            "Pragma: no-cache\r\n\r\n")
  | .gif            => lit "Content-type: image/gif\r\n\r\n"
  | .jpg            => lit "Content-type: image/png\r\n\r\n"
  | .png            => lit "Content-type: image/jpeg\r\n\r\n"
  | .bmp            => lit "Content-type: image/bmp\r\n\r\n"
  | .app            => lit "Content-type: application/octet-stream\r\n\r\n"
  | .js             => lit "Content-type: application/x-javascript\r\n\r\n"
  | .ra             => lit "Content-type: audio/x-pn-realaudio\r\n\r\n"
  | .css            => lit "Content-type: text/css\r\n\r\n"
  | .swf            => lit "Content-type: application/x-shockwave-flash\r\n\r\n"
  | .defaultType    => lit "Content-type: text/plain\r\n\r\n"
  | .ok             => lit "HTTP/1.0 200 OK\r\n"
  | .notFound       => lit "HTTP/1.0 404 File not found\r\n"
  | .server         => lit "Server: lwIP/1.3.0 (http://www.sics.se/~adam/lwip/)\r\n"
  | .default404Html => lit ("\r\n<html><body><h2>404: The requested file cannot be found." ++
                            "</h2></body></html>\r\n")

/-- `tHTTPHeader`; the extension is `none` for `NULL`. -/
structure HttpHeader where
  extension   : Option (List Byte)
  headerIndex : HttpHeaderType

/-- `g_psHTTPHeaders[NUM_HTTP_HEADERS]`: fifteen initialised entries of sixteen. -/
def httpHeaders : List HttpHeader :=
  [ ⟨some (lit "html"), .html⟩, ⟨some (lit "htm"), .html⟩, ⟨some (lit "shtml"), .ssi⟩, ⟨some (lit "shtm"), .ssi⟩,
    ⟨some (lit "ssi"), .ssi⟩, ⟨some (lit "gif"), .gif⟩, ⟨some (lit "png"), .png⟩, ⟨some (lit "jpg"), .jpg⟩,
    ⟨some (lit "bmp"), .bmp⟩, ⟨some (lit "class"), .app⟩, ⟨some (lit "cls"), .app⟩, ⟨some (lit "js"), .js⟩,
    ⟨some (lit "ram"), .ra⟩, ⟨some (lit "css"), .css⟩, ⟨some (lit "swf"), .swf⟩, ⟨none, .html⟩ ]

def HttpState.setHdr (hs : HttpState) (i : Nat) (h : HttpHeaderType) : HttpState :=
  { hs with hdrs := fun j => if j = i then httpHeaderString h else hs.hdrs j }

/-- `hdr_index = 0; hdr_pos = 0;` -/
def HttpState.startHdrs (hs : HttpState) : HttpState := { hs with hdrIndex := 0, hdrPos := 0 }

/-- `while (pszWork) { pszExt = pszWork + 1; pszWork = strchr(pszExt, '.'); }` -/
def findExtension (u : Uri) : Nat → Nat → Option Nat → Ctx → Option Nat × Ctx
  | 0,        _,    ext, c => (ext, c)
  | fuel + 1, start, ext, c =>
      match c.uriStrchr u start 46 with
      | (some i, c) => findExtension u fuel (i + 1) (some (i + 1)) c
      | (none, c)   => (ext, c)

/-- The search in the table. `strcmp` with the `NULL` entry reads address zero; it is taken as a mismatch. -/
def findHeader (u : Uri) (ext : Nat) : List HttpHeader → Ctx → Option HttpHeaderType × Ctx
  | [],      c => (none, c)
  | h :: hs, c =>
      match h.extension with
      | none   => findHeader u ext hs (c.emit .nullDeref)
      | some e =>
          let (same, c) := c.uriStrcmp u ext e
          if same then (some h.headerIndex, c) else findHeader u ext hs c

/-- The content type for a URI cut before its variables: where its extension starts, and the header found. -/
def contentType (u : Uri) (c : Ctx) : Option Nat × Option HttpHeaderType × Ctx :=
  match findExtension u ((c.uriText u).length + 1) 0 none c with
  | (none, c)     => (none, none, c)
  | (some ext, c) =>
      let (hdr, c) := findHeader u ext httpHeaders c
      (some ext, hdr, c)

/-- The content type for a URI, whose variables are cut off meanwhile. -/
def uriContentType (u : Uri) (c : Ctx) : Option Nat × Option HttpHeaderType × Ctx :=
  match c.uriStrchr u 0 63 with
  | (none, c)   => contentType u c
  | (some i, c) =>
      let (cut, c) := c.cutUri u i
      let (ext, hdr, c) := contentType cut c
      (ext, hdr, c.restoreUri u i 63)

/-- `hdrs[0]`: any URI with `404` in it is taken for an error page. -/
def setStatusHeader (u : Uri) (c : Ctx) : Ctx :=
  let (is404, c) := c.uriStrstr u (lit "404")
  c.setHs (c.hs.setHdr 0 (if is404 then .notFound else .ok))

/-- `get_http_headers`. -/
def getHttpHeaders (c : Ctx) (uri : Uri) : Ctx :=
  let c := c.useState
  let c := c.setHs (c.hs.setHdr 1 .server)
  if uri = .null then c.setHs (((c.hs.setHdr 0 .notFound).setHdr 2 .default404Html).startHdrs)
  else
    match uriContentType uri (setStatusHeader uri c) with
    | (none, _, c)     => c.setHs { c.hs with hdrIndex := numFileHdrStrings }
    | (some _, hdr, c) => c.setHs ((c.hs.setHdr 2 (hdr.getD .defaultType)).startHdrs)

/-! ## The selection reads the URI and nothing else -/

/-- Every header string fits in a `u16_t`. -/
theorem httpHeaderString_short (t : HttpHeaderType) : (httpHeaderString t).length < 65536 := by
  cases t <;> decide +kernel

section
variable (u : Uri) (c : Ctx)

@[simp] theorem readUri_hs (i n : Nat) : (c.readUri u i n).hs = c.hs := by cases u <;> rfl
@[simp] theorem uriStrchr_hs (i : Nat) (ch : Byte) : (c.uriStrchr u i ch).2.hs = c.hs := readUri_hs u c _ _
@[simp] theorem uriStrcmp_hs (i : Nat) (t : List Byte) : (c.uriStrcmp u i t).2.hs = c.hs := readUri_hs u c _ _
@[simp] theorem uriStrstr_hs (t : List Byte) : (c.uriStrstr u t).2.hs = c.hs := by
  unfold Ctx.uriStrstr
  simp only
  split <;> exact readUri_hs u c _ _

@[simp] theorem cutUri_hs (i : Nat) : (c.cutUri u i).2.hs = c.hs := by cases u <;> rfl
@[simp] theorem restoreUri_hs (i : Nat) (ch : Byte) : (c.restoreUri u i ch).hs = c.hs := by cases u <;> rfl

end

theorem findExtension_hs (u : Uri) : ∀ (fuel start : Nat) (ext : Option Nat) (c : Ctx),
    (findExtension u fuel start ext c).2.hs = c.hs := by
  intro fuel
  induction fuel with
  | zero => intro start ext c; rfl
  | succ fuel ih =>
      intro start ext c
      have hread := uriStrchr_hs u c start 46
      unfold findExtension
      generalize c.uriStrchr u start 46 = r at hread
      obtain ⟨found, c'⟩ := r
      cases found with
      | some i => exact (ih _ _ _).trans hread
      | none => exact hread

theorem findHeader_hs (u : Uri) (ext : Nat) : ∀ (hs : List HttpHeader) (c : Ctx),
    (findHeader u ext hs c).2.hs = c.hs := by
  intro hs
  induction hs with
  | nil => intro c; rfl
  | cons h hs ih =>
      intro c
      unfold findHeader
      split
      · exact ih _
      · next e _ =>
          simp only
          split
          · exact uriStrcmp_hs u c ext e
          · exact (ih _).trans (uriStrcmp_hs u c ext e)

theorem contentType_hs (u : Uri) (c : Ctx) : (contentType u c).2.2.hs = c.hs := by
  have hext := findExtension_hs u ((c.uriText u).length + 1) 0 none c
  unfold contentType
  generalize findExtension u ((c.uriText u).length + 1) 0 none c = r at hext
  obtain ⟨ext, c'⟩ := r
  cases ext with
  | none => exact hext
  | some ext => exact (findHeader_hs u ext httpHeaders c').trans hext

/-- Looking for the content type. -/
theorem uriContentType_hs (u : Uri) (c : Ctx) : (uriContentType u c).2.2.hs = c.hs := by
  have hread := uriStrchr_hs u c 0 63
  unfold uriContentType
  generalize c.uriStrchr u 0 63 = r at hread
  obtain ⟨vars, c'⟩ := r
  cases vars with
  | none => exact (contentType_hs u c').trans hread
  | some i =>
      simp only [restoreUri_hs]
      rw [contentType_hs, cutUri_hs]
      exact hread

/-- The status line. -/
theorem setStatusHeader_hdrs (u : Uri) (c : Ctx) :
    (setStatusHeader u c).hs.hdrs 1 = c.hs.hdrs 1 ∧
    ∃ t, (setStatusHeader u c).hs.hdrs 0 = httpHeaderString t := by
  have hread := uriStrstr_hs u c (lit "404")
  unfold setStatusHeader
  generalize c.uriStrstr u (lit "404") = r at hread
  obtain ⟨is404, c'⟩ := r
  simp only at hread
  exact ⟨by simp [HttpState.setHdr, hread], _, rfl⟩

end ThirdParty.Httpd
