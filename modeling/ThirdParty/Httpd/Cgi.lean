import ThirdParty.Httpd.Uri

/-!
# `Httpd.Cgi` — `extract_uri_parameters` (`httpd.c`)

Parameter names and values are taken from the URI in place: the delimiters `&`, `=` and the final space are
overwritten with terminators, and the tables `params` and `param_vals` point into the payload.
-/

namespace ThirdParty.Httpd

open Lib Lwip

/-- `pair = strchr(pair, '&')` with the terminator written at the delimiter, or at the end of the last pair. The
    result is the start of the next pair. -/
def splitPair (pair : Nat) (c : Ctx) : Option Nat × Ctx :=
  match c.uriStrchr (.payload pair) 0 38 with
  | (some i, c) => (some (pair + i + 1), c.writePayload (pair + i) 0)
  | (none, c) =>
      match c.uriStrchr (.payload pair) 0 32 with
      | (some i, c) => (none, c.writePayload (pair + i) 0)
      | (none, c)   => (none, c)

/-- `equals = strchr(equals, '=')` with the terminator written there; the result is `param_vals[loop]`. -/
def splitValue (pair : Nat) (c : Ctx) : Option Nat × Ctx :=
  match c.uriStrchr (.payload pair) 0 61 with
  | (some i, c) => (some (pair + i + 1), c.writePayload (pair + i) 0)
  | (none, c)   => (none, c)

/-- The loop over the pairs, `fuel` of them at most; `loop` is the index of the next one. -/
def extractPairs : Nat → Nat → Option Nat → Ctx → Nat × Ctx
  | 0,        loop, _,         c => (loop, c)
  | _ + 1,    loop, none,      c => (loop, c)
  | fuel + 1, loop, some pair, c =>
      let c := c.useState
      let c := c.setHs { c.hs with params := fun i => if i = loop then some pair else c.hs.params i }
      let (next, c) := splitPair pair c
      let (value, c) := splitValue pair c
      let c := c.setHs { c.hs with paramVals := fun i => if i = loop then value else c.hs.paramVals i }
      extractPairs fuel (loop + 1) next c

/-- `extract_uri_parameters`: `params` is an offset into the payload, or `none` for `NULL`. -/
def extractUriParameters (cfg : Config) (params : Option Nat) (c : Ctx) : Nat × Ctx :=
  match params with
  | none => (0, c)
  | some p =>
      let c := c.emit (.payloadRead p 1)
      if c.payload.getD p 0 = 0 then (0, c) else extractPairs cfg.maxCgiParams 0 (some p) c

end ThirdParty.Httpd
