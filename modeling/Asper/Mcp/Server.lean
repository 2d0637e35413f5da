import Asper.Mcp.Json

/-! # The MCP server

One line is one request (`mcp/main.c`): `handleLine` parses it, `handleRequest` answers it. The
tools are seen from the dispatch only: `ToolOutcome` is what their functions return. -/

namespace Asper

open Durable

/-- The JSON codec and the table of the tools. The writer escapes control characters, and what it
writes is UTF-8. -/
structure Host where
  parse : Bytes → Option JxValue
  write : JxValue → Bytes
  write_plain : ∀ v, ∀ b ∈ write v, 32 ≤ b
  write_utf8 : ∀ v, utf8Valid (write v) = true
  /-- Name, description and schema. -/
  tools : List (Utf8 × Utf8 × Utf8)
  version : CUtf8

/-- What a tool function returns. -/
inductive ToolOutcome where
  | ok (payload : JxValue)
  /-- An error of the library, and the last error it noted. -/
  | asper (e : Err) (lastError : Bytes)
  | param (message : Option CUtf8)
  | oom

/-- The tools as they act on the arguments of one line. -/
abbrev ToolCall := Utf8 → Option JxValue → ToolOutcome

def oomResponse : Bytes := ascii
  "\x7b\"jsonrpc\":\"2.0\",\"id\":null,\"error\":\x7b\"code\":-32603,\"message\":\"out of memory\"\x7d\x7d"

def legacyVersion : Bytes := ascii "2025-06-18"
def modernVersion : Bytes := ascii "2026-07-28"

/-- `asper_err_name`. -/
def Err.name : Err → Utf8
  | .io => utf8 "ASPER_ERR_IO" | .parse => utf8 "ASPER_ERR_PARSE"
  | .config => utf8 "ASPER_ERR_CONFIG" | .model => utf8 "ASPER_ERR_MODEL"
  | .notFound => utf8 "ASPER_ERR_NOT_FOUND" | .locked => utf8 "ASPER_ERR_LOCKED"
  | .invalid => utf8 "ASPER_ERR_INVALID" | .busy => utf8 "ASPER_ERR_BUSY"
  | .nomem => utf8 "ASPER_ERR_NOMEM" | .timeout => utf8 "ASPER_ERR_TIMEOUT"
  | .cancelled => utf8 "ASPER_ERR_CANCELLED" | .limit => utf8 "ASPER_ERR_LIMIT"
  | .unsupported => utf8 "ASPER_ERR_UNSUPPORTED"

section
variable (H : Host)

/-! ## Writing responses -/

def jxWrite (v : Option JxValue) : Mcp (Option Bytes) :=
  match v with
  | none => pure none
  | some v => do
    if ← alloc then pure (some (H.write v)) else pure none

/-- `send_value`. -/
def sendValue (resp : Option JxValue) : Mcp Unit := do
  match ← jxWrite H resp with
  | none => print oomResponse
  | some s => print s

/-- `decorate_modern_result`. -/
def decorateModernResult (result : Option JxValue) : Mcp (Option JxValue × Bool) :=
  match result with
  | some (.object ms) => do
    let metaObj ← jxObject
    let info ← jxObject
    let i ← setField (info, metaObj.isSome && info.isSome) (utf8 "name")
      (jxString (ascii "asper-mcp"))
    let i ← setField i (utf8 "title") (jxString (ascii "asper"))
    let i ← setField i (utf8 "version") (jxString H.version.val)
    let m ← setField (metaObj, i.2) (utf8 "io.modelcontextprotocol/serverInfo") (pure i.1)
    let r ← setField (some (.object ms), m.2) (utf8 "resultType") (jxString (ascii "complete"))
    setField r (utf8 "_meta") (pure m.1)
  | _ => pure (result, false)

/-- `id ? id : jx_null()`. -/
def idOrNull (id : Option JxValue) : Mcp (Option JxValue) :=
  match id with
  | some id => pure (some id)
  | none => jxNew .null

/-- The object that holds `body` under `key`, sent; `ok` is whether `body` was built. -/
def sendResponse (id : Option JxValue) (key : Utf8) (body : Option JxValue) (ok : Bool) :
    Mcp Unit := do
  let resp ← jxObject
  let r ← setField (resp, ok && resp.isSome) (utf8 "jsonrpc") (jxString (ascii "2.0"))
  let r ← setField r (utf8 "id") (idOrNull id)
  let r ← setField r key (pure body)
  if r.2 = false then print oomResponse else sendValue H r.1

/-- `send_result`. -/
def sendResult (want : Bool) (id result : Option JxValue) (modern : Bool) : Mcp Unit :=
  if want = false then pure ()
  else if modern = true then do
    let r ← decorateModernResult H result
    if r.2 = false then print oomResponse
    else sendResponse H id (utf8 "result") r.1 true
  else sendResponse H id (utf8 "result") result true

/-- `send_error`. -/
def sendError (want : Bool) (id : Option JxValue) (code : Int) (message : Bytes)
    (asperName : Option Utf8) : Mcp Unit :=
  if want = false then pure ()
  else do
    let err ← jxObject
    let e ← setField (err, err.isSome) (utf8 "code") (jxNew (.int code))
    let e ← setField e (utf8 "message") (jxString message)
    match asperName with
    | none => sendResponse H id (utf8 "error") e.1 e.2
    | some name => do
      let data ← jxObject
      let d ← setField (data, e.2) (utf8 "asper") (jxString name.val)
      let e ← setField (e.1, d.2) (utf8 "data") (pure d.1)
      sendResponse H id (utf8 "error") e.1 e.2

/-- `send_tool_result`. -/
def sendToolResult (want : Bool) (id payload : Option JxValue) (isError modern : Bool) : Mcp Unit :=
  if want = false then pure ()
  else do
    match ← jxWrite H payload with
    | none => print oomResponse
    | some txt => do
      let item ← jxObject
      let i ← setField (item, item.isSome) (utf8 "type") (jxString (ascii "text"))
      let i ← setField i (utf8 "text") (jxString txt)
      let content ← jxArray
      let c ← pushItem (content, i.2) (pure i.1)
      let res ← jxObject
      let r ← setField (res, c.2) (utf8 "content") (pure c.1)
      let r ← setField r (utf8 "isError") (jxNew (.bool isError))
      if r.2 = false then print oomResponse else sendResult H true id r.1 modern

/-! ## Methods -/

/-- The empty text where there is none. -/
def orEmpty (m : Option JxValue) : Mcp (Option JxValue) :=
  if m.isNone then jxString [] else pure m

/-- `asper_error_payload`. A message that is not UTF-8 is dropped. -/
def asperErrorPayload (e : Err) (lastError : Bytes) : Mcp (Option JxValue) := do
  let o ← jxObject
  let o ← setField (o, o.isSome) (utf8 "error") (jxString e.name.val)
  let m ← jxString lastError
  let m ← orEmpty m
  let o ← setField o (utf8 "message") (pure m)
  if o.2 = false then pure none else pure o.1

/-- `initialize_result`. -/
def initializeResult : Mcp (Option JxValue) := do
  let res ← jxObject
  let r ← setField (res, res.isSome) (utf8 "protocolVersion") (jxString legacyVersion)
  let caps ← jxObject
  let c ← setField (caps, r.2) (utf8 "tools") jxObject
  let r ← setField (r.1, c.2) (utf8 "capabilities") (pure c.1)
  let si ← jxObject
  let s ← setField (si, r.2) (utf8 "name") (jxString (ascii "asper-mcp"))
  let s ← setField s (utf8 "title") (jxString (ascii "asper"))
  let s ← setField s (utf8 "version") (jxString H.version.val)
  let r ← setField (r.1, s.2) (utf8 "serverInfo") (pure s.1)
  if r.2 = false then pure none else pure r.1

/-- `discover_result`. -/
def discoverResult : Mcp (Option JxValue) := do
  let res ← jxObject
  let versions ← jxArray
  let caps ← jxObject
  let v ← pushItem (versions, res.isSome && versions.isSome && caps.isSome) (jxString modernVersion)
  let v ← pushItem v (jxString legacyVersion)
  let c ← setField (caps, v.2) (utf8 "tools") jxObject
  let r ← setField (res, c.2) (utf8 "supportedVersions") (pure v.1)
  let r ← setField r (utf8 "capabilities") (pure c.1)
  let r ← setField r (utf8 "instructions") (jxString (ascii "Persistent memory tools for asper."))
  let r ← setField r (utf8 "ttlMs") (jxNew (.int 3600000))
  let r ← setField r (utf8 "cacheScope") (jxString (ascii "private"))
  if r.2 = false then pure none else pure r.1

/-- One tool of `tools/list`; parsing its schema allocates too. -/
def toolEntry (t : Utf8 × Utf8 × Utf8) : Mcp (Option JxValue) := do
  if ← alloc then
    match H.parse t.2.2.val with
    | none => pure none
    | some schema => do
      let o ← jxObject
      let o ← setField (o, o.isSome) (utf8 "name") (jxString t.1.val)
      let o ← setField o (utf8 "description") (jxString t.2.1.val)
      let o ← setField o (utf8 "inputSchema") (pure (some schema))
      if o.2 = false then pure none else pure o.1
  else pure none

/-- The loop of `handle_tools_list`. -/
def toolEntries : List (Utf8 × Utf8 × Utf8) → Option JxValue → Mcp (Option JxValue × Bool)
  | [], arr => pure (arr, true)
  | t :: ts, arr => do
    match ← toolEntry H t with
    | none => pure (arr, false)
    | some o => do
      let r ← jxArrayPush arr (some o)
      if r.2 = false then pure (r.1, false) else toolEntries ts r.1

/-- The array of `tools/list`, and whether it is complete. -/
def toolsArray (arr : Option JxValue) : Mcp (Option JxValue × Bool) :=
  if arr.isSome then toolEntries H H.tools arr else pure (arr, false)

def outOfMemory : Bytes := ascii "out of memory"

/-- `handle_tools_list`. -/
def handleToolsList (want : Bool) (id : Option JxValue) (modern : Bool) : Mcp Unit := do
  let arr ← jxArray
  let r ← toolsArray H arr
  if r.2 = false then sendError H want id (-32603) outOfMemory none
  else do
    let res ← jxObject
    let s ← jxObjectSet res (utf8 "tools") r.1
    if s.2 = false then sendError H want id (-32603) outOfMemory none
    else sendResult H want id s.1 modern

/-- The message about the name of a tool that does not exist: 80 bytes of it. -/
def unknownTool (name : Bytes) : Bytes := ascii "unknown tool: " ++ name.take 80

/-- `arg_str`: the text, or the message about it. -/
def argStr (v : Option JxValue) (key : Utf8) : Except (Option Bytes) (Option Utf8) :=
  match jxGet v key with
  | none => .ok none
  | some (.string s) =>
    if 0 ∈ s.val then .error (some (ascii "string must not contain NUL")) else .ok (some s)
  | some _ => .error none

/-- The end of `handle_tools_call`. -/
def sendOutcome (want : Bool) (id : Option JxValue) (modern : Bool) : ToolOutcome → Mcp Unit
  | .ok payload => sendToolResult H want id (some payload) false modern
  | .asper e lastError => do
    match ← asperErrorPayload e lastError with
    | none => sendError H want id (-32603) outOfMemory (some e.name)
    | some ep => sendToolResult H want id (some ep) true modern
  | .param message =>
    sendError H want id (-32602)
      (match message with | some m => m.val | none => ascii "invalid params") none
  | .oom => sendError H want id (-32603) outOfMemory none

/-- `handle_tools_call`. -/
def handleToolsCall (call : ToolCall) (want : Bool) (id params : Option JxValue) (modern : Bool) :
    Mcp Unit :=
  match params with
  | some (.object _) =>
    match argStr params (utf8 "name") with
    | .error (some m) => sendError H want id (-32602) m none
    | .ok (some name) =>
      match jxGet params (utf8 "arguments") with
      | some (.object args) =>
        if H.tools.any fun t => t.1 = name then
          sendOutcome H want id modern (call name (some (.object args)))
        else sendError H want id (-32602) (unknownTool name.val) none
      | none =>
        if H.tools.any fun t => t.1 = name then sendOutcome H want id modern (call name none)
        else sendError H want id (-32602) (unknownTool name.val) none
      | some _ => sendError H want id (-32602) (ascii "params.arguments must be an object") none
    | _ => sendError H want id (-32602) (ascii "params.name must be a string") none
  | _ => sendError H want id (-32602) (ascii "params must be an object") none

/-! ## Requests -/

/-- A request may have no id, a text or an integer. -/
def idAllowed : Option JxValue → Bool
  | none | some (.string _) | some (.int _) => true
  | some _ => false

/-- The method of a JSON-RPC 2.0 request. -/
def methodOf (req : Option JxValue) : Option Utf8 :=
  match jxGet req (utf8 "jsonrpc"), jxGet req (utf8 "method") with
  | some (.string version), some (.string method) =>
    if version.val = ascii "2.0" ∧ 0 ∉ method.val then some method else none
  | _, _ => none

/-- The protocol version that the request names. -/
def protocolOf (req : Option JxValue) : Option JxValue :=
  jxGet (jxGet (jxGet req (utf8 "params")) (utf8 "_meta"))
    (utf8 "io.modelcontextprotocol/protocolVersion")

def isModern : Option JxValue → Bool
  | some (.string s) => s.val = modernVersion
  | _ => false

/-- Whether `initialize` is asked for another version. -/
def otherVersion : Option JxValue → Bool
  | none => false
  | some (.string s) => (cstr s.val).val ≠ legacyVersion
  | some _ => true

/-- `initialize`. -/
def handleInitialize (want : Bool) (id params : Option JxValue) : Mcp Unit :=
  if otherVersion (jxGet params (utf8 "protocolVersion")) = true then
    sendError H want id (-32022) (ascii "unsupported MCP protocol version") none
  else do
    let res ← initializeResult H
    if res.isNone then sendError H want id (-32603) outOfMemory none
    else sendResult H want id res false

/-- `server/discover`. -/
def handleDiscover (want : Bool) (id : Option JxValue) : Mcp Unit := do
  let res ← discoverResult
  if res.isNone then sendError H want id (-32603) outOfMemory none
  else sendResult H want id res true

/-- `ping`. -/
def handlePing (want : Bool) (id : Option JxValue) (modern : Bool) : Mcp Unit := do
  let o ← jxObject
  sendResult H want id o modern

/-- The dispatch on the method. -/
def handleMethod (call : ToolCall) (req : Option JxValue) (method : Utf8) (want : Bool)
    (id : Option JxValue) : Mcp Unit :=
  let protocol := protocolOf req
  let modern := isModern protocol
  let params := jxGet req (utf8 "params")
  if protocol.isSome = true ∧ modern = false ∧ method.val ≠ ascii "server/discover" then
    sendError H want id (-32022) (ascii "unsupported MCP protocol version") none
  else if method.val = ascii "initialize" then handleInitialize H want id params
  else if method.val = ascii "server/discover" then handleDiscover H want id
  else if method.val = ascii "ping" then handlePing H want id modern
  else if method.val = ascii "tools/list" then handleToolsList H want id modern
  else if method.val = ascii "tools/call" then handleToolsCall H call want id params modern
  else sendError H want id (-32601) (ascii "method not found") none

/-- `handle_request` from the method on; a request without an id is a notification. -/
def handleNamed (call : ToolCall) (req : Option JxValue) (method : Utf8) : Mcp Unit :=
  let idv := jxGet req (utf8 "id")
  if idv.isNone = true ∧ method.val.take 14 = ascii "notifications/" then pure ()
  else do
    let rid ← jxClone idv
    if idv.isSome ∧ rid.isNone then sendError H true none (-32603) outOfMemory none
    else handleMethod H call req method idv.isSome rid

/-- `handle_request`. -/
def handleRequest (call : ToolCall) (req : JxValue) : Mcp Unit :=
  match req with
  | .array _ => sendError H true none (-32600) (ascii "batch requests are not supported") none
  | .object ms =>
    let req := some (.object ms)
    let idv := jxGet req (utf8 "id")
    if idAllowed idv = false then
      sendError H true none (-32600) (ascii "invalid JSON-RPC request id") none
    else match methodOf req with
      | none => do
        let rid ← jxClone idv
        sendError H idv.isSome rid (-32600) (ascii "invalid JSON-RPC 2.0 request") none
      | some method => handleNamed H call req method
  | _ => sendError H true none (-32600) (ascii "request must be a JSON object") none

/-! ## Lines -/

/-- `read_line` leaves carriage returns at the end of a line out. -/
def stripCr (s : Bytes) : Bytes := (s.reverse.dropWhile (· = 13)).reverse

/-- `line_blank`. -/
def lineBlank (s : Bytes) : Bool := s.all fun b => b = 32 ∨ b = 9

/-- What `main` does with a line. -/
def handleLine (call : ToolCall) (s : Bytes) : Mcp Unit :=
  if lineBlank (stripCr s) = true then pure ()
  else match H.parse (stripCr s) with
    | none => sendError H true none (-32700) (ascii "parse error") none
    | some req => handleRequest H call req

/-- The loop of `main`, over the lines of the input and the tools as they are at each. -/
def serve : List (Bytes × ToolCall) → Mcp Unit
  | [] => pure ()
  | l :: ls => do
    handleLine H l.2 l.1
    serve ls

end

end Asper
