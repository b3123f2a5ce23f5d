import Heimdall.Utils.Helper

/-!
# Requests and responses, and their header

The functions of `http_request.c` that take a header block apart. They work on one buffer, in which
they end the parts with NUL bytes; a string is a position in it and reaches up to the next NUL
(`cstr`). A position outside the buffer stops the run, and so does a call through the NULL that
`get_header` returns for a line without a colon.
-/

namespace Heimdall.Http

def cr : Byte := 13

def lf : Byte := 10

def sp : Byte := 32

def colon : Byte := 58

/-- The memory that a `char *` from `malloc` leads to. -/
structure Block where
  live : Bool
  mem : List Byte
  deriving DecidableEq

/-- The string at a position of a buffer. -/
def cstr (buffer : List Byte) (p : Nat) : Exec (List Byte) :=
  if 0 ∈ buffer.drop p then .ok ((buffer.drop p).takeWhile (· != 0)) else .error .outOfBounds

/-- The string that a pointer leads to. -/
def Block.str (b : Block) : Exec (List Byte) :=
  if b.live then cstr b.mem 0 else .error .useAfterFree

/-- `none` is NULL. -/
structure HTTPRequest where
  reqType : Option (List Byte)
  reqProtocol : Option (List Byte)
  respCode : Option (List Byte)
  respMsg : Option (List Byte)
  reqResource : Option (List Byte)
  reqAccept : Option (List Byte)
  reqFrom : Option (List Byte)
  reqHost : Option (List Byte)
  reqContentType : Option (List Byte)
  reqContentLen : Int
  header : Option Block
  deriving DecidableEq

def newHttpRequest : HTTPRequest :=
  ⟨none, none, none, none, none, none, none, none, none, -1, none⟩

/-- Whether a request is parsed or a response. -/
inductive Kind
  | rqst
  | resp
  deriving DecidableEq

/-! ## The fields -/

/-- What `get_header` does with a field of this name, `data` being the string at `header_data`. It
is read only for the five names. -/
def HTTPRequest.storeHeader (self : HTTPRequest) (header : List Byte) (data : Exec (List Byte)) :
    Exec (Throwable × HTTPRequest) :=
  if header = bytes "accept" then do
    let v ← data
    .ok (.create statusOk .null "get_header", { self with reqAccept := some v })
  else if header = bytes "from" then do
    let v ← data
    .ok (.create statusOk .null "get_header", { self with reqFrom := some v })
  else if header = bytes "host" then do
    let v ← data
    .ok (.create statusOk .null "get_header", { self with reqHost := some v })
  else if header = bytes "content-type" then do
    let v ← data
    .ok (.create statusOk .null "get_header", { self with reqContentType := some v })
  else if header = bytes "content-length" then do
    let v ← data
    let (t, len) := strToInt v
    let self := { self with reqContentLen := len }
    if t.isAnError then .ok (t.thrown "get_header", self)
    else .ok (.create statusOk .null "get_header", self)
  else .ok (.create statusOk .null "get_header", self)

/-- What `get_header` leaves: a throwable, or NULL, and the buffer, in which the colon is a NUL and
the name is in lower case. -/
structure HeaderLine where
  throwable : Option Throwable
  self : HTTPRequest
  buffer : List Byte
  deriving DecidableEq

/-- `get_header` on the line at `start`. -/
def getHeader (self : HTTPRequest) (buffer : List Byte) (start : Nat) : Exec HeaderLine := do
  let line ← cstr buffer start
  match line.findIdx? (· == colon) with
  | none => .ok ⟨none, self, buffer⟩
  | some i =>
    let header := strToLower (line.take i)
    let buffer := buffer.take start ++ header ++ 0 :: buffer.drop (start + i + 1)
    let (t, self) ← self.storeHeader header (cstr buffer (start + i + 2))
    .ok ⟨some t, self, buffer⟩

/-! ## The first line -/

/-- Where the three parts of a first line go, and the texts of the throwables. -/
structure FirstLine where
  first : HTTPRequest → List Byte → HTTPRequest
  second : HTTPRequest → List Byte → HTTPRequest
  third : HTTPRequest → List Byte → HTTPRequest
  split : String
  unsplit : String

/-- The first space in the buffer from `start` on and before `len`. -/
def nextSpace (buffer : List Byte) (start len : Nat) : Option Nat :=
  (((buffer.take len).drop start).findIdx? (· == sp)).map (start + ·)

/-- The loop of `get_request` and `get_response`: the line at the beginning of the buffer is split
at its first two spaces. -/
def FirstLine.get (l : FirstLine) (self : HTTPRequest) (buffer : List Byte) (len : Nat) :
    Exec (Throwable × HTTPRequest × List Byte) := do
  match nextSpace buffer 0 len with
  | none => .ok (.create statusOk .null l.unsplit, self, buffer)
  | some i =>
    let buffer := buffer.set i 0
    let self := l.first self (← cstr buffer 0)
    match nextSpace buffer (i + 1) len with
    | none => .ok (.create statusOk .null l.unsplit, self, buffer)
    | some j =>
      let buffer := buffer.set j 0
      let self := l.second self (← cstr buffer (i + 1))
      let self := l.third self (← cstr buffer (j + 1))
      .ok (.create statusOk .null l.split, self, buffer)

def requestLine : FirstLine where
  first self v := { self with reqType := some v }
  second self v := { self with reqResource := some v }
  third self v := { self with reqProtocol := some v }
  split := "get_header_self_request"
  unsplit := "get_request"

def responseLine : FirstLine where
  first self v := { self with reqProtocol := some v }
  second self v := { self with respCode := some v }
  third self v := { self with respMsg := some v }
  split := "get_response"
  unsplit := "get_response"

def getRequest : HTTPRequest → List Byte → Nat → Exec (Throwable × HTTPRequest × List Byte) :=
  requestLine.get

def getResponse : HTTPRequest → List Byte → Nat → Exec (Throwable × HTTPRequest × List Byte) :=
  responseLine.get

/-! ## The header block -/

/-- The locals of the loop of `read_headers`. -/
structure Reading where
  self : HTTPRequest
  buffer : List Byte
  start : Nat
  deriving DecidableEq

/-- The line that ends with the line feed at `i` is parsed: an error, or the loop goes on. -/
def Reading.line (r : Reading) (kind : Kind) (i : Nat) : Exec (Option Throwable × Reading) := do
  if i = 0 then .error .outOfBounds
  else
    let buffer := r.buffer.set (i - 1) 0
    if r.start = 0 then
      let (t, self, buffer) ←
        match kind with
        | .rqst => getRequest r.self buffer i
        | .resp => getResponse r.self buffer i
      .ok (if t.isAnError then some (t.thrown "read_headers") else none, ⟨self, buffer, i + 1⟩)
    else
      let l ← getHeader r.self buffer r.start
      match l.throwable with
      | none => .error .nullDeref
      | some t =>
        .ok (if t.isAnError then some (t.thrown "read_headers") else none,
          ⟨l.self, l.buffer, i + 1⟩)

/-- An empty line follows: the next bytes are a carriage return and a line feed. -/
def Reading.atEnd (r : Reading) (i : Nat) : Exec Bool :=
  match r.buffer[i + 1]? with
  | none => .error .outOfBounds
  | some b =>
    if b = cr then
      match r.buffer[i + 2]? with
      | none => .error .outOfBounds
      | some b' => .ok (b' == lf)
    else .ok false

/-- The loop of `read_headers` from `i` on, with `n` passes to go. -/
def readHeadersLoop (kind : Kind) : Nat → Nat → Reading → Exec (Throwable × HTTPRequest)
  | 0, _, r => .ok (.create statusOk .null "read_headers", r.self)
  | n + 1, i, r =>
    match r.buffer[i]? with
    | none => .error .outOfBounds
    | some b =>
      if b = lf then do
        let (t, r) ← r.line kind i
        match t with
        | some t => .ok (t, r.self)
        | none =>
          if ← r.atEnd i then .ok (.create statusOk .null "read_headers", r.self)
          else readHeadersLoop kind n (i + 1) r
      else readHeadersLoop kind n (i + 1) r

/-- `read_headers` on a string, of which it makes a copy. -/
def readHeaders (self : HTTPRequest) (string : List Byte) (kind : Kind) :
    Exec (Throwable × HTTPRequest) :=
  readHeadersLoop kind string.length 0 ⟨self, string ++ [0], 0⟩

example : (readHeaders newHttpRequest (bytes "GET / HTTP/1.1\r\nHost: a\r\n\r\n") .rqst).map
    (fun p => p.2.reqHost) = .ok (some (bytes "a")) := by decide

example : readHeaders newHttpRequest (bytes "GET / HTTP/1.1\r\nHost\r\n\r\n") .rqst =
    .error .nullDeref := by decide

end Heimdall.Http
