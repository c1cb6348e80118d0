import Tachyon.Lib.SmallLake
import Tachyon.Utils.Http

/-!
# `Tachyon.Handler`: the router and the responses

`main.rs`. `handler` picks one of three responses by method and path, assembles it in the
512-byte lake and copies it to the front of the cache slice it was given.

The date field is set by the clock crate: 35 bytes, whatever they are. The JSON encoder
writes `{"message":"Hello, World!"}` into its own buffer and nothing else.
-/

set_option autoImplicit false

namespace Tachyon

/-- The date field: 35 bytes. -/
structure Date where
  bytes : List UInt8
  length_eq : bytes.length = 35

/-- `[0u8; 35]`, before the first tick of the clock. -/
def Date.zero : Date := ⟨List.replicate 35 0, by simp⟩

namespace Handler

def STATUS_SUCCESS : List UInt8 := ascii "HTTP/1.1 200 OK\r\n"
def STATUS_NOT_FOUND : List UInt8 := ascii "HTTP/1.1 404 Not Found\r\n"
def CONTENT_TYPE_TEXT : List UInt8 := ascii "Content-Type: text/plain; charset=utf-8\r\n"
def CONTENT_TYPE_JSON : List UInt8 := ascii "Content-Type: application/json; charset=utf-8\r\n"
def BASE_HEADERS : List UInt8 :=
  ascii "Server: Tachyon\r\nConnection: keep-alive\r\nKeep-Alive: timeout=5, max=1000\r\n\r\n"

/-- What the JSON encoder leaves in its buffer. -/
def jsonBody : List UInt8 := ascii "\x7b\"message\":\"Hello, World!\"\x7d"

/-- `write_num_str_fixed(n, 2)`: two decimal digits. -/
def numStrFixed2 (n : Nat) : List UInt8 :=
  [UInt8.ofNat (48 + n / 10 % 10), UInt8.ofNat (48 + n % 10)]

/-- The router: status line, content type and body. -/
def route (method path : List UInt8) : List UInt8 × List UInt8 × List UInt8 :=
  if method = ascii "GET" ∧ path = ascii "/plaintext" then
    (STATUS_SUCCESS, CONTENT_TYPE_TEXT, ascii "Hello, World!")
  else if method = ascii "GET" ∧ path = ascii "/json" then
    (STATUS_SUCCESS, CONTENT_TYPE_JSON, jsonBody)
  else
    (STATUS_NOT_FOUND, CONTENT_TYPE_TEXT, ascii "Not, found!")

/-- The nine pieces of a response, in the order of the writes. -/
def pieces (method path : List UInt8) (date : Date) : List (List UInt8) :=
  let (statusLine, ct, body) := route method path
  [statusLine, ct, date.bytes, ascii "\r\n", ascii "Content-Length: ", numStrFixed2 body.length,
    ascii "\r\n", BASE_HEADERS, body]

/-- The writes into the lake, one after another. -/
def writeAll {N : Nat} : List (List UInt8) → SmallLake N → SmallLake N
  | [], lake => lake
  | p :: ps, lake => writeAll ps (lake.write p)

/-- The lake after `handler` has assembled its response. `handler` then copies
`dataLake.asSlice` to `hot_cache` and returns `dataLake.len`. -/
def handler (method path : List UInt8) (date : Date) (dataLake : SmallLake 512) :
    SmallLake 512 :=
  writeAll (pieces method path date) dataLake.resetPos

/-- The response bytes, as one list. -/
def response (date : Date) (method path : List UInt8) : List UInt8 :=
  (pieces method path date).flatten

end Handler

end Tachyon
