import EthernetPing.Tcp.Input

/-!
# The web server

The callbacks of `http_server.c` on a connection. A request is whatever starts with the
three bytes `GET` where the first buffer of a chain points to.
-/

namespace EthernetPing

def bytesOf (s : List Char) : List UInt8 := s.map fun ch => UInt8.ofNat ch.toNat

/-- `%d` for a number that fits into 16 bits. -/
def decimal (x : UInt16) : List Char :=
  let d := fun k => Char.ofNat (48 + x.toNat / k % 10)
  if x.toNat < 10 then [d 1]
  else if x.toNat < 100 then [d 10, d 1]
  else if x.toNat < 1000 then [d 100, d 10, d 1]
  else if x.toNat < 10000 then [d 1000, d 100, d 10, d 1]
  else [d 10000, d 1000, d 100, d 10, d 1]

/-- The response in `html[200]`: `snprintf` cuts it to 199 characters. -/
def httpResponse (buttonCount : UInt16) : List UInt8 :=
  (bytesOf ("HTTP/1.0 200 OK\r\nContent-Type: text/html\r\n\r\n<html><body><h1>Buton: ".toList ++
    decimal buttonCount ++
    "</h1><meta http-equiv='refresh' content='1'></body></html>".toList)).take 199

/-- `strncmp((char*)p->payload, "GET", 3) == 0` -/
def isGet (q : Pbuf) : Bool :=
  q.payload 0 == 0x47 && q.payload 1 == 0x45 && q.payload 2 == 0x54

/-- The test of `http_recv` on a chain looks at its first buffer only. -/
def recognised (p : List Pbuf) : Bool := p.head?.any isGet

def Net.log (n : Net) (e : AppEvent) : Net :=
  { n with conn := { n.conn with calls := e :: n.conn.calls } }

def Wire.isRst : Wire → Bool
  | .rst .. => true
  | _ => false

def Net.rsts (n : Net) : ℕ := n.out.wire.countP Wire.isRst

def appWrite (n : Net) (data : List UInt8) : Net :=
  let r := tcpWrite n.conn n.out data
  ({ n with out := r.2 } : Net).log (.write data r.1)

def appOutput (n : Net) : Net :=
  let r := tcpOutput n.conn n.out
  ({ n with out := r.2 } : Net).log (.output r.1)

def appClose (n : Net) : Net :=
  let r := tcpClose n
  r.2.log (.close r.1 (r.2.rsts - n.rsts))

/-- Answer a request and close the connection. -/
def httpAnswer (buttonCount : UInt16) (n : Net) : Net :=
  appClose (appOutput (appWrite n (httpResponse buttonCount)))

def httpRecv (buttonCount : UInt16) (p : Option (List Pbuf)) (n : Net) : Net :=
  let m :=
    match p with
    | none => appClose n
    | some p => if recognised p then httpAnswer buttonCount n else n
  m.log (.ret m.conn.rcvWnd)

/-- `http_accept` for a connection that is not `NULL`; it installs `http_recv`. -/
def httpAccept (n : Net) (err : Err) : Err × Net :=
  if err ≠ .ok then (.val, n) else (.ok, { n with out := { n.out with noDelay := true } })

/-- The callbacks of the server, while the counter of the page is `buttonCount`. -/
def httpServer (buttonCount : UInt16) : App where
  accept n := httpAccept n .ok
  recv := httpRecv buttonCount

theorem length_decimal_le (x : UInt16) : (decimal x).length ≤ 5 := by
  unfold decimal
  split_ifs <;> simp

/-- The response is complete in the buffer. -/
theorem length_httpResponse (buttonCount : UInt16) :
    (httpResponse buttonCount).length = 125 + (decimal buttonCount).length := by
  have hlen := length_decimal_le buttonCount
  rw [httpResponse, List.length_take, bytesOf, List.length_map, List.length_append,
    List.length_append]
  simp
  omega

end EthernetPing
