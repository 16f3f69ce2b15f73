import LinuxExamples.Bytes
import LinuxExamples.Runs

namespace LinuxExamples.TcpEcho

open Bytes Runs

def quit : List UInt8 := ascii ['q', 'u', 'i', 't'] ++ [10]

/-- The client's next call: the `read` of its input, the `write` to the socket, or the
`read` of the loop `while(n_left)`. -/
inductive ClientPoint where
  | input | write | receive | closed
  deriving DecidableEq

inductive ServerPoint where
  | read | write (n : Nat) | closed
  deriving DecidableEq

/-- A connection with its two directions `c2s` and `s2c`. The list `stdin` holds what
the client's reads of its input still return, and the last two fields hold what it has
printed, latest first. -/
structure Connection where
  client : ClientPoint
  stdin : List (List UInt8)
  sndBuffer : Mem
  rcvBuffer : Mem
  nLeft : Nat
  nRecv : Nat
  c2s : List UInt8
  server : ServerPoint
  srvBuffer : Mem
  s2c : List UInt8
  original : List (List UInt8)
  echoed : List (List UInt8)

/-- The client's next call and what follows it; `k` is the number of bytes that a `read`
of the socket returns. When the `read` of its input returns 0 the client asks to retry. -/
def echoClient (BUFSIZ k : Nat) (s : Connection) : Option Connection :=
  match s.client with
  | .input =>
    let chunk := s.stdin.headD []
    let s := { s with stdin := s.stdin.tail }
    if chunk = [] then some s
    else
      let sndBuffer := write (write s.sndBuffer 0 chunk) chunk.length [0]
      if streq sndBuffer 0 quit then some { s with client := .closed, sndBuffer := sndBuffer }
      else
        some { s with
          client := .write
          sndBuffer := sndBuffer
          original := str sndBuffer 0 BUFSIZ :: s.original }
  | .write =>
    let sent := str s.sndBuffer 0 BUFSIZ
    some { s with client := .receive, nLeft := sent.length, nRecv := 0, c2s := s.c2s ++ sent }
  | .receive =>
    if s.nLeft = 0 then
      let rcvBuffer := write s.rcvBuffer s.nRecv [0]
      some { s with
        client := .input
        rcvBuffer := rcvBuffer
        echoed := str rcvBuffer 0 BUFSIZ :: s.echoed }
    else if 0 < k ∧ k ≤ s.nLeft ∧ k ≤ s.s2c.length then
      some { s with
        rcvBuffer := write s.rcvBuffer s.nRecv (s.s2c.take k)
        s2c := s.s2c.drop k
        nLeft := s.nLeft - k
        nRecv := s.nRecv + k }
    else none
  | .closed => none

/-- The server's next call; its `read` returns 0 when the client has closed. -/
def echoServer (BUFSIZ k : Nat) (s : Connection) : Option Connection :=
  match s.server with
  | .read =>
    if 0 < k ∧ k ≤ BUFSIZ ∧ k ≤ s.c2s.length then
      some { s with
        server := .write k
        srvBuffer := write s.srvBuffer 0 (s.c2s.take k)
        c2s := s.c2s.drop k }
    else if s.client = .closed ∧ s.c2s = [] then some { s with server := .closed }
    else none
  | .write n => some { s with server := .read, s2c := s.s2c ++ read s.srvBuffer 0 n }
  | .closed => none

inductive Act where
  | client (k : Nat) | server (k : Nat)

def step (BUFSIZ : Nat) (s : Connection) : Act → Option Connection
  | .client k => echoClient BUFSIZ k s
  | .server k => echoServer BUFSIZ k s

/-- What a `read` of the input returns as long as it is text other than `quit`. -/
structure Chunk (BUFSIZ : Nat) where
  bytes : List UInt8
  noNul : 0 ∉ bytes
  nonempty : bytes ≠ []
  short : bytes.length < BUFSIZ
  notQuit : bytes ≠ quit

/-- After `connect` and `accept`. None of the buffers and counters is initialised. -/
def start {BUFSIZ : Nat} (input : List (Chunk BUFSIZ)) (sndBuffer rcvBuffer srvBuffer : Mem)
    (nLeft nRecv : Nat) : Connection :=
  ⟨.input, input.map fun c => c.bytes, sndBuffer, rcvBuffer, nLeft, nRecv, [], .read, srvBuffer,
    [], [], []⟩

/-- Nothing is on its way. -/
structure Idle (s : Connection) : Prop where
  c2s : s.c2s = []
  server : s.server = .read
  s2c : s.s2c = []

/-- Each round of the client ends with the bytes it began with and leaves nothing
behind, and until then one of the two processes can go on. -/
structure LockStep (BUFSIZ : Nat) (s : Connection) : Prop where
  ends : s.client = .receive → s.nLeft = 0 →
    read s.rcvBuffer 0 s.nRecv = str s.sndBuffer 0 BUFSIZ ∧ Idle s
  printed : s.client = .input → s.echoed = s.original
  goes : s.client = .receive → 0 < s.nLeft → ∃ a t, step BUFSIZ s a = some t

end LinuxExamples.TcpEcho
