import Mathlib.Logic.Function.Basic
import Kot.Kernel.Vector
import Kot.Net.Listen

/-! The handlers that sockets register for their ports: `tcp_listen_port` and `udp_listen_port`,
their removal, and the calls of a socket that use them. -/
namespace Kot.Net.Registration

open Function
open Kot.Kernel (Fault vectorRemove)

inductive Protocol
  | tcp
  | udp
  deriving DecidableEq, Repr

abbrev Port := UInt16

inductive Owner
  | dhcp
  | socket (k : ℕ)
  deriving DecidableEq, Repr

/-- `struct tcp_handler` and `struct udp_handler`. -/
structure Handler where
  owner : Owner
  index : ℕ
  deriving DecidableEq, Repr

/-- The redirections of the ports: none, or a vector of handlers. A handler that was freed and is
still in its vector is `none`. -/
abbrev Table := Port → Option (List (Option Handler))

/-- `tcp_listen_port` and `udp_listen_port`: the table, and the index of the handler. -/
def listenPort (t : Table) (port : Port) (owner : Owner) : Table × ℕ :=
  let handlers := (t port).getD []
  (update t port (some (handlers ++ [some ⟨owner, handlers.length⟩])), handlers.length)

/-- `tcp_remove_listen_port` and `udp_remove_listen_port`. The index is not compared with the length
of the vector. -/
def removeListenPort (t : Table) (port : Port) (index : ℕ) : Except Fault Table :=
  match t port with
  | none => .ok t
  | some handlers =>
    match handlers[index]? with
    | some (some h) => do
      let handlers ← vectorRemove handlers h.index
      .ok (update t port (some (handlers.set index none)))
    | _ => .error .strayAccess

def ownersOf : List (Option Handler) → Except Fault (List Owner)
  | [] => .ok []
  | none :: _ => .error .strayAccess
  | some h :: hs => do
    let owners ← ownersOf hs
    .ok (h.owner :: owners)

/-- The loop of `process_tcp_packet` and `process_udp_packet`: who gets a packet to a port. -/
def processPacket (t : Table) (port : Port) : Except Fault (List Owner) := ownersOf ((t port).getD [])

/-- A TCP or UDP socket. `localPort` is the port with which it is bound or connected; the code does
not keep it. -/
structure Socket where
  protocol : Protocol
  address : Option Port
  listenIndex : ℕ
  isConnect : Bool
  isLocked : Bool
  isOpen : Bool
  localPort : Option Port
  deriving DecidableEq, Repr

structure State where
  table : Protocol → Table
  socket : ℕ → Option Socket
  next : ℕ
  lastAllocatedPort : UInt16

inductive Errno
  | success
  | ebadf
  | einval
  | eio
  | econnrefused
  | etimedout
  deriving DecidableEq, Repr

/-- The answer of the other side to a SYN. -/
inductive Answer
  | accepted
  | refused
  | silent
  deriving DecidableEq, Repr

/-- What the other side does: whether it completes the end of an old connection, and its answer. -/
structure Outcome where
  closes : Bool
  answer : Answer
  deriving DecidableEq, Repr

def State.setTable (s : State) (p : Protocol) (t : Table) : State :=
  { s with table := update s.table p t }

def State.setSocket (s : State) (k : ℕ) (x : Socket) : State :=
  { s with socket := update s.socket k (some x) }

theorem State.setSocket_socket_self (s : State) (k : ℕ) (x : Socket) :
    (s.setSocket k x).socket k = some x :=
  update_self ..

def socketHandler (s : State) (p : Protocol) : State :=
  { s.setSocket s.next ⟨p, none, 0, false, false, true, none⟩ with next := s.next + 1 }

/-- `socket_bind_handler`. -/
def socketBind (s : State) (k : ℕ) (x : Socket) (port : Port) : Except Fault (Errno × State) :=
  if x.isLocked then .error .deadlock
  else
    match x.address with
    | none => .error .nullDereference
    | some a => do
      let t ← removeListenPort (s.table x.protocol) a x.listenIndex
      let (t, i) := listenPort t port (.socket k)
      .ok (.success, (s.setTable x.protocol t).setSocket k
        { x with address := some port, listenIndex := i, localPort := some port })

/-- The end of `socket_connect_handler` for TCP: a source port is allocated and registered. -/
def tcpConnect (s : State) (k : ℕ) (x : Socket) (t : Table) (port : Port) (answer : Answer) :
    Errno × State :=
  let (source, last) := allocatePort s.lastAllocatedPort
  let (t, i) := listenPort t (htons source) (.socket k)
  let s := { s.setTable .tcp t with lastAllocatedPort := last }
  let x := { x with address := some port, listenIndex := i }
  match answer with
  | .accepted => (.success, s.setSocket k { x with isConnect := true, localPort := some (htons source) })
  | .refused => (.econnrefused, s.setSocket k { x with localPort := none })
  | .silent => (.etimedout, s.setSocket k { x with localPort := none })

/-- `socket_connect_handler`. When an old connection does not end, the lock stays taken. -/
def socketConnect (s : State) (k : ℕ) (x : Socket) (port : Port) (o : Outcome) :
    Except Fault (Errno × State) :=
  if x.isLocked then .error .deadlock
  else do
    let t ← removeListenPort (s.table x.protocol) port x.listenIndex
    match x.protocol with
    | .udp =>
      let (t, i) := listenPort t port (.socket k)
      .ok (.success, (s.setTable .udp t).setSocket k
        { x with address := some port, listenIndex := i, localPort := some port })
    | .tcp =>
      if x.isConnect && !o.closes then
        .ok (.eio, (s.setTable .tcp t).setSocket k
          { x with address := some port, isLocked := true, localPort := none })
      else .ok (tcpConnect s k x t port o.answer)

/-- An old address of a socket that sends. -/
def udpRemove (s : State) (x : Socket) : Except Fault Table :=
  match x.address with
  | none => .ok (s.table .udp)
  | some a => removeListenPort (s.table .udp) a x.listenIndex

/-- The UDP case of `socket_general_send_handler` with an address. -/
def udpSend (s : State) (k : ℕ) (x : Socket) (port : Port) : Except Fault State := do
  let t ← udpRemove s x
  let (t, i) := listenPort t port (.socket k)
  .ok ((s.setTable .udp t).setSocket k
    { x with
      address := some port
      listenIndex := i
      localPort := if x.protocol = .udp then some port else x.localPort })

/-- `socket_general_send_handler` with an address. A TCP socket that is not connected afterwards
falls into the case for UDP. -/
def socketSend (s : State) (k : ℕ) (x : Socket) (port : Port) (o : Outcome) :
    Except Fault (Errno × State) :=
  match x.protocol with
  | .udp => do
    let s ← udpSend s k x port
    .ok (.success, s)
  | .tcp => do
    let (_, s) ← socketConnect s k x port o
    match s.socket k with
    | none => .error .strayAccess
    | some x =>
      if x.isConnect then .ok (.success, s)
      else
        let s ← udpSend s k x port
        .ok (.success, s)

/-- `socket_close_handler`: after the last packet of a connection the cases fall through to the
error. -/
def socketClose (s : State) (k : ℕ) (x : Socket) : Errno × State :=
  (.einval, s.setSocket k { x with isOpen := false })

inductive Event
  | create (p : Protocol)
  | bind (k : ℕ) (port : Port)
  | connect (k : ℕ) (port : Port) (o : Outcome)
  | send (k : ℕ) (port : Port) (o : Outcome)
  | close (k : ℕ)
  deriving DecidableEq, Repr

/-- A call on a socket; the kernel answers calls on others. -/
def State.on (s : State) (k : ℕ) (f : Socket → Except Fault (Errno × State)) :
    Except Fault (Errno × State) :=
  match s.socket k with
  | some x => f x
  | none => .ok (.ebadf, s)

def call (s : State) : Event → Except Fault (Errno × State)
  | .create p => .ok (.success, socketHandler s p)
  | .bind k port => s.on k fun x => socketBind s k x port
  | .connect k port o => s.on k fun x => socketConnect s k x port o
  | .send k port o => s.on k fun x => socketSend s k x port o
  | .close k => s.on k fun x => .ok (socketClose s k x)

def Step (s : State) (e : Event) (s' : State) : Prop := ∃ r, call s e = .ok (r, s')

/-- `DHCP_UDP_PORT_SOURCE`. -/
def dhcpPort : Port := htons 68

/-- The state after `init_udp`, `init_tcp` and `init_dhcp`. -/
def start : State where
  table p := match p with
    | .tcp => fun _ => none
    | .udp => (listenPort (fun _ => none) dhcpPort .dhcp).1
  socket _ := none
  next := 0
  lastAllocatedPort := minListeningPort

/-- Who should get the packets of a port. -/
def Belongs (s : State) (p : Protocol) (port : Port) : Owner → Prop
  | .dhcp => p = .udp ∧ port = dhcpPort
  | .socket k => ∃ x, s.socket k = some x ∧ x.isOpen = true ∧ x.protocol = p ∧ x.localPort = some port

/-- The packets of a port go to those to whom they belong, to each once. -/
def Delivers (t : Table) (B : Port → Owner → Prop) : Prop :=
  ∀ port, ∃ owners, processPacket t port = .ok owners ∧ owners.Nodup ∧ ∀ o, o ∈ owners ↔ B port o

def Registered (s : State) : Prop := ∀ p, Delivers (s.table p) (Belongs s p)

/-- The old registration is what the code removes: there is none and nothing to remove for the
port `a`, or it is for the port `a` and the last one there. -/
def RemovalFits (s : State) (x : Socket) (a : Port) : Prop :=
  match x.localPort with
  | none => s.table x.protocol a = none
  | some p => a = p ∧ ∃ handlers, s.table x.protocol p = some handlers ∧ x.listenIndex + 1 = handlers.length

def ConnectFits (s : State) (x : Socket) (port : Port) (o : Outcome) : Prop :=
  x.isLocked = false ∧ RemovalFits s x port ∧
    (x.protocol = .tcp → (x.isConnect && !o.closes) = true ∨ o.answer = .accepted)

/-- The calls that keep the registrations right. -/
def Meets (s : State) : Event → Prop
  | .create _ => True
  | .bind k _ => ∀ x, s.socket k = some x →
      x.isLocked = false ∧ ∃ a, x.address = some a ∧ RemovalFits s x a
  | .connect k port o => ∀ x, s.socket k = some x → ConnectFits s x port o
  | .send k port o => ∀ x, s.socket k = some x →
      (x.protocol = .udp → ∀ a, x.address = some a → RemovalFits s x a) ∧
      (x.protocol = .tcp → ConnectFits s x port o)
  | .close k => s.socket k = none

def Good (s : State) (e : Event) (r : Errno) (s' : State) : Prop :=
  Registered s' ∧ ∀ k x, e = .close k → s.socket k = some x → r = .success

end Kot.Net.Registration
