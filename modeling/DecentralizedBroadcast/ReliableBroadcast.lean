import DecentralizedBroadcast.Trace

/-! Reliable broadcast over the links. A process relays a packet that it delivers for the first
time on all its links, also back to where it came from; a relay names its new target and keeps
the sender that is in the packet. -/
set_option autoImplicit false

namespace DecentralizedBroadcast

def replace (s : Str) (pos len : Nat) (t : Str) : Except Fault Str :=
  if s.length < pos then .error .outOfRange else .ok (s.take pos ++ (t ++ s.drop (pos + len)))

/-- What `addMessageRelay` makes of `msg` on a link to `t`. -/
def relayPacket (t : Nat) (msg : Str) : Except Fault Str := do
  let stringTargetId ← sprintf03d t
  let packet := msg.set 0 '0'
  replace packet 4 3 stringTargetId

namespace Net

def addMessageRelay (n : Net) (p t : Nat) (msg : Str) : Except Fault Net := do
  let packet ← relayPacket t msg
  pure (n.pushMessage p t packet)

/-- `ReliableBroadcast::relay` at `p`: `addMessageRelay` on every link. -/
def relay (p : Nat) (msg : Str) : List Nat → Net → Except Fault Net
  | [], n => pure n
  | t :: rest, n => do
      let n ← n.addMessageRelay p t msg
      relay p msg rest n

end Net

/-- The links, and of every process the list of what its broadcast has delivered. -/
structure ReliableNet where
  net : Net
  messagesDelivered : Nat → List Str

namespace ReliableNet

def start : ReliableNet := ⟨Net.start, fun _ => []⟩

def deliver (N : Nat) (s : ReliableNet) (p : Nat) (msg : Str) : Except Fault ReliableNet := do
  if msg ∈ s.messagesDelivered p then pure s
  else
    let messagesDelivered :=
      Function.update s.messagesDelivered p (s.messagesDelivered p ++ [msg])
    let net ← Net.relay p msg (Sys.others N p) s.net
    pure { net := net, messagesDelivered := messagesDelivered }

def receive (N : Nat) (s : ReliableNet) (t link : Nat) (received : Str) :
    Except Fault ReliableNet := do
  let (net, up) ← s.net.receive N t link received
  match up with
  | some msg => deliver N { s with net := net } t msg
  | none => pure { s with net := net }

/-- Processes queue messages with `addMessage` and `sendNewMessage` as they like, and receive what
the links can receive. -/
def step (N : Nat) (s : ReliableNet) : LinkAction → Option ReliableNet
  | .receive t link received =>
      if (s.net.step N (.receive t link received)).isSome then
        (s.receive N t link received).toOption
      else none
  | a => (s.net.step N a).map fun net => { s with net := net }

end ReliableNet

def reliableMachine (N : Nat) : Machine ReliableNet LinkAction :=
  ⟨ReliableNet.start, ReliableNet.step N⟩

theorem replace_mid {a b c t : Str} {pos len : Nat} (hp : pos = a.length) (hl : len = b.length) :
    replace (a ++ (b ++ c)) pos len t = .ok (a ++ (t ++ c)) := by
  subst hp hl
  have hpos : ¬ (a ++ (b ++ c)).length < a.length := by rw [List.length_append]; omega
  rw [replace, if_neg hpos, List.take_left, ← List.drop_drop, List.drop_left, List.drop_left]

/-- The first of three processes sends the second a message, and the second relays it. -/
def relayedOnce : List LinkAction :=
  [.setActive 1 true, .setActive 2 true, .sendNewMessage 1 2 ['h', 'i'],
    .receive 2 1 (packetText 1 2 ['h', 'i'])]

end DecentralizedBroadcast
