import DecentralizedBroadcast.CppString
import DecentralizedBroadcast.Lib.Machine
import Mathlib.Logic.Function.Basic

/-! Perfect links over UDP: the queues of every link, the delivered list the links
of one process share, and the datagrams. A process is its id; the link of `p`
with `target_id` `t` stands at index `t`, and there is no link from a process to itself. -/
set_option autoImplicit false

namespace DecentralizedBroadcast

def maxLength : Nat := 512

structure Link where
  linkActive : Bool
  messagesToSend : List Str
  acksToSend : List Str

/-- The links of one process and the list of its `Receiver` that all of them read. -/
structure LinkLayer where
  links : Nat → Link
  processDelivered : List Str

/-- What `sprintf` leaves in `packet`, read up to the NUL: ack digit, sender, target, message. -/
def packetText (p t : Nat) (msg : Str) : Str := '0' :: (pad3 p ++ (pad3 t ++ cStr msg))

/-- The formatted text is followed by the `%c` NUL and by the terminator. -/
def formatPacket (p t : Nat) (msg : Str) : Except Fault Str :=
  if (packetText p t msg).length + 2 ≤ maxLength then .ok (packetText p t msg)
  else .error .bufferOverflow

namespace LinkLayer

def updateLink (st : LinkLayer) (t : Nat) (f : Link → Link) : LinkLayer :=
  { st with links := Function.update st.links t (f (st.links t)) }

def pushMessage (st : LinkLayer) (t : Nat) (packet : Str) : LinkLayer :=
  st.updateLink t fun l => { l with messagesToSend := l.messagesToSend ++ [packet] }

def addAck (st : LinkLayer) (t : Nat) (ack : Str) : LinkLayer :=
  st.updateLink t fun l => { l with acksToSend := l.acksToSend ++ [ack] }

/-- `list::remove`: every equal entry goes. -/
def removeMessage (st : LinkLayer) (t : Nat) (msg : Str) : LinkLayer :=
  st.updateLink t fun l => { l with messagesToSend := l.messagesToSend.filter (· ≠ msg) }

def clearAcks (st : LinkLayer) (t : Nat) : LinkLayer :=
  st.updateLink t fun l => { l with acksToSend := [] }

def addMessageDelivered (st : LinkLayer) (msg : Str) : LinkLayer :=
  { st with processDelivered := st.processDelivered ++ [msg] }

def setLinks (st : LinkLayer) (active : Bool) : LinkLayer :=
  { st with links := fun t => { st.links t with linkActive := active } }

end LinkLayer

/-- `other_links[id - 1]` at process `self` of `N`: the id of that link, or null for its own. -/
def otherLink (N self : Nat) (id : Int) : Except Fault (Option Nat) :=
  if 1 ≤ id ∧ id ≤ N then .ok (if id = self then none else some id.toNat) else .error .badIndex

/-- One round of `deliverThreaded` on the link of `self` to `link`, after `receive`
returned `received`. The second component is what is handed to `broadcast->deliver`. -/
def deliverThreaded (N self link : Nat) (st : LinkLayer) (received : Str) :
    Except Fault (LinkLayer × Option Str) := do
  let ack ← substr received 0 1
  let msgProcessId ← stoi (← substr received 1 3)
  let msgTargetId ← stoi (← substr received 4 3)
  let _payload ← substr received 7 received.length
  let messageToDeliver ← substr received 1 received.length
  if (self : Int) = msgTargetId ∧ ack = ['0'] then
    let (st, up) :=
      if messageToDeliver ∈ st.processDelivered then (st, none)
      else (st.addMessageDelivered messageToDeliver, some received)
    let acked := received.set 0 '1'
    if msgTargetId = self ∧ msgProcessId = link then pure (st.addAck link acked, up)
    else
      match ← otherLink N self msgProcessId with
      | some correctLink => pure (st.addAck correctLink acked, up)
      | none => pure (st, up)
  else if (self : Int) = msgProcessId ∧ ack = ['1'] then
    let message := received.set 0 '0'
    if msgTargetId = link then pure (st.removeMessage link message, none)
    else
      match ← otherLink N self msgProcessId with
      | some correctLink => pure (st.removeMessage correctLink message, none)
      | none => pure (st, none)
  else pure (st, none)

/-- All link layers. `wire` holds every datagram ever sent, with its destination: what is
on it may be received at any time, any number of times, or never. `queued` and `handed`
are histories: (sender, target, packet) passed to a link, (process, packet) handed up. -/
structure Net where
  layer : Nat → LinkLayer
  wire : List (Nat × Str)
  queued : List (Nat × Nat × Str)
  handed : List (Nat × Str)

inductive LinkAction where
  | setActive (p : Nat) (active : Bool)
  | addMessage (p t : Nat) (msg : Str)
  | sendNewMessage (p t : Nat) (msg : Str)
  | sendThreaded (p t : Nat)             -- one pass over messages_to_send
  | ackThreaded (p t : Nat)              -- one pass over acks_to_send
  | receive (t link : Nat) (received : Str)

abbrev HasLink (N p t : Nat) : Prop := 1 ≤ p ∧ p ≤ N ∧ 1 ≤ t ∧ t ≤ N ∧ p ≠ t

namespace Net

def setLayer (n : Net) (p : Nat) (st : LinkLayer) : Net :=
  { n with layer := Function.update n.layer p st }

def send (n : Net) (t : Nat) (texts : List Str) : Net :=
  { n with wire := n.wire ++ texts.map (t, ·) }

/-- `messages_to_send.push_back(packet)` on the link of `p` to `t`. -/
def pushMessage (n : Net) (p t : Nat) (packet : Str) : Net :=
  { n.setLayer p ((n.layer p).pushMessage t packet) with queued := n.queued ++ [(p, t, packet)] }

def addMessage (n : Net) (p t : Nat) (msg : Str) : Except Fault Net := do
  let packet ← formatPacket p t msg
  pure (n.pushMessage p t packet)

def sendNewMessage (n : Net) (p t : Nat) (msg : Str) : Except Fault Net := do
  let packet ← formatPacket p t msg
  let n := if ((n.layer p).links t).linkActive then n.send t [packet] else n
  pure (n.pushMessage p t packet)

def sendThreaded (n : Net) (p t : Nat) : Net := n.send t ((n.layer p).links t).messagesToSend

def ackThreaded (n : Net) (p t : Nat) : Net :=
  (n.send t ((n.layer p).links t).acksToSend.eraseReps).setLayer p ((n.layer p).clearAcks t)

def receive (n : Net) (N t link : Nat) (received : Str) : Except Fault (Net × Option Str) := do
  let (st, up) ← deliverThreaded N t link (n.layer t) received
  pure ({ n.setLayer t st with handed := n.handed ++ up.toList.map (t, ·) }, up)

def start : Net :=
  { layer := fun _ => ⟨fun _ => ⟨false, [], []⟩, []⟩, wire := [], queued := [], handed := [] }

def step (N : Nat) (n : Net) : LinkAction → Option Net
  | .setActive p active => some (n.setLayer p ((n.layer p).setLinks active))
  | .addMessage p t msg => if HasLink N p t then (n.addMessage p t msg).toOption else none
  | .sendNewMessage p t msg => if HasLink N p t then (n.sendNewMessage p t msg).toOption else none
  | .sendThreaded p t =>
      if HasLink N p t ∧ ((n.layer p).links t).linkActive then some (n.sendThreaded p t) else none
  | .ackThreaded p t =>
      if HasLink N p t ∧ ((n.layer p).links t).linkActive then some (n.ackThreaded p t) else none
  | .receive t link received =>
      if HasLink N t link ∧ ((n.layer t).links link).linkActive ∧ (t, received) ∈ n.wire then
        (n.receive N t link received).toOption.map Prod.fst
      else none

end Net

/-- The links of `N` processes under any broadcast that uses them. -/
def linkMachine (N : Nat) : Machine Net LinkAction := ⟨Net.start, Net.step N⟩

end DecentralizedBroadcast
