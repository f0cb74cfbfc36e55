import DecentralizedBroadcast.CppString
import Mathlib.Logic.Function.Basic

/-! Uniform reliable broadcast over best-effort broadcast. A message is known by its
key, the three-digit id of its origin followed by its text; a relayed frame carries
the key behind the letter r. Both layers are built with `log` off. -/
set_option autoImplicit false

namespace DecentralizedBroadcast

/-- `ack` lists the entries of the multimap, (key, id of the acknowledging process). -/
structure Urb where
  active : Bool
  pending : List Str
  ack : List (Str × Str)
  delivered : Str → Nat

namespace Urb

/-- `broadcastMessage(msg)`, the overload without `add_id`: also what goes to BEB. -/
def broadcastMessage (u : Urb) (msg : Str) : Urb × Str :=
  ({ u with pending := u.pending ++ [msg] }, msg)

/-- `sender_message` of a delivered packet, from its payload and the id of its sender. -/
def senderMessage (msgPayload msgSender : Str) : Except Fault Str := do
  if msgPayload.head? = some 'r' then
    let originalProcess ← substr msgPayload 1 3
    let originalPayload ← substr msgPayload 4 msgPayload.length
    pure (originalProcess ++ originalPayload)
  else pure (msgSender ++ msgPayload)

/-- Handles a packet that BEB delivered; the second component is relayed through BEB. -/
def deliver (u : Urb) (msg : Str) : Except Fault (Urb × Option Str) := do
  let msgPayload ← substr msg 7 msg.length
  let msgSender ← substr msg 1 3
  let key ← senderMessage msgPayload msgSender
  let u := { u with ack := u.ack ++ [(key, msgSender)] }
  if key ∈ u.pending then pure (u, none)
  else
    let u := { u with pending := u.pending ++ [key] }
    if msg[7]? = some 'r' then
      let relay ← substr msg 7 msg.length
      pure (u, some relay)
    else
      let originalSender ← substr msg 1 3
      let payload ← substr msg 7 msg.length
      pure (u, some ('r' :: (originalSender ++ payload)))

def canDeliver (N : Nat) (u : Urb) (msg : Str) : Bool :=
  decide (N / 2 < u.ack.countP (·.1 = msg))

/-- The loop of `deliverPending` over what is left of `pending`, with the messages handed up. -/
def deliverLoop (N : Nat) : List Str → Urb → Urb × List Str
  | [], u => (u, [])
  | msg :: rest, u =>
      if u.canDeliver N msg ∧ u.delivered msg = 0 then
        let (u', up) :=
          deliverLoop N rest { u with delivered := Function.update u.delivered msg 1 }
        (u', msg :: up)
      else deliverLoop N rest u

def deliverPending (N : Nat) (u : Urb) : Urb × List Str := deliverLoop N u.pending u

end Urb
end DecentralizedBroadcast
