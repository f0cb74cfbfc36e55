import DecentralizedBroadcast.CppString
import DecentralizedBroadcast.Lib.OrderedMap
import Mathlib.Data.Char
import Mathlib.Logic.Function.Basic

/-! Localized causal broadcast. A message carries its clock behind it as text, one
marker v, id and count per dependency and a last one for its own origin. -/
set_option autoImplicit false

namespace DecentralizedBroadcast

abbrev VectorClock := OrderedMap Int Int

/-- `vc` gives 0 for the keys the map does not hold, as its index operator does. -/
structure Lcb where
  active : Bool
  lsn : Nat
  vc : Int → Int
  pairs : OrderedMap Str VectorClock

namespace Lcb

def clockEntry (id count : Int) : Except Fault Str := do
  let processId ← sprintf03d id
  pure ('v' :: (processId ++ intToString count))

/-- `W` after the loop over the dependencies. -/
def dependencyClock (vc : Int → Int) : List Int → Except Fault Str
  | [] => pure []
  | otherRank :: rest => do
      let entry ← clockEntry otherRank (vc otherRank)
      let w ← dependencyClock vc rest
      pure (entry ++ w)

/-- The second component is the message with its clock, which goes to URB. -/
def broadcastMessage (rank : Nat) (dependencies : List Int) (l : Lcb) (msg : Str) :
    Except Fault (Lcb × Str) := do
  let w ← dependencyClock l.vc dependencies
  let own ← clockEntry rank l.lsn
  pure ({ l with lsn := l.lsn + 1 }, msg ++ (w ++ own))

/-- The text of the sequence number of the entry at `idx`, up to the next marker or the end. -/
def snText (vcString : Str) (idx : Nat) (idxNext : Option Nat) : Except Fault Str :=
  match idxNext with
  | some next => substr vcString (idx + 4) (next - (idx + 4))
  | none => substr vcString (idx + 4) vcString.length

/-- The loop of `constructVC` from the marker at `idx`. Every round moves at least four
characters on, so the length of the text is enough fuel. -/
def constructVCLoop (vcString : Str) : Nat → Option Nat → VectorClock → Except Fault VectorClock
  | _, none, w => pure w
  | 0, some _, w => pure w
  | fuel + 1, some idx, w => do
      let processId ← stoi (← substr vcString (idx + 1) 3)
      let idxNext := find vcString 'v' (idx + 4)
      let sn ← stoi (← snText vcString idx idxNext)
      constructVCLoop vcString fuel idxNext (w.insert processId sn)

def constructVC (vcString : Str) : Except Fault VectorClock :=
  constructVCLoop vcString vcString.length (find vcString 'v' 0) .empty

/-- The clock text of a message; without a marker `substr` gets npos. -/
def vcString (msg : Str) : Except Fault Str :=
  match find msg 'v' 0 with
  | some idx => substr msg idx msg.length
  | none => .error .outOfRange

def deliver (l : Lcb) (msg : Str) : Except Fault Lcb := do
  let msgVC := (l.pairs.find? msg).getD .empty
  if msgVC.entries = [] then
    let w ← constructVC (← vcString msg)
    pure { l with pairs := l.pairs.insert msg w }
  else pure l

def isInferior (vc : Int → Int) (w : VectorClock) : Bool :=
  w.entries.all fun e => decide (e.2 ≤ vc e.1)

def withoutClock (message : Str) : Str := message.takeWhile (· ≠ 'v')

def toMessageFormat (msg : Str) : Except Fault Str := do
  let messageSender ← substr msg 0 3
  let messagePayload ← substr msg 3 msg.length
  pure ('0' :: (messageSender ++ (['0', '0', '0'] ++ messagePayload)))

/-- What `addDeliveredMessageLog` makes of a message: the ack digit becomes d. -/
def deliveredEntry (message : Str) : Except Fault Str := do
  let formated ← toMessageFormat (withoutClock message)
  pure (formated.set 0 'd')

/-- The loop of `deliverPending` over what is left of `pairs`, with the messages
delivered and their log entries. -/
def deliverLoop : List (Str × VectorClock) → Lcb → Except Fault (Lcb × List (Str × Str))
  | [], l => pure (l, [])
  | (message, w) :: rest, l =>
      if isInferior l.vc w then do
        let otherRank ← stoi (← substr message 0 3)
        let entry ← deliveredEntry message
        let l := { l with
          vc := Function.update l.vc otherRank (l.vc otherRank + 1)
          pairs := l.pairs.erase message }
        let (l, out) ← deliverLoop rest l
        pure (l, (message, entry) :: out)
      else deliverLoop rest l

def deliverPending (l : Lcb) : Except Fault (Lcb × List (Str × Str)) :=
  deliverLoop l.pairs.entries l

end Lcb
end DecentralizedBroadcast
