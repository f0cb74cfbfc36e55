import DecentralizedBroadcast.Batchers
import DecentralizedBroadcast.StartBroadcast

/-! FIFO broadcast over uniform reliable broadcast. A message carries its number behind
the letter l; `deliver` keeps what comes too early and releases a sender's messages in
order of their numbers, which it reads again from the texts at every call. -/
set_option autoImplicit false

namespace DecentralizedBroadcast

def rfind (s : Str) (c : Char) : Option Nat :=
  (s.reverse.findIdx? (· == c)).map (s.length - 1 - ·)

/-- The layer with the URB below it and the log of its `Receiver`. -/
structure Fifo where
  log : Bool
  lsn : Nat
  next : List Nat
  pending : List Str
  urb : Urb
  processLog : List Str

namespace Fifo

def new (numProcesses : Nat) (log : Bool) : Fifo where
  log := log
  lsn := 0
  next := List.replicate numProcesses 1
  pending := []
  urb := { active := false, pending := [], ack := [], delivered := fun _ => 0 }
  processLog := []

/-- The loop of `startBroadcast`, with the frames URB gives to BEB. -/
def startBroadcastLoop (rank : Nat) : List Str → Fifo → Except Fault (Fifo × List Str)
  | [], f => pure (f, [])
  | message :: rest, f => do
      let lsn := f.lsn + 1
      let processLog := addMessageLog f.processLog (sentEntry message)
      let (urb, frame) ← f.urb.broadcastMessageAddId rank (message ++ ('l' :: decimal lsn)) true
      let f := { f with lsn := lsn, urb := urb, processLog := processLog }
      let (f, frames) ← startBroadcastLoop rank rest f
      pure (f, frame :: frames)

/-- Only after the loop URB becomes active. -/
def startBroadcast (rank : Nat) (messagesToBroadcast : List Str) (f : Fifo) :
    Except Fault (Fifo × List Str) := do
  let (f, frames) ← startBroadcastLoop rank messagesToBroadcast f
  pure ({ f with urb := { f.urb with active := true } }, frames)

/-- `broadcastMessage`, with the frame URB gives to BEB. The text with the number is built, and
`msg` itself is handed to URB. -/
def broadcastMessage (msg : Str) (f : Fifo) : Fifo × Str :=
  let lsn := f.lsn + 1
  let _message := msg ++ ('l' :: decimal lsn)
  let (urb, frame) := f.urb.broadcastMessage msg
  ({ f with lsn := lsn, urb := urb }, frame)

/-- `broadcastMessage` on each message in turn, with the frames given to BEB. -/
def broadcastEach : List Str → Fifo → Fifo × List Str
  | [], f => (f, [])
  | msg :: rest, f =>
      let (f, frame) := f.broadcastMessage msg
      let (f, frames) := broadcastEach rest f
      (f, frame :: frames)

/-- The number of a pending message. `bound` is the size of the message being delivered; without
the letter l the text is read from its start, as `npos + 1` is 0. -/
def readSn (bound : Nat) (pendingMessage : Str) : Except Fault Nat := do
  let start := ((rfind pendingMessage 'l').map (· + 1)).getD 0
  stoul (← substr pendingMessage start bound)

/-- The loop over `pending` that fills `pending_from_sender`. -/
def pendingFromSender (bound processIdMsg : Nat) :
    List Str → OrderedMap Nat Str → Except Fault (OrderedMap Nat Str)
  | [], m => pure m
  | pendingMessage :: rest, m => do
      let processIdPending ← stoul (← substr pendingMessage 0 3)
      if processIdPending = processIdMsg then
        let sn ← readSn bound pendingMessage
        pendingFromSender bound processIdMsg rest (m.insert sn pendingMessage)
      else pendingFromSender bound processIdMsg rest m

def nextOf (f : Fifo) (id : Nat) : Except Fault Nat :=
  match id with
  | 0 => .error .badIndex
  | i + 1 => (f.next[i]?).elim (.error .badIndex) .ok

def toMessageFormat (msg : Str) : Except Fault Str := Lcb.toMessageFormat msg

def withoutSn (message : Str) : Str :=
  match rfind message 'l' with
  | some idx => message.take idx
  | none => message

def deliveredEntry (message : Str) : Except Fault Str := do
  let formated ← toMessageFormat (withoutSn message)
  pure (formated.set 0 'd')

/-- One round of the last loop of `deliver`, with `message` the next one of its sender. -/
def release (id : Nat) (f : Fifo) (message : Str) : Except Fault Fifo := do
  let n ← f.nextOf id
  let f := { f with
    next := f.next.set (id - 1) (n + 1)
    pending := f.pending.filter (· ≠ message) }
  if f.log then
    let entry ← deliveredEntry message
    pure { f with processLog := addMessageLog f.processLog entry }
  else pure f

/-- The last loop of `deliver`. A round takes one key of the map, so that its size bounds the
rounds that find one. -/
def releaseLoop (id : Nat) (m : OrderedMap Nat Str) : Nat → Fifo → Except Fault Fifo
  | 0, f => pure f
  | fuel + 1, f => do
      let n ← f.nextOf id
      match m.find? n with
      | none => pure f
      | some message => do
          let f ← f.release id message
          releaseLoop id m fuel f

def deliver (f : Fifo) (msg : Str) : Except Fault Fifo := do
  let pending := if msg ∈ f.pending then f.pending else f.pending ++ [msg]
  let processIdMsg ← stoul (← substr msg 0 3)
  let m ← pendingFromSender msg.length processIdMsg pending .empty
  releaseLoop processIdMsg m (m.entries.length + 1) { f with pending := pending }

def deliverEach : List Str → Fifo → Except Fault Fifo
  | [], f => pure f
  | msg :: rest, f => do
      let f ← f.deliver msg
      deliverEach rest f

end Fifo

def numbered : Nat → List Str → List Str
  | _, [] => []
  | lsn, msg :: rest => (msg ++ ('l' :: decimal (lsn + 1))) :: numbered (lsn + 1) rest

theorem fifo_startBroadcastLoop_eq {rank : Nat} (hr : rank ≤ 999) (msgs : List Str) (f : Fifo) :
    f.startBroadcastLoop rank msgs = .ok ({ f with
      lsn := f.lsn + msgs.length
      urb := { f.urb with
        pending := f.urb.pending ++ (numbered f.lsn msgs).map (messageKey rank) }
      processLog := (msgs.map sentEntry).foldl addMessageLog f.processLog },
      numbered f.lsn msgs) := by
  have hid : sprintf03d rank = .ok (pad3 rank) := if_pos (fitsId_pad3 hr)
  induction msgs generalizing f with
  | nil => simp [Fifo.startBroadcastLoop, numbered, pure, Except.pure]
  | cons msg msgs ih =>
    simp only [Fifo.startBroadcastLoop, Urb.broadcastMessageAddId, hid, if_true, bind, Except.bind,
      pure, Except.pure, ih]
    simp [numbered, messageKey, Nat.add_assoc, Nat.add_comm 1]

theorem fifo_startBroadcast_ok {rank : Nat} (hr : rank ≤ 999) (msgs : List Str) (f : Fifo) :
    ∃ f', f.startBroadcast rank msgs = .ok (f', numbered f.lsn msgs) ∧ f'.log = f.log ∧
      f'.next = f.next ∧ f'.pending = f.pending ∧
      f'.processLog = (msgs.map sentEntry).foldl addMessageLog f.processLog := by
  rw [Fifo.startBroadcast, fifo_startBroadcastLoop_eq hr]
  exact ⟨_, rfl, rfl, rfl, rfl, rfl⟩

theorem numbered_getElem? (lsn : Nat) (msgs : List Str) (i : Nat) :
    (numbered lsn msgs)[i]? = msgs[i]?.map (· ++ ('l' :: decimal (lsn + i + 1))) := by
  induction msgs generalizing lsn i with
  | nil => simp [numbered]
  | cons msg msgs ih =>
    cases i with
    | zero => simp [numbered]
    | succ i => simp [numbered, ih, Nat.add_assoc, Nat.add_comm 1]

/-- What `s` gives to URB's receivers: its batches of the numbers up to `m`, numbered. -/
def fifoMessages (m s : Nat) : List Str :=
  (numbered 0 (concatMessages ((List.range' 1 m).map decimal))).map (messageKey s)

theorem fifoMessages_getElem? {m s i : Nat} {x : Str} (h : (fifoMessages m s)[i]? = some x) :
    ∃ b, (mainBatches m)[i]? = some b ∧ x = messageKey s b ++ 'l' :: decimal (i + 1) := by
  rw [fifoMessages, ← mainBatches_eq_concatMessages, List.getElem?_map, numbered_getElem?,
    Nat.zero_add, Option.map_map, Option.map_eq_some_iff] at h
  obtain ⟨b, hb, rfl⟩ := h
  exact ⟨b, hb, by simp [messageKey]⟩

theorem rfind_marker {a b : Str} {c : Char} (h : c ∉ b) :
    rfind (a ++ c :: b) c = some a.length := by
  have hfind := find_zero_marker (a := b.reverse) (b := a.reverse) (c := c) (by simpa using h)
  have hrev : (a ++ c :: b).reverse = b.reverse ++ c :: a.reverse := by simp
  simp only [find, List.drop_zero, Option.map_eq_some_iff, Nat.zero_add, exists_eq_right] at hfind
  rw [rfind, hrev, hfind]
  simp

section Read
variable {s k : Nat} {b : Str}

theorem rfind_message : rfind (messageKey s b ++ 'l' :: decimal k) 'l' =
    some (messageKey s b).length := rfind_marker (notMem_decimal rfl)

theorem readSn_message {bound : Nat} (hb : (decimal k).length ≤ bound) (hk : k < 2 ^ 64) :
    Fifo.readSn bound (messageKey s b ++ 'l' :: decimal k) = .ok k := by
  have hsplit : messageKey s b ++ 'l' :: decimal k = (messageKey s b ++ ['l']) ++ decimal k := by
    simp
  have htext : substr (messageKey s b ++ 'l' :: decimal k) ((messageKey s b).length + 1) bound =
      .ok (decimal k) := by
    rw [hsplit]
    exact substr_tail (by simp) hb
  have hnum := stoul_digits (decimal_ne_nil k) (fun _ => decimal_digits)
    Nat.ofDigitChars_ten_toDigits hk
  rw [Fifo.readSn, rfind_message]
  simp only [Option.map_some, Option.getD_some, htext]
  exact hnum

theorem withoutSn_message :
    Fifo.withoutSn (messageKey s b ++ 'l' :: decimal k) = messageKey s b := by
  rw [Fifo.withoutSn, rfind_message]
  exact List.take_left

theorem fifo_deliveredEntry_message (hs : s ≤ 999) :
    Fifo.deliveredEntry (messageKey s b ++ 'l' :: decimal k) = .ok (deliveredLog s b) := by
  rw [Fifo.deliveredEntry, withoutSn_message, Fifo.toMessageFormat, toMessageFormat_messageKey hs]
  rfl

theorem readId_message (hs : s ≤ 999) (rest : Str) :
    (substr (messageKey s rest) 0 3 >>= stoul) = .ok s := by
  have hid := substr_mid (a := []) (b := pad3 s) (c := rest) rfl (pad3_length hs).symm
  rw [List.nil_append] at hid
  refine bind_eq_ok.mpr ⟨pad3 s, hid, ?_⟩
  exact stoul_digits (zeroPad_ne_nil (decimal_ne_nil s)) (fun _ => pad3_digits)
    (ofDigitChars_zeroPad 3 s) (by omega)

end Read

end DecentralizedBroadcast
