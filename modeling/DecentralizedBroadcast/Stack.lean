import DecentralizedBroadcast.PerfectLink
import DecentralizedBroadcast.UniformBroadcast
import DecentralizedBroadcast.CausalBroadcast
import DecentralizedBroadcast.Lib.History

/-! The whole program: `N` processes, each running main's batching loop over
LocalizedCausalBroadcast, UniformReliableBroadcast, BestEffortBroadcast and the links.
Every call of a layer is one action; a process may crash between any two. -/
set_option autoImplicit false

namespace DecentralizedBroadcast

def groupBy : Nat := 15

/-- main's loop, `remaining` messages before its end: the strings it broadcasts. -/
def batchLoop : Nat → Nat → Str → Nat → List Str
  | 0, _, messagesConcat, msgNum =>
      -- after the loop: the number of messages was no multiple of 15
      if messagesConcat ≠ [] then [zeroPad 2 (decimal msgNum) ++ messagesConcat.dropLast] else []
  | remaining + 1, seqNum, messagesConcat, msgNum =>
      let (messagesConcat, msgNum) :=
        if msgNum < groupBy then (messagesConcat ++ (decimal seqNum ++ ['s']), msgNum + 1)
        else (messagesConcat, msgNum)
      if msgNum = groupBy then
        (decimal msgNum ++ messagesConcat.dropLast) :: batchLoop remaining (seqNum + 1) [] 0
      else batchLoop remaining (seqNum + 1) messagesConcat msgNum

def mainBatches (m : Nat) : List Str := batchLoop m 1 [] 0

/-- What the command line and the config file give each process: `m` and `localized_ids`. -/
structure Config where
  N : Nat
  two_le : 2 ≤ N
  m : Nat → Nat
  m_le : ∀ p, m p ≤ 2147483647
  localizedIds : Nat → List Int

/-- A process above its links. `unsent` holds the strings its main loop has yet to broadcast,
`messagesDelivered` is BEB's list, `processLog` the log of its `Receiver`. -/
structure Process where
  unsent : List Str
  messagesDelivered : List Str
  urb : Urb
  lcb : Lcb
  processLog : List Str

/-- What the layers did, as seen from outside: the text LCB gave to URB, a frame given to
BEB, a packet BEB gave to URB, a message URB gave to LCB, a message LCB delivered. -/
inductive Kind where
  | broadcast | beb | handUp | urbDeliver | lcbDeliver
  deriving DecidableEq, Repr

structure Event where
  kind : Kind
  proc : Nat
  text : Str
  deriving DecidableEq, Repr

structure Sys where
  net : Net
  proc : Nat → Process
  crashed : Nat → Bool
  trace : List Event

inductive Action where
  | setBroadcastActive (p : Nat)
  | broadcastMessage (p : Nat)           -- the next broadcast of main's loop
  | sendThreaded (p t : Nat)
  | ackThreaded (p t : Nat)
  | receive (p link : Nat) (received : Str)
  | urbDeliverPending (p : Nat)
  | lcbDeliverPending (p : Nat)
  | crash (p : Nat)

/-- `Receiver::addMessageLog`: an entry that is there already is dropped. -/
def addMessageLog (processLog : List Str) (msg : Str) : List Str :=
  if msg ∈ processLog then processLog else processLog ++ [msg]

theorem mem_addMessageLog {l : List Str} {e x : Str} :
    x ∈ addMessageLog l e ↔ x ∈ l ∨ x = e := by
  unfold addMessageLog
  split
  · exact ⟨.inl, by rintro (h | rfl) <;> assumption⟩
  · simp

theorem mem_foldl_addMessageLog {es l : List Str} {x : Str} :
    x ∈ es.foldl addMessageLog l ↔ x ∈ l ∨ x ∈ es := by
  induction es generalizing l with
  | nil => simp
  | cons e es ih => rw [List.foldl_cons, ih, mem_addMessageLog, List.mem_cons, or_assoc]

theorem foldl_addMessageLog {es l : List Str} (h : (l ++ es).Nodup) :
    es.foldl addMessageLog l = l ++ es := by
  induction es generalizing l with
  | nil => simp
  | cons e es ih =>
    have hnot : e ∉ l := fun hin => (List.nodup_append.mp h).2.2 e hin e (by simp) rfl
    have hadd : addMessageLog l e = l ++ [e] := if_neg hnot
    rw [List.foldl_cons, hadd, ih (by simpa using h), List.append_assoc, List.singleton_append]

theorem foldl_addMessageLog_sublist (es : List Str) :
    (es.foldl addMessageLog []).Sublist es ∧ (es.foldl addMessageLog []).Nodup := by
  have hall : ∀ (es l : List Str), l.Nodup → ∃ es', es'.Sublist es ∧
      es.foldl addMessageLog l = l ++ es' ∧ (l ++ es').Nodup := by
    intro es
    induction es with
    | nil => exact fun l hl => ⟨[], .slnil, by simp, by simpa using hl⟩
    | cons e es ih =>
      intro l hl
      rw [List.foldl_cons, addMessageLog]
      split
      · obtain ⟨es', hsub, heq, hnd⟩ := ih l hl
        exact ⟨es', hsub.cons e, heq, hnd⟩
      · rename_i hnew
        obtain ⟨es', hsub, heq, hnd⟩ := ih (l ++ [e]) (List.nodup_append.mpr
          ⟨hl, List.nodup_singleton e, fun x hx y hy he =>
            hnew (List.mem_singleton.mp hy ▸ he ▸ hx)⟩)
        exact ⟨e :: es', hsub.cons_cons e, by simpa using heq, by simpa using hnd⟩
  obtain ⟨es', hsub, heq, hnd⟩ := hall es [] List.nodup_nil
  rw [List.nil_append] at heq hnd
  exact ⟨heq ▸ hsub, heq ▸ hnd⟩

theorem filter_foldl_addMessageLog (keep : Str → Bool) (es l : List Str) :
    (es.foldl addMessageLog l).filter keep =
      (es.filter keep).foldl addMessageLog (l.filter keep) := by
  induction es generalizing l with
  | nil => rfl
  | cons e es ih =>
    rw [List.foldl_cons, ih, List.filter_cons]
    have hkept : (addMessageLog l e).filter keep =
        if keep e then addMessageLog (l.filter keep) e else l.filter keep := by
      by_cases hin : e ∈ l <;> by_cases hk : keep e = true <;> simp [addMessageLog, hin, hk]
    rw [hkept]
    split <;> rfl

def sentEntry (msg : Str) : Str := 'b' :: msg

def Process.start (m : Nat) : Process where
  unsent := mainBatches m
  messagesDelivered := []
  urb := { active := false, pending := [], ack := [], delivered := fun _ => 0 }
  lcb := { active := false, lsn := 0, vc := fun _ => 0, pairs := .empty }
  processLog := []

def Process.setActive (q : Process) : Process :=
  { q with urb := { q.urb with active := true }, lcb := { q.lcb with active := true } }

/-- LCB's and URB's `broadcastMessage`; the second component is the frame for BEB. -/
def Process.broadcastMessage (rank : Nat) (dependencies : List Int) (q : Process) (msg : Str) :
    Except Fault (Process × Str) := do
  let (lcb, messageToSend) ← q.lcb.broadcastMessage rank dependencies msg
  let (urb, frame) := q.urb.broadcastMessage messageToSend
  let processLog := addMessageLog q.processLog (sentEntry msg)
  pure ({ q with lcb := lcb, urb := urb, processLog := processLog }, frame)

/-- BEB's `deliver` with URB above it, for a packet that BEB has not seen. -/
def Process.deliver (q : Process) (msg : Str) : Except Fault (Process × Option Str) := do
  let (urb, relay) ← q.urb.deliver msg
  pure ({ q with messagesDelivered := q.messagesDelivered ++ [msg], urb := urb }, relay)

def deliverAll : List Str → Lcb → Except Fault Lcb
  | [], l => pure l
  | msg :: rest, l => do
      let l ← l.deliver msg
      deliverAll rest l

def Process.urbDeliverPending (N : Nat) (q : Process) : Except Fault (Process × List Str) := do
  let (urb, up) := q.urb.deliverPending N
  let lcb ← deliverAll up q.lcb
  pure ({ q with urb := urb, lcb := lcb }, up)

def Process.lcbDeliverPending (q : Process) : Except Fault (Process × List Str) := do
  let (lcb, out) ← q.lcb.deliverPending
  let processLog := (out.map Prod.snd).foldl addMessageLog q.processLog
  pure ({ q with lcb := lcb, processLog := processLog }, out.map Prod.fst)

namespace Sys

def setProc (s : Sys) (p : Nat) (q : Process) : Sys :=
  { s with proc := Function.update s.proc p q }

def record (s : Sys) (es : List Event) : Sys := { s with trace := s.trace ++ es }

@[simp] theorem setProc_trace (s : Sys) (p : Nat) (q : Process) : (s.setProc p q).trace = s.trace :=
  rfl

@[simp] theorem setProc_net (s : Sys) (p : Nat) (q : Process) : (s.setProc p q).net = s.net := rfl

@[simp] theorem setProc_proc (s : Sys) (p p' : Nat) (q : Process) :
    (s.setProc p q).proc p' = if p' = p then q else s.proc p' := Function.update_apply _ _ _ _

@[simp] theorem record_trace (s : Sys) (es : List Event) :
    (s.record es).trace = s.trace ++ es := rfl

@[simp] theorem record_net (s : Sys) (es : List Event) : (s.record es).net = s.net := rfl

@[simp] theorem record_proc (s : Sys) (es : List Event) : (s.record es).proc = s.proc := rfl

/-- The processes `p` has a link to, in the order of the links vector. -/
def others (N p : Nat) : List Nat := (List.range' 1 N).filter (· ≠ p)

/-- `BestEffortBroadcast::broadcastMessage` at `p`: `sendNewMessage` on every link. -/
def sendAll (p : Nat) (frame : Str) : List Nat → Net → Except Fault Net
  | [], n => pure n
  | t :: rest, n => do
      let n ← n.sendNewMessage p t frame
      sendAll p frame rest n

def bebBroadcast (s : Sys) (N p : Nat) (frame : Str) : Except Fault Sys := do
  let net ← sendAll p frame (others N p) s.net
  pure ({ s with net := net }.record [⟨.beb, p, frame⟩])

def broadcastMessage (cfg : Config) (s : Sys) (p : Nat) : Except Fault Sys :=
  match (s.proc p).unsent with
  | [] => pure s
  | msg :: rest => do
      let (q, frame) ←
        ({ s.proc p with unsent := rest }).broadcastMessage p (cfg.localizedIds p) msg
      ((s.setProc p q).record [⟨.broadcast, p, frame⟩]).bebBroadcast cfg.N p frame

/-- `broadcast->deliver` of a packet the links hand up. -/
def bebDeliver (N : Nat) (s : Sys) (p : Nat) (msg : Str) : Except Fault Sys := do
  if msg ∈ (s.proc p).messagesDelivered then pure s
  else
    let (q, relay) ← (s.proc p).deliver msg
    let s := (s.setProc p q).record [⟨.handUp, p, msg⟩]
    match relay with
    | some frame => s.bebBroadcast N p frame
    | none => pure s

def receive (N : Nat) (s : Sys) (p link : Nat) (received : Str) : Except Fault Sys := do
  let (net, up) ← s.net.receive N p link received
  match up with
  | some msg => bebDeliver N { s with net := net } p msg
  | none => pure { s with net := net }

def urbDeliverPending (N : Nat) (s : Sys) (p : Nat) : Except Fault Sys := do
  let (q, up) ← (s.proc p).urbDeliverPending N
  pure ((s.setProc p q).record (up.map (⟨.urbDeliver, p, ·⟩)))

def lcbDeliverPending (s : Sys) (p : Nat) : Except Fault Sys := do
  let (q, out) ← (s.proc p).lcbDeliverPending
  pure ((s.setProc p q).record (out.map (⟨.lcbDeliver, p, ·⟩)))

def start (cfg : Config) : Sys where
  net := Net.start
  proc := fun p => Process.start (cfg.m p)
  crashed := fun _ => false
  trace := []

end Sys

def Action.proc : Action → Nat
  | .setBroadcastActive p | .broadcastMessage p | .sendThreaded p _ | .ackThreaded p _
  | .receive p _ _ | .urbDeliverPending p | .lcbDeliverPending p | .crash p => p

/-- Whether the thread that does the action runs: links and broadcasts must be active,
a datagram must have been sent, main must have something left to broadcast. -/
def Action.Enabled (N : Nat) (s : Sys) : Action → Prop
  | .setBroadcastActive _ | .crash _ => True
  | .broadcastMessage p => (s.proc p).lcb.active ∧ (s.proc p).unsent ≠ []
  | .sendThreaded p t | .ackThreaded p t => HasLink N p t ∧ ((s.net.layer p).links t).linkActive
  | .receive p link received =>
      HasLink N p link ∧ ((s.net.layer p).links link).linkActive ∧ (p, received) ∈ s.net.wire
  | .urbDeliverPending p => (s.proc p).urb.active
  | .lcbDeliverPending p => (s.proc p).lcb.active

instance (N : Nat) (s : Sys) : (a : Action) → Decidable (a.Enabled N s)
  | .setBroadcastActive _ | .crash _ => inferInstanceAs (Decidable True)
  | .broadcastMessage _ | .sendThreaded _ _ | .ackThreaded _ _ =>
      inferInstanceAs (Decidable (_ ∧ _))
  | .receive _ _ _ => inferInstanceAs (Decidable (_ ∧ _ ∧ _))
  | .urbDeliverPending _ | .lcbDeliverPending _ => inferInstanceAs (Decidable (_ = true))

def Sys.act (cfg : Config) (s : Sys) : Action → Except Fault Sys
  | .setBroadcastActive p => pure ({ s with
      net := s.net.setLayer p ((s.net.layer p).setLinks true) }.setProc p (s.proc p).setActive)
  | .broadcastMessage p => s.broadcastMessage cfg p
  | .sendThreaded p t => pure { s with net := s.net.sendThreaded p t }
  | .ackThreaded p t => pure { s with net := s.net.ackThreaded p t }
  | .receive p link received => Sys.receive cfg.N s p link received
  | .urbDeliverPending p => Sys.urbDeliverPending cfg.N s p
  | .lcbDeliverPending p => s.lcbDeliverPending p
  | .crash p => pure { s with crashed := Function.update s.crashed p true }

/-- A fault kills the process; as any crash it is covered by the crash action. -/
def Sys.step (cfg : Config) (s : Sys) (a : Action) : Option Sys :=
  if 1 ≤ a.proc ∧ a.proc ≤ cfg.N ∧ s.crashed a.proc = false ∧ a.Enabled cfg.N s then
    (s.act cfg a).toOption
  else none

def stack (cfg : Config) : Machine Sys Action := ⟨Sys.start cfg, Sys.step cfg⟩

/-- Three processes. The first two broadcast one message each; the second depends on the first. -/
def trio : Config where
  N := 3
  two_le := by decide
  m := fun p => if p ≤ 2 then 1 else 0
  m_le := by intro p; split <;> decide
  localizedIds := fun p => if p = 2 then [1] else []

def trioFirst : Str := ['0', '1', '1', 'v', '0', '0', '1', '0']

def trioSecond : Str := ['0', '1', '1', 'v', '0', '0', '1', '1', 'v', '0', '0', '2', '0']

def relayFrame (s : Nat) (text : Str) : Str := 'r' :: (pad3 s ++ text)

/-- The second process delivers the first message and broadcasts; the third only hears of that. -/
def trioWaiting : List Action :=
  [.setBroadcastActive 1, .setBroadcastActive 2, .setBroadcastActive 3, .broadcastMessage 1,
    .receive 2 1 (packetText 1 2 trioFirst), .receive 1 2 (packetText 2 1 (relayFrame 1 trioFirst)),
    .receive 2 1 (packetText 1 2 (relayFrame 1 trioFirst)), .urbDeliverPending 2,
    .lcbDeliverPending 2, .broadcastMessage 2, .receive 3 2 (packetText 2 3 trioSecond),
    .receive 1 2 (packetText 2 1 trioSecond),
    .receive 3 1 (packetText 1 3 (relayFrame 2 trioSecond)), .urbDeliverPending 3]

/-- The first message reaches the third process too, which delivers both. -/
def trioDelivered : List Action :=
  trioWaiting ++ [.receive 3 1 (packetText 1 3 trioFirst),
    .receive 3 2 (packetText 2 3 (relayFrame 1 trioFirst)), .urbDeliverPending 3,
    .lcbDeliverPending 3]

example : (((stack trio).after trioWaiting).proc 3).lcb.pairs.entries.map Prod.fst =
      [pad3 2 ++ trioSecond] ∧
    (((stack trio).after trioDelivered).proc 3).lcb.pairs.entries = [] ∧
    (((stack trio).after trioDelivered).proc 3).lcb.vc 2 = 1 := by decide

end DecentralizedBroadcast
