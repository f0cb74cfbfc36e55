import DecentralizedBroadcast.Stack
import DecentralizedBroadcast.Lib.Locks

/-! The mutexes of one process, as its threads lock them: for each function, what it locks on each
of its ways, with the calls that it makes meanwhile. What the ways depend on is left open. -/
set_option autoImplicit false

namespace DecentralizedBroadcast
namespace ThreadLocks
open Locks

inductive Mutex where
  | receiver (link : Nat)        -- of the link to that process
  | broadcast (link : Nat)
  | messagesToSend (link : Nat)
  | acksToSend (link : Nat)
  | link (link : Nat)
  | processDelivered             -- in the lists of the Receiver
  | processLog
  | messagesDelivered            -- in BEB's list
  | pending                      -- of URB
  | upperLayer
  | pairs                        -- of LCB
  | lcbReceiver
  deriving DecidableEq

inductive Thread where
  | main
  | deliver (link : Nat)
  | send (link : Nat)
  | ack (link : Nat)
  | urbDeliverPending
  | lcbDeliverPending
  deriving DecidableEq

abbrev Ops := List (Op Mutex)

/-- `contains`, `push_back` and `getList` of a `ThreadsafeList`. -/
def onList (m : Mutex) : Ops := guarded m []

/-- `logged` says that the entry is in the log already. -/
def addMessageLog (logged : Bool) : Ops :=
  onList .processLog ++ if logged then [] else onList .processLog

def addLog (logged : Bool) : Ops := guarded .lcbReceiver (addMessageLog logged)

def sendNewMessage (link : Nat) : Ops := guarded (.messagesToSend link) []

def bebBroadcastMessage (N self : Nat) : Ops := (Sys.others N self).flatMap sendNewMessage

/-- LCB's, and under it that of URB, which locks nothing. -/
def broadcastMessage (N self : Nat) (logged : Bool) : Ops :=
  addLog logged ++ bebBroadcastMessage N self

def urbDeliver (N self : Nat) (isPending : Bool) : Ops :=
  guarded .pending (if isPending then [] else bebBroadcastMessage N self)

def bebDeliver (N self : Nat) (delivered isPending : Bool) : Ops :=
  onList .messagesDelivered ++
    if delivered then [] else onList .messagesDelivered ++ urbDeliver N self isPending

inductive CorrectLink where
  | this
  | other (link : Nat)
  | null

/-- A change to that link's list with the mutex `m`; the way to another link is locked. -/
def onCorrectLink (m : Nat → Mutex) (link : Nat) : CorrectLink → Ops
  | .this => guarded (m link) []
  | .other j => guarded (.link link) (guarded (m j) [])
  | .null => guarded (.link link) []

def addAck : Nat → CorrectLink → Ops := onCorrectLink .acksToSend

def removeMessage : Nat → CorrectLink → Ops := onCorrectLink .messagesToSend

/-- What a round of `deliverThreaded` gets, and what it finds about it in the lists. -/
inductive Received where
  | nothing
  | data (recorded delivered isPending : Bool) (sender : CorrectLink)
  | ack (target : CorrectLink)

def deliverThreaded (N self link : Nat) : Received → Ops
  | .nothing => []
  | .data recorded delivered isPending sender =>
      guarded (.receiver link) (onList .processDelivered ++
        if recorded then []
        else onList .processDelivered ++
          guarded (.broadcast link) (bebDeliver N self delivered isPending)) ++
      addAck link sender
  | .ack target => removeMessage link target

/-- The messages go out with the mutex held. -/
def sendThreaded (link : Nat) : Ops := guarded (.messagesToSend link) []

def ackThreaded (link : Nat) : Ops := guarded (.acksToSend link) []

def lcbDeliver : Ops := guarded .pairs []

/-- A pass of URB that gives LCB so many messages. -/
def urbDeliverPending (ready : Nat) : Ops :=
  guarded .pending ((List.range ready).flatMap fun _ => guarded .upperLayer lcbDeliver)

/-- A pass of LCB; for each message that it delivers, whether the log has its entry already. -/
def lcbDeliverPending (inferior : List Bool) : Ops := guarded .pairs (inferior.flatMap addLog)

/-- What the threads of process `self` run, round after round. -/
inductive Runs (N self : Nat) : Thread → Ops → Prop where
  | newLcb : Runs N self .main (guarded .lcbReceiver [])
  | broadcastMessage (logged : Bool) : Runs N self .main (broadcastMessage N self logged)
  | deliverThreaded {link : Nat} (hl : HasLink N self link) (received : Received) :
      Runs N self (.deliver link) (deliverThreaded N self link received)
  | sendThreaded {link : Nat} (hl : HasLink N self link) :
      Runs N self (.send link) (sendThreaded link)
  | ackThreaded {link : Nat} (hl : HasLink N self link) :
      Runs N self (.ack link) (ackThreaded link)
  | urbDeliverPending (ready : Nat) : Runs N self .urbDeliverPending (urbDeliverPending ready)
  | lcbDeliverPending (inferior : List Bool) :
      Runs N self .lcbDeliverPending (lcbDeliverPending inferior)

/-- The signal handler, on whichever thread gets the signal: `getMessageLog` takes the log. -/
def stop : Ops := onList .processLog

/-- The order in which they are locked. The log comes last: nothing is locked under it. -/
def rank : Mutex → ℕ
  | .link _ => 0
  | .receiver _ => 1
  | .broadcast _ => 2
  | .pending => 3
  | .upperLayer => 4
  | .pairs => 5
  | .lcbReceiver => 6
  | .messagesToSend _ | .acksToSend _ | .processDelivered | .messagesDelivered => 7
  | .processLog => 8

theorem rank_le (m : Mutex) : rank m ≤ 8 := by
  cases m <;> simp [rank]

section Within
variable {r : ℕ}

theorem within_leaf {m : Mutex} (h : r ≤ rank m) : Within rank r (guarded m []) := .guarded h .nil

theorem within_ite {b : Bool} {ops : Ops} (h : Within rank r ops) :
    Within rank r (if b then [] else ops) := by
  cases b with
  | true => exact .nil
  | false => exact h

theorem within_addLog (h : r ≤ 6) (logged : Bool) : Within rank r (addLog logged) := by
  have hlist : Within rank (rank .lcbReceiver + 1) (onList .processLog) := within_leaf (by decide)
  exact .guarded h (hlist.append (within_ite hlist))

theorem within_bebBroadcastMessage (h : r ≤ 7) (N self : Nat) :
    Within rank r (bebBroadcastMessage N self) :=
  .flatMap fun _ _ => within_leaf h

theorem within_bebDeliver (h : r ≤ 3) (N self : Nat) (delivered isPending : Bool) :
    Within rank r (bebDeliver N self delivered isPending) := by
  have hlist : Within rank r (onList .messagesDelivered) :=
    within_leaf (Nat.le_trans h (by decide))
  have hurb : Within rank r (urbDeliver N self isPending) :=
    .guarded h (within_ite (within_bebBroadcastMessage (by decide) N self))
  exact hlist.append (within_ite (hlist.append hurb))

theorem within_onCorrectLink {m : Nat → Mutex} (h : ∀ j, 1 ≤ rank (m j)) (link : Nat)
    (correct : CorrectLink) : Within rank 0 (onCorrectLink m link correct) := by
  cases correct with
  | this => exact within_leaf (Nat.zero_le _)
  | other j => exact .guarded (Nat.zero_le _) (within_leaf (h j))
  | null => exact within_leaf (Nat.zero_le _)

theorem within_deliverThreaded (N self link : Nat) (received : Received) :
    Within rank 0 (deliverThreaded N self link received) := by
  cases received with
  | nothing => exact .nil
  | data recorded delivered isPending sender =>
    have hlist : Within rank 2 (onList .processDelivered) := within_leaf (by decide)
    have hbroadcast : Within rank 2
        (guarded (.broadcast link) (bebDeliver N self delivered isPending)) :=
      .guarded (Nat.le_refl 2) (within_bebDeliver (Nat.le_refl 3) N self delivered isPending)
    have hreceiver : Within rank 0 (guarded (.receiver link) (onList .processDelivered ++
        if recorded then [] else onList .processDelivered ++
          guarded (.broadcast link) (bebDeliver N self delivered isPending))) :=
      .guarded (Nat.zero_le _) (hlist.append (within_ite (hlist.append hbroadcast)))
    exact hreceiver.append (within_onCorrectLink (fun _ => by simp [rank]) link sender)
  | ack target => exact within_onCorrectLink (fun _ => by simp [rank]) link target

end Within

theorem Runs.ordered {N self : Nat} {t : Thread} {ops : Ops} (h : Runs N self t ops) :
    Ordered rank [] ops := by
  cases h with
  | newLcb => exact (within_leaf (Nat.zero_le _)).ordered
  | broadcastMessage logged =>
    exact ((within_addLog (Nat.zero_le _) logged).append
      (within_bebBroadcastMessage (Nat.zero_le _) N self)).ordered
  | deliverThreaded hl received => exact (within_deliverThreaded N self _ received).ordered
  | sendThreaded | ackThreaded => exact (within_leaf (Nat.zero_le _)).ordered
  | urbDeliverPending ready =>
    have hlcb : Within rank 4 (guarded .upperLayer lcbDeliver) :=
      .guarded (Nat.le_refl 4) (within_leaf (Nat.le_refl 5))
    exact (Within.guarded (Nat.zero_le _) (.flatMap fun _ _ => hlcb)).ordered
  | lcbDeliverPending inferior =>
    exact (Within.guarded (Nat.zero_le _)
      (.flatMap fun logged _ => within_addLog (Nat.le_refl 6) logged)).ordered

def threads (N : Nat) : List Thread :=
  .main :: .urbDeliverPending :: .lcbDeliverPending ::
    (List.range (N + 1)).flatMap fun link => [.deliver link, .send link, .ack link]

theorem Runs.mem_threads {N self : Nat} {t : Thread} {ops : Ops} (h : Runs N self t ops) :
    t ∈ (threads N).toFinset := by
  have hlink : ∀ {link : Nat}, HasLink N self link → link < N + 1 :=
    fun hl => Nat.lt_succ_of_le hl.2.2.2.1
  rw [List.mem_toFinset]
  cases h with
  | deliverThreaded hl | sendThreaded hl | ackThreaded hl => simpa [threads] using hlink hl
  | _ => simp [threads]

/-- The threads of a process never block each other for good: whatever they have locked, one of
those that are at something can go on, and all of them can get to an end, every mutex unlocked. -/
theorem never_deadlock (N self : Nat) (s : State Thread Mutex)
    (h : (machine Thread Mutex).ReachableBy (Rounds (Runs N self)) s) :
    (∀ t, s.rest t ≠ [] → ∃ u s', (machine Thread Mutex).step s (.go u) = some s') ∧
    ∃ s', (machine Thread Mutex).Steps Finishing s s' ∧ (∀ t, s'.rest t = []) ∧
      ∀ m, s'.holder m = none := by
  have hinv := inv_reachableBy (fun _ _ => Runs.ordered) h
  exact ⟨fun t ht => hinv.moves rank_le ht,
    Busy.drains rank_le _ ⟨hinv, idle_reachableBy (fun _ _ => Runs.mem_threads) h⟩⟩

def broadcasting : State Thread Mutex :=
  (machine Thread Mutex).init.call .main (broadcastMessage 3 1 false)

def addingSent : State Thread Mutex :=
  broadcasting.advance .main (broadcastMessage 3 1 false).tail .lcbReceiver (some .main)

def logging : State Thread Mutex :=
  addingSent.advance .main (broadcastMessage 3 1 false).tail.tail .processLog (some .main)

theorem logging_reached : (machine Thread Mutex).ReachableBy (Rounds (Runs 3 1)) logging := by
  have hround : Rounds (Runs 3 1) (machine Thread Mutex).init
    (.call .main (broadcastMessage 3 1 false)) := ⟨rfl, .broadcastMessage false⟩
  have hgo : ∀ s, Rounds (Runs 3 1) s (.go .main) := fun _ => trivial
  have hcall : (machine Thread Mutex).ReachableBy (Rounds (Runs 3 1)) broadcasting :=
    Machine.ReachableBy.next .refl hround rfl
  have hreceiver : broadcasting.go .main = some addingSent := State.go_lock rfl rfl
  have hlog : addingSent.go .main = some logging := State.go_lock rfl rfl
  exact (hcall.next (hgo _) hreceiver).next (hgo _) hlog

theorem never_deadlock_logging : logging.holder .processLog = some .main ∧
    ∃ s', (machine Thread Mutex).Steps Finishing logging s' ∧ ∀ m, s'.holder m = none := by
  obtain ⟨s', hsteps, -, hfree⟩ := (never_deadlock 3 1 logging logging_reached).2
  exact ⟨rfl, s', hsteps, hfree⟩

theorem lock_notMem_guarded {m m' : Mutex} {ops : Ops} (h : m ≠ m') (hops : .lock m ∉ ops) :
    .lock m ∉ guarded m' ops := by
  simp [guarded, h, hops]

theorem lock_notMem_ite {m : Mutex} {b : Bool} {ops : Ops} (h : .lock m ∉ ops) :
    .lock m ∉ if b then [] else ops := by
  cases b with
  | true => simp
  | false => exact h

theorem log_notMem {N self : Nat} {t : Thread} {ops : Ops} (h : Runs N self t ops)
    (ht : t ≠ .main ∧ t ≠ .lcbDeliverPending) : .lock .processLog ∉ ops := by
  have hbeb : .lock .processLog ∉ bebBroadcastMessage N self := by
    simp [bebBroadcastMessage, sendNewMessage, guarded]
  cases h with
  | newLcb | broadcastMessage | lcbDeliverPending => simp at ht
  | @deliverThreaded link hl received =>
    cases received with
    | nothing => simp [deliverThreaded]
    | data recorded delivered isPending sender =>
      have hurb : .lock .processLog ∉ urbDeliver N self isPending :=
        lock_notMem_guarded (by simp) (lock_notMem_ite hbeb)
      have hdel : .lock .processLog ∉ bebDeliver N self delivered isPending := by
        simp [bebDeliver, onList, guarded, hurb]
      have hack : .lock .processLog ∉ addAck link sender := by
        cases sender <;> simp [addAck, onCorrectLink, guarded]
      simp [deliverThreaded, onList, guarded, hdel, hack]
    | ack target =>
      cases target <;> simp [deliverThreaded, removeMessage, onCorrectLink, guarded]
  | sendThreaded => simp [sendThreaded, guarded]
  | ackThreaded => simp [ackThreaded, guarded]
  | urbDeliverPending ready => simp [urbDeliverPending, lcbDeliver, guarded]

/-- A signal comes to thread `t`. As far as the mutexes of the program go (a lock of the allocator
is none of them), the handler can get to the log exactly if `t` does not hold its mutex; only main
and the thread of LCB ever do. -/
theorem stop_can_finish_iff (N self : Nat) (s : State Thread Mutex)
    (h : (machine Thread Mutex).ReachableBy (Rounds (Runs N self)) s) (t : Thread) :
    ((∃ s', (machine Thread Mutex).Steps (Rounds (Runs N self)) (s.call t stop) s' ∧
      s'.rest t = s.rest t) ↔ s.holder .processLog ≠ some t) ∧
    (s.holder .processLog = some t → t = .main ∨ t = .lcbDeliverPending) := by
  have hinv := inv_reachableBy (fun _ _ => Runs.ordered) h
  have hrest : (s.call t stop).rest t = stop ++ s.rest t := by rw [call_rest, if_pos rfl]
  refine ⟨⟨?_, fun hfree => ?_⟩, fun hheld => ?_⟩
  · rintro ⟨s', hsteps, hdone⟩ hheld
    obtain ⟨hstuck, -⟩ := stuck (s := s.call t stop) ⟨hrest, hheld⟩ hsteps
    have hlen := congrArg List.length (hdone.symm.trans hstuck)
    simp at hlen
    omega
  · have hbusy : Busy (insert t (threads N).toFinset) rank (s.call t stop) := by
      refine ⟨hinv.interrupt (fun m hm => ?_) hfree, fun u hu => ?_⟩
      · cases m <;> simp [rank] at hm ⊢
      · rw [Finset.mem_insert, not_or] at hu
        rw [call_rest, if_neg hu.1]
        exact idle_reachableBy (fun _ _ => Runs.mem_threads) h u hu.2
    obtain ⟨s', hsteps, hdone⟩ := hbusy.finishes rank_le _ hrest
    exact ⟨s', hsteps.mono fun _ a ha => by cases a <;> trivial, hdone⟩
  · by_contra hother
    rw [not_or] at hother
    exact never_holds (fun _ hops => log_notMem hops hother) h hheld

/-- The signal comes while main is at its log: the handler waits for main, and main for it. -/
theorem stop_can_finish_iff_logging :
    (¬ ∃ s', (machine Thread Mutex).Steps (Rounds (Runs 3 1)) (logging.call .main stop) s' ∧
      s'.rest .main = logging.rest .main) ∧
    ∃ s', (machine Thread Mutex).Steps (Rounds (Runs 3 1)) (logging.call (.send 2) stop) s' ∧
      s'.rest (.send 2) = logging.rest (.send 2) := by
  have hmain := (stop_can_finish_iff 3 1 logging logging_reached .main).1
  have hsend := (stop_can_finish_iff 3 1 logging logging_reached (.send 2)).1
  exact ⟨fun hfinish => hmain.mp hfinish rfl, hsend.mpr (by decide)⟩

end ThreadLocks
end DecentralizedBroadcast
