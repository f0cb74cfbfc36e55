import DecentralizedBroadcast.Trace

/-! The two ways to broadcast through LCB: `startBroadcast` over the messages queued with
`addMessage`, and `broadcastMessage` for each. They differ in what URB files as pending. -/
set_option autoImplicit false

namespace DecentralizedBroadcast

/-- A layer with the `messages_to_broadcast` of its base class. -/
structure Broadcast (Layer : Type) where
  layer : Layer
  messagesToBroadcast : List Str

namespace Broadcast
variable {Layer : Type}

def addMessage (b : Broadcast Layer) (msg : Str) : Broadcast Layer :=
  { b with messagesToBroadcast := b.messagesToBroadcast ++ [msg] }

/-- What a layer does in its `startBroadcast` with all that is queued; behind the loop it clears
the queue. -/
def startBroadcast (loop : List Str → Layer → Except Fault (Layer × List Str))
    (b : Broadcast Layer) : Except Fault (Broadcast Layer × List Str) := do
  let (layer, frames) ← loop b.messagesToBroadcast b.layer
  pure (⟨layer, []⟩, frames)

theorem foldl_addMessage (msgs : List Str) (b : Broadcast Layer) : msgs.foldl addMessage b =
    { b with messagesToBroadcast := b.messagesToBroadcast ++ msgs } := by
  induction msgs generalizing b with
  | nil => simp
  | cons msg msgs ih => simp [addMessage, ih]

end Broadcast

/-- `broadcastMessage(msg, add_id)` of URB; the second component goes to BEB. -/
def Urb.broadcastMessageAddId (u : Urb) (processId : Nat) (msg : Str) (addId : Bool) :
    Except Fault (Urb × Str) := do
  if addId then
    let strProcessId ← sprintf03d processId
    let messagePending := strProcessId ++ msg
    pure ({ u with pending := u.pending ++ [messagePending] }, msg)
  else pure ({ u with pending := u.pending ++ [msg] }, msg)

namespace Process

/-- The loop of `startBroadcast`, with the frames it gives to BEB. -/
def startBroadcastLoop (rank : Nat) (dependencies : List Int) (thisProcessId : Str) :
    List Str → Process → Except Fault (Process × List Str)
  | [], q => pure (q, [])
  | message :: rest, q => do
      let w ← Lcb.dependencyClock q.lcb.vc dependencies
      let wToSend := w ++ ('v' :: (thisProcessId ++ intToString q.lcb.lsn))
      let lcb := { q.lcb with lsn := q.lcb.lsn + 1 }
      let processLog := addMessageLog q.processLog (sentEntry message)
      let (urb, frame) ← q.urb.broadcastMessageAddId rank (message ++ wToSend) true
      let q := { q with lcb := lcb, urb := urb, processLog := processLog }
      let (q, frames) ← startBroadcastLoop rank dependencies thisProcessId rest q
      pure (q, frame :: frames)

/-- LCB's `startBroadcast`: everything above the links becomes active, then comes the loop over
what is queued. -/
def startBroadcast (rank : Nat) (dependencies : List Int) (messagesToBroadcast : List Str)
    (q : Process) : Except Fault (Process × List Str) := do
  let thisProcessId ← sprintf03d rank
  startBroadcastLoop rank dependencies thisProcessId messagesToBroadcast q.setActive

def broadcastEach (rank : Nat) (dependencies : List Int) :
    List Str → Process → Except Fault (Process × List Str)
  | [], q => pure (q, [])
  | msg :: rest, q => do
      let (q, frame) ← q.broadcastMessage rank dependencies msg
      let (q, frames) ← broadcastEach rank dependencies rest q
      pure (q, frame :: frames)

end Process

/-- What both ways make of a list of messages, from `lsn` on. -/
def framesFrom (rank : Nat) (dependencies : List Int) (vc : Int → Int) :
    Nat → List Str → List Str
  | _, [] => []
  | lsn, msg :: rest =>
      (msg ++ clockText (clockEntries vc dependencies rank lsn)) ::
        framesFrom rank dependencies vc (lsn + 1) rest

section Paths
variable {rank : Nat} {dependencies : List Int} (hr : rank ≤ 999)
  (hd : ∀ d ∈ dependencies, FitsId d)
include hr hd

theorem broadcastEach_eq (msgs : List Str) (q : Process) :
    q.broadcastEach rank dependencies msgs = .ok ({ q with
      lcb := { q.lcb with lsn := q.lcb.lsn + msgs.length }
      urb := { q.urb with
        pending := q.urb.pending ++ framesFrom rank dependencies q.lcb.vc q.lcb.lsn msgs }
      processLog := (msgs.map sentEntry).foldl addMessageLog q.processLog },
      framesFrom rank dependencies q.lcb.vc q.lcb.lsn msgs) := by
  induction msgs generalizing q with
  | nil => simp [Process.broadcastEach, framesFrom, pure, Except.pure]
  | cons msg msgs ih =>
    simp only [Process.broadcastEach, Process.broadcastMessage, broadcastMessage_eq hr hd,
      Urb.broadcastMessage, bind, Except.bind, pure, Except.pure, ih]
    simp [framesFrom, Nat.add_assoc, Nat.add_comm 1]

theorem startBroadcastLoop_eq (msgs : List Str) (q : Process) :
    q.startBroadcastLoop rank dependencies (pad3 rank) msgs = .ok ({ q with
      lcb := { q.lcb with lsn := q.lcb.lsn + msgs.length }
      urb := { q.urb with pending := q.urb.pending ++
        (framesFrom rank dependencies q.lcb.vc q.lcb.lsn msgs).map (messageKey rank) }
      processLog := (msgs.map sentEntry).foldl addMessageLog q.processLog },
      framesFrom rank dependencies q.lcb.vc q.lcb.lsn msgs) := by
  have hid : sprintf03d rank = .ok (pad3 rank) := if_pos (fitsId_pad3 hr)
  induction msgs generalizing q with
  | nil => simp [Process.startBroadcastLoop, framesFrom, pure, Except.pure]
  | cons msg msgs ih =>
    have hframe : msg ++ (clockText (dependencies.map fun d => (d, q.lcb.vc d)) ++
        'v' :: (pad3 rank ++ intToString q.lcb.lsn)) =
        msg ++ clockText (clockEntries q.lcb.vc dependencies rank q.lcb.lsn) := by
      simp [clockEntries, clockText_append]
    simp only [Process.startBroadcastLoop, dependencyClock_eq q.lcb.vc hd,
      Urb.broadcastMessageAddId, hid, if_true, bind, Except.bind, pure, Except.pure, hframe, ih]
    simp [framesFrom, messageKey, Nat.add_assoc, Nat.add_comm 1]

end Paths

/-- The two ways leave the same number, log, frames and pending list, and the pending entry of
every message is its key. -/
def PathsAgree (rank : Nat) (dependencies : List Int) (b : Broadcast Process) (msgs : List Str) :
    Prop :=
  ∃ b₁ frames₁ q₂ frames₂,
    (msgs.foldl Broadcast.addMessage b).startBroadcast (Process.startBroadcast rank dependencies) =
      .ok (b₁, frames₁) ∧
    b.layer.broadcastEach rank dependencies msgs = .ok (q₂, frames₂) ∧
    b₁.layer.lcb.lsn = q₂.lcb.lsn ∧ b₁.layer.processLog = q₂.processLog ∧ frames₁ = frames₂ ∧
    b₁.layer.urb.pending = q₂.urb.pending ∧
    q₂.urb.pending = b.layer.urb.pending ++ frames₂.map (messageKey rank)

theorem startBroadcast_eq {rank : Nat} (hr : rank ≤ 999) (dependencies : List Int)
    (msgs : List Str) (q : Process) : q.startBroadcast rank dependencies msgs =
      q.setActive.startBroadcastLoop rank dependencies (pad3 rank) msgs := by
  have hid : sprintf03d rank = .ok (pad3 rank) := if_pos (fitsId_pad3 hr)
  rw [Process.startBroadcast, hid]
  rfl

theorem framesFrom_length (rank : Nat) (dependencies : List Int) (vc : Int → Int) (lsn : Nat)
    (msgs : List Str) : (framesFrom rank dependencies vc lsn msgs).length = msgs.length := by
  induction msgs generalizing lsn with
  | nil => rfl
  | cons msg msgs ih => simp [framesFrom, ih]

/-- What both ways leave. Only `startBroadcast` files keys, and it takes along what was queued
before. -/
theorem paths_pending {rank : Nat} (hr : rank ≤ 999) {dependencies : List Int}
    (hd : ∀ d ∈ dependencies, FitsId d) (b : Broadcast Process) (msgs : List Str) :
    ∃ b₁ frames₁ q₂ frames₂,
      (msgs.foldl Broadcast.addMessage b).startBroadcast
        (Process.startBroadcast rank dependencies) = .ok (b₁, frames₁) ∧
      b.layer.broadcastEach rank dependencies msgs = .ok (q₂, frames₂) ∧
      frames₂.length = msgs.length ∧
      b₁.layer.lcb.lsn = b.layer.lcb.lsn + (b.messagesToBroadcast ++ msgs).length ∧
      q₂.lcb.lsn = b.layer.lcb.lsn + msgs.length ∧
      b₁.layer.urb.pending = b.layer.urb.pending ++ frames₁.map (messageKey rank) ∧
      q₂.urb.pending = b.layer.urb.pending ++ frames₂ := by
  rw [Broadcast.foldl_addMessage, Broadcast.startBroadcast, startBroadcast_eq hr,
    startBroadcastLoop_eq hr hd, broadcastEach_eq hr hd]
  exact ⟨_, _, _, _, rfl, rfl, framesFrom_length _ _ _ _ _, rfl, rfl, rfl, rfl⟩

theorem map_messageKey_ne {rank : Nat} {frames : List Str} (h : frames ≠ []) :
    frames ≠ frames.map (messageKey rank) := by
  intro he
  cases frames with
  | nil => exact h rfl
  | cons frame frames =>
    have hlen := congrArg List.length (List.cons.inj he).1
    have := three_le_pad3_length rank
    rw [messageKey, List.length_append] at hlen
    omega

theorem fits_of_startBroadcast {rank : Nat} (hr : rank ≤ 999) {dependencies : List Int}
    {msgs frames : List Str} {q q' : Process} (hne : msgs ≠ [])
    (h : q.startBroadcast rank dependencies msgs = .ok (q', frames)) :
    ∀ d ∈ dependencies, FitsId d := by
  obtain ⟨msg, rest, rfl⟩ := List.exists_cons_of_ne_nil hne
  rw [startBroadcast_eq hr] at h
  simp only [Process.startBroadcastLoop, bind_eq_ok] at h
  obtain ⟨w, hw, -⟩ := h
  exact (dependencyClock_ok hw).1

/-- The two ways agree when nothing is to be broadcast at all, and never else: `startBroadcast`
takes along what was queued before, and `broadcastMessage` files its message in `pending` without
the id of the process. -/
theorem paths_agree_iff {rank : Nat} (hr : rank ≤ 999) (dependencies : List Int)
    (b : Broadcast Process) (msgs : List Str) :
    PathsAgree rank dependencies b msgs ↔ b.messagesToBroadcast = [] ∧ msgs = [] := by
  constructor
  · rintro ⟨b₁, frames₁, q₂, frames₂, h₁, h₂, hlsn, -, rfl, hp, -⟩
    by_contra hne
    have hall : b.messagesToBroadcast ++ msgs ≠ [] := by
      rwa [Ne, List.append_eq_nil_iff]
    have hfits : ∀ d ∈ dependencies, FitsId d := by
      rw [Broadcast.foldl_addMessage, Broadcast.startBroadcast] at h₁
      obtain ⟨⟨q₁, frames⟩, hq, -⟩ := bind_eq_ok.mp h₁
      exact fits_of_startBroadcast hr hall hq
    obtain ⟨b₃, _, q₄, _, h₃, h₄, hlen, hlsn₁, hlsn₂, hkeys, htexts⟩ :=
      paths_pending hr hfits b msgs
    obtain ⟨rfl, rfl⟩ := Prod.mk.inj (Except.ok.inj (h₁.symm.trans h₃))
    obtain ⟨rfl, rfl⟩ := Prod.mk.inj (Except.ok.inj (h₂.symm.trans h₄))
    rw [hlsn₁, hlsn₂, List.length_append] at hlsn
    have hqueue : b.messagesToBroadcast = [] := List.length_eq_zero_iff.mp (by omega)
    have hmsgs : msgs ≠ [] := fun hm => hne ⟨hqueue, hm⟩
    have hframes : frames₁ ≠ [] :=
      List.ne_nil_of_length_pos (hlen ▸ List.length_pos_iff.mpr hmsgs)
    rw [hkeys, htexts, List.append_cancel_left_eq] at hp
    exact map_messageKey_ne hframes hp.symm
  · rintro ⟨hqueue, rfl⟩
    rw [PathsAgree, List.foldl_nil, Broadcast.startBroadcast, hqueue, startBroadcast_eq hr]
    exact ⟨_, _, _, _, rfl, rfl, rfl, rfl, rfl, rfl, by simp⟩

theorem paths_agree_iff_none : PathsAgree 1 [] ⟨Process.start 0, []⟩ [] ↔
    ([] : List Str) = [] ∧ ([] : List Str) = [] :=
  paths_agree_iff (by decide) [] ⟨Process.start 0, []⟩ []

theorem paths_differ : ¬ PathsAgree 1 [] ⟨Process.start 0, []⟩ [['0', '1', '1']] := by
  rintro ⟨b₁, frames₁, q₂, frames₂, h₁, h₂, -, -, -, hp, -⟩
  obtain ⟨rfl, -⟩ := Prod.mk.inj (Except.ok.inj (h₁.symm.trans rfl))
  obtain ⟨rfl, -⟩ := Prod.mk.inj (Except.ok.inj (h₂.symm.trans rfl))
  exact absurd hp (by decide)

/-- The relay of process 2 comes back: after `broadcastMessage` process 1 relays its own
message, after `startBroadcast` it does not. -/
example :
    (((Process.start 0).broadcastEach 1 [] [['0', '1', '1']] >>= fun r =>
      r.1.urb.deliver (packetText 2 1 (relayFrame 1 trioFirst))).toOption.map Prod.snd =
        some (some (relayFrame 1 trioFirst))) ∧
    (((Process.start 0).startBroadcast 1 [] [['0', '1', '1']] >>= fun r =>
      r.1.urb.deliver (packetText 2 1 (relayFrame 1 trioFirst))).toOption.map Prod.snd =
        some none) := by decide

end DecentralizedBroadcast
