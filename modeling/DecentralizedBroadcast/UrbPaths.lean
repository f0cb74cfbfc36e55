import DecentralizedBroadcast.StartBroadcast
import DecentralizedBroadcast.UrbOrder

/-! The two ways to broadcast through URB. `startBroadcast` files its messages under their keys,
`broadcastMessage` files their bare texts, so that URB takes its own messages for new ones when
it hears of them from others. -/
set_option autoImplicit false

namespace DecentralizedBroadcast
namespace Urb

/-- `startBroadcast` over `messages_to_broadcast`, with what goes to BEB and the log. -/
def startBroadcast (processId : Nat) :
    List Str → Urb → List Str → Except Fault (Urb × List Str × List Str)
  | [], u, processLog => pure ({ u with active := true }, [], processLog)
  | message :: rest, u, processLog => do
      let strProcessId ← sprintf03d processId
      let messagePending := strProcessId ++ message
      let u := { u with pending := u.pending ++ [messagePending] }
      let processLog := addMessageLog processLog (sentEntry message)
      let (u, frames, processLog) ← startBroadcast processId rest u processLog
      pure (u, message :: frames, processLog)

def broadcastEach : List Str → Urb → Urb × List Str
  | [], u => (u, [])
  | msg :: rest, u =>
      let (u, frame) := u.broadcastMessage msg
      let (u, frames) := broadcastEach rest u
      (u, frame :: frames)

theorem startBroadcast_eq {p : Nat} (hp : p ≤ 999) (msgs : List Str) (u : Urb) (log : List Str) :
    u.startBroadcast p msgs log = .ok
      ({ u with active := true, pending := u.pending ++ msgs.map (messageKey p) }, msgs,
        (msgs.map sentEntry).foldl addMessageLog log) := by
  have hid : sprintf03d p = .ok (pad3 p) := if_pos (fitsId_pad3 hp)
  induction msgs generalizing u log with
  | nil => simp [startBroadcast, pure, Except.pure]
  | cons msg msgs ih =>
    simp only [startBroadcast, hid, bind, Except.bind, pure, Except.pure, ih]
    simp [messageKey]

theorem broadcastEach_eq (msgs : List Str) (u : Urb) :
    u.broadcastEach msgs = ({ u with pending := u.pending ++ msgs }, msgs) := by
  induction msgs generalizing u with
  | nil => simp [broadcastEach]
  | cons msg msgs ih => simp [broadcastEach, broadcastMessage, ih]

def Unheard (u : Urb) (k : Str) : Prop := ∀ e ∈ u.ack, e.1 ≠ k

end Urb

namespace Received
variable {N : Nat} {start u : Urb} {fs relays up : List Str}

/-- A majority for a key that nobody had acknowledged comes from the frames. -/
theorem key_of_canDeliver (h : Received N start fs relays up u) {k : Str}
    (hk : start.Unheard k) (hcan : u.canDeliver N k = true) : k ∈ fs.map packetKey := by
  rw [Urb.canDeliver, decide_eq_true_eq] at hcan
  obtain ⟨e, he, hek⟩ := List.countP_pos_iff.mp (Nat.zero_lt_of_lt hcan)
  rw [h.ack] at he
  have hkey : e.1 = k := by simpa using hek
  rcases List.mem_append.mp he with he | he
  · exact absurd hkey (hk e he)
  · obtain ⟨f, hf, rfl⟩ := List.mem_map.mp he
    exact List.mem_map.mpr ⟨f, hf, hkey⟩

/-- What was filed without an ack makes no difference to what is due. -/
theorem due_iff {pending new : List Str} (h : Received N start fs relays up u)
    (hstart : start.pending = pending ++ new) (hnew : ∀ k ∈ new, start.Unheard k) {k : Str}
    (hcan : u.canDeliver N k = true) :
    k ∈ u.pending ↔ k ∈ pending ∨ k ∈ fs.map packetKey := by
  rw [h.pending, hstart, List.mem_append]
  constructor
  · rintro ((hk | hk) | hk)
    · exact .inl hk
    · exact .inr (h.key_of_canDeliver (hnew k hk) hcan)
    · exact .inr hk
  · rintro (hk | hk)
    · exact .inl (.inl hk)
    · exact .inr hk

end Received

/-- The same calls hand up the same messages from `u₁` and from `u₂`, and relay the same, but that
`u₂` relays those of `own` that are heard of, too. -/
def AlikeButRelays (N : Nat) (cs : List UrbCall) (own : List Str) (u₁ u₂ : Urb) : Prop :=
  ∃ v₁ relays₁ new₁ v₂ relays₂ new₂, Urb.run N cs u₁ = .ok (v₁, relays₁, new₁) ∧
    Urb.run N cs u₂ = .ok (v₂, relays₂, new₂) ∧
    new₁.Nodup ∧ new₂.Nodup ∧ (∀ k, k ∈ new₁ ↔ k ∈ new₂) ∧ relays₁.Nodup ∧ relays₂.Nodup ∧
    ∀ x, x ∈ relays₂ ↔ x ∈ relays₁ ∨ ∃ k ∈ own, x = 'r' :: k ∧ k ∈ (frames cs).map packetKey

/-- Whatever calls follow, with a pass at the end, both ways hand up the same messages. Given to
`broadcastMessage`, its own ones are relayed by the sender as well, once it hears of them. -/
theorem urb_paths_deliver (N : Nat) {p : Nat} (hp : p ≤ 999) (start : Urb) (msgs log : List Str)
    {cs : List UrbCall} (hf : ∀ f ∈ frames cs, FrameFits f)
    (hkey : ∀ msg ∈ msgs, start.Unheard (messageKey p msg) ∧ messageKey p msg ∉ start.pending)
    (htext : ∀ msg ∈ msgs, start.Unheard msg ∧ msg ∉ (frames cs).map packetKey) :
    ∃ u₁ log₁ u₂, start.startBroadcast p msgs log = .ok (u₁, msgs, log₁) ∧
      start.broadcastEach msgs = (u₂, msgs) ∧
      AlikeButRelays N (cs ++ [.deliverPending]) (msgs.map (messageKey p)) u₁ u₂ := by
  refine ⟨_, _, _, start.startBroadcast_eq hp msgs log, start.broadcastEach_eq msgs, ?_⟩
  obtain ⟨v₁, relays₁, new₁, hrun₁, h₁, hnew₁⟩ := @Received.complete N
    { start with active := true, pending := start.pending ++ msgs.map (messageKey p) } cs hf
  obtain ⟨v₂, relays₂, new₂, hrun₂, h₂, hnew₂⟩ := @Received.complete N
    { start with pending := start.pending ++ msgs } cs hf
  have hcan : ∀ k, v₁.canDeliver N k = v₂.canDeliver N k := by
    intro k
    rw [Urb.canDeliver, Urb.canDeliver, h₁.ack, h₂.ack]
  have hframes : frames (cs ++ [.deliverPending]) = frames cs := by simp [frames]
  refine ⟨v₁, relays₁, new₁, v₂, relays₂, new₂, hrun₁, hrun₂, h₁.once, h₂.once, fun k => ?_,
    h₁.relays.once, h₂.relays.once, fun x => ?_⟩
  · rw [hnew₁, hnew₂, hcan]
    refine and_congr_left fun hdue => ?_
    rw [h₁.due_iff rfl (List.forall_mem_map.mpr fun msg hmsg => (hkey msg hmsg).1)
        (hcan k ▸ hdue.1),
      h₂.due_iff rfl (fun msg hmsg => (htext msg hmsg).1) hdue.1]
  · rw [h₁.relays.mem, h₂.relays.mem, hframes]
    constructor
    · rintro ⟨k, rfl, hnot, hin⟩
      rw [List.mem_append, not_or] at hnot
      by_cases hown : k ∈ msgs.map (messageKey p)
      · exact .inr ⟨k, hown, rfl, hin⟩
      · exact .inl ⟨k, rfl, fun h => (List.mem_append.mp h).elim hnot.1 hown, hin⟩
    · rintro (⟨k, rfl, hnot, hin⟩ | ⟨k, hown, rfl, hin⟩)
      · refine ⟨k, rfl, fun h => ?_, hin⟩
        rcases List.mem_append.mp h with h | h
        · exact hnot (List.mem_append_left _ h)
        · exact (htext k h).2 hin
      · obtain ⟨msg, hmsg, rfl⟩ := List.mem_map.mp hown
        refine ⟨_, rfl, fun h => ?_, hin⟩
        rcases List.mem_append.mp h with h | h
        · exact (hkey msg hmsg).2 h
        · exact (htext _ h).2 hin

theorem urb_paths_deliver_ownRelay :
    ∃ u₁ log₁ u₂,
      Urb.startBroadcast 1 [trioFirst] ⟨true, [], [], fun _ => 0⟩ [] =
        .ok (u₁, [trioFirst], log₁) ∧
      Urb.broadcastEach [trioFirst] ⟨true, [], [], fun _ => 0⟩ = (u₂, [trioFirst]) ∧
      AlikeButRelays 3 ([.deliver (packetText 3 1 (relayFrame 1 trioFirst))] ++ [.deliverPending])
        [messageKey 1 trioFirst] u₁ u₂ := by
  refine urb_paths_deliver 3 (by decide) ⟨true, [], [], fun _ => 0⟩ [trioFirst] []
    (fun f hf => ?_) (by simp [Urb.Unheard]) (fun msg hmsg => ⟨by simp [Urb.Unheard], ?_⟩)
  · obtain rfl := List.mem_singleton.mp hf
    exact ⟨by decide, by decide⟩
  · obtain rfl := List.mem_singleton.mp hmsg
    decide

end DecentralizedBroadcast
