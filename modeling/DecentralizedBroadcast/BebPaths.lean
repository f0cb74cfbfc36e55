import DecentralizedBroadcast.StartBroadcast
import DecentralizedBroadcast.StackInvariant

/-! The two ways to broadcast through BEB: `startBroadcast` queues all messages link by link and
then sets the links active, `broadcastMessage` gives each message to all links, which send it. -/
set_option autoImplicit false

namespace DecentralizedBroadcast
namespace Net

def addMessages (p t : Nat) (msgs : List Str) (n : Net) : Except Fault Net :=
  msgs.foldlM (fun n msg => n.addMessage p t msg) n

def addToLinks (p : Nat) (msgs : List Str) (ts : List Nat) (n : Net) : Except Fault Net :=
  ts.foldlM (fun n t => n.addMessages p t msgs) n

def broadcastEach (N p : Nat) (msgs : List Str) (n : Net) : Except Fault Net :=
  msgs.foldlM (fun n msg => Sys.sendAll p msg (Sys.others N p) n) n

def setActive (p : Nat) (n : Net) : Net := n.setLayer p ((n.layer p).setLinks true)

theorem setActive_messages (p t : Nat) (n : Net) :
    (((n.setActive p).layer p).links t).messagesToSend =
      ((n.layer p).links t).messagesToSend := by
  simp [setActive, LinkLayer.setLinks]

end Net

/-- `BestEffortBroadcast` at one process, with the links of all. -/
structure Beb where
  net : Net
  processLog : List Str
  messagesToBroadcast : List Str

/-- The log gets the messages whatever the flag `log` says. -/
def Beb.startBroadcast (N p : Nat) (b : Beb) : Except Fault Beb := do
  let net ← Net.addToLinks p b.messagesToBroadcast (Sys.others N p) b.net
  let processLog := (b.messagesToBroadcast.map sentEntry).foldl addMessageLog b.processLog
  pure { net := net.setActive p, processLog := processLog, messagesToBroadcast := [] }

abbrev Formats (p t : Nat) (msg : Str) : Prop := (packetText p t msg).length + 2 ≤ maxLength

namespace Net

/-- A message with its target, and whether an active link sends it at once. -/
def push (p : Nat) (sends : Bool) (n : Net) (e : Nat × Str) : Net :=
  let packet := packetText p e.1 e.2
  (if sends ∧ ((n.layer p).links e.1).linkActive then n.send e.1 [packet] else n).pushMessage
    p e.1 packet

def pushAll (p : Nat) (sends : Bool) (L : List (Nat × Str)) (n : Net) : Net :=
  L.foldl (push p sends) n

/-- What `addMessage` and `sendNewMessage` both do. -/
def Pushes (p : Nat) (sends : Bool) (op : Nat → Str → Net → Except Fault Net) : Prop :=
  ∀ t msg n, op t msg n =
    if Formats p t msg then .ok (n.push p sends (t, msg)) else .error .bufferOverflow

theorem pushes_addMessage (p : Nat) : Pushes p false fun t msg n => n.addMessage p t msg := by
  intro t msg n
  by_cases h : Formats p t msg <;>
    simp [addMessage, formatPacket, h, push, bind, Except.bind, pure, Except.pure]

theorem pushes_sendNewMessage (p : Nat) :
    Pushes p true fun t msg n => n.sendNewMessage p t msg := by
  intro t msg n
  by_cases h : Formats p t msg <;>
    simp [sendNewMessage, formatPacket, h, push, bind, Except.bind, pure, Except.pure]

section Pushes
variable {p : Nat} {sends : Bool} {op : Nat → Str → Net → Except Fault Net}

theorem Pushes.foldlM (h : Pushes p sends op) (L : List (Nat × Str)) (n : Net) :
    L.foldlM (fun n e => op e.1 e.2 n) n =
      if ∀ e ∈ L, Formats p e.1 e.2 then .ok (n.pushAll p sends L)
      else .error .bufferOverflow := by
  induction L generalizing n with
  | nil => simp [pushAll, pure, Except.pure]
  | cons e L ih =>
    rw [List.foldlM_cons, h]
    by_cases he : Formats p e.1 e.2
    · rw [if_pos he]
      change L.foldlM (fun n e => op e.1 e.2 n) (n.push p sends e) = _
      rw [ih]
      simp only [List.forall_mem_cons, he, true_and]
      rfl
    · rw [if_neg he, if_neg (fun hall => he (hall e (by simp)))]
      rfl

end Pushes

theorem foldlM_flatMap {α β σ : Type} (f : σ → β → Except Fault σ) (ys : α → List β)
    (xs : List α) (s : σ) :
    xs.foldlM (fun s x => (ys x).foldlM f s) s = (xs.flatMap ys).foldlM f s := by
  induction xs generalizing s with
  | nil => rfl
  | cons x xs ih =>
    rw [List.foldlM_cons, List.flatMap_cons, List.foldlM_append]
    exact bind_congr fun s => ih s

theorem sendAll_eq (p : Nat) (msg : Str) (ts : List Nat) (n : Net) :
    Sys.sendAll p msg ts n =
      (ts.map fun t => (t, msg)).foldlM (fun n e => n.sendNewMessage p e.1 e.2) n := by
  induction ts generalizing n with
  | nil => rfl
  | cons t ts ih =>
    rw [Sys.sendAll, List.map_cons, List.foldlM_cons]
    exact bind_congr fun n => ih n

theorem addToLinks_eq (p : Nat) (msgs : List Str) (ts : List Nat) (n : Net) :
    n.addToLinks p msgs ts = if ∀ t ∈ ts, ∀ msg ∈ msgs, Formats p t msg then
      .ok (n.pushAll p false (ts.flatMap fun t => msgs.map fun msg => (t, msg)))
      else .error .bufferOverflow := by
  have hpairs : n.addToLinks p msgs ts =
      (ts.flatMap fun t => msgs.map fun msg => (t, msg)).foldlM
        (fun n e => n.addMessage p e.1 e.2) n := by
    rw [← foldlM_flatMap, addToLinks]
    simp only [addMessages, List.foldlM_map]
  rw [hpairs, (pushes_addMessage p).foldlM]
  simp only [List.forall_mem_flatMap, List.forall_mem_map]

theorem broadcastEach_eq (N p : Nat) (msgs : List Str) (n : Net) :
    n.broadcastEach N p msgs =
      if ∀ t ∈ Sys.others N p, ∀ msg ∈ msgs, Formats p t msg then
        .ok (n.pushAll p true (msgs.flatMap fun msg => (Sys.others N p).map fun t => (t, msg)))
      else .error .bufferOverflow := by
  have hpairs : n.broadcastEach N p msgs =
      (msgs.flatMap fun msg => (Sys.others N p).map fun t => (t, msg)).foldlM
        (fun n e => n.sendNewMessage p e.1 e.2) n := by
    rw [← foldlM_flatMap, broadcastEach]
    simp only [sendAll_eq]
  rw [hpairs, (pushes_sendNewMessage p).foldlM]
  simp only [List.forall_mem_flatMap, List.forall_mem_map]
  refine if_congr ⟨?_, ?_⟩ rfl rfl <;> exact fun h x hx y hy => h y hy x hx

end Net

/-- What the links of `p` have queued afterwards, each its own messages. -/
def LinkLayer.pushAll (p : Nat) (L : List (Nat × Str)) (st : LinkLayer) : LinkLayer :=
  { st with links := fun t => { st.links t with
      messagesToSend := (st.links t).messagesToSend ++
        (L.filter (fun e => e.1 = t)).map fun e => packetText p e.1 e.2 } }

theorem LinkLayer.pushAll_cons (p : Nat) (e : Nat × Str) (L : List (Nat × Str)) (st : LinkLayer) :
    (st.pushMessage e.1 (packetText p e.1 e.2)).pushAll p L = st.pushAll p (e :: L) := by
  simp only [LinkLayer.pushAll, LinkLayer.pushMessage, LinkLayer.updateLink, mk.injEq, and_true]
  funext t
  by_cases ht : t = e.1
  · subst ht
    simp
  · simp [ht, Ne.symm ht]

namespace Net
section PushAll
variable (p : Nat) (sends : Bool) (L : List (Nat × Str)) (n : Net)

theorem pushAll_layer : (n.pushAll p sends L).layer =
    Function.update n.layer p ((n.layer p).pushAll p L) := by
  induction L generalizing n with
  | nil => simp [pushAll, LinkLayer.pushAll]
  | cons e L ih =>
    have hpush : (n.push p sends e).layer =
        Function.update n.layer p ((n.layer p).pushMessage e.1 (packetText p e.1 e.2)) := by
      rw [push]
      split <;> rfl
    change ((n.push p sends e).pushAll p sends L).layer = _
    rw [ih, hpush, Function.update_self, Function.update_idem, LinkLayer.pushAll_cons]

theorem pushAll_handed : (n.pushAll p sends L).handed = n.handed := by
  induction L generalizing n with
  | nil => rfl
  | cons e L ih =>
    refine (ih _).trans ?_
    rw [push]
    split <;> rfl

theorem pushAll_wire : ∃ L' ⊆ L, (sends = false → L' = []) ∧
    (n.pushAll p sends L).wire = n.wire ++ L'.map fun e => (e.1, packetText p e.1 e.2) := by
  induction L generalizing n with
  | nil => exact ⟨[], by simp, by simp, by simp [pushAll]⟩
  | cons e L ih =>
    obtain ⟨L', hsub, hnone, hwire⟩ := ih (n.push p sends e)
    change ∃ L' ⊆ e :: L, _ ∧ ((n.push p sends e).pushAll p sends L).wire = _
    by_cases he : sends ∧ ((n.layer p).links e.1).linkActive
    · refine ⟨e :: L', by simp [hsub], fun h => ?_, ?_⟩
      · simp [h] at he
      · rw [hwire, push, if_pos he]
        simp [pushMessage, send]
    · refine ⟨L', fun x hx => .tail _ (hsub hx), hnone, ?_⟩
      rw [hwire, push, if_neg he]
      rfl

end PushAll
end Net

section Loops
variable {ts : List Nat} (hts : ts.Nodup) (msgs : List Str) (t : Nat)
include hts

theorem filter_links : (ts.flatMap fun u => msgs.map fun msg => (u, msg)).filter
    (fun e => e.1 = t) = if t ∈ ts then msgs.map fun msg => (t, msg) else [] := by
  have hone : ∀ u, (msgs.map fun msg => (u, msg)).filter (fun e => e.1 = t) =
      if u = t then msgs.map fun msg => (u, msg) else [] := by
    intro u
    by_cases hu : u = t <;> simp [List.filter_map, Function.comp_def, hu]
  induction ts with
  | nil => simp
  | cons u ts ih =>
    obtain ⟨hu, hts⟩ := List.nodup_cons.mp hts
    rw [List.flatMap_cons, List.filter_append, hone, ih hts]
    by_cases ht : u = t
    · subst ht
      simp [hu]
    · simp [ht, Ne.symm ht]

theorem filter_messages : (msgs.flatMap fun msg => ts.map fun u => (u, msg)).filter
    (fun e => e.1 = t) = if t ∈ ts then msgs.map fun msg => (t, msg) else [] := by
  have hone : ∀ msg : Str, (ts.map fun u => (u, msg)).filter (fun e => e.1 = t) =
      if t ∈ ts then [(t, msg)] else [] := by
    intro msg
    have heq : (ts.map fun u => (u, msg)).filter (fun e => e.1 = t) =
        (ts.filter (· = t)).map fun u => (u, msg) := by
      rw [List.filter_map]
      rfl
    rw [heq, List.filter_eq, List.Nodup.count hts]
    split <;> rfl
  induction msgs with
  | nil => simp
  | cons msg msgs ih =>
    rw [List.flatMap_cons, List.filter_append, hone, ih]
    split <;> rfl

end Loops

/-- Nothing differs but that the second has more on the wire. -/
structure Behind (n n' : Net) : Prop where
  layer : n.layer = n'.layer
  handed : n.handed = n'.handed
  wire : n.wire ⊆ n'.wire

section Behind
variable {n n' m : Net} (h : Behind n n')
include h

theorem Behind.setLayer (p : Nat) (st : LinkLayer) :
    Behind (n.setLayer p st) (n'.setLayer p st) :=
  ⟨congrArg (fun l : Nat → LinkLayer => Function.update l p st) h.layer, h.handed, h.wire⟩

theorem Behind.send (t : Nat) (texts : List Str) : Behind (n.send t texts) (n'.send t texts) :=
  ⟨h.layer, h.handed, List.append_subset.mpr
    ⟨List.subset_append_of_subset_left _ h.wire, List.subset_append_right _ _⟩⟩

theorem Behind.pushMessage (p t : Nat) (f : Str) :
    Behind (n.pushMessage p t f) (n'.pushMessage p t f) := by
  have hset := h.setLayer p ((n.layer p).pushMessage t f)
  refine ⟨?_, hset.handed, hset.wire⟩
  rw [Net.pushMessage, Net.pushMessage, ← h.layer]
  exact hset.layer

theorem Behind.addMessage {p t : Nat} {msg : Str} (hs : n.addMessage p t msg = .ok m) :
    ∃ m', n'.addMessage p t msg = .ok m' ∧ Behind m m' := by
  obtain ⟨packet, hf, hs⟩ := bind_eq_ok.mp hs
  obtain rfl := Except.ok.inj hs
  refine ⟨n'.pushMessage p t packet, ?_, h.pushMessage p t packet⟩
  rw [Net.addMessage, hf]
  rfl

theorem Behind.sendNewMessage {p t : Nat} {msg : Str} (hs : n.sendNewMessage p t msg = .ok m) :
    ∃ m', n'.sendNewMessage p t msg = .ok m' ∧ Behind m m' := by
  obtain ⟨packet, hf, hs⟩ := bind_eq_ok.mp hs
  obtain rfl := Except.ok.inj hs
  refine ⟨_, by rw [Net.sendNewMessage, hf]; rfl, ?_⟩
  rw [← h.layer]
  split
  · exact (h.send t _).pushMessage p t packet
  · exact h.pushMessage p t packet

theorem Behind.sendThreaded (p t : Nat) : Behind (n.sendThreaded p t) (n'.sendThreaded p t) := by
  rw [Net.sendThreaded, Net.sendThreaded, ← h.layer]
  exact h.send t _

theorem Behind.ackThreaded (p t : Nat) : Behind (n.ackThreaded p t) (n'.ackThreaded p t) := by
  rw [Net.ackThreaded, Net.ackThreaded, ← h.layer]
  exact (h.send t _).setLayer p _

theorem Behind.receive {N t link : Nat} {f : Str} {up : Option Str}
    (hs : n.receive N t link f = .ok (m, up)) :
    ∃ m', n'.receive N t link f = .ok (m', up) ∧ Behind m m' := by
  obtain ⟨⟨st, up'⟩, hd, hs⟩ := bind_eq_ok.mp hs
  obtain ⟨rfl, rfl⟩ := Prod.mk.inj (Except.ok.inj hs)
  have hset := h.setLayer t st
  refine ⟨{ n'.setLayer t st with handed := n'.handed ++ up'.toList.map (t, ·) }, ?_,
    hset.layer, congrArg (· ++ up'.toList.map (t, ·)) h.handed, hset.wire⟩
  rw [Net.receive, ← h.layer, hd]
  rfl

/-- What a network can do, one with more on the wire can do too. -/
theorem Behind.step {N : Nat} {a : LinkAction} (hs : (linkMachine N).step n a = some m) :
    ∃ m', (linkMachine N).step n' a = some m' ∧ Behind m m' := by
  change n.step N a = some m at hs
  change ∃ m', n'.step N a = some m' ∧ Behind m m'
  cases a with
  | setActive p active =>
    obtain rfl := Option.some.inj hs
    rw [Net.step, ← h.layer]
    exact ⟨_, rfl, h.setLayer p _⟩
  | addMessage p t msg =>
    obtain ⟨hl, hs⟩ := Option.ite_none_right_eq_some.mp hs
    obtain ⟨m', hm, hbehind⟩ := h.addMessage (toOption_eq_some.mp hs)
    exact ⟨m', by rw [Net.step, if_pos hl, hm]; rfl, hbehind⟩
  | sendNewMessage p t msg =>
    obtain ⟨hl, hs⟩ := Option.ite_none_right_eq_some.mp hs
    obtain ⟨m', hm, hbehind⟩ := h.sendNewMessage (toOption_eq_some.mp hs)
    exact ⟨m', by rw [Net.step, if_pos hl, hm]; rfl, hbehind⟩
  | sendThreaded p t =>
    obtain ⟨hl, hs⟩ := Option.ite_none_right_eq_some.mp hs
    obtain rfl := Option.some.inj hs
    exact ⟨_, by rw [Net.step, ← h.layer, if_pos hl], h.sendThreaded p t⟩
  | ackThreaded p t =>
    obtain ⟨hl, hs⟩ := Option.ite_none_right_eq_some.mp hs
    obtain rfl := Option.some.inj hs
    exact ⟨_, by rw [Net.step, ← h.layer, if_pos hl], h.ackThreaded p t⟩
  | receive t link received =>
    obtain ⟨hl, hs⟩ := Option.ite_none_right_eq_some.mp hs
    obtain ⟨⟨n₁, up⟩, hr, rfl⟩ := Option.map_eq_some_iff.mp hs
    obtain ⟨m', hm, hbehind⟩ := h.receive (toOption_eq_some.mp hr)
    refine ⟨m', ?_, hbehind⟩
    rw [Net.step, ← h.layer, if_pos ⟨hl.1, hl.2.1, h.wire hl.2.2⟩, hm]
    rfl

end Behind

/-- One pass of each link of `p` over what it has queued. -/
def sendPasses (N p : Nat) : List LinkAction := (Sys.others N p).map fun t => .sendThreaded p t

theorem run_sendPasses {N p : Nat} {ts : List Nat} (hl : ∀ t ∈ ts, HasLink N p t) {n : Net}
    (hactive : ∀ t, ((n.layer p).links t).linkActive = true) :
    ∃ n', (linkMachine N).run (ts.map fun t => .sendThreaded p t) n = some n' ∧ Behind n n' ∧
      ∀ t ∈ ts, ∀ f ∈ ((n.layer p).links t).messagesToSend, (t, f) ∈ n'.wire := by
  induction ts generalizing n with
  | nil => exact ⟨n, rfl, ⟨rfl, rfl, List.Subset.refl _⟩, by simp⟩
  | cons t ts ih =>
    have hstep : (linkMachine N).step n (.sendThreaded p t) = some (n.sendThreaded p t) :=
      if_pos ⟨hl t (by simp), hactive t⟩
    obtain ⟨n', hrun, hbehind, hall⟩ :=
      ih (fun u hu => hl u (by simp [hu])) (n := n.sendThreaded p t) hactive
    refine ⟨n', ?_, ⟨hbehind.layer, hbehind.handed, fun e he => ?_⟩, fun u hu f hf => ?_⟩
    · rw [List.map_cons, Machine.run, hstep]
      exact hrun
    · exact hbehind.wire (List.mem_append_left _ he)
    · rcases List.mem_cons.mp hu with rfl | hu
      · exact hbehind.wire (List.mem_append_right _ (List.mem_map_of_mem hf))
      · exact hall u hu f hf

/-- The order in which `startBroadcast` takes the messages and the links. -/
def byLink (N p : Nat) (msgs : List Str) : List (Nat × Str) :=
  (Sys.others N p).flatMap fun t => msgs.map fun msg => (t, msg)

/-- The order of `broadcastMessage` for each. -/
def byMessage (N p : Nat) (msgs : List Str) : List (Nat × Str) :=
  msgs.flatMap fun msg => (Sys.others N p).map fun t => (t, msg)

section Orders
variable (N p : Nat) (msgs : List Str) (n : Net)

theorem byLink_queues (st : LinkLayer) :
    st.pushAll p (byLink N p msgs) = st.pushAll p (byMessage N p msgs) := by
  have hothers := nodup_others N p
  simp only [LinkLayer.pushAll, byLink, byMessage, filter_links hothers, filter_messages hothers]

theorem byLink_layer : ((n.pushAll p false (byLink N p msgs)).setActive p).layer =
    ((n.pushAll p true (byMessage N p msgs)).setActive p).layer := by
  simp only [Net.setActive, Net.setLayer, Net.pushAll_layer, byLink_queues]

theorem byLink_behind : Behind ((n.pushAll p false (byLink N p msgs)).setActive p)
    ((n.pushAll p true (byMessage N p msgs)).setActive p) := by
  obtain ⟨sent, -, hnone, hwire⟩ := n.pushAll_wire p false (byLink N p msgs)
  obtain ⟨sent', -, -, hwire'⟩ := n.pushAll_wire p true (byMessage N p msgs)
  refine ⟨byLink_layer N p msgs n, ?_, ?_⟩
  · exact (n.pushAll_handed p false _).trans (n.pushAll_handed p true _).symm
  · rw [Net.setActive, Net.setActive, Net.setLayer_wire, Net.setLayer_wire, hwire, hwire',
      hnone rfl, List.map_nil, List.append_nil]
    exact List.subset_append_left _ _

/-- With a pass of each link, `startBroadcast` has sent what `broadcastMessage` sends. -/
theorem byMessage_behind (hp : 1 ≤ p ∧ p ≤ N) : ∃ n', (linkMachine N).run (sendPasses N p)
      ((n.pushAll p false (byLink N p msgs)).setActive p) = some n' ∧
    Behind ((n.pushAll p true (byMessage N p msgs)).setActive p) n' := by
  have hlink : ∀ t ∈ Sys.others N p, HasLink N p t := by
    intro t ht
    obtain ⟨h₁, hN, hne⟩ := mem_others.mp ht
    exact ⟨hp.1, hp.2, h₁, hN, hne.symm⟩
  obtain ⟨n', hrun, hbehind, hall⟩ := run_sendPasses hlink
    (n := (n.pushAll p false (byLink N p msgs)).setActive p)
    (by simp [Net.setActive, LinkLayer.setLinks])
  obtain ⟨sent, -, hnone, hwire⟩ := n.pushAll_wire p false (byLink N p msgs)
  obtain ⟨sent', hsent, -, hwire'⟩ := n.pushAll_wire p true (byMessage N p msgs)
  have hhanded : (n.pushAll p true (byMessage N p msgs)).handed =
      (n.pushAll p false (byLink N p msgs)).handed :=
    (n.pushAll_handed p true _).trans (n.pushAll_handed p false _).symm
  refine ⟨n', hrun, (byLink_layer N p msgs n).symm.trans hbehind.layer,
    hhanded.trans hbehind.handed, fun e he => ?_⟩
  rw [Net.setActive, Net.setLayer_wire, hwire'] at he
  rcases List.mem_append.mp he with he | he
  · refine hbehind.wire ?_
    rw [Net.setActive, Net.setLayer_wire, hwire]
    exact List.mem_append_left _ he
  · obtain ⟨⟨t, msg⟩, hx, rfl⟩ := List.mem_map.mp he
    have hpair : msg ∈ msgs ∧ t ∈ Sys.others N p := by
      simpa [byMessage] using hsent hx
    refine hall t hpair.2 _ ?_
    rw [Net.setActive_messages, Net.pushAll_layer, Function.update_self, LinkLayer.pushAll, byLink]
    simp only [filter_links (nodup_others N p), if_pos hpair.2, List.map_map]
    exact List.mem_append_right _ (List.mem_map_of_mem hpair.1)

end Orders

/-- If some packet does not fit its buffer, both ways overflow it. If all fit, both leave the same
in the links, so that whatever happens after `startBroadcast` can happen after `broadcastMessage`
for each message, and, once each link has made a pass, the other way round. -/
theorem beb_paths_agree (N p : Nat) (hp : 1 ≤ p ∧ p ≤ N) (b : Beb) :
    ((∃ t ∈ Sys.others N p, ∃ msg ∈ b.messagesToBroadcast, ¬ Formats p t msg) ∧
      b.startBroadcast N p = .error .bufferOverflow ∧
      b.net.broadcastEach N p b.messagesToBroadcast = .error .bufferOverflow) ∨
    (∀ t ∈ Sys.others N p, ∀ msg ∈ b.messagesToBroadcast, Formats p t msg) ∧
    ∃ b₁ n₂, b.startBroadcast N p = .ok b₁ ∧
      b.net.broadcastEach N p b.messagesToBroadcast = .ok n₂ ∧
      (∀ as m, (linkMachine N).run as b₁.net = some m →
        ∃ m', (linkMachine N).run as (n₂.setActive p) = some m' ∧ Behind m m') ∧
      ∀ as m, (linkMachine N).run as (n₂.setActive p) = some m →
        ∃ m', (linkMachine N).run (sendPasses N p ++ as) b₁.net = some m' ∧ Behind m m' := by
  obtain ⟨n, log, msgs⟩ := b
  have hstart := n.addToLinks_eq p msgs (Sys.others N p)
  have heach := n.broadcastEach_eq N p msgs
  by_cases hfit : ∀ t ∈ Sys.others N p, ∀ msg ∈ msgs, Formats p t msg
  · right
    rw [if_pos hfit] at hstart heach
    refine ⟨hfit, ⟨(n.pushAll p false (byLink N p msgs)).setActive p,
      (msgs.map sentEntry).foldl addMessageLog log, []⟩, n.pushAll p true (byMessage N p msgs),
      by rw [Beb.startBroadcast, hstart]; rfl, heach, ?_, ?_⟩
    · intro as m hm
      exact Machine.run_simulates Behind (fun _ _ _ _ h hs => h.step hs)
        (byLink_behind N p msgs n) hm
    · intro as m hm
      obtain ⟨n', hrun, hbehind⟩ := byMessage_behind N p msgs n hp
      obtain ⟨m', hrun', hm'⟩ :=
        Machine.run_simulates Behind (fun _ _ _ _ h hs => h.step hs) hbehind hm
      refine ⟨m', ?_, hm'⟩
      rw [Machine.run_append, hrun]
      exact hrun'
  · left
    rw [if_neg hfit] at hstart heach
    exact ⟨by simpa using hfit, by rw [Beb.startBroadcast, hstart]; rfl, heach⟩

def twoQueued : Beb := ⟨Net.start, [], [['1', '1'], ['1', '2']]⟩

theorem beb_paths_agree_twoQueued : ∃ b₁ n₂, twoQueued.startBroadcast 3 1 = .ok b₁ ∧
    twoQueued.net.broadcastEach 3 1 twoQueued.messagesToBroadcast = .ok n₂ ∧
    (∀ as m, (linkMachine 3).run as b₁.net = some m →
      ∃ m', (linkMachine 3).run as (n₂.setActive 1) = some m' ∧ Behind m m') ∧
    ∀ as m, (linkMachine 3).run as (n₂.setActive 1) = some m →
      ∃ m', (linkMachine 3).run (sendPasses 3 1 ++ as) b₁.net = some m' ∧ Behind m m' :=
  ((beb_paths_agree 3 1 (by decide) twoQueued).resolve_left fun h => absurd h.1 (by decide)).2

end DecentralizedBroadcast
