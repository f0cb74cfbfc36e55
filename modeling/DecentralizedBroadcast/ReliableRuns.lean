import DecentralizedBroadcast.AnyLink
import DecentralizedBroadcast.ReliableBroadcast
import DecentralizedBroadcast.StackInvariant

/-! What holds in every run of reliable broadcast. Its packets name the process that first sent
them, so the links are not the perfect links of the other broadcasts: an ack may come from a
process for a packet that another one queued. -/
set_option autoImplicit false

namespace DecentralizedBroadcast

def IsId (N q : Nat) : Prop := 1 ≤ q ∧ q ≤ N

/-- The messages of the run are those of `A`: (process, text). -/
def Queues (A : Nat → Str → Prop) : LinkAction → Prop
  | .addMessage p _ msg | .sendNewMessage p _ msg => A p msg
  | _ => True

/-- The links under reliable broadcast: a packet names the process that sent the message first. -/
abbrev RelayLinks (N : Nat) (A : Nat → Str → Prop) : Net → Prop :=
  LinkInv N fun _ q msg => IsId N q ∧ A q msg

section RelayLinks
variable {N : Nat} {A : Nat → Str → Prop} {n : Net}

theorem RelayLinks.receive_total (h : RelayLinks N A n) (hN : N ≤ 999) {t : Nat} {received : Str}
    (ht : IsId N t) (hw : (t, received) ∈ n.wire) (link : Nat) :
    ∃ n' up, n.receive N t link received = .ok (n', up) := by
  have total : ∀ c q u msg, IsId N q → IsId N u → received = c :: packetBody q u msg →
      ∃ n' up, n.receive N t link received = .ok (n', up) := by
    rintro c q u msg hq hu rfl
    have hid : (1 : Int) ≤ q ∧ (q : Int) ≤ N := by unfold IsId at hq; omega
    have hspells := spells_pad3 hq hu hN (cStr msg)
    obtain ⟨st, up, hok⟩ := @deliverThreaded_total N t link (n.layer t) c _ q u hspells.long
      hspells.senderText hspells.targetText hid
    have hbody : deliverThreaded N t link (n.layer t) (c :: packetBody q u msg) = .ok (st, up) :=
      hok
    exact ⟨_, up, by rw [Net.receive, hbody]; rfl⟩
  rcases h.wire t received hw with ⟨p, hin⟩ | ⟨p, u, d, ha, -, hin, -⟩
  · obtain ⟨-, q, msg, -, hS, hf⟩ := h.queued p t received hin
    exact total '0' q t msg hS.1 ht hf
  · obtain ⟨hl, q, msg, -, hS, hf⟩ := h.queued p u _ hin
    obtain ⟨-, rfl⟩ := List.cons.inj hf
    exact total '1' q u msg hS.1 ⟨hl.2.2.1, hl.2.2.2.1⟩ ha

end RelayLinks

theorem relayPacket_eq {q p t : Nat} (hq : q ≤ 999) (hp : p ≤ 999) (ht : t ≤ 999) (msg : Str) :
    relayPacket t (packetText q p msg) = .ok (packetText q t msg) := by
  have hid : sprintf03d t = .ok (pad3 t) := if_pos (fitsId_pad3 ht)
  have hsame : (packetText q p msg).set 0 '0' = ('0' :: pad3 q) ++ (pad3 p ++ cStr msg) := rfl
  have hpos : 4 = ('0' :: pad3 q).length := by rw [List.length_cons, pad3_length hq]
  have hreplace := @replace_mid ('0' :: pad3 q) (pad3 p) (cStr msg) (pad3 t) 4 3 hpos
    (pad3_length hp).symm
  simp only [relayPacket, hid, bind, Except.bind, hsame, hreplace]
  rfl

/-- The links after a relay: each of the targets has its packet, and nobody has recorded more. -/
theorem RelayLinks.relay {N : Nat} {A : Nat → Str → Prop} {n : Net} (h : RelayLinks N A n)
    (hN : N ≤ 999) {p q : Nat} {msg : Str} (hq : IsId N q) (hA : A q msg) {ts : List Nat}
    (hp : p ≤ 999) (hts : ∀ t ∈ ts, HasLink N p t) :
    ∃ n', Net.relay p (packetText q p msg) ts n = .ok n' ∧ RelayLinks N A n' ∧
      (∀ e ∈ n.queued, e ∈ n'.queued) ∧ (∀ t ∈ ts, (p, t, packetText q t msg) ∈ n'.queued) ∧
      ∀ u, (n'.layer u).processDelivered = (n.layer u).processDelivered := by
  induction ts generalizing n with
  | nil => exact ⟨n, rfl, h, fun _ he => he, by simp, fun _ => rfl⟩
  | cons t ts ih =>
    have hl := hts t (by simp)
    have hrelay := relayPacket_eq (t := t) (Nat.le_trans hq.2 hN) hp
      (Nat.le_trans hl.2.2.2.1 hN) msg
    obtain ⟨n', hok, hc, hkeep, hall, hdel⟩ :=
      ih (h.pushMessage hl (Nat.le_trans hq.2 hN) ⟨hq, hA⟩) fun u hu => hts u (by simp [hu])
    refine ⟨n', ?_, hc, fun e he => hkeep e (Net.mem_pushMessage_queued.mpr (.inl he)), ?_, ?_⟩
    · simp only [Net.relay, Net.addMessageRelay, hrelay, bind, Except.bind]
      exact hok
    · intro u hu
      rcases List.mem_cons.mp hu with rfl | hu
      · exact hkeep _ (Net.mem_pushMessage_queued.mpr (.inr rfl))
      · exact hall u hu
    · intro u
      rw [hdel u, Net.pushMessage_delivered]

def ReliableNet.addDelivered (s : ReliableNet) (t : Nat) (msg : Str) (net : Net) : ReliableNet :=
  { net := net
    messagesDelivered := Function.update s.messagesDelivered t (s.messagesDelivered t ++ [msg]) }

@[simp] theorem addDelivered_delivered (s : ReliableNet) (t u : Nat) (msg : Str) (net : Net) :
    (s.addDelivered t msg net).messagesDelivered u =
      if u = t then s.messagesDelivered t ++ [msg] else s.messagesDelivered u :=
  Function.update_apply _ _ _ _

theorem mem_addDelivered {s : ReliableNet} {t u : Nat} {msg f : Str} {net : Net} :
    f ∈ (s.addDelivered t msg net).messagesDelivered u ↔
      f ∈ s.messagesDelivered u ∨ u = t ∧ f = msg := by
  rw [addDelivered_delivered]
  by_cases hu : u = t
  · subst hu
    simp
  · simp [hu]

/-- What the broadcasts have delivered is what the links have recorded, and the process that
delivered a packet has queued a relay of it on every link. -/
structure Reliable (N : Nat) (A : Nat → Str → Prop) (s : ReliableNet) : Prop where
  links : RelayLinks N A s.net
  delivered : ∀ t, s.messagesDelivered t = (s.net.layer t).processDelivered.map ('0' :: ·)
  relayed : ∀ p, ∀ f ∈ s.messagesDelivered p, ∀ t ∈ Sys.others N p,
    ∃ g, relayPacket t f = .ok g ∧ (p, t, g) ∈ s.net.queued

/-- Neither a queued packet nor a delivery is taken back. -/
structure ReliableNet.Grows (s s' : ReliableNet) : Prop where
  queued : ∀ e ∈ s.net.queued, e ∈ s'.net.queued
  delivered : ∀ u, ∀ f ∈ s.messagesDelivered u, f ∈ s'.messagesDelivered u

section Reliable
variable {N : Nat} {A : Nat → Str → Prop} {s : ReliableNet}

theorem reliable_start : Reliable N A ReliableNet.start := by
  refine ⟨linkInv_start N _, fun _ => rfl, ?_⟩
  simp [ReliableNet.start]

theorem Reliable.quiet (h : Reliable N A s) (hN : N ≤ 999) {a : LinkAction} {n' : Net}
    (ha : ∀ t link received, a ≠ .receive t link received) (hA : Queues A a)
    (hs : Net.step N s.net a = some n') :
    Reliable N A { s with net := n' } ∧ s.Grows { s with net := n' } := by
  obtain ⟨hdel, -, hkeep⟩ := netStep_quiet ha hs
  have hlinks : RelayLinks N A n' := by
    refine h.links.step (fun p t msg hpost hl => ?_) hs
    have hp : IsId N p := ⟨hl.1, hl.2.1⟩
    rcases hpost with rfl | rfl <;> exact ⟨Nat.le_trans hp.2 hN, hp, hA⟩
  refine ⟨⟨hlinks, fun t => ?_, fun p f hf t ht => ?_⟩, hkeep, fun _ _ hf => hf⟩
  · rw [hdel]
    exact h.delivered t
  · obtain ⟨g, hg, hin⟩ := h.relayed p f hf t ht
    exact ⟨g, hg, hkeep _ hin⟩

theorem Reliable.mem_delivered (h : Reliable N A s) {t : Nat} {d : Str} :
    '0' :: d ∈ s.messagesDelivered t ↔ d ∈ (s.net.layer t).processDelivered := by
  rw [h.delivered, List.mem_map]
  constructor
  · rintro ⟨x, hx, he⟩
    exact (List.cons.inj he).2 ▸ hx
  · exact fun hd => ⟨d, hd, rfl⟩

/-- A packet that is new to `t`, once the links have recorded it and queued it for all others. -/
theorem Reliable.addDelivered (h : Reliable N A s) {t q : Nat} {msg : Str} {n' : Net}
    (hc : RelayLinks N A n') (hkeep : ∀ e ∈ s.net.queued, e ∈ n'.queued)
    (hdel : ∀ u, (n'.layer u).processDelivered =
      if u = t then (s.net.layer t).processDelivered ++ [packetBody q t msg]
      else (s.net.layer u).processDelivered)
    (hrelayed : ∀ u ∈ Sys.others N t, ∃ g, relayPacket u (packetText q t msg) = .ok g ∧
      (t, u, g) ∈ n'.queued) :
    Reliable N A (s.addDelivered t (packetText q t msg) n') ∧
      s.Grows (s.addDelivered t (packetText q t msg) n') := by
  refine ⟨⟨hc, fun u => ?_, fun p f hf u hu => ?_⟩,
    ⟨hkeep, fun u f hf => mem_addDelivered.mpr (.inl hf)⟩⟩
  · have hnet : ((s.addDelivered t (packetText q t msg) n').net.layer u).processDelivered = _ :=
      hdel u
    rw [addDelivered_delivered, hnet]
    split
    · rw [List.map_append, ← h.delivered]
      rfl
    · exact h.delivered u
  · rcases mem_addDelivered.mp hf with hf | ⟨rfl, rfl⟩
    · obtain ⟨g, hg, hin⟩ := h.relayed p f hf u hu
      exact ⟨g, hg, hkeep _ hin⟩
    · exact hrelayed u hu

/-- The links have taken a packet that is new to `t`, and its broadcast delivers it. -/
theorem Reliable.fresh (h : Reliable N A s) (hN : N ≤ 999) {t q : Nat} {msg : Str}
    (ht : IsId N t) (hq : IsId N q) (hA : A q msg)
    {p : Nat} (hin : (p, t, packetText q t msg) ∈ s.net.queued)
    (hnew : packetBody q t msg ∉ (s.net.layer t).processDelivered) :
    ∃ s', ReliableNet.deliver N { s with net := s.net.receiveData q t (packetBody q t msg) } t
        (packetText q t msg) = .ok s' ∧
      Reliable N A s' ∧ s.Grows s' ∧ packetText q t msg ∈ s'.messagesDelivered t := by
  have ht999 : t ≤ 999 := Nat.le_trans ht.2 hN
  have hq999 : q ≤ 999 := Nat.le_trans hq.2 hN
  have hnew' : packetText q t msg ∉ s.messagesDelivered t := fun hd => hnew (h.mem_delivered.mp hd)
  have hlinks : ∀ u ∈ Sys.others N t, HasLink N t u := fun u hu =>
    have hu := mem_others.mp hu
    ⟨ht.1, ht.2, hu.1, hu.2.1, Ne.symm hu.2.2⟩
  have hrec : RelayLinks N A (s.net.receiveData q t (packetBody q t msg)) :=
    h.links.receiveData ht999 hq999 hin
  obtain ⟨n', hok, hc, hkeep, hall, hdel⟩ := hrec.relay hN hq hA ht999 hlinks
  obtain ⟨hi, hg⟩ := h.addDelivered hc hkeep
    (fun u => by rw [hdel, Net.receiveData_delivered]; simp [hnew])
    (fun u hu => ⟨_, relayPacket_eq hq999 ht999 (Nat.le_trans (mem_others.mp hu).2.1 hN) msg,
      hall u hu⟩)
  refine ⟨s.addDelivered t (packetText q t msg) n', ?_, hi, hg, by simp⟩
  simp only [ReliableNet.deliver, if_neg hnew', hok, bind, Except.bind]
  rfl

theorem Reliable.noted (h : Reliable N A s) {n' : Net} (hc : RelayLinks N A n')
    (hq : n'.queued = s.net.queued)
    (hd : ∀ u, (n'.layer u).processDelivered = (s.net.layer u).processDelivered) :
    Reliable N A { s with net := n' } ∧ s.Grows { s with net := n' } := by
  refine ⟨⟨hc, fun t => ?_, fun p f hf t ht => ?_⟩, fun e he => ?_, fun _ _ hf => hf⟩
  · rw [hd]
    exact h.delivered t
  · rw [hq]
    exact h.relayed p f hf t ht
  · rw [hq]
    exact he

/-- A process can take any datagram on the wire for it, and then has delivered it if it is data. -/
theorem Reliable.receive (h : Reliable N A s) (hN : N ≤ 999) {t link : Nat} {received : Str}
    (hl : HasLink N t link) (hw : (t, received) ∈ s.net.wire) :
    ∃ s', s.receive N t link received = .ok s' ∧ Reliable N A s' ∧ s.Grows s' ∧
      ((∃ p, (p, t, received) ∈ s.net.queued) → received ∈ s'.messagesDelivered t) := by
  have ht : IsId N t := ⟨hl.1, hl.2.1⟩
  obtain ⟨net, up, hr⟩ := h.links.receive_total hN ht hw link
  have hc : RelayLinks N A net := h.links.receive hl hw hr
  have htook := h.links.took hl hw hr
  simp only [ReliableNet.receive, hr, bind, Except.bind]
  cases htook with
  | @data p q msg htfits hqfits hS hin =>
    by_cases hnew : packetBody q t msg ∈ (s.net.layer t).processDelivered
    · simp only [if_pos hnew]
      have hsame : ∀ u, ((s.net.receiveData q t (packetBody q t msg)).layer u).processDelivered =
          (s.net.layer u).processDelivered := by
        intro u
        rw [Net.receiveData_delivered, if_neg (by simp [hnew])]
      obtain ⟨hi, hg⟩ := h.noted hc rfl hsame
      exact ⟨_, rfl, hi, hg, fun _ => h.mem_delivered.mpr hnew⟩
    · simp only [if_neg hnew]
      obtain ⟨s', hok, hi, hg, hd⟩ := h.fresh hN ht hS.1 hS.2 hin hnew
      exact ⟨s', hok, hi, hg, fun _ => hd⟩
  | @acked d hd =>
    have hsame : ∀ u, ((s.net.setLayer t ((s.net.layer t).removeMessage link
        ('0' :: d))).layer u).processDelivered = (s.net.layer u).processDelivered := by
      intro u
      rw [Net.setLayer_layer]
      split
      · rename_i hu
        rw [LinkLayer.removeMessage_delivered, hu]
      · rfl
    obtain ⟨hi, hg⟩ := h.noted hc rfl hsame
    refine ⟨_, rfl, hi, hg, ?_⟩
    rintro ⟨p, hp⟩
    obtain ⟨-, q, msg, -, -, hf⟩ := h.links.queued p t _ hp
    cases hf
  | nothing hack =>
    obtain ⟨hi, hg⟩ := h.noted hc rfl fun _ => rfl
    refine ⟨_, rfl, hi, hg, ?_⟩
    rintro ⟨p, hp⟩
    exact absurd hp (hack (Nat.le_trans ht.2 hN) p)

theorem Reliable.receive_step (h : Reliable N A s) (hN : N ≤ 999) {t link : Nat} {received : Str}
    (hl : HasLink N t link) (hactive : ((s.net.layer t).links link).linkActive = true)
    (hw : (t, received) ∈ s.net.wire) :
    ∃ s', ReliableNet.step N s (.receive t link received) = some s' ∧ Reliable N A s' ∧
      s.Grows s' ∧
      ((∃ p, (p, t, received) ∈ s.net.queued) → received ∈ s'.messagesDelivered t) := by
  obtain ⟨net, up, hr⟩ := h.links.receive_total hN ⟨hl.1, hl.2.1⟩ hw link
  have hnet : s.net.step N (.receive t link received) = some net := by
    simp [Net.step, hl, hactive, hw, hr, Except.toOption]
  obtain ⟨s', hok, hi, hg, hd⟩ := h.receive hN hl hw
  refine ⟨s', ?_, hi, hg, hd⟩
  rw [ReliableNet.step, hnet, hok]
  rfl

theorem reliable_step (h : Reliable N A s) (hN : N ≤ 999) {a : LinkAction} {s' : ReliableNet}
    (hA : Queues A a) (hs : ReliableNet.step N s a = some s') : Reliable N A s' ∧ s.Grows s' := by
  cases a with
  | receive t link received =>
    have hsome : (s.net.step N (.receive t link received)).isSome := by
      by_contra hnone
      rw [ReliableNet.step, if_neg hnone] at hs
      cases hs
    obtain ⟨net, hnet⟩ := Option.isSome_iff_exists.mp hsome
    simp only [Net.step, Option.ite_none_right_eq_some] at hnet
    obtain ⟨hl, hactive, hw⟩ := hnet.1
    obtain ⟨s₁, hs₁, hi, hg, -⟩ := h.receive_step hN hl hactive hw
    obtain rfl := Option.some.inj (hs.symm.trans hs₁)
    exact ⟨hi, hg⟩
  | _ =>
    simp only [ReliableNet.step, Option.map_eq_some_iff] at hs
    obtain ⟨net, hn, rfl⟩ := hs
    exact h.quiet hN (by simp) hA hn

theorem reliable_reachableBy (hN : N ≤ 999)
    (h : (reliableMachine N).ReachableBy (fun _ a => Queues A a) s) : Reliable N A s :=
  h.invariant (Reliable N A) reliable_start fun _ _ _ hi ha hs => (reliable_step hi hN ha hs).1

theorem reliable_reachable (hN : N ≤ 999) (h : (reliableMachine N).Reachable s) :
    Reliable N (fun _ _ => True) s :=
  reliable_reachableBy hN (h.mono fun _ a _ => by cases a <;> trivial)

end Reliable

def SentIn (as : List LinkAction) (p : Nat) (msg : Str) : Prop :=
  ∃ u, .addMessage p u msg ∈ as ∨ .sendNewMessage p u msg ∈ as

/-- No process delivers a packet twice or one that its sender did not send, however the relays of
the others travel; the check in `deliver` finds nothing that the links have let through. -/
theorem reliable_integrity (N : Nat) (hN : N ≤ 999) (as : List LinkAction) (s : ReliableNet)
    (h : (reliableMachine N).run as ReliableNet.start = some s) (t : Nat) :
    (s.messagesDelivered t).Nodup ∧
    s.messagesDelivered t = (s.net.layer t).processDelivered.map ('0' :: ·) ∧
    ∀ f ∈ s.messagesDelivered t, ∃ p msg, IsId N p ∧ SentIn as p msg ∧ f = packetText p t msg := by
  have hqueues : ∀ a ∈ as, Queues (SentIn as) a := by
    intro a ha
    cases a with
    | addMessage p u msg => exact ⟨u, .inl ha⟩
    | sendNewMessage p u msg => exact ⟨u, .inr ha⟩
    | _ => trivial
  have hi : Reliable N (SentIn as) s := reliable_reachableBy hN
    ((Machine.steps_of_run h).mono fun _ a ha => hqueues a ha)
  refine ⟨?_, hi.delivered t, fun f hf => ?_⟩
  · rw [hi.delivered]
    exact (hi.links.nodup t).map (List.cons_injective)
  · rw [hi.delivered] at hf
    obtain ⟨d, hd, rfl⟩ := List.mem_map.mp hf
    obtain ⟨-, p, hq⟩ := hi.links.recorded t d hd
    obtain ⟨-, q, msg, -, ⟨hid, hsent⟩, hform⟩ := hi.links.queued p t _ hq
    exact ⟨q, msg, hid, hsent, hform⟩

/-- The first of three processes sends to the second only; the message goes around to the third
and back to where it came from. -/
def relayedAround : List LinkAction :=
  [.setActive 1 true, .setActive 2 true, .setActive 3 true, .sendNewMessage 1 2 ['h', 'i'],
    .receive 2 1 (packetText 1 2 ['h', 'i']), .sendThreaded 2 3,
    .receive 3 2 (packetText 1 3 ['h', 'i']), .sendThreaded 3 1,
    .receive 1 3 (packetText 1 1 ['h', 'i'])]

theorem reliable_integrity_relayedAround :
    ∃ s, (reliableMachine 3).run relayedAround ReliableNet.start = some s ∧
      s.messagesDelivered 1 = [packetText 1 1 ['h', 'i']] ∧
      ∀ f ∈ s.messagesDelivered 1, ∃ p msg, IsId 3 p ∧ SentIn relayedAround p msg ∧
        f = packetText p 1 msg := by
  have hrun : ((reliableMachine 3).run relayedAround ReliableNet.start).map
      (fun s => s.messagesDelivered 1) = some [packetText 1 1 ['h', 'i']] := by decide
  obtain ⟨s, hs, hd⟩ := Option.map_eq_some_iff.mp hrun
  exact ⟨s, hs, hd, (reliable_integrity 3 (by decide) relayedAround s hs 1).2.2⟩

/-- What waits on a link waits there until its target has delivered it; and the target can take
whatever arrives, without an exception. -/
theorem reliable_no_loss (N : Nat) (hN : N ≤ 999) (s : ReliableNet)
    (h : (reliableMachine N).Reachable s) :
    (∀ p t f, (p, t, f) ∈ s.net.queued →
      f ∈ ((s.net.layer p).links t).messagesToSend ∨ f ∈ s.messagesDelivered t) ∧
    ∀ t link received, HasLink N t link → (t, received) ∈ s.net.wire →
      ∃ s', s.receive N t link received = .ok s' ∧
        ((∃ p, (p, t, received) ∈ s.net.queued) → received ∈ s'.messagesDelivered t) := by
  have hi := reliable_reachable hN h
  refine ⟨fun p t f hq => ?_, fun t link received hl hw => ?_⟩
  · rcases hi.links.kept p t f hq with hf | hf
    · exact .inl hf
    · obtain ⟨-, q, msg, -, -, rfl⟩ := hi.links.queued p t f hq
      exact .inr (hi.mem_delivered.mpr hf)
  · obtain ⟨s', hok, -, -, hd⟩ := hi.receive hN hl hw
    exact ⟨s', hok, hd⟩

theorem reliable_no_loss_relayedAround :
    packetText 1 3 ['h', 'i'] ∈
      ((((reliableMachine 3).after relayedAround).net.layer 2).links 3).messagesToSend ∧
    ∀ p t f, (p, t, f) ∈ ((reliableMachine 3).after relayedAround).net.queued →
      f ∈ ((((reliableMachine 3).after relayedAround).net.layer p).links t).messagesToSend ∨
        f ∈ ((reliableMachine 3).after relayedAround).messagesDelivered t :=
  ⟨by decide, (reliable_no_loss 3 (by decide) _ ((reliableMachine 3).reachable_after _)).1⟩

end DecentralizedBroadcast
