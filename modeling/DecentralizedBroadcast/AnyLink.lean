import DecentralizedBroadcast.PerfectLinkContract

/-! All links of a process read the same socket, so any of them may get a packet. What
a packet does must not depend on that; for acks it does. -/
set_option autoImplicit false

namespace DecentralizedBroadcast

theorem deliverThreaded_total {N self link : Nat} (st : LinkLayer) {c : Char} {d : Str}
    {sender target : Int} (hlen : 6 ≤ d.length) (hs : stoi (d.take 3) = .ok sender)
    (ht : stoi ((d.drop 3).take 3) = .ok target) (hN : 1 ≤ sender ∧ sender ≤ N) :
    ∃ st' up, deliverThreaded N self link st (c :: d) = .ok (st', up) := by
  have hack : substr (c :: d) 0 1 = .ok [c] := by simp [substr]
  have hsender : substr (c :: d) 1 3 = .ok (d.take 3) := by simp [substr]
  have htarget : substr (c :: d) 4 3 = .ok ((d.drop 3).take 3) :=
    substr_eq_ok.mpr ⟨by rw [List.length_cons]; omega, rfl⟩
  have hpayload : substr (c :: d) 7 (c :: d).length = .ok (d.drop 6) :=
    substr_eq_ok.mpr ⟨by rw [List.length_cons]; omega,
      (List.take_of_length_le (by simp; omega)).symm⟩
  have hdeliver : substr (c :: d) 1 (c :: d).length = .ok d :=
    substr_eq_ok.mpr ⟨by simp, (List.take_of_length_le (by simp)).symm⟩
  have hother : otherLink N self sender = .ok (if sender = self then none else some sender.toNat) :=
    if_pos hN
  simp only [deliverThreaded, hack, hsender, htarget, hpayload, hdeliver, hs, ht, hother, bind,
    Except.bind]
  have hdone : ∀ r : LinkLayer × Option Str,
      ∃ st' up, (pure r : Except Fault (LinkLayer × Option Str)) = .ok (st', up) :=
    fun r => ⟨r.1, r.2, rfl⟩
  by_cases hown : sender = self
  · simp only [hown, if_true]
    repeat' split
    all_goals exact hdone _
  · simp only [hown, if_false]
    repeat' split
    all_goals exact hdone _

/-- A packet with the ids of two processes, perhaps the same one, in its header. -/
structure Spells (N : Nat) (d : Str) (sender target : Nat) : Prop where
  long : 6 ≤ d.length
  senderText : stoi (d.take 3) = .ok (sender : Int)
  targetText : stoi ((d.drop 3).take 3) = .ok (target : Int)
  senderId : 1 ≤ sender ∧ sender ≤ N
  targetId : 1 ≤ target ∧ target ≤ N

theorem spells_pad3 {N s t : Nat} (hs : 1 ≤ s ∧ s ≤ N) (ht : 1 ≤ t ∧ t ≤ N) (hN : N ≤ 999)
    (body : Str) : Spells N (pad3 s ++ (pad3 t ++ body)) s t := by
  have hs' : s ≤ 999 := Nat.le_trans hs.2 hN
  have ht' : t ≤ 999 := Nat.le_trans ht.2 hN
  refine ⟨?_, ?_, ?_, hs, ht⟩
  · rw [List.length_append, List.length_append, pad3_length hs', pad3_length ht']
    omega
  · rw [take_pad3 hs', stoi_pad3 hs']
  · rw [drop_pad3 hs', take_pad3 ht', stoi_pad3 ht']

/-- What any link is to do with a data packet for `self`: record it, hand it up if it is new,
queue one ack on the link to its sender. -/
def dataEffect (st : LinkLayer) (d : Str) (sender : Nat) : LinkLayer × Option Str :=
  ((st.record d).addAck sender ('1' :: d),
    if d ∈ st.processDelivered then none else some ('0' :: d))

/-- What any link is to do with an ack: take the message off the queue of the link to the target
of the ack. -/
def ackEffect (st : LinkLayer) (d : Str) (target : Nat) : LinkLayer × Option Str :=
  (st.removeMessage target ('0' :: d), none)

theorem deliverThreaded_handled {N self link : Nat} (st : LinkLayer) (c : Char) {d : Str}
    {sender target : Nat} (h : Spells N d sender target) (hlink : link ≠ self) :
    ∃ st' up, deliverThreaded N self link st (c :: d) = .ok (st', up) ∧
      Handled self link st c d sender target st' up := by
  obtain ⟨st', up, hok⟩ := @deliverThreaded_total N self link st c d sender target h.long
    h.senderText h.targetText (by have := h.senderId; omega)
  obtain ⟨c', d', sender', target', heq, hs, ht, hres⟩ := deliverThreaded_cases hlink hok
  obtain ⟨rfl, rfl⟩ := List.cons.inj heq
  obtain rfl := Except.ok.inj (h.senderText.symm.trans hs)
  obtain rfl := Except.ok.inj (h.targetText.symm.trans ht)
  exact ⟨st', up, hok, hres⟩

/-- A data packet does the same on every link; if it names `self` as its sender there is no link
for the ack. -/
theorem deliverThreaded_data {N self link : Nat} (st : LinkLayer) {d : Str} {sender : Nat}
    (h : Spells N d sender self) (hlink : link ≠ self) :
    deliverThreaded N self link st ('0' :: d) = .ok ((st.record d).ackBack self sender ('1' :: d),
      if d ∈ st.processDelivered then none else some ('0' :: d)) := by
  obtain ⟨st', up, hok, hres⟩ := deliverThreaded_handled st '0' h hlink
  rw [hok]
  cases hres with
  | data hc ht => rfl
  | acked hc | strayAck hc => cases hc
  | ignored hd ha => exact absurd ⟨rfl, rfl⟩ hd

theorem addAck_links_ne {st st' : LinkLayer} {p : Nat} {a : Str} (h : st'.links p = st.links p) :
    st'.links ≠ (st.addAck p a).links := by
  intro he
  have hlen := congrArg (fun l => (l p).acksToSend.length) he
  simp [h, LinkLayer.addAck, LinkLayer.updateLink] at hlen

theorem dataEffect_iff {self sender : Nat} (st : LinkLayer) (d : Str) :
    ((st.record d).ackBack self sender ('1' :: d),
      if d ∈ st.processDelivered then none else some ('0' :: d)) = dataEffect st d sender ↔
      sender ≠ self := by
  rw [dataEffect, Prod.mk.injEq, and_iff_left rfl, LinkLayer.ackBack]
  by_cases hself : sender = self
  · have hne : (st.record d) ≠ (st.record d).addAck self ('1' :: d) :=
      fun he => addAck_links_ne rfl (congrArg LinkLayer.links he)
    simp [hself, hne]
  · simp [hself]

/-- An ack only does its work on the link to its target; elsewhere it is dropped. -/
theorem deliverThreaded_ack {N self link : Nat} (st : LinkLayer) {d : Str} {target : Nat}
    (h : Spells N d self target) (hlink : link ≠ self) :
    deliverThreaded N self link st ('1' :: d) =
      .ok (if link = target then ackEffect st d target else (st, none)) := by
  obtain ⟨st', up, hok, hres⟩ := deliverThreaded_handled st '1' h hlink
  rw [hok]
  cases hres with
  | data hc => cases hc
  | acked hc hs ht =>
    obtain rfl : link = target := by omega
    rw [if_pos rfl, ackEffect]
  | strayAck hc hs ht => rw [if_neg fun he => ht (by omega)]
  | ignored hd ha => exact absurd ⟨rfl, rfl⟩ ha

theorem removeMessage_eq_self {st : LinkLayer} {t : Nat} {m : Str} :
    st.removeMessage t m = st ↔ m ∉ (st.links t).messagesToSend := by
  constructor
  · intro h hin
    rw [← h, LinkLayer.mem_removeMessage] at hin
    exact hin.2 ⟨rfl, rfl⟩
  · intro h
    have hfilter : (st.links t).messagesToSend.filter (· ≠ m) = (st.links t).messagesToSend :=
      List.filter_eq_self.mpr fun x hx => by
        simp only [decide_eq_true_eq]
        rintro rfl
        exact h hx
    rw [LinkLayer.removeMessage, LinkLayer.updateLink, hfilter, Function.update_eq_self]

/-- The links `a` and `b` of `self` do the same with a packet, and what is to be done. -/
def AnyLink (N self a b : Nat) (st : LinkLayer) (c : Char) (d : Str) (sender target : Nat) : Prop :=
  let effect := if c = '0' then dataEffect st d sender else ackEffect st d target
  deliverThreaded N self a st (c :: d) = .ok effect ∧
  deliverThreaded N self b st (c :: d) = .ok effect

/-- On whichever link a packet of `self` arrives, it is handled alike and as it should, with two
exceptions. A data packet that names `self` as its sender is not acknowledged. An ack of a
message that is still queued is dropped if not both times the link to its target gets it: the
other links look for the queue under the sender of the message, which is this process itself. -/
theorem any_link_iff {N self a b : Nat} (ha : HasLink N self a) (hb : HasLink N self b)
    (st : LinkLayer) {c : Char} {d : Str} {sender target : Nat} (h : Spells N d sender target)
    (hmine : (c = '0' ∧ target = self) ∨ (c = '1' ∧ sender = self)) :
    AnyLink N self a b st c d sender target ↔
      (c = '0' ∧ sender ≠ self) ∨
      (c = '1' ∧ ((a = target ∧ b = target) ∨ '0' :: d ∉ (st.links target).messagesToSend)) := by
  have hla : a ≠ self := Ne.symm ha.2.2.2.2
  have hlb : b ≠ self := Ne.symm hb.2.2.2.2
  rcases hmine with ⟨rfl, rfl⟩ | ⟨rfl, rfl⟩
  · have hc : ¬ '0' = '1' := by decide
    simp only [AnyLink, if_true, true_and, hc, false_and, or_false, deliverThreaded_data st h hla,
      deliverThreaded_data st h hlb, Except.ok.injEq, dataEffect_iff, and_self]
  · have hc : ¬ '1' = '0' := by decide
    have hdropped : ∀ link, (if link = target then ackEffect st d target else (st, none)) =
        ackEffect st d target ↔ link = target ∨ '0' :: d ∉ (st.links target).messagesToSend := by
      intro link
      rw [← removeMessage_eq_self]
      by_cases hl : link = target
      · simp [hl]
      · simp [hl, ackEffect, eq_comm]
    simp only [AnyLink, hc, if_false, false_and, false_or, true_and, deliverThreaded_ack st h hla,
      deliverThreaded_ack st h hlb, Except.ok.injEq, hdropped]
    rw [← and_or_right]

/-- The first process of three still has its message for the second in its queue. -/
def ackWaiting : LinkLayer where
  links := fun t =>
    { linkActive := true
      messagesToSend := if t = 2 then [packetText 1 2 ['0', '1', '1']] else []
      acksToSend := [] }
  processDelivered := []

theorem any_link_iff_data :
    AnyLink 3 1 2 3 ackWaiting '0' (pad3 3 ++ (pad3 1 ++ ['0', '1', '1'])) 3 1 ↔
      ('0' = '0' ∧ 3 ≠ 1) ∨
      ('0' = '1' ∧ ((2 = 1 ∧ 3 = 1) ∨
        '0' :: (pad3 3 ++ (pad3 1 ++ ['0', '1', '1'])) ∉ (ackWaiting.links 1).messagesToSend)) :=
  any_link_iff (by decide) (by decide) ackWaiting
    (spells_pad3 (by decide) (by decide) (by decide) _) (.inl ⟨rfl, rfl⟩)

/-- The ack of the second process arrives on the link to the third one: the message stays. -/
theorem any_link_strayAck : ¬ AnyLink 3 1 2 3 ackWaiting '1'
    (pad3 1 ++ (pad3 2 ++ ['0', '1', '1'])) 1 2 := by
  rintro ⟨-, h⟩
  have hleft : ((deliverThreaded 3 1 3 ackWaiting
      ('1' :: (pad3 1 ++ (pad3 2 ++ ['0', '1', '1'])))).toOption.map
      fun r => (r.1.links 2).messagesToSend) = some [packetText 1 2 ['0', '1', '1']] := by decide
  rw [h] at hleft
  exact absurd hleft (by decide)

end DecentralizedBroadcast
