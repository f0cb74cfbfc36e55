import DecentralizedBroadcast.PerfectLink
import Mathlib.Data.List.Nodup

/-! What an action does to the links, and what they keep to in every run, whatever broadcast is
above them: what is sent was queued, acks answer what has been recorded, and a packet stays in its
queue until its target has recorded it. -/
set_option autoImplicit false

namespace DecentralizedBroadcast

namespace LinkLayer

/-- Delivered list after a data packet whose text past the ack digit is `d`. -/
def record (st : LinkLayer) (d : Str) : LinkLayer :=
  if d ∈ st.processDelivered then st else st.addMessageDelivered d

/-- The ack goes out on the link to the sender the packet names; there is none to itself. -/
def ackBack (st : LinkLayer) (self : Nat) (sender : Int) (ack : Str) : LinkLayer :=
  if sender = self then st else st.addAck sender.toNat ack

theorem mem_record {st : LinkLayer} {d x : Str} :
    x ∈ (st.record d).processDelivered ↔ x ∈ st.processDelivered ∨ x = d := by
  unfold record
  split
  · constructor
    · exact .inl
    · rintro (h | rfl) <;> assumption
  · simp [addMessageDelivered]

@[simp] theorem record_links (st : LinkLayer) (d : Str) : (st.record d).links = st.links := by
  unfold record
  split <;> rfl

@[simp] theorem ackBack_delivered (st : LinkLayer) (self : Nat) (i : Int) (a : Str) :
    (st.ackBack self i a).processDelivered = st.processDelivered := by
  unfold ackBack
  split <;> rfl

@[simp] theorem ackBack_messages (st : LinkLayer) (self : Nat) (i : Int) (a : Str) (t : Nat) :
    ((st.ackBack self i a).links t).messagesToSend = (st.links t).messagesToSend := by
  unfold ackBack
  split
  · rfl
  · by_cases h : t = i.toNat <;> simp [addAck, updateLink, h]

theorem mem_ackBack {st : LinkLayer} {self t : Nat} {i : Int} {a x : Str}
    (h : x ∈ ((st.ackBack self i a).links t).acksToSend) :
    x ∈ (st.links t).acksToSend ∨ t = i.toNat ∧ x = a := by
  unfold ackBack at h
  split at h
  · exact .inl h
  · by_cases ht : t = i.toNat
    · subst ht
      simp [addAck, updateLink] at h
      tauto
    · simp [addAck, updateLink, ht] at h
      exact .inl h

@[simp] theorem removeMessage_delivered (st : LinkLayer) (t : Nat) (m : Str) :
    (st.removeMessage t m).processDelivered = st.processDelivered := rfl

@[simp] theorem removeMessage_acks (st : LinkLayer) (t u : Nat) (m : Str) :
    ((st.removeMessage t m).links u).acksToSend = (st.links u).acksToSend := by
  by_cases h : u = t <;> simp [removeMessage, updateLink, h]

theorem mem_removeMessage {st : LinkLayer} {t u : Nat} {m x : Str} :
    x ∈ ((st.removeMessage t m).links u).messagesToSend ↔
      x ∈ (st.links u).messagesToSend ∧ ¬ (u = t ∧ x = m) := by
  by_cases h : u = t <;> simp [removeMessage, updateLink, h]

end LinkLayer

/-- Everything one received packet can do to the link layer of process `self`. -/
inductive Handled (self link : Nat) (st : LinkLayer) (c : Char) (d : Str) (sender target : Int) :
    LinkLayer → Option Str → Prop where
  | data (hc : c = '0') (ht : target = self) :
      Handled self link st c d sender target ((st.record d).ackBack self sender ('1' :: d))
        (if d ∈ st.processDelivered then none else some (c :: d))
  | acked (hc : c = '1') (hs : sender = self) (ht : target = link) :
      Handled self link st c d sender target (st.removeMessage link ('0' :: d)) none
  | strayAck (hc : c = '1') (hs : sender = self) (ht : target ≠ link) :
      Handled self link st c d sender target st none
  | ignored (hd : ¬ (c = '0' ∧ target = self)) (ha : ¬ (c = '1' ∧ sender = self)) :
      Handled self link st c d sender target st none

/-- Whichever link it goes out on, an ack goes back to the sender the packet names. -/
theorem ackBack_ok {N self link : Nat} {st st' : LinkLayer} {sender target : Int} {ack : Str}
    {up up' : Option Str} (hlink : link ≠ self)
    (h : (if target = self ∧ sender = link then pure (st.addAck link ack, up)
      else do
        match ← otherLink N self sender with
        | some correctLink => pure (st.addAck correctLink ack, up)
        | none => pure (st, up)) = Except.ok (st', up')) :
    st' = st.ackBack self sender ack ∧ up' = up := by
  split at h
  · rename_i hmine
    have hne : sender ≠ self := by omega
    obtain ⟨rfl, rfl⟩ := Prod.mk.inj (Except.ok.inj h)
    simp [LinkLayer.ackBack, hmine.2, hlink]
  · obtain ⟨other, ho, h⟩ := bind_eq_ok.mp h
    unfold otherLink at ho
    split at ho
    · obtain rfl := Except.ok.inj ho
      by_cases hown : sender = self
      · simp only [hown, if_true] at h
        obtain ⟨rfl, rfl⟩ := Prod.mk.inj (Except.ok.inj h)
        simp [LinkLayer.ackBack, hown]
      · simp only [hown, if_false] at h
        obtain ⟨rfl, rfl⟩ := Prod.mk.inj (Except.ok.inj h)
        simp [LinkLayer.ackBack, hown]
    · cases ho

theorem deliverThreaded_cases {N self link : Nat} {st st' : LinkLayer} {received : Str}
    {up : Option Str} (hlink : link ≠ self)
    (h : deliverThreaded N self link st received = .ok (st', up)) :
    ∃ c d sender target, received = c :: d ∧ stoi (d.take 3) = .ok sender ∧
      stoi ((d.drop 3).take 3) = .ok target ∧ Handled self link st c d sender target st' up := by
  simp only [deliverThreaded, bind_eq_ok, substr_eq_ok] at h
  obtain ⟨ack, ⟨-, rfl⟩, s₁, ⟨h1, rfl⟩, sender, hs, s₂, ⟨-, rfl⟩, target, ht, -, -, m, ⟨-, rfl⟩, h⟩
    := h
  cases received with
  | nil => simp at h1
  | cons c d =>
    refine ⟨c, d, sender, target, rfl, by simpa using hs, by simpa using ht, ?_⟩
    simp only [List.drop_zero, List.take_succ_cons, List.take_zero, List.drop_succ_cons,
      List.length_cons, List.take_of_length_le (Nat.le_succ d.length), List.set_cons_zero,
      List.cons.injEq, and_true] at h
    by_cases hdata : (self : Int) = target ∧ c = '0'
    · rw [if_pos hdata] at h
      obtain ⟨hself, rfl⟩ := hdata
      have hst : (if d ∈ st.processDelivered then (st, none)
          else (st.addMessageDelivered d, some ('0' :: d))) =
          (st.record d, if d ∈ st.processDelivered then none else some ('0' :: d)) := by
        unfold LinkLayer.record
        split <;> rfl
      simp only [hst] at h
      obtain ⟨rfl, rfl⟩ := ackBack_ok hlink h
      exact .data rfl hself.symm
    · rw [if_neg hdata] at h
      by_cases hack : (self : Int) = sender ∧ c = '1'
      · rw [if_pos hack] at h
        obtain ⟨hself, rfl⟩ := hack
        split at h
        · rename_i hlink
          obtain ⟨rfl, rfl⟩ := Prod.mk.inj (Except.ok.inj h)
          exact .acked rfl hself.symm hlink
        · rename_i hlink
          obtain ⟨other, ho, h⟩ := bind_eq_ok.mp h
          unfold otherLink at ho
          split at ho
          · obtain rfl := Except.ok.inj ho
            -- the sender of the ack's packet is this process, whose own slot is null
            simp only [hself.symm, if_true] at h
            obtain ⟨rfl, rfl⟩ := Prod.mk.inj (Except.ok.inj h)
            exact .strayAck rfl hself.symm hlink
          · cases ho
      · rw [if_neg hack] at h
        obtain ⟨rfl, rfl⟩ := Prod.mk.inj (Except.ok.inj h)
        exact .ignored (fun ⟨h₁, h₂⟩ => hdata ⟨h₂.symm, h₁⟩) (fun ⟨h₁, h₂⟩ => hack ⟨h₂.symm, h₁⟩)

theorem deliverThreaded_up {N self link : Nat} {st st' : LinkLayer} {received msg : Str}
    (hlink : link ≠ self) (h : deliverThreaded N self link st received = .ok (st', some msg)) :
    self ≤ 999 := by
  obtain ⟨c, d, sender, target, -, -, ht, hres⟩ := deliverThreaded_cases hlink h
  have hle := stoi_le_999 ht (List.length_take_le _ _)
  generalize hu : some msg = up at hres
  cases hres with
  | data hc htar => omega
  | acked | strayAck | ignored => cases hu

theorem take_pad3 {p : Nat} (h : p ≤ 999) (x : Str) : (pad3 p ++ x).take 3 = pad3 p := by
  rw [← pad3_length h, List.take_left]

theorem drop_pad3 {p : Nat} (h : p ≤ 999) (x : Str) : (pad3 p ++ x).drop 3 = x := by
  rw [← pad3_length h, List.drop_left]

/-- The fields that a receiver parses out of a packet of a three-digit sender. -/
theorem packet_fields {p t : Nat} {msg d : Str} {c : Char} {sender target : Int} (hp : p ≤ 999)
    (hf : c :: d = packetText p t msg) (hs : stoi (d.take 3) = .ok sender)
    (ht : stoi ((d.drop 3).take 3) = .ok target) :
    c = '0' ∧ sender = p ∧ target ≤ 999 ∧ (t ≤ 999 → target = t) := by
  obtain ⟨rfl, rfl⟩ := List.cons.inj hf
  rw [take_pad3 hp, stoi_pad3 hp] at hs
  rw [drop_pad3 hp] at ht
  refine ⟨rfl, (Except.ok.inj hs).symm, stoi_le_999 ht (List.length_take_le _ _), fun h => ?_⟩
  rw [take_pad3 h, stoi_pad3 h] at ht
  exact (Except.ok.inj ht).symm

theorem eraseReps_subset {α : Type*} [BEq α] {l : List α} {x : α} (h : x ∈ l.eraseReps) :
    x ∈ l := by
  cases l with
  | nil => simp [List.eraseReps, List.eraseRepsBy] at h
  | cons a as =>
    simp only [List.eraseReps, List.eraseRepsBy] at h
    suffices hloop : ∀ (as acc : List α) (a : α),
        x ∈ List.eraseRepsBy.loop (· == ·) a as acc → x = a ∨ x ∈ as ∨ x ∈ acc by
      rcases hloop as [] a h with h | h | h <;> simp_all
    intro as
    induction as with
    | nil => intro acc a h; simpa [List.eraseRepsBy.loop, or_comm] using h
    | cons b as ih =>
      intro acc a h
      simp only [List.eraseRepsBy.loop] at h
      split at h
      · rcases ih acc a h with h | h | h <;> simp [h]
      · rcases ih (a :: acc) b h with h | h | h <;> simp at h ⊢ <;> tauto

def packetBody (q t : Nat) (msg : Str) : Str := pad3 q ++ (pad3 t ++ cStr msg)

theorem formatPacket_ok {p t : Nat} {msg f : Str} (h : formatPacket p t msg = .ok f) :
    f = packetText p t msg := by
  unfold formatPacket at h
  split at h
  · exact (Except.ok.inj h).symm
  · cases h

/-- All that an action can do to the links. -/
inductive Net.Effect (N : Nat) (n : Net) : LinkAction → Net → Prop where
  | setActive {p : Nat} {active : Bool} :
      Effect N n (.setActive p active) (n.setLayer p ((n.layer p).setLinks active))
  | addMessage {p t : Nat} {msg f : Str} (hl : HasLink N p t) (hf : formatPacket p t msg = .ok f) :
      Effect N n (.addMessage p t msg) (n.pushMessage p t f)
  | sendNewMessage {p t : Nat} {msg f : Str} (hl : HasLink N p t)
      (hf : formatPacket p t msg = .ok f) :
      Effect N n (.sendNewMessage p t msg) ((n.pushMessage p t f).send t [f])
  | inactive {p t : Nat} {msg f : Str} (hl : HasLink N p t) (hf : formatPacket p t msg = .ok f) :
      Effect N n (.sendNewMessage p t msg) (n.pushMessage p t f)
  | sendThreaded {p t : Nat} :
      Effect N n (.sendThreaded p t) (n.send t ((n.layer p).links t).messagesToSend)
  | ackThreaded {p t : Nat} :
      Effect N n (.ackThreaded p t)
        ((n.send t ((n.layer p).links t).acksToSend.eraseReps).setLayer p
          ((n.layer p).clearAcks t))
  | receive {t link : Nat} {received : Str} {n' : Net} {up : Option Str} (hl : HasLink N t link)
      (hw : (t, received) ∈ n.wire) (hr : n.receive N t link received = .ok (n', up)) :
      Effect N n (.receive t link received) n'

theorem netStep_effect {N : Nat} {n n' : Net} {a : LinkAction} (hs : Net.step N n a = some n') :
    n.Effect N a n' := by
  cases a with
  | setActive p active => exact Option.some.inj hs ▸ .setActive
  | addMessage p t msg =>
    simp only [Net.step, Option.ite_none_right_eq_some, toOption_eq_some, Net.addMessage,
      bind_eq_ok] at hs
    obtain ⟨hl, f, hf, hs⟩ := hs
    exact Except.ok.inj hs ▸ .addMessage hl hf
  | sendNewMessage p t msg =>
    simp only [Net.step, Option.ite_none_right_eq_some, toOption_eq_some, Net.sendNewMessage,
      bind_eq_ok] at hs
    obtain ⟨hl, f, hf, hs⟩ := hs
    obtain rfl := Except.ok.inj hs
    split
    · -- sending before queueing or after it leaves the same state
      exact .sendNewMessage hl hf
    · exact .inactive hl hf
  | sendThreaded p t =>
    obtain ⟨-, hs⟩ := Option.ite_none_right_eq_some.mp hs
    exact Option.some.inj hs ▸ .sendThreaded
  | ackThreaded p t =>
    obtain ⟨-, hs⟩ := Option.ite_none_right_eq_some.mp hs
    exact Option.some.inj hs ▸ .ackThreaded
  | receive t link received =>
    simp only [Net.step, Option.ite_none_right_eq_some, Option.map_eq_some_iff,
      toOption_eq_some] at hs
    obtain ⟨⟨hl, -, hw⟩, ⟨net, up⟩, hr, rfl⟩ := hs
    exact .receive hl hw hr

/-- `u` has recorded the packet that `p` queued for it, whose text past the ack digit is `d`. -/
def Net.Recorded (n : Net) (p u : Nat) (d : Str) : Prop :=
  (p, u, '0' :: d) ∈ n.queued ∧ d ∈ (n.layer u).processDelivered

/-- The ack of a recorded packet, on its way to the sender that the packet names. -/
def Net.Answer (n : Net) (t : Nat) (a : Str) : Prop :=
  ∃ p u d, a = '1' :: d ∧ stoi (d.take 3) = .ok (t : Int) ∧ n.Recorded p u d

/-- What the links keep to under any broadcast. `p` queues a packet with the sender `q` and the text
`msg` only if `S p q msg`. -/
structure LinkInv (N : Nat) (S : Nat → Nat → Str → Prop) (n : Net) : Prop where
  queued : ∀ p t f, (p, t, f) ∈ n.queued →
    HasLink N p t ∧ ∃ q msg, q ≤ 999 ∧ S p q msg ∧ f = packetText q t msg
  sending : ∀ p t f, f ∈ ((n.layer p).links t).messagesToSend → (p, t, f) ∈ n.queued
  wire : ∀ t f, (t, f) ∈ n.wire → (∃ p, (p, t, f) ∈ n.queued) ∨ n.Answer t f
  acks : ∀ u t a, a ∈ ((n.layer u).links t).acksToSend → n.Answer t a
  recorded : ∀ t d, d ∈ (n.layer t).processDelivered → t ≤ 999 ∧ ∃ p, (p, t, '0' :: d) ∈ n.queued
  nodup : ∀ t, (n.layer t).processDelivered.Nodup
  kept : ∀ p t f, (p, t, f) ∈ n.queued →
    f ∈ ((n.layer p).links t).messagesToSend ∨ f.drop 1 ∈ (n.layer t).processDelivered

namespace Net

@[simp] theorem setLayer_layer (n : Net) (p q : Nat) (st : LinkLayer) :
    (n.setLayer p st).layer q = if q = p then st else n.layer q := Function.update_apply _ _ _ _

@[simp] theorem setLayer_wire (n : Net) (p : Nat) (st : LinkLayer) :
    (n.setLayer p st).wire = n.wire := rfl

@[simp] theorem setLayer_queued (n : Net) (p : Nat) (st : LinkLayer) :
    (n.setLayer p st).queued = n.queued := rfl

@[simp] theorem setLayer_handed (n : Net) (p : Nat) (st : LinkLayer) :
    (n.setLayer p st).handed = n.handed := rfl

@[simp] theorem pushMessage_delivered (n : Net) (p t u : Nat) (f : Str) :
    ((n.pushMessage p t f).layer u).processDelivered = (n.layer u).processDelivered := by
  by_cases hu : u = p <;> simp [pushMessage, hu, LinkLayer.pushMessage, LinkLayer.updateLink]

@[simp] theorem pushMessage_acks (n : Net) (p t u v : Nat) (f : Str) :
    (((n.pushMessage p t f).layer u).links v).acksToSend =
      ((n.layer u).links v).acksToSend := by
  by_cases hu : u = p
  · subst hu
    by_cases hv : v = t <;> simp [pushMessage, LinkLayer.pushMessage, LinkLayer.updateLink, hv]
  · simp [pushMessage, hu]

theorem mem_pushMessage_queued {n : Net} {p t : Nat} {f : Str} {e : Nat × Nat × Str} :
    e ∈ (n.pushMessage p t f).queued ↔ e ∈ n.queued ∨ e = (p, t, f) := by
  simp [pushMessage]

theorem mem_pushMessage_messages {n : Net} {p t u v : Nat} {f g : Str} :
    g ∈ (((n.pushMessage p t f).layer u).links v).messagesToSend ↔
      g ∈ ((n.layer u).links v).messagesToSend ∨ (u, v, g) = (p, t, f) := by
  by_cases hu : u = p
  · subst hu
    by_cases hv : v = t <;> simp [pushMessage, LinkLayer.pushMessage, LinkLayer.updateLink, hv]
  · simp [pushMessage, hu]

theorem Answer.mono {n n' : Net} {t : Nat} {a : Str} (h : n.Answer t a)
    (hq : ∀ e ∈ n.queued, e ∈ n'.queued)
    (hd : ∀ u, ∀ d ∈ (n.layer u).processDelivered, d ∈ (n'.layer u).processDelivered) :
    n'.Answer t a := by
  obtain ⟨p, u, d, ha, hsender, hin, hrec⟩ := h
  exact ⟨p, u, d, ha, hsender, hq _ hin, hd u d hrec⟩

/-- Process `t` after a data packet with the sender `q` whose text past the ack digit is `d`. -/
def receiveData (n : Net) (q t : Nat) (d : Str) : Net :=
  { n.setLayer t (((n.layer t).record d).ackBack t q ('1' :: d)) with
    handed := n.handed ++ (if d ∈ (n.layer t).processDelivered then none
      else some ('0' :: d)).toList.map (t, ·) }

theorem receiveData_layer (n : Net) (p t u : Nat) (d : Str) : (n.receiveData p t d).layer u =
    if u = t then ((n.layer t).record d).ackBack t p ('1' :: d) else n.layer u := by
  simp [receiveData]

theorem receiveData_delivered (n : Net) (p t u : Nat) (d : Str) :
    ((n.receiveData p t d).layer u).processDelivered =
      if u = t ∧ d ∉ (n.layer t).processDelivered then (n.layer t).processDelivered ++ [d]
      else (n.layer u).processDelivered := by
  rw [receiveData_layer]
  by_cases hu : u = t
  · subst hu
    by_cases hd : d ∈ (n.layer u).processDelivered <;>
      simp [LinkLayer.record, LinkLayer.addMessageDelivered, hd]
  · simp [hu]

theorem mem_receiveData_delivered {n : Net} {p t u : Nat} {d x : Str} :
    x ∈ ((n.receiveData p t d).layer u).processDelivered ↔
      x ∈ (n.layer u).processDelivered ∨ u = t ∧ x = d := by
  rw [receiveData_layer]
  by_cases hu : u = t <;> simp [hu, LinkLayer.mem_record]

@[simp] theorem receiveData_messages (n : Net) (p t u v : Nat) (d : Str) :
    (((n.receiveData p t d).layer u).links v).messagesToSend =
      ((n.layer u).links v).messagesToSend := by
  rw [receiveData_layer]
  by_cases hu : u = t <;> simp [hu]

@[simp] theorem unchanged (n : Net) (t : Nat) :
    { n.setLayer t (n.layer t) with handed := n.handed ++ [] } = n := by
  simp [setLayer]

end Net

section LinkInv
variable {N : Nat} {S : Nat → Nat → Str → Prop} {n : Net}

theorem linkInv_start (N : Nat) (S : Nat → Nat → Str → Prop) : LinkInv N S Net.start := by
  constructor <;> simp [Net.start]

theorem LinkInv.send (h : LinkInv N S n) {t : Nat} {texts : List Str}
    (ht : ∀ f ∈ texts, (∃ p, (p, t, f) ∈ n.queued) ∨ n.Answer t f) :
    LinkInv N S (n.send t texts) := by
  refine ⟨h.queued, h.sending, fun u f hf => ?_, h.acks, h.recorded, h.nodup, h.kept⟩
  rcases List.mem_append.mp hf with hf | hf
  · exact h.wire u f hf
  · obtain ⟨g, hg, he⟩ := List.mem_map.mp hf
    obtain ⟨rfl, rfl⟩ := Prod.mk.inj he
    exact ht g hg

/-- A new layer for `p` that only drops acks, and messages that their target has recorded. -/
theorem LinkInv.setLayer (h : LinkInv N S n) {p : Nat} {st : LinkLayer}
    (hd : st.processDelivered = (n.layer p).processDelivered)
    (hm : ∀ t, ∀ f ∈ (st.links t).messagesToSend, f ∈ ((n.layer p).links t).messagesToSend)
    (hkeep : ∀ t, ∀ f ∈ ((n.layer p).links t).messagesToSend,
      f ∈ (st.links t).messagesToSend ∨ f.drop 1 ∈ (n.layer t).processDelivered)
    (ha : ∀ t, ∀ a ∈ (st.links t).acksToSend, a ∈ ((n.layer p).links t).acksToSend) :
    LinkInv N S (n.setLayer p st) := by
  have hdel : ∀ u, ((n.setLayer p st).layer u).processDelivered =
      (n.layer u).processDelivered := by
    intro u
    by_cases hu : u = p <;> simp [hu, hd]
  have hans : ∀ t a, n.Answer t a → (n.setLayer p st).Answer t a := fun t a ha =>
    ha.mono (fun _ he => he) fun u d hin => by rwa [hdel]
  refine ⟨h.queued, fun q t f hf => ?_, fun t f hf => (h.wire t f hf).imp id (hans t f),
    fun q t a hin => hans t a ?_, ?_, ?_, fun q t f hf => ?_⟩
  · by_cases hq : q = p
    · subst hq
      exact h.sending q t f (hm t f (by simpa using hf))
    · exact h.sending q t f (by simpa [hq] using hf)
  · by_cases hq : q = p
    · subst hq
      exact h.acks q t a (ha t a (by simpa using hin))
    · exact h.acks q t a (by simpa [hq] using hin)
  · simpa only [hdel, Net.setLayer_queued] using h.recorded
  · simpa only [hdel] using h.nodup
  · rw [hdel]
    by_cases hq : q = p
    · subst hq
      rcases h.kept q t f hf with hf | hf
      · simpa using hkeep t f hf
      · exact .inr hf
    · simpa [hq] using h.kept q t f hf

theorem LinkInv.pushMessage (h : LinkInv N S n) {p t q : Nat} {msg : Str} (hl : HasLink N p t)
    (hq : q ≤ 999) (hS : S p q msg) : LinkInv N S (n.pushMessage p t (packetText q t msg)) := by
  have hans : ∀ u a, n.Answer u a → (n.pushMessage p t (packetText q t msg)).Answer u a :=
    fun u a ha => ha.mono (fun e he => Net.mem_pushMessage_queued.mpr (.inl he))
      fun v d hd => by rwa [Net.pushMessage_delivered]
  refine ⟨fun p' u g hg => ?_, fun p' u g hg => ?_, fun u g hg => ?_, fun p' u a ha => ?_,
    fun u d hd => ?_, fun u => ?_, fun p' u g hg => ?_⟩
  · rcases Net.mem_pushMessage_queued.mp hg with hg | hg
    · exact h.queued p' u g hg
    · cases hg
      exact ⟨hl, q, msg, hq, hS, rfl⟩
  · rw [Net.mem_pushMessage_queued]
    exact (Net.mem_pushMessage_messages.mp hg).imp (h.sending p' u g) id
  · rcases h.wire u g hg with ⟨p', hin⟩ | ha
    · exact .inl ⟨p', Net.mem_pushMessage_queued.mpr (.inl hin)⟩
    · exact .inr (hans u g ha)
  · rw [Net.pushMessage_acks] at ha
    exact hans u a (h.acks p' u a ha)
  · rw [Net.pushMessage_delivered] at hd
    obtain ⟨hu, p', hd⟩ := h.recorded u d hd
    exact ⟨hu, p', Net.mem_pushMessage_queued.mpr (.inl hd)⟩
  · rw [Net.pushMessage_delivered]
    exact h.nodup u
  · rw [Net.mem_pushMessage_messages, Net.pushMessage_delivered]
    rcases Net.mem_pushMessage_queued.mp hg with hg | hg
    · exact (h.kept p' u g hg).imp .inl id
    · exact .inl (.inr hg)

/-- Process `t` has got a packet that was queued for it and names it. -/
theorem LinkInv.receiveData (h : LinkInv N S n) {p t q : Nat} {msg : Str} (ht : t ≤ 999)
    (hq : q ≤ 999) (hin : (p, t, packetText q t msg) ∈ n.queued) :
    LinkInv N S (n.receiveData q t (packetBody q t msg)) := by
  have hans : ∀ u a, n.Answer u a → (n.receiveData q t (packetBody q t msg)).Answer u a :=
    fun u a ha => ha.mono (fun _ he => he)
      fun v d hd => Net.mem_receiveData_delivered.mpr (.inl hd)
  refine ⟨h.queued, fun p' u g hg => ?_, fun u g hg => (h.wire u g hg).imp id (hans u g),
    fun p' u a ha => ?_, fun u x hx => ?_, fun u => ?_, fun p' u g hg => ?_⟩
  · rw [Net.receiveData_messages] at hg
    exact h.sending p' u g hg
  · rw [Net.receiveData_layer] at ha
    by_cases hp : p' = t
    · subst hp
      rw [if_pos rfl] at ha
      rcases LinkLayer.mem_ackBack ha with ha | ⟨hu, rfl⟩
      · exact hans u a (h.acks p' u a (by simpa using ha))
      · obtain rfl : q = u := hu.symm
        refine ⟨p, p', packetBody q p' msg, rfl, ?_, hin,
          Net.mem_receiveData_delivered.mpr (.inr ⟨rfl, rfl⟩)⟩
        rw [packetBody, take_pad3 hq, stoi_pad3 hq]
    · rw [if_neg hp] at ha
      exact hans u a (h.acks p' u a ha)
  · rcases Net.mem_receiveData_delivered.mp hx with hx | ⟨rfl, rfl⟩
    · exact h.recorded u x hx
    · exact ⟨ht, p, hin⟩
  · rw [Net.receiveData_layer]
    by_cases hu : u = t
    · subst hu
      rw [if_pos rfl, LinkLayer.ackBack_delivered, LinkLayer.record]
      split
      · exact h.nodup u
      · rename_i hnew
        have hconcat := (h.nodup u).concat hnew
        rwa [List.concat_eq_append] at hconcat
    · rw [if_neg hu]
      exact h.nodup u
  · rw [Net.receiveData_messages, Net.mem_receiveData_delivered]
    exact (h.kept p' u g hg).imp id .inl

/-- All that a datagram can do to the links: a data packet names its target, and what an ack takes
off a queue its target has recorded. -/
inductive Took (S : Nat → Nat → Str → Prop) (t link : Nat) (n : Net) :
    Str → Net → Option Str → Prop where
  | data {p q : Nat} {msg : Str} (ht : t ≤ 999) (hq : q ≤ 999) (hS : S p q msg)
      (hin : (p, t, packetText q t msg) ∈ n.queued) :
      Took S t link n (packetText q t msg) (n.receiveData q t (packetBody q t msg))
        (if packetBody q t msg ∈ (n.layer t).processDelivered then none
          else some (packetText q t msg))
  | acked {d : Str} (hd : d ∈ (n.layer link).processDelivered) :
      Took S t link n ('1' :: d) (n.setLayer t ((n.layer t).removeMessage link ('0' :: d))) none
  | nothing {received : Str} (hack : t ≤ 999 → ∀ p, (p, t, received) ∉ n.queued) :
      Took S t link n received n none

theorem LinkInv.took (h : LinkInv N S n) {t link : Nat} {received : Str} {n' : Net}
    {up : Option Str} (hl : HasLink N t link) (hw : (t, received) ∈ n.wire)
    (hr : n.receive N t link received = .ok (n', up)) : Took S t link n received n' up := by
  simp only [Net.receive, bind_eq_ok] at hr
  obtain ⟨⟨st, up₁⟩, hd, hr⟩ := hr
  obtain ⟨rfl, rfl⟩ := Prod.mk.inj (Except.ok.inj hr)
  obtain ⟨c, d, sender, target, rfl, hs, ht, hres⟩ :=
    deliverThreaded_cases (Ne.symm hl.2.2.2.2) hd
  have hform : ∀ p u, (p, u, c :: d) ∈ n.queued → c = '0' ∧ ∃ q msg, q ≤ 999 ∧ S p q msg ∧
      sender = q ∧ target ≤ 999 ∧ (u ≤ 999 → target = u) ∧ d = packetBody q u msg := by
    intro p u hin
    obtain ⟨-, q, msg, hq, hS, hf⟩ := h.queued _ _ _ hin
    obtain ⟨hc, hsender, hle, htarget⟩ := packet_fields hq hf hs ht
    exact ⟨hc, q, msg, hq, hS, hsender, hle, htarget, (List.cons.inj hf).2⟩
  cases hres with
  | data hc htar =>
    subst hc
    rcases h.wire t _ hw with ⟨p, hin⟩ | ⟨p, u, x, ha, -⟩
    · obtain ⟨-, q, msg, hq, hS, rfl, hle, -, rfl⟩ := hform p t hin
      exact .data (by omega) hq hS hin
    · cases ha
  | acked hc hself htar =>
    subst hc
    rcases h.wire t _ hw with ⟨p, hin⟩ | ⟨p, u, x, ha, -, hin, hrec⟩
    · cases (hform p t hin).1
    · obtain ⟨-, rfl⟩ := List.cons.inj ha
      obtain ⟨-, q, msg, hq, -, hf⟩ := h.queued _ _ _ hin
      -- the ack names its receiver, so the packet removed here is one that `link` recorded
      have htarget := (packet_fields hq hf hs ht).2.2.2 (h.recorded u d hrec).1
      have hlink : u = link := by omega
      subst hlink
      simp only [Option.toList_none, List.map_nil, List.append_nil]
      exact .acked hrec
  | strayAck hc =>
    subst hc
    rw [Option.toList_none, List.map_nil, Net.unchanged]
    exact .nothing fun _ p hin => by cases (hform p t hin).1
  | ignored hdata =>
    rw [Option.toList_none, List.map_nil, Net.unchanged]
    refine .nothing fun hle p hin => ?_
    obtain ⟨hc, -, -, -, -, -, -, htarget, -⟩ := hform p t hin
    exact hdata ⟨hc, htarget hle⟩

theorem LinkInv.receive (h : LinkInv N S n) {t link : Nat} {received : Str} {n' : Net}
    {up : Option Str} (hl : HasLink N t link) (hw : (t, received) ∈ n.wire)
    (hr : n.receive N t link received = .ok (n', up)) : LinkInv N S n' := by
  cases h.took hl hw hr with
  | data ht hq hS hin => exact h.receiveData ht hq hin
  | @acked d hd =>
    refine h.setLayer rfl (fun u f hf => (LinkLayer.mem_removeMessage.mp hf).1) (fun u f hf => ?_)
      fun u a ha => ?_
    · rw [LinkLayer.mem_removeMessage]
      by_cases hgone : u = link ∧ f = '0' :: d
      · obtain ⟨rfl, rfl⟩ := hgone
        exact .inr hd
      · exact .inl ⟨hf, hgone⟩
    · rwa [LinkLayer.removeMessage_acks] at ha
  | nothing => exact h

/-- Whatever the processes queue within `S`, an action keeps the links in order. -/
theorem LinkInv.step (h : LinkInv N S n) {a : LinkAction} {n' : Net}
    (hpost : ∀ p t msg, a = .addMessage p t msg ∨ a = .sendNewMessage p t msg → HasLink N p t →
      p ≤ 999 ∧ S p p msg) (hs : Net.step N n a = some n') : LinkInv N S n' := by
  cases netStep_effect hs with
  | setActive => exact h.setLayer rfl (fun _ _ => id) (fun _ _ => .inl) fun _ _ => id
  | @addMessage p t msg f hl hf =>
    obtain ⟨hp, hS⟩ := hpost p t msg (.inl rfl) hl
    exact formatPacket_ok hf ▸ h.pushMessage hl hp hS
  | @sendNewMessage p t msg f hl hf =>
    obtain ⟨hp, hS⟩ := hpost p t msg (.inr rfl) hl
    obtain rfl := formatPacket_ok hf
    refine (h.pushMessage hl hp hS).send fun g hg => .inl ⟨p, ?_⟩
    exact Net.mem_pushMessage_queued.mpr (.inr (by rw [List.mem_singleton.mp hg]))
  | @inactive p t msg f hl hf =>
    obtain ⟨hp, hS⟩ := hpost p t msg (.inr rfl) hl
    exact formatPacket_ok hf ▸ h.pushMessage hl hp hS
  | @sendThreaded p t => exact h.send fun f hf => .inl ⟨p, h.sending p t f hf⟩
  | @ackThreaded p t =>
    have hsent := @LinkInv.send N S n h t ((n.layer p).links t).acksToSend.eraseReps
      fun f hf => .inr (h.acks p t f (eraseReps_subset hf))
    refine hsent.setLayer rfl (fun u f hf => ?_) (fun u f hf => .inl ?_) fun u a ha => ?_
    all_goals by_cases hu : u = t <;>
      simp_all [Net.send, LinkLayer.clearAcks, LinkLayer.updateLink]
  | receive hl hw hr => exact h.receive hl hw hr

end LinkInv

/-- An action that receives nothing records nothing and takes nothing back. -/
theorem netStep_quiet {N : Nat} {n n' : Net} {a : LinkAction}
    (ha : ∀ t link received, a ≠ .receive t link received) (hs : Net.step N n a = some n') :
    (∀ u, (n'.layer u).processDelivered = (n.layer u).processDelivered) ∧
      n'.handed = n.handed ∧ ∀ e ∈ n.queued, e ∈ n'.queued := by
  cases netStep_effect hs with
  | @setActive p =>
    refine ⟨fun u => ?_, rfl, fun _ he => he⟩
    by_cases hu : u = p <;> simp [hu, LinkLayer.setLinks]
  | addMessage | sendNewMessage | inactive =>
    exact ⟨fun u => Net.pushMessage_delivered _ _ _ _ _, rfl,
      fun e he => Net.mem_pushMessage_queued.mpr (.inl he)⟩
  | sendThreaded => exact ⟨fun _ => rfl, rfl, fun _ he => he⟩
  | @ackThreaded p t =>
    refine ⟨fun u => ?_, rfl, fun _ he => he⟩
    by_cases hu : u = p <;> simp [Net.send, LinkLayer.clearAcks, LinkLayer.updateLink, hu]
  | @receive t link received => exact absurd rfl (ha t link received)

end DecentralizedBroadcast
