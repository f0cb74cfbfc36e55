import DecentralizedBroadcast.LinkInvariant

/-! The contract of the links: nothing queued is lost before it is delivered,
nothing is handed up twice, and nothing is handed up that was not queued. -/
set_option autoImplicit false

namespace DecentralizedBroadcast

/-- Perfect links: a packet names the process that queued it. -/
structure NetInv (N : Nat) (n : Net) : Prop extends LinkInv N (fun p q _ => q = p) n where
  handed : ∀ t f, (t, f) ∈ n.handed ↔ ∃ d, f = '0' :: d ∧ d ∈ (n.layer t).processDelivered
  once : n.handed.Nodup

theorem NetInv.mem_handed {N t : Nat} {n : Net} (h : NetInv N n) {d : Str} :
    (t, '0' :: d) ∈ n.handed ↔ d ∈ (n.layer t).processDelivered := by
  rw [h.handed]
  constructor
  · rintro ⟨x, hx, hin⟩
    obtain ⟨-, rfl⟩ := List.cons.inj hx
    exact hin
  · exact fun hin => ⟨d, rfl, hin⟩

theorem NetInv.mem_receiveData_handed {N p t u : Nat} {n : Net} (h : NetInv N n) {d g : Str} :
    (u, g) ∈ (n.receiveData p t d).handed ↔ (u, g) ∈ n.handed ∨ u = t ∧ g = '0' :: d := by
  by_cases hin : d ∈ (n.layer t).processDelivered
  · simp only [Net.receiveData, hin, if_true, Option.toList_none, List.map_nil, List.append_nil]
    refine ⟨.inl, ?_⟩
    rintro (hg | ⟨rfl, rfl⟩)
    · exact hg
    · exact h.mem_handed.mpr hin
  · simp [Net.receiveData, hin]

theorem NetInv.receiveData_once {N p t : Nat} {n : Net} (h : NetInv N n) (d : Str) :
    (n.receiveData p t d).handed.Nodup := by
  by_cases hin : d ∈ (n.layer t).processDelivered
  · simpa [Net.receiveData, hin] using h.once
  · have hnew : (t, '0' :: d) ∉ n.handed := fun hh => hin (h.mem_handed.mp hh)
    have hhanded : (n.receiveData p t d).handed = n.handed.concat (t, '0' :: d) := by
      simp [Net.receiveData, hin]
    rw [hhanded]
    exact h.once.concat hnew

theorem netInv_start (N : Nat) : NetInv N Net.start where
  toLinkInv := linkInv_start N _
  handed := by simp [Net.start]
  once := List.nodup_nil

theorem NetInv.form {N : Nat} {n : Net} (h : NetInv N n) (p t : Nat) (f : Str)
    (hq : (p, t, f) ∈ n.queued) : p ≤ 999 ∧ HasLink N p t ∧ ∃ msg, f = packetText p t msg := by
  obtain ⟨hl, q, msg, hfits, rfl, hf⟩ := h.queued p t f hq
  exact ⟨hfits, hl, msg, hf⟩

/-- A packet queued for `t`, or the ack of one that `t` queued. -/
theorem NetInv.onWire {N : Nat} {n : Net} (h : NetInv N n) (t : Nat) (f : Str)
    (hw : (t, f) ∈ n.wire) :
    (∃ p, (p, t, f) ∈ n.queued) ∨ ∃ u d, f = '1' :: d ∧ n.Recorded t u d := by
  rcases h.wire t f hw with hq | ⟨p, u, d, ha, hsender, hin, hrec⟩
  · exact .inl hq
  · obtain ⟨hp, -, msg, hf⟩ := h.form p u _ hin
    obtain ⟨-, rfl⟩ := List.cons.inj hf
    rw [take_pad3 hp, stoi_pad3 hp] at hsender
    obtain rfl : p = t := Int.ofNat_inj.mp (Except.ok.inj hsender)
    exact .inr ⟨u, _, ha, hin, hrec⟩

theorem NetInv.noLoss {N : Nat} {n : Net} (h : NetInv N n) (p t : Nat) (f : Str)
    (hq : (p, t, f) ∈ n.queued) :
    f ∈ ((n.layer p).links t).messagesToSend ∨ (t, f) ∈ n.handed := by
  obtain ⟨-, -, msg, rfl⟩ := h.form p t f hq
  exact (h.kept p t _ hq).imp id fun hin => (h.handed t _).mpr ⟨_, rfl, hin⟩

theorem Net.receive_ok {N t link : Nat} {n n' : Net} {received : Str} {up : Option Str}
    (h : n.receive N t link received = .ok (n', up)) :
    n'.queued = n.queued ∧ n'.handed = n.handed ++ up.toList.map (t, ·) := by
  simp only [Net.receive, bind_eq_ok] at h
  obtain ⟨⟨st, u⟩, -, h⟩ := h
  obtain ⟨rfl, rfl⟩ := Prod.mk.inj (Except.ok.inj h)
  exact ⟨rfl, rfl⟩

/-- What is handed up is new, and was queued for this process. -/
theorem NetInv.receive_up {N t link : Nat} {n n' : Net} {received msg : Str} (h : NetInv N n)
    (hlink : link ≠ t) (hw : (t, received) ∈ n.wire)
    (hr : n.receive N t link received = .ok (n', some msg)) :
    msg = received ∧ t ≤ 999 ∧ (t, msg) ∉ n.handed ∧ ∃ p, (p, t, msg) ∈ n.queued := by
  simp only [Net.receive, bind_eq_ok] at hr
  obtain ⟨⟨st, u⟩, hd, hr⟩ := hr
  obtain ⟨rfl, rfl⟩ := Prod.mk.inj (Except.ok.inj hr)
  have ht := deliverThreaded_up hlink hd
  obtain ⟨c, d, sender, target, rfl, -, -, hres⟩ := deliverThreaded_cases hlink hd
  generalize hu : some msg = up at hres
  cases hres with
  | data hc htar =>
    subst hc
    split at hu
    · cases hu
    · rename_i hnew
      obtain rfl := Option.some.inj hu
      refine ⟨rfl, ht, fun hin => ?_, ?_⟩
      · exact hnew (h.mem_handed.mp hin)
      · rcases h.onWire t _ hw with hq | ⟨u, x, hx, -⟩
        · exact hq
        · cases hx
  | acked | strayAck | ignored => cases hu

/-- Ids wider than the three digits of the header never send. -/
def SenderFits : LinkAction → Prop
  | .addMessage p _ _ | .sendNewMessage p _ _ => p ≤ 999
  | _ => True

theorem netInv_step {N : Nat} {n n' : Net} {a : LinkAction} (h : NetInv N n) (ha : SenderFits a)
    (hs : Net.step N n a = some n') : NetInv N n' := by
  have hlinks : LinkInv N (fun p q _ => q = p) n' := by
    refine h.step (fun p t msg hpost _ => ⟨?_, rfl⟩) hs
    rcases hpost with rfl | rfl <;> exact ha
  by_cases hrec : ∃ t link received, a = .receive t link received
  · obtain ⟨t, link, received, rfl⟩ := hrec
    cases netStep_effect hs with
    | receive hl hw hr =>
      cases h.took hl hw hr with
      | @data p q msg ht hq hS hin =>
        refine ⟨hlinks, fun u g => ?_, h.receiveData_once _⟩
        simp only [h.mem_receiveData_handed, Net.mem_receiveData_delivered, h.handed]
        constructor
        · rintro (⟨x, rfl, hx⟩ | ⟨rfl, rfl⟩)
          · exact ⟨x, rfl, .inl hx⟩
          · exact ⟨_, rfl, .inr ⟨rfl, rfl⟩⟩
        · rintro ⟨x, rfl, hx | ⟨rfl, rfl⟩⟩
          · exact .inl ⟨x, rfl, hx⟩
          · exact .inr ⟨rfl, rfl⟩
      | acked =>
        refine ⟨hlinks, fun u g => ?_, h.once⟩
        rw [Net.setLayer_handed, h.handed, Net.setLayer_layer]
        split
        · rename_i hu
          rw [LinkLayer.removeMessage_delivered, hu]
        · rfl
      | nothing => exact h
  · obtain ⟨hdel, hhanded, -⟩ := netStep_quiet (fun t link f he => hrec ⟨t, link, f, he⟩) hs
    exact ⟨hlinks, fun t f => by rw [hhanded, hdel, h.handed], hhanded ▸ h.once⟩

theorem senderFits_of_step {N : Nat} {n n' : Net} {a : LinkAction} (hN : N ≤ 999)
    (hs : Net.step N n a = some n') : SenderFits a := by
  cases a with
  | addMessage p t msg | sendNewMessage p t msg =>
    simp only [Net.step, Option.ite_none_right_eq_some] at hs
    have hl := hs.1.2.1
    simp only [SenderFits]
    omega
  | _ => trivial

theorem NetInv.steps {N : Nat} {n n' : Net} (h : NetInv N n)
    (hs : (linkMachine N).Steps (fun _ a => SenderFits a) n n') : NetInv N n' :=
  hs.invariant (NetInv N) (fun _ _ _ hi ha hs => netInv_step hi ha hs) h

theorem netInv_reachableBy {N : Nat} {n : Net}
    (h : (linkMachine N).ReachableBy (fun _ a => SenderFits a) n) : NetInv N n :=
  h.invariant (NetInv N) (netInv_start N) fun _ _ _ hi ha hs => netInv_step hi ha hs

theorem netInv_reachable {N : Nat} {n : Net} (hN : N ≤ 999) (h : (linkMachine N).Reachable n) :
    NetInv N n :=
  h.invariant (NetInv N) (netInv_start N) fun _ _ _ hi hs =>
    netInv_step hi (senderFits_of_step hN hs) hs

/-- A packet sent once, received twice on different links, acknowledged and removed. -/
def resentPacket : List LinkAction :=
  let packet := packetText 1 2 ['h', 'i']
  [.setActive 1 true, .setActive 2 true, .sendNewMessage 1 2 ['h', 'i'], .receive 2 1 packet,
    .sendThreaded 1 2, .receive 2 3 packet, .ackThreaded 2 1, .receive 1 2 (packet.set 0 '1')]

end DecentralizedBroadcast
