import DecentralizedBroadcast.ReliableRuns

/-! Whether the ack of a queued packet finds its way back. It goes to the process that the packet
names as its sender, and that need not be the one that has it in its queue. -/
set_option autoImplicit false

namespace DecentralizedBroadcast

/-- A packet on the link of `p` to `t`: on whichever link `t` gets it, the acks of `t` grow by one,
on its link to `p`; and the link of `p` to `t` takes the packet off its queue on that ack. -/
structure Acknowledged (N p t : Nat) (packet : Str) : Prop where
  queued : ∀ link st, HasLink N t link → ∃ st' up,
    deliverThreaded N t link st packet = .ok (st', up) ∧
      st'.links = (st.addAck p (packet.set 0 '1')).links
  removed : ∀ st, deliverThreaded N p t st (packet.set 0 '1') =
    .ok (st.removeMessage t packet, none)

/-- The ack of a packet goes out on the link to its sender; of one that comes back to its sender
there is none. -/
theorem deliverThreaded_packetText {N s t link : Nat} (hs : 1 ≤ s ∧ s ≤ N) (ht : 1 ≤ t ∧ t ≤ N)
    (hN : N ≤ 999) (msg : Str) (hlink : link ≠ t) (st : LinkLayer) :
    ∃ st' up, deliverThreaded N t link st (packetText s t msg) = .ok (st', up) ∧
      st'.links = if s = t then st.links
        else (st.addAck s ('1' :: (pad3 s ++ (pad3 t ++ cStr msg)))).links := by
  refine ⟨_, _, deliverThreaded_data st (spells_pad3 hs ht hN (cStr msg)) hlink, ?_⟩
  by_cases hst : s = t
  · rw [if_pos hst, LinkLayer.ackBack, if_pos (by rw [hst]), LinkLayer.record_links]
  · have hne : ¬ (s : Int) = t := by omega
    rw [if_neg hst, LinkLayer.ackBack, if_neg hne, Int.toNat_natCast]
    simp only [LinkLayer.addAck, LinkLayer.updateLink, LinkLayer.record_links]

theorem acknowledged_iff {N p s t : Nat} (hN : N ≤ 999) (hl : HasLink N p t)
    (hs : 1 ≤ s ∧ s ≤ N) (msg : Str) : Acknowledged N p t (packetText s t msg) ↔ s = p := by
  obtain ⟨hp1, hp, ht1, ht, hpt⟩ := hl
  constructor
  · intro h
    by_contra hne
    set st : LinkLayer := ⟨fun _ => ⟨true, [], []⟩, []⟩
    obtain ⟨st₁, up₁, hok₁, hwant⟩ := h.queued p st ⟨ht1, ht, hp1, hp, Ne.symm hpt⟩
    obtain ⟨st₂, up₂, hok₂, hgot⟩ :=
      deliverThreaded_packetText hs ⟨ht1, ht⟩ hN msg hpt st
    obtain ⟨rfl, -⟩ := Prod.mk.inj (Except.ok.inj (hok₁.symm.trans hok₂))
    rw [hwant] at hgot
    split at hgot
    · exact addAck_links_ne rfl hgot.symm
    · have hsame : (st.addAck s ('1' :: (pad3 s ++ (pad3 t ++ cStr msg)))).links p = st.links p :=
        by simp [LinkLayer.addAck, LinkLayer.updateLink, Ne.symm hne]
      exact addAck_links_ne hsame hgot.symm
  · rintro rfl
    refine ⟨fun link st hlink => ?_, fun st => ?_⟩
    · obtain ⟨st', up, hok, hlinks⟩ :=
        deliverThreaded_packetText hs ⟨ht1, ht⟩ hN msg (Ne.symm hlink.2.2.2.2) st
      rw [if_neg hpt] at hlinks
      exact ⟨st', up, hok, hlinks⟩
    · have hack := deliverThreaded_ack st (spells_pad3 hs ⟨ht1, ht⟩ hN (cStr msg)) (Ne.symm hpt)
      rw [if_pos rfl] at hack
      exact hack

/-- In any run of reliable broadcast, what waits on a link can be acknowledged exactly if it names
the process of the link as its sender: its own messages, also when it relays one that came back. -/
theorem relay_acknowledged_iff {N : Nat} (hN : N ≤ 999) {s : ReliableNet}
    (h : (reliableMachine N).Reachable s) {p t : Nat} {packet : Str}
    (hin : packet ∈ ((s.net.layer p).links t).messagesToSend) :
    Acknowledged N p t packet ↔ packetOrigin packet = pad3 p := by
  have hlinks := (reliable_reachable hN h).links
  obtain ⟨hl, sender, msg, hfits, ⟨hs, -⟩, rfl⟩ := hlinks.queued p t packet
    (hlinks.sending p t packet hin)
  rw [acknowledged_iff hN hl hs, packetOrigin_packetText hfits]
  exact ⟨congrArg pad3, pad3_injective⟩

theorem relay_acknowledged_iff_own :
    packetText 1 2 ['h', 'i'] ∈
      ((((reliableMachine 3).after relayedOnce).net.layer 1).links 2).messagesToSend ∧
    (Acknowledged 3 1 2 (packetText 1 2 ['h', 'i']) ↔
      packetOrigin (packetText 1 2 ['h', 'i']) = pad3 1) := by
  have hin : packetText 1 2 ['h', 'i'] ∈
      ((((reliableMachine 3).after relayedOnce).net.layer 1).links 2).messagesToSend := by decide
  exact ⟨hin, relay_acknowledged_iff (by decide) ((reliableMachine 3).reachable_after _) hin⟩

/-- The ack of the relay to the third process goes to the first one, not to the second. -/
theorem relay_ack_astray : ∃ s, (reliableMachine 3).Reachable s ∧
    ∃ packet ∈ ((s.net.layer 2).links 3).messagesToSend, ¬ Acknowledged 3 2 3 packet := by
  refine ⟨_, (reliableMachine 3).reachable_after relayedOnce, packetText 1 3 ['h', 'i'],
    by decide, fun h => ?_⟩
  obtain ⟨st', up, hok, hlinks⟩ := h.queued 2 (Net.start.layer 3) (by decide)
  have hacks : ((deliverThreaded 3 3 2 (Net.start.layer 3) (packetText 1 3 ['h', 'i'])).toOption.map
      fun r => ((r.1.links 2).acksToSend, (r.1.links 1).acksToSend)) =
      some ([], ['1' :: (pad3 1 ++ (pad3 3 ++ ['h', 'i']))]) := by decide
  rw [hok] at hacks
  simp only [Except.toOption, Option.map_some, hlinks] at hacks
  exact absurd hacks (by decide)

end DecentralizedBroadcast
