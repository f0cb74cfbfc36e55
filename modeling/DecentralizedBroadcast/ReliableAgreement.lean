import DecentralizedBroadcast.ReliableRuns
import Mathlib.Data.Finset.Card

/-! Agreement of reliable broadcast: among any processes, as many or as few as are left, that have
got what they queued for each other, and that they can always get that far. -/
set_option autoImplicit false

namespace DecentralizedBroadcast

namespace ReliableNet

def Has (s : ReliableNet) (t q : Nat) (msg : Str) : Prop :=
  packetText q t msg ∈ s.messagesDelivered t

/-- The processes of `C` have delivered all that one of them has queued for another. -/
def Settled (s : ReliableNet) (C : List Nat) : Prop :=
  ∀ p ∈ C, ∀ t ∈ C, ∀ f, (p, t, f) ∈ s.net.queued → f ∈ s.messagesDelivered t

def Agree (N : Nat) (s : ReliableNet) (C : List Nat) : Prop :=
  ∀ p ∈ C, ∀ t ∈ C, ∀ q msg, IsId N q → s.Has p q msg → s.Has t q msg

theorem Grows.trans {s₁ s₂ s₃ : ReliableNet} (h : s₁.Grows s₂) (h' : s₂.Grows s₃) :
    s₁.Grows s₃ :=
  ⟨fun e he => h'.queued e (h.queued e he), fun u f hf => h'.delivered u f (h.delivered u f hf)⟩

end ReliableNet

section Reliable
variable {N : Nat} {A : Nat → Str → Prop} {s : ReliableNet}

/-- What one has delivered it has relayed to all. -/
theorem Reliable.agree (h : Reliable N A s) (hN : N ≤ 999) {C : List Nat}
    (hC : ∀ p ∈ C, IsId N p) (hs : s.Settled C) : s.Agree N C := by
  intro p hp t ht q msg hq hd
  by_cases htp : t = p
  · subst htp
    exact hd
  · have hothers : t ∈ Sys.others N p := mem_others.mpr ⟨(hC t ht).1, (hC t ht).2, htp⟩
    obtain ⟨g, hg, hin⟩ := h.relayed p _ hd t hothers
    have hrelay := relayPacket_eq (t := t) (Nat.le_trans hq.2 hN) (Nat.le_trans (hC p hp).2 hN)
      (Nat.le_trans (hC t ht).2 hN) msg
    obtain rfl := Except.ok.inj (hrelay.symm.trans hg)
    exact hs p hp t ht _ hin

end Reliable

/-- Whichever processes have settled what they queued for each other agree on what they have
delivered. And what one of them sent to another all of them have, the sender too. -/
theorem reliable_agreement (N : Nat) (hN : N ≤ 999) (s : ReliableNet)
    (h : (reliableMachine N).Reachable s) (C : List Nat) (hC : ∀ p ∈ C, IsId N p)
    (hs : s.Settled C) :
    s.Agree N C ∧ ∀ q ∈ C, ∀ u ∈ C, ∀ msg, (q, u, packetText q u msg) ∈ s.net.queued →
      ∀ t ∈ C, s.Has t q msg := by
  have hagree := (reliable_reachable hN h).agree hN hC hs
  exact ⟨hagree, fun q hq u hu msg hin t ht =>
    hagree u hu t ht q msg (hC q hq) (hs q hq u hu _ hin)⟩

theorem reliable_agreement_relayedAround :
    ((reliableMachine 3).after relayedAround).Has 1 1 ['h', 'i'] ∧
    ((reliableMachine 3).after relayedAround).Settled [1, 3] ∧
    ((reliableMachine 3).after relayedAround).Agree 3 [1, 3] := by
  have hqueued : ∀ e ∈ ((reliableMachine 3).after relayedAround).net.queued, e.1 ∈ [1, 3] →
      e.2.1 ∈ [1, 3] →
      e.2.2 ∈ ((reliableMachine 3).after relayedAround).messagesDelivered e.2.1 := by decide
  have hsettled : ((reliableMachine 3).after relayedAround).Settled [1, 3] :=
    fun p hp t ht f hf => hqueued _ hf hp ht
  have hids : ∀ p ∈ [1, 3], IsId 3 p := by unfold IsId; decide
  have hhas : ((reliableMachine 3).after relayedAround).Has 1 1 ['h', 'i'] := by
    unfold ReliableNet.Has
    decide
  exact ⟨hhas, hsettled, (reliable_agreement 3 (by decide) _
    ((reliableMachine 3).reachable_after _) [1, 3] hids hsettled).1⟩

/-- Retransmissions and receipts, only of `C`, and the activation of its links. -/
def Retransmits (C : List Nat) : LinkAction → Prop
  | .setActive p active => p ∈ C ∧ active = true
  | .sendThreaded p _ | .receive p _ _ => p ∈ C
  | _ => False

section Settling
variable {N : Nat} {A : Nat → Str → Prop} {s : ReliableNet} {C : List Nat}

theorem Retransmits.queues {a : LinkAction} (h : Retransmits C a) : Queues A a := by
  cases a with
  | addMessage | sendNewMessage => exact h.elim
  | _ => trivial

theorem Reliable.wake (h : Reliable N A s) (hN : N ≤ 999) {p : Nat} (hp : p ∈ C) :
    ∃ s', (reliableMachine N).Steps (fun _ a => Retransmits C a) s s' ∧ Reliable N A s' ∧
      s.Grows s' ∧ s'.net = s.net.setLayer p ((s.net.layer p).setLinks true) ∧
      s'.messagesDelivered = s.messagesDelivered := by
  have hr : Retransmits C (.setActive p true) := ⟨hp, rfl⟩
  have hs : ReliableNet.step N s (.setActive p true) =
    some { s with net := s.net.setLayer p ((s.net.layer p).setLinks true) } := rfl
  obtain ⟨hi, hg⟩ := reliable_step h hN hr.queues hs
  exact ⟨_, .single ⟨_, hr, hs⟩, hi, hg, rfl, rfl⟩

/-- A queued packet can be delivered: sent again, and received on the link it came from. -/
theorem Reliable.deliver (h : Reliable N A s) (hN : N ≤ 999) {p t : Nat} {f : Str} (hp : p ∈ C)
    (ht : t ∈ C) (hq : (p, t, f) ∈ s.net.queued) (hnew : f ∉ s.messagesDelivered t) :
    ∃ s', (reliableMachine N).Steps (fun _ a => Retransmits C a) s s' ∧ Reliable N A s' ∧
      s.Grows s' ∧ f ∈ s'.messagesDelivered t := by
  obtain ⟨hl, q, msg, -, -, rfl⟩ := h.links.queued p t f hq
  have hwaits : packetText q t msg ∈ ((s.net.layer p).links t).messagesToSend := by
    rcases h.links.kept p t _ hq with hf | hf
    · exact hf
    · exact absurd (h.mem_delivered.mpr hf) hnew
  obtain ⟨s₁, r₁, h₁, g₁, hnet₁, -⟩ := h.wake hN hp
  have hsend : (reliableMachine N).step s₁ (.sendThreaded p t) =
      some { s₁ with net := s₁.net.sendThreaded p t } := by
    have hactive : ((s₁.net.layer p).links t).linkActive = true := by
      simp [hnet₁, LinkLayer.setLinks]
    simp [reliableMachine, ReliableNet.step, Net.step, hl, hactive]
  have hr₂ : Retransmits C (.sendThreaded p t) := hp
  obtain ⟨h₂, g₂⟩ := reliable_step h₁ hN hr₂.queues hsend
  have hw : (t, packetText q t msg) ∈ (s₁.net.sendThreaded p t).wire := by
    refine List.mem_append_right _ (List.mem_map.mpr ⟨_, ?_, rfl⟩)
    simpa [hnet₁, LinkLayer.setLinks] using hwaits
  obtain ⟨s₃, r₃, h₃, g₃, hnet₃, -⟩ := h₂.wake hN ht
  have hback : HasLink N t p := ⟨hl.2.2.1, hl.2.2.2.1, hl.1, hl.2.1, Ne.symm hl.2.2.2.2⟩
  have hactive : ((s₃.net.layer t).links p).linkActive = true := by
    simp [hnet₃, LinkLayer.setLinks]
  have hw₃ : (t, packetText q t msg) ∈ s₃.net.wire := by
    rw [hnet₃]
    exact hw
  obtain ⟨s₄, hreceive, h₄, g₄, hd⟩ := h₃.receive_step hN hback hactive hw₃
  have hr₄ : Retransmits C (.receive t p (packetText q t msg)) := ht
  have hq₃ := g₃.queued _ (g₂.queued _ (g₁.queued _ hq))
  exact ⟨s₄, (r₁.tail ⟨_, hr₂, hsend⟩).trans (r₃.tail ⟨_, hr₄, hreceive⟩), h₄,
    g₁.trans (g₂.trans (g₃.trans g₄)), hd ⟨p, hq₃⟩⟩

/-- The packets that can ever come up for `t`: what is queued, with `t` as its target. -/
def candidates (s : ReliableNet) (C : List Nat) : List (Nat × Str) :=
  C.flatMap fun t => s.net.queued.filterMap fun e => (relayPacket t e.2.2).toOption.map (t, ·)

def remaining (cs : List (Nat × Str)) (s : ReliableNet) : Finset (Nat × Str) :=
  cs.toFinset.filter fun x => x.2 ∉ s.messagesDelivered x.1

theorem mem_remaining {cs : List (Nat × Str)} {s : ReliableNet} {x : Nat × Str} :
    x ∈ remaining cs s ↔ x ∈ cs ∧ x.2 ∉ s.messagesDelivered x.1 := by
  rw [remaining, Finset.mem_filter, List.mem_toFinset]

theorem remaining_lt {cs : List (Nat × Str)} {s s' : ReliableNet} (hg : s.Grows s') {t : Nat}
    {f : Str} (hin : (t, f) ∈ cs) (hnew : f ∉ s.messagesDelivered t)
    (hd : f ∈ s'.messagesDelivered t) : (remaining cs s').card < (remaining cs s).card := by
  have hsub : remaining cs s' ⊆ remaining cs s := fun x hx => by
    obtain ⟨hin, hx⟩ := mem_remaining.mp hx
    exact mem_remaining.mpr ⟨hin, fun hold => hx (hg.delivered _ _ hold)⟩
  refine Finset.card_lt_card ⟨hsub, fun hsup => ?_⟩
  exact (mem_remaining.mp (hsup (mem_remaining.mpr ⟨hin, hnew⟩))).2 hd

def Named (s : ReliableNet) (q : Nat) (msg : Str) : Prop :=
  ∃ p t, HasLink N p t ∧ (p, t, packetText q t msg) ∈ s.net.queued

theorem Reliable.named (h : Reliable N A s) : Reliable N (@Named N s) s := by
  refine ⟨⟨fun p t f hf => ?_, h.links.sending, h.links.wire, h.links.acks,
    h.links.recorded, h.links.nodup, h.links.kept⟩, h.delivered, h.relayed⟩
  obtain ⟨hl, q, msg, hfits, ⟨hq, -⟩, rfl⟩ := h.links.queued p t f hf
  exact ⟨hl, q, msg, hfits, ⟨hq, p, t, hl, hf⟩, rfl⟩

theorem mem_candidates (hN : N ≤ 999) {t q : Nat} {msg : Str} (ht : t ∈ C) (hid : t ≤ 999)
    (hq : IsId N q) (h : @Named N s q msg) : (t, packetText q t msg) ∈ candidates s C := by
  obtain ⟨p, u, hl, hin⟩ := h
  have hrelay := relayPacket_eq (t := t) (Nat.le_trans hq.2 hN)
    (Nat.le_trans hl.2.2.2.1 hN) hid msg
  refine List.mem_flatMap.mpr ⟨t, ht, List.mem_filterMap.mpr ⟨_, hin, ?_⟩⟩
  simp only [hrelay]
  rfl

end Settling

/-- Whatever has happened, and whoever is gone, the processes of `C` get there by retransmitting
and receiving, with their links active: they lose no delivery on the way, settle and agree. -/
theorem reliable_can_settle (N : Nat) (hN : N ≤ 999) (s : ReliableNet)
    (h : (reliableMachine N).Reachable s) (C : List Nat) (hC : ∀ p ∈ C, IsId N p) :
    ∃ s', (reliableMachine N).Steps (fun _ a => Retransmits C a) s s' ∧ s.Grows s' ∧
      s'.Settled C ∧ s'.Agree N C := by
  have hi := (reliable_reachable hN h).named
  have closer : ∀ x, (Reliable N (@Named N s) x ∧ s.Grows x) → ¬ x.Settled C →
      ∃ x', (reliableMachine N).Steps (fun _ a => Retransmits C a) x x' ∧
        (Reliable N (@Named N s) x' ∧ s.Grows x') ∧
        (remaining (candidates s C) x').card < (remaining (candidates s C) x).card := by
    rintro x ⟨hx, hgx⟩ hnot
    simp only [ReliableNet.Settled, not_forall] at hnot
    obtain ⟨p, hp, t, ht, f, hq, hnew⟩ := hnot
    obtain ⟨-, q, msg, -, ⟨hid, hnamed⟩, rfl⟩ := hx.links.queued p t f hq
    obtain ⟨x', hsteps, hx', hg, hd⟩ := hx.deliver hN hp ht hq hnew
    have hin := mem_candidates hN ht (Nat.le_trans (hC t ht).2 hN) hid hnamed
    exact ⟨x', hsteps, ⟨hx', hgx.trans hg⟩, remaining_lt hg hin hnew hd⟩
  obtain ⟨s', hsteps, ⟨hi', hg'⟩, hsettled⟩ := Machine.Steps.reaches
    (fun x => Reliable N (@Named N s) x ∧ s.Grows x) (fun x => x.Settled C)
    (fun x => (remaining (candidates s C) x).card) closer
    ⟨hi, ⟨fun _ he => he, fun _ _ hf => hf⟩⟩
  exact ⟨s', hsteps, hg', hsettled, hi'.agree hN hC hsettled⟩

/-- The first process has sent to the second alone, and is gone: the third gets it all the same. -/
theorem reliable_can_settle_relayedOnce : ∃ s', (reliableMachine 3).Steps
    (fun _ a => Retransmits [2, 3] a) ((reliableMachine 3).after relayedOnce) s' ∧
      s'.Has 3 1 ['h', 'i'] := by
  have hids : ∀ p ∈ [2, 3], IsId 3 p := by unfold IsId; decide
  have hhas : packetText 1 2 ['h', 'i'] ∈
      ((reliableMachine 3).after relayedOnce).messagesDelivered 2 := by decide
  obtain ⟨s', hsteps, hg, -, hagree⟩ := reliable_can_settle 3 (by decide) _
    ((reliableMachine 3).reachable_after relayedOnce) [2, 3] hids
  exact ⟨s', hsteps, hagree 2 (by simp) 3 (by simp) 1 _ ⟨by decide, by decide⟩
    (hg.delivered 2 _ hhas)⟩

end DecentralizedBroadcast
