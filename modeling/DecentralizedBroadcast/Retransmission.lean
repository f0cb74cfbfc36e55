import DecentralizedBroadcast.BebPaths
import DecentralizedBroadcast.ComingToRest
import DecentralizedBroadcast.RelayAck

/-! How long a packet is sent again. Nothing but its own ack, received by the link that sends it,
takes it off its queue; and the live processes can get to where no link between them has
anything left to send. -/
set_option autoImplicit false

namespace DecentralizedBroadcast

/-- What the link of `p` to `t` sends in every pass. -/
abbrev Net.queueOf (n : Net) (p t : Nat) : List Str := ((n.layer p).links t).messagesToSend

theorem pushAll_queued (p : Nat) (sends : Bool) (L : List (Nat × Str)) (n : Net) :
    (n.pushAll p sends L).queued = n.queued ++ L.map fun e => (p, e.1, packetText p e.1 e.2) := by
  induction L generalizing n with
  | nil => simp [Net.pushAll]
  | cons e L ih =>
    change ((n.push p sends e).pushAll p sends L).queued = _
    have hpush : (n.push p sends e).queued = n.queued ++ [(p, e.1, packetText p e.1 e.2)] := by
      rw [Net.push]
      split <;> rfl
    rw [ih, hpush, List.map_cons, List.append_assoc, List.singleton_append]

theorem mem_pushAll_queueOf {p q u : Nat} {sends : Bool} {L : List (Nat × Str)} {n : Net}
    {f : Str} : f ∈ (n.pushAll p sends L).queueOf q u ↔
      f ∈ n.queueOf q u ∨ (q, u, f) ∈ L.map fun e => (p, e.1, packetText p e.1 e.2) := by
  rw [Net.queueOf, Net.pushAll_layer]
  by_cases hq : q = p
  · subst hq
    rw [Function.update_self, LinkLayer.pushAll, List.mem_append]
    refine or_congr Iff.rfl ?_
    simp only [List.mem_map, List.mem_filter, decide_eq_true_eq, Prod.mk.injEq, true_and]
    constructor
    · rintro ⟨e, ⟨he, rfl⟩, rfl⟩
      exact ⟨e, he, rfl, rfl⟩
    · rintro ⟨e, he, rfl, rfl⟩
      exact ⟨e, ⟨he, rfl⟩, rfl⟩
  · rw [Function.update_of_ne hq]
    simp [Ne.symm hq]

/-- BEB adds to the queues of its process what it adds to their history. -/
theorem bebBroadcast_queues {N p : Nat} {frame : Str} {s s' : Sys}
    (h : s.bebBroadcast N p frame = .ok s') : ∃ es, s'.net.queued = s.net.queued ++ es ∧
      (∀ q u f, f ∈ s'.net.queueOf q u ↔ f ∈ s.net.queueOf q u ∨ (q, u, f) ∈ es) ∧
      ∀ q ≠ p, s'.net.layer q = s.net.layer q := by
  simp only [Sys.bebBroadcast, bind_eq_ok] at h
  obtain ⟨net, hn, h⟩ := h
  obtain rfl := Except.ok.inj h
  rw [Net.sendAll_eq, (Net.pushes_sendNewMessage p).foldlM] at hn
  split at hn
  · obtain rfl := Except.ok.inj hn
    refine ⟨_, pushAll_queued _ _ _ _, fun q u f => mem_pushAll_queueOf, fun q hq => ?_⟩
    change (s.net.pushAll p true _).layer q = _
    rw [Net.pushAll_layer, Function.update_of_ne hq]
  · cases hn

section Receive
variable {N : Nat} (hN : N ≤ 999) {n n' : Net} (h : NetInv N n)
include hN h

theorem NetInv.spells {p t : Nat} {d : Str} (hq : (p, t, '0' :: d) ∈ n.queued) :
    Spells N d p t := by
  obtain ⟨-, hl, msg, heq⟩ := h.form p t _ hq
  obtain rfl : d = pad3 p ++ (pad3 t ++ cStr msg) := (List.cons.inj heq).2
  exact spells_pad3 ⟨hl.1, hl.2.1⟩ ⟨hl.2.2.1, hl.2.2.2.1⟩ hN (cStr msg)

/-- A receipt takes away what it acknowledges, on the link to the target, and nothing else. -/
theorem NetInv.receive_queueOf {q link : Nat} {f : Str} {up : Option Str}
    (hl : HasLink N q link) (hr : n.receive N q link f = .ok (n', up)) {p t : Nat} {d : Str}
    (hq : (p, t, '0' :: d) ∈ n.queued) : '0' :: d ∈ n'.queueOf p t ↔
      '0' :: d ∈ n.queueOf p t ∧ ¬ (q = p ∧ link = t ∧ f = '1' :: d) := by
  have hspells := h.spells hN hq
  simp only [Net.receive, bind_eq_ok] at hr
  obtain ⟨⟨st, up₁⟩, hd, hr⟩ := hr
  obtain ⟨rfl, rfl⟩ := Prod.mk.inj (Except.ok.inj hr)
  by_cases hp : p = q
  · subst hp
    have hlayer : ({ n.setLayer p st with
        handed := n.handed ++ up₁.toList.map (p, ·) } : Net).queueOf p t =
        (st.links t).messagesToSend := by simp [Net.queueOf]
    rw [hlayer]
    obtain ⟨c, d', sender, target, rfl, hs, ht, hres⟩ := deliverThreaded_cases hl.2.2.2.2.symm hd
    cases hres with
    | data hc =>
      subst hc
      simp [Net.queueOf]
    | acked hc =>
      subst hc
      rw [LinkLayer.mem_removeMessage]
      simp [Net.queueOf, eq_comm]
    | strayAck hc hsd hne =>
      subst hc
      simp only [iff_self_and]
      rintro - ⟨-, rfl, heq⟩
      obtain rfl := (List.cons.inj heq).2
      exact hne (Except.ok.inj (ht.symm.trans hspells.targetText))
    | ignored hdata hack =>
      simp only [iff_self_and]
      rintro - ⟨-, rfl, heq⟩
      obtain ⟨rfl, rfl⟩ := List.cons.inj heq
      exact hack ⟨rfl, Except.ok.inj (hs.symm.trans hspells.senderText)⟩
  · simp [Net.queueOf, hp, Ne.symm hp]

end Receive

section Queue
variable {cfg : Config} {s s' : Sys}

theorem not_requeued (hr : (stack cfg).Reachable s) {old es : List (Nat × Nat × Str)}
    (heq : s.net.queued = old ++ es) {p t : Nat} {f : Str} (hin : (p, t, f) ∈ old) :
    (p, t, f) ∉ es := by
  intro hes
  have hnd := queuedOn_nodup hr p t
  rw [queuedOn, heq, List.filterMap_append] at hnd
  have hmem : ∀ l : List (Nat × Nat × Str), (p, t, f) ∈ l → f ∈ l.filterMap fun e =>
      if e.1 = p ∧ e.2.1 = t then some e.2.2 else none :=
    fun l hl => List.mem_filterMap.mpr ⟨_, hl, if_pos ⟨rfl, rfl⟩⟩
  exact (List.nodup_append.mp hnd).2.2 f (hmem old hin) f (hmem es hes) rfl

theorem step_queueOf (hN : cfg.N ≤ 999) (hr : (stack cfg).Reachable s) {a : Action}
    (hs : (stack cfg).step s a = some s') {p t : Nat} {d : Str}
    (hq : (p, t, '0' :: d) ∈ s.net.queued) : '0' :: d ∈ s'.net.queueOf p t ↔
      '0' :: d ∈ s.net.queueOf p t ∧ a ≠ .receive p t ('1' :: d) := by
  have hn := netInv_reachableBy (stack_links hr)
  have hr' := hr.next hs
  obtain ⟨-, -, heff⟩ := step_effect hs
  cases heff with
  | @activate q => by_cases hp : p = q <;> simp [Net.queueOf, LinkLayer.setLinks, hp]
  | sendThreaded | crash | urbDeliverPending | lcbDeliverPending =>
    simp [Net.sendThreaded, Net.send]
  | @ackThreaded q u =>
    by_cases hp : p = q
    · subst hp
      by_cases ht : t = u <;>
        simp [Net.queueOf, Net.ackThreaded, LinkLayer.clearAcks, LinkLayer.updateLink, ht]
    · simp [Net.queueOf, Net.ackThreaded, hp, Net.send]
  | broadcast hu hb hs =>
    obtain ⟨es, hes, hmem, -⟩ := bebBroadcast_queues hs
    have hnot := not_requeued hr' hes hq
    rw [hmem]
    simp [hnot]
  | receive he hrec =>
    rw [hn.receive_queueOf hN he.1 hrec hq]
    simp
  | handUp he hrec =>
    change _ ∈ Net.queueOf _ p t ↔ _
    rw [Sys.record_net, Sys.setProc_net, hn.receive_queueOf hN he.1 hrec hq]
    simp
  | relay he hrec hd hs =>
    obtain ⟨es, hes, hmem, -⟩ := bebBroadcast_queues hs
    rw [Sys.record_net, Sys.setProc_net] at hes
    have hnot := not_requeued hr' hes ((Net.receive_ok hrec).1 ▸ hq)
    rw [hmem, Sys.record_net, Sys.setProc_net, hn.receive_queueOf hN he.1 hrec hq]
    simp [hnot]

theorem step_queued (hr : (stack cfg).Reachable s) {a : Action}
    (hs : (stack cfg).step s a = some s') : s.net.queued ⊆ s'.net.queued := by
  cases step_gives (netInv_reachableBy (stack_links hr)) (stackInv_reachable hr) hs with
  | nothing _ queued => exact queued ▸ List.Subset.refl _
  | frame _ _ _ _ _ queued => exact queued ▸ List.subset_append_left _ _

theorem step_layer_other {a : Action} (hs : (stack cfg).step s a = some s') {q : Nat}
    (hq : q ≠ a.proc) : s'.net.layer q = s.net.layer q := by
  have hreceive : ∀ {p link f net up}, s.net.receive cfg.N p link f = .ok (net, up) → q ≠ p →
      net.layer q = s.net.layer q := by
    intro p link f net up hr hqp
    obtain ⟨⟨st, u⟩, -, hr⟩ := bind_eq_ok.mp hr
    obtain ⟨rfl, -⟩ := Prod.mk.inj (Except.ok.inj hr)
    exact (Net.setLayer_layer s.net p q st).trans (if_neg hqp)
  obtain ⟨-, -, heff⟩ := step_effect hs
  cases heff with
  | activate => exact (Net.setLayer_layer _ _ _ _).trans (if_neg hq)
  | sendThreaded | crash | urbDeliverPending | lcbDeliverPending => rfl
  | ackThreaded => exact (Net.setLayer_layer _ _ _ _).trans (if_neg hq)
  | broadcast hu hb hs =>
    obtain ⟨-, -, -, hother⟩ := bebBroadcast_queues hs
    exact hother q hq
  | receive he hr => exact hreceive hr hq
  | handUp he hr => exact hreceive hr hq
  | relay he hr hd hs =>
    obtain ⟨-, -, -, hother⟩ := bebBroadcast_queues hs
    exact (hother q hq).trans (hreceive hr hq)

theorem step_crashed_true {a : Action} (hs : (stack cfg).step s a = some s') {q : Nat}
    (hq : s.crashed q = true) : a.proc ≠ q ∧ s'.crashed q = true := by
  obtain ⟨-, hcrash, heff⟩ := step_effect hs
  have hne : a.proc ≠ q := by
    rintro rfl
    rw [hq] at hcrash
    cases hcrash
  refine ⟨hne, ?_⟩
  cases heff with
  | activate | sendThreaded | ackThreaded | receive | handUp | urbDeliverPending
  | lcbDeliverPending => exact hq
  | broadcast hu hb hs | relay he hr hd hs =>
    obtain ⟨net, -, hs⟩ := bind_eq_ok.mp hs
    obtain rfl := Except.ok.inj hs
    exact hq
  | @crash p =>
    by_cases hqp : q = p <;> simp [hqp, hq]

theorem run_queueOf (hN : cfg.N ≤ 999) (hr : (stack cfg).Reachable s) {as : List Action}
    (hrun : (stack cfg).run as s = some s') {p t : Nat} {d : Str}
    (hq : (p, t, '0' :: d) ∈ s.net.queued) : '0' :: d ∈ s'.net.queueOf p t ↔
      '0' :: d ∈ s.net.queueOf p t ∧ .receive p t ('1' :: d) ∉ as := by
  induction as generalizing s with
  | nil =>
    cases hrun
    simp
  | cons a as ih =>
    obtain ⟨s₁, hs, hrun⟩ := Option.bind_eq_some_iff.mp hrun
    rw [ih (hr.next hs) hrun (step_queued hr hs hq), step_queueOf hN hr hs hq, List.mem_cons,
      not_or, and_assoc, ne_comm]

end Queue

/-- A packet is sent again until the very link that sends it gets the ack for it: whatever else
happens, it is then off the queue for good, and before that it is on it. -/
theorem queued_until_own_ack (cfg : Config) (hN : cfg.N ≤ 999) (s : Sys)
    (hr : (stack cfg).Reachable s) {as : List Action} {s' : Sys}
    (hrun : (stack cfg).run as s = some s') {p t : Nat} {f : Str}
    (hf : f ∈ s.net.queueOf p t) :
    f ∈ s'.net.queueOf p t ↔ .receive p t ('1' :: f.drop 1) ∉ as := by
  have hn := netInv_reachableBy (stack_links hr)
  have hq := hn.sending p t f hf
  obtain ⟨-, -, msg, rfl⟩ := hn.form p t f hq
  exact (run_queueOf hN hr hrun hq).trans (and_iff_right hf)

/-- The second process acknowledges what the first sent; another link of the first gets the ack. -/
def ackAstray : List Action :=
  [.ackThreaded 2 1, .receive 1 3 ('1' :: (packetText 1 2 trioFirst).drop 1)]

theorem queued_until_own_ack_astray :
    (∃ s', (stack trio).run ackAstray ((stack trio).after trioRelayed) = some s' ∧
      packetText 1 2 trioFirst ∈ s'.net.queueOf 1 2) ∧
    ∃ s', (stack trio).run (ackAstray ++ [.receive 1 2 ('1' :: (packetText 1 2 trioFirst).drop 1)])
        ((stack trio).after trioRelayed) = some s' ∧
      packetText 1 2 trioFirst ∉ s'.net.queueOf 1 2 := by
  have hr := (stack trio).reachable_after trioRelayed
  have hf : packetText 1 2 trioFirst ∈ ((stack trio).after trioRelayed).net.queueOf 1 2 := by decide
  constructor
  · obtain ⟨s', hs'⟩ := Option.isSome_iff_exists.mp (by decide :
      ((stack trio).run ackAstray ((stack trio).after trioRelayed)).isSome = true)
    exact ⟨s', hs', (queued_until_own_ack trio (by decide) _ hr hs' hf).mpr (by simp [ackAstray])⟩
  · obtain ⟨s', hs'⟩ := Option.isSome_iff_exists.mp (by decide : ((stack trio).run
      (ackAstray ++ [.receive 1 2 ('1' :: (packetText 1 2 trioFirst).drop 1)])
      ((stack trio).after trioRelayed)).isSome = true)
    exact ⟨s', hs', fun hin =>
      (queued_until_own_ack trio (by decide) _ hr hs' hf).mp hin (by simp)⟩

/-- A packet for a process that crashed before it got it is sent again for ever. -/
theorem sent_forever (cfg : Config) (hN : cfg.N ≤ 999) (s : Sys) (hr : (stack cfg).Reachable s)
    {p t : Nat} {f : Str} (hf : f ∈ s.net.queueOf p t) (hc : s.crashed t = true)
    (hnew : f.drop 1 ∉ (s.net.layer t).processDelivered) {s' : Sys}
    (hs : (stack cfg).Steps (fun _ _ => True) s s') : f ∈ s'.net.queueOf p t := by
  have hq := (netInv_reachableBy (stack_links hr)).sending p t f hf
  obtain ⟨d, rfl⟩ : ∃ d, f = '0' :: d := by
    obtain ⟨-, -, msg, hform⟩ := (netInv_reachableBy (stack_links hr)).form p t f hq
    exact ⟨_, hform⟩
  have hall := hs.invariant (fun x => (stack cfg).Reachable x ∧ (p, t, '0' :: d) ∈ x.net.queued ∧
    '0' :: d ∈ x.net.queueOf p t ∧ x.crashed t = true ∧ d ∉ (x.net.layer t).processDelivered)
    ?_ ⟨hr, hq, hf, hc, hnew⟩
  · exact hall.2.2.1
  · rintro x a x' ⟨hx, hq, hin, hc, hnew⟩ - hstep
    obtain ⟨hne, hc'⟩ := step_crashed_true hstep hc
    have hlayer := step_layer_other hstep hne.symm
    refine ⟨hx.next hstep, step_queued hx hstep hq, ?_, hc', hlayer ▸ hnew⟩
    refine (step_queueOf hN hx hstep hq).mpr ⟨hin, ?_⟩
    -- An ack of it would mean that its target has recorded it.
    rintro rfl
    have hn := netInv_reachableBy (stack_links hx)
    obtain ⟨⟨-, -, -, he⟩, -⟩ := Option.ite_none_right_eq_some.mp hstep
    rcases hn.onWire p _ he.2.2 with ⟨q, hqueued⟩ | ⟨u, d', heq, hqueued, hrec⟩
    · obtain ⟨-, -, msg, hform⟩ := hn.form q p _ hqueued
      exact absurd (List.cons.inj hform).1 (by decide)
    · obtain rfl := (List.cons.inj heq).2
      have htarget := (hn.spells hN hqueued).targetText.symm.trans (hn.spells hN hq).targetText
      obtain rfl : u = t := Int.ofNat_inj.mp (Except.ok.inj htarget)
      exact hnew hrec

theorem sent_forever_crashed : ∃ s', (stack trio).run [.sendThreaded 1 3, .ackThreaded 2 1]
    ((stack trio).after trioCrashed) = some s' ∧ packetText 1 3 trioFirst ∈ s'.net.queueOf 1 3 := by
  obtain ⟨s', hs'⟩ := Option.isSome_iff_exists.mp (by decide : ((stack trio).run
    [.sendThreaded 1 3, .ackThreaded 2 1] ((stack trio).after trioCrashed)).isSome = true)
  exact ⟨s', hs', sent_forever trio (by decide) _ ((stack trio).reachable_after trioCrashed)
    (by decide) (by decide) (by decide) ((Machine.steps_of_run hs').mono fun _ _ _ => trivial)⟩

/-- Neither the processes nor what the links have recorded is touched, and the queues only get
shorter. -/
structure Drains (s s' : Sys) : Prop where
  proc : s'.proc = s.proc
  queued : s'.net.queued = s.net.queued
  recorded : ∀ q, (s'.net.layer q).processDelivered = (s.net.layer q).processDelivered
  active : ∀ q u, ((s'.net.layer q).links u).linkActive = ((s.net.layer q).links u).linkActive
  queues : ∀ q u, (s'.net.queueOf q u).Sublist (s.net.queueOf q u)

namespace Drains
variable {s s₁ s' : Sys}

theorem refl (s : Sys) : Drains s s := ⟨rfl, rfl, fun _ => rfl, fun _ _ => rfl, fun _ _ => .refl _⟩

theorem trans (h : Drains s s₁) (h' : Drains s₁ s') : Drains s s' where
  proc := h'.proc.trans h.proc
  queued := h'.queued.trans h.queued
  recorded q := (h'.recorded q).trans (h.recorded q)
  active q u := (h'.active q u).trans (h.active q u)
  queues q u := (h'.queues q u).trans (h.queues q u)

theorem setLayer {n : Net} {p : Nat} {st : LinkLayer}
    (hl : n.layer = Function.update s.net.layer p st) (hq : n.queued = s.net.queued)
    (hd : st.processDelivered = (s.net.layer p).processDelivered)
    (ha : ∀ u, (st.links u).linkActive = ((s.net.layer p).links u).linkActive)
    (hm : ∀ u, (st.links u).messagesToSend.Sublist (s.net.queueOf p u)) :
    Drains s { s with net := n } := by
  refine ⟨rfl, hq, fun q => ?_, fun q u => ?_, fun q u => ?_⟩
  · rw [hl]
    by_cases hqp : q = p
    · subst hqp
      simpa using hd
    · simp [hqp]
  · rw [hl]
    by_cases hqp : q = p
    · subst hqp
      simpa using ha u
    · simp [hqp]
  · rw [Net.queueOf, hl]
    by_cases hqp : q = p
    · subst hqp
      simpa using hm u
    · simp [hqp]

theorem sendThreaded (s : Sys) (p t : Nat) :
    Drains s { s with net := s.net.sendThreaded p t } :=
  ⟨rfl, rfl, fun _ => rfl, fun _ _ => rfl, fun _ _ => .refl _⟩

theorem ackThreaded (s : Sys) (p t : Nat) :
    Drains s { s with net := s.net.ackThreaded p t } := by
  refine @Drains.setLayer s _ p ((s.net.layer p).clearAcks t) rfl rfl rfl (fun u => ?_)
    (fun u => ?_)
  all_goals
    by_cases hu : u = t <;> simp [LinkLayer.clearAcks, LinkLayer.updateLink, hu]

theorem addAck (s : Sys) (p t : Nat) (a : Str) :
    Drains s { s with net := s.net.setLayer p ((s.net.layer p).addAck t a) } := by
  refine Drains.setLayer rfl rfl rfl (fun u => ?_) (fun u => ?_)
  all_goals
    by_cases hu : u = t <;> simp [LinkLayer.addAck, LinkLayer.updateLink, hu]

theorem removeMessage (s : Sys) (p t : Nat) (f : Str) :
    Drains s { s with net := s.net.setLayer p ((s.net.layer p).removeMessage t f) } := by
  refine Drains.setLayer rfl rfl rfl (fun u => ?_) (fun u => ?_)
  all_goals
    by_cases hu : u = t <;> simp [LinkLayer.removeMessage, LinkLayer.updateLink, hu]

theorem atRest {cfg : Config} (h : Drains s s') (hc : s'.crashed = s.crashed)
    (hrest : AtRest cfg s) : AtRest cfg s' := by
  have hlive : live cfg.N s' = live cfg.N s := by rw [live, hc, live]
  refine ⟨fun e he => ?_, fun p hp => ?_, fun p hp => ?_⟩
  · rw [h.queued] at he
    rw [hc, h.recorded]
    exact hrest.settled e he
  · rw [h.proc]
    exact hrest.urb p (hlive ▸ hp)
  · rw [h.proc]
    exact hrest.lcb p (hlive ▸ hp)

end Drains

structure Running (s : Sys) (p : Nat) : Prop where
  links : ∀ t, ((s.net.layer p).links t).linkActive = true
  urb : (s.proc p).urb.active = true
  lcb : (s.proc p).lcb.active = true

/-- At rest, with the threads of the live processes running. -/
structure Awake (cfg : Config) (s₀ s : Sys) : Prop where
  calm : Calm cfg s₀ s
  rest : AtRest cfg s
  running : ∀ q ∈ live cfg.N s₀, Running s q

section Awake
variable {cfg : Config} {s₀ s : Sys}

theorem Awake.act (h : Awake cfg s₀ s) {a : Action} {n : Net} (ha : Quietly s a)
    (hp : a.proc ∈ live cfg.N s₀) (he : a.Enabled cfg.N s)
    (hact : s.act cfg a = .ok { s with net := n }) (hd : Drains s { s with net := n }) :
    (stack cfg).Steps Quietly s { s with net := n } ∧ Awake cfg s₀ { s with net := n } := by
  obtain ⟨hsteps, hcalm⟩ := h.calm.act ha (h.calm.live_eq ▸ hp) he hact
  refine ⟨hsteps, hcalm, hd.atRest rfl h.rest, fun q hq => ?_⟩
  have hrun := h.running q hq
  exact ⟨fun u => (hd.active q u).trans (hrun.links u), hrun.urb, hrun.lcb⟩

theorem act_receive {p link : Nat} {f : Str} {st : LinkLayer}
    (hr : deliverThreaded cfg.N p link (s.net.layer p) f = .ok (st, none)) :
    s.act cfg (.receive p link f) = .ok { s with net := s.net.setLayer p st } := by
  simp [Sys.act, Sys.receive, Net.receive, hr, bind, Except.bind, pure, Except.pure, Net.setLayer]

end Awake

theorem mem_eraseReps {α : Type*} [BEq α] [LawfulBEq α] {l : List α} {x : α} (h : x ∈ l) :
    x ∈ l.eraseReps := by
  have hloop : ∀ (as acc : List α) (a : α), x = a ∨ x ∈ as ∨ x ∈ acc →
      x ∈ List.eraseRepsBy.loop (· == ·) a as acc := by
    intro as
    induction as with
    | nil =>
      intro acc a h
      simpa [List.eraseRepsBy.loop, or_comm] using h
    | cons b as ih =>
      intro acc a h
      rw [List.eraseRepsBy.loop]
      split
      · rename_i heq
        obtain rfl := eq_of_beq heq
        refine ih acc a ?_
        rw [List.mem_cons] at h
        tauto
      · refine ih (a :: acc) b ?_
        simp only [List.mem_cons] at h ⊢
        tauto
  cases l with
  | nil => cases h
  | cons a as => exact hloop as [] a ((List.mem_cons.mp h).imp id .inl)

def idPairs (N : Nat) : List (Nat × Nat) := (List.range' 1 N).product (List.range' 1 N)

theorem mem_idPairs {N p t : Nat} {s : Sys} (hp : p ∈ live N s) (ht : t ∈ live N s) :
    (p, t) ∈ idPairs N := List.mem_product.mpr ⟨mem_ids hp, mem_ids ht⟩

section Drain
variable {cfg : Config} {s₀ s : Sys} (hN : cfg.N ≤ 999)
include hN

/-- A packet that has arrived is sent once more, acknowledged once more, and off the queue. -/
theorem Awake.drainOne (h : Awake cfg s₀ s) {p t : Nat} {f : Str} (hp : p ∈ live cfg.N s₀)
    (ht : t ∈ live cfg.N s₀) (hf : f ∈ s.net.queueOf p t) :
    ∃ s', (stack cfg).Steps Quietly s s' ∧ Drains s s' ∧ Awake cfg s₀ s' ∧
      (s'.net.queueOf p t).length < (s.net.queueOf p t).length := by
  have hn := h.calm.netInv
  have hq := hn.sending p t f hf
  obtain ⟨-, hl, msg, hform⟩ := hn.form p t f hq
  obtain ⟨d, rfl⟩ : ∃ d, f = '0' :: d := ⟨_, hform⟩
  have hspells := hn.spells hN hq
  have hback : HasLink cfg.N t p := ⟨hl.2.2.1, hl.2.2.2.1, hl.1, hl.2.1, hl.2.2.2.2.symm⟩
  have hcrash : ∀ q ∈ live cfg.N s₀, s.crashed q = false := fun q hq =>
    (mem_live.mp (h.calm.live_eq.symm ▸ hq)).2
  have hrec : d ∈ (s.net.layer t).processDelivered :=
    h.rest.settled _ hq (hcrash p hp) (hcrash t ht)
  obtain ⟨hs₁, h₁⟩ := @Awake.act cfg s₀ s h (.sendThreaded p t) _ trivial hp
    ⟨hl, (h.running p hp).links t⟩ rfl (Drains.sendThreaded s p t)
  set s₁ : Sys := { s with net := s.net.sendThreaded p t } with hs₁def
  have hrec₁ : d ∈ (s₁.net.layer t).processDelivered := hrec
  have hdata : deliverThreaded cfg.N t p (s₁.net.layer t) ('0' :: d) =
      .ok ((s₁.net.layer t).addAck p ('1' :: d), none) := by
    rw [deliverThreaded_data _ hspells hl.2.2.2.2, LinkLayer.record, if_pos hrec₁, if_pos hrec₁,
      LinkLayer.ackBack, if_neg (by omega), Int.toNat_natCast]
  obtain ⟨hs₂, h₂⟩ := @Awake.act cfg s₀ s₁ h₁ (.receive t p ('0' :: d)) _ trivial ht
    ⟨hback, (h₁.running t ht).links p, List.mem_append_right _ (List.mem_map_of_mem hf)⟩
    (act_receive hdata) (Drains.addAck s₁ t p _)
  set s₂ : Sys := { s₁ with net := s₁.net.setLayer t ((s₁.net.layer t).addAck p ('1' :: d)) }
    with hs₂def
  obtain ⟨hs₃, h₃⟩ := @Awake.act cfg s₀ s₂ h₂ (.ackThreaded t p) _ trivial ht
    ⟨hback, (h₂.running t ht).links p⟩ rfl (Drains.ackThreaded s₂ t p)
  set s₃ : Sys := { s₂ with net := s₂.net.ackThreaded t p } with hs₃def
  have hwire : (p, '1' :: d) ∈ s₃.net.wire := by
    refine List.mem_append_right _ (List.mem_map_of_mem (mem_eraseReps ?_))
    simp [hs₂def, LinkLayer.addAck, LinkLayer.updateLink]
  have hack : deliverThreaded cfg.N p t (s₃.net.layer p) ('1' :: d) =
      .ok ((s₃.net.layer p).removeMessage t ('0' :: d), none) := by
    rw [deliverThreaded_ack _ hspells hl.2.2.2.2.symm, if_pos rfl, ackEffect]
  obtain ⟨hs₄, h₄⟩ := @Awake.act cfg s₀ s₃ h₃ (.receive p t ('1' :: d)) _ trivial hp
    ⟨hl, (h₃.running p hp).links t, hwire⟩ (act_receive hack) (Drains.removeMessage s₃ p t _)
  have hsame : s₃.net.layer p = s.net.layer p := by
    simp [hs₃def, hs₂def, hs₁def, Net.ackThreaded, Net.sendThreaded, Net.send, hl.2.2.2.2]
  refine ⟨_, hs₁.trans (hs₂.trans (hs₃.trans hs₄)),
    (Drains.sendThreaded s p t).trans ((Drains.addAck s₁ t p _).trans
      ((Drains.ackThreaded s₂ t p).trans (Drains.removeMessage s₃ p t _))), h₄, ?_⟩
  have hqueue : (s₃.net.setLayer p ((s₃.net.layer p).removeMessage t ('0' :: d))).queueOf p t =
      (s.net.queueOf p t).filter (· ≠ '0' :: d) := by
    simp [Net.queueOf, LinkLayer.removeMessage, LinkLayer.updateLink, hsame]
  rw [hqueue]
  exact List.length_filter_lt_length_iff_exists.mpr ⟨_, hf, by simp⟩

theorem Awake.drain (h : Awake cfg s₀ s) {p t : Nat} (hp : p ∈ live cfg.N s₀)
    (ht : t ∈ live cfg.N s₀) : ∃ s', (stack cfg).Steps Quietly s s' ∧
      (Awake cfg s₀ s' ∧ Drains s s') ∧ s'.net.queueOf p t = [] := by
  refine Machine.Steps.reaches (fun x => Awake cfg s₀ x ∧ Drains s x)
    (fun x => x.net.queueOf p t = []) (fun x => (x.net.queueOf p t).length) ?_
    ⟨h, Drains.refl s⟩
  rintro x ⟨hx, hdrains⟩ hsome
  obtain ⟨f, hf⟩ := List.exists_mem_of_ne_nil _ hsome
  obtain ⟨x', hsteps, hd, hx', hlt⟩ := hx.drainOne hN hp ht hf
  exact ⟨x', hsteps, ⟨hx', hdrains.trans hd⟩, hlt⟩

theorem Awake.drainAll (h : Awake cfg s₀ s) : ∃ s', (stack cfg).Steps Quietly s s' ∧
    Awake cfg s₀ s' ∧ ∀ e ∈ idPairs cfg.N,
      e.1 ∈ live cfg.N s₀ → e.2 ∈ live cfg.N s₀ → s'.net.queueOf e.1 e.2 = [] := by
  refine Machine.Steps.forEach (Awake cfg s₀) (fun (e : Nat × Nat) x =>
    e.1 ∈ live cfg.N s₀ → e.2 ∈ live cfg.N s₀ → x.net.queueOf e.1 e.2 = []) ?_ _ h
  intro x e hx
  by_cases hlive : e.1 ∈ live cfg.N s₀ ∧ e.2 ∈ live cfg.N s₀
  · obtain ⟨x', hsteps, ⟨hx', hdrains⟩, hempty⟩ := hx.drain hN hlive.1 hlive.2
    refine ⟨x', hsteps, hx', fun _ _ => hempty, fun e' hdone hp ht => ?_⟩
    have hsub := hdrains.queues e'.1 e'.2
    rw [hdone hp ht] at hsub
    exact List.sublist_nil.mp hsub
  · exact ⟨x, .refl, hx, fun hp ht => absurd ⟨hp, ht⟩ hlive, fun _ hdone => hdone⟩

end Drain

abbrev Net.acksOf (n : Net) (p t : Nat) : List Str := ((n.layer p).links t).acksToSend

section Silence
variable {cfg : Config} {s₀ s : Sys}

theorem ackThreaded_acksOf (n : Net) (p t q u : Nat) : (n.ackThreaded p t).acksOf q u =
    if q = p ∧ u = t then [] else n.acksOf q u := by
  by_cases hq : q = p
  · subst hq
    by_cases hu : u = t <;>
      simp [Net.acksOf, Net.ackThreaded, LinkLayer.clearAcks, LinkLayer.updateLink, hu]
  · simp [Net.acksOf, Net.ackThreaded, Net.send, hq]

theorem Awake.ackAll (h : Awake cfg s₀ s) : ∃ s', (stack cfg).Steps Quietly s s' ∧
    (Awake cfg s₀ s' ∧ Drains s s') ∧
    ∀ e ∈ idPairs cfg.N, e.1 ∈ live cfg.N s₀ →
      HasLink cfg.N e.1 e.2 → s'.net.acksOf e.1 e.2 = [] := by
  refine Machine.Steps.forEach (fun x => Awake cfg s₀ x ∧ Drains s x) (fun (e : Nat × Nat) x =>
    e.1 ∈ live cfg.N s₀ → HasLink cfg.N e.1 e.2 → x.net.acksOf e.1 e.2 = []) ?_ _
    ⟨h, Drains.refl s⟩
  rintro x ⟨p, t⟩ ⟨hx, hdrains⟩
  by_cases hlink : p ∈ live cfg.N s₀ ∧ HasLink cfg.N p t
  · obtain ⟨hsteps, hx'⟩ := @Awake.act cfg s₀ x hx (.ackThreaded p t) _ trivial hlink.1
      ⟨hlink.2, (hx.running p hlink.1).links t⟩ rfl (Drains.ackThreaded x p t)
    refine ⟨_, hsteps, ⟨hx', hdrains.trans (Drains.ackThreaded x p t)⟩, fun _ _ => ?_,
      fun e hdone hp hl => ?_⟩
    · change (x.net.ackThreaded p t).acksOf p t = []
      rw [ackThreaded_acksOf, if_pos ⟨rfl, rfl⟩]
    · change (x.net.ackThreaded p t).acksOf e.1 e.2 = []
      rw [ackThreaded_acksOf, hdone hp hl]
      split <;> rfl
  · exact ⟨x, .refl, ⟨hx, hdrains⟩, fun hp hl => absurd ⟨hp, hl⟩ hlink, fun _ hdone => hdone⟩

theorem LcbIdle.setActive {q : Process} (h : LcbIdle q) : LcbIdle q.setActive := by
  have hall := lcbIdle_iff.mp h
  exact lcbIdle_iff.mpr hall

theorem AtRest.wake (h : AtRest cfg s) (p : Nat) : AtRest cfg (s.wake p) := by
  have hlive : live cfg.N (s.wake p) = live cfg.N s := rfl
  refine ⟨(beside_wake cfg.N s p).settled rfl h.settled, fun q hq => ?_, fun q hq => ?_⟩
  · exact (beside_wake cfg.N s p).urbIdle (h.urb q hq)
  · by_cases hqp : q = p
    · subst hqp
      simpa [Sys.wake] using (h.lcb q hq).setActive
    · simpa [Sys.wake, hqp] using h.lcb q hq

theorem running_wake (s : Sys) (p : Nat) : Running (s.wake p) p := by
  refine ⟨wake_active s p, ?_, ?_⟩ <;> simp [Sys.wake, Process.setActive]

theorem Running.wake {q : Nat} (h : Running s q) (p : Nat) : Running (s.wake p) q := by
  by_cases hqp : q = p
  · exact hqp ▸ running_wake s p
  · have hsame : (s.wake p).proc q = s.proc q := by simp [Sys.wake, hqp]
    refine ⟨fun u => ?_, hsame ▸ h.urb, hsame ▸ h.lcb⟩
    simpa [Sys.wake, hqp] using h.links u

theorem Calm.wakeAll (h : Calm cfg s₀ s) (hrest : AtRest cfg s) :
    ∃ s', (stack cfg).Steps Quietly s s' ∧ Awake cfg s₀ s' := by
  have hone : ∀ x p, (Calm cfg s₀ x ∧ AtRest cfg x) → ∃ x', (stack cfg).Steps Quietly x x' ∧
      (Calm cfg s₀ x' ∧ AtRest cfg x') ∧ (p ∈ live cfg.N s₀ → Running x' p) ∧
      ∀ q, (q ∈ live cfg.N s₀ → Running x q) → q ∈ live cfg.N s₀ → Running x' q := by
    rintro x p ⟨hx, hrest⟩
    by_cases hp : p ∈ live cfg.N s₀
    · obtain ⟨hsteps, hx'⟩ := hx.wake (hx.live_eq.symm ▸ hp)
      exact ⟨_, hsteps, ⟨hx', hrest.wake p⟩, fun _ => running_wake x p,
        fun q hq hql => (hq hql).wake p⟩
    · exact ⟨x, .refl, ⟨hx, hrest⟩, fun hp' => absurd hp' hp, fun _ hq => hq⟩
  obtain ⟨s', hsteps, ⟨hc, hrest'⟩, hrunning⟩ :=
    Machine.Steps.forEach _ _ hone (List.range' 1 cfg.N) ⟨h, hrest⟩
  exact ⟨s', hsteps, hc, hrest', fun q hq =>
    hrunning q (mem_ids (hc.live_eq.symm ▸ hq)) hq⟩

end Silence

/-- At rest, and no link between live processes has anything to send. -/
structure Silent (cfg : Config) (s₀ s : Sys) : Prop extends Awake cfg s₀ s where
  queues : ∀ p ∈ live cfg.N s₀, ∀ t ∈ live cfg.N s₀, p ≠ t → s.net.queueOf p t = []
  acks : ∀ p ∈ live cfg.N s₀, ∀ t ∈ live cfg.N s₀, p ≠ t → s.net.acksOf p t = []

theorem Calm.silence {cfg : Config} {s₀ s : Sys} (hN : cfg.N ≤ 999) (hd : DependsOnProcesses cfg)
    (h : Calm cfg s₀ s) : ∃ s', (stack cfg).Steps Quietly s s' ∧ Silent cfg s₀ s' := by
  obtain ⟨s₁, h₁, hc₁, hrest₁⟩ := h.rest hN hd
  obtain ⟨s₂, h₂, hawake₂⟩ := hc₁.wakeAll hrest₁
  obtain ⟨s₃, h₃, hawake₃, hqueues⟩ := hawake₂.drainAll hN
  obtain ⟨s₄, h₄, ⟨hawake₄, hdrains⟩, hacks⟩ := hawake₃.ackAll
  have hids : ∀ q ∈ live cfg.N s₀, q ∈ live cfg.N s := fun q hq => h.live_eq.symm ▸ hq
  refine ⟨s₄, h₁.trans (h₂.trans (h₃.trans h₄)), hawake₄, fun p hp t ht _ => ?_,
    fun p hp t ht hne => ?_⟩
  · have hsub := hdrains.queues p t
    rw [hqueues (p, t) (mem_idPairs (hids p hp) (hids t ht)) hp ht] at hsub
    exact List.sublist_nil.mp hsub
  · obtain ⟨⟨hp₁, hpN⟩, -⟩ := mem_live.mp hp
    obtain ⟨⟨ht₁, htN⟩, -⟩ := mem_live.mp ht
    exact hacks (p, t) (mem_idPairs (hids p hp) (hids t ht)) hp ⟨hp₁, hpN, ht₁, htN, hne⟩

/-- From every state of a run whose packets fit, the program can come to rest and fall silent:
no link between live processes has a packet to send or an ack to give. -/
theorem can_fall_silent (cfg : Config) (hN : cfg.N ≤ 999) (hd : DependsOnProcesses cfg) (s : Sys)
    (hr : (stack cfg).ReachableBy (HasRoom cfg) s) :
    ∃ s', (stack cfg).Steps Quietly s s' ∧ AtRest cfg s' ∧ s'.crashed = s.crashed ∧
      ∀ p ∈ live cfg.N s, ∀ t ∈ live cfg.N s, p ≠ t →
        s'.net.queueOf p t = [] ∧ s'.net.acksOf p t = [] := by
  obtain ⟨s', hsteps, hsilent⟩ := @Calm.silence cfg s s hN hd ⟨hr, rfl, fun _ => rfl⟩
  exact ⟨s', hsteps, hsilent.rest, hsilent.calm.crashed, fun p hp t ht hne =>
    ⟨hsilent.queues p hp t ht hne, hsilent.acks p hp t ht hne⟩⟩

theorem can_fall_silent_trio : ∃ s', (stack trio).Steps Quietly
    ((stack trio).afterBy (HasRoom trio) trioRelayed) s' ∧ AtRest trio s' ∧
    s'.net.queueOf 1 2 = [] := by
  obtain ⟨s', hsteps, hrest, -, hall⟩ := can_fall_silent trio (by decide) trio_depends _
    ((stack trio).reachableBy_after (HasRoom trio) trioRelayed)
  exact ⟨s', hsteps, hrest, (hall 1 (by decide) 2 (by decide) (by decide)).1⟩

end DecentralizedBroadcast
