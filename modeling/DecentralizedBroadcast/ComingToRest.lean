import DecentralizedBroadcast.AnyLink
import DecentralizedBroadcast.CausalRefinement
import DecentralizedBroadcast.PacketSize
import DecentralizedBroadcast.PendingOrder
import DecentralizedBroadcast.RestAgreement
import DecentralizedBroadcast.Traffic
import Mathlib.Algebra.Order.BigOperators.Group.Finset

/-! From whatever state a run has reached, the live processes can finish: retransmissions, receipts
and passes lead to rest, without a broadcast and without a crash. -/
set_option autoImplicit false

namespace DecentralizedBroadcast
open History ClockedDelivery

/-- Neither a broadcast of main nor a crash: retransmissions, acks, receipts, delivery passes, and
that a process becomes active. -/
def Quietly (_ : Sys) : Action → Prop
  | .broadcastMessage _ | .crash _ => False
  | _ => True

theorem step_crashed {cfg : Config} {s s' : Sys} {a : Action} (hs : Sys.step cfg s a = some s')
    (ha : Quietly s a) : s'.crashed = s.crashed := by
  obtain ⟨hp, -, heff⟩ := step_effect hs
  cases heff with
  | activate | sendThreaded | ackThreaded | receive | handUp | urbDeliverPending
  | lcbDeliverPending => rfl
  | relay he hr hd hs =>
    obtain ⟨net, rfl, -⟩ := bebBroadcast_ok hp (receive_fits he.1 hr) hs
    rfl
  | broadcast | crash => exact ha.elim

theorem steps_trace {cfg : Config} {allowed : Sys → Action → Prop} {s s' : Sys}
    (h : (stack cfg).Steps allowed s s') : ∃ es, s'.trace = s.trace ++ es := by
  refine h.invariant (fun x => ∃ es, x.trace = s.trace ++ es) ?_ ⟨[], by simp⟩
  rintro x a x' ⟨es, hx⟩ - hs
  obtain ⟨es', hx', -⟩ := step_trace hs
  exact ⟨es ++ es', by rw [hx', hx, List.append_assoc]⟩

/-- `s` comes after `s₀` by such actions, in a run whose packets all fit. -/
structure Calm (cfg : Config) (s₀ s : Sys) : Prop where
  reached : (stack cfg).ReachableBy (HasRoom cfg) s
  crashed : s.crashed = s₀.crashed
  texts : ∀ q, said .broadcast q s.trace = said .broadcast q s₀.trace

section Calm
variable {cfg : Config} {s₀ s : Sys}

theorem Quietly.hasRoom {a : Action} (ha : Quietly s a) : HasRoom cfg s a := by
  cases a <;> trivial

theorem Calm.next (h : Calm cfg s₀ s) {a : Action} {s' : Sys} (ha : Quietly s a)
    (hs : (stack cfg).step s a = some s') :
    (stack cfg).Steps Quietly s s' ∧ Calm cfg s₀ s' := by
  refine ⟨.single ⟨a, ha, hs⟩, h.reached.next ha.hasRoom hs, (step_crashed hs ha).trans h.crashed,
    fun q => ?_⟩
  rcases step_broadcast hs q with heq | ⟨frame, rfl, -⟩
  · exact heq.trans (h.texts q)
  · exact ha.elim

theorem Calm.live_eq (h : Calm cfg s₀ s) : live cfg.N s = live cfg.N s₀ := by
  rw [live, h.crashed, live]

theorem Calm.netInv (h : Calm cfg s₀ s) : NetInv cfg.N s.net :=
  netInv_reachableBy (stack_links h.reached.reachable)

theorem Calm.stackInv (h : Calm cfg s₀ s) : StackInv cfg s := stackInv_reachable h.reached.reachable

theorem step_of_act {a : Action} {s' : Sys} (hp : a.proc ∈ live cfg.N s)
    (he : a.Enabled cfg.N s) (hact : s.act cfg a = .ok s') : (stack cfg).step s a = some s' := by
  obtain ⟨⟨h1, hN⟩, hcrash⟩ := mem_live.mp hp
  change Sys.step cfg s a = some s'
  rw [Sys.step, if_pos ⟨h1, hN, hcrash, he⟩, hact]
  rfl

theorem Calm.act (h : Calm cfg s₀ s) {a : Action} {s' : Sys} (ha : Quietly s a)
    (hp : a.proc ∈ live cfg.N s) (he : a.Enabled cfg.N s) (hact : s.act cfg a = .ok s') :
    (stack cfg).Steps Quietly s s' ∧ Calm cfg s₀ s' :=
  h.next ha (step_of_act hp he hact)

def Sys.wake (s : Sys) (p : Nat) : Sys :=
  { s with net := s.net.setLayer p ((s.net.layer p).setLinks true) }.setProc p (s.proc p).setActive

theorem Calm.wake (h : Calm cfg s₀ s) {p : Nat} (hp : p ∈ live cfg.N s) :
    (stack cfg).Steps Quietly s (s.wake p) ∧ Calm cfg s₀ (s.wake p) :=
  @Calm.act cfg s₀ s h (.setBroadcastActive p) _ trivial hp trivial rfl

@[simp] theorem wake_messages (s : Sys) (p q t : Nat) :
    (((s.wake p).net.layer q).links t).messagesToSend =
      ((s.net.layer q).links t).messagesToSend := by
  by_cases hq : q = p <;> simp [Sys.wake, LinkLayer.setLinks, hq]

@[simp] theorem wake_delivered (s : Sys) (p q : Nat) :
    ((s.wake p).net.layer q).processDelivered = (s.net.layer q).processDelivered := by
  by_cases hq : q = p <;> simp [Sys.wake, LinkLayer.setLinks, hq]

@[simp] theorem wake_active (s : Sys) (p t : Nat) :
    (((s.wake p).net.layer p).links t).linkActive = true := by simp [Sys.wake, LinkLayer.setLinks]

@[simp] theorem wake_wire (s : Sys) (p : Nat) : (s.wake p).net.wire = s.net.wire := rfl

theorem NetInv.receive_new {N p t link : Nat} {n n' : Net} {f : Str} {up : Option Str}
    (hN : N ≤ 999) (h : NetInv N n) (hq : (p, t, f) ∈ n.queued) (hl : HasLink N t link)
    (hnew : f.drop 1 ∉ (n.layer t).processDelivered)
    (hr : n.receive N t link f = .ok (n', up)) : up = some f := by
  obtain ⟨-, hpt, msg, rfl⟩ := h.form p t f hq
  have hspells : Spells N (pad3 p ++ (pad3 t ++ cStr msg)) p t :=
    spells_pad3 ⟨hpt.1, hpt.2.1⟩ ⟨hpt.2.2.1, hpt.2.2.2.1⟩ hN (cStr msg)
  have hok := @deliverThreaded_data N t link (n.layer t) _ p hspells (Ne.symm hl.2.2.2.2)
  rw [packetText, Net.receive, hok] at hr
  obtain ⟨-, rfl⟩ := Prod.mk.inj (Except.ok.inj hr)
  exact if_neg hnew

theorem receive_handed (hN : cfg.N ≤ 999) {p t link : Nat} {f : Str} {s' : Sys}
    (hn : NetInv cfg.N s.net) (hq : (p, t, f) ∈ s.net.queued)
    (hnew : f.drop 1 ∉ (s.net.layer t).processDelivered)
    (hs : (stack cfg).step s (.receive t link f) = some s') :
    s'.net.handed = s.net.handed ++ [(t, f)] := by
  have hone : ∀ {net up}, (Action.receive t link f).Enabled cfg.N s →
      s.net.receive cfg.N t link f = .ok (net, up) → net.handed = s.net.handed ++ [(t, f)] := by
    intro net up he hr
    obtain rfl := hn.receive_new hN hq he.1 hnew hr
    exact (Net.receive_ok hr).2
  obtain ⟨hp, -, heff⟩ := step_effect hs
  cases heff with
  | receive he hr seen => exact hone he hr
  | handUp he hr hd => exact hone he hr
  | relay he hr hd hs =>
    obtain ⟨net, rfl, -, hh, -⟩ := bebBroadcast_ok hp (receive_fits he.1 hr) hs
    exact hh.trans (hone he hr)

variable (hN : cfg.N ≤ 999) (hd : DependsOnProcesses cfg)
include hN hd

/-- Receiving does not fail: the relays of what was broadcast with room fit. -/
theorem Calm.receive_total (h : Calm cfg s₀ s) {t link : Nat} {f : Str}
    (ht : 1 ≤ t ∧ t ≤ cfg.N) (he : (Action.receive t link f).Enabled cfg.N s) :
    ∃ s', s.act cfg (.receive t link f) = .ok s' := by
  rcases h.stackInv.act_cases hN hd h.netInv (a := .receive t link f) ht he with
    hok | ⟨s₁, frame, hsends, hbeb⟩
  · exact hok
  · rw [hbeb]
    refine bebBroadcast_total ht (fun u hl => ?_) s₁
    change HasLink cfg.N t u at hl
    cases hsends with
    | relay known => exact relay_fits hN hd h.reached known hl

theorem Calm.arrive (h : Calm cfg s₀ s) {p t : Nat} {f : Str} (hq : (p, t, f) ∈ s.net.queued)
    (hp : s.crashed p = false) (ht : s.crashed t = false)
    (hnew : f.drop 1 ∉ (s.net.layer t).processDelivered) :
    ∃ s', (stack cfg).Steps Quietly s s' ∧ Calm cfg s₀ s' ∧
      s'.net.handed = s.net.handed ++ [(t, f)] := by
  obtain ⟨-, hl, -⟩ := h.netInv.form p t f hq
  have hpl : p ∈ live cfg.N s := mem_live.mpr ⟨⟨hl.1, hl.2.1⟩, hp⟩
  have htl : t ∈ live cfg.N s := mem_live.mpr ⟨⟨hl.2.2.1, hl.2.2.2.1⟩, ht⟩
  have hwaits : f ∈ ((s.net.layer p).links t).messagesToSend := by
    rcases h.netInv.noLoss p t f hq with hin | hin
    · exact hin
    · obtain ⟨d, rfl, hdel⟩ := (h.netInv.handed t f).mp hin
      exact absurd hdel hnew
  obtain ⟨h₁, hc₁⟩ := h.wake hpl
  obtain ⟨h₂, hc₂⟩ := @Calm.act cfg s₀ _ hc₁ (.sendThreaded p t) _ trivial hpl
    ⟨hl, wake_active s p t⟩ rfl
  set s₂ : Sys := { s.wake p with net := (s.wake p).net.sendThreaded p t } with hs₂
  have htl₂ : t ∈ live cfg.N s₂ := htl
  obtain ⟨h₃, hc₃⟩ := hc₂.wake htl₂
  have hwire : (t, f) ∈ (s₂.wake t).net.wire := by
    rw [wake_wire]
    refine List.mem_append_right _ (List.mem_map_of_mem ?_)
    rwa [wake_messages]
  have hlink : HasLink cfg.N t p := ⟨hl.2.2.1, hl.2.2.2.1, hl.1, hl.2.1, Ne.symm hl.2.2.2.2⟩
  have he : (Action.receive t p f).Enabled cfg.N (s₂.wake t) :=
    ⟨hlink, wake_active s₂ t p, hwire⟩
  obtain ⟨s', hact⟩ := hc₃.receive_total hN hd ⟨hlink.1, hlink.2.1⟩ he
  have hnew₂ : f.drop 1 ∉ ((s₂.wake t).net.layer t).processDelivered := by
    rw [wake_delivered]
    change f.drop 1 ∉ ((s.wake p).net.layer t).processDelivered
    rwa [wake_delivered]
  obtain ⟨h₄, hc₄⟩ := @Calm.act cfg s₀ _ hc₃ (.receive t p f) s' trivial htl₂ he hact
  have hstep := @step_of_act cfg (s₂.wake t) (.receive t p f) s' htl₂ he hact
  have hhanded := @receive_handed cfg (s₂.wake t) hN p t p f s' hc₃.netInv hq hnew₂ hstep
  exact ⟨s', h₁.trans (h₂.trans (h₃.trans h₄)), hc₄, hhanded⟩

end Calm

def packetsOf (cfg : Config) (tr : List Event) : List (Nat × Str) :=
  (List.range' 1 cfg.N).flatMap fun t => (List.range' 1 cfg.N).flatMap fun p =>
    (framesOf cfg tr p).map fun frame => (t, packetText p t frame)

theorem packetsOf_congr {cfg : Config} {tr tr' : List Event}
    (h : ∀ q, said .broadcast q tr = said .broadcast q tr') :
    packetsOf cfg tr = packetsOf cfg tr' := by
  simp only [packetsOf, framesOf, keysOf, h]

theorem handed_subset {cfg : Config} {s : Sys} (h : StackInv cfg s) :
    s.net.handed ⊆ packetsOf cfg s.trace := by
  rintro ⟨t, f⟩ hin
  obtain ⟨past, rest, htr, ok⟩ := h.sound.of_mem (mem_said.mp ((h.posted.handed t f).mp hin))
  generalize hf : f = g at ok
  cases ok with
  | @handUp p _ frame link hp hq sent new =>
    subst hf
    obtain ⟨hp1, hpN, ht1, htN, -⟩ := link
    have hframe : frame ∈ said .beb p s.trace := by simp [htr, sent]
    refine List.mem_flatMap.mpr ⟨t, List.mem_range'_1.mpr (by omega), List.mem_flatMap.mpr
      ⟨p, List.mem_range'_1.mpr (by omega), ?_⟩⟩
    exact List.mem_map_of_mem (beb_subset_frames h.sound p hframe)

/-- What the passes at `p` leave as it is. -/
structure Beside (N p : Nat) (s s' : Sys) : Prop where
  procs : ∀ q ≠ p, s'.proc q = s.proc q
  queued : s'.net.queued = s.net.queued
  recorded : ∀ q, (s'.net.layer q).processDelivered = (s.net.layer q).processDelivered
  urb : UrbIdle N (s.proc p) → UrbIdle N (s'.proc p)

theorem Beside.trans {N p : Nat} {s s₁ s₂ : Sys} (h : Beside N p s s₁) (h' : Beside N p s₁ s₂) :
    Beside N p s s₂ where
  procs q hq := (h'.procs q hq).trans (h.procs q hq)
  queued := h'.queued.trans h.queued
  recorded q := (h'.recorded q).trans (h.recorded q)
  urb hi := h'.urb (h.urb hi)

theorem Beside.settled {N p : Nat} {s s' : Sys} (h : Beside N p s s')
    (hc : s'.crashed = s.crashed) (hs : Settled s) : Settled s' := by
  intro e he
  rw [h.queued] at he
  rw [hc, h.recorded]
  exact hs e he

theorem Beside.urbIdle {N p : Nat} {s s' : Sys} (h : Beside N p s s') {q : Nat}
    (hi : UrbIdle N (s.proc q)) : UrbIdle N (s'.proc q) := by
  by_cases hq : q = p
  · subst hq
    exact h.urb hi
  · rwa [h.procs q hq]

theorem beside_wake (N : Nat) (s : Sys) (p : Nat) : Beside N p s (s.wake p) where
  procs q hq := by simp [Sys.wake, hq]
  queued := rfl
  recorded q := wake_delivered s p q
  urb hi := by
    rw [urbIdle_iff] at hi ⊢
    simpa [Sys.wake, Process.setActive, Urb.canDeliver] using hi

theorem mem_ids {N p : Nat} {s : Sys} (hp : p ∈ live N s) : p ∈ List.range' 1 N := by
  obtain ⟨⟨h1, hN⟩, -⟩ := mem_live.mp hp
  exact List.mem_range'_1.mpr (by omega)

theorem urbDeliverPending_idle {N : Nat} {q q' : Process} {up : List Str}
    (h : q.urbDeliverPending N = .ok (q', up)) : UrbIdle N q' := by
  simp only [Process.urbDeliverPending] at h
  cases hu : q.urb.deliverPending N with
  | mk u up' =>
    simp only [hu, bind_eq_ok] at h
    obtain ⟨l, -, h⟩ := h
    obtain ⟨rfl, rfl⟩ := Prod.mk.inj (Except.ok.inj h)
    obtain ⟨hpend, hack, hdel, -, hall⟩ := urb_deliverLoop hu
    rw [urbIdle_iff]
    intro k hk hcan h0
    simp only [hpend] at hk
    simp only [Urb.canDeliver, hack] at hcan
    simp only [hdel] at h0
    split at h0
    · cases h0
    · rename_i hnot
      exact hnot ((hall k).mpr ⟨hk, hcan, h0⟩)

/-- What LCB has been handed and has delivered, seen as a run of its calls from the start. -/
theorem Reflects.progress {cfg : Config} {tr : List Event} {p : Nat} {q : Process}
    (h : Reflects cfg tr p q) (hs : Sound (EventOk cfg) tr) :
    Progress { q.lcb with vc := fun _ => 0, pairs := .empty } (said .urbDeliver p tr)
      (said .lcbDeliver p tr) q.lcb where
  active := rfl
  lsn := rfl
  vc := by
    rw [h.vc]
    funext z
    rw [vcOf, Int.zero_add]
  pairs := h.pairs
  orderly := by
    have hneed : needFrom (fun _ => 0) = need := by
      funext k z
      rw [needFrom, Int.sub_zero, need]
    rw [hneed]
    exact orderly hs p
  received _ hk := lcbDeliver_received hs hk

section Calm
variable {cfg : Config} {s₀ s : Sys} (hN : cfg.N ≤ 999) (hd : DependsOnProcesses cfg)
include hN hd

/-- All that is under way between live processes can arrive, with all the relays that follow. -/
theorem Calm.settle (h : Calm cfg s₀ s) :
    ∃ s', (stack cfg).Steps Quietly s s' ∧ Calm cfg s₀ s' ∧ Settled s' := by
  have hbound : ∀ s, Calm cfg s₀ s → s.net.handed.length ≤ (packetsOf cfg s₀.trace).length := by
    intro s hs
    rw [← packetsOf_congr hs.texts]
    exact (hs.netInv.once.subperm (handed_subset hs.stackInv)).length_le
  refine Machine.Steps.reaches (Calm cfg s₀) Settled
    (fun s => (packetsOf cfg s₀.trace).length - s.net.handed.length) (fun s hs hnot => ?_) h
  simp only [Settled, not_forall] at hnot
  obtain ⟨⟨p, t, f⟩, hq, hp, ht, hnew⟩ := hnot
  obtain ⟨s', hsteps, hs', hhanded⟩ := hs.arrive hN hd hq hp ht hnew
  refine ⟨s', hsteps, hs', ?_⟩
  have := hbound s' hs'
  rw [hhanded, List.length_append, List.length_singleton] at this ⊢
  omega

theorem Calm.urbPass (h : Calm cfg s₀ s) {p : Nat} (hp : p ∈ live cfg.N s) :
    ∃ s', (stack cfg).Steps Quietly s s' ∧ Calm cfg s₀ s' ∧ Beside cfg.N p s s' ∧
      UrbIdle cfg.N (s'.proc p) := by
  obtain ⟨h₁, hc₁⟩ := h.wake hp
  obtain ⟨q, up, hok, -⟩ := hc₁.stackInv.urbPass hN hd p
  obtain ⟨h₂, hc₂⟩ := @Calm.act cfg s₀ _ hc₁ (.urbDeliverPending p) _ trivial hp
    (by simp [Action.Enabled, Sys.wake, Process.setActive]) (bind_eq_ok.mpr ⟨_, hok, rfl⟩)
  refine ⟨_, h₁.trans h₂, hc₂, (beside_wake cfg.N s p).trans ⟨fun q' hq => ?_, rfl, fun _ => rfl,
    fun _ => ?_⟩, ?_⟩
  · simp [hq]
  · simpa using urbDeliverPending_idle hok
  · simpa using urbDeliverPending_idle hok

theorem Calm.lcbPass (h : Calm cfg s₀ s) {p : Nat} (hp : p ∈ live cfg.N s)
    (hactive : (s.proc p).lcb.active = true) (hbusy : ¬ LcbIdle (s.proc p)) :
    ∃ s', (stack cfg).Steps Quietly s s' ∧ Calm cfg s₀ s' ∧ Beside cfg.N p s s' ∧
      (s'.proc p).lcb.active = true ∧
      (s'.proc p).lcb.pairs.entries.length < (s.proc p).lcb.pairs.entries.length := by
  have hinv := h.stackInv
  have hread : ∀ k ∈ said .urbDeliver p s.trace, Readable k :=
    fun k hk => ((urbDeliver_known hinv.sound hk).keyShape hd hinv.sound).readable hN
  obtain ⟨l', new, hpass, hprog, hlen⟩ :=
    ((hinv.proc p).progress hinv.sound).deliverPending hread
  have hnew : new ≠ [] := by
    rintro rfl
    obtain ⟨rfl, -⟩ := deliverLoop_nothing hpass
    exact hbusy hpass
  have hpos := List.length_pos_iff.mpr hnew
  obtain ⟨h₁, hc₁⟩ := @Calm.act cfg s₀ s h (.lcbDeliverPending p) _ trivial hp hactive
    (bind_eq_ok.mpr ⟨_, bind_eq_ok.mpr ⟨_, hpass, rfl⟩, rfl⟩)
  refine ⟨_, h₁, hc₁, ⟨fun q hq => by simp [hq], rfl, fun _ => rfl, fun hi => ?_⟩, ?_, ?_⟩
  · simpa [UrbIdle] using hi
  · simpa using hprog.active.trans hactive
  · simp only [Sys.record_proc, Sys.setProc_proc, if_true]
    omega

/-- Passes of LCB at `p` until one finds nothing. -/
theorem Calm.lcbPasses (h : Calm cfg s₀ s) {p : Nat} (hp : p ∈ live cfg.N s) :
    ∃ s', (stack cfg).Steps Quietly s s' ∧ Calm cfg s₀ s' ∧ Beside cfg.N p s s' ∧
      LcbIdle (s'.proc p) := by
  obtain ⟨h₁, hc₁⟩ := h.wake hp
  set inside : Sys → Prop := fun x =>
    Calm cfg s₀ x ∧ Beside cfg.N p s x ∧ (x.proc p).lcb.active = true with hinside
  have hstart : inside (s.wake p) :=
    ⟨hc₁, beside_wake cfg.N s p, by simp [Sys.wake, Process.setActive]⟩
  have closer : ∀ x, inside x → ¬ LcbIdle (x.proc p) →
      ∃ x', (stack cfg).Steps Quietly x x' ∧ inside x' ∧
        (x'.proc p).lcb.pairs.entries.length < (x.proc p).lcb.pairs.entries.length := by
    rintro x ⟨hx, hb, hactive⟩ hbusy
    have hpx : p ∈ live cfg.N x := by rwa [hx.live_eq, ← h.live_eq]
    obtain ⟨x', hsteps, hx', hb', hactive', hlt⟩ := hx.lcbPass hN hd hpx hactive hbusy
    exact ⟨x', hsteps, ⟨hx', hb.trans hb', hactive'⟩, hlt⟩
  obtain ⟨s', h₂, ⟨hc, hbeside, -⟩, hidle⟩ := Machine.Steps.reaches inside
    (fun x => LcbIdle (x.proc p)) (fun x => (x.proc p).lcb.pairs.entries.length) closer hstart
  exact ⟨s', h₁.trans h₂, hc, hbeside, hidle⟩

theorem Calm.allUrb (h : Calm cfg s₀ s) (hset : Settled s) :
    ∃ s', (stack cfg).Steps Quietly s s' ∧ (Calm cfg s₀ s' ∧ Settled s') ∧
      ∀ p ∈ List.range' 1 cfg.N, p ∈ live cfg.N s₀ → UrbIdle cfg.N (s'.proc p) := by
  refine Machine.Steps.forEach (fun x => Calm cfg s₀ x ∧ Settled x)
    (fun p x => p ∈ live cfg.N s₀ → UrbIdle cfg.N (x.proc p)) ?_ _ ⟨h, hset⟩
  rintro x p ⟨hx, hs⟩
  by_cases hp : p ∈ live cfg.N s₀
  · obtain ⟨x', hsteps, hx', hb, hidle⟩ := hx.urbPass hN hd (hx.live_eq.symm ▸ hp)
    have hs' := hb.settled (hx'.crashed.trans hx.crashed.symm) hs
    exact ⟨x', hsteps, ⟨hx', hs'⟩, fun _ => hidle, fun q hq hql => hb.urbIdle (hq hql)⟩
  · exact ⟨x, .refl, ⟨hx, hs⟩, fun hp' => absurd hp' hp, fun _ hq => hq⟩

theorem Calm.allLcb (h : Calm cfg s₀ s) (hset : Settled s)
    (hurb : ∀ p ∈ live cfg.N s₀, UrbIdle cfg.N (s.proc p)) :
    ∃ s', (stack cfg).Steps Quietly s s' ∧ (Calm cfg s₀ s' ∧ Settled s' ∧
        ∀ p ∈ live cfg.N s₀, UrbIdle cfg.N (s'.proc p)) ∧
      ∀ p ∈ List.range' 1 cfg.N, p ∈ live cfg.N s₀ → LcbIdle (s'.proc p) := by
  refine Machine.Steps.forEach (fun x => Calm cfg s₀ x ∧ Settled x ∧
      ∀ p ∈ live cfg.N s₀, UrbIdle cfg.N (x.proc p))
    (fun p x => p ∈ live cfg.N s₀ → LcbIdle (x.proc p)) ?_ _ ⟨h, hset, hurb⟩
  rintro x p ⟨hx, hs, hu⟩
  by_cases hp : p ∈ live cfg.N s₀
  · obtain ⟨x', hsteps, hx', hb, hidle⟩ := hx.lcbPasses hN hd (hx.live_eq.symm ▸ hp)
    have hs' := hb.settled (hx'.crashed.trans hx.crashed.symm) hs
    refine ⟨x', hsteps, ⟨hx', hs', fun q hq => hb.urbIdle (hu q hq)⟩, fun _ => hidle,
      fun q hq hql => ?_⟩
    by_cases hqp : q = p
    · exact hqp ▸ hidle
    · rw [hb.procs q hqp]
      exact hq hql
  · exact ⟨x, .refl, ⟨hx, hs, hu⟩, fun hp' => absurd hp' hp, fun _ hq => hq⟩

theorem Calm.rest (h : Calm cfg s₀ s) :
    ∃ s', (stack cfg).Steps Quietly s s' ∧ Calm cfg s₀ s' ∧ AtRest cfg s' := by
  obtain ⟨s₁, h₁, hc₁, hset₁⟩ := h.settle hN hd
  obtain ⟨s₂, h₂, ⟨hc₂, hset₂⟩, hurb₂⟩ := hc₁.allUrb hN hd hset₁
  obtain ⟨s₃, h₃, ⟨hc₃, hset₃, hurb₃⟩, hlcb₃⟩ :=
    hc₂.allLcb hN hd hset₂ fun p hp => hurb₂ p (mem_ids hp) hp
  refine ⟨s₃, h₁.trans (h₂.trans h₃), hc₃, hset₃, fun p hp => ?_, fun p hp => ?_⟩
  · exact hurb₃ p (hc₃.live_eq ▸ hp)
  · rw [hc₃.live_eq] at hp
    exact hlcb₃ p (mem_ids hp) hp

end Calm

/-- From every state of a run whose packets fit, retransmissions, receipts and passes lead to rest,
once the processes that are not yet active have become so. Where one live process more than a
majority is left, the live ones then have delivered the same messages, all of the live ones among
them and all that any process ever delivered. -/
theorem can_come_to_rest (cfg : Config) (hN : cfg.N ≤ 999) (hd : DependsOnProcesses cfg) (s : Sys)
    (hr : (stack cfg).ReachableBy (HasRoom cfg) s) :
    ∃ s', (stack cfg).Steps Quietly s s' ∧ AtRest cfg s' ∧ s'.crashed = s.crashed ∧
      (∀ p, (s'.proc p).lcb.lsn = (s.proc p).lcb.lsn) ∧
      (cfg.N / 2 + 2 ≤ (live cfg.N s).card →
        (∀ q, ∀ k ∈ said .lcbDeliver q s.trace, ∀ p ∈ live cfg.N s,
          k ∈ said .lcbDeliver p s'.trace) ∧
        (∀ p ∈ live cfg.N s, ∀ x ∈ live cfg.N s,
          (s'.proc p).lcb.vc x = (s.proc x).lcb.lsn) ∧
        ∀ p ∈ live cfg.N s, ∀ q ∈ live cfg.N s, (s'.proc p).lcb.vc = (s'.proc q).lcb.vc) := by
  obtain ⟨s', hsteps, hc, hrest⟩ := @Calm.rest cfg s s hN hd ⟨hr, rfl, fun _ => rfl⟩
  have hr' := hc.reached.reachable
  have hlive : live cfg.N s' = live cfg.N s := hc.live_eq
  have hlsn : ∀ p, (s'.proc p).lcb.lsn = (s.proc p).lcb.lsn := by
    intro p
    rw [(hc.stackInv.proc p).lsn, ((stackInv_reachable hr.reachable).proc p).lsn, hc.texts p]
  refine ⟨s', hsteps, hrest, hc.crashed, hlsn, fun hmany => ?_⟩
  rw [← hlive] at hmany ⊢
  obtain ⟨es, htr⟩ := steps_trace hsteps
  refine ⟨fun q k hk p hp => ?_, fun p hp x hx => ?_, fun p hp q hq => ?_⟩
  · exact hrest.subset hr' hmany q hp (by rw [htr, said_append]; simp [hk])
  · rw [hrest.vc_eq_lsn hr' hmany hx hp, hlsn]
  · exact hrest.vc_eq hr' hmany hp hq

theorem can_come_to_rest_trio : ∃ s', (stack trio).Steps Quietly
    ((stack trio).afterBy (HasRoom trio) trioRelayed) s' ∧ AtRest trio s' ∧
    (s'.proc 3).lcb.vc (1 : Nat) = 1 := by
  obtain ⟨s', hsteps, hrest, -, -, hall⟩ := can_come_to_rest trio (by decide) trio_depends _
    ((stack trio).reachableBy_after (HasRoom trio) trioRelayed)
  have hvc := (hall (by decide)).2.1 3 (by decide) 1 (by decide)
  exact ⟨s', hsteps, hrest, hvc.trans (by decide)⟩

section Room
variable {cfg : Config} (hN : cfg.N ≤ 999) (hd : DependsOnProcesses cfg)
  (hroom : ∀ s, (stack cfg).Reachable s → ∀ p, 1 ≤ p ∧ p ≤ cfg.N → Room cfg s p)
include hN hd hroom

theorem sends_next {s : Sys} (hr : (stack cfg).ReachableBy (HasRoom cfg) s) {q : Nat}
    (hq : q ∈ live cfg.N s) (hmore : (s.proc q).lcb.lsn < (mainBatches (cfg.m q)).length) :
    ∃ s', (stack cfg).Steps (HasRoom cfg) s s' ∧ s'.crashed = s.crashed ∧
      ∀ x, (s'.proc x).lcb.lsn = (s.proc x).lcb.lsn + if x = q then 1 else 0 := by
  have hq1 := (mem_live.mp hq).1
  have hcalm : Calm cfg s s := ⟨hr, rfl, fun _ => rfl⟩
  obtain ⟨hwake, hc⟩ := hcalm.wake hq
  have hlive : q ∈ live cfg.N (s.wake q) := hc.live_eq ▸ hq
  have hlsn : ∀ x, (s.proc x).lcb.lsn = (said .broadcast x (s.wake q).trace).length := fun x => by
    rw [(hcalm.stackInv.proc x).lsn, hc.texts x]
  have hunsent : ((s.wake q).proc q).unsent ≠ [] := by
    rw [(hc.stackInv.proc q).unsent, ← hlsn, ne_eq, List.drop_eq_nil_iff]
    omega
  have he : (Action.broadcastMessage q).Enabled cfg.N (s.wake q) :=
    ⟨by simp [Sys.wake, Process.setActive], hunsent⟩
  obtain ⟨s', hact⟩ : ∃ s', (s.wake q).act cfg (.broadcastMessage q) = .ok s' := by
    rcases @StackInv.act_cases _ _ hN hd hc.netInv hc.stackInv (.broadcastMessage q) hq1 he with
      hok | ⟨s₁, frame, hsends, hbeb⟩
    · exact hok
    · have hfits := (hc.stackInv.nextFits_iff hN hd hq1).mpr (hroom _ hc.reached.reachable q hq1)
      rw [hbeb]
      exact bebBroadcast_total hq1 (hfits frame hsends).1 s₁
  have hstep := step_of_act hlive he hact
  have hhas : HasRoom cfg (s.wake q) (.broadcastMessage q) := hroom _ hc.reached.reachable q hq1
  obtain ⟨hcrash, frame, -, hsaid⟩ := step_broadcastMessage hstep
  refine ⟨s', (hwake.mono fun _ _ ha => ha.hasRoom).tail ⟨_, hhas, hstep⟩,
    hcrash.trans hc.crashed, fun x => ?_⟩
  rw [((stackInv_reachable (hc.reached.next hhas hstep).reachable).proc x).lsn, hsaid x,
    List.length_append, hlsn]
  split <;> rfl

/-- Some run stops just before text number `i` of `p`, when all the others have sent theirs. -/
theorem reaches_sentBefore {p i : Nat} (hi : i ≤ (mainBatches (cfg.m p)).length) :
    ∃ s, (stack cfg).ReachableBy (HasRoom cfg) s ∧ (∀ q, s.crashed q = false) ∧
      ∀ q ∈ Finset.Icc 1 cfg.N, (s.proc q).lcb.lsn = sentBefore cfg p i q := by
  let Below (s : Sys) : Prop := (stack cfg).ReachableBy (HasRoom cfg) s ∧
    (∀ q, s.crashed q = false) ∧ ∀ q, (s.proc q).lcb.lsn ≤ sentBefore cfg p i q
  let Sent (s : Sys) : Prop := ∀ q ∈ Finset.Icc 1 cfg.N, (s.proc q).lcb.lsn = sentBefore cfg p i q
  let missing (s : Sys) : Nat :=
    ∑ q ∈ Finset.Icc 1 cfg.N, (sentBefore cfg p i q - (s.proc q).lcb.lsn)
  have hcloser : ∀ s, Below s → ¬ Sent s →
      ∃ s', (stack cfg).Steps (HasRoom cfg) s s' ∧ Below s' ∧ missing s' < missing s := by
    rintro s ⟨hr, hcrash, hle⟩ hnot
    obtain ⟨q, hq, hne⟩ : ∃ q ∈ Finset.Icc 1 cfg.N, (s.proc q).lcb.lsn ≠ sentBefore cfg p i q := by
      by_contra hall
      exact hnot fun q hq => by_contra fun hne => hall ⟨q, hq, hne⟩
    have hlt : (s.proc q).lcb.lsn < sentBefore cfg p i q := Nat.lt_of_le_of_ne (hle q) hne
    have hmore : (s.proc q).lcb.lsn < (mainBatches (cfg.m q)).length := by
      unfold sentBefore at hlt
      split at hlt
      · rename_i hqp
        subst hqp
        omega
      · exact hlt
    obtain ⟨s', hsteps, hcrash', hlsn⟩ := sends_next hN hd hroom hr
      (mem_live.mpr ⟨Finset.mem_Icc.mp hq, hcrash q⟩) hmore
    refine ⟨s', hsteps, ⟨hr.trans hsteps, fun x => hcrash' ▸ hcrash x, fun x => ?_⟩, ?_⟩
    · rw [hlsn]
      split
      · rename_i hx
        subst hx
        omega
      · exact hle x
    · refine Finset.sum_lt_sum (fun x _ => ?_) ⟨q, hq, ?_⟩
      · rw [hlsn]
        omega
      · rw [hlsn, if_pos rfl]
        omega
  obtain ⟨s, -, ⟨hr, hcrash, -⟩, hsent⟩ := Machine.Steps.reaches Below Sent missing hcloser
    (show Below (stack cfg).init from ⟨.refl, fun _ => rfl, fun _ => Nat.zero_le _⟩)
  exact ⟨s, hr, hcrash, hsent⟩

end Room

/-- With three processes or more the configuration alone decides: every text of every run fits,
sent or relayed, exactly if there is always room. -/
theorem fits_always_iff (cfg : Config) (hN : cfg.N ≤ 999) (hd : DependsOnProcesses cfg)
    (hthree : 3 ≤ cfg.N) :
    (∀ s, (stack cfg).Reachable s → ∀ p, 1 ≤ p ∧ p ≤ cfg.N → NextFits cfg s p) ↔
      ∀ p, 1 ≤ p ∧ p ≤ cfg.N → AlwaysRoom cfg p := by
  constructor
  · intro hall p hp i msg hi
    have hroom : ∀ s, (stack cfg).Reachable s → ∀ p, 1 ≤ p ∧ p ≤ cfg.N → Room cfg s p :=
      fun s hr p hp => ((stackInv_reachable hr).nextFits_iff hN hd hp).mp (hall s hr p hp)
    have hlt := (List.getElem?_eq_some_iff.mp hi).1
    obtain ⟨s, hr, hcrash, hsent⟩ := reaches_sentBefore hN hd hroom (Nat.le_of_lt hlt)
    -- what has been sent by then arrives before `p` goes on
    obtain ⟨s', -, hc, hrest⟩ := @Calm.rest cfg s s hN hd ⟨hr, rfl, fun _ => rfl⟩
    have hr' := hc.reached.reachable
    have hlive : ∀ q, 1 ≤ q ∧ q ≤ cfg.N → q ∈ live cfg.N s' := fun q hq =>
      mem_live.mpr ⟨hq, hc.crashed ▸ hcrash q⟩
    have hmany : cfg.N / 2 + 2 ≤ (live cfg.N s').card := by
      have hcard := Finset.card_le_card fun q hq => hlive q (Finset.mem_Icc.mp hq)
      rw [Nat.card_Icc] at hcard
      omega
    have hlsn : ∀ q, 1 ≤ q ∧ q ≤ cfg.N → (s'.proc q).lcb.lsn = sentBefore cfg p i q := by
      intro q hq
      rw [(hc.stackInv.proc q).lsn, hc.texts q, ← ((stackInv_reachable hr.reachable).proc q).lsn,
        hsent q (Finset.mem_Icc.mpr hq)]
    have hown : (s'.proc p).lcb.lsn = i := (hlsn p hp).trans (if_pos rfl)
    have hnext : msg ∈ (s'.proc p).unsent.head? := by
      rw [(hc.stackInv.proc p).unsent, ← (hc.stackInv.proc p).lsn, hown, List.head?_drop, hi]
      rfl
    have hsize := hroom s' hr' p hp msg hnext
    have hclock : clockSize (s'.proc p).lcb.vc (cfg.localizedIds p) (s'.proc p).lcb.lsn =
        clockSize (fun d => (sentBefore cfg p i d.toNat : Nat)) (cfg.localizedIds p) i := by
      rw [clockSize, clockSize, hown]
      congr 2
      refine List.map_congr_left fun d hdep => ?_
      have hd1 := hd p hp d hdep
      have hvc := hrest.vc_eq_lsn hr' hmany (hlive d.toNat (by omega)) (hlive p hp)
      rw [hlsn d.toNat (by omega), Int.toNat_of_nonneg (by omega)] at hvc
      rw [hvc]
    rwa [relaySize, hclock] at hsize
  · intro hall s hr p hp
    exact ((stackInv_reachable hr).nextFits_iff hN hd hp).mpr ((hall p hp).room hr)

end DecentralizedBroadcast
