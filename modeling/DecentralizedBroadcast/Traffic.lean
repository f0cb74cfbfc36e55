import DecentralizedBroadcast.StackInvariant
import Mathlib.Algebra.BigOperators.Group.Finset.Basic
import Mathlib.Algebra.BigOperators.Intervals

/-! How much the program sends. A process gives BEB its own messages and one relay for each
message it hears of, nothing twice, so that the queue of a link has a bound that no loss,
duplication or reordering changes. -/
set_option autoImplicit false

namespace DecentralizedBroadcast
open History

def queuedOn (n : Net) (p t : Nat) : List Str :=
  n.queued.filterMap fun e => if e.1 = p ∧ e.2.1 = t then some e.2.2 else none

theorem queuedOn_append {n n' : Net} {es : List (Nat × Nat × Str)}
    (h : n'.queued = n.queued ++ es) (p t : Nat) : queuedOn n' p t =
      queuedOn n p t ++ es.filterMap fun e => if e.1 = p ∧ e.2.1 = t then some e.2.2 else none := by
  rw [queuedOn, h, List.filterMap_append]
  rfl

theorem filterMap_sent {p q t : Nat} {g : Nat → Str} {ts : List Nat} (hnd : ts.Nodup) :
    (ts.map fun u => (q, u, g u)).filterMap
      (fun e => if e.1 = p ∧ e.2.1 = t then some e.2.2 else none) =
      if q = p ∧ t ∈ ts then [g t] else [] := by
  induction ts with
  | nil => simp
  | cons u ts ih =>
    obtain ⟨hu, hnd⟩ := List.nodup_cons.mp hnd
    rw [List.map_cons, List.filterMap_cons, ih hnd]
    by_cases hq : q = p
    · by_cases hut : u = t
      · subst hut
        simp [hq, hu]
      · simp [hq, hut, Ne.symm hut]
    · simp [hq]

section Link
variable {N : Nat} {n n' : Net}

/-- What waits on a link was put there, in that order; only acks take packets away. -/
def SendsQueued (n : Net) : Prop :=
  ∀ p t, ((n.layer p).links t).messagesToSend.Sublist (queuedOn n p t)

theorem SendsQueued.pushMessage (h : SendsQueued n) (p t : Nat) (f : Str) :
    SendsQueued (n.pushMessage p t f) := by
  intro q u
  rw [@queuedOn_append n (n.pushMessage p t f) _ rfl q u]
  by_cases hpu : q = p ∧ u = t
  · obtain ⟨rfl, rfl⟩ := hpu
    simpa [Net.pushMessage, LinkLayer.pushMessage, LinkLayer.updateLink] using h q u
  · have hsame : (((n.pushMessage p t f).layer q).links u).messagesToSend =
        ((n.layer q).links u).messagesToSend := by
      by_cases hqp : q = p
      · subst hqp
        have hut : u ≠ t := fun hut => hpu ⟨rfl, hut⟩
        simp [Net.pushMessage, LinkLayer.pushMessage, LinkLayer.updateLink, hut]
      · simp [Net.pushMessage, hqp]
    rw [hsame]
    exact (h q u).trans (List.sublist_append_left _ _)

theorem SendsQueued.setLayer (h : SendsQueued n) (p : Nat) (st : LinkLayer)
    (hst : ∀ t, (st.links t).messagesToSend.Sublist ((n.layer p).links t).messagesToSend)
    (hl : n'.layer = (n.setLayer p st).layer) (hq : n'.queued = n.queued) :
    SendsQueued n' := by
  intro q t
  have hon : queuedOn n' q t = queuedOn n q t := by rw [queuedOn, hq, queuedOn]
  rw [hl, hon]
  by_cases hqp : q = p
  · subst hqp
    simpa using (hst t).trans (h q t)
  · simpa [hqp] using h q t

theorem SendsQueued.receive (h : SendsQueued n) {t link : Nat} {received : Str} {up : Option Str}
    (hlink : link ≠ t) (hr : n.receive N t link received = .ok (n', up)) : SendsQueued n' := by
  simp only [Net.receive, bind_eq_ok] at hr
  obtain ⟨⟨st, up₁⟩, hd, hr⟩ := hr
  obtain ⟨rfl, rfl⟩ := Prod.mk.inj (Except.ok.inj hr)
  obtain ⟨c, d, sender, target, rfl, -, -, hres⟩ := deliverThreaded_cases hlink hd
  refine h.setLayer t st (fun u => ?_) rfl rfl
  cases hres with
  | data => simp
  | acked =>
    by_cases hu : u = link
    · subst hu
      simp [LinkLayer.removeMessage, LinkLayer.updateLink]
    · simp [LinkLayer.removeMessage, LinkLayer.updateLink, hu]
  | strayAck | ignored => exact List.Sublist.refl _

theorem sendsQueued_step {a : LinkAction} (h : SendsQueued n) (hs : Net.step N n a = some n') :
    SendsQueued n' := by
  cases netStep_effect hs with
  | @setActive p active =>
    exact h.setLayer p ((n.layer p).setLinks active) (fun t => List.Sublist.refl _) rfl rfl
  | addMessage | sendNewMessage | inactive => exact h.pushMessage _ _ _
  | sendThreaded => exact h
  | @ackThreaded p t =>
    refine h.setLayer p ((n.layer p).clearAcks t) (fun u => ?_) rfl rfl
    by_cases hu : u = t <;> simp [LinkLayer.clearAcks, LinkLayer.updateLink, hu]
  | receive hl hw hr => exact h.receive (Ne.symm hl.2.2.2.2) hr

theorem sendsQueued_reachable {allowed : Net → LinkAction → Prop}
    (h : (linkMachine N).ReachableBy allowed n) : SendsQueued n :=
  h.invariant SendsQueued (fun _ _ => List.Sublist.refl _) fun _ _ _ hi _ hs =>
    sendsQueued_step hi hs

end Link

/-- What a step gives to BEB: nothing, or one frame that its process has not given before. -/
inductive Gives (cfg : Config) (s s' : Sys) : Prop where
  | nothing (beb : ∀ p, said .beb p s'.trace = said .beb p s.trace)
      (queued : s'.net.queued = s.net.queued)
  | frame (p : Nat) (text : Str) (hp : 1 ≤ p ∧ p ≤ cfg.N) (new : text ∉ said .beb p s.trace)
      (beb : ∀ q, said .beb q s'.trace = said .beb q s.trace ++ if p = q then [text] else [])
      (queued : s'.net.queued = s.net.queued ++
        (Sys.others cfg.N p).map fun t => (p, t, packetText p t text))

theorem bebBroadcast_queued {N p : Nat} {frame : Str} {s s' : Sys} (hp : 1 ≤ p ∧ p ≤ N)
    (fits : p ≤ 999) (h : s.bebBroadcast N p frame = .ok s') :
    s'.trace = s.trace ++ [⟨.beb, p, frame⟩] ∧ s'.net.queued = s.net.queued ++
      (Sys.others N p).map fun t => (p, t, packetText p t frame) := by
  simp only [Sys.bebBroadcast, bind_eq_ok] at h
  obtain ⟨net, hn, h⟩ := h
  obtain rfl := Except.ok.inj h
  have hl : ∀ t ∈ Sys.others N p, HasLink N p t := by
    intro t ht
    have := mem_others.mp ht
    unfold HasLink
    omega
  exact ⟨rfl, (sendAll_ok fits hl hn).2.1⟩

theorem step_gives {cfg : Config} {s s' : Sys} {a : Action} (hn : NetInv cfg.N s.net)
    (h : StackInv cfg s) (hs : Sys.step cfg s a = some s') : Gives cfg s s' := by
  have h' := stackInv_step hn h hs
  obtain ⟨hp, -, heff⟩ := step_effect hs
  cases heff with
  | activate | sendThreaded | ackThreaded | crash => exact .nothing (fun _ => rfl) rfl
  | receive he hr seen => exact .nothing (fun _ => rfl) (Net.receive_ok hr).1
  | handUp he hr hd => exact .nothing (by simp) (Net.receive_ok hr).1
  | urbDeliverPending hd => exact .nothing (by simp) rfl
  | lcbDeliverPending hd => exact .nothing (by simp) rfl
  | @broadcast p msg text rest q s' hu hb hs =>
    change 1 ≤ p ∧ p ≤ cfg.N at hp
    simp only [Process.broadcastMessage, bind_eq_ok] at hb
    obtain ⟨⟨l, toSend⟩, hl, -⟩ := hb
    obtain ⟨htr, hq⟩ := bebBroadcast_queued hp (broadcastMessage_ok hl).2.1 hs
    simp only [Sys.record_trace, Sys.setProc_trace] at htr
    have hb' : said .broadcast p s'.trace = said .broadcast p s.trace ++ [text] := by
      rw [htr, said_append, said_append]
      simp
    have hin : text ∈ said .broadcast p s'.trace := by simp [hb']
    refine .frame p text hp (fun hold => ?_) (fun q => ?_) hq
    · rcases beb_cases h.sound hold with hold | ⟨f, -, rfl⟩
      · have hnd := broadcast_nodup h'.sound p
        rw [hb'] at hnd
        exact (List.nodup_append.mp hnd).2.2 text hold text (by simp) rfl
      · exact (broadcast_plain h'.sound hin 'r' (by simp)).1 rfl
    · rw [htr, said_append, said_append]
      simp
  | @relay p link f msg frame net q s' he hr hd hs =>
    change 1 ≤ p ∧ p ≤ cfg.N at hp
    obtain ⟨htr, hq⟩ := bebBroadcast_queued hp (receive_fits he.1 hr) hs
    simp only [Sys.record_trace, Sys.setProc_trace] at htr
    simp only [Sys.record_net, Sys.setProc_net, (Net.receive_ok hr).1] at hq
    have hrelay := ((h.proc p).handUp hd).2
    split at hrelay
    · cases hrelay
    · rename_i hnew
      obtain rfl := Option.some.inj hrelay
      refine .frame p ('r' :: packetKey msg) hp (fun hold => ?_) (fun q => ?_) hq
      · rcases beb_cases h.sound hold with hold | ⟨g, hg, heq⟩
        · exact (broadcast_plain h.sound hold 'r' (by simp)).1 rfl
        · refine hnew (((h.proc p).pending _).mpr (.inr ?_))
          rw [(List.cons.inj heq).2]
          exact List.mem_map_of_mem hg
      · rw [htr, said_append, said_append]
        simp

/-- The queues hold each frame once, on every link. -/
structure OnceQueued (cfg : Config) (s : Sys) : Prop where
  beb : ∀ p, (said .beb p s.trace).Nodup
  queued : ∀ p t, queuedOn s.net p t =
    if HasLink cfg.N p t then (said .beb p s.trace).map (packetText p t) else []

theorem OnceQueued.step {cfg : Config} {s s' : Sys} {a : Action} (hn : NetInv cfg.N s.net)
    (hi : StackInv cfg s) (h : OnceQueued cfg s) (hs : Sys.step cfg s a = some s') :
    OnceQueued cfg s' := by
  cases step_gives hn hi hs with
  | nothing beb queued =>
    refine ⟨fun p => beb p ▸ h.beb p, fun p t => ?_⟩
    rw [beb p, ← h.queued, queuedOn, queued, queuedOn]
  | frame x text hx new beb queued =>
    refine ⟨fun p => ?_, fun p t => ?_⟩
    · rw [beb]
      split
      · rename_i hp
        rw [← List.concat_eq_append]
        exact List.Nodup.concat (hp ▸ new) (h.beb p)
      · simpa using h.beb p
    · have hnd := nodup_others cfg.N x
      have hlink : x = p ∧ t ∈ Sys.others cfg.N x ↔ x = p ∧ HasLink cfg.N p t := by
        rw [mem_others]
        unfold HasLink
        omega
      rw [queuedOn_append queued, filterMap_sent hnd, h.queued, beb]
      simp only [hlink]
      by_cases hp : x = p
      · subst hp
        by_cases hl : HasLink cfg.N x t
        · rw [if_pos hl, if_pos ⟨rfl, hl⟩, if_pos rfl, if_pos hl, List.map_append,
            List.map_singleton]
        · have hno : ¬ (x = x ∧ HasLink cfg.N x t) := fun h => hl h.2
          rw [if_neg hl, if_neg hno, if_neg hl, List.append_nil]
      · have hno : ¬ (x = p ∧ HasLink cfg.N p t) := fun h => hp h.1
        rw [if_neg hno, if_neg hp, List.append_nil, List.append_nil]

theorem onceQueued_reachable {cfg : Config} {s : Sys} (h : (stack cfg).Reachable s) :
    OnceQueued cfg s := by
  refine h.invariant_reached (OnceQueued cfg) ?_ fun s a s' hr hi _ hs =>
    hi.step (netInv_reachableBy (stack_links hr)) (stackInv_reachable hr) hs
  constructor <;> simp [stack, Sys.start, Net.start, queuedOn]

/-- What a process may relay: the keys of all that was broadcast. -/
def keysOf (cfg : Config) (tr : List Event) : List Str :=
  (List.range' 1 cfg.N).flatMap fun x => (said .broadcast x tr).map (messageKey x)

theorem keysOf_length (cfg : Config) (tr : List Event) : (keysOf cfg tr).length =
    ∑ x ∈ Finset.Icc 1 cfg.N, (said .broadcast x tr).length := by
  have hsum : ∀ n, ((List.range' 1 n).map fun x => (said .broadcast x tr).length).sum =
      ∑ x ∈ Finset.Icc 1 n, (said .broadcast x tr).length := by
    intro n
    induction n with
    | zero => rfl
    | succ n ih =>
      rw [List.range'_concat, List.map_append, List.sum_append, ih,
        Finset.sum_Icc_succ_top (by omega), List.map_singleton, List.sum_singleton]
      simp [Nat.add_comm]
  rw [keysOf, List.length_flatMap, ← hsum]
  simp

/-- What `p` may give to BEB: its own messages, and a relay of any message. -/
def framesOf (cfg : Config) (tr : List Event) (p : Nat) : List Str :=
  said .broadcast p tr ++ (keysOf cfg tr).map ('r' :: ·)

theorem beb_subset_frames {cfg : Config} {tr : List Event} (h : Sound (EventOk cfg) tr) (p : Nat) :
    said .beb p tr ⊆ framesOf cfg tr p := by
  intro f hf
  rcases beb_cases h hf with hf | ⟨g, hg, rfl⟩
  · exact List.mem_append_left _ hf
  · obtain ⟨x, text, ht, hk⟩ := handUp_known h hg
    have hx := broadcast_fits h ht
    refine List.mem_append_right _ (List.mem_map_of_mem (List.mem_flatMap.mpr
      ⟨x, List.mem_range'_1.mpr (by omega), ?_⟩))
    exact hk ▸ List.mem_map_of_mem ht

theorem beb_length_le {cfg : Config} {s : Sys} (hi : StackInv cfg s) (h : OnceQueued cfg s)
    (p : Nat) : (said .beb p s.trace).length ≤ (said .broadcast p s.trace).length +
      (keysOf cfg s.trace).length := by
  have hle := ((h.beb p).subperm (beb_subset_frames hi.sound p)).length_le
  rwa [framesOf, List.length_append, List.length_map] at hle

/-- Frames given to BEB are texts without NUL, which a packet shows whole. -/
theorem packetText_inj {cfg : Config} {s : Sys} (hi : StackInv cfg s) {p t : Nat} {f g : Str}
    (hf : f ∈ said .beb p s.trace) (hg : g ∈ said .beb p s.trace)
    (h : packetText p t f = packetText p t g) : f = g := by
  have hwhole : ∀ f ∈ said .beb p s.trace, cStr f = f := by
    intro f hf
    rcases beb_cases hi.sound hf with hf | ⟨x, hx, rfl⟩
    · exact (broadcast_plain hi.sound hf).cStr
    · exact cStr_relay ((handUp_known hi.sound hx).plain hi.sound)
  rw [packetText, packetText, hwhole f hf, hwhole g hg] at h
  simpa using h

theorem queuedOn_nodup {cfg : Config} {s : Sys} (h : (stack cfg).Reachable s) (p t : Nat) :
    (queuedOn s.net p t).Nodup := by
  have hi := stackInv_reachable h
  have honce := onceQueued_reachable h
  rw [honce.queued]
  split
  · rename_i hl
    refine List.Nodup.map_on (fun x hx y hy he => ?_) (honce.beb p)
    exact packetText_inj hi hx hy he
  · exact List.nodup_nil

/-- However often packets are lost, repeated or handed to the wrong thread: a link is never given
a packet twice, holds nothing that it was not given, and is given at most the messages of its own
process and one relay for each message of the system. -/
theorem traffic_bounded (cfg : Config) (s : Sys) (h : (stack cfg).Reachable s) (p t : Nat) :
    (queuedOn s.net p t).Nodup ∧
    ((s.net.layer p).links t).messagesToSend.Sublist (queuedOn s.net p t) ∧
    (queuedOn s.net p t).length ≤
      (s.proc p).lcb.lsn + ∑ x ∈ Finset.Icc 1 cfg.N, (s.proc x).lcb.lsn := by
  have hi := stackInv_reachable h
  have honce := onceQueued_reachable h
  have hsends := sendsQueued_reachable (stack_links h) p t
  have hlsn : ∀ x, (s.proc x).lcb.lsn = (said .broadcast x s.trace).length :=
    fun x => (hi.proc x).lsn
  have hlen := beb_length_le hi honce p
  rw [keysOf_length] at hlen
  simp only [hlsn]
  refine ⟨queuedOn_nodup h p t, hsends, ?_⟩
  rw [honce.queued]
  split
  · rwa [List.length_map]
  · exact Nat.zero_le _

theorem traffic_bounded_trio :
    (queuedOn ((stack trio).after trioDelivered).net 2 3).length = 2 ∧
    (queuedOn ((stack trio).after trioDelivered).net 2 3).length ≤
      (((stack trio).after trioDelivered).proc 2).lcb.lsn +
        ∑ x ∈ Finset.Icc 1 trio.N, (((stack trio).after trioDelivered).proc x).lcb.lsn :=
  ⟨by decide, (traffic_bounded trio _ ((stack trio).reachable_after trioDelivered) 2 3).2.2⟩

end DecentralizedBroadcast
