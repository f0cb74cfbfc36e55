import DecentralizedBroadcast.ProcessState

/-! The invariant of the whole program, over every run: all processes are in the state
their events led to, the links hold what BEB gave them, every text given to URB went to
BEB, and every packet handed up was relayed. The links themselves run as in `linkMachine`. -/
set_option autoImplicit false

namespace DecentralizedBroadcast
open History

/-- What one action can do to the system. -/
inductive Effect (cfg : Config) (s : Sys) : Action → Sys → Prop where
  | activate {p : Nat} : Effect cfg s (.setBroadcastActive p)
      ({ s with net := s.net.setLayer p ((s.net.layer p).setLinks true) }.setProc p
        (s.proc p).setActive)
  | broadcast {p : Nat} {msg frame : Str} {rest : List Str} {q : Process} {s' : Sys}
      (hu : (s.proc p).unsent = msg :: rest)
      (hb : ({ s.proc p with unsent := rest }).broadcastMessage p (cfg.localizedIds p) msg =
        .ok (q, frame))
      (hs : ((s.setProc p q).record [⟨.broadcast, p, frame⟩]).bebBroadcast cfg.N p frame =
        .ok s') : Effect cfg s (.broadcastMessage p) s'
  | sendThreaded {p t : Nat} (he : (Action.sendThreaded p t).Enabled cfg.N s) :
      Effect cfg s (.sendThreaded p t) { s with net := s.net.sendThreaded p t }
  | ackThreaded {p t : Nat} (he : (Action.ackThreaded p t).Enabled cfg.N s) :
      Effect cfg s (.ackThreaded p t) { s with net := s.net.ackThreaded p t }
  | receive {p link : Nat} {f : Str} {net : Net} {up : Option Str}
      (he : (Action.receive p link f).Enabled cfg.N s)
      (hr : s.net.receive cfg.N p link f = .ok (net, up))
      (seen : ∀ msg ∈ up, msg ∈ (s.proc p).messagesDelivered) :
      Effect cfg s (.receive p link f) { s with net := net }
  | handUp {p link : Nat} {f msg : Str} {net : Net} {q : Process}
      (he : (Action.receive p link f).Enabled cfg.N s)
      (hr : s.net.receive cfg.N p link f = .ok (net, some msg))
      (hd : (s.proc p).deliver msg = .ok (q, none)) : Effect cfg s (.receive p link f)
        (({ s with net := net }.setProc p q).record [⟨.handUp, p, msg⟩])
  | relay {p link : Nat} {f msg frame : Str} {net : Net} {q : Process} {s' : Sys}
      (he : (Action.receive p link f).Enabled cfg.N s)
      (hr : s.net.receive cfg.N p link f = .ok (net, some msg))
      (hd : (s.proc p).deliver msg = .ok (q, some frame))
      (hs : (({ s with net := net }.setProc p q).record [⟨.handUp, p, msg⟩]).bebBroadcast
        cfg.N p frame = .ok s') : Effect cfg s (.receive p link f) s'
  | urbDeliverPending {p : Nat} {q : Process} {up : List Str}
      (hd : (s.proc p).urbDeliverPending cfg.N = .ok (q, up)) :
      Effect cfg s (.urbDeliverPending p)
        ((s.setProc p q).record (up.map (⟨.urbDeliver, p, ·⟩)))
  | lcbDeliverPending {p : Nat} {q : Process} {out : List Str}
      (hd : (s.proc p).lcbDeliverPending = .ok (q, out)) :
      Effect cfg s (.lcbDeliverPending p)
        ((s.setProc p q).record (out.map (⟨.lcbDeliver, p, ·⟩)))
  | crash {p : Nat} :
      Effect cfg s (.crash p) { s with crashed := Function.update s.crashed p true }

theorem step_effect {cfg : Config} {s s' : Sys} {a : Action} (h : Sys.step cfg s a = some s') :
    (1 ≤ a.proc ∧ a.proc ≤ cfg.N) ∧ s.crashed a.proc = false ∧ Effect cfg s a s' := by
  simp only [Sys.step, Option.ite_none_right_eq_some, toOption_eq_some] at h
  obtain ⟨⟨h1, hN, hcrash, he⟩, h⟩ := h
  refine ⟨⟨h1, hN⟩, hcrash, ?_⟩
  cases a with
  | setBroadcastActive p =>
    obtain rfl := Except.ok.inj h
    exact .activate
  | broadcastMessage p =>
    simp only [Sys.act, Sys.broadcastMessage] at h
    split at h
    · rename_i hu
      exact absurd hu he.2
    · rename_i msg rest hu
      simp only [bind_eq_ok] at h
      obtain ⟨⟨q, frame⟩, hb, h⟩ := h
      exact .broadcast hu hb h
  | sendThreaded p t =>
    obtain rfl := Except.ok.inj h
    exact .sendThreaded he
  | ackThreaded p t =>
    obtain rfl := Except.ok.inj h
    exact .ackThreaded he
  | receive p link f =>
    simp only [Sys.act, Sys.receive, bind_eq_ok] at h
    obtain ⟨⟨net, up⟩, hr, h⟩ := h
    cases up with
    | none =>
      obtain rfl := Except.ok.inj h
      exact .receive he hr (by simp)
    | some msg =>
      simp only [Sys.bebDeliver] at h
      split at h
      · rename_i hseen
        obtain rfl := Except.ok.inj h
        exact .receive he hr (by simpa using hseen)
      · simp only [bind_eq_ok] at h
        obtain ⟨⟨q, relay⟩, hd, h⟩ := h
        cases relay with
        | none =>
          obtain rfl := Except.ok.inj h
          exact .handUp he hr hd
        | some frame => exact .relay he hr hd h
  | urbDeliverPending p =>
    simp only [Sys.act, Sys.urbDeliverPending, bind_eq_ok] at h
    obtain ⟨⟨q, up⟩, hd, h⟩ := h
    obtain rfl := Except.ok.inj h
    exact .urbDeliverPending hd
  | lcbDeliverPending p =>
    simp only [Sys.act, Sys.lcbDeliverPending, bind_eq_ok] at h
    obtain ⟨⟨q, out⟩, hd, h⟩ := h
    obtain rfl := Except.ok.inj h
    exact .lcbDeliverPending hd
  | crash p =>
    obtain rfl := Except.ok.inj h
    exact .crash

theorem mem_others {N p t : Nat} : t ∈ Sys.others N p ↔ 1 ≤ t ∧ t ≤ N ∧ t ≠ p := by
  simp only [Sys.others, List.mem_filter, List.mem_range'_1, decide_eq_true_eq]
  omega

theorem nodup_others (N p : Nat) : (Sys.others N p).Nodup := (List.nodup_range').filter _

theorem sendAll_ok {N p : Nat} {frame : Str} {ts : List Nat} {n n' : Net} (hp : p ≤ 999)
    (hl : ∀ t ∈ ts, HasLink N p t) (h : Sys.sendAll p frame ts n = .ok n') :
    (linkMachine N).Steps (fun _ a => SenderFits a) n n' ∧
    n'.queued = n.queued ++ ts.map (fun t => (p, t, packetText p t frame)) ∧
    n'.handed = n.handed := by
  induction ts generalizing n with
  | nil =>
    obtain rfl := Except.ok.inj h
    exact ⟨.refl, by simp, rfl⟩
  | cons t ts ih =>
    simp only [Sys.sendAll, bind_eq_ok] at h
    obtain ⟨n₁, h₁, h⟩ := h
    obtain ⟨hsteps, hq, hh⟩ := ih (fun u hu => hl u (by simp [hu])) h
    have hstep : (linkMachine N).step n (.sendNewMessage p t frame) = some n₁ := by
      change Net.step N n (.sendNewMessage p t frame) = some n₁
      rw [Net.step, if_pos (hl t (by simp)), h₁]
      rfl
    have hone : n₁.queued = n.queued ++ [(p, t, packetText p t frame)] ∧ n₁.handed = n.handed := by
      simp only [Net.sendNewMessage, bind_eq_ok] at h₁
      obtain ⟨packet, hf, h₁⟩ := h₁
      obtain rfl := formatPacket_ok hf
      obtain rfl := Except.ok.inj h₁
      split <;> exact ⟨rfl, rfl⟩
    refine ⟨Machine.Steps.head (a := .sendNewMessage p t frame) hp hstep hsteps, ?_,
      hh.trans hone.2⟩
    rw [hq, hone.1]
    simp

theorem bebBroadcast_ok {N p : Nat} {frame : Str} {s s' : Sys} (hp : 1 ≤ p ∧ p ≤ N)
    (fits : p ≤ 999) (h : s.bebBroadcast N p frame = .ok s') :
    ∃ net, s' = { s with net := net, trace := s.trace ++ [⟨.beb, p, frame⟩] } ∧
      (linkMachine N).Steps (fun _ a => SenderFits a) s.net net ∧
      net.handed = s.net.handed ∧
      ∀ q t f, (q, t, f) ∈ net.queued ↔ (q, t, f) ∈ s.net.queued ∨
        HasLink N p t ∧ q = p ∧ f = packetText p t frame := by
  simp only [Sys.bebBroadcast, bind_eq_ok] at h
  obtain ⟨net, hn, h⟩ := h
  obtain rfl := Except.ok.inj h
  have hlink : ∀ t, t ∈ Sys.others N p ↔ HasLink N p t := by
    intro t
    rw [mem_others]
    omega
  obtain ⟨hsteps, hq, hh⟩ := sendAll_ok fits (fun t ht => (hlink t).mp ht) hn
  refine ⟨net, rfl, hsteps, hh, fun q t f => ?_⟩
  rw [hq, List.mem_append, List.mem_map]
  constructor
  · rintro (hin | ⟨u, hu, he⟩)
    · exact .inl hin
    · obtain ⟨rfl, rfl, rfl⟩ : p = q ∧ u = t ∧ packetText p u frame = f := by simpa using he
      exact .inr ⟨(hlink u).mp hu, rfl, rfl⟩
  · rintro (hin | ⟨hl, rfl, rfl⟩)
    · exact .inl hin
    · exact .inr ⟨t, (hlink t).mpr hl, rfl⟩

theorem receive_fits {N p link : Nat} {n n' : Net} {f msg : Str} (hl : HasLink N p link)
    (h : n.receive N p link f = .ok (n', some msg)) : p ≤ 999 := by
  simp only [Net.receive, bind_eq_ok] at h
  obtain ⟨⟨st, u⟩, hd, h⟩ := h
  obtain ⟨-, rfl⟩ := Prod.mk.inj (Except.ok.inj h)
  exact deliverThreaded_up (Ne.symm hl.2.2.2.2) hd

theorem receive_step {cfg : Config} {s : Sys} {p link : Nat} {f : Str} {net : Net}
    {up : Option Str} (he : (Action.receive p link f).Enabled cfg.N s)
    (hr : s.net.receive cfg.N p link f = .ok (net, up)) :
    (linkMachine cfg.N).Steps (fun _ a => SenderFits a) s.net net := by
  refine .single ⟨.receive p link f, trivial, ?_⟩
  refine (if_pos he).trans ?_
  rw [hr]
  rfl

theorem step_handUp {cfg : Config} {s s' : Sys} {a : Action} (hn : NetInv cfg.N s.net)
    (hstep : Sys.step cfg s a = some s') (q : Nat) :
    said .handUp q s'.trace = said .handUp q s.trace ∨
    ∃ link f, a = .receive q link f ∧ said .handUp q s'.trace = said .handUp q s.trace ++ [f] := by
  obtain ⟨hp, -, heff⟩ := step_effect hstep
  cases heff with
  | activate | sendThreaded | ackThreaded | receive | crash => exact .inl rfl
  | broadcast hu hb hs =>
    simp only [Process.broadcastMessage, bind_eq_ok] at hb
    obtain ⟨⟨l, text⟩, hl, -⟩ := hb
    obtain ⟨net, rfl, -⟩ := bebBroadcast_ok hp (broadcastMessage_ok hl).2.1 hs
    exact .inl (by simp [said])
  | @handUp p link f msg net q' he hr hd =>
    obtain ⟨rfl, -⟩ := hn.receive_up (Ne.symm he.1.2.2.2.2) he.2.2 hr
    by_cases hpq : p = q
    · exact .inr ⟨link, msg, by rw [hpq], by simp [hpq]⟩
    · exact .inl (by simp [hpq])
  | @relay p link f msg frame net q' s' he hr hd hs =>
    obtain ⟨rfl, -⟩ := hn.receive_up (Ne.symm he.1.2.2.2.2) he.2.2 hr
    obtain ⟨net, rfl, -⟩ := bebBroadcast_ok hp (receive_fits he.1 hr) hs
    by_cases hpq : p = q
    · exact .inr ⟨link, msg, by rw [hpq], by simp [said, hpq]⟩
    · exact .inl (by simp [said, hpq])
  | urbDeliverPending | lcbDeliverPending => exact .inl (by simp)

/-- Every action of the program is a run of its links. -/
theorem net_steps {cfg : Config} {s s' : Sys} {a : Action} (hs : Sys.step cfg s a = some s') :
    (linkMachine cfg.N).Steps (fun _ a => SenderFits a) s.net s'.net := by
  obtain ⟨hp, -, heff⟩ := step_effect hs
  cases heff with
  | @activate p => exact .single ⟨.setActive p true, trivial, rfl⟩
  | broadcast hu hb hs =>
    simp only [Process.broadcastMessage, bind_eq_ok] at hb
    obtain ⟨⟨l, text⟩, hl, -⟩ := hb
    obtain ⟨net, rfl, hsteps, -⟩ := bebBroadcast_ok hp (broadcastMessage_ok hl).2.1 hs
    exact hsteps
  | @sendThreaded p t he =>
    refine .single ⟨.sendThreaded p t, trivial, ?_⟩
    exact if_pos he
  | @ackThreaded p t he =>
    refine .single ⟨.ackThreaded p t, trivial, ?_⟩
    exact if_pos he
  | receive he hr seen => exact receive_step he hr
  | handUp he hr hd => exact receive_step he hr
  | relay he hr hd hs =>
    obtain ⟨net, rfl, hsteps, -⟩ := bebBroadcast_ok hp (receive_fits he.1 hr) hs
    exact (receive_step he hr).trans hsteps
  | urbDeliverPending | lcbDeliverPending | crash => exact .refl

/-- The links under the broadcasts are the links of `linkMachine`, in one of its runs. -/
theorem stack_links {cfg : Config} {s : Sys} (h : (stack cfg).Reachable s) :
    (linkMachine cfg.N).ReachableBy (fun _ a => SenderFits a) s.net :=
  h.map Sys.net rfl fun _ _ _ _ hs => net_steps hs

/-- The queues hold the frames given to BEB, and what was handed up is what the links gave. -/
structure Posted (cfg : Config) (tr : List Event) (n : Net) : Prop where
  queued : ∀ p t f, (p, t, f) ∈ n.queued ↔
    HasLink cfg.N p t ∧ ∃ frame ∈ said .beb p tr, f = packetText p t frame
  handed : ∀ p f, (p, f) ∈ n.handed ↔ f ∈ said .handUp p tr

structure Consistent (cfg : Config) (s : Sys) : Prop where
  sound : Sound (EventOk cfg) s.trace
  proc : ∀ p, Reflects cfg s.trace p (s.proc p)
  posted : Posted cfg s.trace s.net

structure StackInv (cfg : Config) (s : Sys) : Prop extends Consistent cfg s where
  sent : ∀ p, ∀ text ∈ said .broadcast p s.trace, text ∈ said .beb p s.trace
  relayed : ∀ p, ∀ f ∈ said .handUp p s.trace, 'r' :: packetKey f ∈ said .beb p s.trace

theorem Posted.append {cfg : Config} {tr es : List Event} {n : Net} (h : Posted cfg tr n)
    (hs : ∀ e ∈ es, e.kind ≠ .beb ∧ e.kind ≠ .handUp) : Posted cfg (tr ++ es) n := by
  have hnil : ∀ k p, k = .beb ∨ k = .handUp → said k p es = [] := by
    intro k p hk
    refine List.filterMap_eq_nil_iff.mpr fun e he => if_neg fun hkp => ?_
    rcases hk with rfl | rfl
    · exact (hs e he).1 hkp.1
    · exact (hs e he).2 hkp.1
  constructor
  · intro p t f
    rw [h.queued, said_append, hnil .beb p (.inl rfl), List.append_nil]
  · intro p f
    rw [h.handed, said_append, hnil .handUp p (.inr rfl), List.append_nil]

theorem Consistent.setNet {cfg : Config} {s : Sys} (h : Consistent cfg s) {n : Net}
    (hq : n.queued = s.net.queued) (hh : n.handed = s.net.handed) :
    Consistent cfg { s with net := n } where
  sound := h.sound
  proc := h.proc
  posted := ⟨fun p t f => hq ▸ h.posted.queued p t f, fun p f => hh ▸ h.posted.handed p f⟩

/-- Process `p` goes on to `q` with the events `es`; the links are as these events say. -/
theorem Consistent.record {cfg : Config} {s : Sys} (h : Consistent cfg s) {n : Net} {p : Nat}
    {q : Process} {es : List Event} (he : ∀ e ∈ es, e.proc = p)
    (hs : Sound (EventOk cfg) (s.trace ++ es)) (hq : Reflects cfg (s.trace ++ es) p q)
    (hn : Posted cfg (s.trace ++ es) n) :
    Consistent cfg (({ s with net := n }.setProc p q).record es) where
  sound := hs
  proc := by
    intro p'
    by_cases hp : p' = p
    · subst hp
      simpa using hq
    · simp only [Sys.record_trace, Sys.record_proc, Sys.setProc_trace, Sys.setProc_proc, if_neg hp]
      exact (h.proc p').others fun e hin heq => hp (heq ▸ he e hin)
  posted := hn

theorem Consistent.beb {cfg : Config} {s s' : Sys} (h : Consistent cfg s) {p : Nat} {frame : Str}
    (hp : 1 ≤ p ∧ p ≤ cfg.N) (fits : p ≤ 999) (ok : EventOk cfg s.trace ⟨.beb, p, frame⟩)
    (hs : s.bebBroadcast cfg.N p frame = .ok s') :
    Consistent cfg s' ∧ s'.trace = s.trace ++ [⟨.beb, p, frame⟩] := by
  obtain ⟨net, rfl, -, hh, hq⟩ := bebBroadcast_ok hp fits hs
  refine ⟨⟨sound_snoc.mpr ⟨h.sound, ok⟩, fun q => (h.proc q).beb p frame, ?_, ?_⟩, rfl⟩
  · intro q t f
    rw [hq, h.posted.queued, said_append, said_singleton]
    by_cases hpq : p = q
    · subst hpq
      simp only [true_and, and_self, if_true, List.mem_append, List.mem_singleton]
      grind
    · simp only [hpq, Ne.symm hpq, and_false, false_and, or_false, if_false, List.append_nil]
  · intro q f
    rw [hh, h.posted.handed]
    simp

theorem NetInv.handUpOk {cfg : Config} {s : Sys} {p link : Nat} {f msg : Str} {net : Net}
    (hn : NetInv cfg.N s.net) (h : Consistent cfg s)
    (he : (Action.receive p link f).Enabled cfg.N s)
    (hr : s.net.receive cfg.N p link f = .ok (net, some msg)) :
    EventOk cfg s.trace ⟨.handUp, p, msg⟩ := by
  obtain ⟨-, hp, hnew, u, hu⟩ := hn.receive_up (Ne.symm he.1.2.2.2.2) he.2.2 hr
  obtain ⟨hl, frame, hframe, rfl⟩ := (h.posted.queued u p msg).mp hu
  exact .handUp hl (hn.form u p _ hu).1 hp hframe fun hin => hnew ((h.posted.handed p _).mpr hin)

theorem Posted.handUp {cfg : Config} {tr : List Event} {n n' : Net} {p : Nat} {msg : Str}
    (h : Posted cfg tr n) (hq : n'.queued = n.queued)
    (hh : n'.handed = n.handed ++ [(p, msg)]) : Posted cfg (tr ++ [⟨.handUp, p, msg⟩]) n' where
  queued := by
    intro q t f
    rw [hq, h.queued]
    simp
  handed := by
    intro q f
    rw [hh, List.mem_append, h.handed, said_append, said_singleton]
    by_cases hpq : p = q
    · subst hpq
      simp
    · simp [hpq, Ne.symm hpq]

/-- A packet was handed up: what it leads to, before its relay. -/
theorem Consistent.handUp {cfg : Config} {s : Sys} {p link : Nat} {f msg : Str} {net : Net}
    {q : Process} {relay : Option Str} (h : Consistent cfg s) (hn : NetInv cfg.N s.net)
    (he : (Action.receive p link f).Enabled cfg.N s)
    (hr : s.net.receive cfg.N p link f = .ok (net, some msg))
    (hd : (s.proc p).deliver msg = .ok (q, relay)) :
    Consistent cfg (({ s with net := net }.setProc p q).record [⟨.handUp, p, msg⟩]) := by
  obtain ⟨hq, hh⟩ := Net.receive_ok hr
  exact h.record (by simp) (sound_snoc.mpr ⟨h.sound, hn.handUpOk h he hr⟩)
    ((h.proc p).handUp hd).1 (h.posted.handUp hq hh)

theorem StackInv.activate {cfg : Config} {s : Sys} (h : StackInv cfg s) (p : Nat) :
    StackInv cfg ({ s with net := s.net.setLayer p ((s.net.layer p).setLinks true) }.setProc p
      (s.proc p).setActive) := by
  have hc := h.toConsistent.setNet (n := s.net.setLayer p ((s.net.layer p).setLinks true)) rfl rfl
  refine ⟨⟨h.sound, fun p' => ?_, hc.posted⟩, h.sent, h.relayed⟩
  by_cases hpp : p' = p
  · subst hpp
    simpa using (h.proc p').setActive
  · simpa [hpp] using h.proc p'

theorem StackInv.broadcast {cfg : Config} {s s' : Sys} (h : StackInv cfg s) {p : Nat}
    (hp : 1 ≤ p ∧ p ≤ cfg.N) {msg frame : Str} {rest : List Str} {q : Process}
    (hu : (s.proc p).unsent = msg :: rest)
    (hb : ({ s.proc p with unsent := rest }).broadcastMessage p (cfg.localizedIds p) msg =
      .ok (q, frame))
    (hs : ((s.setProc p q).record [⟨.broadcast, p, frame⟩]).bebBroadcast cfg.N p frame = .ok s') :
    StackInv cfg s' := by
  obtain ⟨ok, hq⟩ := (h.proc p).broadcast hp hu hb
  have hc := h.toConsistent.record (by simp) (sound_snoc.mpr ⟨h.sound, ok⟩) hq
    (h.posted.append (by simp))
  obtain ⟨msg', ho⟩ := ok.origin
  obtain ⟨hc', htr⟩ := hc.beb hp ho.fits (.own (by simp)) hs
  rw [Sys.record_trace, Sys.setProc_trace] at htr
  refine ⟨hc', fun p' text ht => ?_, fun p' f hf => ?_⟩
  · simp only [htr, mem_said_snoc, true_and, reduceCtorEq, false_and, or_false] at ht ⊢
    exact ht.imp (h.sent p' text) id
  · simp only [htr, mem_said_snoc, reduceCtorEq, false_and, or_false] at hf ⊢
    exact .inl (h.relayed p' f hf)

theorem StackInv.notSeen {cfg : Config} {s : Sys} (hn : NetInv cfg.N s.net) (h : StackInv cfg s)
    {p link : Nat} {f msg : Str} {net : Net} (he : (Action.receive p link f).Enabled cfg.N s)
    (hr : s.net.receive cfg.N p link f = .ok (net, some msg)) :
    msg ∉ (s.proc p).messagesDelivered := by
  obtain ⟨-, -, hnew, -⟩ := hn.receive_up (Ne.symm he.1.2.2.2.2) he.2.2 hr
  rw [(h.proc p).seen]
  exact fun hseen => hnew ((h.posted.handed p msg).mpr hseen)

theorem StackInv.handUp {cfg : Config} {s : Sys} (hn : NetInv cfg.N s.net) (h : StackInv cfg s)
    {p link : Nat} {f msg : Str} {net : Net} {q : Process}
    (he : (Action.receive p link f).Enabled cfg.N s)
    (hr : s.net.receive cfg.N p link f = .ok (net, some msg))
    (hd : (s.proc p).deliver msg = .ok (q, none)) :
    StackInv cfg (({ s with net := net }.setProc p q).record [⟨.handUp, p, msg⟩]) := by
  have hc := h.toConsistent.handUp hn he hr hd
  have hsound : Sound (EventOk cfg) (s.trace ++ [⟨.handUp, p, msg⟩]) := hc.sound
  refine ⟨hc, fun p' text ht => ?_, fun p' g hg => ?_⟩
  · simp only [Sys.record_trace, Sys.setProc_trace, mem_said_snoc, reduceCtorEq, false_and,
      or_false] at ht ⊢
    exact h.sent p' text ht
  · simp only [Sys.record_trace, Sys.setProc_trace, mem_said_snoc, true_and, reduceCtorEq,
      false_and, or_false] at hg ⊢
    rcases hg with hg | ⟨rfl, rfl⟩
    · exact h.relayed p' g hg
    · -- no relay: the key was pending, so another packet of that key came before
      have hin : packetKey g ∈ (s.proc p).urb.pending := by
        by_contra hnot
        have hrelay := ((h.proc p).handUp hd).2
        rw [if_neg hnot] at hrelay
        cases hrelay
      rcases ((h.proc p).pending _).mp hin with hown | hother
      · have hk : Known _ (packetKey g) :=
          handUp_known hsound (mem_said_snoc.mpr (.inr ⟨⟨rfl, rfl⟩, rfl⟩))
        exact absurd hk (broadcast_ne_key hsound (mem_said_snoc.mpr (.inl hown)))
      · obtain ⟨x, hx, hxk⟩ := List.mem_map.mp hother
        exact hxk ▸ h.relayed p x hx

theorem StackInv.relay {cfg : Config} {s s' : Sys} (hn : NetInv cfg.N s.net) (h : StackInv cfg s)
    {p link : Nat} (hp : 1 ≤ p ∧ p ≤ cfg.N) {f msg frame : Str} {net : Net} {q : Process}
    (he : (Action.receive p link f).Enabled cfg.N s)
    (hr : s.net.receive cfg.N p link f = .ok (net, some msg))
    (hd : (s.proc p).deliver msg = .ok (q, some frame))
    (hs : (({ s with net := net }.setProc p q).record [⟨.handUp, p, msg⟩]).bebBroadcast
      cfg.N p frame = .ok s') : StackInv cfg s' := by
  have hc := h.toConsistent.handUp hn he hr hd
  have hframe : frame = 'r' :: packetKey msg := by
    have hrelay := ((h.proc p).handUp hd).2
    split at hrelay
    · cases hrelay
    · exact Option.some.inj hrelay
  subst hframe
  obtain ⟨hc', htr⟩ := hc.beb hp (receive_fits he.1 hr) (.relay (by simp)) hs
  rw [Sys.record_trace, Sys.setProc_trace] at htr
  refine ⟨hc', fun p' text ht => ?_, fun p' g hg => ?_⟩
  · simp only [htr, mem_said_snoc, reduceCtorEq, false_and, or_false] at ht ⊢
    exact .inl (h.sent p' text ht)
  · simp only [htr, mem_said_snoc, true_and, reduceCtorEq, false_and, or_false] at hg ⊢
    rcases hg with hg | ⟨rfl, rfl⟩
    · exact .inl (h.relayed p' g hg)
    · exact .inr ⟨rfl, rfl⟩

theorem stackInv_step {cfg : Config} {s s' : Sys} {a : Action} (hn : NetInv cfg.N s.net)
    (h : StackInv cfg s) (hs : Sys.step cfg s a = some s') : StackInv cfg s' := by
  obtain ⟨hp, -, heff⟩ := step_effect hs
  cases heff with
  | @activate p => exact h.activate p
  | broadcast hu hb hs => exact h.broadcast hp hu hb hs
  | sendThreaded he => exact ⟨h.toConsistent.setNet rfl rfl, h.sent, h.relayed⟩
  | ackThreaded he => exact ⟨h.toConsistent.setNet rfl rfl, h.sent, h.relayed⟩
  | @receive p link f net up he hr seen =>
    obtain ⟨hq, hh⟩ := Net.receive_ok hr
    cases up with
    | none => exact ⟨h.toConsistent.setNet hq (by simpa using hh), h.sent, h.relayed⟩
    | some msg => exact absurd (seen msg rfl) (h.notSeen hn he hr)
  | handUp he hr hd => exact h.handUp hn he hr hd
  | relay he hr hd hs => exact h.relay hn hp he hr hd hs
  | urbDeliverPending hd =>
    obtain ⟨hsound, hq⟩ := (h.proc _).urbDeliverPending h.sound hd
    have hc := h.toConsistent.record (by simp) hsound hq (h.posted.append (by simp))
    exact ⟨hc, by simpa using h.sent, by simpa using h.relayed⟩
  | lcbDeliverPending hd =>
    obtain ⟨hsound, hq⟩ := (h.proc _).lcbDeliverPending h.sound hd
    have hc := h.toConsistent.record (by simp) hsound hq (h.posted.append (by simp))
    exact ⟨hc, by simpa using h.sent, by simpa using h.relayed⟩
  | crash => exact ⟨⟨h.sound, h.proc, h.posted⟩, h.sent, h.relayed⟩

theorem stackInv_start (cfg : Config) : StackInv cfg (Sys.start cfg) where
  sound := sound_nil _
  proc := by
    intro p
    constructor <;> simp [Sys.start, Process.start, logEntries]
    funext z
    rfl
  posted := by constructor <;> simp [Sys.start, Net.start]
  sent := by simp [Sys.start]
  relayed := by simp [Sys.start]

theorem stackInv_reachable {cfg : Config} {s : Sys} (h : (stack cfg).Reachable s) :
    StackInv cfg s := by
  have hboth : NetInv cfg.N s.net ∧ StackInv cfg s :=
    h.invariant (fun s => NetInv cfg.N s.net ∧ StackInv cfg s)
      ⟨netInv_start cfg.N, stackInv_start cfg⟩
      fun s a s' hi hs => ⟨hi.1.steps (net_steps hs), stackInv_step hi.1 hi.2 hs⟩
  exact hboth.2

end DecentralizedBroadcast
