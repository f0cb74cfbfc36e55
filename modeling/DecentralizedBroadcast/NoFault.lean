import DecentralizedBroadcast.AnyLink
import DecentralizedBroadcast.LcbCalls
import DecentralizedBroadcast.OutputValid

/-! No process is killed by its own messages. What the numbers are read from and what
the texts are cut from has one shape in every queue, map and log, on the wire and behind any
number of relays. -/
set_option autoImplicit false

namespace DecentralizedBroadcast
open History

/-- If the call fails at all, then because a packet is too long for its array. -/
def FaultFree {α : Type} (x : Except Fault α) : Prop := ∀ e, x = .error e → e = .bufferOverflow

theorem FaultFree.of_ok {α : Type} {x : Except Fault α} {a : α} (h : x = .ok a) : FaultFree x := by
  intro e he
  rw [h] at he
  cases he

/-- A datagram to `t`: a data packet for `t`, or the ack of one that `t` sent. -/
def PacketShape (N t : Nat) (f : Str) : Prop :=
  ∃ c sender target body, f = c :: (pad3 sender ++ (pad3 target ++ body)) ∧
    HasLink N sender target ∧ ((c = '0' ∧ target = t) ∨ (c = '1' ∧ sender = t))

/-- A key as LCB takes it apart: the id of its origin, a batch, a clock over the processes. -/
def KeyShape (N : Nat) (k : Str) : Prop :=
  ∃ x batch es, k = messageKey x (batch ++ clockText es) ∧ (1 ≤ x ∧ x ≤ N) ∧ 'v' ∉ batch ∧
    es ≠ [] ∧ ∀ e ∈ es, (1 ≤ e.1 ∧ e.1 ≤ N) ∧ 0 ≤ e.2 ∧ e.2 ≤ intMax

theorem KeyShape.readable {N : Nat} (hN : N ≤ 999) {k : Str} (h : KeyShape N k) : Readable k := by
  obtain ⟨x, batch, es, rfl, hx, hv, hes, hall⟩ := h
  refine readable_messageKey (by omega) hv hes fun e he => ?_
  obtain ⟨⟨h1, hle⟩, hcount⟩ := hall e he
  exact ⟨fitsId_int (by omega) (by omega), hcount⟩

def DependsOnProcesses (cfg : Config) : Prop :=
  ∀ p, 1 ≤ p ∧ p ≤ cfg.N → ∀ d ∈ cfg.localizedIds p, 1 ≤ d ∧ d ≤ cfg.N

theorem DependsOnProcesses.fitsId {cfg : Config} (hd : DependsOnProcesses cfg) (hN : cfg.N ≤ 999)
    {p : Nat} (hp : 1 ≤ p ∧ p ≤ cfg.N) : ∀ d ∈ cfg.localizedIds p, FitsId d := by
  intro d hin
  obtain ⟨h1, hle⟩ := hd p hp d hin
  exact fitsId_int (by omega) (by omega)

theorem Known.keyShape {cfg : Config} (hd : DependsOnProcesses cfg) {tr : List Event}
    (h : Sound (EventOk cfg) tr) {k : Str} (hk : Known tr k) : KeyShape cfg.N k := by
  obtain ⟨x, text, ht, rfl⟩ := hk
  obtain ⟨past, rest, batch, rfl, ho⟩ := broadcast_origin h ht
  refine ⟨x, batch, _, congrArg _ ho.eq, ho.id, ho.notMem_marker, clockEntries_ne_nil _ _ _ _,
    fun e he => ⟨?_, (ho.entryFits h.past e he).2⟩⟩
  rcases List.mem_append.mp he with he | he
  · obtain ⟨d, hin, rfl⟩ := List.mem_map.mp he
    exact hd x ho.id d hin
  · obtain rfl := List.mem_singleton.mp he
    have := ho.id
    omega

section Wire
variable {N t : Nat} {n : Net} {f : Str}

theorem NetInv.packetShape (h : NetInv N n) (hw : (t, f) ∈ n.wire) : PacketShape N t f := by
  rcases h.onWire t f hw with ⟨p, hq⟩ | ⟨u, d, rfl, hq, -⟩
  · obtain ⟨-, hl, msg, rfl⟩ := h.form p t f hq
    exact ⟨'0', p, t, cStr msg, rfl, hl, .inl ⟨rfl, rfl⟩⟩
  · obtain ⟨-, hl, msg, hd⟩ := h.form t u _ hq
    obtain rfl := (List.cons.inj hd).2
    exact ⟨'1', t, u, cStr msg, rfl, hl, .inr ⟨rfl, rfl⟩⟩

theorem PacketShape.receive (hN : N ≤ 999) (h : PacketShape N t f) {link : Nat}
    (hl : HasLink N t link) (n : Net) : ∃ n' up, n.receive N t link f = .ok (n', up) := by
  obtain ⟨c, sender, target, body, rfl, hst, -⟩ := h
  have hspells : Spells N (pad3 sender ++ (pad3 target ++ body)) sender target :=
    spells_pad3 ⟨hst.1, hst.2.1⟩ ⟨hst.2.2.1, hst.2.2.2.1⟩ hN body
  obtain ⟨st, up, hok, -⟩ :=
    deliverThreaded_handled (n.layer t) c hspells (Ne.symm hl.2.2.2.2)
  exact ⟨_, up, bind_eq_ok.mpr ⟨_, hok, rfl⟩⟩

end Wire

/-- The key of a packet in a queue is that of a broadcast, and URB can cut it out. -/
theorem Consistent.queuedFrame {cfg : Config} {s : Sys} (h : Consistent cfg s) (hN : cfg.N ≤ 999)
    {p t : Nat} {f : Str} (hq : (p, t, f) ∈ s.net.queued) :
    FrameFits f ∧ Known s.trace (packetKey f) := by
  obtain ⟨hl, frame, hframe, rfl⟩ := (h.posted.queued p t f).mp hq
  have hp : p ≤ 999 := Nat.le_trans hl.2.1 hN
  have ht : t ≤ 999 := Nat.le_trans hl.2.2.2.1 hN
  have hpay := packetText_payload hp ht frame
  have hlong : 7 ≤ (packetText p t frame).length := by
    simp only [packetText, List.length_cons, List.length_append, pad3_length hp, pad3_length ht]
    omega
  rcases beb_cases h.sound hframe with hown | ⟨g, hg, rfl⟩
  · have hplain := broadcast_plain h.sound hown
    rw [packetKey_own hp ht hplain]
    refine ⟨⟨hlong, fun hr => ?_⟩, p, frame, hown, rfl⟩
    rw [← List.head?_drop, hpay, hplain.cStr] at hr
    exact absurd rfl (hplain 'r' (List.mem_of_head? hr)).1
  · have hk := handUp_known h.sound hg
    have hplain := hk.plain h.sound
    rw [packetKey_relay hp ht hplain]
    refine ⟨⟨hlong, fun _ => ?_⟩, hk⟩
    obtain ⟨x, text, -, hkey⟩ := hk
    have hrest := congrArg List.length (hpay.trans (cStr_relay hplain))
    have hid := three_le_pad3_length x
    rw [hkey, messageKey, List.length_drop, List.length_cons, List.length_append] at hrest
    rw [hkey, messageKey]
    omega

theorem Readable.deliver_total {msg : Str} (h : Readable msg) (l : Lcb) :
    ∃ l', l.deliver msg = .ok l' := by
  obtain ⟨t, ht, hw⟩ := bind_eq_ok.mp h.clock
  rw [Lcb.deliver]
  split
  · exact ⟨_, bind_eq_ok.mpr ⟨t, ht, bind_eq_ok.mpr ⟨_, hw, rfl⟩⟩⟩
  · exact ⟨l, rfl⟩

theorem deliverAll_total {up : List Str} (h : ∀ k ∈ up, Readable k) (l : Lcb) :
    ∃ l', deliverAll up l = .ok l' := by
  induction up generalizing l with
  | nil => exact ⟨l, rfl⟩
  | cons k up ih =>
    obtain ⟨l₁, h₁⟩ := (h k (by simp)).deliver_total l
    obtain ⟨l₂, h₂⟩ := ih (fun x hx => h x (by simp [hx])) l₁
    exact ⟨l₂, bind_eq_ok.mpr ⟨l₁, h₁, h₂⟩⟩

theorem deliverLoop_total {es : List (Str × VectorClock)} (h : ∀ e ∈ es, Readable e.1) (l : Lcb) :
    ∃ l' out, Lcb.deliverLoop es l = .ok (l', out) := by
  induction es generalizing l with
  | nil => exact ⟨l, [], rfl⟩
  | cons e es ih =>
    obtain ⟨msg, w⟩ := e
    have hes : ∀ e ∈ es, Readable e.1 := fun e he => h e (by simp [he])
    by_cases hready : Lcb.isInferior l.vc w = true
    · obtain ⟨l', out, hrest⟩ := ih hes _
      obtain ⟨entry, -, hok⟩ := deliverLoop_cons (h (msg, w) (by simp)) hready hrest
      exact ⟨l', _, hok⟩
    · obtain ⟨l', out, hrest⟩ := ih hes l
      refine ⟨l', out, ?_⟩
      rw [Lcb.deliverLoop, if_neg hready, hrest]

theorem bebBroadcast_faultFree (s : Sys) (N p : Nat) (frame : Str) :
    FaultFree (s.bebBroadcast N p frame) := by
  have hall : ∀ ts n, FaultFree (Sys.sendAll p frame ts n) := by
    intro ts
    induction ts with
    | nil => exact fun _ => .of_ok rfl
    | cons t ts ih =>
      intro n
      by_cases hfit : (packetText p t frame).length + 2 ≤ maxLength
      · rw [Sys.sendAll, Net.sendNewMessage, formatPacket, if_pos hfit]
        exact ih _
      · rw [Sys.sendAll, Net.sendNewMessage, formatPacket, if_neg hfit]
        exact fun e he => (Except.error.inj he).symm
  cases hn : Sys.sendAll p frame (Sys.others N p) s.net with
  | ok n => exact .of_ok (bind_eq_ok.mpr ⟨n, hn, rfl⟩)
  | error e =>
    rw [Sys.bebBroadcast, hn]
    exact fun e' he => Except.error.inj he ▸ hall _ _ e hn

theorem Process.broadcastMessage_total {p : Nat} (hp : p ≤ 999) {ds : List Int}
    (h : ∀ d ∈ ds, FitsId d) (q : Process) (msg : Str) : ∃ q', q.broadcastMessage p ds msg =
      .ok (q', msg ++ clockText (clockEntries q.lcb.vc ds p q.lcb.lsn)) := by
  rw [Process.broadcastMessage, DecentralizedBroadcast.broadcastMessage_eq hp h]
  exact ⟨_, rfl⟩

/-- What an action hands to BEB: main's next message with its clock, or the relay of a key. -/
inductive Sends (cfg : Config) (s : Sys) : Action → Str → Prop where
  | own {p : Nat} {msg frame : Str} {rest : List Str} {q : Process}
      (next : (s.proc p).unsent = msg :: rest)
      (built : ({ s.proc p with unsent := rest }).broadcastMessage p (cfg.localizedIds p) msg =
        .ok (q, frame)) : Sends cfg s (.broadcastMessage p) frame
  | relay {p link : Nat} {f k : Str} (known : Known s.trace k) :
      Sends cfg s (.receive p link f) ('r' :: k)

/-- What the threads of `p` call in the state `s` does not throw, and works on such texts. -/
structure NoFault (cfg : Config) (s : Sys) (p : Nat) : Prop where
  /-- `deliverThreaded` on any link, and URB's `deliver` of what it hands up. -/
  received : ∀ link f, HasLink cfg.N p link → (p, f) ∈ s.net.wire → PacketShape cfg.N p f ∧
    ∃ net up, s.net.receive cfg.N p link f = .ok (net, up) ∧
      ∀ msg ∈ up, KeyShape cfg.N (packetKey msg) ∧
        ∃ q relay, (s.proc p).deliver msg = .ok (q, relay)
  /-- A pass of URB, with LCB's `deliver` and `constructVC` of what it hands up. -/
  urbPass : ∃ q up, (s.proc p).urbDeliverPending cfg.N = .ok (q, up) ∧ ∀ k ∈ up, KeyShape cfg.N k
  lcbPass : (∀ e ∈ (s.proc p).lcb.pairs.entries, KeyShape cfg.N e.1) ∧
    ∃ q out, (s.proc p).lcbDeliverPending = .ok (q, out)
  /-- `deconcatMessages` and `writeOutput`, whenever the process is stopped. -/
  output : ∀ log, log <+: (s.proc p).processLog →
    ∃ (es : List Entry) (out : Str), log = es.map Entry.text ∧ (∀ e ∈ es, e.Fits) ∧
      stop log = .ok out
  acts : ∀ a, a.proc = p → a.Enabled cfg.N s → FaultFree (s.act cfg a)

section Reached
variable {cfg : Config} {s : Sys} (hN : cfg.N ≤ 999) (hd : DependsOnProcesses cfg)
  (hn : NetInv cfg.N s.net) (h : StackInv cfg s)
include hd h

theorem StackInv.pairShape {p : Nat} {e : Str × VectorClock}
    (he : e ∈ (s.proc p).lcb.pairs.entries) : KeyShape cfg.N e.1 :=
  (urbDeliver_known h.sound ((h.proc p).pairs e.1 e.2 |>.mp he).1).keyShape hd h.sound

include hN

theorem StackInv.urbPass (p : Nat) : ∃ q up, (s.proc p).urbDeliverPending cfg.N = .ok (q, up) ∧
    ∀ k ∈ up, KeyShape cfg.N k := by
  cases hu : (s.proc p).urb.deliverPending cfg.N with
  | mk u up =>
    obtain ⟨-, -, -, -, hall⟩ := urb_deliverLoop hu
    have hshape : ∀ k ∈ up, KeyShape cfg.N k := by
      intro k hk
      have hv := ((h.proc p).canDeliver cfg.N k).mp ((hall k).mp hk).2.1
      exact (known_of_votes h.sound (Nat.zero_lt_of_lt hv)).keyShape hd h.sound
    obtain ⟨l, hl⟩ := deliverAll_total (fun k hk => (hshape k hk).readable hN) (s.proc p).lcb
    refine ⟨{ s.proc p with urb := u, lcb := l }, up, ?_, hshape⟩
    rw [Process.urbDeliverPending, hu]
    exact bind_eq_ok.mpr ⟨l, hl, rfl⟩

theorem StackInv.lcbPass (p : Nat) : ∃ q out, (s.proc p).lcbDeliverPending = .ok (q, out) := by
  obtain ⟨l, out, hl⟩ := deliverLoop_total (fun e he => (h.pairShape hd he).readable hN)
    (s.proc p).lcb
  exact ⟨_, _, bind_eq_ok.mpr ⟨_, hl, rfl⟩⟩

include hn

theorem StackInv.received {p link : Nat} {f : Str} (hl : HasLink cfg.N p link)
    (hw : (p, f) ∈ s.net.wire) : ∃ net up, s.net.receive cfg.N p link f = .ok (net, up) ∧
      ∀ msg ∈ up, KeyShape cfg.N (packetKey msg) ∧
        ∃ q relay, (s.proc p).deliver msg = .ok (q, relay) := by
  obtain ⟨net, up, hok⟩ := (hn.packetShape hw).receive hN hl s.net
  refine ⟨net, up, hok, fun msg hmsg => ?_⟩
  obtain rfl := Option.mem_def.mp hmsg
  obtain ⟨-, -, -, sender, hq⟩ := hn.receive_up (Ne.symm hl.2.2.2.2) hw hok
  obtain ⟨hfits, hk⟩ := h.queuedFrame hN hq
  obtain ⟨u, relay, hu⟩ := urbDeliver_total hfits (s.proc p).urb
  exact ⟨hk.keyShape hd h.sound, _, relay, bind_eq_ok.mpr ⟨_, hu, rfl⟩⟩

/-- An action succeeds, or it goes as BEB's broadcast of a frame goes. -/
theorem StackInv.act_cases {a : Action} (hp : 1 ≤ a.proc ∧ a.proc ≤ cfg.N)
    (he : a.Enabled cfg.N s) : (∃ s', s.act cfg a = .ok s') ∨
      ∃ (s₁ : Sys) (frame : Str), Sends cfg s a frame ∧
        s.act cfg a = s₁.bebBroadcast cfg.N a.proc frame := by
  cases a with
  | setBroadcastActive p | sendThreaded p t | ackThreaded p t | crash p => exact .inl ⟨_, rfl⟩
  | broadcastMessage p =>
    obtain ⟨msg, rest, hu⟩ := List.exists_cons_of_ne_nil he.2
    change 1 ≤ p ∧ p ≤ cfg.N at hp
    obtain ⟨q, hb⟩ := Process.broadcastMessage_total (Nat.le_trans hp.2 hN) (hd.fitsId hN hp)
      { s.proc p with unsent := rest } msg
    generalize msg ++ _ = frame at hb
    refine .inr ⟨(s.setProc p q).record [⟨.broadcast, p, frame⟩], frame, .own hu hb, ?_⟩
    simp only [Sys.act, Sys.broadcastMessage, hu, hb]
    rfl
  | receive p link f =>
    obtain ⟨net, up, hok, hup⟩ := h.received hN hd hn he.1 he.2.2
    simp only [Sys.act, Sys.receive, hok, bind, Except.bind]
    cases up with
    | none => exact .inl ⟨_, rfl⟩
    | some msg =>
      obtain ⟨-, -, -, sender, hq⟩ := hn.receive_up (Ne.symm he.1.2.2.2.2) he.2.2 hok
      obtain ⟨-, q, relay, hdel⟩ := hup msg rfl
      simp only [Sys.bebDeliver]
      split
      · exact .inl ⟨_, rfl⟩
      · simp only [hdel, bind, Except.bind]
        cases relay with
        | none => exact .inl ⟨_, rfl⟩
        | some frame =>
          have hrelay := ((h.proc p).handUp hdel).2
          split at hrelay
          · cases hrelay
          · obtain rfl := Option.some.inj hrelay
            exact .inr ⟨_, _, .relay (h.queuedFrame hN hq).2, rfl⟩
  | urbDeliverPending p =>
    obtain ⟨q, up, hok, -⟩ := h.urbPass hN hd p
    exact .inl ⟨_, bind_eq_ok.mpr ⟨_, hok, rfl⟩⟩
  | lcbDeliverPending p =>
    obtain ⟨q, out, hok⟩ := h.lcbPass hN hd p
    exact .inl ⟨_, bind_eq_ok.mpr ⟨_, hok, rfl⟩⟩

end Reached

/-- In no run does a process throw: not in its threads, and not when it is stopped. -/
theorem run_no_fault (cfg : Config) (hN : cfg.N ≤ 999) (hd : DependsOnProcesses cfg) (s : Sys)
    (hr : (stack cfg).Reachable s) (p : Nat) (hp : 1 ≤ p ∧ p ≤ cfg.N) : NoFault cfg s p := by
  have h := stackInv_reachable hr
  have hn := netInv_reachableBy (stack_links hr)
  refine ⟨fun link f hl hw => ⟨hn.packetShape hw, h.received hN hd hn hl hw⟩, h.urbPass hN hd p,
    ⟨fun _ => h.pairShape hd, h.lcbPass hN hd p⟩, fun log hlog => ?_, ?_⟩
  · obtain ⟨groups, hg⟩ := exists_groups cfg
    obtain ⟨es, hes⟩ := exists_logged hg h.sound p
    rw [hes.processLog hg (h.proc p)] at hlog
    obtain ⟨es', hpre, rfl⟩ := List.prefix_map_iff.mp hlog
    have hfits : ∀ e ∈ es', e.Fits := fun e he => hes.fits e (hpre.subset he)
    exact ⟨es', _, rfl, hfits, stop_text hfits⟩
  · rintro a rfl he
    rcases h.act_cases hN hd hn hp he with ⟨s', hok⟩ | ⟨s₁, frame, -, hbeb⟩
    · exact .of_ok hok
    · rw [hbeb]
      exact bebBroadcast_faultFree s₁ cfg.N a.proc frame

theorem trio_depends : DependsOnProcesses trio := by
  intro p hp d hin
  have hp2 : p = 2 := by
    by_contra hne
    simp [trio, hne] at hin
  subst hp2
  obtain rfl := List.mem_singleton.mp hin
  decide

theorem run_no_fault_trio : NoFault trio ((stack trio).after trioDelivered) 3 :=
  run_no_fault trio (by decide) trio_depends _ (Machine.reachable_after _ trioDelivered) 3
    (by decide)

end DecentralizedBroadcast
