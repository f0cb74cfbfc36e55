import DecentralizedBroadcast.Retransmission
import DecentralizedBroadcast.Lib.InfiniteRun

/-! Runs of the program that never end and in which no thread starves and no packet is lost each
time it is sent. Whatever a run with room did so far, it can go on as such a run. -/
set_option autoImplicit false

namespace DecentralizedBroadcast
open Filter

abbrev EndlessRun (cfg : Config) := (stack cfg).InfiniteRun (stack cfg).init

def Correct (cfg : Config) (r : EndlessRun cfg) (p : Nat) : Prop :=
  ∀ j, p ∈ live cfg.N (r.state j)

/-- The threads of correct processes take turn after turn, and of a packet that is sent to a
correct process again and again, copies come through again and again, on some link. A delivery
pass is a round that reads `active` anew. That such rounds recur is an assumption: `active` is a
plain bool, and a compiler may have the thread read it once and spin. -/
structure Fair (cfg : Config) (r : EndlessRun cfg) : Prop where
  sends : ∀ p t, Correct cfg r p → Correct cfg r t → p ≠ t →
    ∃ᶠ j in atTop, r.action j = .sendThreaded p t
  arrives : ∀ p t f, Correct cfg r t →
    (∃ᶠ j in atTop, r.action j = .sendThreaded p t ∧ f ∈ (r.state j).net.queueOf p t) →
    ∃ᶠ j in atTop, ∃ link, r.action j = .receive t link f
  urbPasses : ∀ p, Correct cfg r p → ∃ᶠ j in atTop, r.action j = .urbDeliverPending p
  lcbPasses : ∀ p, Correct cfg r p → ∃ᶠ j in atTop, r.action j = .lcbDeliverPending p

/-- What the threads of the live processes do in turn when nothing is received. -/
def passes (N : Nat) (s : Sys) : List Action :=
  ((List.range' 1 N).filter (· ∈ live N s)).flatMap fun p =>
    .urbDeliverPending p :: .lcbDeliverPending p ::
      ((List.range' 1 N).filter fun t => t ∈ live N s ∧ p ≠ t).map (.sendThreaded p ·)

inductive IsPass (N : Nat) (s : Sys) : Action → Prop where
  | urb {p : Nat} (hp : p ∈ live N s) : IsPass N s (.urbDeliverPending p)
  | lcb {p : Nat} (hp : p ∈ live N s) : IsPass N s (.lcbDeliverPending p)
  | send {p t : Nat} (hp : p ∈ live N s) (ht : t ∈ live N s) (hne : p ≠ t) :
      IsPass N s (.sendThreaded p t)

theorem mem_passes {N : Nat} {s : Sys} {a : Action} : a ∈ passes N s ↔ IsPass N s a := by
  simp only [passes, List.mem_flatMap, List.mem_filter, decide_eq_true_eq, List.mem_cons,
    List.mem_map]
  constructor
  · rintro ⟨p, ⟨-, hp⟩, rfl | rfl | ⟨t, ⟨-, ht, hne⟩, rfl⟩⟩
    · exact .urb hp
    · exact .lcb hp
    · exact .send hp ht hne
  · intro h
    cases h with
    | urb hp => exact ⟨_, ⟨mem_ids hp, hp⟩, .inl rfl⟩
    | lcb hp => exact ⟨_, ⟨mem_ids hp, hp⟩, .inr (.inl rfl)⟩
    | send hp ht hne => exact ⟨_, ⟨mem_ids hp, hp⟩, .inr (.inr ⟨_, ⟨mem_ids ht, ht, hne⟩, rfl⟩)⟩

theorem urb_deliverLoop_nothing {N : Nat} {rest : List Str} {u : Urb}
    (h : (Urb.deliverLoop N rest u).2 = []) : Urb.deliverLoop N rest u = (u, []) := by
  induction rest with
  | nil => rfl
  | cons msg rest ih =>
    rw [Urb.deliverLoop] at h ⊢
    split at h
    · cases h
    · rename_i hnot
      rw [if_neg hnot]
      exact ih h

theorem UrbIdle.pass {N : Nat} {q : Process} (h : UrbIdle N q) :
    q.urbDeliverPending N = .ok (q, []) := by
  rw [Process.urbDeliverPending, Urb.deliverPending, urb_deliverLoop_nothing h]
  rfl

theorem LcbIdle.pass {q : Process} (h : LcbIdle q) : q.lcbDeliverPending = .ok (q, []) :=
  lcbDeliverPending_of_notReady (lcbIdle_iff.mp h)

theorem record_self (s : Sys) (p : Nat) : (s.setProc p (s.proc p)).record [] = s := by
  rw [Sys.record, Sys.setProc, Function.update_eq_self, List.append_nil]

theorem Silent.idle {cfg : Config} {s₀ s : Sys} (h : Silent cfg s₀ s) {a : Action}
    (ha : IsPass cfg.N s₀ a) : (stack cfg).step s a = some s := by
  have hlive := h.calm.live_eq
  cases ha with
  | @urb p hp =>
    refine step_of_act (hlive.symm ▸ hp) (h.running p hp).urb ?_
    have hpass := (h.rest.urb p (hlive.symm ▸ hp)).pass
    exact bind_eq_ok.mpr ⟨_, hpass, congrArg Except.ok (record_self s p)⟩
  | @lcb p hp =>
    refine step_of_act (hlive.symm ▸ hp) (h.running p hp).lcb ?_
    have hpass := (h.rest.lcb p (hlive.symm ▸ hp)).pass
    exact bind_eq_ok.mpr ⟨_, hpass, congrArg Except.ok (record_self s p)⟩
  | @send p t hp ht hne =>
    obtain ⟨⟨hp₁, hpN⟩, -⟩ := mem_live.mp hp
    obtain ⟨⟨ht₁, htN⟩, -⟩ := mem_live.mp ht
    refine step_of_act (hlive.symm ▸ hp) ⟨⟨hp₁, hpN, ht₁, htN, hne⟩, (h.running p hp).links t⟩ ?_
    have hqueue : ((s.net.layer p).links t).messagesToSend = [] := h.queues p hp t ht hne
    have hnone : s.net.sendThreaded p t = s.net := by
      rw [Net.sendThreaded, hqueue, Net.send, List.map_nil, List.append_nil]
    rw [Sys.act, hnone]
    rfl

theorem live_anti {cfg : Config} {allowed : Sys → Action → Prop} {s s' : Sys}
    (h : (stack cfg).Steps allowed s s') : live cfg.N s' ⊆ live cfg.N s := by
  intro p hp
  obtain ⟨hid, hup⟩ := mem_live.mp hp
  refine mem_live.mpr ⟨hid, ?_⟩
  by_contra hc
  have hdown := h.invariant (fun x => x.crashed p = true)
    (fun x a x' hx _ hs => (step_crashed_true hs hx).2) (by simpa using hc)
  exact Bool.false_ne_true (hup.symm.trans hdown)

/-- From every state of a run whose packets fit, if some process is live there: the run goes on
for ever and is fair, and the live processes are correct in it. -/
theorem exists_fair_run {cfg : Config} (hN : cfg.N ≤ 999) (hd : DependsOnProcesses cfg) {s : Sys}
    (hr : (stack cfg).ReachableBy (HasRoom cfg) s) (hlive : (live cfg.N s).Nonempty) :
    ∃ r : EndlessRun cfg, Fair cfg r ∧ (∃ i, r.state i = s) ∧
      ∀ p, Correct cfg r p ↔ p ∈ live cfg.N s := by
  obtain ⟨s', hsteps, hsilent⟩ := @Calm.silence cfg s s hN hd ⟨hr, rfl, fun _ => rfl⟩
  obtain ⟨p₀, hp₀⟩ := hlive
  have hne : 0 < (passes cfg.N s).length := List.length_pos_of_mem (mem_passes.mpr (.urb hp₀))
  have hidle : ∀ b ∈ passes cfg.N s, (stack cfg).step s' b = some s' :=
    fun b hb => hsilent.idle (mem_passes.mp hb)
  obtain ⟨r₁, n₁, h₁⟩ := Machine.InfiniteRun.exists_append hsteps
    (Machine.InfiniteRun.idle (passes cfg.N s) hne hidle)
  obtain ⟨r, n, hrun⟩ := Machine.InfiniteRun.exists_append hr r₁
  have hstate : r.state n = s := by rw [← Nat.add_zero n, (hrun 0).1, r₁.start]
  have hidles : ∀ j, r.state (n + (n₁ + j)) = s' ∧ IsPass cfg.N s (r.action (n + (n₁ + j))) := by
    intro j
    rw [(hrun _).1, (hrun _).2, (h₁ j).1, (h₁ j).2]
    exact ⟨rfl, mem_passes.mp (Machine.InfiniteRun.idle_action_mem hne hidle j)⟩
  have hoften : ∀ b, IsPass cfg.N s b → ∃ᶠ j in atTop, r.action j = b := by
    intro b hb
    refine frequently_atTop.mpr fun a => ?_
    obtain ⟨j, hj, hact⟩ := frequently_atTop.mp
      (Machine.InfiniteRun.frequently_idle_action hne hidle (mem_passes.mpr hb)) a
    refine ⟨n + (n₁ + j), by omega, ?_⟩
    rw [(hrun _).2, (h₁ j).2, hact]
  have hcorrect : ∀ p, Correct cfg r p ↔ p ∈ live cfg.N s := by
    refine fun p => ⟨fun hp => hstate ▸ hp n, fun hp j => ?_⟩
    have hlast : p ∈ live cfg.N (r.state (n + (n₁ + j))) := by
      rw [(hidles j).1, hsilent.calm.live_eq]
      exact hp
    exact live_anti (r.steps (by omega)) hlast
  refine ⟨r, ⟨fun p t hp ht hpt => ?_, fun p t f ht hsent => ?_, fun p hp => ?_, fun p hp => ?_⟩,
    ⟨n, hstate⟩, hcorrect⟩
  · exact hoften _ (.send ((hcorrect p).mp hp) ((hcorrect t).mp ht) hpt)
  · -- from the moment on at which the program is silent, this link has nothing to send
    obtain ⟨j, hj, hact, hf⟩ := frequently_atTop.mp hsent (n + n₁)
    obtain ⟨i, rfl⟩ := Nat.exists_eq_add_of_le hj
    rw [Nat.add_assoc] at hact hf
    obtain ⟨hs', hpass⟩ := hidles i
    rw [hact] at hpass
    cases hpass with
    | send hp ht hne =>
      rw [hs', hsilent.queues p hp t ht hne] at hf
      cases hf
  · exact hoften _ (.urb ((hcorrect p).mp hp))
  · exact hoften _ (.lcb ((hcorrect p).mp hp))

end DecentralizedBroadcast
