import DecentralizedBroadcast.StackInvariant
import DecentralizedBroadcast.Lib.CausalService

/-! The program refines localized causal broadcast: leave out the texts, the clocks, the acks
and the network, and every action of a process is a run of the service at that process. -/
set_option autoImplicit false

namespace DecentralizedBroadcast
open History ClockedDelivery

def messageId (k : Str) : Nat × Nat := ((keyOrigin k).toNat, number keyOrigin need k)

/-- What the service sees of a history. The past of a message is what its clock asks for. -/
def serviceView (tr : List Event) : CausalService.State Nat where
  sent p := (said .broadcast p tr).length
  past m := {x | ∃ text, (said .broadcast m.1 tr)[m.2]? = some text ∧
    x.2 < need (messageKey m.1 text) x.1}
  delivered q := (said .lcbDeliver q tr).map messageId

def DependsOn (cfg : Config) (p d : Nat) : Prop := (d : Int) ∈ cfg.localizedIds p

theorem step_trace {cfg : Config} {s s' : Sys} {a : Action} (hs : Sys.step cfg s a = some s') :
    ∃ es, s'.trace = s.trace ++ es ∧ ∀ e ∈ es, e.proc = a.proc := by
  obtain ⟨hp, -, heff⟩ := step_effect hs
  cases heff with
  | activate | sendThreaded | ackThreaded | receive | crash => exact ⟨[], by simp, by simp⟩
  | broadcast hu hb hs =>
    simp only [Process.broadcastMessage, bind_eq_ok] at hb
    obtain ⟨⟨l, text⟩, hl, -⟩ := hb
    obtain ⟨net, rfl, -⟩ := bebBroadcast_ok hp (broadcastMessage_ok hl).2.1 hs
    exact ⟨_, List.append_assoc _ _ _, by simp [Action.proc]⟩
  | handUp he hr hd => exact ⟨_, rfl, by simp [Action.proc]⟩
  | relay he hr hd hs =>
    obtain ⟨net, rfl, -⟩ := bebBroadcast_ok hp (receive_fits he.1 hr) hs
    exact ⟨_, List.append_assoc _ _ _, by simp [Action.proc]⟩
  | urbDeliverPending hd => exact ⟨_, rfl, by simp [Action.proc]⟩
  | lcbDeliverPending hd => exact ⟨_, rfl, by simp [Action.proc]⟩

section Sound
variable {cfg : Config} {tr : List Event} (h : Sound (EventOk cfg) tr)
include h

theorem messageId_messageKey {p i : Nat} {text : Str}
    (hi : (said .broadcast p tr)[i]? = some text) : messageId (messageKey p text) = (p, i) := by
  have hp := (broadcast_fits h (List.mem_of_getElem? hi)).2.2
  rw [messageId, keyOrigin_messageKey hp, number_broadcast h hi, Int.toNat_natCast]

theorem mem_view_delivered {q z j : Nat} : (z, j) ∈ (serviceView tr).delivered q ↔
    j < count keyOrigin (said .lcbDeliver q tr) z := by
  have hnum := (orderly h q).numbers (known_unique h) (fun _ hx => lcbDeliver_known h hx) z
  rw [← List.mem_range, ← hnum]
  simp only [serviceView, List.mem_map, messageId, Prod.mk.injEq]
  constructor
  · rintro ⟨k, hk, hz, hj⟩
    obtain ⟨s, text, ht, rfl⟩ := lcbDeliver_known h hk
    rw [keyOrigin_messageKey (broadcast_fits h ht).2.2, Int.toNat_natCast] at hz
    subst hz
    exact ⟨_, mem_deliveriesFrom.mpr ⟨hk, keyOrigin_messageKey (broadcast_fits h ht).2.2 _⟩, hj⟩
  · rintro ⟨k, hk, hj⟩
    obtain ⟨hk, hz⟩ := mem_deliveriesFrom.mp hk
    exact ⟨k, hk, by rw [hz, Int.toNat_natCast], hj⟩

/-- The clock of the next broadcast asks for the past that the service gives the message. -/
theorem pastOf_broadcast {p : Nat} {msg text : Str} (ho : Origin cfg tr p msg text) :
    {x : Nat × Nat | x.2 < need (messageKey p text) x.1} =
      (serviceView tr).pastOf (DependsOn cfg) p := by
  ext ⟨z, j⟩
  simp only [CausalService.State.pastOf, Set.mem_ofPred_eq, mem_view_delivered h, DependsOn,
    ho.need h]
  by_cases hz : z = p
  · subst hz
    have hown : ∀ i, i < count keyOrigin (said .lcbDeliver z tr) z →
        i < (said .broadcast z tr).length := by
      intro i hi
      obtain ⟨k, hk, hid⟩ := List.mem_map.mp ((mem_view_delivered h).mpr hi)
      obtain ⟨s, text', ht, rfl⟩ := lcbDeliver_known h hk
      obtain ⟨n, hn⟩ := List.getElem?_of_mem ht
      obtain ⟨rfl, rfl⟩ := Prod.mk.inj ((messageId_messageKey h hn).symm.trans hid)
      exact (List.getElem?_eq_some_iff.mp hn).1
    simp only [serviceView, if_true, true_and]
    exact ⟨.inl, fun hx => hx.elim id fun hx => hown j hx.2⟩
  · have hz' : ¬ (z : Int) = p := by omega
    by_cases hd : (z : Int) ∈ cfg.localizedIds p <;> simp [hz, hz', hd]

end Sound

theorem serviceView_broadcast {cfg : Config} {tr : List Event} {p : Nat} {msg text : Str}
    (h : Sound (EventOk cfg) tr) (ho : Origin cfg tr p msg text) :
    serviceView (tr ++ [⟨.broadcast, p, text⟩]) =
      (serviceView tr).broadcast (DependsOn cfg) p := by
  simp only [CausalService.State.broadcast, ← pastOf_broadcast h ho]
  simp only [serviceView, said_append, said_singleton, true_and, reduceCtorEq, false_and,
    if_false, List.append_nil, CausalService.State.mk.injEq, and_true]
  constructor
  · funext x
    by_cases hx : p = x
    · subst hx
      simp
    · simp [hx, Ne.symm hx]
  · funext m
    obtain ⟨x, i⟩ := m
    by_cases hx : p = x
    · subst hx
      rcases Nat.lt_trichotomy i (said .broadcast p tr).length with hi | rfl | hi
      · rw [Function.update_of_ne (by simp; omega)]
        simp [List.getElem?_append_left hi]
      · simp
      · rw [Function.update_of_ne (by simp; omega)]
        have hold : (said .broadcast p tr)[i]? = none := List.getElem?_eq_none (by omega)
        have hnew : (said .broadcast p tr ++ [text])[i]? = none :=
          List.getElem?_eq_none (by rw [List.length_append, List.length_singleton]; omega)
        simp [hold, hnew]
    · rw [Function.update_of_ne (by simp [Ne.symm hx])]
      simp [hx]

theorem serviceView_lcbDeliver (tr : List Event) (q : Nat) (k : Str) :
    serviceView (tr ++ [⟨.lcbDeliver, q, k⟩]) = (serviceView tr).deliver q (messageId k) := by
  simp only [CausalService.State.deliver, serviceView, said_append, said_singleton, true_and,
    reduceCtorEq, false_and, if_false, List.append_nil, CausalService.State.mk.injEq]
  funext x
  by_cases hx : q = x
  · subst hx
    simp
  · simp [hx, Ne.symm hx]

theorem serviceView_other (tr : List Event) {e : Event} (hb : e.kind ≠ .broadcast)
    (hl : e.kind ≠ .lcbDeliver) : serviceView (tr ++ [e]) = serviceView tr := by
  obtain ⟨k, p, text⟩ := e
  simp only [serviceView, said_append, said_singleton, hb, hl, false_and, if_false,
    List.append_nil]

theorem deliverable_of_ready {cfg : Config} {tr : List Event} (h : Sound (EventOk cfg) tr)
    {q : Nat} {k : Str} (hk : Known tr k) (hnew : k ∉ said .lcbDeliver q tr)
    (hready : Ready keyOrigin need (said .lcbDeliver q tr) k) :
    (serviceView tr).Deliverable q (messageId k) := by
  obtain ⟨s, text, ht, rfl⟩ := hk
  obtain ⟨i, hi⟩ := List.getElem?_of_mem ht
  rw [messageId_messageKey h hi]
  refine ⟨(List.getElem?_eq_some_iff.mp hi).1, fun hin => hnew ?_, ?_⟩
  · have hlt := (mem_view_delivered h).mp hin
    refine ((orderly h q).mem_iff (known_unique h) (fun _ hx => lcbDeliver_known h hx)
      (show Known tr _ from ⟨s, text, ht, rfl⟩)).mpr ?_
    rwa [number_broadcast h hi, keyOrigin_messageKey (broadcast_fits h ht).2.2]
  · rintro ⟨z, j⟩ ⟨text', hi', hlt⟩
    obtain rfl := Option.some.inj (hi.symm.trans hi')
    exact (mem_view_delivered h).mpr (Nat.lt_of_lt_of_le hlt (hready z))

/-- Every justified event is at most one step of the service. -/
theorem service_event {cfg : Config} {tr : List Event} {e : Event}
    (h : Sound (EventOk cfg) (tr ++ [e])) : (causalService (DependsOn cfg)).Steps
      (fun _ b => b.proc = e.proc) (serviceView tr) (serviceView (tr ++ [e])) := by
  obtain ⟨htr, ok⟩ := sound_snoc.mp h
  obtain ⟨k, p, text⟩ := e
  cases k with
  | beb | handUp | urbDeliver =>
    rw [serviceView_other tr (by simp) (by simp)]
    exact .refl
  | broadcast =>
    obtain ⟨msg, ho⟩ := ok.origin
    rw [serviceView_broadcast htr ho]
    exact .single ⟨.broadcast p, rfl, CausalService.step_broadcast _ _⟩
  | lcbDeliver =>
    rw [serviceView_lcbDeliver]
    cases ok with
    | lcbDeliver received new ready =>
      have hm := deliverable_of_ready htr (urbDeliver_known htr received) new
        (isInferior_iff.mp ready)
      exact .single ⟨.deliver p (messageId text), rfl, CausalService.step_deliver hm⟩

theorem service_events {cfg : Config} {tr es : List Event} (h : Sound (EventOk cfg) (tr ++ es))
    {P : Nat → Prop} (hp : ∀ e ∈ es, P e.proc) : (causalService (DependsOn cfg)).Steps
      (fun _ b => P b.proc) (serviceView tr) (serviceView (tr ++ es)) := by
  induction es using List.reverseRecOn with
  | nil =>
    rw [List.append_nil]
    exact .refl
  | append_singleton es e ih =>
    rw [← List.append_assoc] at h ⊢
    have hprev := ih h.past fun x hx => hp x (by simp [hx])
    exact hprev.trans ((service_event h).mono fun _ b (hb : b.proc = e.proc) =>
      hb ▸ hp e (by simp))

theorem serviceView_nil : serviceView [] = CausalService.start := by
  simp only [serviceView, said_nil, CausalService.start, List.length_nil, List.map_nil,
    CausalService.State.mk.injEq, true_and, and_true]
  funext m
  simp

theorem service_reachable {cfg : Config} {tr : List Event} (h : Sound (EventOk cfg) tr) :
    (causalService (DependsOn cfg)).Reachable (serviceView tr) := by
  have hsteps := @service_events cfg [] tr h (fun _ => True) fun _ _ => trivial
  rwa [serviceView_nil] at hsteps

theorem vc_view {cfg : Config} {s : Sys} (h : StackInv cfg s) (q z : Nat) :
    (s.proc q).lcb.vc z = ((serviceView s.trace).delivered q).countP (·.1 = z) := by
  rw [(h.proc q).vc, vcOf, count, deliveriesFrom, ← List.countP_eq_length_filter]
  simp only [serviceView, List.countP_map, Nat.cast_inj]
  refine List.countP_congr fun k hk => ?_
  obtain ⟨x, text, ht, rfl⟩ := lcbDeliver_known h.sound hk
  simp [messageId, keyOrigin_messageKey (broadcast_fits h.sound ht).2.2]

/-- Every reachable state is a state that the service reaches, its numbers and clocks read off
that state, and every action is a run of the service at the process that acts. -/
theorem stack_refines_service (cfg : Config) (s : Sys) (h : (stack cfg).Reachable s) :
    (causalService (DependsOn cfg)).Reachable (serviceView s.trace) ∧
    (∀ p, (s.proc p).lcb.lsn = (serviceView s.trace).sent p) ∧
    (∀ p z : Nat, (s.proc p).lcb.vc z =
      ((serviceView s.trace).delivered p).countP (·.1 = z)) ∧
    ∀ a s', (stack cfg).step s a = some s' → (causalService (DependsOn cfg)).Steps
      (fun _ b => b.proc = a.proc) (serviceView s.trace) (serviceView s'.trace) := by
  have hinv := stackInv_reachable h
  refine ⟨service_reachable hinv.sound, fun p => (hinv.proc p).lsn, vc_view hinv,
    fun a s' hs => ?_⟩
  obtain ⟨es, htr, hproc⟩ := step_trace hs
  have hsound := (stackInv_reachable (h.next hs)).sound
  rw [htr] at hsound ⊢
  exact service_events hsound (P := (· = a.proc)) hproc

theorem stack_refines_service_trio :
    (causalService (DependsOn trio)).Reachable
      (serviceView ((stack trio).after trioDelivered).trace) ∧
    (serviceView ((stack trio).after trioDelivered).trace).delivered 3 = [(1, 0), (2, 0)] :=
  ⟨(stack_refines_service trio _ ((stack trio).reachable_after trioDelivered)).1, by decide⟩

/-- The clock of a process is a consistent cut: it counts nothing that was not broadcast, and
with a message it counts all that the clock of that message asks for. -/
theorem clock_is_cut (cfg : Config) (s : Sys) (h : (stack cfg).Reachable s) (q : Nat) :
    (∀ x : Nat, (s.proc q).lcb.vc x ≤ (s.proc x).lcb.lsn) ∧
    ∀ (x i : Nat) (text : Str), (said .broadcast x s.trace)[i]? = some text →
      i < (s.proc q).lcb.vc x → ∀ z : Nat, need (messageKey x text) z ≤ (s.proc q).lcb.vc z := by
  have hinv := stackInv_reachable h
  have hservice := CausalService.inv_reachable (service_reachable hinv.sound)
  have hmem : ∀ x j : Nat, (x, j) ∈ (serviceView s.trace).delivered q ↔
      (j : Int) < (s.proc q).lcb.vc x := by
    intro x j
    rw [mem_view_delivered hinv.sound, (hinv.proc q).vc, vcOf, Int.ofNat_lt]
  refine ⟨fun x => ?_, fun x i text hi hlt z => ?_⟩
  · by_contra hgt
    have hin := (hmem x (s.proc x).lcb.lsn).mpr (by omega)
    have hlt := hservice.known q _ hin
    rw [(hinv.proc x).lsn] at hlt
    exact Nat.lt_irrefl _ hlt
  · by_contra hgt
    have hvc : 0 ≤ (s.proc q).lcb.vc z := by
      rw [(hinv.proc q).vc]
      exact Int.natCast_nonneg _
    have hin := hservice.closed q (x, i) ((hmem x i).mpr hlt) (z, (s.proc q).lcb.vc z |>.toNat)
      ⟨text, hi, by simp only; omega⟩
    have := (hmem z _).mp hin
    omega

theorem clock_is_cut_trio :
    (∀ x : Nat, (((stack trio).after trioDelivered).proc 3).lcb.vc x ≤
      (((stack trio).after trioDelivered).proc x).lcb.lsn) ∧
    need (messageKey 2 trioSecond) (1 : Nat) ≤
      (((stack trio).after trioDelivered).proc 3).lcb.vc (1 : Nat) := by
  have hcut := clock_is_cut trio _ ((stack trio).reachable_after trioDelivered) 3
  exact ⟨hcut.1, hcut.2 2 0 trioSecond (by decide) (by decide) 1⟩

end DecentralizedBroadcast
