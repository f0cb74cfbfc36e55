import DecentralizedBroadcast.FairRuns
import Mathlib.Algebra.Order.BigOperators.Group.Finset

/-! A fair run comes to rest. The messages of the program are finitely many, so only finitely much
can be said about them; once all of it has been said, every packet between correct processes has
arrived and the passes find nothing. -/
set_option autoImplicit false

namespace DecentralizedBroadcast
open Filter History ClockedDelivery

/-- All that can be said of the messages that `tr` broadcasts. -/
def eventsOf (cfg : Config) (tr : List Event) : List Event :=
  ((List.range' 1 cfg.N).flatMap fun q =>
    (said .broadcast q tr).map (⟨.broadcast, q, ·⟩) ++ (framesOf cfg tr q).map (⟨.beb, q, ·⟩) ++
      (keysOf cfg tr).map (⟨.urbDeliver, q, ·⟩) ++ (keysOf cfg tr).map (⟨.lcbDeliver, q, ·⟩)) ++
  (packetsOf cfg tr).map fun e => ⟨.handUp, e.1, e.2⟩

theorem eventsOf_congr {cfg : Config} {tr tr' : List Event}
    (h : ∀ q, said .broadcast q tr = said .broadcast q tr') :
    eventsOf cfg tr = eventsOf cfg tr' := by
  simp only [eventsOf, packetsOf, framesOf, keysOf, h]

theorem trace_nodup {tr : List Event} (h : ∀ k p, (said k p tr).Nodup) : tr.Nodup := by
  induction tr with
  | nil => exact List.nodup_nil
  | cons e tr ih =>
    have hcons : ∀ k p, said k p (e :: tr) = said k p [e] ++ said k p tr :=
      fun k p => said_append k p [e] tr
    refine List.nodup_cons.mpr ⟨fun hin => ?_, ih fun k p => ?_⟩
    · have hnd := h e.kind e.proc
      rw [hcons, said_singleton, if_pos ⟨rfl, rfl⟩] at hnd
      exact (List.nodup_append.mp hnd).2.2 e.text (by simp) e.text (mem_said.mpr hin) rfl
    · have hnd := h k p
      rw [hcons] at hnd
      exact (List.nodup_append.mp hnd).2.1

section State
variable {cfg : Config} {s s' : Sys} (hr : (stack cfg).Reachable s)
include hr

theorem said_ids {e : Event} (he : e ∈ s.trace) : 1 ≤ e.proc ∧ e.proc ≤ cfg.N := by
  refine hr.invariant (fun x => ∀ e ∈ x.trace, 1 ≤ e.proc ∧ e.proc ≤ cfg.N)
    (by simp [stack, Sys.start]) (fun x a x' hx hs => ?_) e he
  obtain ⟨es, htr, hes⟩ := step_trace hs
  obtain ⟨hid, -, -⟩ := step_effect hs
  intro e he
  rw [htr] at he
  rcases List.mem_append.mp he with he | he
  · exact hx e he
  · rw [hes e he]
    exact hid

theorem said_nodup (k : Kind) (p : Nat) : (said k p s.trace).Nodup := by
  have hs := (stackInv_reachable hr).sound
  cases k with
  | broadcast => exact broadcast_nodup hs p
  | beb => exact (onceQueued_reachable hr).beb p
  | handUp => exact handUp_nodup hs p
  | urbDeliver => exact urbDeliver_nodup hs p
  | lcbDeliver => exact (orderly hs p).nodup

theorem mem_keysOf {k : Str} (hk : Known s.trace k) : k ∈ keysOf cfg s.trace := by
  obtain ⟨x, text, ht, rfl⟩ := hk
  have hx := broadcast_fits (stackInv_reachable hr).sound ht
  exact List.mem_flatMap.mpr ⟨x, List.mem_range'_1.mpr (by omega), List.mem_map_of_mem ht⟩

theorem trace_subset : s.trace ⊆ eventsOf cfg s.trace := by
  have h := stackInv_reachable hr
  rintro ⟨k, p, text⟩ he
  obtain ⟨hp₁, hpN⟩ := said_ids hr he
  have hp : p ∈ List.range' 1 cfg.N := List.mem_range'_1.mpr ⟨hp₁, Nat.lt_one_add_iff.mpr hpN⟩
  have hin := mem_said.mpr he
  cases k with
  | handUp =>
    refine List.mem_append_right _ (List.mem_map.mpr ⟨(p, text), ?_, rfl⟩)
    exact handed_subset h ((h.posted.handed p text).mpr hin)
  | broadcast => exact List.mem_append_left _ (List.mem_flatMap.mpr ⟨p, hp, by simp [hin]⟩)
  | beb =>
    have hframe := beb_subset_frames h.sound p hin
    exact List.mem_append_left _ (List.mem_flatMap.mpr ⟨p, hp, by simp [hframe]⟩)
  | urbDeliver =>
    have hkey := mem_keysOf hr (urbDeliver_known h.sound hin)
    exact List.mem_append_left _ (List.mem_flatMap.mpr ⟨p, hp, by simp [hkey]⟩)
  | lcbDeliver =>
    have hkey := mem_keysOf hr (lcbDeliver_known h.sound hin)
    exact List.mem_append_left _ (List.mem_flatMap.mpr ⟨p, hp, by simp [hkey]⟩)

theorem trace_length_le : s.trace.length ≤ (eventsOf cfg s.trace).length :=
  ((trace_nodup (said_nodup hr)).subperm (trace_subset hr)).length_le

end State

section Run
variable {cfg : Config} (r : EndlessRun cfg)

/-- The processes come to an end with their messages, or stop broadcasting before that. -/
theorem broadcasts_end :
    EventuallyConst (fun j q => said .broadcast q (r.state j).trace) atTop := by
  refine eventuallyConst_of_growth (fun f => ∑ q ∈ Finset.Icc 1 cfg.N, (f q).length)
    (B := ∑ q ∈ Finset.Icc 1 cfg.N, (mainBatches (cfg.m q)).length) (fun j => ?_)
    (.of_forall fun j => Finset.sum_le_sum fun q _ =>
      broadcast_length_le (stackInv_reachable (r.reachable j)).sound q)
  have hstep := r.step j
  by_cases hsame : ∀ q, said .broadcast q (r.state (j + 1)).trace =
      said .broadcast q (r.state j).trace
  · exact .inl (funext hsame)
  · simp only [not_forall] at hsame
    obtain ⟨p, hp⟩ := hsame
    obtain ⟨frame, hact, -, hadd⟩ := (step_broadcast hstep p).resolve_left hp
    obtain ⟨hid, -, -⟩ := step_effect hstep
    rw [hact] at hid
    refine .inr (Finset.sum_lt_sum (fun q _ => ?_) ⟨p, Finset.mem_Icc.mpr hid, ?_⟩)
    · rcases step_broadcast hstep q with heq | ⟨frame', -, -, hadd'⟩
      · rw [heq]
      · rw [hadd', List.length_append]
        exact Nat.le_add_right _ _
    · rw [hadd, List.length_append]
      exact Nat.lt_succ_self _

theorem trace_ends : EventuallyConst (fun j => (r.state j).trace) atTop := by
  obtain ⟨J, hJ⟩ := eventuallyConst_atTop.mp (broadcasts_end r)
  refine eventuallyConst_of_growth List.length (B := (eventsOf cfg (r.state J).trace).length)
    (fun j => ?_) (eventually_atTop.mpr ⟨J, fun j hj => ?_⟩)
  · obtain ⟨es, htr, -⟩ := step_trace (r.step j)
    rw [htr, List.length_append]
    cases es with
    | nil => exact .inl (List.append_nil _)
    | cons e es => exact .inr (Nat.lt_add_of_pos_right (Nat.succ_pos _))
  · have hle := trace_length_le (r.reachable j)
    rwa [eventsOf_congr fun q => congrFun (hJ j hj) q] at hle

theorem crashes_end : EventuallyConst (fun j => live cfg.N (r.state j)) atTop := by
  refine eventuallyConst_of_growth (fun L => cfg.N - L.card) (B := cfg.N) (fun j => ?_)
    (.of_forall fun j => Nat.sub_le _ _)
  have hsub : live cfg.N (r.state (j + 1)) ⊆ live cfg.N (r.state j) :=
    live_anti (r.steps (Nat.le_succ j))
  rcases hsub.eq_or_ssubset with heq | hlt
  · exact .inl heq
  · have hcard := Finset.card_lt_card hlt
    have htotal := live_add_failed cfg.N (r.state j)
    exact .inr (by omega)

/-- From some moment on nothing is said any more, and only correct processes are live. -/
theorem calms_down : ∃ J, ∀ j, J ≤ j → (r.state j).trace = (r.state J).trace ∧
    ∀ p, p ∈ live cfg.N (r.state j) ↔ Correct cfg r p := by
  obtain ⟨J₁, h₁⟩ := eventuallyConst_atTop.mp (trace_ends r)
  obtain ⟨J₂, h₂⟩ := eventuallyConst_atTop.mp (crashes_end r)
  refine ⟨max J₁ J₂, fun j hj => ⟨?_, fun p => ⟨fun hp i => ?_, fun hp => hp j⟩⟩⟩
  · rw [h₁ j (le_trans (le_max_left _ _) hj), h₁ _ (le_max_left _ _)]
  · have hlate : live cfg.N (r.state (max i j)) = live cfg.N (r.state j) := by
      have hj₂ := le_trans (le_max_right _ _) hj
      rw [h₂ _ (le_trans hj₂ (le_max_right i j)), h₂ j hj₂]
    exact live_anti (r.steps (le_max_left i j)) (hlate ▸ hp)

end Run

section SameTrace
variable {cfg : Config} {s s' : Sys} (h : StackInv cfg s) (h' : StackInv cfg s')
  (htr : s'.trace = s.trace)
include h h' htr

theorem UrbIdle.of_trace {p : Nat} (hi : UrbIdle cfg.N (s.proc p)) :
    UrbIdle cfg.N (s'.proc p) := by
  refine urbIdle_iff.mpr fun k _ hcan => ?_
  have hvotes := ((h'.proc p).canDeliver cfg.N k).mp hcan
  rw [htr] at hvotes
  have hdel := hi.delivered h (((h.proc p).canDeliver cfg.N k).mpr hvotes)
  rw [(h'.proc p).delivered, htr, if_pos hdel]
  exact one_ne_zero

theorem LcbIdle.of_trace {p : Nat} (hi : LcbIdle (s.proc p)) : LcbIdle (s'.proc p) := by
  refine lcbIdle_iff.mpr fun e he => ?_
  have hpair := ((h'.proc p).pairs e.1 e.2).mp he
  rw [htr] at hpair
  have hvc : (s'.proc p).lcb.vc = (s.proc p).lcb.vc := by
    rw [(h'.proc p).vc, htr, (h.proc p).vc]
  rw [hvc]
  exact lcbIdle_iff.mp hi e (((h.proc p).pairs e.1 e.2).mpr hpair)

end SameTrace

section Fair
variable {cfg : Config} {r : EndlessRun cfg} (hf : Fair cfg r)
include hf

theorem Fair.handed (hN : cfg.N ≤ 999) {p t j : Nat} {f : Str} (hp : Correct cfg r p)
    (ht : Correct cfg r t) (hq : (p, t, f) ∈ (r.state j).net.queued) :
    ∃ i, j ≤ i ∧ f ∈ said .handUp t (r.state i).trace := by
  by_contra hnot
  have hnever : ∀ i, j ≤ i → f ∉ said .handUp t (r.state i).trace :=
    fun i hi hin => hnot ⟨i, hi, hin⟩
  have hn : ∀ i, NetInv cfg.N (r.state i).net :=
    fun i => netInv_reachableBy (stack_links (r.reachable i))
  have hposted : ∀ i, Posted cfg (r.state i).trace (r.state i).net :=
    fun i => (stackInv_reachable (r.reachable i)).posted
  have hqueued : ∀ i, j ≤ i → (p, t, f) ∈ (r.state i).net.queued := fun i hi =>
    Nat.le_induction hq (fun i _ ih => step_queued (r.reachable i) (r.step i) ih) i hi
  -- it is never taken off the queue, so it is sent for ever, and some copy comes through
  have hwaits : ∀ i, j ≤ i → f ∈ (r.state i).net.queueOf p t := fun i hi =>
    ((hn i).noLoss p t f (hqueued i hi)).resolve_right fun hin =>
      hnever i hi (((hposted i).handed t f).mp hin)
  obtain ⟨-, hlink, msg, hform⟩ := (hn j).form p t f hq
  obtain ⟨d, rfl⟩ : ∃ d, f = '0' :: d := ⟨_, hform⟩
  have hsent := (hf.sends p t hp ht hlink.2.2.2.2).and_eventually
    (eventually_atTop.mpr ⟨j, hwaits⟩)
  obtain ⟨i, hi, link, hact⟩ := frequently_atTop.mp (hf.arrives p t _ ht hsent) j
  have hstep := r.step i
  rw [hact] at hstep
  have hnew : d ∉ ((r.state i).net.layer t).processDelivered := fun hdel =>
    hnever i hi (((hposted i).handed t _).mp (((hn i).handed t _).mpr ⟨d, rfl, hdel⟩))
  have hhanded := receive_handed hN (hn i) (hqueued i hi) hnew hstep
  refine hnever (i + 1) (Nat.le_succ_of_le hi) (((hposted (i + 1)).handed t _).mp ?_)
  rw [hhanded]
  simp

/-- At some later moment URB at a correct process has nothing to hand up. -/
theorem Fair.urbIdle {p : Nat} (hp : Correct cfg r p) (j : Nat) :
    ∃ i, j ≤ i ∧ UrbIdle cfg.N ((r.state i).proc p) := by
  obtain ⟨i, hi, hact⟩ := frequently_atTop.mp (hf.urbPasses p hp) j
  have hstep := r.step i
  rw [hact] at hstep
  refine ⟨i + 1, Nat.le_succ_of_le hi, ?_⟩
  obtain ⟨-, -, heff⟩ := step_effect hstep
  generalize r.state (i + 1) = s' at heff ⊢
  cases heff with
  | urbDeliverPending hd => simpa using urbDeliverPending_idle hd

/-- At some later moment LCB at a correct process has nothing to deliver, or it does deliver. -/
theorem Fair.lcbIdle {p : Nat} (hp : Correct cfg r p) (j : Nat) :
    ∃ i, j ≤ i ∧ (LcbIdle ((r.state i).proc p) ∨
      (r.state (i + 1)).trace ≠ (r.state i).trace) := by
  obtain ⟨i, hi, hact⟩ := frequently_atTop.mp (hf.lcbPasses p hp) j
  have hstep := r.step i
  rw [hact] at hstep
  refine ⟨i, hi, ?_⟩
  obtain ⟨-, -, heff⟩ := step_effect hstep
  generalize r.state (i + 1) = s' at heff ⊢
  cases heff with
  | @lcbDeliverPending _ q out hd =>
    cases out with
    | nil => exact .inl (lcbIdle_of_nothing hd)
    | cons k out => exact .inr (by simp)

theorem Fair.rests (hN : cfg.N ≤ 999) : ∃ J, ∀ j, J ≤ j → AtRest cfg (r.state j) ∧
    (r.state j).trace = (r.state J).trace ∧
    ∀ p, p ∈ live cfg.N (r.state j) ↔ Correct cfg r p := by
  obtain ⟨J, hJ⟩ := calms_down r
  have hsame : ∀ i j, J ≤ i → J ≤ j → (r.state i).trace = (r.state j).trace :=
    fun i j hi hj => (hJ i hi).1.trans (hJ j hj).1.symm
  have hinv : ∀ j, StackInv cfg (r.state j) := fun j => stackInv_reachable (r.reachable j)
  refine ⟨J, fun j hj => ⟨⟨?_, fun p hp => ?_, fun p hp => ?_⟩, hJ j hj⟩⟩
  · rintro ⟨p, t, f⟩ hq hpl htl
    have hn := netInv_reachableBy (stack_links (r.reachable j))
    obtain ⟨-, hl, -⟩ := hn.form p t f hq
    have hp := ((hJ j hj).2 p).mp (mem_live.mpr ⟨⟨hl.1, hl.2.1⟩, hpl⟩)
    have ht := ((hJ j hj).2 t).mp (mem_live.mpr ⟨⟨hl.2.2.1, hl.2.2.2.1⟩, htl⟩)
    obtain ⟨i, hi, hin⟩ := hf.handed hN hp ht hq
    rw [hsame i j (hj.trans hi) hj] at hin
    obtain ⟨d, rfl, hdel⟩ := (hn.handed t f).mp (((hinv j).posted.handed t f).mpr hin)
    exact hdel
  · obtain ⟨i, hi, hidle⟩ := hf.urbIdle (((hJ j hj).2 p).mp hp) j
    exact hidle.of_trace (hinv i) (hinv j) (hsame j i hj (hj.trans hi))
  · obtain ⟨i, hi, hidle⟩ := hf.lcbIdle (((hJ j hj).2 p).mp hp) j
    have hi' := hj.trans hi
    have hidle' := hidle.resolve_right fun hne =>
      hne (hsame (i + 1) i (Nat.le_succ_of_le hi') hi')
    exact hidle'.of_trace (hinv i) (hinv j) (hsame j i hj hi')

end Fair

/-- Every fair run comes to rest and stays there: from some moment on nothing is broadcast, handed
up or delivered any more, all packets between correct processes have arrived, and no pass finds
anything to deliver. -/
theorem fair_run_rests (cfg : Config) (hN : cfg.N ≤ 999) (r : EndlessRun cfg)
    (hf : Fair cfg r) : ∃ J, ∀ j, J ≤ j → AtRest cfg (r.state j) ∧
      (r.state j).trace = (r.state J).trace ∧
      ∀ p, p ∈ live cfg.N (r.state j) ↔ Correct cfg r p := hf.rests hN

theorem fair_run_rests_trio : ∃ r : EndlessRun trio, Fair trio r ∧
    (∃ i, r.state i = (stack trio).afterBy (HasRoom trio) trioRelayed) ∧
    ∃ J, AtRest trio (r.state J) ∧ 3 ∈ live trio.N (r.state J) := by
  obtain ⟨r, hf, hpast, hcorrect⟩ := exists_fair_run (by decide) trio_depends
    ((stack trio).reachableBy_after (HasRoom trio) trioRelayed) ⟨3, by decide⟩
  obtain ⟨J, hJ⟩ := fair_run_rests trio (by decide) r hf
  obtain ⟨hrest, -, hlive⟩ := hJ J le_rfl
  exact ⟨r, hf, hpast, J, hrest, (hlive 3).mpr ((hcorrect 3).mpr (by decide))⟩

end DecentralizedBroadcast
