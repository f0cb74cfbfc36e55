import DecentralizedBroadcast.FairRest
import DecentralizedBroadcast.OutputFiles

/-! What every fair run brings about, with one correct process more than a majority: the messages
of correct processes, and all that anyone delivers, are delivered by every correct process, and
the output files become final and agree. -/
set_option autoImplicit false

namespace DecentralizedBroadcast
open Filter

section Run
variable {cfg : Config} (r : EndlessRun cfg) {i j : ℕ}

theorem run_trace (h : i ≤ j) : ∃ es, (r.state j).trace = (r.state i).trace ++ es :=
  steps_trace (r.steps h)

theorem run_said (h : i ≤ j) (k : Kind) (q : Nat) :
    said k q (r.state i).trace ⊆ said k q (r.state j).trace := by
  obtain ⟨es, htr⟩ := run_trace r h
  rw [htr, said_append]
  exact List.subset_append_left _ _

theorem run_unsent (h : i ≤ j) {q : Nat} (hq : ((r.state i).proc q).unsent = []) :
    ((r.state j).proc q).unsent = [] := by
  obtain ⟨es, htr⟩ := run_trace r h
  rw [((stackInv_reachable (r.reachable i)).proc q).unsent, List.drop_eq_nil_iff] at hq
  rw [((stackInv_reachable (r.reachable j)).proc q).unsent, List.drop_eq_nil_iff, htr, said_append,
    List.length_append]
  exact hq.trans (Nat.le_add_right _ _)

end Run

section Fair
variable {cfg : Config} {r : EndlessRun cfg} (hN : cfg.N ≤ 999) (hf : Fair cfg r)
  {C : Finset Nat} (hC : ∀ p ∈ C, Correct cfg r p) (hmany : cfg.N / 2 + 2 ≤ C.card)
include hN hf hC hmany

/-- A late moment: all that was said before it is among what was said then, and rest with enough
live processes has set in for good. -/
theorem Fair.late : ∃ J, ∀ j, J ≤ j → AtRest cfg (r.state j) ∧
    (r.state j).trace = (r.state J).trace ∧ cfg.N / 2 + 2 ≤ (live cfg.N (r.state j)).card ∧
    ∀ i k q, said k q (r.state i).trace ⊆ said k q (r.state j).trace := by
  obtain ⟨J, hJ⟩ := hf.rests hN
  refine ⟨J, fun j hj => ?_⟩
  obtain ⟨hrest, htr, hlive⟩ := hJ j hj
  refine ⟨hrest, htr, hmany.trans (Finset.card_le_card fun p hp => hC p hp j), fun i k q => ?_⟩
  have hsame : (r.state (max i j)).trace = (r.state j).trace :=
    (hJ _ (hj.trans (le_max_right i j))).2.1.trans htr.symm
  exact hsame ▸ run_said r (le_max_left i j) k q

end Fair

/-- In every fair run with one correct process more than a majority, a correct process delivers
whatever any process delivers, be it one that crashes afterwards, and whatever a correct process
broadcasts. -/
theorem fair_run_delivers (cfg : Config) (hN : cfg.N ≤ 999) (r : EndlessRun cfg)
    (hf : Fair cfg r) {C : Finset Nat} (hC : ∀ p ∈ C, Correct cfg r p)
    (hmany : cfg.N / 2 + 2 ≤ C.card) {p : Nat} (hp : Correct cfg r p) :
    (∀ q i, ∀ k ∈ said .lcbDeliver q (r.state i).trace,
      ∀ᶠ j in atTop, k ∈ said .lcbDeliver p (r.state j).trace) ∧
    ∀ x, Correct cfg r x → ∀ i, ∀ text ∈ said .broadcast x (r.state i).trace,
      ∀ᶠ j in atTop, messageKey x text ∈ said .lcbDeliver p (r.state j).trace := by
  obtain ⟨J, hJ⟩ := hf.late hN hC hmany
  constructor
  · intro q i k hk
    refine eventually_atTop.mpr ⟨J, fun j hj => ?_⟩
    obtain ⟨hrest, -, hlive, hsaid⟩ := hJ j hj
    exact hrest.subset (r.reachable j) hlive q (hp j) (hsaid i _ q hk)
  · intro x hx i text ht
    refine eventually_atTop.mpr ⟨J, fun j hj => ?_⟩
    obtain ⟨hrest, -, hlive, hsaid⟩ := hJ j hj
    have hown := hrest.ownDelivered (r.reachable j) hlive (hx j) (hsaid i _ x ht)
    exact hrest.subset (r.reachable j) hlive x (hp j) hown

theorem fair_run_delivers_trio : ∃ r : EndlessRun trio, Fair trio r ∧
    (∃ i, r.state i = (stack trio).afterBy (HasRoom trio) trioRelayed) ∧
    ∀ᶠ j in atTop, messageKey 1 trioFirst ∈ said .lcbDeliver 3 (r.state j).trace := by
  obtain ⟨r, hf, ⟨i, hi⟩, hcorrect⟩ := exists_fair_run (by decide) trio_depends
    ((stack trio).reachableBy_after (HasRoom trio) trioRelayed) ⟨3, by decide⟩
  have hC : ∀ p ∈ live trio.N ((stack trio).afterBy (HasRoom trio) trioRelayed),
      Correct trio r p := fun p hp => (hcorrect p).mpr hp
  have hsent : trioFirst ∈ said .broadcast 1 (r.state i).trace := by
    rw [hi]
    decide
  exact ⟨r, hf, ⟨i, hi⟩, (fair_run_delivers trio (by decide) r hf hC (by decide)
    (hC 3 (by decide))).2 1 (hC 1 (by decide)) i trioFirst hsent⟩

/-- In such a run the output files of correct processes become final; they then tell the same of
every process, in the same order, of a correct one all that its own file says it has broadcast,
and all its messages once its `main` is through with them. -/
theorem fair_run_outputs (cfg : Config) (hN : cfg.N ≤ 999) (r : EndlessRun cfg)
    (hf : Fair cfg r) {C : Finset Nat} (hC : ∀ p ∈ C, Correct cfg r p)
    (hmany : cfg.N / 2 + 2 ≤ C.card) {p q : Nat} (hp : Correct cfg r p) (hq : Correct cfg r q) :
    ∃ lp lq, (∀ᶠ j in atTop, Writes (r.state j) p lp ∧ Writes (r.state j) q lq) ∧
      (∀ x, lp.filterMap (Line.d? x) = lq.filterMap (Line.d? x)) ∧
      lp.filterMap (Line.d? q) = lq.filterMap Line.b? ∧
      ((∃ i, ((r.state i).proc q).unsent = []) →
        lp.filterMap (Line.d? q) = List.range' 1 (cfg.m q)) := by
  obtain ⟨J, hJ⟩ := hf.late hN hC hmany
  obtain ⟨hrest, -, hlive, hsaid⟩ := hJ J le_rfl
  obtain ⟨lp, lq, hwp, hwq, hsame, hown, hall⟩ :=
    hrest.outputs (r.reachable J) hlive (hp J) (hq J)
  have hlog : ∀ j, J ≤ j → ∀ x,
      ((r.state j).proc x).processLog = ((r.state J).proc x).processLog := by
    intro j hj x
    rw [((stackInv_reachable (r.reachable j)).proc x).log, (hJ j hj).2.1,
      ((stackInv_reachable (r.reachable J)).proc x).log]
  refine ⟨lp, lq, eventually_atTop.mpr ⟨J, fun j hj => ⟨?_, ?_⟩⟩, hsame, hown, ?_⟩
  · rw [Writes, hlog j hj]
    exact hwp
  · rw [Writes, hlog j hj]
    exact hwq
  · rintro ⟨i, hi⟩
    have hlate := run_unsent r (le_max_left i J) hi
    rw [((stackInv_reachable (r.reachable _)).proc q).unsent, (hJ _ (le_max_right i J)).2.1,
      ← ((stackInv_reachable (r.reachable J)).proc q).unsent] at hlate
    exact hall hlate

theorem fair_run_outputs_trio : ∃ r : EndlessRun trio, Fair trio r ∧
    (∃ i, r.state i = (stack trio).afterBy (HasRoom trio) trioRelayed) ∧
    ∃ lp lq, (∀ᶠ j in atTop, Writes (r.state j) 3 lp ∧ Writes (r.state j) 1 lq) ∧
      lp.filterMap (Line.d? 1) = lq.filterMap Line.b? ∧ lp.filterMap (Line.d? 1) = [1] := by
  obtain ⟨r, hf, ⟨i, hi⟩, hcorrect⟩ := exists_fair_run (by decide) trio_depends
    ((stack trio).reachableBy_after (HasRoom trio) trioRelayed) ⟨3, by decide⟩
  have hC : ∀ p ∈ live trio.N ((stack trio).afterBy (HasRoom trio) trioRelayed),
      Correct trio r p := fun p hp => (hcorrect p).mpr hp
  obtain ⟨lp, lq, hwrites, -, hown, hall⟩ := fair_run_outputs trio (by decide) r hf hC (by decide)
    (hC 3 (by decide)) (hC 1 (by decide))
  refine ⟨r, hf, ⟨i, hi⟩, lp, lq, hwrites, hown, hall ⟨i, ?_⟩⟩
  rw [hi]
  decide

end DecentralizedBroadcast
