import DecentralizedBroadcast.StressInvariant
import Mathlib.Algebra.Order.BigOperators.Group.Finset

/-! What the stress test comes to: too few processes are terminated to lose the majority, those
that were stopped run again before the test waits, and each is terminated once. Whether the test
ends is up to the processes: it waits for each of them. -/
set_option autoImplicit false

namespace DecentralizedBroadcast.Stress

def ProcessState.toOs : ProcessState → OsState
  | .running => .running
  | .stopped => .stopped
  | .terminated => .ended

theorem outcome_append (xs ys : List Signal) :
    outcome (xs ++ ys) = ys.foldl OsState.take (outcome xs) := List.foldl_append ..

theorem take_of_obey {st st' : ProcessState} {x : Signal} (h : obey st x = some st') :
    st.toOs.take x = st'.toOs ∧ st ≠ .terminated ∧ (st' = .terminated ↔ x = .sigterm) := by
  cases st <;> cases x <;> simp [obey] at h <;> subst h <;> decide

theorem heard_snoc {signals : List Signal} {x : Signal} {st : ProcessState}
    (h : heard (signals ++ [x]) = some st) :
    ∃ st₀, heard signals = some st₀ ∧ obey st₀ x = some st :=
  Option.bind_eq_some_iff.mp (heard_append_singleton signals x ▸ h)

theorem outcome_of_heard {signals : List Signal} {st : ProcessState}
    (h : heard signals = some st) : outcome signals = st.toOs := by
  induction signals using List.reverseRecOn generalizing st with
  | nil =>
    obtain rfl := Option.some.inj h
    rfl
  | append_singleton signals x ih =>
    obtain ⟨st₀, h₀, hx⟩ := heard_snoc h
    rw [outcome_append, ih h₀]
    exact (take_of_obey hx).1

theorem sigterm_of_heard {signals : List Signal} {st : ProcessState}
    (h : heard signals = some st) :
    if st = .terminated then
      ∃ xs, signals = xs ++ [.sigterm] ∧ Signal.sigterm ∉ xs ∧ outcome xs = .running
    else Signal.sigterm ∉ signals := by
  induction signals using List.reverseRecOn generalizing st with
  | nil =>
    obtain rfl := Option.some.inj h
    simp
  | append_singleton signals x ih =>
    obtain ⟨st₀, h₀, hx⟩ := heard_snoc h
    obtain ⟨-, hne, hiff⟩ := take_of_obey hx
    have hnot := ih h₀
    rw [if_neg hne] at hnot
    split
    · rename_i hst
      obtain rfl := hiff.mp hst
      refine ⟨signals, rfl, hnot, ?_⟩
      cases st₀ with
      | running => exact outcome_of_heard h₀
      | stopped | terminated => cases hx
    · rename_i hst
      have hx' : x ≠ .sigterm := fun h => hst (hiff.mpr h)
      simp [hnot, Ne.symm hx']

section Reached
variable {c : Settings} {s : State}

/-- What the threads led a process to: the state they recorded, or are about to record. -/
theorem Inv.heard (h : Inv c s) {p : Nat} (hp : p ∈ List.range' 1 c.processes) :
    ∃ sg st, heard sg = some st ∧ (s.info p).signals = sg ++ s.phase.added p (s.info p).state ∧
      ((s.info p).lock = none → st = (s.info p).state) ∧
      (st = .terminated → (s.face p).doomed = true) := by
  obtain ⟨sg, hl, heq⟩ := h.lawful p hp
  have hsome : ∃ st, Stress.heard sg = some st ∧
      ((s.info p).lock = none → st = (s.info p).state) := by
    cases hlock : (s.info p).lock with
    | none =>
      simp only [State.face, hlock, Option.map_none, Face.Lawful] at hl
      exact ⟨_, hl, fun _ => rfl⟩
    | some i =>
      simp only [State.face, hlock, Option.map_some, Face.Lawful] at hl
      cases hpc : (s.thread i).pc <;> simp only [hpc] at hl
      case reserving | sending | sent => exact ⟨_, hl.2, by simp⟩
      all_goals exact ⟨_, hl, by simp⟩
  obtain ⟨st, hst, hfree⟩ := hsome
  refine ⟨sg, st, hst, heq, hfree, fun hterm => ?_⟩
  have := hl.doomed_of_sigterm (hterm ▸ hst)
  exact this

theorem Inv.unlocked (h : Inv c s) (hphase : s.phase ≠ .stressing) (p : Nat) :
    (s.info p).lock = none := by
  cases hlock : (s.info p).lock with
  | none => rfl
  | some i =>
    have := (h.locked i p).mp hlock
    rw [h.idle i (.inr hphase)] at this
    cases this

def threeProcesses : Settings where
  processes := 3
  concurrency := 2
  attempts := 1
  selectOp := [.stopped, .running, .terminated]
  selectProc _ := [1, 2, 3]
  shuffled _ := .refl _
  endsOnSigterm _ := true

def stopAndTerminate : List Action :=
  [.choose 0 1 .stopped, .choose 1 2 .terminated, .acquire 1, .acquire 0, .check 1, .reserve 1,
    .check 0, .sendSignal 0, .sendSignal 1]

def resumeAll : List Action :=
  stopAndTerminate ++ [.record 0, .record 1, .join, .continueNext, .continueNext, .continueNext,
    .continueNext]

def terminateAll : List Action :=
  resumeAll ++ [.pressEnter, .terminateNext, .terminateNext, .terminateNext, .terminateNext,
    .joinNext, .joinNext, .joinNext, .joinNext]

/-- While the threads of the stress test interfere, two threads are never in the block of one
process, none of them raises, and each signal finds its process in a state to obey it; a process
that no thread holds is in the state that is recorded. -/
theorem stress_signals (hn : 0 < c.processes) (hop : c.selectOp ≠ [])
    (h : (stressMachine c).Reachable s) :
    (∀ i j p, (s.thread i).pc.holds = some p → (s.thread j).pc.holds = some p → i = j) ∧
    (∀ i, (s.thread i).pc ≠ .raised) ∧
    (s.phase = .stressing → ∀ p ∈ List.range' 1 c.processes, ∃ st,
      heard (s.info p).signals = some st ∧ ((s.info p).lock = none → st = (s.info p).state)) := by
  have hi := inv_reachable hn hop h
  refine ⟨fun i j p hi' hj => ?_, hi.notRaised, fun hphase p hp => ?_⟩
  · exact Option.some.inj (((hi.locked i p).mpr hi').symm.trans ((hi.locked j p).mpr hj))
  · obtain ⟨sg, st, hst, heq, hfree, -⟩ := hi.heard hp
    rw [hphase] at heq
    rw [heq]
    exact ⟨st, by simpa [Phase.added] using hst, hfree⟩

theorem stress_signals_trio :
    (((stressMachine threeProcesses).after stopAndTerminate).info 2).signals = [.sigterm] ∧
    ∀ p ∈ List.range' 1 3, ∃ st,
      heard (((stressMachine threeProcesses).after stopAndTerminate).info p).signals = some st ∧
      ((((stressMachine threeProcesses).after stopAndTerminate).info p).lock = none →
        st = (((stressMachine threeProcesses).after stopAndTerminate).info p).state) :=
  ⟨by decide, (stress_signals (by decide) (by decide)
    ((stressMachine threeProcesses).reachable_after stopAndTerminate)).2.2 (by decide)⟩

/-- As long as `main` has at most continued processes, who was sent SIGTERM is doomed. -/
theorem Inv.doomed_of_sigterm (hi : Inv c s) {p : Nat} (hp : p ∈ List.range' 1 c.processes)
    (hadded : .sigterm ∉ s.phase.added p (s.info p).state) (hterm : .sigterm ∈ (s.info p).signals) :
    (s.face p).doomed = true := by
  obtain ⟨sg, st, hst, heq, -, hdoom⟩ := hi.heard hp
  refine hdoom ?_
  by_contra hne
  have hnot := sigterm_of_heard hst
  rw [if_neg hne] at hnot
  rw [heq, List.mem_append] at hterm
  exact hterm.elim hnot hadded

theorem Inv.few_sigterms (hi : Inv c s)
    (hadded : ∀ p, .sigterm ∉ s.phase.added p (s.info p).state) :
    2 * (List.range' 1 c.processes).countP (fun p => .sigterm ∈ (s.info p).signals) <
      c.processes := by
  have hle : (List.range' 1 c.processes).countP (fun p => .sigterm ∈ (s.info p).signals) ≤
      (List.range' 1 c.processes).countP fun p => (s.face p).doomed :=
    List.countP_mono_left fun p hp hterm =>
      hi.doomed_of_sigterm hp (hadded p) (of_decide_eq_true hterm)
  have := hi.count
  have := hi.room
  have := hi.saturation
  have := two_mul_maxTerminatedProcesses c.processes
  omega

theorem Inv.resumed_running (hi : Inv c s) (hwait : s.phase = .waiting) {p : Nat}
    (hp : p ∈ List.range' 1 c.processes) (hterm : .sigterm ∉ (s.info p).signals) :
    outcome (s.info p).signals = .running := by
  obtain ⟨sg, st, hst, heq, hfree, -⟩ := hi.heard hp
  have hfree := hfree (hi.unlocked (by simp [hwait]) p)
  subst hfree
  rw [hwait] at heq
  have hsg := outcome_of_heard hst
  have hlast := sigterm_of_heard hst
  rw [heq, outcome_append, hsg]
  cases hstate : (s.info p).state with
  | running | stopped => rfl
  | terminated =>
    rw [hstate, if_pos rfl] at hlast
    obtain ⟨xs, rfl, -⟩ := hlast
    exact absurd (by simp [heq]) hterm

/-- Until Enter is pressed fewer than half of the processes were sent SIGTERM; and when the test
waits for it, each of the others runs. -/
theorem stress_keeps_majority (hn : 0 < c.processes) (hop : c.selectOp ≠ [])
    (h : (stressMachine c).Reachable s)
    (hphase : s.phase = .stressing ∨ (∃ left, s.phase = .continuing left) ∨ s.phase = .waiting) :
    2 * (List.range' 1 c.processes).countP (fun p => .sigterm ∈ (s.info p).signals) <
      c.processes ∧
    (s.phase = .waiting → ∀ p ∈ List.range' 1 c.processes, .sigterm ∉ (s.info p).signals →
      outcome (s.info p).signals = .running) := by
  have hi := inv_reachable hn hop h
  have hresumed : ∀ st, Signal.sigterm ∉ resumed st := by
    intro st
    cases st <;> simp [resumed]
  have hadded : ∀ p, .sigterm ∉ s.phase.added p (s.info p).state := by
    intro p
    rcases hphase with h | ⟨left, h⟩ | h
    · simp [h, Phase.added]
    · by_cases hp : p ∈ left <;> simp [h, Phase.added, hp, hresumed]
    · simp [h, Phase.added, hresumed]
  exact ⟨hi.few_sigterms hadded, fun hwait p hp => hi.resumed_running hwait hp⟩

theorem stress_keeps_majority_trio :
    .sigterm ∈ (((stressMachine threeProcesses).after resumeAll).info 2).signals ∧
    (((stressMachine threeProcesses).after resumeAll).info 1).signals = [.sigstop, .sigcont] ∧
    2 * (List.range' 1 3).countP (fun p =>
      .sigterm ∈ (((stressMachine threeProcesses).after resumeAll).info p).signals) < 3 :=
  ⟨by decide, by decide, (stress_keeps_majority (by decide) (by decide)
    ((stressMachine threeProcesses).reachable_after resumeAll) (.inr (.inr (by decide)))).1⟩

/-- Once `main` has gone through all processes, each was sent one SIGTERM, as the last signal, when
it ran. -/
theorem Inv.told (hi : Inv c s) (hphase : s.phase ≠ .stressing)
    (hadded : ∀ p st, s.phase.added p st = resumed st ++ ended st) {p : Nat}
    (hp : p ∈ List.range' 1 c.processes) : outcome (s.info p).signals = .ended ∧
      ∃ xs, (s.info p).signals = xs ++ [.sigterm] ∧ Signal.sigterm ∉ xs ∧
        outcome xs = .running := by
  obtain ⟨sg, st, hst, heq, hfree, -⟩ := hi.heard hp
  have hfree := hfree (hi.unlocked hphase p)
  subst hfree
  rw [hadded] at heq
  have hsg := outcome_of_heard hst
  have hlast := sigterm_of_heard hst
  cases hstate : (s.info p).state with
  | running =>
    rw [hstate] at heq hsg hlast
    refine ⟨?_, sg, heq, hlast, hsg⟩
    rw [heq, outcome_append, hsg]
    rfl
  | stopped =>
    -- the record was left as it is, so the process is continued twice
    rw [hstate] at heq hsg hlast
    refine ⟨?_, sg ++ [.sigcont, .sigcont], by simp [heq, resumed, ended], ?_, ?_⟩
    · rw [heq, outcome_append, hsg]
      rfl
    · simpa using hlast
    · rw [outcome_append, hsg]
      rfl
  | terminated =>
    rw [hstate, if_pos rfl] at hlast
    rw [hstate] at heq hsg
    obtain ⟨xs, rfl, hnot, hrun⟩ := hlast
    have hsame : (s.info p).signals = xs ++ [.sigterm] := heq.trans (List.append_nil _)
    exact ⟨hsame ▸ hsg, xs, hsame, hnot, hrun⟩

/-- From when the test waits for the processes until it is over: the one SIGTERM that each was
sent ends it, and it got nothing after that. -/
theorem stress_ends_each (hn : 0 < c.processes) (hop : c.selectOp ≠ [])
    (h : (stressMachine c).Reachable s)
    (hphase : (∃ left, s.phase = .joining left) ∨ s.phase = .finished) {p : Nat}
    (hp : p ∈ List.range' 1 c.processes) :
    outcome (s.info p).signals = .ended ∧
    ∃ xs, (s.info p).signals = xs ++ [.sigterm] ∧ Signal.sigterm ∉ xs ∧
      outcome xs = .running := by
  have hi := inv_reachable hn hop h
  rcases hphase with ⟨left, hphase⟩ | hphase
  · exact hi.told (by simp [hphase]) (fun p st => by rw [hphase]; rfl) hp
  · exact hi.told (by simp [hphase]) (fun p st => by rw [hphase]; rfl) hp

theorem stress_ends_each_trio :
    (((stressMachine threeProcesses).after terminateAll).info 1).signals =
      [.sigstop, .sigcont, .sigcont, .sigterm] ∧
    outcome (((stressMachine threeProcesses).after terminateAll).info 1).signals = .ended :=
  ⟨by decide, (stress_ends_each (by decide) (by decide)
    ((stressMachine threeProcesses).reachable_after terminateAll) (.inr (by decide))
    (p := 1) (by decide)).1⟩

/-- How far a thread is from the next time it chooses. -/
def Pc.rank : Pc → Nat
  | .choosing | .raised => 0
  | .chosen _ _ => 5
  | .checking _ _ => 4
  | .reserving _ => 3
  | .sending _ _ => 2
  | .sent _ _ => 1

def Settings.work (c : Settings) (t : Thread) : Nat :=
  c.attempts - t.successfulAttempts + t.pc.rank

def Phase.weight (n : Nat) : Phase → Nat
  | .stressing => 3 * n + 6
  | .continuing left => left.length + 2 * n + 4
  | .waiting => 2 * n + 3
  | .terminating left => left.length + n + 2
  | .joining left => left.length + 1
  | .finished => 0

/-- What is left to do, for `main` and for the threads. -/
def Settings.todo (c : Settings) (s : State) : Nat :=
  s.phase.weight c.processes + ∑ i ∈ Finset.range c.threads, c.work (s.thread i)

theorem todo_lt_of_thread {s' : State} {i : Nat} (hi : i < c.threads) (hphase : s'.phase = s.phase)
    (hothers : ∀ j, j ≠ i → s'.thread j = s.thread j)
    (hlt : c.work (s'.thread i) < c.work (s.thread i)) : c.todo s' < c.todo s := by
  have hsum : ∑ j ∈ Finset.range c.threads, c.work (s'.thread j) <
      ∑ j ∈ Finset.range c.threads, c.work (s.thread j) := by
    refine Finset.sum_lt_sum (fun j _ => ?_) ⟨i, Finset.mem_range.mpr hi, hlt⟩
    by_cases hj : j = i
    · exact hj ▸ hlt.le
    · rw [hothers j hj]
  rw [Settings.todo, Settings.todo, hphase]
  omega

theorem todo_lt_of_phase {s' : State} (hthread : s'.thread = s.thread)
    (hlt : s'.phase.weight c.processes < s.phase.weight c.processes) : c.todo s' < c.todo s := by
  rw [Settings.todo, Settings.todo, hthread]
  omega

/-- All turns but a choice bring the thread closer to the end of its round. -/
theorem State.Move.todo_lt {s' : State} {i : Nat} (hm : State.Move c s i s') (hi : Inv c s)
    (hop : c.selectOp ≠ []) (hthread : i < c.threads) (hpc : (s.thread i).pc ≠ .choosing) :
    c.todo s' < c.todo s := by
  have hr := hm.rearranged hi hop
  refine todo_lt_of_thread hthread hr.phase hr.others ?_
  cases hm with
  | choose h | noChoice h => exact absurd h hpc
  | missing h hp => exact absurd (hi.picked i _ (by rw [h]; rfl)) hp
  | acquire h | refuse h | ask h | pass h | full h | send h =>
    simp [Settings.work, State.leave, State.setPc, State.setLock, State.send, h, Pc.rank]
  | reserve h => simp [Settings.work, h, Pc.rank]
  | record h =>
    simp only [Settings.work, State.setThread_same, h, Pc.rank]
    omega

/-- A thread that is in a block, or at one that is free, has a turn. -/
theorem exists_move (hphase : s.phase = .stressing) {i : Nat} (hthread : i < c.threads)
    (hpc : (s.thread i).pc ≠ .choosing) (hraised : (s.thread i).pc ≠ .raised)
    (hfree : ∀ p op, (s.thread i).pc = .chosen p op → (s.info p).lock = none) :
    ∃ a s', State.step c s a = some s' ∧ State.Move c s i s' := by
  have turn : ∀ {a : Action} {o : Option State},
      State.step c s a = (if i < c.threads ∧ s.phase = .stressing then o else none) →
      (∀ {s'}, o = some s' → State.Move c s i s') → o.isSome →
      ∃ a s', State.step c s a = some s' ∧ State.Move c s i s' := by
    intro a o hs hmove ho
    obtain ⟨s', rfl⟩ := Option.isSome_iff_exists.mp ho
    exact ⟨a, s', by rw [hs, if_pos ⟨hthread, hphase⟩], hmove rfl⟩
  cases h : (s.thread i).pc with
  | choosing => exact absurd h hpc
  | raised => exact absurd h hraised
  | chosen p op =>
    refine turn (a := .acquire i) rfl State.move_of_acquire ?_
    simp [State.acquire, h, hfree p op h]
  | checking p op =>
    refine turn (a := .check i) rfl State.move_of_check ?_
    simp only [State.check, h]
    split <;> rfl
  | reserving p =>
    refine turn (a := .reserve i) rfl State.move_of_reserve ?_
    simp only [State.reserve, h]
    split
    · split <;> rfl
    · rfl
  | sending p op =>
    exact turn (a := .sendSignal i) rfl State.move_of_sendSignal (by simp [State.sendSignal, h])
  | sent p op => exact turn (a := .record i) rfl State.move_of_record (by simp [State.record, h])

/-- Who waits for a lock waits for a thread that can go on. -/
theorem Inv.ready_or_choosing (hi : Inv c s) :
    (∃ i, (s.thread i).pc ≠ .choosing ∧
      ∀ p op, (s.thread i).pc = .chosen p op → (s.info p).lock = none) ∨
    ∀ i, (s.thread i).pc = .choosing := by
  by_cases hblock : ∃ i p, (s.thread i).pc.holds = some p
  · obtain ⟨i, p, hholds⟩ := hblock
    refine .inl ⟨i, fun h => ?_, fun q op h => ?_⟩
    · simp [h, Pc.holds] at hholds
    · simp [h, Pc.holds] at hholds
  · by_cases hall : ∀ i, (s.thread i).pc = .choosing
    · exact .inr hall
    · push Not at hall
      obtain ⟨i, hpc⟩ := hall
      refine .inl ⟨i, hpc, fun p op h => ?_⟩
      cases hlock : (s.info p).lock with
      | none => rfl
      | some j => exact absurd ⟨j, p, (hi.locked j p).mp hlock⟩ hblock

theorem step_steps {s' : State} {a : Action} (hs : State.step c s a = some s') :
    (stressMachine c).Steps (fun _ _ => True) s s' := .single ⟨a, trivial, hs⟩

/-- With no thread in a block, one that has attempts left can make one succeed. -/
theorem Inv.attempt (hi : Inv c s) (hphase : s.phase = .stressing) (hstop : .stopped ∈ c.selectOp)
    (hcont : .running ∈ c.selectOp) {i : Nat} (hthread : i < c.threads)
    (hpc : ∀ j, (s.thread j).pc = .choosing)
    (hleft : (s.thread i).successfulAttempts < c.attempts) :
    ∃ s', (stressMachine c).Steps (fun _ _ => True) s s' ∧ c.todo s' < c.todo s := by
  obtain ⟨p, hp, hd⟩ := hi.spared
  have hsel : p ∈ (s.thread i).selectProc := hi.spared_mem hp hd
  have hfree : (s.info p).lock = none := by
    cases hlock : (s.info p).lock with
    | none => rfl
    | some j =>
      have := (hi.locked j p).mp hlock
      rw [hpc j] at this
      cases this
  obtain ⟨op, hop, hv, hne⟩ : ∃ op ∈ c.selectOp, validStateTransition (s.info p).state op ∧
      op ≠ .terminated := by
    cases hst : (s.info p).state with
    | running => exact ⟨.stopped, hstop, by decide, by decide⟩
    | stopped => exact ⟨.running, hcont, by decide, by decide⟩
    | terminated => simp [State.face, hfree, Face.doomed, hst] at hd
  set s₁ := s.setPc i (.chosen p op) with hs₁
  set s₂ := (s₁.setLock p (some i)).setPc i (.checking p op) with hs₂
  set s₃ := s₂.setPc i (.sending p op) with hs₃
  set s₄ := (s₃.send p (stateToSignal op)).setPc i (.sent p op) with hs₄
  set s₅ := (s₄.setInfo p { s₄.info p with lock := none, state := op }).setThread i
    { s₄.thread i with
      successfulAttempts := (s₄.thread i).successfulAttempts + 1, pc := .choosing } with hs₅
  have h₁ : (stressMachine c).step s (.choose i p op) = some s₁ := by
    simp [stressMachine, State.step, State.choose, hthread, hphase, hpc i, hleft, hsel, hop,
      List.ne_nil_of_mem hsel, List.ne_nil_of_mem hop, hs₁]
  have h₂ : (stressMachine c).step s₁ (.acquire i) = some s₂ := by
    simp [stressMachine, State.step, State.acquire, hthread, hphase, hs₁, hs₂, State.setPc, hfree]
  have h₃ : (stressMachine c).step s₂ (.check i) = some s₃ := by
    simp [stressMachine, State.step, State.check, hthread, hphase, hs₁, hs₂, hs₃, State.setPc,
      State.setLock, hv, hne]
  have h₄ : (stressMachine c).step s₃ (.sendSignal i) = some s₄ := by
    simp [stressMachine, State.step, State.sendSignal, hthread, hphase, hs₁, hs₂, hs₃, hs₄,
      State.setPc, State.setLock]
  have h₅ : (stressMachine c).step s₄ (.record i) = some s₅ := by
    simp [stressMachine, State.step, State.record, hthread, hphase, hs₁, hs₂, hs₃, hs₄, hs₅,
      State.setPc, State.setLock, State.send]
  refine ⟨s₅, .head trivial h₁ (.head trivial h₂ (.head trivial h₃ (.head trivial h₄
    (.head trivial h₅ .refl)))), todo_lt_of_thread hthread rfl (fun j hj => ?_) ?_⟩
  · simp [hs₁, hs₂, hs₃, hs₄, hs₅, State.setPc, State.setLock, State.send, hj]
  · simp [Settings.work, hs₁, hs₂, hs₃, hs₄, hs₅, State.setPc, State.setLock, State.send, hpc i,
      Pc.rank]
    omega

theorem State.MainMove.todo_lt {s' : State} (h : State.MainMove c s s') : c.todo s' < c.todo s := by
  cases h with
  | join hp | noneLeft hp | pressEnter hp | terminated hp =>
    refine todo_lt_of_phase rfl ?_
    simp only [hp, Phase.weight, List.length_range', List.length_nil]
    omega
  | continued hp | joined hp | joinOne hp =>
    refine todo_lt_of_phase rfl ?_
    simp [hp, Phase.weight]
  | @continueOne p left hp =>
    refine todo_lt_of_phase (sends_continueOne s p (.continuing left)).thread ?_
    simp [hp, Phase.weight]
  | @terminateOne p left hp =>
    refine todo_lt_of_phase (sends_terminateOne s p (.terminating left)).thread ?_
    simp [hp, Phase.weight]

theorem Inv.threads_closer (hi : Inv c s) (hphase : s.phase = .stressing)
    (hstop : .stopped ∈ c.selectOp) (hcont : .running ∈ c.selectOp) :
    ∃ s', (stressMachine c).Steps (fun _ _ => True) s s' ∧ c.todo s' < c.todo s := by
  rcases hi.ready_or_choosing with ⟨i, hpc, hfree⟩ | hpc
  · have hthread : i < c.threads := by
      by_contra hnot
      exact hpc (hi.idle i (.inl (by omega)))
    obtain ⟨a, s', hs, hmove⟩ := exists_move hphase hthread hpc (hi.notRaised i) hfree
    exact ⟨s', step_steps hs, hmove.todo_lt hi (List.ne_nil_of_mem hstop) hthread hpc⟩
  · by_cases hover : ∀ i < c.threads, s.Over c i
    · have hs : State.step c s .join =
          some { s with phase := .continuing (List.range' 1 c.processes) } := by
        rw [State.step, if_pos ⟨hphase, hover⟩]
      exact ⟨_, step_steps hs, (State.MainMove.join hphase hover).todo_lt⟩
    · push Not at hover
      obtain ⟨i, hthread, hnot⟩ := hover
      refine hi.attempt hphase hstop hcont hthread hpc ?_
      by_contra hdone
      exact hnot (.inr ⟨hpc i, by omega⟩)

/-- Once the threads are joined `main` can go on to the end, if no process hangs in its handler. -/
theorem Inv.exists_mainMove (hi : Inv c s)
    (hends : ∀ p ∈ List.range' 1 c.processes, c.endsOnSigterm p)
    (hphase : s.phase ≠ .stressing) (hnot : s.phase ≠ .finished) :
    ∃ a s', State.step c s a = some s' := by
  cases h : s.phase with
  | stressing => exact absurd h hphase
  | continuing left => cases left <;> exact ⟨.continueNext, _, by rw [State.step, h]⟩
  | waiting =>
    by_cases hnone : s.remainingUnterminatedProcesses c = []
    · exact ⟨.pressEnter, _, by rw [State.step, if_pos h, if_pos hnone]⟩
    · exact ⟨.pressEnter, _, by rw [State.step, if_pos h, if_neg hnone]⟩
  | terminating left => cases left <;> exact ⟨.terminateNext, _, by rw [State.step, h]⟩
  | joining left =>
    cases left with
    | nil => exact ⟨.joinNext, _, by rw [State.step, h]⟩
    | cons p left =>
      have hp : p ∈ List.range' 1 c.processes := by
        have hleft := hi.left
        rw [h] at hleft
        exact hleft.subset (by simp [Phase.left])
      have hexit : s.Exited c p := ⟨(hi.told hphase (fun p st => by rw [h]; rfl) hp).1, hends p hp⟩
      exact ⟨.joinNext, { s with phase := .joining left }, by simp [State.step, h, hexit]⟩
  | finished => exact absurd h hnot

/-- As long as the test is not over, its threads or `main` can come closer to the end. -/
theorem Inv.closer (hi : Inv c s) (hstop : .stopped ∈ c.selectOp) (hcont : .running ∈ c.selectOp)
    (hends : ∀ p ∈ List.range' 1 c.processes, c.endsOnSigterm p) (hnot : s.phase ≠ .finished) :
    ∃ s', (stressMachine c).Steps (fun _ _ => True) s s' ∧ c.todo s' < c.todo s := by
  by_cases hphase : s.phase = .stressing
  · exact hi.threads_closer hphase hstop hcont
  · obtain ⟨a, s', hs⟩ := hi.exists_mainMove hends hphase hnot
    rcases State.step_move hs with ⟨i, -, h, -⟩ | hmove
    · exact absurd h hphase
    · exact ⟨s', step_steps hs, hmove.todo_lt⟩

/-- The processes whose monitors `main` has joined. -/
def Phase.Joined (phase : Phase) (p : Nat) : Prop :=
  match phase with
  | .joining left => p ∉ left
  | .finished => True
  | _ => False

theorem joined_ends (hn : 0 < c.processes) (hop : c.selectOp ≠ [])
    (h : (stressMachine c).Reachable s) :
    ∀ p ∈ List.range' 1 c.processes, s.phase.Joined p → c.endsOnSigterm p := by
  have hstart : ∀ p ∈ List.range' 1 c.processes, (start c).phase.Joined p → c.endsOnSigterm p :=
    fun _ _ hj => False.elim hj
  refine (h.invariant (fun s => Inv c s ∧
    ∀ p ∈ List.range' 1 c.processes, s.phase.Joined p → c.endsOnSigterm p)
    ⟨inv_start c hn, hstart⟩ fun s a s' hs hstep => ?_).2
  obtain ⟨hi, hall⟩ := hs
  rcases State.step_move hstep with ⟨i, hthread, hphase, hmove⟩ | hmove
  · refine ⟨hi.move hthread hphase hop hmove, fun p _ hj => ?_⟩
    rw [(hmove.rearranged hi hop).phase, hphase] at hj
    exact hj.elim
  · refine ⟨hi.mainMove hmove, fun p hp hj => ?_⟩
    cases hmove with
    | join | continued | continueOne | pressEnter | terminateOne => exact hj.elim
    | noneLeft | terminated => exact absurd hp hj
    | joined hphase => exact hall p hp (by simp [hphase, Phase.Joined])
    | @joinOne q left hphase hexit =>
      by_cases hpq : p = q
      · exact hpq ▸ hexit.2
      · refine hall p hp ?_
        rw [hphase]
        exact fun hin => (List.mem_cons.mp hin).elim hpq hj

/-- If the threads may stop and continue processes, the test can come to its end from whatever
state it is in, unless a process hangs when it is to end: then it never does. -/
theorem stress_can_finish (hn : 0 < c.processes) (hstop : .stopped ∈ c.selectOp)
    (hcont : .running ∈ c.selectOp) (h : (stressMachine c).Reachable s) :
    (∃ s', (stressMachine c).Steps (fun _ _ => True) s s' ∧ s'.phase = .finished) ↔
      ∀ p ∈ List.range' 1 c.processes, c.endsOnSigterm p := by
  have hop : c.selectOp ≠ [] := List.ne_nil_of_mem hstop
  constructor
  · rintro ⟨s', hsteps, hphase⟩ p hp
    have hreach : (stressMachine c).Reachable s' := Relation.ReflTransGen.trans h hsteps
    exact joined_ends hn hop hreach p hp (by rw [hphase]; trivial)
  · intro hends
    have hcloser : ∀ s, (stressMachine c).Reachable s → s.phase ≠ .finished →
        ∃ s', (stressMachine c).Steps (fun _ _ => True) s s' ∧ (stressMachine c).Reachable s' ∧
          c.todo s' < c.todo s := by
      intro s hs hnot
      obtain ⟨s', hsteps, hlt⟩ := (inv_reachable hn hop hs).closer hstop hcont hends hnot
      exact ⟨s', hsteps, Relation.ReflTransGen.trans hs hsteps, hlt⟩
    obtain ⟨s', hsteps, -, hphase⟩ := Machine.Steps.reaches (stressMachine c).Reachable
      (fun s => s.phase = .finished) c.todo hcloser h
    exact ⟨s', hsteps, hphase⟩

theorem stress_can_finish_trio : ∃ s', (stressMachine threeProcesses).Steps (fun _ _ => True)
    ((stressMachine threeProcesses).after stopAndTerminate) s' ∧ s'.phase = .finished :=
  (stress_can_finish (by decide) (by decide) (by decide)
    ((stressMachine threeProcesses).reachable_after stopAndTerminate)).mpr fun _ _ => rfl

end Reached

end DecentralizedBroadcast.Stress
