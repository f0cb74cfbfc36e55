import DecentralizedBroadcast.StressTest

/-! What one step of the stress test can do, and what the turn of a thread does to the process that
it holds. A process is seen through the signals it got and the thread that has its lock. -/
set_option autoImplicit false

namespace DecentralizedBroadcast.Stress

/-- How a process takes a signal that means something to it. -/
def obey : ProcessState → Signal → Option ProcessState
  | .running, .sigstop => some .stopped
  | .stopped, .sigcont => some .running
  | .running, .sigterm => some .terminated
  | _, _ => none

/-- Where the signals lead a process that runs, if each of them is one it can obey. -/
def heard (signals : List Signal) : Option ProcessState := signals.foldlM obey .running

theorem heard_append_singleton (signals : List Signal) (x : Signal) :
    heard (signals ++ [x]) = (heard signals).bind (obey · x) := by
  rw [heard, List.foldlM_append, heard]
  cases signals.foldlM obey .running <;> simp

theorem obey_of_valid {current desired : ProcessState}
    (h : validStateTransition current desired) :
    obey current (stateToSignal desired) = some desired := by
  cases current <;> cases desired <;> simp [validStateTransition] at h <;> rfl

/-- The process whose lock a thread holds there. -/
def Pc.holds : Pc → Option Nat
  | .checking p _ | .reserving p | .sending p _ | .sent p _ => some p
  | _ => none

/-- The process a thread has picked and may still give up. -/
def Pc.picked : Pc → Option Nat
  | .chosen p _ | .checking p _ | .reserving p => some p
  | _ => none

/-- A process as the threads see it: the place of the thread that holds it, and its record. -/
structure Face where
  owner : Option Pc
  state : ProcessState
  signals : List Signal

namespace Face

/-- What a turn of a thread does to its process, with the places it reserves. -/
inductive Step (p : Nat) : Nat → Face → Face → Prop
  | acquire {st : ProcessState} {sg : List Signal} (op : ProcessState) :
      Step p 0 ⟨none, st, sg⟩ ⟨some (.checking p op), st, sg⟩
  | refuse {st : ProcessState} {sg : List Signal} (op : ProcessState) :
      Step p 0 ⟨some (.checking p op), st, sg⟩ ⟨none, st, sg⟩
  | ask {st : ProcessState} {sg : List Signal} (hv : validStateTransition st .terminated) :
      Step p 0 ⟨some (.checking p .terminated), st, sg⟩ ⟨some (.reserving p), st, sg⟩
  | pass {st : ProcessState} {sg : List Signal} {op : ProcessState}
      (hv : validStateTransition st op) (hop : op ≠ .terminated) :
      Step p 0 ⟨some (.checking p op), st, sg⟩ ⟨some (.sending p op), st, sg⟩
  | full {st : ProcessState} {sg : List Signal} :
      Step p 0 ⟨some (.reserving p), st, sg⟩ ⟨none, st, sg⟩
  | reserve {st : ProcessState} {sg : List Signal} :
      Step p 1 ⟨some (.reserving p), st, sg⟩ ⟨some (.sending p .terminated), st, sg⟩
  | send {st : ProcessState} {sg : List Signal} {op : ProcessState} :
      Step p 0 ⟨some (.sending p op), st, sg⟩ ⟨some (.sent p op), st, sg ++ [stateToSignal op]⟩
  | record {st : ProcessState} {sg : List Signal} {op : ProcessState} :
      Step p 0 ⟨some (.sent p op), st, sg⟩ ⟨none, op, sg⟩

/-- The record fits the signals; a thread that is past the check was right to pass. -/
def Lawful (f : Face) : Prop :=
  match f.owner with
  | some (.reserving _) => validStateTransition f.state .terminated ∧ heard f.signals = some f.state
  | some (.sending _ op) => validStateTransition f.state op ∧ heard f.signals = some f.state
  | some (.sent _ op) => validStateTransition f.state op ∧ heard f.signals = some op
  | _ => heard f.signals = some f.state

/-- The process is terminated, or a thread that holds it is about to see to that. -/
def doomed (f : Face) : Bool :=
  match f.owner with
  | some (.sending _ .terminated) | some (.sent _ .terminated) => true
  | _ => f.state = .terminated

theorem Step.lawful {p k : Nat} {f f' : Face} (h : Step p k f f') (hf : f.Lawful) :
    f'.Lawful := by
  cases h with
  | acquire op | refuse op => exact hf
  | ask hv => exact ⟨hv, hf⟩
  | pass hv hop => exact ⟨hv, hf⟩
  | full => exact hf.2
  | reserve => exact hf
  | send =>
    obtain ⟨hv, hh⟩ := hf
    refine ⟨hv, ?_⟩
    rw [heard_append_singleton, hh]
    exact obey_of_valid hv
  | record => exact hf.2

/-- A process is doomed when its place is reserved, at no other step, and for good. -/
theorem Step.doomed {p k : Nat} {f f' : Face} (h : Step p k f f') (hf : f.Lawful) :
    f'.doomed.toNat = f.doomed.toNat + k := by
  have hvalid : ∀ {st op : ProcessState}, validStateTransition st op →
      st ≠ .terminated := by
    intro st op hv hst
    simp [hst, validStateTransition] at hv
  cases h with
  | acquire op | refuse op | ask hv | full => rfl
  | @pass st sg op hv hop => cases op <;> first | rfl | exact absurd rfl hop
  | @reserve st sg => simp [Face.doomed, hvalid hf.1]
  | @send st sg op => cases op <;> rfl
  | @record st sg op =>
    have hst := hvalid hf.1
    cases op <;> simp [Face.doomed, hst]

end Face

theorem Face.Lawful.doomed_of_sigterm {f : Face} (hf : f.Lawful)
    (h : heard f.signals = some .terminated) : f.doomed = true := by
  obtain ⟨owner, state, signals⟩ := f
  rcases owner with _ | pc
  · simpa [Face.Lawful, Face.doomed, h, eq_comm] using hf
  · cases pc with
    | choosing | chosen p op | checking p op | raised =>
      simpa [Face.Lawful, Face.doomed, h, eq_comm] using hf
    | reserving p => simpa [Face.Lawful, Face.doomed, h, eq_comm] using hf.2
    | sending p op =>
      have hst : ProcessState.terminated = state := by simpa [h] using hf.2
      simp [Face.Lawful, ← hst, validStateTransition] at hf
    | sent p op =>
      have hop : ProcessState.terminated = op := by simpa [h] using hf.2
      subst hop
      rfl

namespace State

def face (s : State) (p : Nat) : Face where
  owner := (s.info p).lock.map fun i => (s.thread i).pc
  state := (s.info p).state
  signals := (s.info p).signals

def Locked (s : State) : Prop :=
  ∀ i p, (s.info p).lock = some i ↔ (s.thread i).pc.holds = some p

section Simp
variable (s : State) (p i : Nat)

@[simp] theorem setInfo_same (x : ProcessInfo) : (s.setInfo p x).info p = x :=
  Function.update_self ..

@[simp] theorem setInfo_other (x : ProcessInfo) {q : Nat} (h : q ≠ p) :
    (s.setInfo p x).info q = s.info q := Function.update_of_ne h ..

@[simp] theorem setInfo_thread (x : ProcessInfo) : (s.setInfo p x).thread = s.thread := rfl

@[simp] theorem setInfo_counter (x : ProcessInfo) :
    (s.setInfo p x).terminatedProcs = s.terminatedProcs := rfl

@[simp] theorem setInfo_phase (x : ProcessInfo) : (s.setInfo p x).phase = s.phase := rfl

@[simp] theorem setThread_same (x : Thread) : (s.setThread i x).thread i = x :=
  Function.update_self ..

@[simp] theorem setThread_other (x : Thread) {j : Nat} (h : j ≠ i) :
    (s.setThread i x).thread j = s.thread j := Function.update_of_ne h ..

@[simp] theorem setThread_info (x : Thread) : (s.setThread i x).info = s.info := rfl

@[simp] theorem setThread_counter (x : Thread) :
    (s.setThread i x).terminatedProcs = s.terminatedProcs := rfl

@[simp] theorem setThread_phase (x : Thread) : (s.setThread i x).phase = s.phase := rfl

end Simp

/-- Thread `i` took a turn with process `p`, whose lock it had, or found free, or gave back. -/
structure Turn (s s' : State) (i p : Nat) : Prop where
  others : ∀ j, j ≠ i → s'.thread j = s.thread j
  rest : ∀ q, q ≠ p → s'.info q = s.info q
  before : (s.info p).lock = none ∧ (s.thread i).pc.holds = none ∨
    (s.info p).lock = some i ∧ (s.thread i).pc.holds = some p
  after : (s'.info p).lock = none ∧ (s'.thread i).pc.holds = none ∨
    (s'.info p).lock = some i ∧ (s'.thread i).pc.holds = some p

theorem Turn.locked {s s' : State} {i p : Nat} (h : Turn s s' i p) (hl : s.Locked) :
    s'.Locked := by
  intro j q
  have hlock := hl j q
  by_cases hq : q = p
  · subst hq
    by_cases hj : j = i
    · subst hj
      rcases h.after with ⟨h₁, h₂⟩ | ⟨h₁, h₂⟩ <;> simp [h₁, h₂]
    · -- the lock was free or with `i`, and is so again
      rw [h.others j hj]
      have hne : (s.thread j).pc.holds ≠ some q := by
        intro hh
        have := hlock.mpr hh
        rcases h.before with ⟨h₁, -⟩ | ⟨h₁, -⟩
        · simp [h₁] at this
        · exact hj (Option.some.inj (this.symm.trans h₁))
      rcases h.after with ⟨h₁, -⟩ | ⟨h₁, -⟩ <;> simp [h₁, hne, Ne.symm hj]
  · rw [h.rest q hq, hlock]
    by_cases hj : j = i
    · subst hj
      have hb : (s.thread j).pc.holds ≠ some q := by
        rcases h.before with ⟨-, h₁⟩ | ⟨-, h₁⟩ <;> simp [h₁, Ne.symm hq]
      have ha : (s'.thread j).pc.holds ≠ some q := by
        rcases h.after with ⟨-, h₁⟩ | ⟨-, h₁⟩ <;> simp [h₁, Ne.symm hq]
      simp [hb, ha]
    · rw [h.others j hj]

theorem face_other {s s' : State} {i q : Nat} (hl : s.Locked)
    (hi : (s.thread i).pc.holds ≠ some q) (hothers : ∀ j, j ≠ i → s'.thread j = s.thread j)
    (hinfo : s'.info q = s.info q) : s'.face q = s.face q := by
  rw [face, face, hinfo]
  congr 1
  cases hlock : (s.info q).lock with
  | none => rfl
  | some j =>
    have hj : j ≠ i := by
      rintro rfl
      exact hi ((hl j q).mp hlock)
    simp [hothers j hj]

theorem Turn.face_other {s s' : State} {i p q : Nat} (h : Turn s s' i p) (hl : s.Locked)
    (hq : q ≠ p) : s'.face q = s.face q := by
  refine State.face_other hl ?_ h.others (h.rest q hq)
  rcases h.before with ⟨-, h₁⟩ | ⟨-, h₁⟩ <;> simp [h₁, Ne.symm hq]

inductive Move (c : Settings) (s : State) (i : Nat) : State → Prop
  | choose {p : Nat} {op : ProcessState} (hpc : (s.thread i).pc = .choosing)
      (hp : p ∈ (s.thread i).selectProc) :
      Move c s i (s.setPc i (.chosen p op))
  | noChoice (hpc : (s.thread i).pc = .choosing)
      (hnone : (s.thread i).selectProc = [] ∨ c.selectOp = []) : Move c s i (s.setPc i .raised)
  | acquire {p : Nat} {op : ProcessState} (hpc : (s.thread i).pc = .chosen p op)
      (hfree : (s.info p).lock = none) :
      Move c s i ((s.setLock p (some i)).setPc i (.checking p op))
  | refuse {p : Nat} {op : ProcessState} (hpc : (s.thread i).pc = .checking p op) :
      Move c s i (s.leave i p)
  | ask {p : Nat} (hpc : (s.thread i).pc = .checking p .terminated)
      (hv : validStateTransition (s.info p).state .terminated) :
      Move c s i (s.setPc i (.reserving p))
  | pass {p : Nat} {op : ProcessState} (hpc : (s.thread i).pc = .checking p op)
      (hv : validStateTransition (s.info p).state op) (hop : op ≠ .terminated) :
      Move c s i (s.setPc i (.sending p op))
  | full {p : Nat} (hpc : (s.thread i).pc = .reserving p) : Move c s i (s.leave i p)
  | reserve {p : Nat} (hpc : (s.thread i).pc = .reserving p)
      (hroom : s.terminatedProcs.value < s.terminatedProcs.saturation)
      (hp : p ∈ (s.thread i).selectProc) :
      Move c s i ({ s with terminatedProcs :=
          { s.terminatedProcs with value := s.terminatedProcs.value + 1 } }.setThread i
        { s.thread i with
          selectProc := (s.thread i).selectProc.erase p, pc := .sending p .terminated })
  | missing {p : Nat} {s' : State} (hpc : (s.thread i).pc = .reserving p)
      (hp : p ∉ (s.thread i).selectProc) : Move c s i s'
  | send {p : Nat} {op : ProcessState} (hpc : (s.thread i).pc = .sending p op) :
      Move c s i ((s.send p (stateToSignal op)).setPc i (.sent p op))
  | record {p : Nat} {op : ProcessState} (hpc : (s.thread i).pc = .sent p op) :
      Move c s i ((s.setInfo p { s.info p with lock := none, state := op }).setThread i
        { s.thread i with
          successfulAttempts := (s.thread i).successfulAttempts + 1, pc := .choosing })

inductive MainMove (c : Settings) (s : State) : State → Prop
  | join (hp : s.phase = .stressing) (hover : ∀ i < c.threads, s.Over c i) :
      MainMove c s { s with phase := .continuing (List.range' 1 c.processes) }
  | continued (hp : s.phase = .continuing []) : MainMove c s { s with phase := .waiting }
  | continueOne {p : Nat} {left : List Nat} (hp : s.phase = .continuing (p :: left)) :
      MainMove c s { s.continueOne p with phase := .continuing left }
  | noneLeft (hp : s.phase = .waiting) (hnone : s.remainingUnterminatedProcesses c = []) :
      MainMove c s { s with phase := .joining (List.range' 1 c.processes) }
  | pressEnter (hp : s.phase = .waiting) :
      MainMove c s { s with phase := .terminating (List.range' 1 c.processes) }
  | terminated (hp : s.phase = .terminating []) :
      MainMove c s { s with phase := .joining (List.range' 1 c.processes) }
  | terminateOne {p : Nat} {left : List Nat} (hp : s.phase = .terminating (p :: left)) :
      MainMove c s { s.terminateOne p with phase := .terminating left }
  | joined (hp : s.phase = .joining []) : MainMove c s { s with phase := .finished }
  | joinOne {p : Nat} {left : List Nat} (hp : s.phase = .joining (p :: left))
      (hexit : s.Exited c p) : MainMove c s { s with phase := .joining left }

section Step
variable {c : Settings} {s s' : State} {i p : Nat} {op : ProcessState}

theorem move_of_choose (h : s.choose c i p op = some s') : Move c s i s' := by
  simp only [State.choose, Option.ite_none_right_eq_some] at h
  obtain ⟨⟨hpc, -⟩, h⟩ := h
  split at h
  · rename_i hnone
    obtain rfl := Option.some.inj h
    exact .noChoice hpc hnone
  · simp only [Option.ite_none_right_eq_some, Option.some.injEq] at h
    obtain ⟨⟨hp, -⟩, rfl⟩ := h
    exact .choose hpc hp

theorem move_of_acquire (h : s.acquire i = some s') : Move c s i s' := by
  simp only [State.acquire] at h
  split at h
  · rename_i hpc
    simp only [Option.ite_none_right_eq_some, Option.some.injEq] at h
    obtain ⟨hfree, rfl⟩ := h
    exact .acquire hpc hfree
  · cases h

theorem move_of_check (h : s.check i = some s') : Move c s i s' := by
  simp only [State.check] at h
  split at h
  · rename_i p op hpc
    split at h
    · rename_i hv
      obtain rfl := Option.some.inj h
      by_cases hop : op = .terminated
      · subst hop
        exact .ask hpc hv
      · rw [if_neg hop]
        exact .pass hpc hv hop
    · obtain rfl := Option.some.inj h
      exact .refuse hpc
  · cases h

theorem move_of_reserve (h : s.reserve i = some s') : Move c s i s' := by
  simp only [State.reserve, AtomicSaturatedCounter.reserve] at h
  split at h
  · rename_i p hpc
    by_cases hroom : s.terminatedProcs.value < s.terminatedProcs.saturation
    · by_cases hp : p ∈ (s.thread i).selectProc
      · simp only [if_pos hroom, if_pos hp, if_true, Option.some.injEq] at h
        subst h
        exact .reserve hpc hroom hp
      · exact .missing hpc hp
    · simp only [if_neg hroom, Bool.false_eq_true, if_false, Option.some.injEq] at h
      subst h
      exact .full hpc
  · cases h

theorem move_of_sendSignal (h : s.sendSignal i = some s') : Move c s i s' := by
  simp only [State.sendSignal] at h
  split at h
  · rename_i hpc
    obtain rfl := Option.some.inj h
    exact .send hpc
  · cases h

theorem move_of_record (h : s.record i = some s') : Move c s i s' := by
  simp only [State.record] at h
  split at h
  · rename_i hpc
    obtain rfl := Option.some.inj h
    exact .record hpc
  · cases h

theorem mainMove_of_continueNext (h : State.step c s .continueNext = some s') :
    MainMove c s s' := by
  simp only [State.step] at h
  split at h
  · rename_i hp
    obtain rfl := Option.some.inj h
    exact .continued hp
  · rename_i hp
    obtain rfl := Option.some.inj h
    exact .continueOne hp
  · cases h

theorem mainMove_of_pressEnter (h : State.step c s .pressEnter = some s') : MainMove c s s' := by
  simp only [State.step, Option.ite_none_right_eq_some] at h
  obtain ⟨hp, h⟩ := h
  split at h
  · rename_i hnone
    obtain rfl := Option.some.inj h
    exact .noneLeft hp hnone
  · obtain rfl := Option.some.inj h
    exact .pressEnter hp

theorem mainMove_of_terminateNext (h : State.step c s .terminateNext = some s') :
    MainMove c s s' := by
  simp only [State.step] at h
  split at h
  · rename_i hp
    obtain rfl := Option.some.inj h
    exact .terminated hp
  · rename_i hp
    obtain rfl := Option.some.inj h
    exact .terminateOne hp
  · cases h

theorem mainMove_of_joinNext (h : State.step c s .joinNext = some s') : MainMove c s s' := by
  simp only [State.step] at h
  split at h
  · rename_i hp
    obtain rfl := Option.some.inj h
    exact .joined hp
  · rename_i hp
    simp only [Option.ite_none_right_eq_some, Option.some.injEq] at h
    obtain ⟨hexit, rfl⟩ := h
    exact .joinOne hp hexit
  · cases h

/-- Every step is the turn of a thread, while they run, or a step of `main`. -/
theorem step_move {a : Action} (h : State.step c s a = some s') :
    (∃ i < c.threads, s.phase = .stressing ∧ Move c s i s') ∨ MainMove c s s' := by
  have turn : ∀ {i : Nat} {o : Option State}, (o = some s' → Move c s i s') →
      (if i < c.threads ∧ s.phase = .stressing then o else none) = some s' →
      (∃ i < c.threads, s.phase = .stressing ∧ Move c s i s') ∨ MainMove c s s' := by
    intro i o hmove ho
    obtain ⟨⟨hi, hphase⟩, ho⟩ := Option.ite_none_right_eq_some.mp ho
    exact .inl ⟨i, hi, hphase, hmove ho⟩
  cases a with
  | choose i proc op => exact turn move_of_choose h
  | acquire i => exact turn move_of_acquire h
  | check i => exact turn move_of_check h
  | reserve i => exact turn move_of_reserve h
  | sendSignal i => exact turn move_of_sendSignal h
  | record i => exact turn move_of_record h
  | join =>
    simp only [State.step, Option.ite_none_right_eq_some, Option.some.injEq] at h
    obtain ⟨⟨hp, hover⟩, rfl⟩ := h
    exact .inr (.join hp hover)
  | continueNext => exact .inr (mainMove_of_continueNext h)
  | pressEnter => exact .inr (mainMove_of_pressEnter h)
  | terminateNext => exact .inr (mainMove_of_terminateNext h)
  | joinNext => exact .inr (mainMove_of_joinNext h)

end Step

/-- The turn of a thread, seen from the processes: one of them takes a step, or none. -/
structure Turned (s s' : State) (i p k : Nat) : Prop where
  locked : s'.Locked
  others : ∀ q, q ≠ p → s'.face q = s.face q
  step : s'.face p = s.face p ∧ k = 0 ∨ Face.Step p k (s.face p) (s'.face p)
  value : s'.terminatedProcs.value = s.terminatedProcs.value + k
  saturation : s'.terminatedProcs.saturation = s.terminatedProcs.saturation
  room : k ≠ 0 → p ∈ (s.thread i).selectProc ∧
    s'.terminatedProcs.value ≤ s.terminatedProcs.saturation

section Turned
variable {s : State} {i p : Nat} (hl : s.Locked)
include hl

theorem Locked.owner {pc : Pc} (hpc : (s.thread i).pc = pc) (hh : pc.holds = some p) :
    (s.info p).lock = some i := (hl i p).mpr (by rw [hpc, hh])

theorem Locked.face {pc : Pc} (hpc : (s.thread i).pc = pc) (hh : pc.holds = some p) :
    s.face p = ⟨some pc, (s.info p).state, (s.info p).signals⟩ := by
  simp [State.face, hl.owner hpc hh, hpc]

/-- A turn that is a step of its process and leaves the counter alone. -/
theorem Turned.ofTurn {s' : State} {f f' : Face} (hturn : Turn s s' i p)
    (hcounter : s'.terminatedProcs = s.terminatedProcs) (hbefore : s.face p = f)
    (hafter : s'.face p = f') (hstep : Face.Step p 0 f f') : Turned s s' i p 0 := by
  refine ⟨hturn.locked hl, fun q => hturn.face_other hl, .inr ?_, by simp [hcounter],
    by rw [hcounter], fun h => absurd rfl h⟩
  rwa [hbefore, hafter]

theorem Turned.setPc {pc pc' : Pc} (hpc : (s.thread i).pc = pc) (hh : pc.holds = some p)
    (hh' : pc'.holds = some p)
    (hstep : Face.Step p 0 ⟨some pc, (s.info p).state, (s.info p).signals⟩
      ⟨some pc', (s.info p).state, (s.info p).signals⟩) : Turned s (s.setPc i pc') i p 0 := by
  have hlock := hl.owner hpc hh
  have hturn : Turn s (s.setPc i pc') i p := by
    refine ⟨fun j hj => ?_, fun q hq => rfl, .inr ⟨hlock, by rw [hpc, hh]⟩, .inr ⟨hlock, ?_⟩⟩
    · simp [State.setPc, hj]
    · simp [State.setPc, hh']
  refine .ofTurn hl hturn rfl (hl.face hpc hh) ?_ hstep
  simp [State.face, State.setPc, hlock]

theorem Turned.leave {pc : Pc} (hpc : (s.thread i).pc = pc) (hh : pc.holds = some p)
    (hstep : Face.Step p 0 ⟨some pc, (s.info p).state, (s.info p).signals⟩
      ⟨none, (s.info p).state, (s.info p).signals⟩) : Turned s (s.leave i p) i p 0 := by
  have hlock := hl.owner hpc hh
  have hturn : Turn s (s.leave i p) i p := by
    refine ⟨fun j hj => ?_, fun q hq => ?_, .inr ⟨hlock, by rw [hpc, hh]⟩, .inl ⟨?_, ?_⟩⟩
    · simp [State.leave, State.setPc, State.setLock, hj]
    · simp [State.leave, State.setPc, State.setLock, hq]
    · simp [State.leave, State.setPc, State.setLock]
    · simp [State.leave, State.setPc, Pc.holds]
  refine .ofTurn hl hturn rfl (hl.face hpc hh) ?_ hstep
  simp [State.face, State.leave, State.setPc, State.setLock]

theorem Turned.choose {op : ProcessState} (hpc : (s.thread i).pc = .choosing) :
    Turned s (s.setPc i (.chosen p op)) i p 0 := by
  have hsame : ∀ q, (s.setPc i (.chosen p op)).face q = s.face q := by
    intro q
    refine face_other (i := i) hl (by simp [hpc, Pc.holds]) (fun j hj => ?_) rfl
    simp [State.setPc, hj]
  refine ⟨fun j q => ?_, fun q _ => hsame q, .inl ⟨hsame p, rfl⟩, by simp [State.setPc],
    rfl, fun h => absurd rfl h⟩
  by_cases hj : j = i
  · subst hj
    simpa [State.setPc, Pc.holds, hpc] using hl j q
  · simpa [State.setPc, hj] using hl j q

theorem Turned.acquire {op : ProcessState} (hpc : (s.thread i).pc = .chosen p op)
    (hfree : (s.info p).lock = none) :
    Turned s ((s.setLock p (some i)).setPc i (.checking p op)) i p 0 := by
  have hturn : Turn s ((s.setLock p (some i)).setPc i (.checking p op)) i p := by
    refine ⟨fun j hj => ?_, fun q hq => ?_, .inl ⟨hfree, by simp [hpc, Pc.holds]⟩, .inr ⟨?_, ?_⟩⟩
    · simp [State.setPc, State.setLock, hj]
    · simp [State.setPc, State.setLock, hq]
    · simp [State.setPc, State.setLock]
    · simp [State.setPc, Pc.holds]
  have hbefore : s.face p = ⟨none, (s.info p).state, (s.info p).signals⟩ := by
    simp [State.face, hfree]
  refine .ofTurn hl hturn rfl hbefore ?_ (.acquire op)
  simp [State.face, State.setPc, State.setLock]

/-- The one turn that counts: a place among the processes that may be terminated. -/
theorem Turned.reserve (hpc : (s.thread i).pc = .reserving p)
    (hroom : s.terminatedProcs.value < s.terminatedProcs.saturation)
    (hp : p ∈ (s.thread i).selectProc) :
    Turned s ({ s with terminatedProcs :=
        { s.terminatedProcs with value := s.terminatedProcs.value + 1 } }.setThread i
      { s.thread i with
        selectProc := (s.thread i).selectProc.erase p, pc := .sending p .terminated }) i p 1 := by
  have hlock := hl.owner hpc (p := p) rfl
  set s₁ : State := { s with terminatedProcs :=
    { s.terminatedProcs with value := s.terminatedProcs.value + 1 } }
  set t : Thread := { s.thread i with
    selectProc := (s.thread i).selectProc.erase p, pc := .sending p .terminated } with ht
  have hturn : Turn s (s₁.setThread i t) i p := by
    refine ⟨fun j hj => ?_, fun q hq => rfl, .inr ⟨hlock, by rw [hpc]; rfl⟩, .inr ⟨hlock, ?_⟩⟩
    · rw [setThread_other _ _ _ hj]
    · simp [ht, Pc.holds]
  have hafter : (s₁.setThread i t).face p =
      ⟨some (.sending p .terminated), (s.info p).state, (s.info p).signals⟩ := by
    simp [State.face, s₁, hlock, ht]
  refine ⟨hturn.locked hl, fun q => hturn.face_other hl, .inr ?_, rfl, rfl,
    fun _ => ⟨hp, Int.add_one_le_iff.mpr hroom⟩⟩
  rw [hl.face hpc rfl, hafter]
  exact .reserve

theorem Turned.send {op : ProcessState} (hpc : (s.thread i).pc = .sending p op) :
    Turned s ((s.send p (stateToSignal op)).setPc i (.sent p op)) i p 0 := by
  have hlock := hl.owner hpc (p := p) rfl
  have hturn : Turn s ((s.send p (stateToSignal op)).setPc i (.sent p op)) i p := by
    refine ⟨fun j hj => ?_, fun q hq => ?_, .inr ⟨hlock, by rw [hpc]; rfl⟩, .inr ⟨?_, ?_⟩⟩
    · simp [State.setPc, State.send, hj]
    · simp [State.setPc, State.send, hq]
    · simpa [State.setPc, State.send] using hlock
    · simp [State.setPc, Pc.holds]
  refine .ofTurn hl hturn rfl (hl.face hpc rfl) ?_ .send
  simp [State.face, State.setPc, State.send, hlock]

theorem Turned.record {op : ProcessState} (hpc : (s.thread i).pc = .sent p op) :
    Turned s ((s.setInfo p { s.info p with lock := none, state := op }).setThread i
      { s.thread i with
        successfulAttempts := (s.thread i).successfulAttempts + 1, pc := .choosing }) i p 0 := by
  have hlock := hl.owner hpc (p := p) rfl
  set t : Thread := { s.thread i with
    successfulAttempts := (s.thread i).successfulAttempts + 1, pc := .choosing } with ht
  have hturn : Turn s ((s.setInfo p { s.info p with lock := none, state := op }).setThread i t)
      i p := by
    refine ⟨fun j hj => ?_, fun q hq => ?_, .inr ⟨hlock, by rw [hpc]; rfl⟩, .inl ⟨?_, ?_⟩⟩
    · simp [hj]
    · simp [hq]
    · simp
    · simp [ht, Pc.holds]
  refine .ofTurn hl hturn rfl (hl.face hpc rfl) ?_ .record
  simp [State.face]

theorem Move.turned {c : Settings} {s' : State} (h : Move c s i s')
    (hpick : ∀ p, (s.thread i).pc.picked = some p → p ∈ (s.thread i).selectProc)
    (hsome : (s.thread i).selectProc ≠ []) (hop : c.selectOp ≠ []) :
    ∃ p k, Turned s s' i p k := by
  cases h with
  | @choose p op hpc hp => exact ⟨p, 0, .choose hl hpc⟩
  | noChoice hpc hnone => exact absurd hnone (by simp [hsome, hop])
  | @acquire p op hpc hfree => exact ⟨p, 0, .acquire hl hpc hfree⟩
  | @refuse p op hpc => exact ⟨p, 0, .leave hl hpc rfl (.refuse op)⟩
  | @ask p hpc hv => exact ⟨p, 0, .setPc hl hpc rfl rfl (.ask hv)⟩
  | @pass p op hpc hv hop => exact ⟨p, 0, .setPc hl hpc rfl rfl (.pass hv hop)⟩
  | @full p hpc => exact ⟨p, 0, .leave hl hpc rfl .full⟩
  | @reserve p hpc hroom hp => exact ⟨p, 1, .reserve hl hpc hroom hp⟩
  | @missing p _ hpc hp => exact absurd (hpick p (by simp [hpc, Pc.picked])) hp
  | @send p op hpc => exact ⟨p, 0, .send hl hpc⟩
  | @record p op hpc => exact ⟨p, 0, .record hl hpc⟩

end Turned

end State

end DecentralizedBroadcast.Stress
