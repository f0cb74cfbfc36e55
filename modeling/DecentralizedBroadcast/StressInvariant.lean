import DecentralizedBroadcast.StressMoves

/-! What the stress test keeps while its threads run: each process is in the hands of one thread,
the signals a process got are those that its state allows, and too few are terminated to
take the majority away. -/
set_option autoImplicit false

namespace DecentralizedBroadcast.Stress

def resumed : ProcessState → List Signal
  | .stopped => [.sigcont]
  | _ => []

def ended : ProcessState → List Signal
  | .running => [.sigterm]
  | .stopped => [.sigcont, .sigterm]
  | .terminated => []

namespace Phase

/-- The processes that the loop of `main` has still to come to. -/
def left : Phase → List Nat
  | .continuing left | .terminating left | .joining left => left
  | _ => []

/-- What `main` has sent so far to a process left in that state. -/
def added (phase : Phase) (p : Nat) (st : ProcessState) : List Signal :=
  match phase with
  | .stressing => []
  | .continuing left => if p ∈ left then [] else resumed st
  | .waiting => resumed st
  | .terminating left => if p ∈ left then resumed st else resumed st ++ ended st
  | .joining _ | .finished => resumed st ++ ended st

end Phase

/-- What holds in every state the test can reach. -/
structure Inv (c : Settings) (s : State) : Prop where
  locked : s.Locked
  lawful : ∀ p ∈ List.range' 1 c.processes, ∃ sg, ({ s.face p with signals := sg } : Face).Lawful ∧
    (s.info p).signals = sg ++ s.phase.added p (s.info p).state
  count : s.terminatedProcs.value =
    (List.range' 1 c.processes).countP fun p => (s.face p).doomed
  room : s.terminatedProcs.value ≤ s.terminatedProcs.saturation
  saturation : s.terminatedProcs.saturation = maxTerminatedProcesses c.processes
  selectProc : ∀ i, (s.thread i).selectProc.Sublist (c.selectProc i)
  picked : ∀ i p, (s.thread i).pc.picked = some p → p ∈ (s.thread i).selectProc
  removed : ∀ i, ∀ p ∈ List.range' 1 c.processes, p ∉ (s.thread i).selectProc →
    (s.face p).doomed = true
  notRaised : ∀ i, (s.thread i).pc ≠ .raised
  idle : ∀ i, c.threads ≤ i ∨ s.phase ≠ .stressing → (s.thread i).pc = .choosing
  left : s.phase.left.Sublist (List.range' 1 c.processes)

theorem two_mul_maxTerminatedProcesses (n : Nat) : 2 * maxTerminatedProcesses n < n := by
  rw [maxTerminatedProcesses]
  split <;> omega

theorem countP_of_step {l : List Nat} (hnd : l.Nodup) {f g : Nat → Bool} {p k : Nat} (hp : p ∈ l)
    (hother : ∀ q, q ≠ p → g q = f q) (hstep : (g p).toNat = (f p).toNat + k) :
    l.countP g = l.countP f + k := by
  induction l with
  | nil => cases hp
  | cons q l ih =>
    obtain ⟨hq, hnd⟩ := List.nodup_cons.mp hnd
    rw [List.countP_cons, List.countP_cons]
    rcases List.mem_cons.mp hp with rfl | hp
    · have hrest : l.countP g = l.countP f :=
        List.countP_congr fun q' hq' => by rw [hother q' (fun h => hq (h ▸ hq'))]
      rw [hrest]
      cases hg : g p <;> cases hf : f p <;> simp [hg, hf] at hstep ⊢ <;> omega
    · rw [ih hnd hp, hother q (fun h => hq (h ▸ hp))]
      omega

section Inv
variable {c : Settings} {s s' : State}

theorem Inv.mem_processes (h : Inv c s) {i p : Nat} (hp : p ∈ (s.thread i).selectProc) :
    p ∈ List.range' 1 c.processes :=
  (c.shuffled i).mem_iff.mp ((h.selectProc i).subset hp)

/-- Some process is not doomed, so every thread may still pick it. -/
theorem Inv.spared (h : Inv c s) :
    ∃ p ∈ List.range' 1 c.processes, (s.face p).doomed = false := by
  by_contra hnone
  have hall : (List.range' 1 c.processes).countP (fun p => (s.face p).doomed) =
      (List.range' 1 c.processes).length := by
    rw [List.countP_eq_length]
    intro p hp
    by_contra hd
    exact hnone ⟨p, hp, by simpa using hd⟩
  have hcount := h.count
  rw [hall, List.length_range'] at hcount
  have := h.room
  have := h.saturation
  have := two_mul_maxTerminatedProcesses c.processes
  omega

theorem Inv.spared_mem (h : Inv c s) {i p : Nat} (hp : p ∈ List.range' 1 c.processes)
    (hd : (s.face p).doomed = false) : p ∈ (s.thread i).selectProc := by
  by_contra hnot
  rw [h.removed i p hp hnot] at hd
  cases hd

theorem Inv.selectProc_ne_nil (h : Inv c s) (i : Nat) : (s.thread i).selectProc ≠ [] := by
  obtain ⟨p, hp, hd⟩ := h.spared
  exact List.ne_nil_of_mem (h.spared_mem (i := i) hp hd)

theorem inv_start (c : Settings) (hn : 0 < c.processes) : Inv c (start c) where
  locked i p := by simp [start, Pc.holds]
  lawful p hp := ⟨[], rfl, rfl⟩
  count := by
    have hnone : (List.range' 1 c.processes).countP (fun p => ((start c).face p).doomed) = 0 := by
      simp [start, State.face, Face.doomed]
    rw [hnone]
    rfl
  room := by
    have : (0 : Int) ≤ maxTerminatedProcesses c.processes := by
      rw [maxTerminatedProcesses]
      split <;> omega
    exact this
  saturation := rfl
  selectProc i := List.Sublist.refl _
  picked i p h := by simp [start, Pc.picked] at h
  removed i p hp hnot := absurd ((c.shuffled i).mem_iff.mpr hp) hnot
  notRaised i := by simp [start]
  idle i h := rfl
  left := List.nil_sublist _

/-- The lists and places of the threads after the turn of one of them. -/
structure Rearranged (s s' : State) (i : Nat) : Prop where
  others : ∀ j, j ≠ i → s'.thread j = s.thread j
  phase : s'.phase = s.phase
  selectProc : (s'.thread i).selectProc = (s.thread i).selectProc ∨
    ∃ p, (s'.thread i).selectProc = (s.thread i).selectProc.erase p ∧ (s'.face p).doomed = true
  picked : ∀ p, (s'.thread i).pc.picked = some p → p ∈ (s'.thread i).selectProc
  notRaised : (s'.thread i).pc ≠ .raised

theorem Rearranged.sublist {i : Nat} (h : Rearranged s s' i) :
    (s'.thread i).selectProc.Sublist (s.thread i).selectProc := by
  rcases h.selectProc with hsame | ⟨p, herase, -⟩
  · rw [hsame]
  · rw [herase]
    exact List.erase_sublist

theorem Rearranged.removed {i p : Nat} (h : Rearranged s s' i)
    (hp : p ∈ (s.thread i).selectProc) (hnot : p ∉ (s'.thread i).selectProc) :
    (s'.face p).doomed = true := by
  rcases h.selectProc with hsame | ⟨q, herase, hd⟩
  · exact absurd (hsame ▸ hp) hnot
  · obtain rfl : p = q := by
      by_contra hne
      rw [herase] at hnot
      exact hnot ((List.mem_erase_of_ne hne).mpr hp)
    exact hd

theorem Rearranged.keep {i : Nat} {attempts : Nat} {pc : Pc} (hphase : s'.phase = s.phase)
    (hothers : ∀ j, j ≠ i → s'.thread j = s.thread j)
    (hthread : s'.thread i = ⟨(s.thread i).selectProc, attempts, pc⟩)
    (hpick : ∀ p, pc.picked = some p → p ∈ (s.thread i).selectProc) (hpc : pc ≠ .raised) :
    Rearranged s s' i := by
  refine ⟨hothers, hphase, .inl (by rw [hthread]), fun p hp => ?_, by rwa [hthread]⟩
  rw [hthread] at hp ⊢
  exact hpick p hp

theorem State.Move.rearranged {i : Nat} (h : Move c s i s') (hi : Inv c s)
    (hop : c.selectOp ≠ []) : Rearranged s s' i := by
  have hpick := hi.picked i
  cases h with
  | @choose p op hpc hp =>
    refine .keep rfl (fun j hj => by simp [State.setPc, hj]) (State.setThread_same ..) ?_ (by simp)
    simp [Pc.picked, hp]
  | noChoice hpc hnone => exact absurd hnone (by simp [hop, hi.selectProc_ne_nil i])
  | @acquire p op hpc hfree =>
    refine .keep rfl (fun j hj => by simp [State.setPc, State.setLock, hj])
      (State.setThread_same ..) ?_ (by simp)
    simpa [hpc, Pc.picked] using hpick
  | @refuse p op hpc | @full p hpc =>
    refine .keep rfl (fun j hj => by simp [State.leave, State.setPc, State.setLock, hj])
      (State.setThread_same ..) ?_ (by simp)
    simp [Pc.picked]
  | @ask p hpc hv =>
    refine .keep rfl (fun j hj => by simp [State.setPc, hj]) (State.setThread_same ..) ?_ (by simp)
    simpa [hpc, Pc.picked] using hpick
  | @pass p op hpc hv hop =>
    refine .keep rfl (fun j hj => by simp [State.setPc, hj]) (State.setThread_same ..) ?_ (by simp)
    simp [Pc.picked]
  | @reserve p hpc hroom hp =>
    have hlock := hi.locked.owner hpc (p := p) rfl
    refine ⟨fun j hj => State.setThread_other _ _ _ hj, rfl, .inr ⟨p, ?_, ?_⟩, ?_, ?_⟩
    · rw [State.setThread_same]
    · simp [State.face, hlock, Face.doomed]
    · simp [Pc.picked]
    · simp
  | @missing p _ hpc hp => exact absurd (hpick p (by simp [hpc, Pc.picked])) hp
  | @send p op hpc =>
    refine .keep rfl (fun j hj => by simp [State.setPc, State.send, hj])
      (State.setThread_same ..) ?_ (by simp)
    simp [Pc.picked]
  | @record p op hpc =>
    refine .keep rfl (fun j hj => by simp [hj]) (State.setThread_same ..) ?_ (by simp)
    simp [Pc.picked]

theorem added_stressing (hphase : s.phase = .stressing) (q : Nat) :
    s.phase.added q (s.info q).state = [] := by
  rw [hphase]
  rfl

theorem Inv.face_lawful (hi : Inv c s) (hphase : s.phase = .stressing) {q : Nat}
    (hq : q ∈ List.range' 1 c.processes) : (s.face q).Lawful := by
  obtain ⟨sg, hsg, heq⟩ := hi.lawful q hq
  rw [added_stressing hphase, List.append_nil] at heq
  rwa [← heq] at hsg

section Turn
variable {i p k q : Nat}

theorem State.Turned.lawful (ht : Turned s s' i p k) (hq : (s.face q).Lawful) :
    (s'.face q).Lawful := by
  by_cases hqp : q = p
  · subst hqp
    rcases ht.step with ⟨hsame, -⟩ | hstep
    · exact hsame ▸ hq
    · exact hstep.lawful hq
  · exact ht.others q hqp ▸ hq

theorem State.Turned.doomed (ht : Turned s s' i p k) (hp : (s.face p).Lawful) :
    ((s'.face p).doomed).toNat = ((s.face p).doomed).toNat + k := by
  rcases ht.step with ⟨hsame, rfl⟩ | hstep
  · rw [hsame, Nat.add_zero]
  · exact hstep.doomed hp

theorem State.Turned.doomed_keep (ht : Turned s s' i p k) (hq : (s.face q).Lawful)
    (hd : (s.face q).doomed = true) : (s'.face q).doomed = true := by
  by_cases hqp : q = p
  · subst hqp
    have := ht.doomed hq
    rw [hd] at this
    cases hd' : (s'.face q).doomed
    · rw [hd', Bool.toNat_false, Bool.toNat_true] at this
      omega
    · rfl
  · rwa [ht.others q hqp]

theorem State.Turned.count (ht : Turned s s' i p k) (hi : Inv c s)
    (hphase : s.phase = .stressing) : s'.terminatedProcs.value =
      (List.range' 1 c.processes).countP fun q => (s'.face q).doomed := by
  rw [ht.value, hi.count]
  by_cases hp : p ∈ List.range' 1 c.processes
  · rw [@countP_of_step _ List.nodup_range' (fun q => (s.face q).doomed)
      (fun q => (s'.face q).doomed) p k hp (fun q hq => by rw [ht.others q hq])
      (ht.doomed (hi.face_lawful hphase hp))]
    rfl
  · have hk : k = 0 := by
      by_contra hk
      exact hp (hi.mem_processes (ht.room hk).1)
    have hsame : (List.range' 1 c.processes).countP (fun q => (s'.face q).doomed) =
        (List.range' 1 c.processes).countP (fun q => (s.face q).doomed) :=
      List.countP_congr fun q hq => by rw [ht.others q (fun h => hp (h ▸ hq))]
    rw [hsame, hk]
    rfl

theorem State.Turned.keeps_room (ht : Turned s s' i p k) (hi : Inv c s) :
    s'.terminatedProcs.value ≤ s'.terminatedProcs.saturation := by
  rw [ht.saturation]
  by_cases hk : k = 0
  · rw [ht.value, hk]
    simpa using hi.room
  · exact (ht.room hk).2

end Turn

theorem Inv.move {i : Nat} (hi : Inv c s) (hthread : i < c.threads) (hphase : s.phase = .stressing)
    (hop : c.selectOp ≠ []) (h : State.Move c s i s') : Inv c s' := by
  obtain ⟨p, k, ht⟩ := h.turned hi.locked (hi.picked i) (hi.selectProc_ne_nil i) hop
  have hr := h.rearranged hi hop
  have hphase' : s'.phase = .stressing := hr.phase.trans hphase
  -- the other threads are where they were
  have each : ∀ {P : Nat → Thread → Prop}, P i (s'.thread i) → (∀ j, P j (s.thread j)) →
      ∀ j, P j (s'.thread j) := by
    intro P hown hothers j
    by_cases hj : j = i
    · exact hj ▸ hown
    · exact hr.others j hj ▸ hothers j
  refine ⟨ht.locked, fun q hq => ⟨(s'.info q).signals, ?_, ?_⟩, ht.count hi hphase,
    ht.keeps_room hi, ht.saturation.trans hi.saturation, ?_, ?_, fun j q hq hnot => ?_,
    ?_, fun j hj => ?_, ?_⟩
  · exact ht.lawful (hi.face_lawful hphase hq)
  · rw [added_stressing hphase', List.append_nil]
  · exact @each (fun j t => t.selectProc.Sublist (c.selectProc j))
      (hr.sublist.trans (hi.selectProc i)) hi.selectProc
  · exact @each (fun _ t => ∀ p, t.pc.picked = some p → p ∈ t.selectProc) hr.picked hi.picked
  · by_cases hold : q ∈ (s.thread j).selectProc
    · by_cases hj : j = i
      · subst hj
        exact hr.removed hold hnot
      · rw [hr.others j hj] at hnot
        exact absurd hold hnot
    · exact ht.doomed_keep (hi.face_lawful hphase hq) (hi.removed j q hq hold)
  · exact @each (fun _ t => t.pc ≠ .raised) hr.notRaised hi.notRaised
  · rcases hj with hj | hj
    · rw [hr.others j (by omega)]
      exact hi.idle j (.inl hj)
    · exact absurd hphase' hj
  · rw [hphase']
    exact List.nil_sublist _

/-- `main` sends signals, and that is all it does. -/
structure OnlySends (s s' : State) (f : Nat → List Signal) : Prop where
  thread : s'.thread = s.thread
  counter : s'.terminatedProcs = s.terminatedProcs
  lock : ∀ p, (s'.info p).lock = (s.info p).lock
  state : ∀ p, (s'.info p).state = (s.info p).state
  signals : ∀ p, (s'.info p).signals = (s.info p).signals ++ f p

theorem OnlySends.refl (s : State) (phase : Phase) :
    OnlySends s { s with phase := phase } fun _ => [] :=
  ⟨rfl, rfl, fun _ => rfl, fun _ => rfl, fun p => by simp⟩

theorem OnlySends.send {f : Nat → List Signal} (h : OnlySends s s' f) (p : Nat) (x : Signal) :
    OnlySends s (s'.send p x) fun q => f q ++ if q = p then [x] else [] := by
  refine ⟨h.thread, h.counter, fun q => ?_, fun q => ?_, fun q => ?_⟩ <;> by_cases hq : q = p
  · simp [State.send, hq, h.lock]
  · simp [State.send, hq, h.lock]
  · simp [State.send, hq, h.state]
  · simp [State.send, hq, h.state]
  · simp [State.send, hq, h.signals]
  · simp [State.send, hq, h.signals]

theorem OnlySends.then {f g : Nat → List Signal} (h : OnlySends s s' f) (phase : Phase)
    (hfg : ∀ q, f q = g q) : OnlySends s { s' with phase := phase } g :=
  ⟨h.thread, h.counter, h.lock, h.state, fun q => hfg q ▸ h.signals q⟩

theorem sends_continueOne (s : State) (p : Nat) (phase : Phase) :
    OnlySends s { s.continueOne p with phase := phase }
      fun q => if q = p then resumed (s.info q).state else [] := by
  have hnone := OnlySends.refl s s.phase
  unfold State.continueOne
  cases hst : (s.info p).state with
  | running | terminated =>
    refine hnone.then phase fun q => ?_
    by_cases hq : q = p <;> simp [hq, hst, resumed]
  | stopped =>
    refine (hnone.send p .sigcont).then phase fun q => ?_
    by_cases hq : q = p <;> simp [hq, hst, resumed]

theorem sends_terminateOne (s : State) (p : Nat) (phase : Phase) :
    OnlySends s { s.terminateOne p with phase := phase }
      fun q => if q = p then ended (s.info q).state else [] := by
  have hnone := OnlySends.refl s s.phase
  unfold State.terminateOne
  cases hst : (s.info p).state with
  | running =>
    refine (hnone.send p .sigterm).then phase fun q => ?_
    by_cases hq : q = p <;> simp [hq, hst, ended]
  | stopped =>
    refine ((hnone.send p .sigcont).send p .sigterm).then phase fun q => ?_
    by_cases hq : q = p <;> simp [hq, hst, ended]
  | terminated =>
    refine hnone.then phase fun q => ?_
    by_cases hq : q = p <;> simp [hq, hst, ended]

theorem Inv.sends {f : Nat → List Signal} (hi : Inv c s) (h : OnlySends s s' f)
    (hidle : ∀ i, (s.thread i).pc = .choosing)
    (hleft : s'.phase.left.Sublist (List.range' 1 c.processes))
    (hadded : ∀ p ∈ List.range' 1 c.processes, s'.phase.added p (s.info p).state =
      s.phase.added p (s.info p).state ++ f p) : Inv c s' := by
  have hface : ∀ p sg,
      ({ s'.face p with signals := sg } : Face) = { s.face p with signals := sg } := by
    intro p sg
    simp [State.face, h.lock, h.state, h.thread]
  have hdoomed : ∀ p, (s'.face p).doomed = (s.face p).doomed := by
    intro p
    have := congrArg Face.doomed (hface p [])
    exact this
  refine ⟨fun i p => ?_, fun p hp => ?_, ?_, ?_, ?_, ?_, ?_, fun i p hp hnot => ?_, ?_, ?_, hleft⟩
  · rw [h.lock, h.thread]
    exact hi.locked i p
  · obtain ⟨sg, hsg, heq⟩ := hi.lawful p hp
    refine ⟨sg, hface p sg ▸ hsg, ?_⟩
    rw [h.signals, h.state, hadded p hp, heq, List.append_assoc]
  · rw [h.counter, hi.count]
    congr 1
    exact List.countP_congr fun p _ => by rw [hdoomed]
  · rw [h.counter]
    exact hi.room
  · rw [h.counter]
    exact hi.saturation
  · rw [h.thread]
    exact hi.selectProc
  · rw [h.thread]
    exact hi.picked
  · rw [h.thread] at hnot
    rw [hdoomed]
    exact hi.removed i p hp hnot
  · rw [h.thread]
    exact hi.notRaised
  · rw [h.thread]
    exact fun i _ => hidle i

/-- With the first of the list done, its signals are sent, and those of no other. -/
theorem added_tail {p q : Nat} {left : List Nat} {before added : List Signal}
    (hnd : (p :: left).Nodup) : (if q ∈ left then before else before ++ added) =
      (if q ∈ p :: left then before else before ++ added) ++ if q = p then added else [] := by
  by_cases hq : q = p
  · subst hq
    simp [(List.nodup_cons.mp hnd).1]
  · simp [hq]

theorem Inv.turnTo (hi : Inv c s) (hphase : s.phase ≠ .stressing) {phase : Phase}
    (hleft : phase.left.Sublist (List.range' 1 c.processes))
    (hadded : ∀ p ∈ List.range' 1 c.processes,
      phase.added p (s.info p).state = s.phase.added p (s.info p).state) :
    Inv c { s with phase := phase } :=
  hi.sends (.refl ..) (fun i => hi.idle i (.inr hphase)) hleft fun p hp => by
    rw [hadded p hp, List.append_nil]

theorem Inv.join (hi : Inv c s) (hphase : s.phase = .stressing)
    (hover : ∀ i < c.threads, s.Over c i) :
    Inv c { s with phase := .continuing (List.range' 1 c.processes) } := by
  refine hi.sends (.refl ..) (fun i => ?_) (List.Sublist.refl _) fun p hr => ?_
  · by_cases ht : i < c.threads
    · rcases hover i ht with h | h
      · exact absurd h (hi.notRaised i)
      · exact h.1
    · exact hi.idle i (.inl (by omega))
  · simp [hphase, Phase.added, hr]

theorem Inv.mainMove (hi : Inv c s) (h : State.MainMove c s s') : Inv c s' := by
  have hleft := hi.left
  cases h with
  | join hp hover => exact hi.join hp hover
  | continued hp =>
    exact hi.turnTo (by simp [hp]) (List.nil_sublist _) fun p _ => by simp [hp, Phase.added]
  | @continueOne p left hp =>
    rw [hp] at hleft
    refine hi.sends (sends_continueOne s p _) (fun i => hi.idle i (.inr (by simp [hp])))
      ((List.sublist_cons_self p left).trans hleft) fun q hr => ?_
    rw [hp]
    simpa [Phase.added] using @added_tail p q left [] (resumed (s.info q).state)
      (hleft.nodup List.nodup_range')
  | noneLeft hp hnone =>
    refine hi.turnTo (by simp [hp]) (List.Sublist.refl _) fun p hr => ?_
    have hst : (s.info p).state = .terminated := by
      by_contra hne
      exact List.filter_eq_nil_iff.mp hnone p hr (by simpa using hne)
    simp [hp, Phase.added, hst, resumed, ended]
  | pressEnter hp =>
    exact hi.turnTo (by simp [hp]) (List.Sublist.refl _) fun p hr => by simp [hp, Phase.added, hr]
  | terminated hp =>
    exact hi.turnTo (by simp [hp]) (List.Sublist.refl _) fun p _ => by simp [hp, Phase.added]
  | joined hp =>
    exact hi.turnTo (by simp [hp]) (List.nil_sublist _) fun p _ => by simp [hp, Phase.added]
  | @joinOne p left hp hexit =>
    rw [hp] at hleft
    exact hi.turnTo (by simp [hp]) ((List.sublist_cons_self p left).trans hleft) fun q _ => by
      simp [hp, Phase.added]
  | @terminateOne p left hp =>
    rw [hp] at hleft
    refine hi.sends (sends_terminateOne s p _) (fun i => hi.idle i (.inr (by simp [hp])))
      ((List.sublist_cons_self p left).trans hleft) fun q hr => ?_
    rw [hp]
    exact added_tail (p := p) (q := q) (hleft.nodup List.nodup_range')

theorem inv_reachable (hn : 0 < c.processes) (hop : c.selectOp ≠ [])
    (h : (stressMachine c).Reachable s) : Inv c s := by
  refine h.invariant (Inv c) (inv_start c hn) fun s a s' hi hs => ?_
  rcases State.step_move hs with ⟨i, hthread, hphase, hmove⟩ | hmove
  · exact hi.move hthread hphase hop hmove
  · exact hi.mainMove hmove

end Inv

end DecentralizedBroadcast.Stress
