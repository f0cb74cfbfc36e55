import DecentralizedBroadcast.StackInvariant

/-! The two threads inside LCB. Main runs `broadcastMessage`, which takes no lock; a thread of
its own runs `deliverPending`, which holds `pairs_mutex` for a whole pass over `pairs`. -/
set_option autoImplicit false

namespace DecentralizedBroadcast
namespace LcbThreads

/-- How far a call of `broadcastMessage` has come. -/
inductive Broadcaster where
  | idle
  | reading (msg w : Str) (remaining : List Int)  -- in the loop over the dependencies
  | counted (msg w : Str)                         -- lsn was read and incremented
  | logged (msg w : Str)                          -- the b entry is in process_log

/-- How far a pass of `deliverPending` has come, and what is left of it. -/
inductive Deliverer where
  | idle                                          -- pairs_mutex is free
  | walking (rest : List (Str × VectorClock))
  | inferior (message : Str) (rest : List (Str × VectorClock))
  | counted (message : Str) (rest : List (Str × VectorClock))  -- VC was incremented
  | logged (message : Str) (rest : List (Str × VectorClock))   -- the d entry is in process_log

/-- `toUrb` holds the messages given to URB with their clocks, `fromUrb` what URB gave back. -/
structure State where
  lcb : Lcb
  processLog : List Str
  unsent : List Str
  broadcaster : Broadcaster
  deliverer : Deliverer
  toUrb : List (Str × Str)
  fromUrb : List Str

inductive Action where
  | broadcaster
  | deliverer
  | urbDeliver (origin : Nat) (text : Str)

def broadcasterStep (rank : Nat) (dependencies : List Int) (s : State) : Option State :=
  match s.broadcaster with
  | .idle =>
      match s.unsent with
      | [] => none
      | msg :: rest => some { s with unsent := rest, broadcaster := .reading msg [] dependencies }
  | .reading msg w (otherRank :: remaining) => do
      let entry ← (Lcb.clockEntry otherRank (s.lcb.vc otherRank)).toOption
      some { s with broadcaster := .reading msg (w ++ entry) remaining }
  | .reading msg w [] => do
      let own ← (Lcb.clockEntry rank s.lcb.lsn).toOption
      some { s with
        lcb := { s.lcb with lsn := s.lcb.lsn + 1 }
        broadcaster := .counted msg (w ++ own) }
  | .counted msg w => some { s with
      processLog := addMessageLog s.processLog (sentEntry msg), broadcaster := .logged msg w }
  | .logged msg w => some { s with toUrb := s.toUrb ++ [(msg, w)], broadcaster := .idle }

def delivererStep (s : State) : Option State :=
  match s.deliverer with
  | .idle =>
      if s.lcb.active then some { s with deliverer := .walking s.lcb.pairs.entries } else none
  | .walking [] => some { s with deliverer := .idle }
  | .walking ((message, w) :: rest) =>
      if Lcb.isInferior s.lcb.vc w then some { s with deliverer := .inferior message rest }
      else some { s with deliverer := .walking rest }
  | .inferior message rest => do
      let otherRank ← (substr message 0 3 >>= stoi).toOption
      -- the counts are of type int, and past its end there is no next value
      if s.lcb.vc otherRank < intMax then
        some { s with
          lcb := { s.lcb with vc := Function.update s.lcb.vc otherRank (s.lcb.vc otherRank + 1) }
          deliverer := .counted message rest }
      else none
  | .counted message rest => do
      let entry ← (Lcb.deliveredEntry message).toOption
      some { s with
        processLog := addMessageLog s.processLog entry, deliverer := .logged message rest }
  | .logged message rest => some { s with
      lcb := { s.lcb with pairs := s.lcb.pairs.erase message }, deliverer := .walking rest }

/-- URB gives a message once, waits for `pairs_mutex` to do so, and has the messages of this
process from this process. -/
def urbDeliver (rank : Nat) (s : State) (origin : Nat) (text : Str) : Option State :=
  match s.deliverer with
  | .idle =>
      if origin ≤ 999 ∧ messageKey origin text ∉ s.fromUrb ∧
          (origin = rank → ∃ e ∈ s.toUrb, e.1 ++ e.2 = text) then do
        let lcb ← (s.lcb.deliver (messageKey origin text)).toOption
        some { s with lcb := lcb, fromUrb := s.fromUrb ++ [messageKey origin text] }
      else none
  | _ => none

/-- That is what URB does at every process of the stack. -/
theorem urbDeliver_guard {cfg : Config} {s : Sys} (h : (stack cfg).Reachable s) (p : Nat) :
    (said .urbDeliver p s.trace).Nodup ∧ ∀ k ∈ said .urbDeliver p s.trace, ∃ origin text,
      origin ≤ 999 ∧ k = messageKey origin text ∧
      (origin = p → text ∈ said .broadcast p s.trace) := by
  have hs := (stackInv_reachable h).sound
  refine ⟨urbDeliver_nodup hs p, fun k hk => ?_⟩
  obtain ⟨origin, text, ht, rfl⟩ := urbDeliver_known hs hk
  exact ⟨origin, text, (broadcast_fits hs ht).2.2, rfl, fun ho => ho ▸ ht⟩

def step (rank : Nat) (dependencies : List Int) (s : State) : Action → Option State
  | .broadcaster => broadcasterStep rank dependencies s
  | .deliverer => delivererStep s
  | .urbDeliver origin text => urbDeliver rank s origin text

/-- The process `rank` once main has made its broadcast active. -/
def machine (cfg : Config) (rank : Nat) : Machine State Action where
  init := {
    lcb := { active := true, lsn := 0, vc := fun _ => 0, pairs := .empty }
    processLog := [], unsent := mainBatches (cfg.m rank), broadcaster := .idle, deliverer := .idle
    toUrb := [], fromUrb := [] }
  step := step rank (cfg.localizedIds rank)

/-- The count of `z` in a clock, as the processes that get the clock read it. -/
def clockAt (w : Str) (z : Int) : Int :=
  (((Lcb.constructVC w).toOption.getD .empty).find? z).getD 0

def deliveredFrom (log : List Str) (z : Int) : Nat :=
  log.countP fun e => e.head? = some 'd' ∧ (stoi ((e.drop 1).take 3)).toOption = some z

def State.broadcasts (s : State) : List (Str × Str) :=
  match s.broadcaster with
  | .logged msg w => s.toUrb ++ [(msg, w)]
  | _ => s.toUrb

/-- Each broadcast has its b entry, and before it no more deliveries than its clock counts. -/
def Covered (dependencies : List Int) (s : State) : Prop :=
  ∀ msg w, (msg, w) ∈ s.broadcasts → sentEntry msg ∈ s.processLog ∧
    ∀ before after, s.processLog = before ++ sentEntry msg :: after →
      ∀ z ∈ dependencies, (deliveredFrom before z : Int) ≤ clockAt w z

/-- The message whose d entry the delivering thread is about to make. -/
def Deliverer.logging : Deliverer → Option Str
  | .counted message _ => some message
  | _ => none

/-- The clock of a broadcast that has read `VC[z]` for the last time and made no b entry yet. -/
def Broadcaster.clockRead (z : Int) : Broadcaster → Option Str
  | .reading _ w remaining => if z ∈ remaining then none else some w
  | .counted _ w => some w
  | _ => none

/-- No d entry is made from a dependency whose count grew since the running broadcast read it. -/
def NoRace (rank : Nat) (dependencies : List Int) (s : State) : Action → Prop
  | .deliverer => ∀ message ∈ s.deliverer.logging,
      ∀ w ∈ s.broadcaster.clockRead (keyOrigin message),
      keyOrigin message ∈ dependencies → keyOrigin message ≠ rank →
      s.lcb.vc (keyOrigin message) ≤ clockAt w (keyOrigin message)
  | _ => True

instance (rank : Nat) (dependencies : List Int) (s : State) :
    (a : Action) → Decidable (NoRace rank dependencies s a)
  | .deliverer => inferInstanceAs (Decidable (∀ message ∈ s.deliverer.logging,
      ∀ w ∈ s.broadcaster.clockRead (keyOrigin message), _ → _ → _ ≤ _))
  | .broadcaster => inferInstanceAs (Decidable True)
  | .urbDeliver _ _ => inferInstanceAs (Decidable True)

section Alone
variable (cfg : Config) (rank : Nat) {s : State}

theorem reading_alone {msg w t : Str} {remaining : List Int}
    (ht : Lcb.dependencyClock s.lcb.vc remaining = .ok t) :
    (machine cfg rank).Steps (NoRace rank (cfg.localizedIds rank))
      { s with broadcaster := .reading msg w remaining }
      { s with broadcaster := .reading msg (w ++ t) [] } := by
  induction remaining generalizing w t with
  | nil =>
    obtain rfl := Except.ok.inj ht
    rw [List.append_nil]
    exact .refl
  | cons otherRank remaining ih =>
    simp only [Lcb.dependencyClock, bind_eq_ok] at ht
    obtain ⟨entry, he, t', ht', h⟩ := ht
    obtain rfl := Except.ok.inj h
    rw [← List.append_assoc]
    refine .head (a := .broadcaster) trivial ?_ (ih ht')
    simp only [machine, step, broadcasterStep, toOption_eq_some.mpr he]
    rfl

/-- While the delivering thread rests, a broadcast is a call of LCB's `broadcastMessage`. -/
theorem broadcastMessage_alone {msg text : Str} {rest : List Str} {l' : Lcb}
    (hb : s.broadcaster = .idle) (hu : s.unsent = msg :: rest)
    (h : s.lcb.broadcastMessage rank (cfg.localizedIds rank) msg = .ok (l', text)) :
    ∃ w, text = msg ++ w ∧ (machine cfg rank).Steps (NoRace rank (cfg.localizedIds rank)) s
      { s with
        lcb := l', processLog := addMessageLog s.processLog (sentEntry msg), unsent := rest
        toUrb := s.toUrb ++ [(msg, w)] } := by
  simp only [Lcb.broadcastMessage, bind_eq_ok] at h
  obtain ⟨w, hw, own, hown, h⟩ := h
  obtain ⟨rfl, rfl⟩ := Prod.mk.inj (Except.ok.inj h)
  obtain ⟨lcb, log, unsent, broadcaster, deliverer, toUrb, fromUrb⟩ := s
  simp only at hb hu hw hown
  subst hb hu
  refine ⟨w ++ own, rfl, ?_⟩
  have hread := @reading_alone cfg rank ⟨lcb, log, rest, .idle, deliverer, toUrb, fromUrb⟩
    msg [] w _ hw
  have hcount : (machine cfg rank).step
      ⟨lcb, log, rest, .reading msg w [], deliverer, toUrb, fromUrb⟩ .broadcaster =
      some ⟨{ lcb with lsn := lcb.lsn + 1 }, log, rest, .counted msg (w ++ own), deliverer, toUrb,
        fromUrb⟩ := by
    simp only [machine, step, broadcasterStep, toOption_eq_some.mpr hown]
    rfl
  refine .head (a := .broadcaster) trivial rfl (hread.trans ?_)
  refine Machine.Steps.head (a := .broadcaster) trivial hcount ?_
  refine Machine.Steps.head (a := .broadcaster) trivial rfl ?_
  exact Machine.Steps.head (a := .broadcaster) trivial rfl .refl

theorem vc_le_deliverLoop {es : List (Str × VectorClock)} {l l' : Lcb} {out : List (Str × Str)}
    (h : Lcb.deliverLoop es l = .ok (l', out)) (z : Int) : l.vc z ≤ l'.vc z := by
  induction es generalizing l out with
  | nil =>
    obtain ⟨rfl, -⟩ := Prod.mk.inj (Except.ok.inj h)
    exact le_rfl
  | cons e es ih =>
    obtain ⟨message, w⟩ := e
    unfold Lcb.deliverLoop at h
    split at h
    · simp only [bind_eq_ok] at h
      obtain ⟨t, -, otherRank, -, entry, -, ⟨l₁, out₁⟩, hrest, h⟩ := h
      obtain ⟨hl, -⟩ := Prod.mk.inj (Except.ok.inj h)
      obtain rfl : l₁ = l' := hl
      have := ih hrest
      by_cases hz : z = otherRank
      · subst hz
        simp only [Function.update_self] at this
        omega
      · simpa only [Function.update_of_ne hz] using this
    · exact ih h

theorem noRace_deliverer (dependencies : List Int) (hb : s.broadcaster = .idle) :
    NoRace rank dependencies s .deliverer := by
  intro message hm w hw
  simp [hb, Broadcaster.clockRead] at hw

theorem delivery_alone {message entry : Str} {w : VectorClock} {es : List (Str × VectorClock)}
    {l : Lcb} {log : List Str} {otherRank : Int} (hb : s.broadcaster = .idle)
    (hready : Lcb.isInferior l.vc w = true) (ho : substr message 0 3 >>= stoi = .ok otherRank)
    (hroom : l.vc otherRank < intMax) (he : Lcb.deliveredEntry message = .ok entry) :
    (machine cfg rank).Steps (NoRace rank (cfg.localizedIds rank))
      { s with lcb := l, processLog := log, deliverer := .walking ((message, w) :: es) }
      { s with
        lcb := { l with
          vc := Function.update l.vc otherRank (l.vc otherRank + 1)
          pairs := l.pairs.erase message }
        processLog := addMessageLog log entry, deliverer := .walking es } := by
  set vc := Function.update l.vc otherRank (l.vc otherRank + 1)
  have hcheck : (machine cfg rank).step
      { s with lcb := l, processLog := log, deliverer := .walking ((message, w) :: es) }
      .deliverer =
      some { s with lcb := l, processLog := log, deliverer := .inferior message es } := by
    simp only [machine, step, delivererStep, hready, if_true]
  have hcount : (machine cfg rank).step
      { s with lcb := l, processLog := log, deliverer := .inferior message es } .deliverer =
      some { s with
        lcb := { l with vc := vc }, processLog := log, deliverer := .counted message es } := by
    simp only [machine, step, delivererStep, toOption_eq_some.mpr ho]
    exact if_pos hroom
  have hlog : (machine cfg rank).step { s with
        lcb := { l with vc := vc }, processLog := log, deliverer := .counted message es }
      .deliverer = some { s with
        lcb := { l with vc := vc }, processLog := addMessageLog log entry
        deliverer := .logged message es } := by
    simp only [machine, step, delivererStep, toOption_eq_some.mpr he]
    rfl
  have herase : (machine cfg rank).step { s with
        lcb := { l with vc := vc }, processLog := addMessageLog log entry
        deliverer := .logged message es } .deliverer = some { s with
        lcb := { l with vc := vc, pairs := l.pairs.erase message }
        processLog := addMessageLog log entry, deliverer := .walking es } := rfl
  have free : ∀ l log d, NoRace rank (cfg.localizedIds rank)
      { s with lcb := l, processLog := log, deliverer := d } .deliverer :=
    fun _ _ _ => noRace_deliverer rank _ hb
  exact .head (free _ _ _) hcheck (.head (free _ _ _) hcount (.head (free _ _ _) hlog
    (.head (free _ _ _) herase .refl)))

theorem walking_alone {es : List (Str × VectorClock)} {l l' : Lcb} {log : List Str}
    {out : List (Str × Str)} (hb : s.broadcaster = .idle)
    (h : Lcb.deliverLoop es l = .ok (l', out)) (hmax : ∀ z, l'.vc z ≤ intMax) :
    (machine cfg rank).Steps (NoRace rank (cfg.localizedIds rank))
      { s with lcb := l, processLog := log, deliverer := .walking es }
      { s with
        lcb := l', processLog := (out.map Prod.snd).foldl addMessageLog log
        deliverer := .idle } := by
  induction es generalizing l log out with
  | nil =>
    obtain ⟨rfl, rfl⟩ := Prod.mk.inj (Except.ok.inj h)
    exact .head (a := .deliverer) (noRace_deliverer rank _ hb) rfl .refl
  | cons e es ih =>
    obtain ⟨message, w⟩ := e
    unfold Lcb.deliverLoop at h
    split at h
    · rename_i hready
      simp only [bind_eq_ok] at h
      obtain ⟨t, ht, otherRank, ho, entry, he, ⟨l₁, out₁⟩, hrest, h⟩ := h
      obtain ⟨hl, rfl⟩ := Prod.mk.inj (Except.ok.inj h)
      obtain rfl : l₁ = l' := hl
      have hroom : l.vc otherRank < intMax := by
        have := vc_le_deliverLoop hrest otherRank
        simp only [Function.update_self] at this
        have := hmax otherRank
        omega
      exact (delivery_alone cfg rank hb hready (bind_eq_ok.mpr ⟨t, ht, ho⟩) hroom he).trans
        (@ih _ (addMessageLog log entry) _ hrest)
    · rename_i hready
      refine .head (a := .deliverer) (noRace_deliverer rank _ hb) ?_ (ih h)
      simp only [machine, step, delivererStep, hready, if_false, Bool.false_eq_true]

/-- Between two broadcasts, a pass of the delivering thread is a call of `deliverPending`. -/
theorem deliverPending_alone {l' : Lcb} {out : List (Str × Str)} (ha : s.lcb.active)
    (hd : s.deliverer = .idle) (hb : s.broadcaster = .idle)
    (h : s.lcb.deliverPending = .ok (l', out)) (hmax : ∀ z, l'.vc z ≤ intMax) :
    (machine cfg rank).Steps (NoRace rank (cfg.localizedIds rank)) s { s with
      lcb := l', processLog := (out.map Prod.snd).foldl addMessageLog s.processLog } := by
  have hwalk := @walking_alone cfg rank s _ _ _ s.processLog _ hb h hmax
  obtain ⟨lcb, log, unsent, broadcaster, deliverer, toUrb, fromUrb⟩ := s
  simp only at ha hd hb
  subst hd hb
  refine .head (a := .deliverer) (noRace_deliverer rank _ rfl) ?_ hwalk
  simp only [machine, step, delivererStep, ha, if_true]

end Alone

end LcbThreads
end DecentralizedBroadcast
