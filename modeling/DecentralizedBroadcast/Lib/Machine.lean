import Mathlib.Logic.Relation
import Mathlib.Data.List.Induction

/-! Machines whose actions may be disabled, the states they reach, and the rules every development
over them uses: an invariant is proved one step at a time, a run that can always come closer by a
measure gets there, and a state map that turns steps into runs carries reachability along. -/
set_option autoImplicit false

structure Machine (σ α : Type*) where
  init : σ
  step : σ → α → Option σ

namespace Machine
variable {σ α τ β ι : Type*}

/-- One enabled action, among those `allowed` lets through in the state before it. -/
def Step (M : Machine σ α) (allowed : σ → α → Prop) (s s' : σ) : Prop :=
  ∃ a, allowed s a ∧ M.step s a = some s'

def Steps (M : Machine σ α) (allowed : σ → α → Prop) : σ → σ → Prop :=
  Relation.ReflTransGen (M.Step allowed)

/-- States of the runs all of whose steps are allowed. -/
def ReachableBy (M : Machine σ α) (allowed : σ → α → Prop) (s : σ) : Prop :=
  M.Steps allowed M.init s

def Reachable (M : Machine σ α) (s : σ) : Prop := M.ReachableBy (fun _ _ => True) s

theorem ReachableBy.next {M : Machine σ α} {allowed : σ → α → Prop} {s s' : σ} {a : α}
    (h : M.ReachableBy allowed s) (ha : allowed s a) (hs : M.step s a = some s') :
    M.ReachableBy allowed s' := Relation.ReflTransGen.tail h ⟨a, ha, hs⟩

theorem Steps.head {M : Machine σ α} {allowed : σ → α → Prop} {s t s' : σ} {a : α}
    (ha : allowed s a) (hs : M.step s a = some t) (h : M.Steps allowed t s') :
    M.Steps allowed s s' := Relation.ReflTransGen.head ⟨a, ha, hs⟩ h

theorem Steps.invariant {M : Machine σ α} {allowed : σ → α → Prop} (I : σ → Prop)
    (keep : ∀ s a s', I s → allowed s a → M.step s a = some s' → I s')
    {s s' : σ} (h : M.Steps allowed s s') (hs : I s) : I s' := by
  induction h with
  | refl => exact hs
  | tail _ hstep ih =>
    obtain ⟨a, ha, hs⟩ := hstep
    exact keep _ a _ ih ha hs

theorem ReachableBy.invariant {M : Machine σ α} {allowed : σ → α → Prop} (I : σ → Prop)
    (start : I M.init)
    (keep : ∀ s a s', I s → allowed s a → M.step s a = some s' → I s')
    {s : σ} (h : M.ReachableBy allowed s) : I s := Steps.invariant I keep h start

/-- An invariant whose steps may use what is known of every state reached. -/
theorem ReachableBy.invariant_reached {M : Machine σ α} {allowed : σ → α → Prop} (I : σ → Prop)
    (start : I M.init) (keep : ∀ s a s', M.ReachableBy allowed s → I s → allowed s a →
      M.step s a = some s' → I s')
    {s : σ} (h : M.ReachableBy allowed s) : I s := by
  have hboth : M.ReachableBy allowed s ∧ I s :=
    h.invariant (fun s => M.ReachableBy allowed s ∧ I s) ⟨.refl, start⟩
      fun s a s' hi ha hs => ⟨hi.1.next ha hs, keep s a s' hi.1 hi.2 ha hs⟩
  exact hboth.2

theorem Steps.mono {M : Machine σ α} {allowed allowed' : σ → α → Prop}
    (weaker : ∀ s a, allowed s a → allowed' s a) {s s' : σ} (h : M.Steps allowed s s') :
    M.Steps allowed' s s' :=
  Relation.ReflTransGen.mono (fun _ _ ⟨a, ha, hs⟩ => ⟨a, weaker _ a ha, hs⟩) _ _ h

theorem ReachableBy.mono {M : Machine σ α} {allowed allowed' : σ → α → Prop}
    (weaker : ∀ s a, allowed s a → allowed' s a) {s : σ} (h : M.ReachableBy allowed s) :
    M.ReachableBy allowed' s := Steps.mono weaker h

theorem ReachableBy.reachable {M : Machine σ α} {allowed : σ → α → Prop} {s : σ}
    (h : M.ReachableBy allowed s) : M.Reachable s := h.mono fun _ _ _ => trivial

theorem Reachable.next {M : Machine σ α} {s s' : σ} {a : α} (h : M.Reachable s)
    (hs : M.step s a = some s') : M.Reachable s' := ReachableBy.next h trivial hs

theorem Reachable.invariant {M : Machine σ α} (I : σ → Prop) (start : I M.init)
    (keep : ∀ s a s', I s → M.step s a = some s' → I s') {s : σ} (h : M.Reachable s) : I s :=
  ReachableBy.invariant I start (fun s a s' hi _ hs => keep s a s' hi hs) h

/-- From every state of `I` a run inside of `I` reaches the goal, if the measure can always
be made smaller before that. -/
theorem Steps.reaches {M : Machine σ α} {allowed : σ → α → Prop} (I goal : σ → Prop)
    (μ : σ → ℕ)
    (closer : ∀ s, I s → ¬ goal s → ∃ s', M.Steps allowed s s' ∧ I s' ∧ μ s' < μ s) {s : σ}
    (hs : I s) : ∃ s', M.Steps allowed s s' ∧ I s' ∧ goal s' := by
  induction hn : μ s using Nat.strongRecOn generalizing s with
  | ind n ih =>
    by_cases hg : goal s
    · exact ⟨s, .refl, hs, hg⟩
    · obtain ⟨s₁, h₁, hi₁, hlt⟩ := closer s hs hg
      obtain ⟨s', h', hi', hg'⟩ := ih (μ s₁) (hn ▸ hlt) hi₁ rfl
      exact ⟨s', h₁.trans h', hi', hg'⟩

/-- What a run can do for each thing, without undoing it for another, it can do for all. -/
theorem Steps.forEach {M : Machine σ α} {allowed : σ → α → Prop} (I : σ → Prop)
    (done : ι → σ → Prop)
    (one : ∀ s i, I s → ∃ s', M.Steps allowed s s' ∧ I s' ∧ done i s' ∧
      ∀ j, done j s → done j s')
    (is : List ι) {s : σ} (hs : I s) :
    ∃ s', M.Steps allowed s s' ∧ I s' ∧ ∀ i ∈ is, done i s' := by
  induction is generalizing s with
  | nil => exact ⟨s, .refl, hs, by simp⟩
  | cons i is ih =>
    obtain ⟨s₁, h₁, hi₁, hall⟩ := ih hs
    obtain ⟨s', h', hi', hdone, hkeep⟩ := one s₁ i hi₁
    refine ⟨s', h₁.trans h', hi', fun j hj => ?_⟩
    rcases List.mem_cons.mp hj with rfl | hj
    · exact hdone
    · exact hkeep j (hall j hj)

/-- A map of states that turns every step into a run, used to see one machine inside another. -/
theorem ReachableBy.map {M : Machine σ α} {M' : Machine τ β} {allowed : σ → α → Prop}
    {allowed' : τ → β → Prop} (f : σ → τ) (start : f M.init = M'.init)
    (keep : ∀ s a s', allowed s a → M.step s a = some s' → M'.Steps allowed' (f s) (f s'))
    {s : σ} (h : M.ReachableBy allowed s) : M'.ReachableBy allowed' (f s) := by
  have h' : M'.Steps allowed' (f M.init) (f s) :=
    Relation.ReflTransGen.lift' f (fun s s' ⟨a, ha, hs⟩ => keep s a s' ha hs) _ _ h
  rwa [start] at h'

/-- Where the actions lead that are allowed and enabled when their turn comes. -/
def afterBy (M : Machine σ α) (allowed : σ → α → Prop) [∀ s a, Decidable (allowed s a)]
    (as : List α) : σ :=
  as.foldl (fun s a => if allowed s a then (M.step s a).getD s else s) M.init

theorem reachableBy_after (M : Machine σ α) (allowed : σ → α → Prop)
    [∀ s a, Decidable (allowed s a)] (as : List α) :
    M.ReachableBy allowed (M.afterBy allowed as) := by
  induction as using List.reverseRecOn with
  | nil => exact .refl
  | append_singleton as a ih =>
    simp only [afterBy, List.foldl_append, List.foldl_cons, List.foldl_nil] at ih ⊢
    split
    · rename_i ha
      cases hs : M.step (as.foldl (fun s a => if allowed s a then (M.step s a).getD s else s)
          M.init) a with
      | none => exact ih
      | some s => exact ih.next ha hs
    · exact ih

def after (M : Machine σ α) (as : List α) : σ := M.afterBy (fun _ _ => True) as

theorem reachable_after (M : Machine σ α) (as : List α) : M.Reachable (M.after as) :=
  M.reachableBy_after _ as

/-- Takes the actions in order; stops with `none` at the first disabled one. -/
def run (M : Machine σ α) : List α → σ → Option σ
  | [], s => some s
  | a :: as, s => (M.step s a).bind (M.run as)

theorem steps_of_run {M : Machine σ α} {as : List α} {s s' : σ} (hr : M.run as s = some s') :
    M.Steps (fun _ a => a ∈ as) s s' := by
  induction as generalizing s with
  | nil => cases hr; exact .refl
  | cons a as ih =>
    simp only [Machine.run] at hr
    obtain ⟨t, ht, hr⟩ := Option.bind_eq_some_iff.mp hr
    exact Steps.head (by simp) ht ((ih hr).mono fun _ b hb => by simp [hb])

theorem run_append (M : Machine σ α) (as bs : List α) (s : σ) :
    M.run (as ++ bs) s = (M.run as s).bind (M.run bs) := by
  induction as generalizing s with
  | nil => rfl
  | cons a as ih =>
    cases hs : M.step s a with
    | none => simp [run, hs]
    | some t => simp [run, hs, ih]

/-- A relation that every step of one machine keeps by the same step of the other, run by run. -/
theorem run_simulates {M : Machine σ α} {M' : Machine τ α} (R : σ → τ → Prop)
    (keep : ∀ s t a s', R s t → M.step s a = some s' → ∃ t', M'.step t a = some t' ∧ R s' t')
    {as : List α} {s s' : σ} {t : τ} (h : R s t) (hr : M.run as s = some s') :
    ∃ t', M'.run as t = some t' ∧ R s' t' := by
  induction as generalizing s t with
  | nil =>
    cases hr
    exact ⟨t, rfl, h⟩
  | cons a as ih =>
    obtain ⟨s₁, hs, hr⟩ := Option.bind_eq_some_iff.mp hr
    obtain ⟨t₁, ht, h₁⟩ := keep s t a s₁ h hs
    obtain ⟨t', hrun, h'⟩ := ih h₁ hr
    exact ⟨t', Option.bind_eq_some_iff.mpr ⟨t₁, ht, hrun⟩, h'⟩

theorem Reachable.run {M : Machine σ α} {as : List α} {s s' : σ} (h : M.Reachable s)
    (hr : M.run as s = some s') : M.Reachable s' := by
  induction as generalizing s with
  | nil => cases hr; exact h
  | cons a as ih =>
    simp only [Machine.run] at hr
    obtain ⟨t, ht, hr⟩ := Option.bind_eq_some_iff.mp hr
    exact ih (h.next ht) hr

theorem reachable_of_run {M : Machine σ α} {as : List α} {s : σ}
    (hr : M.run as M.init = some s) : M.Reachable s :=
  Reachable.run Relation.ReflTransGen.refl hr

end Machine
