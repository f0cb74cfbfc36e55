import DecentralizedBroadcast.Lib.Machine
import Mathlib.Data.List.Nodup
import Mathlib.Data.Set.Basic
import Mathlib.Logic.Function.Basic

/-! What localized causal broadcast is for, without clocks, texts or a network. A message is
its origin and its number there; it is broadcast with the set of messages that have to
come before it, and a process delivers it, once, when it has delivered all of these. -/
set_option autoImplicit false

namespace CausalService
variable {P : Type*} [DecidableEq P]

structure State (P : Type*) where
  sent : P → ℕ
  past : P × ℕ → Set (P × ℕ)
  delivered : P → List (P × ℕ)

inductive Act (P : Type*) where
  | broadcast (p : P)
  | deliver (q : P) (m : P × ℕ)

def Act.proc : Act P → P
  | .broadcast p => p
  | .deliver q _ => q

/-- The messages that the next one of `p` has to come after: its own, and what it delivered
from the processes it depends on. -/
def State.pastOf (dependsOn : P → P → Prop) (s : State P) (p : P) : Set (P × ℕ) :=
  {m | m.1 = p ∧ m.2 < s.sent p ∨ dependsOn p m.1 ∧ m ∈ s.delivered p}

/-- What `q` may deliver. -/
def State.Deliverable (s : State P) (q : P) (m : P × ℕ) : Prop :=
  m.2 < s.sent m.1 ∧ m ∉ s.delivered q ∧ ∀ x ∈ s.past m, x ∈ s.delivered q

def State.broadcast (dependsOn : P → P → Prop) (s : State P) (p : P) : State P :=
  { s with
    sent := Function.update s.sent p (s.sent p + 1)
    past := Function.update s.past (p, s.sent p) (s.pastOf dependsOn p) }

def State.deliver (s : State P) (q : P) (m : P × ℕ) : State P :=
  { s with delivered := Function.update s.delivered q (s.delivered q ++ [m]) }

open Classical in
noncomputable def step (dependsOn : P → P → Prop) (s : State P) : Act P → Option (State P)
  | .broadcast p => some (s.broadcast dependsOn p)
  | .deliver q m => if s.Deliverable q m then some (s.deliver q m) else none

def start : State P := ⟨fun _ => 0, fun _ => ∅, fun _ => []⟩

end CausalService

/-- The service for processes that each depend on some others. -/
noncomputable def causalService {P : Type*} [DecidableEq P] (dependsOn : P → P → Prop) :
    Machine (CausalService.State P) (CausalService.Act P) :=
  ⟨CausalService.start, CausalService.step dependsOn⟩

namespace CausalService
variable {P : Type*} [DecidableEq P] {dependsOn : P → P → Prop}

theorem step_broadcast (s : State P) (p : P) :
    (causalService dependsOn).step s (.broadcast p) = some (s.broadcast dependsOn p) := rfl

theorem step_deliver {s : State P} {q : P} {m : P × ℕ} (h : s.Deliverable q m) :
    (causalService dependsOn).step s (.deliver q m) = some (s.deliver q m) := if_pos h

/-- What is delivered was broadcast, once each, and closed under the past; the past of a
message holds all earlier messages of its origin. -/
structure Inv (s : State P) : Prop where
  known : ∀ q, ∀ m ∈ s.delivered q, m.2 < s.sent m.1
  once : ∀ q, (s.delivered q).Nodup
  closed : ∀ q, ∀ m ∈ s.delivered q, ∀ x ∈ s.past m, x ∈ s.delivered q
  pastKnown : ∀ m, m.2 < s.sent m.1 → ∀ x ∈ s.past m, x.2 < s.sent x.1
  inOrder : ∀ p i, i < s.sent p → ∀ j < i, (p, j) ∈ s.past (p, i)

theorem Inv.broadcast {s : State P} (h : Inv s) (p : P) : Inv (s.broadcast dependsOn p) := by
  have hgrow : ∀ m : P × ℕ, m.2 < s.sent m.1 → m.2 < (s.broadcast dependsOn p).sent m.1 := by
    intro m hm
    by_cases hp : m.1 = p
    · rw [hp] at hm
      simp only [State.broadcast, hp, Function.update_self]
      omega
    · simpa [State.broadcast, hp] using hm
  have hpast : ∀ m : P × ℕ, m.2 < s.sent m.1 → (s.broadcast dependsOn p).past m = s.past m := by
    rintro ⟨x, i⟩ hm
    refine Function.update_of_ne (fun he => ?_) _ _
    obtain ⟨rfl, rfl⟩ := Prod.mk.inj he
    exact Nat.lt_irrefl _ hm
  have hnew : ∀ x ∈ s.pastOf dependsOn p, x.2 < s.sent x.1 := by
    rintro x (⟨rfl, hx⟩ | ⟨-, hx⟩)
    · exact hx
    · exact h.known p x hx
  have hold : ∀ (x : P) (i : ℕ), i < (s.broadcast dependsOn p).sent x →
      i < s.sent x ∨ x = p ∧ i = s.sent p := by
    intro x i hi
    by_cases hx : x = p
    · subst hx
      simp only [State.broadcast, Function.update_self] at hi
      rcases Nat.lt_succ_iff_lt_or_eq.mp hi with hi | hi
      · exact .inl hi
      · exact .inr ⟨rfl, hi⟩
    · exact .inl (by simpa [State.broadcast, hx] using hi)
  refine ⟨fun q m hm => hgrow m (h.known q m hm), h.once, ?_, ?_, ?_⟩
  · intro q m hm x hx
    rw [hpast m (h.known q m hm)] at hx
    exact h.closed q m hm x hx
  · rintro ⟨y, i⟩ hm x hx
    rcases hold y i hm with hi | ⟨rfl, rfl⟩
    · rw [hpast (y, i) hi] at hx
      exact hgrow x (h.pastKnown (y, i) hi x hx)
    · simp only [State.broadcast, Function.update_self] at hx
      exact hgrow x (hnew x hx)
  · intro y i hi j hj
    rcases hold y i hi with hi | ⟨rfl, rfl⟩
    · rw [hpast (y, i) hi]
      exact h.inOrder y i hi j hj
    · simp only [State.broadcast, Function.update_self]
      exact .inl ⟨rfl, hj⟩

theorem Inv.deliver {s : State P} (h : Inv s) {q : P} {m : P × ℕ} (hm : s.Deliverable q m) :
    Inv (s.deliver q m) := by
  obtain ⟨hsent, hnew, hready⟩ := hm
  have hmem : ∀ p x, x ∈ (s.deliver q m).delivered p ↔
      x ∈ s.delivered p ∨ p = q ∧ x = m := by
    intro p x
    by_cases hp : p = q
    · subst hp
      simp [State.deliver]
    · simp [State.deliver, hp]
  refine ⟨?_, ?_, ?_, h.pastKnown, h.inOrder⟩
  · intro p x hx
    rcases (hmem p x).mp hx with hx | ⟨-, rfl⟩
    · exact h.known p x hx
    · exact hsent
  · intro p
    by_cases hp : p = q
    · subst hp
      simp only [State.deliver, Function.update_self, ← List.concat_eq_append]
      exact (h.once p).concat hnew
    · simpa [State.deliver, hp] using h.once p
  · intro p x hx y hy
    rw [hmem]
    rcases (hmem p x).mp hx with hx | ⟨rfl, rfl⟩
    · exact .inl (h.closed p x hx y hy)
    · exact .inl (hready y hy)

theorem inv_reachable {s : State P} (h : (causalService dependsOn).Reachable s) : Inv s := by
  refine h.invariant Inv ?_ fun s a s' hi hs => ?_
  · constructor <;> simp [causalService, start]
  · cases a with
    | broadcast p => exact Option.some.inj hs ▸ hi.broadcast p
    | deliver q m =>
      obtain ⟨hm, hs⟩ := Option.ite_none_right_eq_some.mp hs
      exact Option.some.inj hs ▸ hi.deliver hm

end CausalService
