import DecentralizedBroadcast.Lib.Machine
import Mathlib.Order.Filter.EventuallyConst
import Mathlib.Order.Lattice.Nat

/-! Runs that never end: what is true from some moment on, what happens again and again, and
how to put a run together from a finite one and a cycle of actions that change nothing. -/
set_option autoImplicit false

open Filter

/-- What changes by growing only, and cannot grow for ever, changes no more in the end. -/
theorem eventuallyConst_of_growth {β : Type*} {f : ℕ → β} (μ : β → ℕ)
    (grow : ∀ j, f (j + 1) = f j ∨ μ (f j) < μ (f (j + 1))) {B : ℕ}
    (bound : ∀ᶠ j in atTop, μ (f j) ≤ B) : EventuallyConst f atTop := by
  have hmono : Monotone fun j => μ (f j) := by
    refine monotone_nat_of_le_succ fun j => ?_
    rcases grow j with heq | hlt
    · rw [heq]
    · exact hlt.le
  obtain ⟨J, hJ⟩ := eventually_atTop.mp bound
  have hbound : ∀ j, μ (f j) ≤ B := fun j =>
    (hmono (Nat.le_max_left j J)).trans (hJ _ (Nat.le_max_right j J))
  -- from the moment on at which the measure is largest there is no change
  obtain ⟨K, hK⟩ := Nat.sSup_mem (Set.range_nonempty fun j => μ (f j))
    ⟨B, Set.forall_mem_range.mpr hbound⟩
  have hmax : ∀ j, μ (f j) ≤ μ (f K) := fun j => by
    have hle := le_csSup ⟨B, Set.forall_mem_range.mpr hbound⟩ (Set.mem_range_self j)
    rwa [← hK] at hle
  refine eventuallyConst_atTop_nat.mpr ⟨K, fun j hj => (grow j).resolve_right ?_⟩
  exact Nat.not_lt.mpr ((hmax (j + 1)).trans (hmono hj))

namespace Machine
variable {σ α : Type*} {M : Machine σ α} {s s' : σ}

/-- A run from `s` that never ends, with the action that is taken at each moment. -/
structure InfiniteRun (M : Machine σ α) (s : σ) where
  state : ℕ → σ
  action : ℕ → α
  start : state 0 = s
  step : ∀ j, M.step (state j) (action j) = some (state (j + 1))

namespace InfiniteRun

theorem steps (r : M.InfiniteRun s) {i j : ℕ} (h : i ≤ j) :
    M.Steps (fun _ _ => True) (r.state i) (r.state j) := by
  induction j, h using Nat.le_induction with
  | base => exact .refl
  | succ j _ ih => exact Relation.ReflTransGen.tail ih ⟨r.action j, trivial, r.step j⟩

theorem reachable (r : M.InfiniteRun M.init) (j : ℕ) : M.Reachable (r.state j) := by
  have hsteps := r.steps (Nat.zero_le j)
  rwa [r.start] at hsteps

def cons (a : α) (h : M.step s a = some s') (r : M.InfiniteRun s') : M.InfiniteRun s where
  state
    | 0 => s
    | j + 1 => r.state j
  action
    | 0 => a
    | j + 1 => r.action j
  start := rfl
  step
    | 0 => h.trans (congrArg some r.start.symm)
    | j + 1 => r.step j

theorem exists_append {allowed : σ → α → Prop} (h : M.Steps allowed s s')
    (r : M.InfiniteRun s') : ∃ (r' : M.InfiniteRun s) (n : ℕ),
      ∀ j, r'.state (n + j) = r.state j ∧ r'.action (n + j) = r.action j := by
  induction h using Relation.ReflTransGen.head_induction_on with
  | refl => exact ⟨r, 0, fun j => by rw [Nat.zero_add]; exact ⟨rfl, rfl⟩⟩
  | head hstep _ ih =>
    obtain ⟨a, -, ha⟩ := hstep
    obtain ⟨r', n, hr'⟩ := ih
    refine ⟨r'.cons a ha, n + 1, fun j => ?_⟩
    rw [Nat.add_right_comm]
    exact hr' j

/-- Round and round through actions that change nothing. -/
def idle (bs : List α) (hne : 0 < bs.length) (h : ∀ b ∈ bs, M.step s b = some s) :
    M.InfiniteRun s where
  state := fun _ => s
  action := fun j => bs.get ⟨j % bs.length, Nat.mod_lt j hne⟩
  start := rfl
  step := fun _ => h _ (List.get_mem bs _)

theorem idle_action_mem {bs : List α} (hne : 0 < bs.length) (h : ∀ b ∈ bs, M.step s b = some s)
    (j : ℕ) : (idle bs hne h).action j ∈ bs := List.get_mem bs _

theorem frequently_idle_action {bs : List α} (hne : 0 < bs.length)
    (h : ∀ b ∈ bs, M.step s b = some s) {b : α} (hb : b ∈ bs) :
    ∃ᶠ j in atTop, (idle bs hne h).action j = b := by
  obtain ⟨i, rfl⟩ := List.mem_iff_get.mp hb
  refine frequently_atTop.mpr fun n => ⟨i + bs.length * n, ?_, ?_⟩
  · exact (Nat.le_mul_of_pos_left n hne).trans (Nat.le_add_left _ _)
  · have hmod : (i + bs.length * n) % bs.length = i := by
      rw [Nat.add_mul_mod_self_left, Nat.mod_eq_of_lt i.isLt]
    simp only [idle, hmod]

end InfiniteRun

end Machine
