import DecentralizedBroadcast.Lib.Machine
import Mathlib.Algebra.Order.BigOperators.Group.Finset
import Mathlib.Data.Finset.Basic

/-! Threads that lock and unlock mutexes, each along a sequence of its own. If every thread locks
its mutexes in the order of a rank they never block each other for good. -/
set_option autoImplicit false

namespace Locks

inductive Op (μ : Type*) where
  | lock (m : μ)
  | unlock (m : μ)

/-- What each thread has left to do, and who holds each mutex. -/
structure State (τ μ : Type*) where
  rest : τ → List (Op μ)
  holder : μ → Option τ

inductive Action (τ μ : Type*) where
  | call (t : τ) (ops : List (Op μ))  -- `t` is to do `ops` before all else
  | go (t : τ)                        -- its next operation

variable {τ μ : Type*} [DecidableEq τ]

def State.call (s : State τ μ) (t : τ) (ops : List (Op μ)) : State τ μ :=
  { s with rest := Function.update s.rest t (ops ++ s.rest t) }

@[simp] theorem call_rest (s : State τ μ) (t u : τ) (ops : List (Op μ)) :
    (s.call t ops).rest u = if u = t then ops ++ s.rest t else s.rest u :=
  Function.update_apply _ _ _ _

variable [DecidableEq μ]

/-- `t` has its next operation behind it, and `m` is in the hands of `h`. -/
def State.advance (s : State τ μ) (t : τ) (ops : List (Op μ)) (m : μ) (h : Option τ) : State τ μ :=
  ⟨Function.update s.rest t ops, Function.update s.holder m h⟩

/-- A mutex that is taken cannot be locked, also not by the thread that holds it. -/
def State.go (s : State τ μ) (t : τ) : Option (State τ μ) :=
  match s.rest t with
  | [] => none
  | .lock m :: ops => if s.holder m = none then some (s.advance t ops m (some t)) else none
  | .unlock m :: ops => if s.holder m = some t then some (s.advance t ops m none) else none

def State.step (s : State τ μ) : Action τ μ → Option (State τ μ)
  | .call t ops => some (s.call t ops)
  | .go t => s.go t

/-- Threads that begin with nothing to do, and hold nothing. -/
def machine (τ μ : Type*) [DecidableEq τ] [DecidableEq μ] : Machine (State τ μ) (Action τ μ) :=
  ⟨⟨fun _ => [], fun _ => none⟩, State.step⟩

def guarded (m : μ) (ops : List (Op μ)) : List (Op μ) := .lock m :: (ops ++ [.unlock m])

/-- With `held` in hand, `ops` locks upwards only, and releases everything in the end. -/
def Ordered (rank : μ → ℕ) : List μ → List (Op μ) → Prop
  | held, [] => held = []
  | held, .lock m :: ops => (∀ h ∈ held, rank h < rank m) ∧ Ordered rank (m :: held) ops
  | held, .unlock m :: ops => m ∈ held ∧ Ordered rank (held.erase m) ops

/-- Every thread holds what it is to unlock. -/
def Inv (rank : μ → ℕ) (s : State τ μ) : Prop :=
  ∀ t, ∃ held : List μ, held.Nodup ∧ (∀ m, m ∈ held ↔ s.holder m = some t) ∧
    Ordered rank held (s.rest t)

section State
variable {s s' : State τ μ} {t : τ} {m : μ} {ops : List (Op μ)}

@[simp] theorem advance_rest (h : Option τ) (u : τ) :
    (s.advance t ops m h).rest u = if u = t then ops else s.rest u :=
  Function.update_apply _ _ _ _

@[simp] theorem advance_holder (h : Option τ) (m' : μ) :
    (s.advance t ops m h).holder m' = if m' = m then h else s.holder m' :=
  Function.update_apply _ _ _ _

theorem State.go_lock (h : s.rest t = .lock m :: ops) (hm : s.holder m = none) :
    s.go t = some (s.advance t ops m (some t)) := by
  simp [State.go, h, hm]

theorem State.go_unlock (h : s.rest t = .unlock m :: ops) (hm : s.holder m = some t) :
    s.go t = some (s.advance t ops m none) := by
  simp [State.go, h, hm]

theorem State.go_cases (h : s.go t = some s') : ∃ m ops,
    (s.rest t = .lock m :: ops ∧ s.holder m = none ∧ s' = s.advance t ops m (some t)) ∨
    (s.rest t = .unlock m :: ops ∧ s.holder m = some t ∧ s' = s.advance t ops m none) := by
  unfold State.go at h
  split at h
  · cases h
  · rename_i m ops hrest
    rw [Option.ite_none_right_eq_some] at h
    exact ⟨m, ops, .inl ⟨hrest, h.1, (Option.some.inj h.2).symm⟩⟩
  · rename_i m ops hrest
    rw [Option.ite_none_right_eq_some] at h
    exact ⟨m, ops, .inr ⟨hrest, h.1, (Option.some.inj h.2).symm⟩⟩

theorem State.go_rest (h : s.go t = some s') :
    s.rest t ≠ [] ∧ ∀ u, s'.rest u = if u = t then (s.rest t).tail else s.rest u := by
  obtain ⟨m, ops, ⟨hrest, -, rfl⟩ | ⟨hrest, -, rfl⟩⟩ := State.go_cases h
  · simp [hrest]
  · simp [hrest]

end State

section Inv
variable {rank : μ → ℕ} {s s' : State τ μ} {t : τ}

theorem inv_init : Inv rank (machine τ μ).init :=
  fun _ => ⟨[], List.nodup_nil, by simp [machine], rfl⟩

theorem Inv.go (h : Inv rank s) (hs : s.go t = some s') : Inv rank s' := by
  intro u
  obtain ⟨held, hnd, hheld, hord⟩ := h u
  obtain ⟨m, ops, ⟨hrest, hfree, rfl⟩ | ⟨hrest, hmine, rfl⟩⟩ := State.go_cases hs
  · have hm : m ∉ held := fun hin => by simp [(hheld m).mp hin] at hfree
    by_cases hu : u = t
    · subst hu
      rw [hrest] at hord
      refine ⟨m :: held, List.nodup_cons.mpr ⟨hm, hnd⟩, fun m' => ?_, by simpa using hord.2⟩
      by_cases hmm : m' = m <;> simp [hmm, hheld]
    · refine ⟨held, hnd, fun m' => ?_, by simpa [hu] using hord⟩
      by_cases hmm : m' = m
      · subst hmm
        simp [hm, Ne.symm hu]
      · simp [hmm, hheld]
  · by_cases hu : u = t
    · subst hu
      rw [hrest] at hord
      refine ⟨held.erase m, hnd.erase m, fun m' => ?_, by simpa using hord.2⟩
      rw [hnd.mem_erase_iff, hheld]
      by_cases hmm : m' = m <;> simp [hmm]
    · have hm : m ∉ held := fun hin =>
        hu (Option.some.inj (((hheld m).mp hin).symm.trans hmine))
      refine ⟨held, hnd, fun m' => ?_, by simpa [hu] using hord⟩
      by_cases hmm : m' = m
      · subst hmm
        simp [hm]
      · simp [hmm, hheld]

theorem Inv.call (h : Inv rank s) {ops : List (Op μ)} (hidle : s.rest t = [])
    (hops : Ordered rank [] ops) : Inv rank (s.call t ops) := by
  intro u
  obtain ⟨held, hnd, hheld, hord⟩ := h u
  refine ⟨held, hnd, hheld, ?_⟩
  by_cases hu : u = t
  · subst hu
    rw [hidle] at hord
    rw [call_rest, if_pos rfl, hidle, List.append_nil]
    exact hord ▸ hops
  · rwa [call_rest, if_neg hu]

/-- A thread is interrupted, and is to lock a mutex above all others first. -/
theorem Inv.interrupt (h : Inv rank s) {m : μ} (htop : ∀ m', m' ≠ m → rank m' < rank m)
    (hfree : s.holder m ≠ some t) : Inv rank (s.call t (guarded m [])) := by
  intro u
  obtain ⟨held, hnd, hheld, hord⟩ := h u
  refine ⟨held, hnd, hheld, ?_⟩
  by_cases hu : u = t
  · subst hu
    rw [call_rest, if_pos rfl]
    refine ⟨fun m' hm' => htop m' fun he => hfree ((hheld m).mp (he ▸ hm')), by simp, ?_⟩
    simpa using hord
  · rwa [call_rest, if_neg hu]

/-- Some thread can go on: the chain of who waits for whom goes up in rank, and so it ends. -/
theorem Inv.moves (h : Inv rank s) {R : ℕ} (hR : ∀ m, rank m ≤ R) (ht : s.rest t ≠ []) :
    ∃ u s', s.go u = some s' := by
  have waiting : ∀ k t m ops, s.rest t = .lock m :: ops → R - rank m < k →
      ∃ u s', s.go u = some s' := by
    intro k
    induction k with
    | zero => exact fun _ _ _ _ hk => absurd hk (Nat.not_lt_zero _)
    | succ k ih =>
      intro t m ops hrest hk
      cases hm : s.holder m with
      | none => exact ⟨t, _, State.go_lock hrest hm⟩
      | some u =>
        obtain ⟨held, -, hheld, hord⟩ := h u
        have hin := (hheld m).mpr hm
        cases hu : s.rest u with
        | nil =>
          rw [hu] at hord
          simp only [Ordered] at hord
          simp [hord] at hin
        | cons op ops' =>
          rw [hu] at hord
          cases op with
          | lock m' =>
            have hlt := hord.1 m hin
            have hle := hR m'
            exact ih u m' ops' hu (by omega)
          | unlock m' => exact ⟨u, _, State.go_unlock hu ((hheld m').mp hord.1)⟩
  cases hrest : s.rest t with
  | nil => exact absurd hrest ht
  | cons op ops =>
    cases op with
    | lock m => exact waiting _ t m ops hrest (Nat.lt_succ_self _)
    | unlock m =>
      obtain ⟨held, -, hheld, hord⟩ := h t
      rw [hrest] at hord
      exact ⟨t, _, State.go_unlock hrest ((hheld m).mp hord.1)⟩

end Inv

/-- Whatever of lower rank than `r` a thread holds, it gets through `ops` in order. -/
def Within (rank : μ → ℕ) (r : ℕ) (ops : List (Op μ)) : Prop :=
  ∀ held rest, (∀ h ∈ held, rank h < r) → Ordered rank held rest → Ordered rank held (ops ++ rest)

section Within
variable {rank : μ → ℕ} {r : ℕ}

theorem Within.nil : Within rank r [] := fun _ _ _ hrest => hrest

theorem Within.append {a b : List (Op μ)} (ha : Within rank r a) (hb : Within rank r b) :
    Within rank r (a ++ b) := by
  intro held rest hlow hrest
  rw [List.append_assoc]
  exact ha held _ hlow (hb held rest hlow hrest)

theorem Within.guarded {m : μ} {ops : List (Op μ)} (hm : r ≤ rank m)
    (hops : Within rank (rank m + 1) ops) : Within rank r (guarded m ops) := by
  intro held rest hlow hrest
  rw [Locks.guarded, List.cons_append, List.append_assoc]
  refine ⟨fun h hh => Nat.lt_of_lt_of_le (hlow h hh) hm, hops _ _ (fun h hh => ?_) ?_⟩
  · rcases List.mem_cons.mp hh with rfl | hh
    · exact Nat.lt_succ_self _
    · have := hlow h hh
      omega
  · exact ⟨List.mem_cons_self, by rwa [List.erase_cons_head]⟩

theorem Within.flatMap {α : Type*} {f : α → List (Op μ)} {l : List α}
    (h : ∀ x ∈ l, Within rank r (f x)) : Within rank r (l.flatMap f) := by
  induction l with
  | nil => exact .nil
  | cons x l ih =>
    rw [List.flatMap_cons]
    exact (h x List.mem_cons_self).append (ih fun y hy => h y (List.mem_cons_of_mem x hy))

theorem Within.ordered {ops : List (Op μ)} (h : Within rank r ops) : Ordered rank [] ops := by
  have hall := h [] [] (by simp) rfl
  rwa [List.append_nil] at hall

end Within

/-- Threads run their programs, one after the other. -/
def Rounds (programs : τ → List (Op μ) → Prop) (s : State τ μ) : Action τ μ → Prop
  | .call t ops => s.rest t = [] ∧ programs t ops
  | .go _ => True

section Rounds
variable {programs : τ → List (Op μ) → Prop} {rank : μ → ℕ} {s : State τ μ}

theorem inv_reachableBy (hprog : ∀ t ops, programs t ops → Ordered rank [] ops)
    (h : (machine τ μ).ReachableBy (Rounds programs) s) : Inv rank s := by
  refine h.invariant (Inv rank) inv_init ?_
  intro s a s' hi ha hs
  cases a with
  | call t ops =>
    obtain rfl := Option.some.inj hs
    exact hi.call ha.1 (hprog t ops ha.2)
  | go t => exact hi.go hs

theorem idle_reachableBy {T : Finset τ} (hT : ∀ t ops, programs t ops → t ∈ T)
    (h : (machine τ μ).ReachableBy (Rounds programs) s) : ∀ t, t ∉ T → s.rest t = [] := by
  refine h.invariant (fun s => ∀ t, t ∉ T → s.rest t = []) (fun _ _ => rfl) ?_
  intro s a s' hi ha hs u hu
  cases a with
  | call t ops =>
    obtain rfl := Option.some.inj hs
    have hut : u ≠ t := fun he => hu (he ▸ hT t ops ha.2)
    rw [call_rest, if_neg hut, hi u hu]
  | go t =>
    obtain ⟨ht, hrest⟩ := State.go_rest hs
    have hut : u ≠ t := fun he => ht (he ▸ hi u hu)
    rw [hrest, if_neg hut, hi u hu]

theorem never_holds {t : τ} {m : μ} (hprog : ∀ ops, programs t ops → .lock m ∉ ops)
    (h : (machine τ μ).ReachableBy (Rounds programs) s) : s.holder m ≠ some t := by
  have hboth : .lock m ∉ s.rest t ∧ s.holder m ≠ some t := by
    refine h.invariant (fun s => .lock m ∉ s.rest t ∧ s.holder m ≠ some t) (by simp [machine]) ?_
    rintro s a s' ⟨hrest, hm⟩ ha hs
    cases a with
    | call u ops =>
      obtain rfl := Option.some.inj hs
      refine ⟨?_, hm⟩
      rw [call_rest]
      split
      · rename_i htu
        rw [List.mem_append, not_or]
        exact ⟨hprog ops (htu ▸ ha.2), htu ▸ hrest⟩
      · exact hrest
    | go u =>
      have hkeep : .lock m ∉ s'.rest t := by
        rw [(State.go_rest hs).2]
        split
        · rename_i htu
          exact fun hin => hrest (htu ▸ List.mem_of_mem_tail hin)
        · exact hrest
      refine ⟨hkeep, ?_⟩
      obtain ⟨m', ops, ⟨hu, -, rfl⟩ | ⟨-, -, rfl⟩⟩ := State.go_cases hs
      · rw [advance_holder]
        split
        · rename_i hmm
          intro he
          rw [← Option.some.inj he, hu] at hrest
          exact hrest (by simp [hmm])
        · exact hm
      · rw [advance_holder]
        split
        · simp
        · exact hm
  exact hboth.2

/-- A thread that waits for itself waits forever. -/
theorem stuck {t : τ} {m : μ} {ops : List (Op μ)} {s' : State τ μ}
    (h : s.rest t = .lock m :: ops ∧ s.holder m = some t)
    (hs : (machine τ μ).Steps (Rounds programs) s s') :
    s'.rest t = .lock m :: ops ∧ s'.holder m = some t := by
  refine hs.invariant (fun s => s.rest t = .lock m :: ops ∧ s.holder m = some t) ?_ h
  rintro s a s' ⟨hrest, hm⟩ ha hs
  cases a with
  | call u ops' =>
    obtain rfl := Option.some.inj hs
    have htu : t ≠ u := fun he => by simpa [← he, hrest] using ha.1
    exact ⟨by rw [call_rest, if_neg htu, hrest], hm⟩
  | go u =>
    obtain ⟨m', ops', ⟨hu, hfree, rfl⟩ | ⟨hu, hmine, rfl⟩⟩ := State.go_cases hs
    · have hmm : m ≠ m' := fun he => by simp [← he, hm] at hfree
      have htu : t ≠ u := fun he => by
        rw [← he, hrest] at hu
        exact hmm (Op.lock.inj (List.cons.inj hu).1)
      exact ⟨by rw [advance_rest, if_neg htu, hrest], by rw [advance_holder, if_neg hmm, hm]⟩
    · have htu : t ≠ u := fun he => by
        rw [← he, hrest] at hu
        cases hu
      have hmm : m ≠ m' := fun he => htu (Option.some.inj (hm.symm.trans (he ▸ hmine)))
      exact ⟨by rw [advance_rest, if_neg htu, hrest], by rw [advance_holder, if_neg hmm, hm]⟩

end Rounds

def Finishing (_ : State τ μ) : Action τ μ → Prop
  | .call _ _ => False
  | .go _ => True

/-- Only the threads of `T` are at something. -/
def Busy (T : Finset τ) (rank : μ → ℕ) (s : State τ μ) : Prop :=
  Inv rank s ∧ ∀ t, t ∉ T → s.rest t = []

section Finite
variable {rank : μ → ℕ} {s : State τ μ} {R : ℕ} (hR : ∀ m, rank m ≤ R) (T : Finset τ)
include hR

theorem Busy.closer (h : Busy T rank s) {t : τ} (ht : s.rest t ≠ []) :
    ∃ u s', s.go u = some s' ∧ Busy T rank s' ∧
      ∑ v ∈ T, (s'.rest v).length < ∑ v ∈ T, (s.rest v).length := by
  obtain ⟨u, s', hgo⟩ := h.1.moves hR ht
  obtain ⟨hu, hrest⟩ := State.go_rest hgo
  have huT : u ∈ T := by_contra fun hnot => hu (h.2 u hnot)
  refine ⟨u, s', hgo, ⟨h.1.go hgo, fun v hv => ?_⟩, ?_⟩
  · have hvu : v ≠ u := fun he => hv (he ▸ huT)
    rw [hrest, if_neg hvu, h.2 v hv]
  · refine Finset.sum_lt_sum (fun v _ => ?_) ⟨u, huT, ?_⟩
    · rw [hrest]
      split
      · rename_i hv
        simp [hv]
      · exact Nat.le_refl _
    · rw [hrest, if_pos rfl, List.length_tail]
      exact Nat.sub_lt (List.length_pos_iff.mpr hu) Nat.one_pos

theorem Busy.drains (h : Busy T rank s) : ∃ s', (machine τ μ).Steps Finishing s s' ∧
    (∀ t, s'.rest t = []) ∧ ∀ m, s'.holder m = none := by
  have closer : ∀ x : State τ μ, Busy T rank x → ¬ (∀ t, x.rest t = []) →
      ∃ x', (machine τ μ).Steps Finishing x x' ∧ Busy T rank x' ∧
        ∑ t ∈ T, (x'.rest t).length < ∑ t ∈ T, (x.rest t).length := by
    intro x hx hbusy
    obtain ⟨t, ht⟩ := not_forall.mp hbusy
    obtain ⟨u, x', hgo, hx', hlt⟩ := hx.closer hR T ht
    exact ⟨x', .single ⟨Action.go u, trivial, hgo⟩, hx', hlt⟩
  obtain ⟨s', hsteps, ⟨hinv, -⟩, hidle⟩ := Machine.Steps.reaches (Busy T rank)
    (fun x => ∀ t, x.rest t = []) (fun x => ∑ t ∈ T, (x.rest t).length) closer h
  refine ⟨s', hsteps, hidle, fun m => ?_⟩
  cases hm : s'.holder m with
  | none => rfl
  | some t =>
    obtain ⟨held, -, hheld, hord⟩ := hinv t
    rw [hidle t] at hord
    have hin := (hheld m).mpr hm
    simp only [Ordered] at hord
    simp [hord] at hin

theorem Busy.finishes (h : Busy T rank s) {t : τ} {first ops : List (Op μ)}
    (ht : s.rest t = first ++ ops) :
    ∃ s', (machine τ μ).Steps Finishing s s' ∧ s'.rest t = ops := by
  have closer : ∀ x : State τ μ, (Busy T rank x ∧ ∃ first, x.rest t = first ++ ops) →
      ¬ x.rest t = ops → ∃ x', (machine τ μ).Steps Finishing x x' ∧
        (Busy T rank x' ∧ ∃ first, x'.rest t = first ++ ops) ∧
        ∑ t ∈ T, (x'.rest t).length < ∑ t ∈ T, (x.rest t).length := by
    rintro x ⟨hx, first, ht⟩ hnot
    cases first with
    | nil => exact absurd ht hnot
    | cons op first =>
      have hbusy : x.rest t ≠ [] := by simp [ht]
      obtain ⟨u, x', hgo, hx', hlt⟩ := hx.closer hR T hbusy
      refine ⟨x', .single ⟨Action.go u, trivial, hgo⟩, ⟨hx', ?_⟩, hlt⟩
      rw [(State.go_rest hgo).2]
      split
      · rename_i htu
        exact ⟨first, by simp [← htu, ht]⟩
      · exact ⟨op :: first, ht⟩
  obtain ⟨s', hsteps, -, hdone⟩ := Machine.Steps.reaches
    (fun x => Busy T rank x ∧ ∃ first, x.rest t = first ++ ops) (fun x => x.rest t = ops)
    (fun x => ∑ t ∈ T, (x.rest t).length) closer ⟨h, first, ht⟩
  exact ⟨s', hsteps, hdone⟩

end Finite

end Locks
