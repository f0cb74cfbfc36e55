import Mathlib.Data.List.Basic
import Mathlib.Data.List.Nodup

/-! A list cut from the left into groups of `n`, with a shorter last group if its
length is no multiple of `n`. -/
set_option autoImplicit false

namespace Groups
variable {α β : Type*} {n : ℕ}

def cut (n : ℕ) : List α → List (List α)
  | [] => []
  | a :: l => (a :: l.take (n - 1)) :: cut n (l.drop (n - 1))
termination_by l => l.length
decreasing_by
  rw [List.length_drop, List.length_cons]
  omega

@[simp] theorem cut_nil (n : ℕ) : cut n ([] : List α) = [] := by rw [cut]

theorem cut_append (hn : 0 < n) {g : List α} (hg : g.length = n) (l : List α) :
    cut n (g ++ l) = g :: cut n l := by
  obtain ⟨a, g, rfl⟩ := List.exists_cons_of_ne_nil (List.ne_nil_of_length_pos (hg ▸ hn))
  have hlen : n - 1 = g.length := by
    rw [← hg, List.length_cons]
    rfl
  rw [List.cons_append, cut, hlen, List.take_left, List.drop_left]

theorem cut_short {g : List α} (hne : g ≠ []) (hg : g.length ≤ n) : cut n g = [g] := by
  obtain ⟨a, g, rfl⟩ := List.exists_cons_of_ne_nil hne
  have hlen : g.length ≤ n - 1 := by
    rw [List.length_cons] at hg
    omega
  rw [cut, List.take_of_length_le hlen, List.drop_of_length_le hlen, cut_nil]

/-- Group by group: a full one goes first, or what is left is shorter than a group. -/
theorem cut_induction (hn : 0 < n) {P : List α → Prop} (nil : P [])
    (full : ∀ g l, g.length = n → P l → P (g ++ l))
    (last : ∀ g, g ≠ [] → g.length < n → P g) (l : List α) : P l := by
  induction hk : l.length using Nat.strongRecOn generalizing l with
  | ind k ih =>
    by_cases hlt : l.length < n
    · by_cases hl : l = []
      · exact hl ▸ nil
      · exact last l hl hlt
    · have hlen : (l.drop n).length < k := by
        rw [List.length_drop]
        omega
      have := full (l.take n) (l.drop n) (by rw [List.length_take]; omega)
        (ih _ hlen (l.drop n) rfl)
      rwa [List.take_append_drop] at this

theorem flatten_cut (hn : 0 < n) (l : List α) : (cut n l).flatten = l := by
  induction l using cut_induction hn with
  | nil => simp
  | full g l hg ih => rw [cut_append hn hg, List.flatten_cons, ih]
  | last g hne hg => simp [cut_short hne (Nat.le_of_lt hg)]

theorem mem_cut (hn : 0 < n) {l g : List α} (h : g ∈ cut n l) : g ≠ [] ∧ g.length ≤ n := by
  induction l using cut_induction hn with
  | nil => simp at h
  | full g' l hg ih =>
    rw [cut_append hn hg] at h
    rcases List.mem_cons.mp h with rfl | h
    · exact ⟨List.ne_nil_of_length_pos (hg ▸ hn), Nat.le_of_eq hg⟩
    · exact ih h
  | last g' hne hg =>
    rw [cut_short hne (Nat.le_of_lt hg)] at h
    obtain rfl := List.mem_singleton.mp h
    exact ⟨hne, Nat.le_of_lt hg⟩

/-- A group that is not full ends the list. -/
theorem full_or_suffix (hn : 0 < n) {l g : List α} (h : g ∈ cut n l) : g.length = n ∨ g <:+ l := by
  induction l using cut_induction hn with
  | nil => simp at h
  | full g' l hg ih =>
    rw [cut_append hn hg] at h
    rcases List.mem_cons.mp h with rfl | h
    · exact .inl hg
    · exact (ih h).imp id fun hs => hs.trans (List.suffix_append g' l)
  | last g' hne hg =>
    rw [cut_short hne (Nat.le_of_lt hg)] at h
    exact .inr (List.mem_singleton.mp h ▸ List.suffix_refl _)

/-- All groups but the last one are full. -/
theorem length_cut_mul_lt (hn : 0 < n) (l : List α) : (cut n l).length * n < l.length + n := by
  induction l using cut_induction hn with
  | nil => simpa using hn
  | full g l hg ih =>
    rw [cut_append hn hg, List.length_cons, List.length_append, Nat.add_mul]
    omega
  | last g hne hg =>
    have := List.length_pos_iff.mpr hne
    rw [cut_short hne (Nat.le_of_lt hg), List.length_singleton]
    omega

theorem cut_map (hn : 0 < n) (f : α → β) (l : List α) :
    cut n (l.map f) = (cut n l).map (List.map f) := by
  induction l using cut_induction hn with
  | nil => simp
  | full g l hg ih =>
    rw [List.map_append, cut_append hn (by simpa using hg), cut_append hn hg, ih, List.map_cons]
  | last g hne hg =>
    rw [cut_short (by simpa using hne) (by simpa using Nat.le_of_lt hg),
      cut_short hne (Nat.le_of_lt hg), List.map_singleton]

theorem nodup_of_flatten {gs : List (List α)} (h : gs.flatten.Nodup)
    (hne : ∀ g ∈ gs, g ≠ []) : gs.Nodup := by
  induction gs with
  | nil => exact List.nodup_nil
  | cons g gs ih =>
    rw [List.flatten_cons] at h
    obtain ⟨-, htail, hdisj⟩ := List.nodup_append.mp h
    refine List.nodup_cons.mpr ⟨fun hin => ?_, ih htail fun x hx => hne x (by simp [hx])⟩
    obtain ⟨a, ha⟩ := List.exists_mem_of_ne_nil g (hne g (by simp))
    exact hdisj a ha a (List.mem_flatten.mpr ⟨g, hin, ha⟩) rfl

theorem nodup_cut (hn : 0 < n) {l : List α} (h : l.Nodup) : (cut n l).Nodup :=
  nodup_of_flatten (by rwa [flatten_cut hn]) fun _ hg => (mem_cut hn hg).1

end Groups
