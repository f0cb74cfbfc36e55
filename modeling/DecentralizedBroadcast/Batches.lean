import DecentralizedBroadcast.Stack
import DecentralizedBroadcast.Lib.Groups

/-! What main's loop broadcasts: the numbers from 1 to `m`, in order, cut into
groups of at most `groupBy`, each behind the two digits of its size. -/
set_option autoImplicit false

namespace DecentralizedBroadcast
open Groups

/-- `messages_concat` once the numbers `ns` were added to it. -/
def concatText (ns : List Nat) : Str := ns.flatMap fun n => decimal n ++ ['s']

def batchOf (ns : List Nat) : Str := zeroPad 2 (decimal ns.length) ++ (concatText ns).dropLast

theorem concatText_snoc (ns : List Nat) (n : Nat) :
    concatText (ns ++ [n]) = concatText ns ++ (decimal n ++ ['s']) := by
  simp [concatText]

theorem concatText_cons (n : Nat) (ns : List Nat) :
    concatText (n :: ns) = decimal n ++ ('s' :: concatText ns) := by
  simp [concatText]

theorem concatText_eq_nil {ns : List Nat} : concatText ns = [] ↔ ns = [] := by
  cases ns <;> simp [concatText]

/-- A batch of any texts: how many, in two digits, then the texts, the letter s between them. -/
def batchText (ts : List Str) : Str := zeroPad 2 (decimal ts.length) ++ ['s'].intercalate ts

theorem concatText_dropLast (ns : List Nat) :
    (concatText ns).dropLast = ['s'].intercalate (ns.map decimal) := by
  induction ns with
  | nil => rfl
  | cons n ns ih =>
    rw [concatText_cons, List.dropLast_append_of_ne_nil (by simp), List.map_cons]
    by_cases hns : ns = []
    · simp [hns, concatText]
    · rw [List.dropLast_cons_of_ne_nil (mt concatText_eq_nil.mp hns), ih,
        List.intercalate_cons_of_ne_nil (by simpa using hns)]
      simp

theorem batchOf_eq (ns : List Nat) : batchOf ns = batchText (ns.map decimal) := by
  rw [batchOf, batchText, concatText_dropLast, List.length_map]

/-- The loop with `ns` in `messages_concat`: the groups that these and the numbers left make. -/
theorem batchLoop_cut (remaining seqNum : Nat) (ns : List Nat) (h : ns.length < groupBy) :
    batchLoop remaining seqNum (concatText ns) ns.length =
      (cut groupBy (ns ++ List.range' seqNum remaining)).map batchOf := by
  induction remaining generalizing seqNum ns with
  | zero =>
    by_cases hns : ns = []
    · simp [batchLoop, hns, concatText]
    · simp [batchLoop, concatText_eq_nil, hns, batchOf, cut_short hns (Nat.le_of_lt h)]
  | succ remaining ih =>
    have hrange : ns ++ List.range' seqNum (remaining + 1) =
        (ns ++ [seqNum]) ++ List.range' (seqNum + 1) remaining := by
      simp [List.range'_succ]
    have hlen : (ns ++ [seqNum]).length = ns.length + 1 := by simp
    simp only [batchLoop, h, if_true, ← concatText_snoc]
    rw [hrange]
    by_cases hfull : ns.length + 1 = groupBy
    · have hrest := ih (seqNum + 1) [] (by decide)
      rw [List.nil_append] at hrest
      rw [cut_append (by decide) (hlen.trans hfull), List.map_cons, ← hrest, if_pos hfull]
      simp only [batchOf, hlen, hfull]
      rfl
    · rw [if_neg hfull, ← hlen]
      exact ih (seqNum + 1) (ns ++ [seqNum]) (by omega)

theorem mainBatches_cut (m : Nat) :
    mainBatches m = (cut groupBy (List.range' 1 m)).map batchOf :=
  batchLoop_cut m 1 [] (by decide)

theorem mainBatches_groups (m : Nat) : ∃ groups : List (List Nat),
    mainBatches m = groups.map batchOf ∧ groups.flatten = List.range' 1 m ∧
    ∀ g ∈ groups, g ≠ [] ∧ g.length ≤ groupBy :=
  ⟨_, mainBatches_cut m, flatten_cut (by decide) _, fun _ => mem_cut (by decide)⟩

theorem batchOf_chars (ns : List Nat) : ∀ c ∈ batchOf ns, c.isDigit = true ∨ c = 's' := by
  intro c hc
  rcases List.mem_append.mp hc with hc | hc
  · exact .inl (zeroPad_digits (fun _ => decimal_digits) c hc)
  · obtain ⟨n, -, hc⟩ := List.mem_flatMap.mp (List.dropLast_subset _ hc)
    rcases List.mem_append.mp hc with hc | hc
    · exact .inl (decimal_digits hc)
    · exact .inr (List.mem_singleton.mp hc)

theorem mainBatches_chars {m : Nat} {b : Str} (h : b ∈ mainBatches m) :
    ∀ c ∈ b, c.isDigit = true ∨ c = 's' := by
  obtain ⟨groups, hg, -, -⟩ := mainBatches_groups m
  rw [hg] at h
  obtain ⟨g, -, rfl⟩ := List.mem_map.mp h
  exact batchOf_chars g

theorem concatText_length_le {ns : List Nat} {k : Nat} (h : ∀ n ∈ ns, (decimal n).length ≤ k) :
    (concatText ns).length ≤ ns.length * (k + 1) := by
  induction ns with
  | nil => simp [concatText]
  | cons n ns ih =>
    have hn := h n (by simp)
    have hns := ih fun x hx => h x (by simp [hx])
    rw [concatText_cons, List.length_cons, Nat.succ_mul]
    simp only [List.length_append, List.length_cons]
    omega

/-- Fifteen numbers of ten digits, fourteen letters between them, two digits before. -/
theorem mainBatches_width {m : Nat} (hm : m ≤ 2147483647) {b : Str} (h : b ∈ mainBatches m) :
    b.length ≤ 166 := by
  rw [mainBatches_cut] at h
  obtain ⟨g, hg, rfl⟩ := List.mem_map.mp h
  have hlen : g.length ≤ 15 := (mem_cut (by decide) hg).2
  have hwidth : ∀ n ∈ g, (decimal n).length ≤ 10 := by
    intro n hn
    have hin : n ∈ List.range' 1 m := by
      rw [← flatten_cut (n := groupBy) (by decide) (List.range' 1 m)]
      exact List.mem_flatten.mpr ⟨g, hg, hn⟩
    have := List.mem_range'_1.mp hin
    exact decimal_length_le (by decide) (by omega)
  have htext := concatText_length_le hwidth
  have hhead := decimal_length_le (n := g.length) (k := 2) (by decide) (by omega)
  rw [batchOf, List.length_append, zeroPad_length, List.length_dropLast]
  omega

theorem le_concatText_length (ns : List Nat) : 2 * ns.length ≤ (concatText ns).length ∧
    ∀ n ∈ ns, (decimal n).length < (concatText ns).length := by
  induction ns with
  | nil => simp
  | cons n ns ih =>
    have hn := List.length_pos_iff.mpr (decimal_ne_nil n)
    rw [concatText_cons]
    simp only [List.length_append, List.length_cons]
    refine ⟨by omega, fun x hx => ?_⟩
    rcases List.mem_cons.mp hx with rfl | hx
    · omega
    · have := ih.2 x hx
      omega

/-- A batch is long because it is full, or because `m` is in it. -/
theorem le_mainBatches_width {m : Nat} (hm : m ≤ 2147483647) {b : Str} (h : b ∈ mainBatches m) :
    (decimal m).length ≤ b.length := by
  rw [mainBatches_cut] at h
  obtain ⟨g, hg, rfl⟩ := List.mem_map.mp h
  obtain ⟨hcount, hin⟩ := le_concatText_length g
  have hbatch : (concatText g).length ≤ (batchOf g).length := by
    rw [batchOf, List.length_append, zeroPad_length, List.length_dropLast]
    omega
  rcases full_or_suffix (by decide) hg with hfull | hlast
  · have hten := decimal_length_le (n := m) (k := 10) (by decide) (by omega)
    have hfull : g.length = 15 := hfull
    omega
  · have hne := (mem_cut (by decide) hg).1
    cases m with
    | zero => exact absurd (List.suffix_nil.mp hlast) hne
    | succ m =>
      have hend : [m + 1] <:+ List.range' 1 (m + 1) := by
        rw [List.range'_1_concat, Nat.add_comm 1]
        exact List.suffix_append _ _
      have hmem := List.suffix_of_suffix_length_le hend hlast (List.length_pos_iff.mpr hne)
      have := hin (m + 1) (hmem.subset (by simp))
      omega

theorem length_le_flatten {α : Type*} {gs : List (List α)} (h : ∀ g ∈ gs, g ≠ []) :
    gs.length ≤ gs.flatten.length := by
  induction gs with
  | nil => simp
  | cons g gs ih =>
    have hg : 0 < g.length := List.length_pos_iff.mpr (h g (by simp))
    have := ih fun x hx => h x (by simp [hx])
    simp only [List.flatten_cons, List.length_append, List.length_cons]
    omega

theorem mainBatches_length_le (m : Nat) : (mainBatches m).length ≤ m := by
  obtain ⟨groups, hg, hflat, hall⟩ := mainBatches_groups m
  have := length_le_flatten fun g hg => (hall g hg).1
  simpa [hg, hflat] using this

theorem mainBatches_length_mul_lt (m : Nat) : (mainBatches m).length * groupBy < m + groupBy := by
  have h := length_cut_mul_lt (n := groupBy) (by decide) (List.range' 1 m)
  rwa [List.length_range', ← List.length_map (f := batchOf), ← mainBatches_cut] at h

end DecentralizedBroadcast
