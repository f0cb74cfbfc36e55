import DecentralizedBroadcast.Lib.History
import Mathlib.Data.List.Induction
import Mathlib.Data.List.Perm.Subperm
import Mathlib.Logic.Relation
import Mathlib.Data.Set.Defs

/-! Delivery by counters. A message carries, for every process, how many messages
of that process must have been delivered before it; the entry for its own origin
is its number. A receiver only counts what it delivers. -/
set_option autoImplicit false

namespace ClockedDelivery
variable {P M : Type*} [DecidableEq P] (origin : M → P) (need : M → P → ℕ)

def deliveriesFrom (ds : List M) (z : P) : List M := ds.filter (origin · = z)

def count (ds : List M) (z : P) : ℕ := (deliveriesFrom origin ds z).length

def number (m : M) : ℕ := need m (origin m)

def Ready (ds : List M) (m : M) : Prop := ∀ z, need m z ≤ count origin ds z

/-- Every message was new and ready when it was delivered. -/
def Orderly (ds : List M) : Prop :=
  History.Sound (fun past m => m ∉ past ∧ Ready origin need past m) ds

@[simp] theorem deliveriesFrom_nil (z : P) : deliveriesFrom origin [] z = [] := rfl

theorem deliveriesFrom_snoc (ds : List M) (m : M) (z : P) :
    deliveriesFrom origin (ds ++ [m]) z =
      deliveriesFrom origin ds z ++ if origin m = z then [m] else [] := by
  by_cases h : origin m = z <;> simp [deliveriesFrom, h]

theorem count_snoc (ds : List M) (m : M) (z : P) :
    count origin (ds ++ [m]) z = count origin ds z + if origin m = z then 1 else 0 := by
  by_cases h : origin m = z <;> simp [count, deliveriesFrom_snoc, h]

theorem count_append (ds ds' : List M) (z : P) :
    count origin (ds ++ ds') z = count origin ds z + count origin ds' z := by
  simp [count, deliveriesFrom]

variable {origin} in
theorem count_of_all {ds : List M} {z : P} (h : ∀ m ∈ ds, origin m = z) :
    count origin ds z = ds.length := by
  rw [count, deliveriesFrom, List.filter_eq_self.mpr fun m hm => by simpa using h m hm]

variable {origin} in
theorem mem_deliveriesFrom {ds : List M} {m : M} {z : P} :
    m ∈ deliveriesFrom origin ds z ↔ m ∈ ds ∧ origin m = z := by
  simp [deliveriesFrom]

variable {origin} in
/-- The past of a delivery has as many of its origin as come before it there. -/
theorem past_of_getElem? {ds : List M} {z : P} {i : ℕ} {m : M}
    (h : (deliveriesFrom origin ds z)[i]? = some m) :
    origin m = z ∧ ∃ past rest, ds = past ++ m :: rest ∧ count origin past z = i := by
  obtain ⟨hlt, hget⟩ := List.getElem?_eq_some_iff.mp h
  have hsplit : deliveriesFrom origin ds z = (deliveriesFrom origin ds z).take i ++
      m :: (deliveriesFrom origin ds z).drop (i + 1) := by
    rw [← hget, ← List.drop_eq_getElem_cons hlt, List.take_append_drop]
  obtain ⟨a, b, hab, ha, hb⟩ := List.filter_eq_append_iff.mp hsplit
  obtain ⟨skip, rest, rfl, hskip, hm, -⟩ := List.filter_eq_cons_iff.mp hb
  have hnone : deliveriesFrom origin skip z = [] := List.filter_eq_nil_iff.mpr hskip
  refine ⟨by simpa using hm, a ++ skip, rest, by simp [hab], ?_⟩
  rw [count_append, count, count, hnone, deliveriesFrom, ha, List.length_take]
  simp only [List.length_nil]
  omega

theorem count_le_of_subset {ds ds' : List M} (hnd : ds.Nodup) (hs : ds ⊆ ds') (z : P) :
    count origin ds z ≤ count origin ds' z :=
  ((hnd.subperm hs).filter _).length_le

variable {origin need} in
theorem Orderly.nodup {ds : List M} (h : Orderly origin need ds) : ds.Nodup :=
  (h.imp fun _ _ hm => hm.1).nodup

variable {origin need} in
/-- A receiver that is stuck has delivered all that any other could have. -/
theorem Orderly.subset_of_stuck {ds ds' : List M} (h : Orderly origin need ds) {received : Set M}
    (hr : ∀ m ∈ ds, m ∈ received)
    (stuck : ∀ m ∈ received, m ∉ ds' → ¬ Ready origin need ds' m) : ds ⊆ ds' := by
  induction ds using List.reverseRecOn with
  | nil => exact List.nil_subset ds'
  | append_singleton ds m ih =>
    obtain ⟨hds, -, hready⟩ := History.sound_snoc.mp h
    have hsub := ih hds fun x hx => hr x (by simp [hx])
    have hready' : Ready origin need ds' m := fun z =>
      Nat.le_trans (hready z) (count_le_of_subset origin (Orderly.nodup hds) hsub z)
    have hm : m ∈ ds' := by
      by_contra hnot
      exact stuck m (hr m (by simp)) hnot hready'
    intro x hx
    rcases List.mem_append.mp hx with hx | hx
    · exact hsub hx
    · exact List.mem_singleton.mp hx ▸ hm

variable {origin need} in
/-- Two receivers of the same messages that are both stuck delivered the same ones. -/
theorem Orderly.perm_of_stuck {ds ds' : List M} (h : Orderly origin need ds)
    (h' : Orderly origin need ds') {received : Set M} (hr : ∀ m ∈ ds, m ∈ received)
    (hr' : ∀ m ∈ ds', m ∈ received)
    (stuck : ∀ m ∈ received, m ∉ ds → ¬ Ready origin need ds m)
    (stuck' : ∀ m ∈ received, m ∉ ds' → ¬ Ready origin need ds' m) : ds.Perm ds' := by
  refine (List.perm_ext_iff_of_nodup h.nodup h'.nodup).mpr fun m => ?_
  exact ⟨fun hm => h.subset_of_stuck hr stuck' hm, fun hm => h'.subset_of_stuck hr' stuck hm⟩

section Numbered

/-! Throughout, `known` holds the messages that exist, and a message among them
is determined by its origin and its number. -/

variable {origin need} {known : Set M}
  (unique : ∀ m ∈ known, ∀ m' ∈ known, origin m = origin m' →
    number origin need m = number origin need m' → m = m')
include unique

/-- The messages of one origin are delivered as number 0, 1, 2, ... without a gap. -/
theorem Orderly.numbers {ds : List M} (h : Orderly origin need ds)
    (hk : ∀ m ∈ ds, m ∈ known) (z : P) :
    (deliveriesFrom origin ds z).map (number origin need) = List.range (count origin ds z) := by
  induction ds using List.reverseRecOn with
  | nil => rfl
  | append_singleton ds m ih =>
    obtain ⟨hds, hnew, hready⟩ := History.sound_snoc.mp h
    have ih := ih hds fun x hx => hk x (by simp [hx])
    by_cases hz : origin m = z
    · have hle : number origin need m ≤ count origin ds z := by
        simpa [number, hz] using hready z
      have hge : ¬ number origin need m < count origin ds z := by
        intro hlt
        rw [← List.mem_range, ← ih] at hlt
        obtain ⟨m', hm', he⟩ := List.mem_map.mp hlt
        obtain ⟨hin, hz'⟩ := mem_deliveriesFrom.mp hm'
        have := unique m' (hk m' (by simp [hin])) m (hk m (by simp)) (hz'.trans hz.symm) he
        exact hnew (this ▸ hin)
      have heq : number origin need m = count origin ds z := by omega
      simp [deliveriesFrom_snoc, count_snoc, hz, ih, heq, List.range_succ]
    · simp [deliveriesFrom_snoc, count_snoc, hz, ih]

theorem Orderly.mem_iff {ds : List M} (h : Orderly origin need ds)
    (hk : ∀ m ∈ ds, m ∈ known) {m : M} (hm : m ∈ known) :
    m ∈ ds ↔ number origin need m < count origin ds (origin m) := by
  have hn := h.numbers unique hk (origin m)
  constructor
  · intro hin
    rw [← List.mem_range, ← hn]
    exact List.mem_map_of_mem (mem_deliveriesFrom.mpr ⟨hin, rfl⟩)
  · intro hlt
    rw [← List.mem_range, ← hn] at hlt
    obtain ⟨m', hm', he⟩ := List.mem_map.mp hlt
    obtain ⟨hin, ho⟩ := mem_deliveriesFrom.mp hm'
    exact unique m' (hk m' hin) m hm ho he ▸ hin

/-- If clocks cover the direct past, deliveries respect its transitive closure. -/
theorem Orderly.causal {direct : M → M → Prop}
    (covers : ∀ m' m, direct m' m → m' ∈ known ∧ number origin need m' < need m (origin m'))
    {ds : List M} (h : Orderly origin need ds) (hk : ∀ m ∈ ds, m ∈ known)
    {m' m : M} (hpast : Relation.TransGen direct m' m) {before after : List M}
    (hds : ds = before ++ m :: after) : m' ∈ before := by
  have one : ∀ a b : M, direct a b → ∀ before after, ds = before ++ b :: after → a ∈ before := by
    intro a b hab before after hds
    obtain ⟨ha, hlt⟩ := covers a b hab
    have hready := (h before b after hds).2 (origin a)
    have hbefore : Orderly origin need before := by
      rw [hds] at h
      exact h.past
    have hkb : ∀ x ∈ before, x ∈ known := fun x hx => hk x (by simp [hds, hx])
    exact (hbefore.mem_iff unique hkb ha).mpr (by omega)
  induction hpast generalizing before after with
  | single hd => exact one _ _ hd before after hds
  | @tail b c _ hd ih =>
    obtain ⟨b₁, b₂, rfl⟩ := List.append_of_mem (one b c hd before after hds)
    have hin : m' ∈ b₁ := @ih b₁ (b₂ ++ c :: after) (by simp [hds])
    simp [hin]

/-- If no waiting message is ready, each of them waits, perhaps through others, for a
message that has not been received. -/
theorem Orderly.blocked {direct : M → M → Prop} (wf : WellFounded direct)
    (complete : ∀ m ∈ known, ∀ z k, k < need m z →
      ∃ m' ∈ known, direct m' m ∧ origin m' = z ∧ number origin need m' = k)
    {ds : List M} (h : Orderly origin need ds) (hk : ∀ m ∈ ds, m ∈ known)
    {received : Set M} (stuck : ∀ m ∈ received, m ∉ ds → ¬ Ready origin need ds m)
    {m : M} (hm : m ∈ known) (hrec : m ∈ received) (hnot : m ∉ ds) :
    ∃ m', Relation.TransGen direct m' m ∧ m' ∉ received := by
  induction m using wf.induction with
  | _ m ih =>
    obtain ⟨z, hz⟩ := not_forall.mp (stuck m hrec hnot)
    obtain ⟨m', hm', hd, ho, hn⟩ := complete m hm z (count origin ds z) (by omega)
    have hnot' : m' ∉ ds := by
      rw [h.mem_iff unique hk hm', ho, hn]
      omega
    by_cases hrec' : m' ∈ received
    · obtain ⟨x, hx, hxr⟩ := ih m' hd hm' hrec' hnot'
      exact ⟨x, hx.tail hd, hxr⟩
    · exact ⟨m', .single hd, hrec'⟩

end Numbered
end ClockedDelivery
