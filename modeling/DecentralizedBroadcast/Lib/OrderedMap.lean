import Mathlib.Order.Lattice
import Mathlib.Data.List.Lex
import Mathlib.Data.List.Induction

/-! Maps kept as lists in strictly increasing key order, so that walking the
entries is walking the keys in order and no key can occur twice. -/
set_option autoImplicit false

structure OrderedMap (κ α : Type*) [LinearOrder κ] where
  entries : List (κ × α)
  increasing : entries.Pairwise (fun a b => a.1 < b.1)

namespace OrderedMap
variable {κ α : Type*} [LinearOrder κ]

def empty : OrderedMap κ α := ⟨[], List.Pairwise.nil⟩

def insertEntry (k : κ) (v : α) : List (κ × α) → List (κ × α)
  | [] => [(k, v)]
  | (k', v') :: rest =>
      if k < k' then (k, v) :: (k', v') :: rest
      else if k = k' then (k, v) :: rest
      else (k', v') :: insertEntry k v rest

theorem mem_insertEntry {k : κ} {v : α} {es : List (κ × α)}
    (h : es.Pairwise (fun a b => a.1 < b.1)) {e : κ × α} :
    e ∈ insertEntry k v es ↔ e = (k, v) ∨ e ∈ es ∧ e.1 ≠ k := by
  induction es with
  | nil => simp [insertEntry]
  | cons a rest ih =>
    obtain ⟨k', v'⟩ := a
    obtain ⟨hhead, hrest⟩ := List.pairwise_cons.mp h
    unfold insertEntry
    split
    · rename_i hlt
      have hne : ∀ e ∈ (k', v') :: rest, e.1 ≠ k := by
        intro e he
        rcases List.mem_cons.mp he with rfl | he
        · exact ne_of_gt hlt
        · exact ne_of_gt (lt_trans hlt (hhead e he))
      grind
    · rename_i hlt
      split
      · rename_i heq
        have hne : ∀ e ∈ rest, e.1 ≠ k := fun e he => heq ▸ ne_of_gt (hhead e he)
        grind
      · grind

theorem insertEntry_increasing (k : κ) (v : α) {es : List (κ × α)}
    (h : es.Pairwise (fun a b => a.1 < b.1)) :
    (insertEntry k v es).Pairwise (fun a b => a.1 < b.1) := by
  induction es with
  | nil => simp [insertEntry]
  | cons a rest ih =>
    obtain ⟨k', v'⟩ := a
    obtain ⟨hhead, hrest⟩ := List.pairwise_cons.mp h
    unfold insertEntry
    split
    · rename_i hlt
      refine List.pairwise_cons.mpr ⟨fun b hb => ?_, h⟩
      rcases List.mem_cons.mp hb with rfl | hb
      · exact hlt
      · exact lt_trans hlt (hhead b hb)
    · rename_i hlt
      split
      · rename_i heq
        exact List.pairwise_cons.mpr ⟨fun b hb => heq ▸ hhead b hb, hrest⟩
      · rename_i hne
        refine List.pairwise_cons.mpr ⟨fun b hb => ?_, ih hrest⟩
        rcases (mem_insertEntry hrest).mp hb with rfl | ⟨hb, _⟩
        · exact lt_of_le_of_ne (not_lt.mp hlt) (Ne.symm hne)
        · exact hhead b hb

/-- Assignment through the index operator: a new entry, or a new value for an old one. -/
def insert (m : OrderedMap κ α) (k : κ) (v : α) : OrderedMap κ α :=
  ⟨insertEntry k v m.entries, insertEntry_increasing k v m.increasing⟩

def find? (m : OrderedMap κ α) (k : κ) : Option α := m.entries.lookup k

def erase (m : OrderedMap κ α) (k : κ) : OrderedMap κ α :=
  ⟨m.entries.filter (fun e => e.1 ≠ k), m.increasing.sublist List.filter_sublist⟩

@[simp] theorem entries_empty : (empty : OrderedMap κ α).entries = [] := rfl

theorem mem_insert {m : OrderedMap κ α} {k : κ} {v : α} {e : κ × α} :
    e ∈ (m.insert k v).entries ↔ e = (k, v) ∨ e ∈ m.entries ∧ e.1 ≠ k :=
  mem_insertEntry m.increasing

theorem mem_erase {m : OrderedMap κ α} {k : κ} {e : κ × α} :
    e ∈ (m.erase k).entries ↔ e ∈ m.entries ∧ e.1 ≠ k := by
  simp [erase]

theorem find?_eq_some {m : OrderedMap κ α} {k : κ} {v : α} :
    m.find? k = some v ↔ (k, v) ∈ m.entries := by
  obtain ⟨es, h⟩ := m
  simp only [find?]
  induction es with
  | nil => simp
  | cons a rest ih =>
    obtain ⟨k', v'⟩ := a
    obtain ⟨hhead, hrest⟩ := List.pairwise_cons.mp h
    by_cases hk : k = k'
    · subst hk
      have hne : (k, v) ∉ rest := fun hin => lt_irrefl k (hhead _ hin)
      simp [hne, eq_comm]
    · have hb : (k == k') = false := by simpa using hk
      simp [List.lookup_cons, hb, ih hrest, hk]

theorem find?_eq_none {m : OrderedMap κ α} {k : κ} :
    m.find? k = none ↔ ∀ e ∈ m.entries, e.1 ≠ k := by
  constructor
  · intro h e he hk
    have := find?_eq_some.mpr (show (k, e.2) ∈ m.entries from hk ▸ he)
    rw [h] at this
    cases this
  · intro h
    cases hf : m.find? k with
    | none => rfl
    | some v => exact absurd rfl (h _ (find?_eq_some.mp hf))

theorem find?_insert (m : OrderedMap κ α) (k k' : κ) (v : α) :
    (m.insert k v).find? k' = if k' = k then some v else m.find? k' := by
  by_cases hk : k' = k
  · subst hk
    rw [if_pos rfl, find?_eq_some, mem_insert]
    exact .inl rfl
  · rw [if_neg hk]
    cases hf : m.find? k' with
    | none =>
      rw [find?_eq_none] at hf ⊢
      intro e he
      rcases mem_insert.mp he with rfl | ⟨he, _⟩
      · exact fun h => hk h.symm
      · exact hf e he
    | some w =>
      rw [find?_eq_some] at hf ⊢
      exact mem_insert.mpr (.inr ⟨hf, hk⟩)

/-- Assignments made one after the other; a later one replaces an earlier one of its key. -/
def ofEntries (es : List (κ × α)) : OrderedMap κ α :=
  es.foldl (fun m e => m.insert e.1 e.2) empty

theorem ofEntries_snoc (es : List (κ × α)) (k : κ) (v : α) :
    ofEntries (es ++ [(k, v)]) = (ofEntries es).insert k v := by
  simp [ofEntries]

theorem find?_ofEntries_map (f : κ → α) (ks : List κ) (k : κ) :
    (ofEntries (ks.map fun x => (x, f x))).find? k = if k ∈ ks then some (f k) else none := by
  induction ks using List.reverseRecOn with
  | nil => rfl
  | append_singleton ks x ih =>
    rw [List.map_append, List.map_singleton, ofEntries_snoc, find?_insert, ih]
    by_cases hx : k = x
    · simp [hx]
    · simp [hx]

theorem ext_mem {m m' : OrderedMap κ α} (h : ∀ e, e ∈ m.entries ↔ e ∈ m'.entries) : m = m' := by
  obtain ⟨es, hes⟩ := m
  obtain ⟨es', hes'⟩ := m'
  have hnd : ∀ {l : List (κ × α)}, l.Pairwise (fun a b => a.1 < b.1) → l.Nodup := by
    intro l hl
    refine List.Pairwise.imp ?_ hl
    rintro a b hlt rfl
    exact lt_irrefl _ hlt
  have hperm := (List.perm_ext_iff_of_nodup (hnd hes) (hnd hes')).mpr h
  obtain rfl := hperm.eq_of_pairwise
    (fun a b _ _ hab hba => absurd (lt_trans hab hba) (lt_irrefl _)) hes hes'
  rfl

theorem length_erase {m : OrderedMap κ α} {k : κ} {v : α} (h : (k, v) ∈ m.entries) :
    (m.erase k).entries.length + 1 = m.entries.length := by
  obtain ⟨es, hes⟩ := m
  obtain ⟨front, back, rfl⟩ := List.append_of_mem h
  obtain ⟨-, hback, hfront⟩ := List.pairwise_append.mp hes
  have hf : front.filter (fun e => e.1 ≠ k) = front :=
    List.filter_eq_self.mpr fun e he => by simpa using ne_of_lt (hfront e he (k, v) (by simp))
  have hb : back.filter (fun e => e.1 ≠ k) = back :=
    List.filter_eq_self.mpr fun e he => by
      simpa using ne_of_gt ((List.pairwise_cons.mp hback).1 e he)
  simp only [erase, List.filter_append, List.filter_cons, hf, hb]
  simp [Nat.add_assoc]

theorem nodup_keys (m : OrderedMap κ α) : (m.entries.map Prod.fst).Nodup :=
  List.pairwise_map.mpr (m.increasing.imp ne_of_lt)

end OrderedMap
