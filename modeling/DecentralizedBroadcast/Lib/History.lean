import Mathlib.Data.List.Induction
import Mathlib.Data.List.Nodup

/-! Histories: lists of events, oldest first. `Sound ok` says that every event
was justified by the events before it; appending a justified event keeps it. -/
set_option autoImplicit false

namespace History
variable {ε : Type*}

def Sound (ok : List ε → ε → Prop) (h : List ε) : Prop :=
  ∀ past e rest, h = past ++ e :: rest → ok past e

theorem sound_nil (ok : List ε → ε → Prop) : Sound ok [] := by
  intro past e rest h
  simp at h

theorem sound_snoc {ok : List ε → ε → Prop} {h : List ε} {e : ε} :
    Sound ok (h ++ [e]) ↔ Sound ok h ∧ ok h e := by
  constructor
  · intro hs
    refine ⟨fun past x rest hx => hs past x (rest ++ [e]) (by simp [hx]), hs h e [] rfl⟩
  · rintro ⟨hs, he⟩ past x rest hx
    rcases List.eq_nil_or_concat rest with rfl | ⟨rest, y, rfl⟩
    · obtain ⟨hpast, hlast⟩ := List.append_inj' hx rfl
      obtain rfl := List.singleton_inj.mp hlast
      exact hpast ▸ he
    · rw [List.concat_eq_append, ← List.cons_append, ← List.append_assoc] at hx
      exact hs past x rest (List.append_inj' hx rfl).1

theorem Sound.past {ok : List ε → ε → Prop} {past rest : List ε}
    (h : Sound ok (past ++ rest)) : Sound ok past := by
  intro p e r hp
  exact h p e (r ++ rest) (by simp [hp])

theorem Sound.of_mem {ok : List ε → ε → Prop} {h : List ε} {e : ε} (hs : Sound ok h)
    (he : e ∈ h) : ∃ past rest, h = past ++ e :: rest ∧ ok past e := by
  obtain ⟨past, rest, rfl⟩ := List.append_of_mem he
  exact ⟨past, rest, rfl, hs past e rest rfl⟩

theorem Sound.imp {ok ok' : List ε → ε → Prop} {h : List ε} (hs : Sound ok h)
    (weaker : ∀ past e, ok past e → ok' past e) : Sound ok' h :=
  fun past e rest hx => weaker past e (hs past e rest hx)

theorem Sound.nodup {h : List ε} (hs : Sound (fun past e => e ∉ past) h) : h.Nodup := by
  induction h using List.reverseRecOn with
  | nil => exact List.nodup_nil
  | append_singleton h e ih =>
    obtain ⟨hs, he⟩ := sound_snoc.mp hs
    rw [← List.concat_eq_append]
    exact (ih hs).concat he

end History
