import DecentralizedBroadcast.Batchers

/-! When a log says all that went into it. `deconcatMessages` puts no character in, so what is
cut short, dropped or split in an entry does not come back. -/
set_option autoImplicit false

namespace DecentralizedBroadcast
open Groups

def textSize (out : List Str) : Nat := (out.map (·.length + 1)).sum

theorem msgEnd_spec {messages : Str} {start : Nat} (h : start ≤ messages.length) :
    start ≤ (find messages 's' (start + 1)).getD messages.length ∧
    's' ∉ (messages.drop (start + 1)).take
      ((find messages 's' (start + 1)).getD messages.length - start - 1) := by
  cases hf : find messages 's' (start + 1) with
  | none =>
    rw [Option.getD_none]
    exact ⟨h, fun hin => notMem_of_find_none hf (List.mem_of_mem_take hin)⟩
  | some i =>
    obtain ⟨hle, -, hnot⟩ := find_eq_some hf
    rw [Option.getD_some]
    exact ⟨by omega, by rwa [Nat.sub_sub]⟩

/-- What the loop takes out lies one after the other in the text, with a letter between, and no
message shows that letter behind its first character. -/
theorem deconcatLoop_pieces {header messages : Str} {n start : Nat} {out : List Str}
    (h : deconcatLoop header messages n start = .ok out) :
    (0 < n → textSize out + start ≤ n * header.length + messages.length + 1) ∧
    ∀ x ∈ out, ∃ t, x = header ++ t ∧ 's' ∉ t.tail := by
  induction n generalizing start out with
  | zero =>
    obtain rfl := Except.ok.inj h
    simp
  | succ n ih =>
    simp only [deconcatLoop, bind_eq_ok, substr_eq_ok] at h
    obtain ⟨text, ⟨hstart, rfl⟩, rest, hrest, h⟩ := h
    obtain rfl := Except.ok.inj h
    obtain ⟨hle, hnot⟩ := msgEnd_spec hstart
    set stop := (find messages 's' (start + 1)).getD messages.length with hstop
    obtain ⟨hsize, hpieces⟩ := ih hrest
    refine ⟨fun _ => ?_, fun x hx => ?_⟩
    -- the last message ends the text at the latest; before that each end is a letter further on
    · rw [textSize, List.map_cons, List.sum_cons, ← textSize]
      simp only [List.length_append, List.length_take, List.length_drop, Nat.succ_mul]
      by_cases h0 : n = 0
      · subst h0
        obtain rfl := Except.ok.inj hrest
        simp only [textSize, List.map_nil, List.sum_nil]
        omega
      · have := hsize (Nat.pos_of_ne_zero h0)
        omega
    · rcases List.mem_cons.mp hx with rfl | hx
      · refine ⟨_, rfl, ?_⟩
        rwa [← List.drop_one, List.drop_take, List.drop_drop]
      · exact hpieces x hx

section Log
variable {header : Str} (hh : EntryHeader header) (body : List Str → Str)
include hh

/-- The entry of a group, if `body` is what the log has of its messages. -/
def entryOf (header : Str) (body : List Str → Str) (g : List Str) : Str :=
  header ++ (zeroPad 2 (decimal g.length) ++ body g)

theorem deconcatMessages_pieces {gs : List (List Str)} (hgs : ∀ g ∈ gs, g ≠ [] ∧ g.length ≤ groupBy)
    {out : List Str} (h : deconcatMessages (gs.map (entryOf header body)) = .ok out) :
    textSize out ≤ (gs.map fun g => g.length * header.length + (body g).length + 1).sum ∧
    ∀ x ∈ out, ∃ t, x = header ++ t ∧ 's' ∉ t.tail := by
  induction gs generalizing out with
  | nil =>
    obtain rfl := Except.ok.inj h
    simp [textSize]
  | cons g gs ih =>
    obtain ⟨hne, hlen⟩ := hgs g (by simp)
    simp only [List.map_cons, deconcatMessages, entryOf, deconcatEntry_eq hh hlen, bind_eq_ok] at h
    obtain ⟨a, ha, b, hb, h⟩ := h
    obtain rfl := Except.ok.inj h
    obtain ⟨hsize, hpieces⟩ := deconcatLoop_pieces ha
    obtain ⟨hsizes, hrest⟩ := ih (fun x hx => hgs x (by simp [hx])) hb
    have := hsize (List.length_pos_iff.mpr hne)
    refine ⟨?_, fun x hx => (List.mem_append.mp hx).elim (hpieces x) (hrest x)⟩
    rw [textSize, List.map_append, List.sum_append, List.map_cons, List.sum_cons, ← textSize,
      ← textSize]
    omega

end Log

theorem sum_le_of_sublist {α : Type*} {f g : α → Nat} {l l' : List α} (h : l'.Sublist l)
    (hle : ∀ a ∈ l, f a ≤ g a) : (l'.map f).sum ≤ (l.map g).sum := by
  induction h with
  | slnil => simp
  | cons a _ ih =>
    have := ih fun x hx => hle x (by simp [hx])
    rw [List.map_cons, List.sum_cons]
    omega
  | cons_cons a _ ih =>
    have := ih fun x hx => hle x (by simp [hx])
    have := hle a (by simp)
    simp only [List.map_cons, List.sum_cons]
    omega

/-- What weighs as much as the whole is the whole, and each of its parts weighs as much. -/
theorem eq_of_sublist_sum {α : Type*} {f g : α → Nat} {l l' : List α} (h : l'.Sublist l)
    (hle : ∀ a ∈ l, f a ≤ g a) (hpos : ∀ a ∈ l, 0 < g a)
    (hsum : (l.map g).sum ≤ (l'.map f).sum) : l' = l ∧ ∀ a ∈ l, f a = g a := by
  induction h with
  | slnil => simp
  | cons a hs _ =>
    have hrest := sum_le_of_sublist hs fun x hx => hle x (by simp [hx])
    have ha := hpos a (by simp)
    rw [List.map_cons, List.sum_cons] at hsum
    omega
  | cons_cons a hs ih =>
    have hrest := sum_le_of_sublist hs fun x hx => hle x (by simp [hx])
    have ha := hle a (by simp)
    simp only [List.map_cons, List.sum_cons] at hsum
    obtain ⟨rfl, hall⟩ := ih (fun x hx => hle x (by simp [hx])) (fun x hx => hpos x (by simp [hx]))
      (by omega)
    refine ⟨rfl, fun x hx => ?_⟩
    rcases List.mem_cons.mp hx with rfl | hx
    · omega
    · exact hall x hx

theorem textSize_group (header : Str) {g : List Str} (hne : g ≠ []) :
    textSize (g.map (header ++ ·)) =
      g.length * header.length + (['s'].intercalate g).length + 1 := by
  induction g with
  | nil => exact absurd rfl hne
  | cons t g ih =>
    rw [intercalate_cons, textSize, List.map_cons, List.map_cons, List.sum_cons, ← textSize]
    by_cases hg : g = []
    · subst hg
      simp [textSize]
    · rw [if_neg hg, ih hg]
      simp only [List.length_append, List.length_cons, Nat.succ_mul]
      omega

theorem textSize_flatten (header : Str) {gs : List (List Str)} (hgs : ∀ g ∈ gs, g ≠ []) :
    textSize (gs.flatten.map (header ++ ·)) =
      (gs.map fun g => g.length * header.length + (['s'].intercalate g).length + 1).sum := by
  induction gs with
  | nil => rfl
  | cons g gs ih =>
    have hg := textSize_group header (hgs g (by simp))
    have hrest := ih fun x hx => hgs x (by simp [hx])
    rw [List.flatten_cons, List.map_append, textSize, List.map_append, List.sum_append, ← textSize,
      ← textSize, hg, hrest, List.map_cons, List.sum_cons]

/-- A log gives back all messages of its entries only if no entry was dropped or cut short, and
no message shows the separator. -/
theorem log_exact {header : Str} (hh : EntryHeader header) {body : List Str → Str}
    {gs : List (List Str)} (hgs : ∀ g ∈ gs, g ≠ [] ∧ g.length ≤ groupBy)
    (hbody : ∀ g ∈ gs, (body g).length ≤ (['s'].intercalate g).length)
    (h : deconcatMessages ((gs.map (entryOf header body)).foldl addMessageLog []) =
      .ok (gs.flatten.map (header ++ ·))) :
    (gs.map (entryOf header body)).Nodup ∧
    (∀ g ∈ gs, (body g).length = (['s'].intercalate g).length) ∧
    ∀ t ∈ gs.flatten, 's' ∉ t.tail := by
  obtain ⟨hsub, hnodup⟩ := foldl_addMessageLog_sublist (gs.map (entryOf header body))
  obtain ⟨gs', hsub', hlog⟩ := List.sublist_map_iff.mp hsub
  rw [hlog] at h hnodup
  obtain ⟨hsize, hpieces⟩ :=
    deconcatMessages_pieces hh body (fun g hg => hgs g (hsub'.subset hg)) h
  rw [textSize_flatten header fun g hg => (hgs g hg).1] at hsize
  obtain ⟨rfl, hall⟩ := eq_of_sublist_sum hsub' (fun g hg => by have := hbody g hg; omega)
    (fun g _ => Nat.succ_pos _) hsize
  refine ⟨hnodup, fun g hg => by have := hall g hg; omega, fun t ht => ?_⟩
  obtain ⟨t', he, hs⟩ := hpieces _ (List.mem_map_of_mem ht)
  obtain rfl := List.append_cancel_left he
  exact hs

end DecentralizedBroadcast
