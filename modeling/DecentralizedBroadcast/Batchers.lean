import DecentralizedBroadcast.OutputText

/-! The batching that `Broadcast::concatMessages` does over a whole list, beside the
one that main does as it counts: they cut alike, and `deconcatMessages` undoes both. -/
set_option autoImplicit false

namespace DecentralizedBroadcast
open Groups

structure ConcatState where
  messagesConcat : List Str
  groupNum : Nat
  msgNum : Nat
  messageConcatenated : Str

/-- One round of the loop. `remainder` is below 15, so its `%02lu` has two digits. -/
def concatRound (numConcat remainder : Nat) (st : ConcatState) (message : Str) : ConcatState :=
  if st.groupNum < numConcat then
    let text :=
      if st.msgNum = groupBy - 1 then st.messageConcatenated ++ message
      else st.messageConcatenated ++ (message ++ ['s'])
    let msgNum := st.msgNum + 1
    if msgNum = groupBy then
      { messagesConcat := st.messagesConcat ++ [text]
        groupNum := st.groupNum + 1
        msgNum := 0
        messageConcatenated := decimal groupBy }
    else { st with msgNum := msgNum, messageConcatenated := text }
  else if st.groupNum = numConcat ∧ 0 < remainder then
    let front :=
      if st.msgNum = 0 then zeroPad 2 (decimal remainder) else st.messageConcatenated
    if st.msgNum = remainder - 1 then
      { st with
        messagesConcat := st.messagesConcat ++ [front ++ message]
        msgNum := st.msgNum + 1
        messageConcatenated := front ++ message }
    else
      { st with msgNum := st.msgNum + 1, messageConcatenated := front ++ (message ++ ['s']) }
  else st

def concatMessages (messagesToBroadcast : List Str) : List Str :=
  let numConcat := messagesToBroadcast.length / groupBy
  let remainder := messagesToBroadcast.length % groupBy
  let start : ConcatState :=
    { messagesConcat := [], groupNum := 0, msgNum := 0, messageConcatenated := decimal groupBy }
  (messagesToBroadcast.foldl (concatRound numConcat remainder) start).messagesConcat

theorem concat_full {numConcat remainder g k : Nat} (hg : g < numConcat) {acc : List Str}
    {text : Str} {ts : List Str} (hne : ts ≠ []) (hk : k + ts.length = groupBy) :
    ts.foldl (concatRound numConcat remainder) ⟨acc, g, k, text⟩ =
      ⟨acc ++ [text ++ ['s'].intercalate ts], g + 1, 0, decimal groupBy⟩ := by
  induction ts generalizing k text with
  | nil => exact absurd rfl hne
  | cons t ts ih =>
    rw [List.length_cons] at hk
    rw [List.foldl_cons, intercalate_cons]
    by_cases hts : ts = []
    · subst hts
      rw [List.length_nil] at hk
      have hlast : k = groupBy - 1 := by omega
      simp [concatRound, hg, hlast, show groupBy - 1 + 1 = groupBy from rfl]
    · have hpos := List.length_pos_iff.mpr hts
      have hlast : ¬ k = groupBy - 1 := by omega
      have hfull : ¬ k + 1 = groupBy := by omega
      have hround : concatRound numConcat remainder ⟨acc, g, k, text⟩ t =
          ⟨acc, g, k + 1, text ++ (t ++ ['s'])⟩ := by
        simp [concatRound, hg, hlast, hfull]
      rw [hround, ih hts (by omega), if_neg hts]
      simp

/-- The rounds over the last messages, too few for a group; `k` of them are in it. -/
theorem concat_last {numConcat remainder k : Nat} {acc : List Str} {text : Str} {ts : List Str}
    (hne : ts ≠ []) (hk : k + ts.length = remainder) :
    (ts.foldl (concatRound numConcat remainder) ⟨acc, numConcat, k, text⟩).messagesConcat =
      acc ++ [(if k = 0 then zeroPad 2 (decimal remainder) else text) ++ ['s'].intercalate ts] := by
  induction ts generalizing k text with
  | nil => exact absurd rfl hne
  | cons t ts ih =>
    rw [List.length_cons] at hk
    have hpos : 0 < remainder := by omega
    rw [List.foldl_cons, intercalate_cons]
    by_cases hts : ts = []
    · subst hts
      rw [List.length_nil] at hk
      have hlast : k = remainder - 1 := by omega
      simp [concatRound, hpos, hlast]
    · have htspos := List.length_pos_iff.mpr hts
      have hlast : ¬ k = remainder - 1 := by omega
      have hround : concatRound numConcat remainder ⟨acc, numConcat, k, text⟩ t =
          ⟨acc, numConcat, k + 1,
            (if k = 0 then zeroPad 2 (decimal remainder) else text) ++ (t ++ ['s'])⟩ := by
        simp [concatRound, hpos, hlast]
      rw [hround, ih hts (by omega), if_neg hts]
      simp

/-- Before each group the loop is as at its start, with that many groups done. -/
theorem concat_cut (l acc : List Str) (g : Nat) :
    (l.foldl (concatRound (g + l.length / groupBy) (l.length % groupBy))
      ⟨acc, g, 0, decimal groupBy⟩).messagesConcat = acc ++ (cut groupBy l).map batchText := by
  have hpos : 0 < groupBy := by decide
  induction l using cut_induction hpos generalizing acc g with
  | nil => simp
  | full ts l hts ih =>
    have hne : ts ≠ [] := List.ne_nil_of_length_pos (hts ▸ hpos)
    have hdiv : g + (ts ++ l).length / groupBy = g + 1 + l.length / groupBy := by
      rw [List.length_append, hts, Nat.add_div_left _ hpos]
      omega
    have hmod : (ts ++ l).length % groupBy = l.length % groupBy := by
      rw [List.length_append, hts, Nat.add_mod_left]
    have hleft : g < g + 1 + l.length / groupBy :=
      Nat.lt_of_lt_of_le (Nat.lt_succ_self g) (Nat.le_add_right _ _)
    have hheader : batchText ts = decimal groupBy ++ ['s'].intercalate ts := by
      rw [batchText, hts]
      rfl
    rw [hdiv, hmod, List.foldl_append, concat_full hleft hne (by omega), ih,
      cut_append hpos hts, ← hheader]
    simp
  | last ts hne hts =>
    have hdiv : g + ts.length / groupBy = g := by rw [Nat.div_eq_of_lt hts, Nat.add_zero]
    rw [hdiv, Nat.mod_eq_of_lt hts, concat_last hne (Nat.zero_add _),
      cut_short hne (Nat.le_of_lt hts)]
    rfl

theorem concatMessages_cut (l : List Str) :
    concatMessages l = (cut groupBy l).map batchText := by
  have h := concat_cut l [] 0
  rwa [Nat.zero_add, List.nil_append] at h

theorem mainBatches_eq_concatMessages (m : Nat) :
    mainBatches m = concatMessages ((List.range' 1 m).map decimal) := by
  rw [mainBatches_cut, concatMessages_cut, cut_map (by decide), List.map_map]
  exact List.map_congr_left fun ns _ => batchOf_eq ns

theorem mem_of_mem_cut {l ts : List Str} {t : Str} (hts : ts ∈ cut groupBy l) (ht : t ∈ ts) :
    t ∈ l := by
  rw [← flatten_cut (n := groupBy) (by decide) l]
  exact List.mem_flatten.mpr ⟨ts, hts, ht⟩

theorem deconcatMessages_batches {header : Str} (hh : EntryHeader header) {l : List Str}
    (h : ∀ t ∈ l, Uncut t) : deconcatMessages ((concatMessages l).map (header ++ ·)) =
      .ok (l.map (header ++ ·)) := by
  have hall : ∀ gs : List (List Str), (∀ ts ∈ gs, (∀ t ∈ ts, Uncut t) ∧ ts.length ≤ groupBy) →
      deconcatMessages ((gs.map batchText).map (header ++ ·)) =
        .ok (gs.flatten.map (header ++ ·)) := by
    intro gs hgs
    induction gs with
    | nil => rfl
    | cons ts gs ih =>
      have ih := ih fun x hx => hgs x (by simp [hx])
      obtain ⟨hu, hl⟩ := hgs ts (by simp)
      simp only [List.map_cons, deconcatMessages, deconcatEntry_batch hh hu hl, ih]
      simp [bind, Except.bind, pure, Except.pure]
  rw [concatMessages_cut, hall _ fun ts hts => ⟨fun t ht => h t (mem_of_mem_cut hts ht),
    (mem_cut (by decide) hts).2⟩, flatten_cut (by decide)]

theorem batchText_injective {ts ts' : List Str} (h : ∀ t ∈ ts, Uncut t)
    (hl : ts.length ≤ groupBy) (h' : ∀ t ∈ ts', Uncut t) (hl' : ts'.length ≤ groupBy)
    (he : batchText ts = batchText ts') : ts = ts' := by
  have hd := deconcatEntry_batch .sent h hl
  rw [he, deconcatEntry_batch .sent h' hl'] at hd
  have hinj : Function.Injective (['b'] ++ · : Str → Str) := fun _ _ => List.append_cancel_left
  exact (List.map_injective_iff.mpr hinj (Except.ok.inj hd)).symm

theorem concatMessages_nodup {l : List Str} (h : ∀ t ∈ l, Uncut t) (hn : l.Nodup) :
    (concatMessages l).Nodup := by
  have hu : ∀ ts ∈ cut groupBy l, (∀ t ∈ ts, Uncut t) ∧ ts.length ≤ groupBy := fun ts hts =>
    ⟨fun t ht => h t (mem_of_mem_cut hts ht), (mem_cut (by decide) hts).2⟩
  rw [concatMessages_cut]
  refine List.Nodup.map_on (fun ts hts ts' hts' he => ?_) (nodup_cut (by decide) hn)
  exact batchText_injective (hu ts hts).1 (hu ts hts).2 (hu ts' hts').1 (hu ts' hts').2 he

theorem uncut_numbers (m : Nat) : ∀ t ∈ (List.range' 1 m).map decimal, Uncut t := by
  intro t ht
  obtain ⟨n, -, rfl⟩ := List.mem_map.mp ht
  exact uncut_decimal n

theorem mainBatches_nodup (m : Nat) : (mainBatches m).Nodup := by
  rw [mainBatches_eq_concatMessages]
  exact concatMessages_nodup (uncut_numbers m)
    (List.Nodup.map (fun _ _ => decimal_injective) List.nodup_range')

theorem log_of_batches (header : Str) (m : Nat) :
    ((mainBatches m).map (header ++ ·)).foldl addMessageLog [] =
      (mainBatches m).map (header ++ ·) := by
  have hinj : Function.Injective (header ++ · : Str → Str) := fun _ _ => List.append_cancel_left
  exact foldl_addMessageLog (List.Nodup.map hinj (mainBatches_nodup m))

/-- The two batchers agree, and `deconcatMessages` undoes both in a log: behind a b, and
behind a d, any three digits and the zero target. -/
theorem batchers_agree (m : Nat) :
    mainBatches m = concatMessages ((List.range' 1 m).map decimal) ∧
    deconcatMessages (((mainBatches m).map (['b'] ++ ·)).foldl addMessageLog []) =
      .ok ((List.range' 1 m).map fun i => ['b'] ++ decimal i) ∧
    ∀ id : Str, id.length = 3 → (∀ c ∈ id, c.isDigit = true) →
      deconcatMessages (((mainBatches m).map (('d' :: (id ++ ['0', '0', '0'])) ++ ·)).foldl
        addMessageLog []) =
        .ok ((List.range' 1 m).map fun i => ('d' :: (id ++ ['0', '0', '0'])) ++ decimal i) := by
  refine ⟨mainBatches_eq_concatMessages m, ?_, fun id hid _ => ?_⟩
  · have h := deconcatMessages_batches .sent (uncut_numbers m)
    rw [← mainBatches_eq_concatMessages, List.map_map] at h
    rw [log_of_batches]
    exact h
  · have h := deconcatMessages_batches (.delivered hid) (uncut_numbers m)
    rw [← mainBatches_eq_concatMessages, List.map_map] at h
    rw [log_of_batches]
    exact h

theorem batchers_agree_sixteen :
    deconcatMessages (((mainBatches 16).map
      (('d' :: (['0', '0', '7'] ++ ['0', '0', '0'])) ++ ·)).foldl addMessageLog []) =
      .ok ((List.range' 1 16).map fun i =>
        ('d' :: (['0', '0', '7'] ++ ['0', '0', '0'])) ++ decimal i) :=
  (batchers_agree 16).2.2 ['0', '0', '7'] rfl (by simp)

end DecentralizedBroadcast
