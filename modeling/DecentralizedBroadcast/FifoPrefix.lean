import DecentralizedBroadcast.Fifo

/-! FIFO delivers of every sender the messages up to the first gap, each once and in
order, whatever the order they are handed over in. -/
set_option autoImplicit false

namespace DecentralizedBroadcast

/-- Of the messages of `s` the first `k` have been delivered, all from among `done`. -/
structure DeliveredFrom (m s k : Nat) (done : List Str) (f : Fifo) : Prop where
  handed : k ≤ (fifoMessages m s).length ∧ ∀ x ∈ (fifoMessages m s).take k, x ∈ done
  next : f.next[s - 1]? = some (k + 1)
  logged : entriesOf (deliveredHeader (pad3 s)) f.processLog =
    ((concatMessages ((List.range' 1 m).map decimal)).take k).map (deliveredLog s)
  waiting : ∀ x ∈ (fifoMessages m s).drop k, x ∈ done → x ∈ f.pending

theorem fifoMessages_injective {m m' s s' i i' : Nat} (hs : s ≤ 999) (hs' : s' ≤ 999) {x : Str}
    (h : (fifoMessages m s)[i]? = some x) (h' : (fifoMessages m' s')[i']? = some x) :
    s = s' ∧ i = i' := by
  obtain ⟨b, -, rfl⟩ := fifoMessages_getElem? h
  obtain ⟨b', -, he⟩ := fifoMessages_getElem? h'
  have hn := decimal_injective (last_marker (notMem_decimal rfl) (notMem_decimal rfl) he)
  have hkey : messageKey s (b ++ 'l' :: decimal (i + 1)) =
      messageKey s' (b' ++ 'l' :: decimal (i' + 1)) := by
    simpa [messageKey] using he
  exact ⟨(messageKey_injective hs hs' hkey).1, Nat.succ.inj hn⟩

theorem fifoMessages_notMem_drop {m s i : Nat} (hs : s ≤ 999) {x : Str}
    (h : (fifoMessages m s)[i]? = some x) : x ∉ (fifoMessages m s).drop (i + 1) := by
  intro hin
  obtain ⟨j, hj⟩ := List.getElem?_of_mem hin
  rw [List.getElem?_drop] at hj
  have := (fifoMessages_injective hs hs h hj).2
  omega

theorem fifoMessages_readId {m s : Nat} (hs : s ≤ 999) {x : Str} (h : x ∈ fifoMessages m s) :
    (substr x 0 3 >>= stoul) = .ok s := by
  obtain ⟨i, hi⟩ := List.getElem?_of_mem h
  obtain ⟨b, -, rfl⟩ := fifoMessages_getElem? hi
  rw [messageKey, List.append_assoc]
  exact readId_message hs _

theorem fifoMessages_readSn {m s i : Nat} (hm : m ≤ 2147483647) {x y : Str}
    (h : (fifoMessages m s)[i]? = some x) (hy : y ∈ fifoMessages m s) :
    Fifo.readSn y.length x = .ok (i + 1) := by
  obtain ⟨j, hj⟩ := List.getElem?_of_mem hy
  obtain ⟨b', hb', rfl⟩ := fifoMessages_getElem? hj
  obtain ⟨b, hb, rfl⟩ := fifoMessages_getElem? h
  have hi := (List.getElem?_eq_some_iff.mp hb).1
  have hle := mainBatches_length_le m
  have hwidth := le_mainBatches_width hm (List.mem_of_getElem? hb')
  have hdigits := decimal_length_mono (by omega : i + 1 ≤ m)
  refine readSn_message ?_ (by omega)
  rw [messageKey, List.length_append, List.length_append]
  omega

section Pending
variable {m : Nat → Nat} {s : Nat} (hs : s ≤ 999)
include hs

theorem find?_insert_message {j : Nat} {y : Str} (hj : (fifoMessages (m s) s)[j]? = some y)
    {w : OrderedMap Nat Str}
    (hw : ∀ i x, w.find? (i + 1) = some x → (fifoMessages (m s) s)[i]? = some x)
    (i : Nat) (x : Str) :
    (w.insert (j + 1) y).find? (i + 1) = some x ↔
      (x = y ∧ (fifoMessages (m s) s)[i]? = some x) ∨ w.find? (i + 1) = some x := by
  rw [OrderedMap.find?_insert]
  by_cases hij : i = j
  · subst hij
    rw [if_pos rfl]
    constructor
    · intro hx
      obtain rfl := Option.some.inj hx
      exact .inl ⟨rfl, hj⟩
    · rintro (⟨rfl, -⟩ | hx)
      · rfl
      · exact hj.symm.trans (hw i x hx)
  · rw [if_neg (by omega)]
    refine ⟨.inr, ?_⟩
    rintro (⟨rfl, hi⟩ | hx)
    · exact absurd (fifoMessages_injective hs hs hi hj).2 hij
    · exact hx

/-- The map of `deliver`: under every number the pending message of `s` that has it. -/
theorem pendingFromSender_ok (hm : m s ≤ 2147483647) {msg : Str}
    (hmsg : msg ∈ fifoMessages (m s) s) {pending : List Str}
    (hp : ∀ x ∈ pending, ∃ s' ≤ 999, x ∈ fifoMessages (m s') s') {w : OrderedMap Nat Str}
    (hw : ∀ i x, w.find? (i + 1) = some x → (fifoMessages (m s) s)[i]? = some x) :
    ∃ w', Fifo.pendingFromSender msg.length s pending w = .ok w' ∧
      ∀ i x, w'.find? (i + 1) = some x ↔
        (x ∈ pending ∧ (fifoMessages (m s) s)[i]? = some x) ∨ w.find? (i + 1) = some x := by
  induction pending generalizing w with
  | nil => exact ⟨w, rfl, by simp⟩
  | cons y pending ih =>
    have hp' : ∀ x ∈ pending, ∃ s' ≤ 999, x ∈ fifoMessages (m s') s' :=
      fun x hx => hp x (by simp [hx])
    obtain ⟨s', hs', hy⟩ := hp y (by simp)
    obtain ⟨t, ht, hid⟩ := bind_eq_ok.mp (fifoMessages_readId hs' hy)
    obtain ⟨j, hj⟩ := List.getElem?_of_mem hy
    by_cases hsame : s' = s
    · subst hsame
      have hinsert := find?_insert_message hs hj hw
      obtain ⟨w', hok, hfind⟩ := @ih hp' (w.insert (j + 1) y) fun i x hx =>
        ((hinsert i x).mp hx).elim And.right (hw i x)
      refine ⟨w', ?_, fun i x => ?_⟩
      · rw [Fifo.pendingFromSender]
        simp only [bind_eq_ok]
        refine ⟨t, ht, s', hid, ?_⟩
        rw [if_pos rfl]
        exact bind_eq_ok.mpr ⟨j + 1, fifoMessages_readSn hm hj hmsg, hok⟩
      · rw [hfind, hinsert, List.mem_cons, or_and_right, ← or_assoc,
          or_comm (a := x ∈ pending ∧ _)]
    · obtain ⟨w', hok, hfind⟩ := ih hp' hw
      refine ⟨w', ?_, fun i x => ?_⟩
      · rw [Fifo.pendingFromSender]
        simp only [bind_eq_ok]
        refine ⟨t, ht, s', hid, ?_⟩
        rw [if_neg hsame]
        exact hok
      · have hne : (fifoMessages (m s) s)[i]? = some x → x ≠ y := by
          rintro hi rfl
          exact hsame (fifoMessages_injective hs' hs hj hi).1
        rw [hfind, List.mem_cons]
        grind

end Pending

/-- The state while `deliver` works: from each sender `s` the first `k s` messages are out. -/
structure Held (m : Nat → Nat) (N : Nat) (k : Nat → Nat) (done : List Str) (f : Fifo) : Prop where
  log : f.log = true
  arrived : ∀ x ∈ f.pending, x ∈ done
  delivered : ∀ s, 1 ≤ s ∧ s ≤ N → DeliveredFrom (m s) s (k s) done f

theorem nextOf_ok {f : Fifo} {s n : Nat} (hs : 1 ≤ s) (h : f.next[s - 1]? = some n) :
    f.nextOf s = .ok n := by
  cases s with
  | zero => omega
  | succ i =>
    rw [Nat.add_sub_cancel] at h
    rw [Fifo.nextOf, h]
    rfl

theorem DeliveredFrom.notLogged {m s k : Nat} {done : List Str} {f : Fifo}
    (h : DeliveredFrom m s k done f) (hs : s ≤ 999) {b : Str} (hb : (mainBatches m)[k]? = some b) :
    deliveredLog s b ∉ f.processLog := by
  intro hin
  have hfrom : deliveredLog s b ∈ entriesOf (deliveredHeader (pad3 s)) f.processLog :=
    List.mem_filter.mpr ⟨hin, by simp [deliveredLog_starts hs hs]⟩
  rw [h.logged, ← mainBatches_eq_concatMessages] at hfrom
  obtain ⟨b', hb', he⟩ := List.mem_map.mp hfrom
  obtain rfl := (deliveredLog_injective hs hs he).2
  obtain ⟨j, hj⟩ := List.getElem?_of_mem hb'
  rw [List.getElem?_take] at hj
  split at hj
  · have hlt := (List.getElem?_eq_some_iff.mp hj).1
    have := (List.getElem?_inj hlt (mainBatches_nodup m)).mp (hj.trans hb.symm)
    omega
  · cases hj

section Release
variable {m s k : Nat} {done : List Str} {f : Fifo} {x b : Str}

theorem release_ok (hlog : f.log = true) (hs : 1 ≤ s ∧ s ≤ 999)
    (hnext : f.next[s - 1]? = some (k + 1)) (hx : x = messageKey s b ++ 'l' :: decimal (k + 1)) :
    f.release s x = .ok { f with
      next := f.next.set (s - 1) (k + 1 + 1)
      pending := f.pending.filter (· ≠ x)
      processLog := addMessageLog f.processLog (deliveredLog s b) } := by
  have hentry : Fifo.deliveredEntry x = .ok (deliveredLog s b) :=
    hx ▸ fifo_deliveredEntry_message hs.2
  rw [Fifo.release, nextOf_ok hs.1 hnext]
  simp only [bind, Except.bind, hlog, if_true, hentry]
  rfl

theorem DeliveredFrom.release (h : DeliveredFrom m s k done f) (hs : s ≤ 999)
    (hx : (fifoMessages m s)[k]? = some x) (hb : (mainBatches m)[k]? = some b) (hdone : x ∈ done) :
    DeliveredFrom m s (k + 1) done { f with
      next := f.next.set (s - 1) (k + 1 + 1)
      pending := f.pending.filter (· ≠ x)
      processLog := addMessageLog f.processLog (deliveredLog s b) } := by
  refine ⟨⟨(List.getElem?_eq_some_iff.mp hx).1, fun y hy => ?_⟩, ?_, ?_, fun y hy hyd => ?_⟩
  · rw [List.take_add_one, hx] at hy
    rcases List.mem_append.mp hy with hy | hy
    · exact h.handed.2 y hy
    · obtain rfl := List.mem_singleton.mp hy
      exact hdone
  · have hlt := (List.getElem?_eq_some_iff.mp h.next).1
    simp [hlt]
  · have hadd : addMessageLog f.processLog (deliveredLog s b) =
        f.processLog ++ [deliveredLog s b] := if_neg (h.notLogged hs hb)
    rw [hadd, entriesOf, List.filter_append, ← entriesOf, h.logged,
      ← mainBatches_eq_concatMessages, List.take_add_one, hb]
    simp [deliveredLog_starts hs hs]
  · have hne : y ≠ x := by
      rintro rfl
      exact fifoMessages_notMem_drop hs hx hy
    rw [← List.drop_drop] at hy
    simpa [hne] using h.waiting y (List.mem_of_mem_drop hy) hyd

theorem DeliveredFrom.releaseOther {m' s' n : Nat} (h : DeliveredFrom m s k done f)
    (hs : 1 ≤ s ∧ s ≤ 999) (hs' : 1 ≤ s' ∧ s' ≤ 999) (hne : s ≠ s') (hx : x ∈ fifoMessages m' s') :
    DeliveredFrom m s k done { f with
      next := f.next.set (s' - 1) n
      pending := f.pending.filter (· ≠ x)
      processLog := addMessageLog f.processLog (deliveredLog s' b) } := by
  refine ⟨h.handed, ?_, ?_, fun y hy hyd => ?_⟩
  · have hidx : s' - 1 ≠ s - 1 := by omega
    simpa [hidx] using h.next
  · have hfilter := filter_foldl_addMessageLog (deliveredHeader (pad3 s) <+: ·)
      [deliveredLog s' b] f.processLog
    have hnot : ¬ deliveredHeader (pad3 s) <+: deliveredLog s' b :=
      mt (deliveredLog_starts hs.2 hs'.2 b).mp hne
    simp only [List.foldl_cons, List.foldl_nil, List.filter_cons, hnot, decide_false,
      Bool.false_eq_true, if_false, List.filter_nil] at hfilter
    exact hfilter.trans h.logged
  · have hyx : y ≠ x := by
      rintro rfl
      obtain ⟨i, hi⟩ := List.getElem?_of_mem (List.mem_of_mem_drop hy)
      obtain ⟨j, hj⟩ := List.getElem?_of_mem hx
      exact hne (fifoMessages_injective hs.2 hs'.2 hi hj).1
    simpa [hyx] using h.waiting y hy hyd

end Release

theorem Held.release {m : Nat → Nat} {N : Nat} {k : Nat → Nat} {done : List Str} {f : Fifo}
    (h : Held m N k done f) (hN : N ≤ 999) {s : Nat} (hs : 1 ≤ s ∧ s ≤ N) {x : Str}
    (hx : (fifoMessages (m s) s)[k s]? = some x) (hdone : x ∈ done) :
    ∃ f', f.release s x = .ok f' ∧ Held m N (Function.update k s (k s + 1)) done f' := by
  have hs' : 1 ≤ s ∧ s ≤ 999 := ⟨hs.1, Nat.le_trans hs.2 hN⟩
  have hd := h.delivered s hs
  obtain ⟨b, hb, hmsg⟩ := fifoMessages_getElem? hx
  refine ⟨_, release_ok h.log hs' hd.next hmsg, h.log,
    fun y hy => h.arrived y (List.mem_of_mem_filter hy), fun s₁ hs₁ => ?_⟩
  by_cases hsame : s₁ = s
  · subst hsame
    rw [Function.update_self]
    exact hd.release hs'.2 hx hb hdone
  · rw [Function.update_of_ne hsame]
    exact (h.delivered s₁ hs₁).releaseOther ⟨hs₁.1, Nat.le_trans hs₁.2 hN⟩ hs' hsame
      (List.mem_of_getElem? hx)

theorem countP_lt_of_find? {w : OrderedMap Nat Str} {n : Nat} {x : Str} (h : w.find? n = some x) :
    w.entries.countP (n + 1 ≤ ·.1) < w.entries.countP (n ≤ ·.1) := by
  obtain ⟨front, back, he⟩ := List.append_of_mem (OrderedMap.find?_eq_some.mp h)
  have hmono : ∀ l : List (Nat × Str), l.countP (n + 1 ≤ ·.1) ≤ l.countP (n ≤ ·.1) :=
    fun l => List.countP_mono_left fun e _ hle => by simp only [decide_eq_true_eq] at hle ⊢; omega
  have hfront := hmono front
  have hback := hmono back
  rw [he, List.countP_append, List.countP_append, List.countP_cons_of_neg (by simp),
    List.countP_cons_of_pos (by simp)]
  omega

/-- The last loop releases message after message of `s`, until the map has none that is next. -/
theorem Held.releaseLoop {m : Nat → Nat} {N : Nat} {k : Nat → Nat} {done : List Str} {f : Fifo}
    (h : Held m N k done f) (hN : N ≤ 999) {s : Nat} (hs : 1 ≤ s ∧ s ≤ N) {w : OrderedMap Nat Str}
    (hw : ∀ i x, w.find? (i + 1) = some x → x ∈ done ∧ (fifoMessages (m s) s)[i]? = some x)
    {fuel : Nat} (hfuel : w.entries.countP (k s + 1 ≤ ·.1) < fuel) :
    ∃ f' k', Fifo.releaseLoop s w fuel f = .ok f' ∧ Held m N k' done f' ∧ k s ≤ k' s ∧
      (∀ s₁, s₁ ≠ s → k' s₁ = k s₁) ∧ w.find? (k' s + 1) = none := by
  induction fuel generalizing f k with
  | zero => omega
  | succ fuel ih =>
    have hnext := nextOf_ok hs.1 (h.delivered s hs).next
    cases hf : w.find? (k s + 1) with
    | none =>
      refine ⟨f, k, ?_, h, Nat.le_refl _, fun _ _ => rfl, hf⟩
      rw [Fifo.releaseLoop, hnext]
      simp only [bind, Except.bind, hf]
      rfl
    | some x =>
      obtain ⟨hdone, hx⟩ := hw (k s) x hf
      obtain ⟨f₁, hrel, h₁⟩ := h.release hN hs hx hdone
      have hlt := countP_lt_of_find? hf
      have hfuel₁ : w.entries.countP (Function.update k s (k s + 1) s + 1 ≤ ·.1) < fuel := by
        rw [Function.update_self]
        omega
      obtain ⟨f', k', hok, h', hle, hothers, hnone⟩ := ih h₁ hfuel₁
      rw [Function.update_self] at hle
      refine ⟨f', k', ?_, h', by omega, fun s₁ hne => ?_, hnone⟩
      · rw [Fifo.releaseLoop, hnext]
        simp only [bind, Except.bind, hf, hrel]
        exact hok
      · rw [hothers s₁ hne, Function.update_of_ne hne]

/-- Between calls no message that has arrived is next. -/
structure FifoInv (m : Nat → Nat) (N : Nat) (k : Nat → Nat) (done : List Str) (f : Fifo) : Prop
    extends Held m N k done f where
  gap : ∀ s, 1 ≤ s ∧ s ≤ N → ∀ x ∈ (fifoMessages (m s) s)[k s]?, x ∉ done

/-- Whether it is new or not, a message that is handed in is pending, or out already. -/
theorem Held.arrive {m : Nat → Nat} {N : Nat} {k : Nat → Nat} {done : List Str} {f : Fifo}
    (h : Held m N k done f) (msg : Str) :
    Held m N k (done ++ [msg]) { f with pending := addMessageLog f.pending msg } := by
  refine ⟨h.log, fun x hx => ?_, fun s hs => ?_⟩
  · rcases mem_addMessageLog.mp hx with hx | rfl
    · exact List.mem_append_left _ (h.arrived x hx)
    · simp
  · have hd := h.delivered s hs
    refine ⟨⟨hd.handed.1, fun x hx => List.mem_append_left _ (hd.handed.2 x hx)⟩, hd.next,
      hd.logged, fun x hx hxd => mem_addMessageLog.mpr ?_⟩
    rcases List.mem_append.mp hxd with hxd | hxd
    · exact .inl (hd.waiting x hx hxd)
    · exact .inr (List.mem_singleton.mp hxd)

theorem FifoInv.deliver {m : Nat → Nat} (hm : ∀ s, m s ≤ 2147483647) {N : Nat} (hN : N ≤ 999)
    {k : Nat → Nat} {done : List Str} {f : Fifo} (h : FifoInv m N k done f)
    (hdone : ∀ x ∈ done, ∃ s' ≤ 999, x ∈ fifoMessages (m s') s') {s : Nat} (hs : 1 ≤ s ∧ s ≤ N)
    {msg : Str} (hmsg : msg ∈ fifoMessages (m s) s) :
    ∃ f' k', f.deliver msg = .ok f' ∧ FifoInv m N k' (done ++ [msg]) f' := by
  have hs' : s ≤ 999 := Nat.le_trans hs.2 hN
  -- the check for the message in `pending` is that of the log
  set pending := addMessageLog f.pending msg with hpending
  have hnew : Held m N k (done ++ [msg]) { f with pending := pending } := h.arrive msg
  have hknown : ∀ x ∈ pending, ∃ s' ≤ 999, x ∈ fifoMessages (m s') s' := by
    intro x hx
    rcases mem_addMessageLog.mp hx with hx | rfl
    · exact hdone x (h.arrived x hx)
    · exact ⟨s, hs', hmsg⟩
  have hempty : ∀ i x, ¬ (OrderedMap.empty : OrderedMap Nat Str).find? (i + 1) = some x := by
    intro i x hx
    cases hx
  obtain ⟨w, hw, hfind⟩ := pendingFromSender_ok hs' (hm s) hmsg hknown
    fun i x hx => absurd hx (hempty i x)
  have harrived : ∀ i x, w.find? (i + 1) = some x →
      x ∈ done ++ [msg] ∧ (fifoMessages (m s) s)[i]? = some x := by
    intro i x hx
    rcases (hfind i x).mp hx with ⟨hx, hi⟩ | hx
    · exact ⟨hnew.arrived x hx, hi⟩
    · exact absurd hx (hempty i x)
  obtain ⟨f', k', hloop, h', hle, hothers, hnone⟩ :=
    hnew.releaseLoop hN hs harrived (Nat.lt_succ_of_le List.countP_le_length)
  obtain ⟨t, ht, hid⟩ := bind_eq_ok.mp (fifoMessages_readId hs' hmsg)
  refine ⟨f', k', ?_, h', fun s₁ hs₁ x hx hxd => ?_⟩
  · simp only [Fifo.deliver, bind_eq_ok]
    exact ⟨t, ht, s, hid, w, hw, hloop⟩
  · have hx : (fifoMessages (m s₁) s₁)[k' s₁]? = some x := hx
    by_cases hsame : s₁ = s
    · subst hsame
      have hdrop : x ∈ (fifoMessages (m s₁) s₁).drop (k s₁) := by
        refine List.mem_of_getElem? (i := k' s₁ - k s₁) ?_
        rw [List.getElem?_drop, Nat.add_sub_cancel' hle]
        exact hx
      have hin := (hnew.delivered s₁ hs₁).waiting x hdrop hxd
      have := (hfind (k' s₁) x).mpr (.inl ⟨hin, hx⟩)
      rw [hnone] at this
      cases this
    · rw [hothers s₁ hsame] at hx
      rcases List.mem_append.mp hxd with hxd | hxd
      · exact h.gap s₁ hs₁ x hx hxd
      · obtain rfl := List.mem_singleton.mp hxd
        obtain ⟨i, hi⟩ := List.getElem?_of_mem hmsg
        exact hsame (fifoMessages_injective (Nat.le_trans hs₁.2 hN) hs' hx hi).1

theorem FifoInv.deliverEach {m : Nat → Nat} (hm : ∀ s, m s ≤ 2147483647) {N : Nat} (hN : N ≤ 999)
    {k : Nat → Nat} {done : List Str} {f : Fifo} (h : FifoInv m N k done f)
    (hdone : ∀ x ∈ done, ∃ s, (1 ≤ s ∧ s ≤ N) ∧ x ∈ fifoMessages (m s) s) {msgs : List Str}
    (hmsgs : ∀ x ∈ msgs, ∃ s, (1 ≤ s ∧ s ≤ N) ∧ x ∈ fifoMessages (m s) s) :
    ∃ f' k', Fifo.deliverEach msgs f = .ok f' ∧ FifoInv m N k' (done ++ msgs) f' := by
  induction msgs generalizing f k done with
  | nil => exact ⟨f, k, rfl, by simpa using h⟩
  | cons msg msgs ih =>
    obtain ⟨s, hs, hmsg⟩ := hmsgs msg (by simp)
    have hknown : ∀ x ∈ done, ∃ s' ≤ 999, x ∈ fifoMessages (m s') s' := by
      intro x hx
      obtain ⟨s', hs', hx⟩ := hdone x hx
      exact ⟨s', Nat.le_trans hs'.2 hN, hx⟩
    obtain ⟨f₁, k₁, h₁, hinv⟩ := h.deliver hm hN hknown hs hmsg
    have hdone₁ : ∀ x ∈ done ++ [msg], ∃ s, (1 ≤ s ∧ s ≤ N) ∧ x ∈ fifoMessages (m s) s := by
      intro x hx
      rcases List.mem_append.mp hx with hx | hx
      · exact hdone x hx
      · exact List.mem_singleton.mp hx ▸ ⟨s, hs, hmsg⟩
    obtain ⟨f', k', h', hinv'⟩ := ih hinv hdone₁ fun x hx => hmsgs x (by simp [hx])
    refine ⟨f', k', bind_eq_ok.mpr ⟨f₁, h₁, h'⟩, ?_⟩
    simpa using hinv'

theorem entriesOf_sent (id : Str) (msgs : List Str) :
    entriesOf (deliveredHeader id) ((msgs.map sentEntry).foldl addMessageLog []) = [] := by
  refine List.filter_eq_nil_iff.mpr fun e he => ?_
  rcases mem_foldl_addMessageLog.mp he with he | he
  · cases he
  · obtain ⟨msg, -, rfl⟩ := List.mem_map.mp he
    simp [sentEntry, deliveredHeader]

/-- Before the first call; the process may have logged broadcasts of its own. -/
theorem FifoInv.start {m : Nat → Nat} {N : Nat} {f : Fifo} (hlog : f.log = true)
    (hnext : f.next = List.replicate N 1) (hpending : f.pending = [])
    (hentries : ∀ s : Nat, entriesOf (deliveredHeader (pad3 s)) f.processLog = []) :
    FifoInv m N (fun _ => 0) [] f := by
  refine ⟨⟨hlog, fun x hx => ?_, fun s hs => ⟨by simp, ?_, ?_, by simp⟩⟩, by simp⟩
  · rw [hpending] at hx
    cases hx
  · have hlt : s - 1 < N := by omega
    simp [hnext, hlt]
  · rw [hentries, List.take_zero]
    rfl

/-- After any calls of `deliver`, with repeats and gaps, the log has of every sender the batches
before the first that was not handed over, in order; that one is next, and what was handed over
of the later ones is pending. `p` is the process itself, which has numbered its own batches. -/
theorem fifo_prefix (N : Nat) (hN : N ≤ 999) (m : Nat → Nat) (hm : ∀ s, m s ≤ 2147483647) (p : Nat)
    (hp : 1 ≤ p ∧ p ≤ N) (msgs : List Str)
    (hmsgs : ∀ x ∈ msgs, ∃ s, (1 ≤ s ∧ s ≤ N) ∧ x ∈ fifoMessages (m s) s) :
    ∃ f₀ frames, (Fifo.new N true).startBroadcast p
        (concatMessages ((List.range' 1 (m p)).map decimal)) = .ok (f₀, frames) ∧
      frames.map (messageKey p) = fifoMessages (m p) p ∧
      ∃ f, f₀.deliverEach msgs = .ok f ∧ ∀ s, 1 ≤ s ∧ s ≤ N → ∃ k,
        DeliveredFrom (m s) s k msgs f ∧ ∀ x ∈ (fifoMessages (m s) s)[k]?, x ∉ msgs := by
  set batches := concatMessages ((List.range' 1 (m p)).map decimal) with hbatches
  obtain ⟨f₀, hstart, hlog, hnext, hpending, hprocessLog⟩ :=
    fifo_startBroadcast_ok (Nat.le_trans hp.2 hN) batches (Fifo.new N true)
  have hinv : FifoInv m N (fun _ => 0) [] f₀ :=
    .start hlog hnext hpending fun s => hprocessLog ▸ entriesOf_sent (pad3 s) batches
  obtain ⟨f, k, hok, h⟩ := hinv.deliverEach hm hN (by simp) hmsgs
  rw [List.nil_append] at h
  exact ⟨f₀, _, hstart, rfl, f, hok, fun s hs => ⟨k s, h.delivered s hs, h.gap s hs⟩⟩

theorem fifo_prefix_reversed : ∃ f₀ frames, (Fifo.new 2 true).startBroadcast 1
      (concatMessages ((List.range' 1 16).map decimal)) = .ok (f₀, frames) ∧
    frames.map (messageKey 1) = fifoMessages 16 1 ∧
    ∃ f, f₀.deliverEach (fifoMessages 16 2).reverse = .ok f ∧ ∀ s, 1 ≤ s ∧ s ≤ 2 → ∃ k,
      DeliveredFrom 16 s k (fifoMessages 16 2).reverse f ∧
      ∀ x ∈ (fifoMessages 16 s)[k]?, x ∉ (fifoMessages 16 2).reverse :=
  fifo_prefix 2 (by decide) (fun _ => 16) (fun _ => by decide) 1 (by decide) _
    fun _ hx => ⟨2, by decide, List.mem_reverse.mp hx⟩

end DecentralizedBroadcast
