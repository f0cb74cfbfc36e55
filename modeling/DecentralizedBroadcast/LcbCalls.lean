import DecentralizedBroadcast.Trace

/-! LCB under any calls: the messages URB hands it, in any order, with passes of its
own thread between them. -/
set_option autoImplicit false

namespace DecentralizedBroadcast
open ClockedDelivery

inductive LcbCall where
  | deliver (msg : Str)
  | deliverPending

namespace Lcb

/-- The second component: the messages delivered, with their log entries. -/
def call (l : Lcb) : LcbCall → Except Fault (Lcb × List (Str × Str))
  | .deliver msg => do
      let l ← l.deliver msg
      pure (l, [])
  | .deliverPending => l.deliverPending

def run : List LcbCall → Lcb → Except Fault (Lcb × List (Str × Str))
  | [], l => pure (l, [])
  | c :: cs, l => do
      let (l, out) ← l.call c
      let (l, rest) ← run cs l
      pure (l, out ++ rest)

def Quiet (l : Lcb) : Prop := l.deliverPending = .ok (l, [])

end Lcb

def arrivals (cs : List LcbCall) : List Str :=
  cs.filterMap fun c => match c with
    | .deliver msg => some msg
    | .deliverPending => none

/-- What LCB needs of a message: a clock, the id of its sender, a text to log. -/
structure Readable (msg : Str) : Prop where
  clock : (Lcb.vcString msg >>= Lcb.constructVC) = .ok (clockOf msg)
  origin : (substr msg 0 3 >>= stoi) = .ok (keyOrigin msg)
  entry : ∃ e, Lcb.deliveredEntry msg = .ok e

/-- Of a message under the id of its sender only the clock can fail to be read. -/
theorem readable_of_clock {s : Nat} (hs : s ≤ 999) {text : Str} {w : VectorClock}
    (hw : (Lcb.vcString (messageKey s text) >>= Lcb.constructVC) = .ok w) :
    Readable (messageKey s text) where
  clock := by
    rw [clockOf, hw]
    rfl
  origin := by
    have hid := @substr_mid [] (pad3 s) text 0 3 rfl (pad3_length hs).symm
    rw [List.nil_append] at hid
    rw [keyOrigin_messageKey hs]
    exact bind_eq_ok.mpr ⟨_, hid, stoi_pad3 hs⟩
  entry := ⟨_, deliveredEntry_messageKey hs _⟩

theorem readClock_messageKey (s : Nat) {payload : Str} (h : 'v' ∉ payload)
    {es : List (Int × Int)} (hes : es ≠ []) (fits : ∀ e ∈ es, EntryFits e) :
    (Lcb.vcString (messageKey s (payload ++ clockText es)) >>= Lcb.constructVC) =
      .ok (OrderedMap.ofEntries es) := by
  rw [messageKey, ← List.append_assoc]
  exact readClock_clockText (notMem_pad3_append s h) hes fits

theorem readable_messageKey {s : Nat} (hs : s ≤ 999) {payload : Str} (h : 'v' ∉ payload)
    {es : List (Int × Int)} (hes : es ≠ []) (fits : ∀ e ∈ es, EntryFits e) :
    Readable (messageKey s (payload ++ clockText es)) :=
  readable_of_clock hs (readClock_messageKey s h hes fits)

theorem Readable.deliver {msg : Str} (h : Readable msg) {l : Lcb}
    (hnew : ∀ w, (msg, w) ∉ l.pairs.entries) :
    l.deliver msg = .ok { l with pairs := l.pairs.insert msg (clockOf msg) } := by
  have hnone : l.pairs.find? msg = none :=
    OrderedMap.find?_eq_none.mpr fun e he hk => hnew e.2 (hk ▸ he)
  obtain ⟨t, ht, hw⟩ := bind_eq_ok.mp h.clock
  rw [Lcb.deliver, hnone]
  simp only [Option.getD_none, OrderedMap.entries_empty, if_true, bind_eq_ok]
  exact ⟨t, ht, _, hw, rfl⟩

theorem deliverLoop_cons {msg : Str} {w : VectorClock} {es : List (Str × VectorClock)} {l : Lcb}
    (h : Readable msg) (hready : Lcb.isInferior l.vc w = true) {l' : Lcb}
    {out : List (Str × Str)}
    (hrest : Lcb.deliverLoop es { l with
      vc := Function.update l.vc (keyOrigin msg) (l.vc (keyOrigin msg) + 1)
      pairs := l.pairs.erase msg } = .ok (l', out)) :
    ∃ e, Lcb.deliveredEntry msg = .ok e ∧
      Lcb.deliverLoop ((msg, w) :: es) l = .ok (l', (msg, e) :: out) := by
  obtain ⟨e, he⟩ := h.entry
  obtain ⟨t, ht, ho⟩ := bind_eq_ok.mp h.origin
  refine ⟨e, he, ?_⟩
  rw [Lcb.deliverLoop, if_pos hready]
  simp only [bind_eq_ok]
  exact ⟨t, ht, _, ho, e, he, _, hrest, rfl⟩

/-- A pass that delivers nothing changes nothing, and nothing was ready. -/
theorem deliverLoop_nothing {es : List (Str × VectorClock)} {l l' : Lcb}
    (h : Lcb.deliverLoop es l = .ok (l', [])) :
    l' = l ∧ ∀ e ∈ es, Lcb.isInferior l.vc e.2 = false := by
  induction es with
  | nil => exact ⟨(Prod.mk.inj (Except.ok.inj h)).1.symm, by simp⟩
  | cons e es ih =>
    unfold Lcb.deliverLoop at h
    split at h
    · simp only [bind_eq_ok] at h
      obtain ⟨_, _, _, _, _, _, _, _, h⟩ := h
      cases h
    · rename_i hnot
      obtain ⟨hl, hall⟩ := ih h
      refine ⟨hl, fun e' he => ?_⟩
      rcases List.mem_cons.mp he with rfl | he
      · simpa using hnot
      · exact hall e' he

def Lcb.Stored (l : Lcb) : Prop := ∀ k w, (k, w) ∈ l.pairs.entries →
  (Lcb.vcString k >>= Lcb.constructVC) = .ok w

theorem Lcb.Stored.deliver {l l' : Lcb} {msg : Str} (h : l.Stored) (hd : l.deliver msg = .ok l') :
    l'.Stored := by
  rw [Lcb.deliver] at hd
  split at hd
  · simp only [bind_eq_ok] at hd
    obtain ⟨t, ht, w, hw, hd⟩ := hd
    obtain rfl := Except.ok.inj hd
    intro k w' hk
    rcases OrderedMap.mem_insert.mp hk with heq | ⟨hk, -⟩
    · obtain ⟨rfl, rfl⟩ := Prod.mk.inj heq
      exact bind_eq_ok.mpr ⟨t, ht, hw⟩
    · exact h k w' hk
  · obtain rfl := Except.ok.inj hd
    exact h

/-- A pass only takes entries out, and logs each. -/
theorem deliverLoop_out {es : List (Str × VectorClock)} {l l' : Lcb} {out : List (Str × Str)}
    (hd : Lcb.deliverLoop es l = .ok (l', out)) :
    (∀ e ∈ l'.pairs.entries, e ∈ l.pairs.entries) ∧
    ∀ e ∈ out, (∃ w, (e.1, w) ∈ es) ∧ Lcb.deliveredEntry e.1 = .ok e.2 := by
  induction es generalizing l out with
  | nil =>
    obtain ⟨rfl, rfl⟩ := Prod.mk.inj (Except.ok.inj hd)
    simp
  | cons e es ih =>
    obtain ⟨msg, w⟩ := e
    rw [Lcb.deliverLoop] at hd
    split at hd
    · simp only [bind_eq_ok] at hd
      obtain ⟨t, -, rank, -, entry, hentry, ⟨l₁, out₁⟩, hd, hfin⟩ := hd
      obtain ⟨rfl, rfl⟩ := Prod.mk.inj (Except.ok.inj hfin)
      obtain ⟨hpairs, hout⟩ := ih hd
      refine ⟨fun x hx => (OrderedMap.mem_erase.mp (hpairs x hx)).1, fun x hx => ?_⟩
      rcases List.mem_cons.mp hx with rfl | hx
      · exact ⟨⟨w, by simp⟩, hentry⟩
      · obtain ⟨⟨w', hw'⟩, hx⟩ := hout x hx
        exact ⟨⟨w', by simp [hw']⟩, hx⟩
    · obtain ⟨hpairs, hout⟩ := ih hd
      refine ⟨hpairs, fun x hx => ?_⟩
      obtain ⟨⟨w', hw'⟩, hx⟩ := hout x hx
      exact ⟨⟨w', by simp [hw']⟩, hx⟩

theorem Lcb.Stored.call {c : LcbCall} {l l' : Lcb} {out : List (Str × Str)} (h : l.Stored)
    (hc : l.call c = .ok (l', out)) : l'.Stored ∧ ∀ e ∈ out,
      (∃ w, (Lcb.vcString e.1 >>= Lcb.constructVC) = .ok w) ∧
      Lcb.deliveredEntry e.1 = .ok e.2 := by
  cases c with
  | deliver msg =>
    simp only [Lcb.call, bind_eq_ok] at hc
    obtain ⟨l₁, hd, hc⟩ := hc
    obtain ⟨rfl, rfl⟩ := Prod.mk.inj (Except.ok.inj hc)
    exact ⟨h.deliver hd, by simp⟩
  | deliverPending =>
    obtain ⟨hpairs, hout⟩ := deliverLoop_out hc
    refine ⟨fun k w hk => h k w (hpairs _ hk), fun e he => ?_⟩
    obtain ⟨⟨w, hw⟩, hentry⟩ := hout e he
    exact ⟨⟨w, h _ w hw⟩, hentry⟩

theorem Lcb.Stored.run {cs : List LcbCall} {l l' : Lcb} {out : List (Str × Str)} (h : l.Stored)
    (hr : Lcb.run cs l = .ok (l', out)) : l'.Stored ∧ ∀ e ∈ out,
      (∃ w, (Lcb.vcString e.1 >>= Lcb.constructVC) = .ok w) ∧
      Lcb.deliveredEntry e.1 = .ok e.2 := by
  induction cs generalizing l out with
  | nil =>
    obtain ⟨rfl, rfl⟩ := Prod.mk.inj (Except.ok.inj hr)
    exact ⟨h, by simp⟩
  | cons c cs ih =>
    simp only [Lcb.run, bind_eq_ok] at hr
    obtain ⟨⟨l₁, out₁⟩, hc, ⟨l₂, out₂⟩, hr, hfin⟩ := hr
    obtain ⟨rfl, rfl⟩ := Prod.mk.inj (Except.ok.inj hfin)
    obtain ⟨h₁, hout₁⟩ := h.call hc
    obtain ⟨h₂, hout₂⟩ := ih h₁ hr
    exact ⟨h₂, fun e he => (List.mem_append.mp he).elim (hout₁ e) (hout₂ e)⟩

theorem Lcb.run_append {cs cs' : List LcbCall} {l l₁ l₂ : Lcb} {out out' : List (Str × Str)}
    (h : Lcb.run cs l = .ok (l₁, out)) (h' : Lcb.run cs' l₁ = .ok (l₂, out')) :
    Lcb.run (cs ++ cs') l = .ok (l₂, out ++ out') := by
  induction cs generalizing l out with
  | nil =>
    obtain ⟨rfl, rfl⟩ := Prod.mk.inj (Except.ok.inj h)
    exact h'
  | cons c cs ih =>
    simp only [Lcb.run, bind_eq_ok] at h
    obtain ⟨⟨l₃, out₁⟩, hc, ⟨l₄, out₂⟩, hr, hfin⟩ := h
    obtain ⟨rfl, rfl⟩ := Prod.mk.inj (Except.ok.inj hfin)
    simp only [List.cons_append, Lcb.run, bind_eq_ok, List.append_assoc]
    exact ⟨_, hc, _, ih hr, rfl⟩

theorem stored_of_empty {l : Lcb} (h : l.pairs = .empty) : l.Stored := by
  intro k w hk
  rw [h] at hk
  cases hk

/-- Whether a message is new or not, its clock is in `pairs` once it was handed in. -/
theorem Lcb.Stored.stores {l : Lcb} (h : l.Stored) {msg : Str} {w : VectorClock}
    (hw : (Lcb.vcString msg >>= Lcb.constructVC) = .ok w) :
    ∃ l', l.deliver msg = .ok l' ∧ l'.pairs.find? msg = some w := by
  obtain ⟨t, ht, hc⟩ := bind_eq_ok.mp hw
  by_cases hold : ((l.pairs.find? msg).getD .empty).entries = []
  · refine ⟨{ l with pairs := l.pairs.insert msg w }, ?_, ?_⟩
    · rw [Lcb.deliver, if_pos hold]
      simp only [bind_eq_ok]
      exact ⟨t, ht, w, hc, rfl⟩
    · rw [OrderedMap.find?_insert, if_pos rfl]
  · refine ⟨l, ?_, ?_⟩
    · rw [Lcb.deliver, if_neg hold]
      rfl
    · cases hf : l.pairs.find? msg with
      | none => simp [hf] at hold
      | some w' =>
        have hw' := h msg w' (OrderedMap.find?_eq_some.mp hf)
        rw [hw] at hw'
        rw [Except.ok.inj hw']

/-- The clock that `broadcastMessage` writes behind a batch of main is read back exactly by
every process that is handed the message, whatever it was handed before. -/
theorem clock_read_back {rank : Nat} (hr : 1 ≤ rank ∧ rank ≤ 999) {dependencies : List Int}
    (hd : ∀ d ∈ dependencies, 1 ≤ d ∧ d ≤ 999) {l : Lcb} (hlsn : l.lsn ≤ 2147483647)
    (hvc : ∀ z, 0 ≤ l.vc z ∧ l.vc z ≤ intMax) {m : Nat} {payload : Str}
    (hp : payload ∈ mainBatches m) :
    ∃ l' text, l.broadcastMessage rank dependencies payload = .ok (l', text) ∧
      Lcb.withoutClock (pad3 rank ++ text) = pad3 rank ++ payload ∧
      ∀ cs start q out, start.pairs = .empty → Lcb.run cs start = .ok (q, out) →
        ∃ q' w, q.deliver (pad3 rank ++ text) = .ok q' ∧
          q'.pairs.find? (pad3 rank ++ text) = some w ∧
          ∀ z, w.find? z = if z = rank then some (l.lsn : Int)
            else if z ∈ dependencies then some (l.vc z) else none := by
  set es := clockEntries l.vc dependencies rank l.lsn with hes
  have hids : ∀ d ∈ dependencies, FitsId d := by
    intro d hin
    obtain ⟨h1, h999⟩ := hd d hin
    exact fitsId_int (by omega) h999
  have hfits : ∀ e ∈ es, EntryFits e := by
    intro e he
    rcases List.mem_append.mp he with he | he
    · obtain ⟨d, hin, rfl⟩ := List.mem_map.mp he
      exact ⟨hids d hin, hvc d⟩
    · obtain rfl := List.mem_singleton.mp he
      refine ⟨fitsId_pad3 hr.2, Int.natCast_nonneg _, ?_⟩
      simp only [intMax]
      omega
  have hv : 'v' ∉ payload := fun hin => absurd (mainBatches_chars hp 'v' hin) (by decide)
  have hkey : pad3 rank ++ (payload ++ clockText es) = (pad3 rank ++ payload) ++ clockText es :=
    (List.append_assoc _ _ _).symm
  have hclock := readClock_clockText (notMem_pad3_append rank hv)
    (clockEntries_ne_nil _ _ _ _) hfits
  refine ⟨_, _, broadcastMessage_eq hr.2 hids l payload, ?_, fun cs start q out h0 hrun => ?_⟩
  · rw [hkey]
    exact withoutClock_append (notMem_pad3_append rank hv) (clockEntries_ne_nil _ _ _ _)
  · rw [← hkey] at hclock
    obtain ⟨q', hq, hf⟩ := ((stored_of_empty h0).run hrun).1.stores hclock
    exact ⟨q', _, hq, hf, find?_clockEntries l.vc dependencies rank l.lsn⟩

theorem clock_read_back_repeated :
    ∃ l' text, Lcb.broadcastMessage 7 [3, 7, 3] ⟨true, 2, fun _ => 5, .empty⟩
        ['0', '1', '1'] = .ok (l', text) ∧
      Lcb.withoutClock (pad3 7 ++ text) = pad3 7 ++ ['0', '1', '1'] ∧
      ∀ cs start q out, start.pairs = .empty → Lcb.run cs start = .ok (q, out) →
        ∃ q' w, q.deliver (pad3 7 ++ text) = .ok q' ∧
          q'.pairs.find? (pad3 7 ++ text) = some w ∧
          ∀ z, w.find? z = if z = 7 then some 2 else if z ∈ [3, 7, 3] then some 5 else none :=
  clock_read_back (by decide) (by decide) (by decide)
    (fun _ => (by decide : (0 : Int) ≤ 5 ∧ (5 : Int) ≤ intMax))
    (show ['0', '1', '1'] ∈ mainBatches 1 by decide)

end DecentralizedBroadcast
