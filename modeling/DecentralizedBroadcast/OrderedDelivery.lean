import DecentralizedBroadcast.PendingOrder
import Mathlib.Algebra.Order.BigOperators.Group.List

/-! When LCB can deliver all messages of one process in order: each has a clock that can be read
and asks for nothing that never comes. -/
set_option autoImplicit false

namespace DecentralizedBroadcast
open ClockedDelivery

/-- What URB hands up at a process of `N`, with the passes between: messages of the processes,
each once. -/
structure HandedUp (N : Nat) (cs : List LcbCall) : Prop where
  once : (arrivals cs).Nodup
  known : ∀ k ∈ arrivals cs, ∃ s text, 1 ≤ s ∧ s ≤ N ∧ k = messageKey s text

/-- The clock of the message can be read, and asks for no more messages of `p` than the `i` before
it and of others only if they are processes. -/
def Deliverable (N p i : Nat) (key : Str) : Prop :=
  ∃ w, (Lcb.vcString key >>= Lcb.constructVC) = .ok w ∧
    ∀ e ∈ w.entries, 0 < e.2 → if e.1 = p then e.2 ≤ i else 1 ≤ e.1 ∧ e.1 ≤ N

def keysFrom (p : Nat) (out : List (Str × Str)) : List Str :=
  (out.map Prod.fst).filter (pad3 p <+: ·)

/-- A run that went through could read the clock of every message that was new to it. -/
theorem clock_of_run {cs : List LcbCall} {l l' : Lcb} {out : List (Str × Str)}
    (hr : Lcb.run cs l = .ok (l', out)) (hnew : ∀ k ∈ arrivals cs, ∀ w, (k, w) ∉ l.pairs.entries)
    (hnd : (arrivals cs).Nodup) :
    ∀ k ∈ arrivals cs, ∃ w, (Lcb.vcString k >>= Lcb.constructVC) = .ok w := by
  induction cs generalizing l l' out with
  | nil => simp [arrivals]
  | cons c cs ih =>
    simp only [Lcb.run, bind_eq_ok] at hr
    obtain ⟨⟨l₁, out₁⟩, hc, ⟨l₂, out₂⟩, hr, -⟩ := hr
    dsimp only at hr
    cases c with
    | deliver msg =>
      have hcons : arrivals (.deliver msg :: cs) = msg :: arrivals cs := rfl
      rw [hcons] at hnew hnd ⊢
      obtain ⟨hmsg, hnd⟩ := List.nodup_cons.mp hnd
      have hnone : l.pairs.find? msg = none :=
        OrderedMap.find?_eq_none.mpr fun e he hk => hnew msg (by simp) e.2 (hk ▸ he)
      simp only [Lcb.call, Lcb.deliver, hnone, Option.getD_none, OrderedMap.entries_empty, if_true,
        bind_eq_ok] at hc
      obtain ⟨l₃, ⟨t, ht, w, hw, hl⟩, hc⟩ := hc
      obtain ⟨rfl, -⟩ := Prod.mk.inj (Except.ok.inj hc)
      obtain rfl := Except.ok.inj hl
      have hpairs : ∀ k ∈ arrivals cs, ∀ w', (k, w') ∉ (l.pairs.insert msg w).entries := by
        intro k hk w' hin
        rcases OrderedMap.mem_insert.mp hin with he | ⟨hin, -⟩
        · exact hmsg ((Prod.mk.inj he).1 ▸ hk)
        · exact hnew k (by simp [hk]) w' hin
      have hrest := ih hr hpairs hnd
      intro k hk
      rcases List.mem_cons.mp hk with rfl | hk
      · exact ⟨w, bind_eq_ok.mpr ⟨t, ht, hw⟩⟩
      · exact hrest k hk
    | deliverPending =>
      have hpairs := (deliverLoop_out hc).1
      exact ih hr (fun k hk w hin => hnew k hk w (hpairs _ hin)) hnd

def filler (s j : Nat) : Str := messageKey s (decimal j ++ clockText [((s : Int), 0)])

def fillers (N p M : Nat) : List Str :=
  ((Sys.others N p).product (List.range M)).map fun x => filler x.1 x.2

theorem clock_filler {s : Nat} (hs : s ≤ 999) (j : Nat) :
    (Lcb.vcString (filler s j) >>= Lcb.constructVC) =
      .ok (OrderedMap.ofEntries [((s : Int), 0)]) := by
  have hmax : (0 : Int) ≤ intMax := by decide
  have hfits : EntryFits ((s : Int), 0) := ⟨fitsId_pad3 hs, Int.le_refl 0, hmax⟩
  exact readClock_messageKey s (notMem_decimal rfl) (by simp) (by simpa using hfits)

theorem mem_fillers {N p M : Nat} {k : Str} : k ∈ fillers N p M ↔
    ∃ s, (1 ≤ s ∧ s ≤ N ∧ s ≠ p) ∧ ∃ j < M, k = filler s j := by
  simp only [fillers, Sys.others, List.mem_map, Prod.exists, List.pair_mem_product,
    List.mem_filter, List.mem_range'_1, List.mem_range, decide_eq_true_eq]
  constructor
  · rintro ⟨s, j, ⟨⟨hs, hp⟩, hj⟩, rfl⟩
    exact ⟨s, ⟨by omega, by omega, hp⟩, j, hj, rfl⟩
  · rintro ⟨s, ⟨h1, hs, hp⟩, j, hj, rfl⟩
    exact ⟨s, j, ⟨⟨by omega, hp⟩, hj⟩, rfl⟩

namespace Progress
variable {start l : Lcb} {ds : List Str}

/-- A message that is handed in when nothing waits, and is ready, is delivered by a pass. -/
theorem next (h : Progress start ds ds l) {k : Str} (hr : Readable k) (hnew : k ∉ ds)
    (hready : Ready keyOrigin (needFrom start.vc) ds k) :
    ∃ l' e, Lcb.run [.deliver k, .deliverPending] l = .ok (l', [(k, e)]) ∧
      Progress start (ds ++ [k]) (ds ++ [k]) l' := by
  have hempty : l.pairs.entries = [] := by
    refine List.eq_nil_iff_forall_not_mem.mpr ?_
    rintro ⟨k', w⟩ hin
    obtain ⟨hk, hnot, -⟩ := (h.pairs k' w).mp hin
    exact hnot hk
  obtain ⟨l₁, hd, hp⟩ := h.deliver hr hnew
  have hnot : ∀ w, (k, w) ∉ l.pairs.entries := by simp [hempty]
  obtain rfl := Except.ok.inj ((hr.deliver hnot).symm.trans hd)
  have hentries : (l.pairs.insert k (clockOf k)).entries = [(k, clockOf k)] := by
    change OrderedMap.insertEntry k (clockOf k) l.pairs.entries = _
    rw [hempty]
    rfl
  have hinf : Lcb.isInferior l.vc (clockOf k) = true := by
    rw [h.vc]
    exact isInferior_needFrom.mpr hready
  obtain ⟨e, -, hloop⟩ := deliverLoop_cons (l := { l with
    pairs := l.pairs.insert k (clockOf k) }) hr hinf (rfl : Lcb.deliverLoop [] _ = .ok (_, []))
  refine ⟨_, e, ?_, hp.deliverOne (by simp [hentries]) hinf⟩
  simp only [Lcb.run, Lcb.call, Lcb.deliverPending, bind_eq_ok]
  rw [← hentries] at hloop
  exact ⟨_, ⟨_, hd, rfl⟩, _, ⟨_, hloop, _, rfl, rfl⟩, rfl⟩

theorem inOrder (h0 : start.pairs.entries = []) (ho : Orderly keyOrigin (needFrom start.vc) ds)
    (hr : ∀ k ∈ ds, Readable k) : ∃ cs l' out, arrivals cs = ds ∧
      Lcb.run cs start = .ok (l', out) ∧ out.map Prod.fst = ds ∧ Progress start ds ds l' := by
  induction ds using List.reverseRecOn with
  | nil => exact ⟨[], start, [], rfl, rfl, rfl, Progress.empty h0⟩
  | append_singleton ds k ih =>
    obtain ⟨ho, hnew, hready⟩ := History.sound_snoc.mp ho
    obtain ⟨cs, l₁, out, hcs, hrun, hout, hp⟩ := ih ho fun x hx => hr x (by simp [hx])
    obtain ⟨l', e, hnext, hp'⟩ := hp.next (hr k (by simp)) hnew hready
    refine ⟨cs ++ [.deliver k, .deliverPending], l', out ++ [(k, e)], ?_,
      Lcb.run_append hrun hnext, by simp [hout], hp'⟩
    rw [← hcs]
    simp [arrivals]

end Progress

theorem exists_clock_bound (keys : List Str) :
    ∃ M : Nat, ∀ k ∈ keys, ∀ e ∈ (clockOf k).entries, e.2 ≤ M := by
  refine ⟨((keys.flatMap fun k => (clockOf k).entries).map fun e => e.2.toNat).sum,
    fun k hk e he => ?_⟩
  have hin : e ∈ keys.flatMap fun k => (clockOf k).entries := List.mem_flatMap.mpr ⟨k, hk, he⟩
  have hle := List.le_sum_of_mem (List.mem_map_of_mem (f := fun e : Int × Int => e.2.toNat) hin)
  omega

section System
variable {N : Nat} (hN : N ≤ 999)
include hN

theorem HandedUp.readable {cs : List LcbCall} (h : HandedUp N cs) {l l' : Lcb}
    (h0 : l.pairs = .empty) {out : List (Str × Str)} (hr : Lcb.run cs l = .ok (l', out)) :
    ∀ k ∈ arrivals cs, Readable k := by
  intro k hk
  obtain ⟨w, hw⟩ := clock_of_run hr (fun _ _ _ hin => by rw [h0] at hin; cases hin) h.once k hk
  obtain ⟨s, text, -, hs, rfl⟩ := h.known k hk
  exact readable_of_clock (by omega) hw

theorem pad3_starts_iff {p : Nat} (hp : p ≤ N) {s : Nat} (hs : s ≤ N) (text : Str) :
    pad3 p <+: messageKey s text ↔ keyOrigin (messageKey s text) = p := by
  have hlen : (pad3 p).length = (pad3 s).length := by
    rw [pad3_length (by omega), pad3_length (by omega)]
  rw [keyOrigin_messageKey (by omega), messageKey, Int.natCast_inj]
  constructor
  · intro hpre
    have hpre := List.prefix_of_prefix_length_le hpre (List.prefix_append _ text)
      (Nat.le_of_eq hlen)
    exact (pad3_injective (hpre.eq_of_length hlen)).symm
  · rintro rfl
    exact List.prefix_append _ _

theorem keysFrom_eq {p : Nat} (hp : p ≤ N) {out : List (Str × Str)}
    (h : ∀ k ∈ out.map Prod.fst, ∃ s text, 1 ≤ s ∧ s ≤ N ∧ k = messageKey s text) :
    keysFrom p out = deliveriesFrom keyOrigin (out.map Prod.fst) p := by
  refine List.filter_congr fun k hk => ?_
  obtain ⟨s, text, -, hs, rfl⟩ := h k hk
  exact decide_eq_decide.mpr (pad3_starts_iff hN hp hs text)

theorem HandedUp.progress {cs : List LcbCall} (h : HandedUp N cs) {l l' : Lcb}
    (h0 : l.pairs = .empty) {out : List (Str × Str)} (hr : Lcb.run cs l = .ok (l', out)) :
    Progress l (arrivals cs) (out.map Prod.fst) l' := by
  have hempty : Progress l [] [] l := Progress.empty (by rw [h0]; rfl)
  obtain ⟨l₁, new, hrun, hprog⟩ := hempty.run (by simpa using h.readable hN h0 hr)
    (by simpa using h.once)
  obtain ⟨rfl, rfl⟩ := Prod.mk.inj (Except.ok.inj (hr.symm.trans hrun))
  exact hprog

theorem HandedUp.deliverable {cs : List LcbCall} (h : HandedUp N cs) {l l' : Lcb}
    (hvc : l.vc = fun _ => 0) (h0 : l.pairs = .empty) {out : List (Str × Str)}
    (hr : Lcb.run cs l = .ok (l', out)) {p : Nat} (hp : p ≤ N) {i : Nat} {k : Str}
    (hk : (keysFrom p out)[i]? = some k) : Deliverable N p i k := by
  have hread := h.readable hN h0 hr
  have hprog := h.progress hN h0 hr
  have hknown := fun k hk => h.known k (hprog.received k hk)
  rw [keysFrom_eq hN hp hknown] at hk
  obtain ⟨-, past, rest, hsplit, hcount⟩ := past_of_getElem? hk
  have hready := (hprog.orderly past k rest hsplit).2
  have hin : k ∈ out.map Prod.fst := by simp [hsplit]
  refine ⟨clockOf k, (hread k (hprog.received k hin)).clock, ?_⟩
  rintro ⟨z, n⟩ he hpos
  have hz := hready z
  rw [needFrom, OrderedMap.find?_eq_some.mpr he, Option.getD_some, hvc, Int.sub_zero] at hz
  simp only at hpos ⊢
  split
  · rename_i heq
    subst heq
    rw [hcount] at hz
    omega
  -- something under this id was delivered, so that it is the id of a process
  · have hlen : 0 < count keyOrigin past z := by omega
    obtain ⟨m, hm⟩ := List.exists_mem_of_length_pos hlen
    obtain ⟨hpast, rfl⟩ := mem_deliveriesFrom.mp hm
    obtain ⟨s, text, h1, hs, rfl⟩ := hknown m (by
      rw [hsplit]
      exact List.mem_append_left _ hpast)
    rw [keyOrigin_messageKey (by omega)]
    omega

theorem fillers_nodup (p M : Nat) : (fillers N p M).Nodup := by
  have hnd : ((Sys.others N p).product (List.range M)).Nodup :=
    List.Nodup.product (List.Nodup.filter _ List.nodup_range') List.nodup_range
  refine List.Nodup.map_on ?_ hnd
  rintro ⟨s, j⟩ hx ⟨s', j'⟩ hx' he
  simp only [Sys.others, List.pair_mem_product, List.mem_filter, List.mem_range'_1] at hx hx'
  change filler s j = filler s' j' at he
  obtain ⟨rfl, htext⟩ := messageKey_injective (by omega) (by omega) he
  rw [decimal_injective (List.append_cancel_right htext)]

theorem filler_ready {s : Nat} (hs : s ≤ N) (j : Nat) (ds : List Str) :
    Ready keyOrigin (needFrom fun _ => 0) ds (filler s j) := by
  intro z
  have hclock : clockOf (filler s j) = OrderedMap.ofEntries [((s : Int), 0)] := by
    rw [clockOf, clock_filler (by omega)]
    rfl
  have hfind := OrderedMap.find?_ofEntries_map (fun _ : Int => (0 : Int)) [(s : Int)] z
  rw [List.map_singleton] at hfind
  have hzero : needFrom (fun _ => 0) (filler s j) z = 0 := by
    rw [needFrom, hclock, hfind]
    split <;> rfl
  omega

theorem le_count_fillers {p M s : Nat} (h : 1 ≤ s ∧ s ≤ N ∧ s ≠ p) :
    M ≤ count keyOrigin (fillers N p M) s := by
  have hsub : (List.range M).map (filler s) ⊆ fillers N p M := by
    intro k hk
    obtain ⟨j, hj, rfl⟩ := List.mem_map.mp hk
    exact mem_fillers.mpr ⟨s, h, j, List.mem_range.mp hj, rfl⟩
  have hnd : ((List.range M).map (filler s)).Nodup := by
    refine List.Nodup.map ?_ List.nodup_range
    intro j j' he
    exact decimal_injective (List.append_cancel_right (List.append_cancel_left he))
  have hall : ∀ k ∈ (List.range M).map (filler s), keyOrigin k = s := by
    intro k hk
    obtain ⟨j, -, rfl⟩ := List.mem_map.mp hk
    exact keyOrigin_messageKey (by omega) _
  have hcount := count_le_of_subset keyOrigin hnd hsub s
  rwa [count_of_all hall, List.length_map, List.length_range] at hcount

/-- What the clock of a deliverable message asks for is there once enough of the others is. -/
theorem Deliverable.ready {p i M : Nat} {k : Str} (hd : Deliverable N p i k)
    (hM : ∀ e ∈ (clockOf k).entries, e.2 ≤ M) {ds : List Str}
    (hds : ∀ m ∈ ds, keyOrigin m = p) (hlen : ds.length = i) :
    Ready keyOrigin (needFrom fun _ => 0) (fillers N p M ++ ds) k := by
  obtain ⟨w, hw, hall⟩ := hd
  have hclock : clockOf k = w := by
    rw [clockOf, hw]
    rfl
  rw [hclock] at hM
  intro z
  rw [needFrom, hclock, count_append, Int.sub_zero]
  cases hf : w.find? z with
  | none => exact Nat.zero_le _
  | some n =>
    have hin := OrderedMap.find?_eq_some.mp hf
    have hle : n ≤ M := hM _ hin
    rw [Option.getD_some]
    by_cases hpos : 0 < n
    · have hasks := hall _ hin hpos
      simp only at hasks
      split at hasks
      · rename_i hz
        rw [hz, count_of_all hds]
        omega
      · obtain ⟨s, rfl⟩ := Int.eq_ofNat_of_zero_le (show 0 ≤ z by omega)
        have := le_count_fillers hN (p := p) (M := M) (s := s) (by omega)
        omega
    · omega

section Messages
variable {p : Nat} (hp : 1 ≤ p ∧ p ≤ N) {keys : List Str}
  (hkeys : ∀ k ∈ keys, ∃ text, k = messageKey p text)
include hp hkeys

theorem orderly_fillers_append {M : Nat} (hnd : keys.Nodup)
    (hd : ∀ i k, keys[i]? = some k → Deliverable N p i k)
    (hM : ∀ k ∈ keys, ∀ e ∈ (clockOf k).entries, e.2 ≤ M) :
    Orderly keyOrigin (needFrom fun _ => 0) (fillers N p M ++ keys) := by
  -- message after message: those of `p` before it and `M` of each other process are its past
  have htake : ∀ n ≤ keys.length,
      Orderly keyOrigin (needFrom fun _ => 0) (fillers N p M ++ keys.take n) := by
    intro n hn
    induction n with
    | zero =>
      rw [List.take_zero, List.append_nil]
      intro past e rest hsplit
      have hdist := fillers_nodup hN p M
      rw [hsplit] at hdist
      have hin : e ∈ fillers N p M := by simp [hsplit]
      obtain ⟨s, hs, j, -, rfl⟩ := mem_fillers.mp hin
      refine ⟨fun hpast => ?_, filler_ready hN hs.2.1 j past⟩
      exact (List.nodup_append.mp hdist).2.2 _ hpast _ (by simp) rfl
    | succ n ih =>
      have hget : keys[n]? = some keys[n] := List.getElem?_eq_getElem hn
      have hin : keys[n] ∈ keys := List.getElem_mem hn
      rw [List.take_succ_eq_append_getElem hn, ← List.append_assoc]
      refine History.sound_snoc.mpr ⟨ih (by omega), fun hold => ?_, ?_⟩
      · rcases List.mem_append.mp hold with hold | hold
        · obtain ⟨s, hs, j, -, he⟩ := mem_fillers.mp hold
          obtain ⟨text, htext⟩ := hkeys _ hin
          exact hs.2.2 (messageKey_injective (by omega) (by omega) (he.symm.trans htext)).1
        · rw [← List.take_append_drop n keys] at hnd
          refine (List.nodup_append.mp hnd).2.2 _ hold keys[n] ?_ rfl
          rw [List.drop_eq_getElem_cons hn]
          exact List.mem_cons_self
      · refine (hd n _ hget).ready hN (hM _ hin) (fun m hm => ?_) (by rw [List.length_take]; omega)
        obtain ⟨text, rfl⟩ := hkeys m (List.mem_of_mem_take hm)
        exact keyOrigin_messageKey (by omega) text
  have hall := htake keys.length (Nat.le_refl _)
  rwa [List.take_length] at hall

/-- All messages of `p` can be delivered in order, each by itself deliverable, at a process that
delivers enough messages of the others before. -/
theorem exists_run_of_deliverable (hnd : keys.Nodup)
    (hd : ∀ i k, keys[i]? = some k → Deliverable N p i k) {l : Lcb} (hvc : l.vc = fun _ => 0)
    (h0 : l.pairs = .empty) : ∃ cs l' out, HandedUp N cs ∧ Lcb.run cs l = .ok (l', out) ∧
      keysFrom p out = keys := by
  obtain ⟨M, hM⟩ := exists_clock_bound keys
  have ho := orderly_fillers_append hN hp hkeys hnd hd hM
  have hknown : ∀ k ∈ fillers N p M ++ keys, ∃ s text, 1 ≤ s ∧ s ≤ N ∧ k = messageKey s text := by
    intro k hk
    rcases List.mem_append.mp hk with hk | hk
    · obtain ⟨s, hs, j, -, rfl⟩ := mem_fillers.mp hk
      exact ⟨s, _, hs.1, hs.2.1, rfl⟩
    · obtain ⟨text, rfl⟩ := hkeys k hk
      exact ⟨p, text, hp.1, hp.2, rfl⟩
  have hread : ∀ k ∈ fillers N p M ++ keys, Readable k := by
    intro k hk
    have hclock : ∃ w, (Lcb.vcString k >>= Lcb.constructVC) = .ok w := by
      rcases List.mem_append.mp hk with hk | hk
      · obtain ⟨s, hs, j, -, rfl⟩ := mem_fillers.mp hk
        exact ⟨_, clock_filler (by omega) j⟩
      · obtain ⟨i, hi⟩ := List.getElem?_of_mem hk
        obtain ⟨w, hw, -⟩ := hd i k hi
        exact ⟨w, hw⟩
    obtain ⟨w, hw⟩ := hclock
    obtain ⟨s, text, -, hs, rfl⟩ := hknown k hk
    exact readable_of_clock (by omega) hw
  obtain ⟨cs, l', out, hcs, hrun, hout, -⟩ :=
    Progress.inOrder (by rw [h0]; rfl) (by rw [hvc]; exact ho) hread
  refine ⟨cs, l', out, ⟨hcs ▸ ho.nodup, hcs ▸ hknown⟩, hrun, ?_⟩
  rw [keysFrom_eq hN hp.2 (hout ▸ hknown), hout, deliveriesFrom, List.filter_append]
  have hnone : (fillers N p M).filter (fun k => decide (keyOrigin k = p)) = [] := by
    refine List.filter_eq_nil_iff.mpr fun k hk => ?_
    obtain ⟨s, hs, j, -, rfl⟩ := mem_fillers.mp hk
    have horigin : keyOrigin (filler s j) = s := keyOrigin_messageKey (by omega) _
    simp [horigin, hs.2.2]
  have hall : keys.filter (fun k => decide (keyOrigin k = p)) = keys := by
    refine List.filter_eq_self.mpr fun k hk => ?_
    obtain ⟨text, rfl⟩ := hkeys k hk
    simpa using keyOrigin_messageKey (s := p) (by omega) text
  rw [hnone, hall, List.nil_append]

end Messages
end System
end DecentralizedBroadcast
