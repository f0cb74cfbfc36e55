import DecentralizedBroadcast.LcbThreads
import Mathlib.Data.List.Perm.Subperm

/-! What the clock of a broadcast covers. Each count it carries is at least the number
of deliveries in the log before the broadcast, unless one is logged while it is made. -/
set_option autoImplicit false

namespace DecentralizedBroadcast
namespace LcbThreads
open ClockedDelivery

theorem clockAt_clockText {es : List (Int × Int)} (h : ∀ e ∈ es, EntryFits e) (z : Int) :
    clockAt (clockText es) z = ((OrderedMap.ofEntries es).find? z).getD 0 := by
  rw [clockAt, constructVC_clockText h]
  rfl

theorem entryFits_snoc {es : List (Int × Int)} {e : Int × Int} (h : ∀ x ∈ es, EntryFits x)
    (he : EntryFits e) : ∀ x ∈ es ++ [e], EntryFits x := by
  intro x hx
  rcases List.mem_append.mp hx with hx | hx
  · exact h x hx
  · exact List.mem_singleton.mp hx ▸ he

theorem clockAt_snoc {es : List (Int × Int)} (h : ∀ e ∈ es, EntryFits e) {d n : Int}
    (hd : EntryFits (d, n)) (z : Int) :
    clockAt (clockText es ++ clockText [(d, n)]) z =
      if z = d then n else clockAt (clockText es) z := by
  rw [← clockText_append, clockAt_clockText (entryFits_snoc h hd), clockAt_clockText h,
    OrderedMap.ofEntries_snoc, OrderedMap.find?_insert]
  split <;> rfl

theorem deliveredFrom_mono {before log : List Str} (h : before <+: log) (z : Int) :
    deliveredFrom before z ≤ deliveredFrom log z := h.sublist.countP_le

theorem deliveredFrom_addMessageLog (log : List Str) (e : Str) (z : Int) :
    deliveredFrom (addMessageLog log e) z ≤ deliveredFrom log z + deliveredFrom [e] z := by
  unfold addMessageLog
  split
  · omega
  · simp only [deliveredFrom, List.countP_append]
    omega

theorem deliveredFrom_sentEntry (msg : Str) (z : Int) : deliveredFrom [sentEntry msg] z = 0 := by
  simp [deliveredFrom, sentEntry]

theorem deliveredFrom_deliveredLog {x : Nat} (hx : x ≤ 999) (b : Str) (z : Int) :
    deliveredFrom [deliveredLog x b] z = if (x : Int) = z then 1 else 0 := by
  have hid : (stoi (((deliveredLog x b).drop 1).take 3)).toOption = some (x : Int) := by
    rw [deliveredLog, List.drop_succ_cons, List.drop_zero, take_pad3 hx, stoi_pad3 hx]
    rfl
  have hhead : (deliveredLog x b).head? = some 'd' := rfl
  simp only [deliveredFrom, List.countP_cons, List.countP_nil, hid, hhead]
  simp

/-- What stood before an entry of a longer log stood in the shorter one. -/
theorem before_of_addMessageLog {log before after : List Str} {e x : Str}
    (h : addMessageLog log e = before ++ x :: after) : before <+: log := by
  unfold addMessageLog at h
  split at h
  · exact ⟨x :: after, h.symm⟩
  · have hb : before <+: log ++ [e] := ⟨x :: after, h.symm⟩
    have hlen : before.length ≤ log.length := by
      have := congrArg List.length h
      simp only [List.length_append, List.length_cons, List.length_nil] at this
      omega
    exact List.prefix_of_prefix_length_le hb (List.prefix_append _ _) hlen

theorem split_addMessageLog {log before after : List Str} {e x : Str} (hx : x ∈ log)
    (h : addMessageLog log e = before ++ x :: after) :
    ∃ after', log = before ++ x :: after' := by
  unfold addMessageLog at h
  split at h
  · exact ⟨after, h⟩
  · rename_i hnew
    rcases List.eq_nil_or_concat after with rfl | ⟨after', y, rfl⟩
    · obtain ⟨-, he⟩ := List.append_inj' h rfl
      exact absurd ((List.cons.inj he).1 ▸ hx) hnew
    · refine ⟨after', ?_⟩
      have h' : log ++ [e] = (before ++ x :: after') ++ [y] := by simpa using h
      exact (List.append_inj' h' rfl).1

theorem Covered.addMessageLog {dependencies : List Int} {s s' : State} {e : Str}
    (h : Covered dependencies s) (hb : s'.broadcasts = s.broadcasts)
    (hl : s'.processLog = addMessageLog s.processLog e) : Covered dependencies s' := by
  intro msg w hm
  rw [hb] at hm
  obtain ⟨hin, hcover⟩ := h msg w hm
  rw [hl]
  refine ⟨mem_addMessageLog.mpr (.inl hin), fun before after hs => ?_⟩
  obtain ⟨after', hs⟩ := split_addMessageLog hin hs
  exact hcover before after' hs

def Deliverer.todo : Deliverer → List Str
  | .idle => []
  | .walking rest | .counted _ rest | .logged _ rest => rest.map Prod.fst
  | .inferior message rest => message :: rest.map Prod.fst

/-- The message that is counted but still in `pairs`. -/
def Deliverer.counting : Deliverer → Option Str
  | .counted message _ | .logged message _ => some message
  | _ => none

/-- How many deliveries from `z` are counted but not in the log. -/
def Deliverer.unlogged (d : Deliverer) (z : Int) : Nat :=
  if d.logging.map keyOrigin = some z then 1 else 0

/-- The delivering thread's side: `ks` are the messages `VC` was incremented for, in order. -/
structure Deliveries (rank : Nat) (s : State) (ks : List Str) : Prop where
  nodup : ks.Nodup
  given : ∀ k ∈ ks, k ∈ s.fromUrb
  origin : ∀ k ∈ s.fromUrb, ∃ x text, x ≤ 999 ∧ k = messageKey x text ∧
    (x = rank → ∃ e ∈ s.toUrb, e.1 ++ e.2 = text)
  vc : ∀ z, s.lcb.vc z = count keyOrigin ks z
  vc_le : ∀ z, s.lcb.vc z ≤ intMax
  todo_nodup : s.deliverer.todo.Nodup
  todo : ∀ k ∈ s.deliverer.todo, k ∈ s.fromUrb ∧ k ∉ ks
  pairs : ∀ e ∈ s.lcb.pairs.entries,
    e.1 ∈ s.fromUrb ∧ (e.1 ∈ ks → s.deliverer.counting = some e.1)
  counting : ∀ k, s.deliverer.counting = some k → k ∈ ks
  log : ∀ z, deliveredFrom s.processLog z + s.deliverer.unlogged z ≤ count keyOrigin ks z

namespace Deliveries
variable {rank : Nat} {s s' : State} {ks : List Str}

theorem log_le_vc (h : Deliveries rank s ks) (z : Int) :
    (deliveredFrom s.processLog z : Int) ≤ s.lcb.vc z := by
  have := h.log z
  rw [h.vc]
  omega

/-- The log shows no more deliveries of the process's own messages than it gave to URB. -/
theorem own_le (h : Deliveries rank s ks) :
    deliveredFrom s.processLog rank ≤ s.toUrb.length := by
  have hsub : deliveriesFrom keyOrigin ks rank ⊆
      s.toUrb.map fun e => messageKey rank (e.1 ++ e.2) := by
    intro k hk
    obtain ⟨hk, ho⟩ := mem_deliveriesFrom.mp hk
    obtain ⟨x, text, hx, rfl, hown⟩ := h.origin k (h.given k hk)
    rw [keyOrigin_messageKey hx, Int.ofNat_inj] at ho
    subst ho
    obtain ⟨e, he, rfl⟩ := hown rfl
    exact List.mem_map.mpr ⟨e, he, rfl⟩
  have hle : count keyOrigin ks rank ≤ s.toUrb.length := by
    have := ((h.nodup.filter _).subperm hsub).length_le
    rwa [List.length_map] at this
  have := h.log rank
  omega

/-- A step of the broadcasting thread, seen from the other one. -/
theorem frame (h : Deliveries rank s ks) (hd : s'.deliverer = s.deliverer)
    (hf : s'.fromUrb = s.fromUrb) (hv : s'.lcb.vc = s.lcb.vc) (hp : s'.lcb.pairs = s.lcb.pairs)
    (ht : ∀ e ∈ s.toUrb, e ∈ s'.toUrb)
    (hl : ∀ z, deliveredFrom s'.processLog z ≤ deliveredFrom s.processLog z) :
    Deliveries rank s' ks := by
  constructor
  · exact h.nodup
  · rw [hf]; exact h.given
  · rw [hf]
    intro k hk
    obtain ⟨x, text, hx, hkey, hown⟩ := h.origin k hk
    refine ⟨x, text, hx, hkey, fun hr => ?_⟩
    obtain ⟨e, he, htext⟩ := hown hr
    exact ⟨e, ht e he, htext⟩
  · rw [hv]; exact h.vc
  · rw [hv]; exact h.vc_le
  · rw [hd]; exact h.todo_nodup
  · rw [hd, hf]; exact h.todo
  · rw [hd, hf, hp]; exact h.pairs
  · rw [hd]; exact h.counting
  · rw [hd]
    intro z
    have := h.log z
    have := hl z
    omega

theorem pass (h : Deliveries rank s ks) (hd : s.deliverer = .idle) :
    Deliveries rank { s with deliverer := .walking s.lcb.pairs.entries } ks := by
  have hnew : ∀ e ∈ s.lcb.pairs.entries, e.1 ∉ ks := by
    intro e he hk
    have := (h.pairs e he).2 hk
    simp [hd, Deliverer.counting] at this
  refine ⟨h.nodup, h.given, h.origin, h.vc, h.vc_le, s.lcb.pairs.nodup_keys, ?_,
    fun e he => ⟨(h.pairs e he).1, fun hk => absurd hk (hnew e he)⟩,
    by simp [Deliverer.counting], ?_⟩
  · intro k hk
    obtain ⟨e, he, rfl⟩ := List.mem_map.mp hk
    exact ⟨(h.pairs e he).1, hnew e he⟩
  · intro z
    have := h.log z
    simp only [hd, Deliverer.unlogged, Deliverer.logging] at this ⊢
    exact this

theorem walk (h : Deliveries rank s ks) {d : Deliverer}
    (hs : s.deliverer.counting = none) (hd : d.counting = none)
    (ht : d.todo.Sublist s.deliverer.todo) (hl : d.logging = none) :
    Deliveries rank { s with deliverer := d } ks := by
  refine ⟨h.nodup, h.given, h.origin, h.vc, h.vc_le, h.todo_nodup.sublist ht,
    fun k hk => h.todo k (ht.subset hk), fun e he => ⟨(h.pairs e he).1, fun hk => ?_⟩, ?_, ?_⟩
  · have := (h.pairs e he).2 hk
    rw [hs] at this
    cases this
  · intro k hk
    rw [hd] at hk
    cases hk
  · intro z
    have := h.log z
    simp only [Deliverer.unlogged, hl, Option.map_none, reduceCtorEq, if_false]
    omega

theorem count (h : Deliveries rank s ks) {message : Str} {rest : List (Str × VectorClock)}
    (hd : s.deliverer = .inferior message rest) {otherRank : Int}
    (ho : keyOrigin message = otherRank) (hmax : s.lcb.vc otherRank < intMax) :
    Deliveries rank { s with
      lcb := { s.lcb with vc := Function.update s.lcb.vc otherRank (s.lcb.vc otherRank + 1) }
      deliverer := .counted message rest } (ks ++ [message]) := by
  have hnodup := h.todo_nodup
  have htodo := h.todo
  have hpairs := h.pairs
  simp only [hd, Deliverer.todo, Deliverer.counting, List.nodup_cons] at hnodup htodo hpairs
  obtain ⟨hgiven, hnew⟩ := htodo message (by simp)
  constructor
  · rw [← List.concat_eq_append]
    exact h.nodup.concat hnew
  · intro k hk
    rcases List.mem_append.mp hk with hk | hk
    · exact h.given k hk
    · exact List.mem_singleton.mp hk ▸ hgiven
  · exact h.origin
  · intro z
    rw [count_snoc, ho]
    by_cases hz : z = otherRank
    · subst hz
      simp [h.vc]
    · simp [Function.update_of_ne hz, h.vc, Ne.symm hz]
  · intro z
    by_cases hz : z = otherRank
    · subst hz
      simp only [Function.update_self]
      omega
    · simpa only [Function.update_of_ne hz] using h.vc_le z
  · exact hnodup.2
  · intro k hk
    obtain ⟨hg, hk'⟩ := htodo k (List.mem_cons_of_mem _ hk)
    refine ⟨hg, fun hin => ?_⟩
    rcases List.mem_append.mp hin with hin | hin
    · exact hk' hin
    · exact hnodup.1 (List.mem_singleton.mp hin ▸ hk)
  · intro e he
    refine ⟨(hpairs e he).1, fun hin => ?_⟩
    rcases List.mem_append.mp hin with hin | hin
    · exact absurd ((hpairs e he).2 hin) (by simp)
    · exact congrArg some (List.mem_singleton.mp hin).symm
  · rintro k hk
    obtain rfl := Option.some.inj hk
    simp
  · intro z
    have := h.log z
    rw [count_snoc]
    simp only [hd, Deliverer.unlogged, Deliverer.logging, Option.map_none, Option.map_some,
      Option.some.injEq, reduceCtorEq, if_false] at this ⊢
    omega

theorem addLog (h : Deliveries rank s ks) {message : Str} {rest : List (Str × VectorClock)}
    (hd : s.deliverer = .counted message rest) {entry : Str}
    (he : Lcb.deliveredEntry message = .ok entry) :
    Deliveries rank { s with
      processLog := addMessageLog s.processLog entry, deliverer := .logged message rest } ks := by
  have hnodup := h.todo_nodup
  have htodo := h.todo
  have hpairs := h.pairs
  have hcounting := h.counting
  simp only [hd, Deliverer.todo, Deliverer.counting] at hnodup htodo hpairs hcounting
  refine ⟨h.nodup, h.given, h.origin, h.vc, h.vc_le, hnodup, htodo, hpairs, hcounting, ?_⟩
  obtain ⟨x, text, hx, rfl, -⟩ := h.origin message (h.given message (hcounting message rfl))
  rw [deliveredEntry_messageKey hx] at he
  obtain rfl := Except.ok.inj he
  intro z
  have hlog := h.log z
  have hadd := deliveredFrom_addMessageLog s.processLog (deliveredLog x (Lcb.withoutClock text)) z
  rw [deliveredFrom_deliveredLog hx] at hadd
  simp only [hd, Deliverer.unlogged, Deliverer.logging, Option.map_some, Option.map_none,
    keyOrigin_messageKey hx, Option.some.injEq, reduceCtorEq, if_false] at hlog ⊢
  omega

theorem erase (h : Deliveries rank s ks) {message : Str} {rest : List (Str × VectorClock)}
    (hd : s.deliverer = .logged message rest) :
    Deliveries rank { s with
      lcb := { s.lcb with pairs := s.lcb.pairs.erase message }
      deliverer := .walking rest } ks := by
  have hnodup := h.todo_nodup
  have htodo := h.todo
  have hpairs := h.pairs
  have hlog := h.log
  simp only [hd, Deliverer.todo, Deliverer.counting, Deliverer.unlogged,
    Deliverer.logging] at hnodup htodo hpairs hlog
  refine ⟨h.nodup, h.given, h.origin, h.vc, h.vc_le, hnodup, htodo, fun e he => ?_,
    by simp [Deliverer.counting], hlog⟩
  obtain ⟨he, hne⟩ := OrderedMap.mem_erase.mp he
  refine ⟨(hpairs e he).1, fun hk => ?_⟩
  exact absurd (Option.some.inj ((hpairs e he).2 hk)).symm hne

theorem keyOrigin_of_stoi {message : Str} {otherRank : Int}
    (h : substr message 0 3 >>= stoi = .ok otherRank) : keyOrigin message = otherRank := by
  obtain ⟨t, ht, h⟩ := bind_eq_ok.mp h
  obtain ⟨-, rfl⟩ := substr_eq_ok.mp ht
  rw [keyOrigin, ← List.drop_zero (l := message), h]
  rfl

theorem delivererStep (h : Deliveries rank s ks) (hs : LcbThreads.delivererStep s = some s') :
    ∃ ks', Deliveries rank s' ks' := by
  unfold LcbThreads.delivererStep at hs
  split at hs
  · rename_i hd
    simp only [Option.ite_none_right_eq_some] at hs
    obtain rfl := Option.some.inj hs.2
    exact ⟨ks, h.pass hd⟩
  · rename_i hd
    obtain rfl := Option.some.inj hs
    exact ⟨ks, h.walk (by rw [hd]; rfl) rfl (by simp [Deliverer.todo]) rfl⟩
  · rename_i message w rest hd
    split at hs <;> obtain rfl := Option.some.inj hs
    · exact ⟨ks, h.walk (by rw [hd]; rfl) rfl (by simp [hd, Deliverer.todo]) rfl⟩
    · exact ⟨ks, h.walk (by rw [hd]; rfl) rfl (by simp [hd, Deliverer.todo]) rfl⟩
  · rename_i message rest hd
    obtain ⟨otherRank, ho, hs⟩ := Option.bind_eq_some_iff.mp hs
    simp only [Option.ite_none_right_eq_some] at hs
    obtain ⟨hmax, hs⟩ := hs
    obtain rfl := Option.some.inj hs
    exact ⟨_, h.count hd (keyOrigin_of_stoi (toOption_eq_some.mp ho)) hmax⟩
  · rename_i message rest hd
    obtain ⟨entry, he, hs⟩ := Option.bind_eq_some_iff.mp hs
    obtain rfl := Option.some.inj hs
    exact ⟨ks, h.addLog hd (toOption_eq_some.mp he)⟩
  · rename_i message rest hd
    obtain rfl := Option.some.inj hs
    exact ⟨ks, h.erase hd⟩

theorem urbDeliver (h : Deliveries rank s ks) {x : Nat} {text : Str}
    (hs : LcbThreads.urbDeliver rank s x text = some s') : Deliveries rank s' ks := by
  unfold LcbThreads.urbDeliver at hs
  split at hs
  · rename_i hd
    simp only [Option.ite_none_right_eq_some] at hs
    obtain ⟨⟨hx, hnew, hown⟩, hs⟩ := hs
    obtain ⟨lcb, hl, hs⟩ := Option.bind_eq_some_iff.mp hs
    obtain rfl := Option.some.inj hs
    have hnone : s.lcb.pairs.find? (messageKey x text) = none :=
      OrderedMap.find?_eq_none.mpr fun e he hk => hnew (hk ▸ (h.pairs e he).1)
    obtain rfl := lcbDeliver_ok hnone (toOption_eq_some.mp hl)
    have hmem : ∀ k, k ∈ s.fromUrb → k ∈ s.fromUrb ++ [messageKey x text] :=
      fun k hk => List.mem_append_left _ hk
    refine ⟨h.nodup, fun k hk => hmem k (h.given k hk), fun k hk => ?_, h.vc, h.vc_le,
      h.todo_nodup, fun k hk => ⟨hmem k (h.todo k hk).1, (h.todo k hk).2⟩, fun e he => ?_,
      h.counting, h.log⟩
    · rcases List.mem_append.mp hk with hk | hk
      · exact h.origin k hk
      · exact ⟨x, text, hx, List.mem_singleton.mp hk, hown⟩
    · rcases OrderedMap.mem_insert.mp he with rfl | ⟨he, -⟩
      · exact ⟨by simp, fun hk => absurd (h.given _ hk) hnew⟩
      · exact ⟨hmem _ (h.pairs e he).1, (h.pairs e he).2⟩
  · cases hs

end Deliveries

def Broadcaster.busy : Broadcaster → Nat
  | .idle => 0
  | _ => 1

def Broadcaster.numbered : Broadcaster → Nat
  | .counted _ _ | .logged _ _ => 1
  | _ => 0

/-- The broadcasting thread's side. `read` is where a delivery can break it. -/
structure Broadcasts (rank : Nat) (dependencies : List Int) (s : State) : Prop where
  lsn : s.lcb.lsn = s.toUrb.length + s.broadcaster.numbered
  left : ((s.toUrb.length + s.broadcaster.busy + s.unsent.length : Nat) : Int) ≤ intMax
  text : ∀ msg w remaining, s.broadcaster = .reading msg w remaining →
    ∃ es, (∀ e ∈ es, EntryFits e) ∧ w = clockText es
  own : ∀ msg w, s.broadcaster = .counted msg w → clockAt w rank = s.toUrb.length
  read : ∀ z ∈ dependencies, z ≠ rank → ∀ w ∈ s.broadcaster.clockRead z,
    (deliveredFrom s.processLog z : Int) ≤ clockAt w z
  covered : Covered dependencies s

theorem deliver_lsn {l l' : Lcb} {k : Str} (h : l.deliver k = .ok l') : l'.lsn = l.lsn := by
  simp only [Lcb.deliver] at h
  split at h
  · simp only [bind_eq_ok] at h
    obtain ⟨t, -, w, -, h⟩ := h
    obtain rfl := Except.ok.inj h
    rfl
  · obtain rfl := Except.ok.inj h
    rfl

namespace Broadcasts
variable {rank : Nat} {dependencies : List Int} {s s' : State} {ks : List Str}

/-- A step of the delivering thread, seen from the other one. -/
theorem frame (h : Broadcasts rank dependencies s) (hl : s'.lcb.lsn = s.lcb.lsn)
    (ht : s'.toUrb = s.toUrb) (hu : s'.unsent = s.unsent) (hb : s'.broadcaster = s.broadcaster)
    (hr : ∀ z ∈ dependencies, z ≠ rank → ∀ w ∈ s.broadcaster.clockRead z,
      (deliveredFrom s'.processLog z : Int) ≤ clockAt w z)
    (hc : Covered dependencies s') : Broadcasts rank dependencies s' := by
  constructor
  · rw [hl, ht, hb]; exact h.lsn
  · rw [ht, hb, hu]; exact h.left
  · rw [hb]; exact h.text
  · rw [hb, ht]; exact h.own
  · rw [hb]; exact hr
  · exact hc

theorem start (h : Broadcasts rank dependencies s) (hb : s.broadcaster = .idle) {msg : Str}
    {rest : List Str} (hu : s.unsent = msg :: rest) :
    Broadcasts rank dependencies { s with
      unsent := rest, broadcaster := .reading msg [] dependencies } := by
  have hlsn := h.lsn
  have hleft := h.left
  simp only [hb, hu, Broadcaster.numbered, Broadcaster.busy, List.length_cons] at hlsn hleft
  refine ⟨hlsn, ?_, ?_, by simp, ?_, ?_⟩
  · simp only [Broadcaster.busy]
    omega
  · intro msg' w remaining he
    obtain ⟨-, rfl, -⟩ := Broadcaster.reading.inj he
    exact ⟨[], by simp, rfl⟩
  · intro z hz hne w hw
    simp [Broadcaster.clockRead, hz] at hw
  · have hc := h.covered
    simpa [Covered, State.broadcasts, hb] using hc

theorem readDependency (h : Broadcasts rank dependencies s) (hd : Deliveries rank s ks)
    {msg w entry : Str} {otherRank : Int} {remaining : List Int}
    (hb : s.broadcaster = .reading msg w (otherRank :: remaining))
    (he : Lcb.clockEntry otherRank (s.lcb.vc otherRank) = .ok entry) :
    Broadcasts rank dependencies { s with broadcaster := .reading msg (w ++ entry) remaining } := by
  obtain ⟨es, hes, rfl⟩ := h.text msg w _ hb
  obtain ⟨hid, rfl⟩ := clockEntry_ok he
  have hfits : EntryFits (otherRank, s.lcb.vc otherRank) :=
    ⟨hid, by simp [hd.vc], hd.vc_le otherRank⟩
  have hlsn := h.lsn
  have hleft := h.left
  simp only [hb, Broadcaster.numbered, Broadcaster.busy] at hlsn hleft
  refine ⟨hlsn, hleft, ?_, by simp, ?_, ?_⟩
  · intro msg' w' remaining' he
    obtain ⟨-, rfl, -⟩ := Broadcaster.reading.inj he
    exact ⟨es ++ [(otherRank, s.lcb.vc otherRank)], entryFits_snoc hes hfits,
      (clockText_append _ _).symm⟩
  · intro z hz hne w' hw'
    simp only [Broadcaster.clockRead, Option.mem_def, Option.ite_none_left_eq_some] at hw'
    obtain ⟨hrem, hw'⟩ := hw'
    obtain rfl := Option.some.inj hw'
    rw [clockAt_snoc hes hfits]
    split
    · rename_i ho
      exact ho ▸ hd.log_le_vc z
    · rename_i ho
      exact h.read z hz hne _ (by simp [hb, Broadcaster.clockRead, hrem, ho])
  · have hc := h.covered
    simpa [Covered, State.broadcasts, hb] using hc

theorem readLsn (h : Broadcasts rank dependencies s) {msg w own : Str}
    (hb : s.broadcaster = .reading msg w [])
    (he : Lcb.clockEntry rank s.lcb.lsn = .ok own) :
    Broadcasts rank dependencies { s with
      lcb := { s.lcb with lsn := s.lcb.lsn + 1 }, broadcaster := .counted msg (w ++ own) } := by
  obtain ⟨es, hes, rfl⟩ := h.text msg w _ hb
  obtain ⟨hid, rfl⟩ := clockEntry_ok he
  have hlsn := h.lsn
  have hleft := h.left
  simp only [hb, Broadcaster.numbered, Broadcaster.busy] at hlsn hleft
  have hfits : EntryFits ((rank : Int), (s.lcb.lsn : Int)) := ⟨hid, by simp, by simp only; omega⟩
  refine ⟨by simp [hlsn, Broadcaster.numbered], hleft, by simp, ?_, ?_, ?_⟩
  · intro msg' w' he
    obtain ⟨-, rfl⟩ := Broadcaster.counted.inj he
    rw [clockAt_snoc hes hfits, if_pos rfl, hlsn]
    rfl
  · intro z hz hne w' hw'
    obtain rfl := Option.some.inj hw'
    rw [clockAt_snoc hes hfits, if_neg hne]
    exact h.read z hz hne _ (by simp [hb, Broadcaster.clockRead])
  · have hc := h.covered
    simpa [Covered, State.broadcasts, hb] using hc

theorem addLog (h : Broadcasts rank dependencies s) (hd : Deliveries rank s ks) {msg w : Str}
    (hb : s.broadcaster = .counted msg w) :
    Broadcasts rank dependencies { s with
      processLog := addMessageLog s.processLog (sentEntry msg), broadcaster := .logged msg w } := by
  have hlsn := h.lsn
  have hleft := h.left
  simp only [hb, Broadcaster.numbered, Broadcaster.busy] at hlsn hleft
  refine ⟨hlsn, hleft, by simp, by simp, by simp [Broadcaster.clockRead], ?_⟩
  intro msg' w' hm
  rcases List.mem_append.mp hm with hm | hm
  · have hold : (msg', w') ∈ s.broadcasts := by simpa [State.broadcasts, hb] using hm
    have hlog : Covered dependencies { s with
        processLog := addMessageLog s.processLog (sentEntry msg) } :=
      h.covered.addMessageLog rfl rfl
    exact hlog msg' w' hold
  · obtain ⟨rfl, rfl⟩ := Prod.mk.inj (List.mem_singleton.mp hm)
    refine ⟨mem_addMessageLog.mpr (.inr rfl), fun before after hs z hz => ?_⟩
    have hbefore := deliveredFrom_mono (before_of_addMessageLog hs) z
    by_cases hr : z = rank
    · subst hr
      have := hd.own_le
      rw [h.own msg' w' hb]
      omega
    · have := h.read z hz hr w' (by simp [hb, Broadcaster.clockRead])
      omega

theorem giveToUrb (h : Broadcasts rank dependencies s) {msg w : Str}
    (hb : s.broadcaster = .logged msg w) :
    Broadcasts rank dependencies { s with
      toUrb := s.toUrb ++ [(msg, w)], broadcaster := .idle } := by
  have hlsn := h.lsn
  have hleft := h.left
  simp only [hb, Broadcaster.numbered, Broadcaster.busy] at hlsn hleft
  refine ⟨by simp [hlsn, Broadcaster.numbered], ?_, by simp, by simp,
    by simp [Broadcaster.clockRead], ?_⟩
  · simp only [List.length_append, List.length_singleton, Broadcaster.busy]
    omega
  · have hc := h.covered
    simpa [Covered, State.broadcasts, hb] using hc

theorem broadcasterStep (h : Broadcasts rank dependencies s) (hd : Deliveries rank s ks)
    (hs : LcbThreads.broadcasterStep rank dependencies s = some s') :
    Broadcasts rank dependencies s' ∧ Deliveries rank s' ks := by
  unfold LcbThreads.broadcasterStep at hs
  split at hs
  · rename_i hb
    split at hs
    · cases hs
    · rename_i msg rest hu
      obtain rfl := Option.some.inj hs
      exact ⟨h.start hb hu, hd.frame rfl rfl rfl rfl (fun _ => id) fun _ => le_rfl⟩
  · rename_i msg w otherRank remaining hb
    obtain ⟨entry, he, hs⟩ := Option.bind_eq_some_iff.mp hs
    obtain rfl := Option.some.inj hs
    exact ⟨h.readDependency hd hb (toOption_eq_some.mp he),
      hd.frame rfl rfl rfl rfl (fun _ => id) fun _ => le_rfl⟩
  · rename_i msg w hb
    obtain ⟨own, he, hs⟩ := Option.bind_eq_some_iff.mp hs
    obtain rfl := Option.some.inj hs
    exact ⟨h.readLsn hb (toOption_eq_some.mp he),
      hd.frame rfl rfl rfl rfl (fun _ => id) fun _ => le_rfl⟩
  · rename_i msg w hb
    obtain rfl := Option.some.inj hs
    refine ⟨h.addLog hd hb, hd.frame rfl rfl rfl rfl (fun _ => id) fun z => ?_⟩
    have := deliveredFrom_addMessageLog s.processLog (sentEntry msg) z
    rwa [deliveredFrom_sentEntry] at this
  · rename_i msg w hb
    obtain rfl := Option.some.inj hs
    exact ⟨h.giveToUrb hb,
      hd.frame rfl rfl rfl rfl (fun _ => List.mem_append_left _) fun _ => le_rfl⟩

/-- The only step of the delivering thread that adds to the log. -/
theorem logDelivery (h : Broadcasts rank dependencies s) (hd : Deliveries rank s ks)
    (ha : NoRace rank dependencies s .deliverer) {message entry : Str}
    {rest : List (Str × VectorClock)} (hs : s.deliverer = .counted message rest)
    (he : Lcb.deliveredEntry message = .ok entry) :
    Broadcasts rank dependencies { s with
      processLog := addMessageLog s.processLog entry, deliverer := .logged message rest } := by
  refine h.frame rfl rfl rfl rfl (fun z hz hne w hw => ?_) (h.covered.addMessageLog rfl rfl)
  have hafter := (hd.addLog hs he).log_le_vc z
  by_cases ho : keyOrigin message = z
  · subst ho
    have := ha message (by simp [hs, Deliverer.logging]) w hw hz hne
    exact le_trans hafter this
  · obtain ⟨x, text, hx, rfl, -⟩ := hd.origin message
      (hd.given message (hd.counting message (by simp [hs, Deliverer.counting])))
    rw [deliveredEntry_messageKey hx] at he
    obtain rfl := Except.ok.inj he
    rw [keyOrigin_messageKey hx] at ho
    have hadd := deliveredFrom_addMessageLog s.processLog (deliveredLog x (Lcb.withoutClock text)) z
    rw [deliveredFrom_deliveredLog hx, if_neg ho] at hadd
    have := h.read z hz hne w hw
    simp only at hafter ⊢
    omega

theorem delivererStep (h : Broadcasts rank dependencies s) (hd : Deliveries rank s ks)
    (ha : NoRace rank dependencies s .deliverer) (hs : LcbThreads.delivererStep s = some s') :
    Broadcasts rank dependencies s' := by
  unfold LcbThreads.delivererStep at hs
  split at hs
  · simp only [Option.ite_none_right_eq_some] at hs
    obtain rfl := Option.some.inj hs.2
    exact h.frame rfl rfl rfl rfl h.read h.covered
  · obtain rfl := Option.some.inj hs
    exact h.frame rfl rfl rfl rfl h.read h.covered
  · split at hs <;> obtain rfl := Option.some.inj hs
    · exact h.frame rfl rfl rfl rfl h.read h.covered
    · exact h.frame rfl rfl rfl rfl h.read h.covered
  · obtain ⟨otherRank, -, hs⟩ := Option.bind_eq_some_iff.mp hs
    simp only [Option.ite_none_right_eq_some] at hs
    obtain rfl := Option.some.inj hs.2
    exact h.frame rfl rfl rfl rfl h.read h.covered
  · rename_i message rest hp
    obtain ⟨entry, he, hs⟩ := Option.bind_eq_some_iff.mp hs
    obtain rfl := Option.some.inj hs
    exact h.logDelivery hd ha hp (toOption_eq_some.mp he)
  · obtain rfl := Option.some.inj hs
    exact h.frame rfl rfl rfl rfl h.read h.covered

theorem urbDeliver (h : Broadcasts rank dependencies s) {x : Nat} {text : Str}
    (hs : LcbThreads.urbDeliver rank s x text = some s') : Broadcasts rank dependencies s' := by
  unfold LcbThreads.urbDeliver at hs
  split at hs
  · simp only [Option.ite_none_right_eq_some] at hs
    obtain ⟨-, hs⟩ := hs
    obtain ⟨lcb, hl, hs⟩ := Option.bind_eq_some_iff.mp hs
    obtain rfl := Option.some.inj hs
    have hlsn : lcb.lsn = s.lcb.lsn := deliver_lsn (toOption_eq_some.mp hl)
    exact h.frame hlsn rfl rfl rfl h.read h.covered
  · cases hs

end Broadcasts

structure Inv (rank : Nat) (dependencies : List Int) (s : State) : Prop where
  deliveries : ∃ ks, Deliveries rank s ks
  broadcasts : Broadcasts rank dependencies s

theorem Inv.start (cfg : Config) (rank : Nat) :
    Inv rank (cfg.localizedIds rank) (machine cfg rank).init := by
  refine ⟨⟨[], ?_⟩, ?_⟩
  · constructor <;> simp [machine, Deliverer.todo, Deliverer.counting, Deliverer.unlogged,
      Deliverer.logging, deliveredFrom, count, intMax]
  · have hm := mainBatches_length_le (cfg.m rank)
    have hle := cfg.m_le rank
    refine ⟨rfl, ?_, ?_, ?_, ?_, ?_⟩
    · simp only [machine, Broadcaster.busy, List.length_nil, intMax]
      omega
    · simp [machine]
    · simp [machine]
    · simp [machine, Broadcaster.clockRead]
    · simp [machine, Covered, State.broadcasts]

theorem Inv.step {rank : Nat} {dependencies : List Int} {s s' : State} {a : Action}
    (h : Inv rank dependencies s) (ha : NoRace rank dependencies s a)
    (hs : LcbThreads.step rank dependencies s a = some s') : Inv rank dependencies s' := by
  obtain ⟨⟨ks, hd⟩, hb⟩ := h
  cases a with
  | broadcaster =>
    obtain ⟨hb', hd'⟩ := hb.broadcasterStep hd hs
    exact ⟨⟨ks, hd'⟩, hb'⟩
  | deliverer => exact ⟨hd.delivererStep hs, hb.delivererStep hd ha hs⟩
  | urbDeliver x text => exact ⟨⟨ks, hd.urbDeliver hs⟩, hb.urbDeliver hs⟩

/-- The log shows before a broadcast no more than the clock of the broadcast asks for, if no
delivery that the broadcast did not read is logged while the broadcast is made. -/
theorem clock_covers_log (cfg : Config) (rank : Nat) (s : State)
    (h : (machine cfg rank).ReachableBy (NoRace rank (cfg.localizedIds rank)) s) :
    Covered (cfg.localizedIds rank) s :=
  (h.invariant (Inv rank (cfg.localizedIds rank)) (Inv.start cfg rank)
    fun _ _ _ hi ha hs => hi.step ha hs).broadcasts.covered

def deliveredFirst : List Action :=
  .urbDeliver 1 trioFirst :: (List.replicate 6 .deliverer ++ List.replicate 5 .broadcaster)

theorem clock_covers_log_deliveredFirst :
    (((machine trio 2).afterBy (NoRace 2 [1]) deliveredFirst).processLog =
      [deliveredLog 1 ['0', '1', '1'], sentEntry ['0', '1', '1']]) ∧
    Covered [1] ((machine trio 2).afterBy (NoRace 2 [1]) deliveredFirst) :=
  ⟨by decide, clock_covers_log trio 2 _ (Machine.reachableBy_after _ _ _)⟩

/-- It reads its count of the first process before the delivery and is logged behind it. -/
def readBefore : List Action :=
  [.broadcaster, .broadcaster, .urbDeliver 1 trioFirst] ++
    (List.replicate 4 .deliverer ++ List.replicate 3 .broadcaster)

theorem log_ahead_readBefore : ¬ ∀ (cfg : Config) (rank : Nat) (s : State),
    (machine cfg rank).Reachable s → Covered (cfg.localizedIds rank) s := by
  intro h
  have hc := h trio 2 _ (Machine.reachable_after _ readBefore)
  have hgiven : ((machine trio 2).after readBefore).toUrb =
      [(['0', '1', '1'], ['v', '0', '0', '1', '0', 'v', '0', '0', '2', '0'])] := by decide
  have hidle : ((machine trio 2).after readBefore).broadcasts =
      ((machine trio 2).after readBefore).toUrb := by decide
  obtain ⟨-, hc⟩ := hc _ _ (by rw [hidle, hgiven]; exact List.mem_singleton_self _)
  have hlog : ((machine trio 2).after readBefore).processLog =
      [deliveredLog 1 ['0', '1', '1'], sentEntry ['0', '1', '1']] := by decide
  exact absurd (hc [deliveredLog 1 ['0', '1', '1']] [] hlog 1 (by decide)) (by decide)

end LcbThreads
end DecentralizedBroadcast
