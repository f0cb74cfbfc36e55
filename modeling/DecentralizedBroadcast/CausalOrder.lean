import DecentralizedBroadcast.StackInvariant
import DecentralizedBroadcast.LcbCalls

/-! Localized causal order: what must precede a message, that deliveries respect it,
and that nothing else ever holds a message back. -/
set_option autoImplicit false

namespace DecentralizedBroadcast
open History ClockedDelivery

/-- `k'` directly precedes `k`: the origin of `k` had broadcast `k'`, or had delivered it and
depends on its sender, when it broadcast `k`. -/
inductive DirectPast (cfg : Config) (tr : List Event) (k' k : Str) : Prop where
  | sameOrigin {x : Nat} {text text' : Str} {past rest : List Event}
      (htr : tr = past ++ ⟨.broadcast, x, text⟩ :: rest) (key : k = messageKey x text)
      (earlier : text' ∈ said .broadcast x past) (key' : k' = messageKey x text')
  | dependency {x : Nat} {text : Str} {past rest : List Event}
      (htr : tr = past ++ ⟨.broadcast, x, text⟩ :: rest) (key : k = messageKey x text)
      (delivered : k' ∈ said .lcbDeliver x past) (dep : keyOrigin k' ∈ cfg.localizedIds x)

section Sound
variable {cfg : Config} {tr : List Event} (h : Sound (EventOk cfg) tr)
include h

theorem lcbDeliver_mem_iff (y : Nat) {k : Str} (hk : Known tr k) :
    k ∈ said .lcbDeliver y tr ↔
      number keyOrigin need k < count keyOrigin (said .lcbDeliver y tr) (keyOrigin k) :=
  (orderly h y).mem_iff (known_unique h) (fun _ hx => lcbDeliver_known h hx) hk

/-- The clock of a message asks for everything in its direct past. -/
theorem DirectPast.covers {k' k : Str} (hd : DirectPast cfg tr k' k) :
    k' ∈ {k | Known tr k} ∧ number keyOrigin need k' < need k (keyOrigin k') := by
  cases hd with
  | @sameOrigin x text text' past rest htr key earlier key' =>
    subst htr key key'
    obtain ⟨msg, ho⟩ := (h past _ rest rfl).origin
    obtain ⟨i, hi⟩ := List.getElem?_of_mem earlier
    refine ⟨⟨x, text', by simp [earlier], rfl⟩, ?_⟩
    rw [number_broadcast h.past hi, keyOrigin_messageKey ho.fits, ho.need h.past, if_pos rfl]
    exact (List.getElem?_eq_some_iff.mp hi).1
  | @dependency x text past rest htr key delivered dep =>
    subst htr key
    obtain ⟨msg, ho⟩ := (h past _ rest rfl).origin
    have hk := lcbDeliver_known h.past delivered
    refine ⟨hk.append _, ?_⟩
    rw [ho.need h.past]
    split
    · -- a message of its own that came back to it
      rename_i hx
      obtain ⟨s, text', ht', rfl⟩ := hk
      rw [keyOrigin_messageKey (broadcast_fits h.past ht').2.2, Int.ofNat_inj] at hx
      subst hx
      obtain ⟨i, hi⟩ := List.getElem?_of_mem ht'
      rw [number_broadcast h.past hi]
      exact (List.getElem?_eq_some_iff.mp hi).1
    · exact (lcbDeliver_mem_iff h.past x hk).mp delivered

/-- The clock of a message asks for nothing else. -/
theorem directPast_complete (k : Str) (hk : k ∈ {k | Known tr k}) (z : Int) (n : Nat)
    (hn : n < need k z) : ∃ k' ∈ {k | Known tr k}, DirectPast cfg tr k' k ∧ keyOrigin k' = z ∧
      number keyOrigin need k' = n := by
  obtain ⟨x, text, ht, rfl⟩ := hk
  obtain ⟨past, rest, msg, rfl, ho⟩ := broadcast_origin h ht
  rw [ho.need h.past] at hn
  split at hn
  · rename_i hz
    have hi := List.getElem?_eq_getElem hn
    have hmem := List.mem_of_getElem? hi
    refine ⟨_, ⟨x, _, by simp [hmem], rfl⟩, .sameOrigin rfl rfl hmem rfl, ?_, ?_⟩
    · rw [keyOrigin_messageKey ho.fits, hz]
    · exact number_broadcast h.past hi
  · split at hn
    · rename_i hz hd
      have hnum := (orderly h.past x).numbers (known_unique h.past)
        (fun _ hx => lcbDeliver_known h.past hx) z
      rw [← List.mem_range, ← hnum] at hn
      obtain ⟨k', hk', rfl⟩ := List.mem_map.mp hn
      obtain ⟨hin, hzo⟩ := mem_deliveriesFrom.mp hk'
      exact ⟨k', (lcbDeliver_known h.past hin).append _, .dependency rfl rfl hin (hzo ▸ hd), hzo,
        rfl⟩
    · omega

/-- The measure of a key is how much had happened when its message was broadcast. -/
theorem directPast_wf : WellFounded (DirectPast cfg tr) := by
  classical
  set isKey : Str → Event → Bool := fun k e =>
    decide (e.kind = .broadcast ∧ messageKey e.proc e.text = k)
  have birth : ∀ past rest x text, tr = past ++ ⟨.broadcast, x, text⟩ :: rest →
      tr.findIdx (isKey (messageKey x text)) = past.length := by
    intro past rest x text htr
    have hnew : ∀ e ∈ past, isKey (messageKey x text) e = false := by
      rintro ⟨kind, p, text'⟩ he
      simp only [isKey, decide_eq_false_iff_not, not_and]
      rintro rfl hkey
      have hin : ⟨.broadcast, p, text'⟩ ∈ tr := by simp [htr, he]
      have hp := (broadcast_fits h (mem_said.mpr hin)).2.2
      have hx := (broadcast_fits h (mem_said.mpr (by simp [htr] : ⟨.broadcast, x, text⟩ ∈ tr))).2.2
      obtain ⟨rfl, rfl⟩ := messageKey_injective hp hx hkey
      have hnd := broadcast_nodup h p
      rw [htr, said_append, ← List.singleton_append, said_append, said_singleton] at hnd
      simp only [and_self, if_true] at hnd
      exact (List.nodup_append.mp hnd).2.2 text' (mem_said.mpr he) text' (by simp) rfl
    rw [htr, List.findIdx_append, List.findIdx_eq_length.mpr hnew, List.findIdx_cons]
    simp [isKey]
  refine Subrelation.wf ?_ (measure fun k => tr.findIdx (isKey k)).wf
  intro k' k hd
  have before : ∀ past rest x text, tr = past ++ ⟨.broadcast, x, text⟩ :: rest →
      k = messageKey x text → Known past k' →
      tr.findIdx (isKey k') < tr.findIdx (isKey k) := by
    rintro past rest x text htr rfl ⟨s, text', ht', rfl⟩
    obtain ⟨past₁, rest₁, htr₁⟩ := List.append_of_mem (mem_said.mp ht')
    rw [birth past rest x text htr,
      birth past₁ (rest₁ ++ ⟨.broadcast, x, text⟩ :: rest) s text' (by simp [htr, htr₁]), htr₁]
    simp
  cases hd with
  | sameOrigin htr key earlier key' => exact before _ _ _ _ htr key ⟨_, _, earlier, key'⟩
  | dependency htr key delivered dep =>
    exact before _ _ _ _ htr key (lcbDeliver_known (htr ▸ h).past delivered)

end Sound

/-- Localized causal order: when `y` delivers a message, everything in its localized causal
past was delivered by `y` before. -/
theorem localized_causal_order (cfg : Config) (s : Sys) (h : (stack cfg).Reachable s) (y : Nat)
    (k : Str) (before after : List Str) (hk : said .lcbDeliver y s.trace = before ++ k :: after)
    (k' : Str) (hpast : Relation.TransGen (DirectPast cfg s.trace) k' k) : k' ∈ before := by
  have hs := (stackInv_reachable h).sound
  exact (orderly hs y).causal (known_unique hs) (fun _ _ hd => hd.covers hs)
    (fun _ hx => lcbDeliver_known hs hx) hpast hk

/-- The third process delivers the message of the second, whose clock asks for that of the first. -/
theorem localized_causal_order_trio :
    said .lcbDeliver 3 ((stack trio).after trioDelivered).trace =
      [messageKey 1 trioFirst, messageKey 2 trioSecond] ∧
    DirectPast trio ((stack trio).after trioDelivered).trace (messageKey 1 trioFirst)
      (messageKey 2 trioSecond) ∧
    messageKey 1 trioFirst ∈ [messageKey 1 trioFirst] := by
  have hsaid : said .lcbDeliver 3 ((stack trio).after trioDelivered).trace =
      [messageKey 1 trioFirst, messageKey 2 trioSecond] := by decide
  have hpast : DirectPast trio ((stack trio).after trioDelivered).trace (messageKey 1 trioFirst)
      (messageKey 2 trioSecond) :=
    @DirectPast.dependency _ _ _ _ 2 trioSecond
      (((stack trio).after trioDelivered).trace.take 9)
      (((stack trio).after trioDelivered).trace.drop 10) (by decide) rfl (by decide) (by decide)
  exact ⟨hsaid, hpast, localized_causal_order trio _ ((stack trio).reachable_after trioDelivered) 3
    (messageKey 2 trioSecond) [messageKey 1 trioFirst] [] hsaid _ (.single hpast)⟩

theorem lcbDeliverPending_of_notReady {q : Process}
    (h : ∀ e ∈ q.lcb.pairs.entries, Lcb.isInferior q.lcb.vc e.2 = false) :
    q.lcbDeliverPending = .ok (q, []) := by
  have hloop : ∀ (es : List (Str × VectorClock)) (l : Lcb),
      (∀ e ∈ es, Lcb.isInferior l.vc e.2 = false) → Lcb.deliverLoop es l = .ok (l, []) := by
    intro es l hes
    induction es with
    | nil => rfl
    | cons e es ih =>
      rw [Lcb.deliverLoop, if_neg (by simp [hes e (by simp)])]
      exact ih fun x hx => hes x (by simp [hx])
  rw [Process.lcbDeliverPending, Lcb.deliverPending, hloop _ _ h]
  rfl

theorem Reflects.deliversNothing {cfg : Config} {tr : List Event} {p : Nat} {q : Process}
    {out : List Str} (h : Reflects cfg tr p q) (hs : Sound (EventOk cfg) tr)
    (hd : q.lcbDeliverPending = .ok (q, out)) : out = [] := by
  obtain ⟨hs', h'⟩ := h.lcbDeliverPending hs hd
  refine List.eq_nil_iff_forall_not_mem.mpr fun k hk => ?_
  have hsaid : said .lcbDeliver p (tr ++ out.map (⟨.lcbDeliver, p, ·⟩)) =
      said .lcbDeliver p tr ++ out := by simp
  have hin : k ∈ said .lcbDeliver p (tr ++ out.map (⟨.lcbDeliver, p, ·⟩)) := by simp [hk]
  have hrec : k ∈ said .urbDeliver p tr := by simpa using lcbDeliver_received hs' hin
  have hnew : k ∉ said .lcbDeliver p tr := by
    have hnd := (orderly hs' p).nodup
    rw [hsaid] at hnd
    exact fun hold => (List.nodup_append.mp hnd).2.2 k hold k hk rfl
  exact ((h'.pairs k _).mp ((h.pairs k _).mpr ⟨hrec, hnew, rfl⟩)).2.1 hin

theorem Reflects.notReady {cfg : Config} {tr : List Event} {p : Nat} {q : Process}
    {out : List Str} (h : Reflects cfg tr p q) (hs : Sound (EventOk cfg) tr)
    (hd : q.lcbDeliverPending = .ok (q, out)) {k : Str} (hrec : k ∈ said .urbDeliver p tr)
    (hnew : k ∉ said .lcbDeliver p tr) :
    ¬ Ready keyOrigin need (said .lcbDeliver p tr) k := by
  obtain rfl := h.deliversNothing hs hd
  simp only [Process.lcbDeliverPending, bind_eq_ok] at hd
  obtain ⟨⟨l, out'⟩, hl, hd⟩ := hd
  have hout : out' = [] := List.map_eq_nil_iff.mp (Prod.mk.inj (Except.ok.inj hd)).2
  subst hout
  have hnot := (deliverLoop_nothing hl).2 _ ((h.pairs k _).mpr ⟨hrec, hnew, rfl⟩)
  rw [h.vc] at hnot
  intro hready
  exact Bool.false_ne_true (hnot.symm.trans (isInferior_iff.mpr hready))

theorem count_eq_length {cfg : Config} {tr : List Event} (h : Sound (EventOk cfg) tr) {y x : Nat}
    (hall : ∀ text ∈ said .broadcast x tr, messageKey x text ∈ said .lcbDeliver y tr) :
    count keyOrigin (said .lcbDeliver y tr) x = (said .broadcast x tr).length := by
  have hle : ∀ i < (said .broadcast x tr).length,
      i < count keyOrigin (said .lcbDeliver y tr) x := by
    intro i hi
    have hi' := List.getElem?_eq_getElem hi
    have hmem := List.mem_of_getElem? hi'
    have hlt := (lcbDeliver_mem_iff h y ⟨x, _, hmem, rfl⟩).mp (hall _ hmem)
    rwa [number_broadcast h hi', keyOrigin_messageKey (broadcast_fits h hmem).2.2] at hlt
  have hge : ∀ n < count keyOrigin (said .lcbDeliver y tr) x,
      n < (said .broadcast x tr).length := by
    intro n hn
    have hnum := (orderly h y).numbers (known_unique h) (fun _ hx => lcbDeliver_known h hx) x
    rw [← List.mem_range, ← hnum] at hn
    obtain ⟨k, hk, rfl⟩ := List.mem_map.mp hn
    obtain ⟨hin, ho⟩ := mem_deliveriesFrom.mp hk
    obtain ⟨s, text, ht, rfl⟩ := lcbDeliver_known h hin
    rw [keyOrigin_messageKey (broadcast_fits h ht).2.2, Int.ofNat_inj] at ho
    subst ho
    obtain ⟨i, hi⟩ := List.getElem?_of_mem ht
    rw [number_broadcast h hi]
    exact (List.getElem?_eq_some_iff.mp hi).1
  by_contra hne
  rcases Nat.lt_or_gt_of_ne hne with hlt | hlt
  · exact lt_irrefl _ (hle _ hlt)
  · exact lt_irrefl _ (hge _ hlt)

/-- The pending queue never gets stuck: where a pass would change nothing, every message
still in `pairs` waits for one that URB has not delivered. -/
theorem causal_queue_progress (cfg : Config) (s : Sys) (h : (stack cfg).Reachable s) (y : Nat)
    (out : List Str) (hstuck : (s.proc y).lcbDeliverPending = .ok (s.proc y, out)) :
    (∀ k ∈ (s.proc y).lcb.pairs.entries.map Prod.fst, ∃ k',
      Relation.TransGen (DirectPast cfg s.trace) k' k ∧ (s.proc y).urb.delivered k' = 0) ∧
    ((∀ x, ∀ text ∈ said .broadcast x s.trace,
        (s.proc y).urb.delivered (messageKey x text) ≠ 0) →
      (s.proc y).lcb.pairs.entries = [] ∧
      ∀ x : Nat, (s.proc y).lcb.vc x = (s.proc x).lcb.lsn) := by
  obtain ⟨hs, hproc, -⟩ := (stackInv_reachable h).toConsistent
  have hy := hproc y
  have hblocked : ∀ k ∈ (s.proc y).lcb.pairs.entries.map Prod.fst, ∃ k',
      Relation.TransGen (DirectPast cfg s.trace) k' k ∧ k' ∉ said .urbDeliver y s.trace := by
    intro k hk
    obtain ⟨⟨k, w⟩, he, rfl⟩ := List.mem_map.mp hk
    obtain ⟨hrec, hnew, -⟩ := (hy.pairs k w).mp he
    have hwait : ∀ m ∈ {k | k ∈ said .urbDeliver y s.trace}, m ∉ said .lcbDeliver y s.trace →
        ¬ Ready keyOrigin need (said .lcbDeliver y s.trace) m :=
      fun m hm hnot => hy.notReady hs hstuck hm hnot
    exact (orderly hs y).blocked (known_unique hs) (directPast_wf hs)
      (directPast_complete hs) (fun _ hx => lcbDeliver_known hs hx) hwait
      (urbDeliver_known hs hrec) hrec hnew
  refine ⟨fun k hk => ?_, fun hall => ?_⟩
  · obtain ⟨k', hpast, hnot⟩ := hblocked k hk
    exact ⟨k', hpast, by rw [hy.delivered, if_neg hnot]⟩
  · have hrec : ∀ k, Known s.trace k → k ∈ said .urbDeliver y s.trace := by
      rintro k ⟨x, text, ht, rfl⟩
      by_contra hnot
      exact hall x text ht (by rw [hy.delivered, if_neg hnot])
    have hempty : (s.proc y).lcb.pairs.entries = [] := by
      refine List.eq_nil_iff_forall_not_mem.mpr fun e he => ?_
      obtain ⟨k', hpast, hnot⟩ := hblocked e.1 (List.mem_map_of_mem he)
      obtain ⟨c, hfirst, -⟩ := Relation.TransGen.head'_iff.mp hpast
      exact hnot (hrec k' (hfirst.covers hs).1)
    refine ⟨hempty, fun x => ?_⟩
    have hdel : ∀ text ∈ said .broadcast x s.trace,
        messageKey x text ∈ said .lcbDeliver y s.trace := by
      intro text ht
      by_contra hnot
      have hin := (hy.pairs _ _).mpr ⟨hrec _ ⟨x, text, ht, rfl⟩, hnot, rfl⟩
      rw [hempty] at hin
      cases hin
    rw [hy.vc, (hproc x).lsn, vcOf, count_eq_length hs hdel]

theorem causal_queue_progress_trio :
    messageKey 2 trioSecond ∈
      (((stack trio).after trioWaiting).proc 3).lcb.pairs.entries.map Prod.fst ∧
    ∃ k', Relation.TransGen (DirectPast trio ((stack trio).after trioWaiting).trace) k'
      (messageKey 2 trioSecond) ∧ (((stack trio).after trioWaiting).proc 3).urb.delivered k' = 0 := by
  have hin : messageKey 2 trioSecond ∈
      (((stack trio).after trioWaiting).proc 3).lcb.pairs.entries.map Prod.fst := by decide
  have hstuck : (((stack trio).after trioWaiting).proc 3).lcbDeliverPending =
      .ok (((stack trio).after trioWaiting).proc 3, []) :=
    lcbDeliverPending_of_notReady (by decide)
  exact ⟨hin, (causal_queue_progress trio _ ((stack trio).reachable_after trioWaiting) 3 []
    hstuck).1 _ hin⟩

end DecentralizedBroadcast
