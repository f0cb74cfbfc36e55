import DecentralizedBroadcast.SoundTrace

/-! What the state of a process is, given what was said: the lists, counters and maps
of every layer are read off the trace, and each call adds events that are justified. -/
set_option autoImplicit false

namespace DecentralizedBroadcast
open History ClockedDelivery

/-- What an event adds to the log of its process. -/
def logEntry : Event → Option Str
  | ⟨.broadcast, _, text⟩ => some (sentEntry (Lcb.withoutClock text))
  | ⟨.lcbDeliver, _, k⟩ => (Lcb.deliveredEntry k).toOption
  | _ => none

def logEntries (p : Nat) (tr : List Event) : List Str :=
  tr.filterMap fun e => if e.proc = p then logEntry e else none

@[simp] theorem logEntries_append (p : Nat) (tr tr' : List Event) :
    logEntries p (tr ++ tr') = logEntries p tr ++ logEntries p tr' := List.filterMap_append

/-- Process `p` is in the state that what it said and heard in `tr` led to. -/
structure Reflects (cfg : Config) (tr : List Event) (p : Nat) (q : Process) : Prop where
  unsent : q.unsent = (mainBatches (cfg.m p)).drop (said .broadcast p tr).length
  lsn : q.lcb.lsn = (said .broadcast p tr).length
  seen : q.messagesDelivered = said .handUp p tr
  ack : q.urb.ack = (said .handUp p tr).map fun f => (packetKey f, packetOrigin f)
  pending : ∀ k, k ∈ q.urb.pending ↔
    k ∈ said .broadcast p tr ∨ k ∈ (said .handUp p tr).map packetKey
  delivered : ∀ k, q.urb.delivered k = if k ∈ said .urbDeliver p tr then 1 else 0
  vc : q.lcb.vc = vcOf tr p
  pairs : ∀ k w, (k, w) ∈ q.lcb.pairs.entries ↔
    k ∈ said .urbDeliver p tr ∧ k ∉ said .lcbDeliver p tr ∧ w = clockOf k
  log : q.processLog = (logEntries p tr).foldl addMessageLog []

theorem said_of_others {es : List Event} {p : Nat} (h : ∀ e ∈ es, e.proc ≠ p) (k : Kind) :
    said k p es = [] :=
  List.filterMap_eq_nil_iff.mpr fun e he => by simp [h e he]

theorem logEntries_of_others {es : List Event} {p : Nat} (h : ∀ e ∈ es, e.proc ≠ p) :
    logEntries p es = [] :=
  List.filterMap_eq_nil_iff.mpr fun e he => by simp [h e he]

/-- Events that neither the state nor the log of `p` is read off. -/
theorem Reflects.frame {cfg : Config} {tr es : List Event} {p : Nat} {q : Process}
    (h : Reflects cfg tr p q) (hs : ∀ k, k ≠ .beb → said k p es = [])
    (hl : logEntries p es = []) : Reflects cfg (tr ++ es) p q := by
  have hsaid : ∀ k, k ≠ .beb → said k p (tr ++ es) = said k p tr := by
    intro k hk
    rw [said_append, hs k hk, List.append_nil]
  have hvc : vcOf (tr ++ es) p = vcOf tr p := by
    funext z
    simp only [vcOf, hsaid .lcbDeliver (by decide)]
  have hlog : logEntries p (tr ++ es) = logEntries p tr := by
    rw [logEntries_append, hl, List.append_nil]
  have hb := hsaid .broadcast (by decide)
  have hh := hsaid .handUp (by decide)
  have hu := hsaid .urbDeliver (by decide)
  have hc := hsaid .lcbDeliver (by decide)
  constructor
  · rw [hb]; exact h.unsent
  · rw [hb]; exact h.lsn
  · rw [hh]; exact h.seen
  · rw [hh]; exact h.ack
  · rw [hb, hh]; exact h.pending
  · rw [hu]; exact h.delivered
  · rw [hvc]; exact h.vc
  · rw [hu, hc]; exact h.pairs
  · rw [hlog]; exact h.log

theorem Reflects.others {cfg : Config} {tr es : List Event} {p : Nat} {q : Process}
    (h : Reflects cfg tr p q) (he : ∀ e ∈ es, e.proc ≠ p) : Reflects cfg (tr ++ es) p q :=
  h.frame (fun k _ => said_of_others he k) (logEntries_of_others he)

theorem Reflects.beb {cfg : Config} {tr : List Event} {p : Nat} {q : Process}
    (h : Reflects cfg tr p q) (p' : Nat) (frame : Str) :
    Reflects cfg (tr ++ [⟨.beb, p', frame⟩]) p q := by
  refine h.frame (fun k hk => ?_) ?_
  · simp [said_singleton, Ne.symm hk]
  · by_cases hp : p' = p <;> simp [logEntries, logEntry, hp]

theorem Reflects.setActive {cfg : Config} {tr : List Event} {p : Nat} {q : Process}
    (h : Reflects cfg tr p q) : Reflects cfg tr p q.setActive := ⟨h.unsent, h.lsn, h.seen, h.ack,
  h.pending, h.delivered, h.vc, h.pairs, h.log⟩

theorem withoutClock_broadcast {cfg : Config} {past : List Event} {p : Nat} {msg text : Str}
    (h : Origin cfg past p msg text) : Lcb.withoutClock text = msg := by
  rw [h.eq]
  exact withoutClock_append h.notMem_marker (clockEntries_ne_nil _ _ _ _)

theorem Reflects.broadcast {cfg : Config} {tr : List Event} {p : Nat} {q q' : Process}
    {msg text : Str} {rest : List Str} (h : Reflects cfg tr p q) (hp : 1 ≤ p ∧ p ≤ cfg.N)
    (hu : q.unsent = msg :: rest)
    (hb : ({ q with unsent := rest }).broadcastMessage p (cfg.localizedIds p) msg =
      .ok (q', text)) :
    EventOk cfg tr ⟨.broadcast, p, text⟩ ∧ Reflects cfg (tr ++ [⟨.broadcast, p, text⟩]) p q' := by
  simp only [Process.broadcastMessage, bind_eq_ok] at hb
  obtain ⟨⟨lcb, toSend⟩, hl, hb⟩ := hb
  obtain ⟨rfl, rfl⟩ := Prod.mk.inj (Except.ok.inj hb)
  obtain ⟨rfl, fits, ids, rfl⟩ := broadcastMessage_ok hl
  have hdrop := h.unsent.symm.trans hu
  have hnext : (mainBatches (cfg.m p))[(said .broadcast p tr).length]? = some msg := by
    have := congrArg List.head? hdrop
    rwa [List.head?_drop, List.head?_cons] at this
  have hrest : rest = (mainBatches (cfg.m p)).drop ((said .broadcast p tr).length + 1) := by
    have := congrArg List.tail hdrop
    rw [List.tail_drop, List.tail_cons] at this
    exact this.symm
  simp only [Urb.broadcastMessage]
  rw [h.vc, h.lsn]
  have ok : EventOk cfg tr ⟨.broadcast, p, msg ++ clockText (clockEntries (vcOf tr p)
      (cfg.localizedIds p) p (said .broadcast p tr).length)⟩ := .broadcast hp fits ids hnext
  refine ⟨ok, ?_⟩
  obtain ⟨msg', ho⟩ := ok.origin
  have hmsg : Lcb.withoutClock (msg ++ clockText (clockEntries (vcOf tr p)
      (cfg.localizedIds p) p (said .broadcast p tr).length)) = msg := by
    rw [withoutClock_broadcast ho]
    exact Option.some.inj (ho.next.symm.trans hnext)
  constructor
  · simpa using hrest
  · simp
  · simpa using h.seen
  · simpa using h.ack
  · intro k
    simp only [List.mem_append, List.mem_singleton, h.pending k, said_append, said_singleton]
    simpa using or_right_comm
  · simpa using h.delivered
  · funext z
    simp [vcOf]
  · simpa using h.pairs
  · simp [h.log, logEntries, logEntry, hmsg]

theorem senderMessage_ok {f key : Str}
    (h : Urb.senderMessage (f.drop 7) (packetOrigin f) = .ok key) : key = packetKey f := by
  unfold Urb.senderMessage at h
  unfold packetKey
  split at h
  · rename_i hr
    rw [if_pos hr]
    simp only [bind_eq_ok, substr_eq_ok] at h
    obtain ⟨orig, ⟨-, rfl⟩, pay, ⟨-, rfl⟩, h⟩ := h
    obtain rfl := Except.ok.inj h
    have h8 : f.drop 8 = (f.drop 7).drop 1 := by simp
    have h11 : (f.drop 7).drop 4 = ((f.drop 7).drop 1).drop 3 := by simp
    have hall : ((f.drop 7).drop 4).take (f.drop 7).length = (f.drop 7).drop 4 :=
      List.take_of_length_le (by rw [List.length_drop]; omega)
    rw [hall, h8, h11, List.take_append_drop]
  · rename_i hr
    rw [if_neg hr]
    exact (Except.ok.inj h).symm

theorem urbDeliver_ok {u u' : Urb} {f : Str} {relay : Option Str}
    (h : u.deliver f = .ok (u', relay)) :
    u' = { u with
      ack := u.ack ++ [(packetKey f, packetOrigin f)]
      pending := if packetKey f ∈ u.pending then u.pending else u.pending ++ [packetKey f] } ∧
    relay = if packetKey f ∈ u.pending then none else some ('r' :: packetKey f) := by
  simp only [Urb.deliver, bind_eq_ok, substr_eq_ok] at h
  obtain ⟨payload, ⟨-, rfl⟩, sender, ⟨-, rfl⟩, key, hkey, h⟩ := h
  have hlen : (f.drop 7).take f.length = f.drop 7 := List.take_of_length_le (by simp)
  rw [hlen] at hkey
  obtain rfl := senderMessage_ok hkey
  split at h
  · rename_i hin
    obtain ⟨rfl, rfl⟩ := Prod.mk.inj (Except.ok.inj h)
    rw [if_pos hin, if_pos hin]
    exact ⟨rfl, rfl⟩
  · rename_i hin
    have hpay : (f.drop 7).head? = f[7]? := List.head?_drop
    split at h
    · rename_i hr
      simp only [bind_eq_ok, substr_eq_ok] at h
      obtain ⟨r, ⟨-, rfl⟩, h⟩ := h
      obtain ⟨rfl, rfl⟩ := Prod.mk.inj (Except.ok.inj h)
      have hcons : f.drop 7 = 'r' :: f.drop 8 := by
        obtain ⟨hlt, he⟩ := List.getElem?_eq_some_iff.mp hr
        rw [List.drop_eq_getElem_cons hlt, he]
      have hkey : packetKey f = f.drop 8 := if_pos (hpay.trans hr)
      simp only [hin, if_false]
      rw [hlen, hcons, hkey]
      exact ⟨rfl, rfl⟩
    · rename_i hr
      simp only [bind_eq_ok, substr_eq_ok] at h
      obtain ⟨orig, ⟨-, rfl⟩, pay, ⟨-, rfl⟩, h⟩ := h
      obtain ⟨rfl, rfl⟩ := Prod.mk.inj (Except.ok.inj h)
      have hkey : packetKey f = packetOrigin f ++ f.drop 7 := if_neg (by rw [hpay]; exact hr)
      simp only [hin, if_false]
      rw [hlen, hkey]
      exact ⟨rfl, rfl⟩

/-- A frame that URB can take apart: a header, and behind the relay mark an id. -/
def FrameFits (f : Str) : Prop := 7 ≤ f.length ∧ (f[7]? = some 'r' → 11 ≤ f.length)

theorem senderMessage_total {f : Str} (h : FrameFits f) :
    Urb.senderMessage (f.drop 7) (packetOrigin f) = .ok (packetKey f) := by
  have hok : ∃ key, Urb.senderMessage (f.drop 7) (packetOrigin f) = .ok key := by
    unfold Urb.senderMessage
    split
    · rename_i hr
      rw [List.head?_drop] at hr
      have hlen := h.2 hr
      simp only [bind_eq_ok, substr_eq_ok, List.length_drop]
      exact ⟨_, _, ⟨by omega, rfl⟩, _, ⟨by omega, rfl⟩, rfl⟩
    · exact ⟨_, rfl⟩
  obtain ⟨key, hkey⟩ := hok
  rw [hkey, senderMessage_ok hkey]

theorem urbDeliver_total {f : Str} (h : FrameFits f) (u : Urb) :
    ∃ u' relay, u.deliver f = .ok (u', relay) := by
  have h7 : substr f 7 f.length = .ok (f.drop 7) :=
    substr_eq_ok.mpr ⟨h.1, (List.take_of_length_le (by simp)).symm⟩
  have h1 : substr f 1 3 = .ok (packetOrigin f) :=
    substr_eq_ok.mpr ⟨Nat.le_trans (by decide) h.1, rfl⟩
  simp only [Urb.deliver, h7, h1, bind, Except.bind, senderMessage_total h]
  split
  · exact ⟨_, _, rfl⟩
  · split
    · exact ⟨_, _, rfl⟩
    · exact ⟨_, _, rfl⟩

theorem Reflects.handUp {cfg : Config} {tr : List Event} {p : Nat} {q q' : Process} {f : Str}
    {relay : Option Str} (h : Reflects cfg tr p q) (hd : q.deliver f = .ok (q', relay)) :
    Reflects cfg (tr ++ [⟨.handUp, p, f⟩]) p q' ∧
      relay = if packetKey f ∈ q.urb.pending then none else some ('r' :: packetKey f) := by
  simp only [Process.deliver, bind_eq_ok] at hd
  obtain ⟨⟨u, r⟩, hu, hd⟩ := hd
  obtain ⟨rfl, rfl⟩ := Prod.mk.inj (Except.ok.inj hd)
  obtain ⟨rfl, rfl⟩ := urbDeliver_ok hu
  refine ⟨?_, rfl⟩
  constructor
  · simpa using h.unsent
  · simpa using h.lsn
  · simp [h.seen]
  · simp [h.ack]
  · intro k
    have hf := h.pending (packetKey f)
    have hnew : k ∈ (if packetKey f ∈ q.urb.pending then q.urb.pending
        else q.urb.pending ++ [packetKey f]) ↔ k ∈ q.urb.pending ∨ k = packetKey f := by
      split
      · rename_i hin
        exact ⟨.inl, by rintro (hk | rfl) <;> assumption⟩
      · simp
    rw [hnew, h.pending k]
    simp [or_assoc, eq_comm]
  · simpa using h.delivered
  · funext z
    simp [h.vc, vcOf]
  · simpa using h.pairs
  · simp [h.log, logEntries, logEntry]

theorem Reflects.canDeliver {cfg : Config} {tr : List Event} {p : Nat} {q : Process}
    (h : Reflects cfg tr p q) (N : Nat) (k : Str) :
    q.urb.canDeliver N k = true ↔ N / 2 < votes tr p k := by
  simp [Urb.canDeliver, votes, h.ack, List.countP_map, Function.comp_def]

theorem urb_deliverLoop {N : Nat} {rest up : List Str} {u u' : Urb}
    (h : Urb.deliverLoop N rest u = (u', up)) :
    u'.pending = u.pending ∧ u'.ack = u.ack ∧
    (∀ k, u'.delivered k = if k ∈ up then 1 else u.delivered k) ∧
    up.Nodup ∧ ∀ k, k ∈ up ↔ k ∈ rest ∧ u.canDeliver N k = true ∧ u.delivered k = 0 := by
  induction rest generalizing u u' up with
  | nil =>
    obtain ⟨rfl, rfl⟩ := Prod.mk.inj h
    simp
  | cons msg rest ih =>
    unfold Urb.deliverLoop at h
    split at h
    · rename_i hcan
      cases hr : Urb.deliverLoop N rest
          { u with delivered := Function.update u.delivered msg 1 } with
      | mk u₁ up₁ =>
        simp only [hr] at h
        obtain ⟨rfl, rfl⟩ := Prod.mk.inj h
        obtain ⟨hp, ha, hdel, hnd, hall⟩ := ih hr
        have hnew : msg ∉ up₁ := by
          intro hin
          have := ((hall msg).mp hin).2.2
          simp at this
        refine ⟨hp, ha, fun k => ?_, List.nodup_cons.mpr ⟨hnew, hnd⟩, fun k => ?_⟩
        · by_cases hk : k = msg
          · subst hk
            simp [hdel, hnew]
          · simp [hdel, hk]
        · rw [List.mem_cons, List.mem_cons, hall]
          by_cases hk : k = msg
          · subst hk
            simp [hcan]
          · have hc : Urb.canDeliver N { u with delivered := Function.update u.delivered msg 1 } k =
                u.canDeliver N k := rfl
            simp [hk, hc]
    · rename_i hnot
      obtain ⟨hp, ha, hdel, hnd, hall⟩ := ih h
      refine ⟨hp, ha, hdel, hnd, fun k => ?_⟩
      rw [hall, List.mem_cons]
      constructor
      · exact fun hk => ⟨.inr hk.1, hk.2⟩
      · rintro ⟨rfl | hk, hcan⟩
        · exact absurd hcan hnot
        · exact ⟨hk, hcan⟩

theorem lcbDeliver_ok {l l' : Lcb} {k : Str} (hnew : l.pairs.find? k = none)
    (h : l.deliver k = .ok l') : l' = { l with pairs := l.pairs.insert k (clockOf k) } := by
  simp only [Lcb.deliver, hnew, Option.getD_none, OrderedMap.entries_empty, if_true] at h
  simp only [bind_eq_ok] at h
  obtain ⟨t, ht, w, hw, h⟩ := h
  obtain rfl := Except.ok.inj h
  have hclock : Lcb.vcString k >>= Lcb.constructVC = .ok w := bind_eq_ok.mpr ⟨t, ht, hw⟩
  rw [clockOf, hclock]
  rfl

theorem deliverAll_ok {up : List Str} {l l' : Lcb} (h : deliverAll up l = .ok l')
    (hnew : ∀ k ∈ up, ∀ w, (k, w) ∉ l.pairs.entries) (hnd : up.Nodup) :
    l'.lsn = l.lsn ∧ l'.vc = l.vc ∧ ∀ k w, (k, w) ∈ l'.pairs.entries ↔
      (k, w) ∈ l.pairs.entries ∨ k ∈ up ∧ w = clockOf k := by
  induction up generalizing l with
  | nil =>
    obtain rfl := Except.ok.inj h
    simp
  | cons msg up ih =>
    obtain ⟨hmsg, hnd⟩ := List.nodup_cons.mp hnd
    simp only [deliverAll, bind_eq_ok] at h
    obtain ⟨l₁, h₁, h⟩ := h
    have hnone : l.pairs.find? msg = none :=
      OrderedMap.find?_eq_none.mpr fun e he hk => hnew msg (by simp) e.2 (hk ▸ he)
    obtain rfl := lcbDeliver_ok hnone h₁
    have hold : ∀ k w, (k, w) ∈ (l.pairs.insert msg (clockOf msg)).entries ↔
        (k, w) ∈ l.pairs.entries ∨ k = msg ∧ w = clockOf k := by
      intro k w
      rw [OrderedMap.mem_insert]
      constructor
      · rintro (he | ⟨he, -⟩)
        · obtain ⟨rfl, rfl⟩ := Prod.mk.inj he
          exact .inr ⟨rfl, rfl⟩
        · exact .inl he
      · rintro (he | ⟨rfl, rfl⟩)
        · exact .inr ⟨he, fun hk => hnew msg (by simp) w (by simpa [← hk] using he)⟩
        · exact .inl rfl
    obtain ⟨hlsn, hvc, hpairs⟩ := ih h (fun k hk w hw => by
      rcases (hold k w).mp hw with hw | ⟨rfl, -⟩
      · exact hnew k (by simp [hk]) w hw
      · exact hmsg hk) hnd
    refine ⟨hlsn, hvc, fun k w => ?_⟩
    rw [hpairs, hold, List.mem_cons, or_and_right, or_assoc]

theorem sound_urbDeliver {cfg : Config} {tr : List Event} (h : Sound (EventOk cfg) tr) {q : Nat}
    {up : List Str} (hnd : up.Nodup)
    (hup : ∀ k ∈ up, k ∉ said .urbDeliver q tr ∧ cfg.N / 2 < votes tr q k) :
    Sound (EventOk cfg) (tr ++ up.map (⟨.urbDeliver, q, ·⟩)) := by
  induction up using List.reverseRecOn with
  | nil => simpa using h
  | append_singleton up k ih =>
    obtain ⟨hnd, -, hk⟩ := List.nodup_append.mp hnd
    have hprev := ih hnd fun x hx => hup x (by simp [hx])
    obtain ⟨hnew, hv⟩ := hup k (by simp)
    rw [List.map_append, ← List.append_assoc]
    refine sound_snoc.mpr ⟨hprev, .urbDeliver ?_ ?_⟩
    · simpa [hnew] using fun hin => hk k hin k (by simp) rfl
    · simpa [votes] using hv

theorem Reflects.urbDeliverPending {cfg : Config} {tr : List Event} {p : Nat} {q q' : Process}
    {up : List Str} (h : Reflects cfg tr p q) (hs : Sound (EventOk cfg) tr)
    (hd : q.urbDeliverPending cfg.N = .ok (q', up)) :
    Sound (EventOk cfg) (tr ++ up.map (⟨.urbDeliver, p, ·⟩)) ∧
      Reflects cfg (tr ++ up.map (⟨.urbDeliver, p, ·⟩)) p q' := by
  simp only [Process.urbDeliverPending] at hd
  cases hu : q.urb.deliverPending cfg.N with
  | mk u up' =>
    simp only [hu, bind_eq_ok] at hd
    obtain ⟨l, hl, hd⟩ := hd
    obtain ⟨rfl, rfl⟩ := Prod.mk.inj (Except.ok.inj hd)
    obtain ⟨hpend, hack, hdel, hnd, hall⟩ := urb_deliverLoop hu
    have hup : ∀ k ∈ up', k ∉ said .urbDeliver p tr ∧ cfg.N / 2 < votes tr p k := by
      intro k hk
      obtain ⟨-, hc, h0⟩ := (hall k).mp hk
      refine ⟨fun hin => ?_, (h.canDeliver cfg.N k).mp hc⟩
      rw [h.delivered, if_pos hin] at h0
      cases h0
    have hnew : ∀ k ∈ up', ∀ w, (k, w) ∉ q.lcb.pairs.entries :=
      fun k hk w hw => (hup k hk).1 ((h.pairs k w).mp hw).1
    obtain ⟨hlsn, hvc, hpairs⟩ := deliverAll_ok hl hnew hnd
    refine ⟨sound_urbDeliver hs hnd hup, ?_⟩
    constructor
    · simpa using h.unsent
    · simpa [hlsn] using h.lsn
    · simpa using h.seen
    · simpa [hack] using h.ack
    · simpa [hpend] using h.pending
    · intro k
      have hk := h.delivered k
      by_cases hin : k ∈ up' <;> simp [hdel, hin, hk]
    · funext z
      simp [hvc, h.vc, vcOf]
    · intro k w
      rw [hpairs, h.pairs]
      have hc : k ∈ up' → k ∉ said .lcbDeliver p tr :=
        fun hk hin => (hup k hk).1 (lcbDeliver_received hs hin)
      simp only [said_append, said_map, and_self, if_true, List.mem_append, reduceCtorEq,
        false_and, if_false, List.append_nil]
      tauto
    · have hlog : logEntries p (up'.map (⟨.urbDeliver, p, ·⟩)) = [] := by
        simp [logEntries, logEntry]
      simpa [hlog] using h.log

theorem Reflects.lcbDeliver {cfg : Config} {tr : List Event} {p : Nat} {q : Process} {k entry : Str}
    {w : VectorClock} {rank : Int} (h : Reflects cfg tr p q) (hin : (k, w) ∈ q.lcb.pairs.entries)
    (hready : Lcb.isInferior q.lcb.vc w = true) (hrank : stoi (k.take 3) = .ok rank)
    (hentry : Lcb.deliveredEntry k = .ok entry) :
    EventOk cfg tr ⟨.lcbDeliver, p, k⟩ ∧
    Reflects cfg (tr ++ [⟨.lcbDeliver, p, k⟩]) p { q with
      lcb := { q.lcb with
        vc := Function.update q.lcb.vc rank (q.lcb.vc rank + 1)
        pairs := q.lcb.pairs.erase k }
      processLog := addMessageLog q.processLog entry } := by
  obtain ⟨hrec, hnew, rfl⟩ := (h.pairs k w).mp hin
  have horigin : keyOrigin k = rank := by
    rw [keyOrigin, hrank]
    rfl
  refine ⟨.lcbDeliver hrec hnew (h.vc ▸ hready), ?_⟩
  constructor
  · simpa using h.unsent
  · simpa using h.lsn
  · simpa using h.seen
  · simpa using h.ack
  · simpa using h.pending
  · simpa using h.delivered
  · funext z
    simp only [vcOf, said_append, said_singleton, and_self, if_true, count_snoc, h.vc, horigin]
    by_cases hz : z = rank
    · subst hz
      simp
    · simp [hz, Ne.symm hz, vcOf]
  · intro k' w'
    simp only [OrderedMap.mem_erase, h.pairs, said_append, said_singleton, and_self, if_true,
      List.mem_append, List.mem_singleton]
    simp
    tauto
  · simp [h.log, logEntries, logEntry, hentry, Except.toOption]

theorem Reflects.lcbDeliverLoop {cfg : Config} {tr : List Event} {p : Nat} {q : Process}
    {es : List (Str × VectorClock)} {l' : Lcb} {out : List (Str × Str)}
    (h : Reflects cfg tr p q) (hs : Sound (EventOk cfg) tr)
    (hin : ∀ e ∈ es, e ∈ q.lcb.pairs.entries) (hnd : (es.map Prod.fst).Nodup)
    (hd : Lcb.deliverLoop es q.lcb = .ok (l', out)) :
    Sound (EventOk cfg) (tr ++ (out.map Prod.fst).map (⟨.lcbDeliver, p, ·⟩)) ∧
      Reflects cfg (tr ++ (out.map Prod.fst).map (⟨.lcbDeliver, p, ·⟩)) p { q with
        lcb := l', processLog := (out.map Prod.snd).foldl addMessageLog q.processLog } := by
  induction es generalizing tr q out with
  | nil =>
    obtain ⟨rfl, rfl⟩ := Prod.mk.inj (Except.ok.inj hd)
    simpa using ⟨hs, h⟩
  | cons e es ih =>
    obtain ⟨k, w⟩ := e
    obtain ⟨hk, hnd⟩ := List.nodup_cons.mp hnd
    unfold Lcb.deliverLoop at hd
    split at hd
    · rename_i hready
      simp only [bind_eq_ok, substr_eq_ok] at hd
      obtain ⟨t, ⟨-, rfl⟩, rank, hrank, entry, hentry, ⟨l₁, out₁⟩, hd, hfin⟩ := hd
      obtain ⟨rfl, rfl⟩ := Prod.mk.inj (Except.ok.inj hfin)
      obtain ⟨ok, hstep⟩ := h.lcbDeliver (hin _ (by simp)) hready (by simpa using hrank) hentry
      have hrest := ih hstep (sound_snoc.mpr ⟨hs, ok⟩) (fun e he => by
        have hne : e.1 ≠ k := fun hx => hk (List.mem_map.mpr ⟨e, he, hx⟩)
        exact OrderedMap.mem_erase.mpr ⟨hin e (by simp [he]), hne⟩) hnd hd
      simpa using hrest
    · exact ih h hs (fun e he => hin e (by simp [he])) hnd hd

theorem Reflects.lcbDeliverPending {cfg : Config} {tr : List Event} {p : Nat} {q q' : Process}
    {out : List Str} (h : Reflects cfg tr p q) (hs : Sound (EventOk cfg) tr)
    (hd : q.lcbDeliverPending = .ok (q', out)) :
    Sound (EventOk cfg) (tr ++ out.map (⟨.lcbDeliver, p, ·⟩)) ∧
      Reflects cfg (tr ++ out.map (⟨.lcbDeliver, p, ·⟩)) p q' := by
  simp only [Process.lcbDeliverPending, bind_eq_ok] at hd
  obtain ⟨⟨l, out'⟩, hl, hd⟩ := hd
  obtain ⟨rfl, rfl⟩ := Prod.mk.inj (Except.ok.inj hd)
  exact h.lcbDeliverLoop hs (fun _ he => he) q.lcb.pairs.nodup_keys hl

end DecentralizedBroadcast
