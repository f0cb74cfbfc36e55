import DecentralizedBroadcast.StackInvariant
import Mathlib.Data.Finset.Card
import Mathlib.Order.Interval.Finset.Nat

/-! What the acks of uniform reliable broadcast stand for: who has a message that one
process may deliver, and who may deliver it once all frames have arrived. -/
set_option autoImplicit false

namespace DecentralizedBroadcast
open History

/-- The processes whose relay of `k` has reached `q`. -/
def relayers (tr : List Event) (q : Nat) (k : Str) : Finset Nat :=
  (Finset.range 1000).filter fun p => packetText p q ('r' :: k) ∈ said .handUp q tr

theorem packetText_sender {p p' q q' : Nat} (hp : p ≤ 999) (hp' : p' ≤ 999) {x y : Str}
    (h : packetText p q x = packetText p' q' y) : p = p' := by
  have := congrArg packetOrigin h
  rw [packetOrigin_packetText hp, packetOrigin_packetText hp'] at this
  exact pad3_injective this

theorem own_ne_relay {p p' q : Nat} {text k : Str} (hp : p ≤ 999) (hp' : p' ≤ 999) (hq : q ≤ 999)
    (ht : Plain text) : packetText p q text ≠ packetText p' q ('r' :: k) := by
  intro he
  have hpay := congrArg (List.drop 7) he
  rw [packetText_payload hp hq, packetText_payload hp' hq, ht.cStr] at hpay
  have hr : 'r' ∈ cStr ('r' :: k) := by simp [cStr]
  exact (ht 'r' (hpay ▸ hr)).1 rfl

section Sound
variable {cfg : Config} {tr : List Event} (h : Sound (EventOk cfg) tr)
include h

theorem mem_relayers {q p : Nat} {k : Str} (hk : Known tr k) : p ∈ relayers tr q k ↔
    HasLink cfg.N p q ∧ p ≤ 999 ∧ packetText p q ('r' :: k) ∈ said .handUp q tr ∧
      ∃ g ∈ said .handUp p tr, packetKey g = k := by
  simp only [relayers, Finset.mem_filter, Finset.mem_range]
  constructor
  · rintro ⟨hp, hin⟩
    obtain ⟨p', hl, hp', hq, -, hcase⟩ := handUp_cases h hin
    rw [packetKey_relay (by omega) hq (hk.plain h)] at hcase
    cases hcase with
    | own text given key eq =>
      exact absurd eq.symm
        (own_ne_relay hp' (by omega) hq (broadcast_plain h given))
    | relay given eq =>
      obtain rfl := packetText_sender (by omega) hp' eq
      exact ⟨hl, hp', hin, given⟩
  · rintro ⟨-, hp, hin, -⟩
    exact ⟨by omega, hin⟩

/-- The packets of one key: the message itself from its origin, and the relays. -/
theorem handUp_of_key {q s : Nat} {text f : Str} (ht : text ∈ said .broadcast s tr) :
    f ∈ said .handUp q tr ∧ packetKey f = messageKey s text ↔
      f = packetText s q text ∧ f ∈ said .handUp q tr ∨
      ∃ p ∈ relayers tr q (messageKey s text), packetText p q ('r' :: messageKey s text) = f := by
  have hknown : Known tr (messageKey s text) := ⟨s, text, ht, rfl⟩
  have hs := (broadcast_fits h ht).2.2
  constructor
  · rintro ⟨hf, hkey⟩
    obtain ⟨p, hl, hp, hq, -, hcase⟩ := handUp_cases h hf
    rw [hkey] at hcase
    cases hcase with
    | own text' given key eq =>
      obtain ⟨rfl, rfl⟩ := messageKey_injective hs hp key
      exact .inl ⟨eq, hf⟩
    | relay given eq =>
      subst eq
      exact .inr ⟨p, (mem_relayers h hknown).mpr ⟨hl, hp, hf, given⟩, rfl⟩
  · rintro (⟨rfl, hin⟩ | ⟨p, hp, rfl⟩)
    · obtain ⟨-, -, -, hq, -⟩ := handUp_cases h hin
      exact ⟨hin, packetKey_own hs hq (broadcast_plain h ht)⟩
    · obtain ⟨-, hp, hin, -⟩ := (mem_relayers h hknown).mp hp
      obtain ⟨-, -, -, hq, -⟩ := handUp_cases h hin
      exact ⟨hin, packetKey_relay hp hq (hknown.plain h)⟩

theorem votes_eq {q s : Nat} {text : Str} (ht : text ∈ said .broadcast s tr) :
    votes tr q (messageKey s text) =
      (if packetText s q text ∈ said .handUp q tr then 1 else 0) +
        (relayers tr q (messageKey s text)).card := by
  classical
  set k := messageKey s text with hk
  have hknown : Known tr k := ⟨s, text, ht, hk⟩
  set frames := ((said .handUp q tr).filter (packetKey · = k)).toFinset with hframes
  set own : Finset Str :=
    if packetText s q text ∈ said .handUp q tr then {packetText s q text} else ∅ with hown
  have hvotes : votes tr q k = frames.card := by
    rw [votes, List.countP_eq_length_filter, hframes,
      List.toFinset_card_of_nodup ((handUp_nodup h q).filter _)]
  have mem_own : ∀ f, f ∈ own ↔ f = packetText s q text ∧ f ∈ said .handUp q tr := by
    intro f
    rw [hown]
    split
    · rename_i hin
      rw [Finset.mem_singleton]
      exact ⟨fun hf => ⟨hf, hf ▸ hin⟩, And.left⟩
    · rename_i hout
      simp only [Finset.notMem_empty, false_iff]
      rintro ⟨rfl, hin⟩
      exact hout hin
  have hsplit : frames = own ∪ (relayers tr q k).image fun p => packetText p q ('r' :: k) := by
    ext f
    rw [Finset.mem_union, Finset.mem_image, mem_own, ← handUp_of_key h ht]
    simp [hframes, hk]
  have hdisj : Disjoint own ((relayers tr q k).image fun p => packetText p q ('r' :: k)) := by
    refine Finset.disjoint_left.mpr fun f hf hin => ?_
    obtain ⟨rfl, -⟩ := (mem_own f).mp hf
    obtain ⟨p, hp, he⟩ := Finset.mem_image.mp hin
    obtain ⟨-, hp, hin, -⟩ := (mem_relayers h hknown).mp hp
    obtain ⟨-, -, -, hq, -⟩ := handUp_cases h hin
    exact own_ne_relay (broadcast_fits h ht).2.2 hp hq (broadcast_plain h ht) he.symm
  have hinj : ((relayers tr q k).image fun p => packetText p q ('r' :: k)).card =
      (relayers tr q k).card := by
    refine Finset.card_image_of_injOn fun p hp p' hp' he => ?_
    exact packetText_sender ((mem_relayers h hknown).mp hp).2.1
      ((mem_relayers h hknown).mp hp').2.1 he
  rw [hvotes, hsplit, Finset.card_union_of_disjoint hdisj, hinj, hown]
  split <;> simp

theorem self_notMem_relayers {q : Nat} {k : Str} (hk : Known tr k) : q ∉ relayers tr q k :=
  fun hin => ((mem_relayers h hk).mp hin).1.2.2.2.2 rfl

/-- More than half of the acks come from more than half of the processes, `q` counted. -/
theorem relayers_card {q : Nat} {k : Str} (hv : cfg.N / 2 < votes tr q k) :
    cfg.N / 2 + 1 ≤ (insert q (relayers tr q k)).card := by
  have hk := known_of_votes h (Nat.zero_lt_of_lt hv)
  obtain ⟨s, text, ht, rfl⟩ := hk
  rw [Finset.card_insert_of_notMem (self_notMem_relayers h ⟨s, text, ht, rfl⟩)]
  rw [votes_eq h ht] at hv
  split at hv <;> omega

end Sound

def Handles (s : Sys) (k : Str) (r : Nat) : Prop := ∃ g ∈ said .handUp r s.trace, packetKey g = k

/-- `r` broadcast the message itself, or keeps its key pending and gave its relay to BEB. -/
def HasMessage (cfg : Config) (s : Sys) (origin : Nat) (text : Str) (r : Nat) : Prop :=
  r = origin ∧ text ∈ said .broadcast origin s.trace ∨
  messageKey origin text ∈ (s.proc r).urb.pending ∧
    'r' :: messageKey origin text ∈ said .beb r s.trace ∧
    ∀ t, HasLink cfg.N r t →
      (r, t, packetText r t ('r' :: messageKey origin text)) ∈ s.net.queued

theorem Handles.hasMessage {cfg : Config} {s : Sys} (h : StackInv cfg s) {origin r : Nat}
    {text : Str} (hr : Handles s (messageKey origin text) r) : HasMessage cfg s origin text r := by
  obtain ⟨g, hg, hk⟩ := hr
  have hbeb := hk ▸ h.relayed r g hg
  refine .inr ⟨((h.proc r).pending _).mpr (.inr (List.mem_map.mpr ⟨g, hg, hk⟩)), hbeb, ?_⟩
  exact fun t ht => (h.posted.queued r t _).mpr ⟨ht, _, hbeb, rfl⟩

theorem votes_of_canDeliver {cfg : Config} {s : Sys} (h : StackInv cfg s) {q : Nat} {k : Str}
    (hk : (s.proc q).urb.canDeliver cfg.N k = true ∨ (s.proc q).urb.delivered k ≠ 0) :
    cfg.N / 2 < votes s.trace q k := by
  rcases hk with hk | hk
  · exact ((h.proc q).canDeliver cfg.N k).mp hk
  · refine urbDeliver_acked h.sound (by_contra fun hnot => hk ?_)
    rw [(h.proc q).delivered, if_neg hnot]

theorem handles_of_votes {s : Sys} {q : Nat} {k : Str} (hv : 0 < votes s.trace q k) :
    Handles s k q := by
  obtain ⟨g, hg, hk⟩ := List.countP_pos_iff.mp hv
  exact ⟨g, hg, by simpa using hk⟩

theorem holders_handle {cfg : Config} {s : Sys} (h : StackInv cfg s) {q r : Nat} {k : Str}
    (hv : cfg.N / 2 < votes s.trace q k)
    (hr : r ∈ insert q (relayers s.trace q k)) : (1 ≤ r ∧ r ≤ cfg.N) ∧ Handles s k r := by
  have hknown := known_of_votes h.sound (Nat.zero_lt_of_lt hv)
  rcases Finset.mem_insert.mp hr with rfl | hr
  · obtain ⟨g, hg, hk⟩ := handles_of_votes (Nat.zero_lt_of_lt hv)
    obtain ⟨p, hl, -⟩ := handUp_cases h.sound hg
    exact ⟨⟨hl.2.2.1, hl.2.2.2.1⟩, g, hg, hk⟩
  · obtain ⟨hl, -, -, hg⟩ := (mem_relayers h.sound hknown).mp hr
    exact ⟨⟨hl.1, hl.2.1⟩, hg⟩

/-- A key that `q` can deliver, or has delivered, is that of a message which more than
half of the processes have, `q` among them. -/
theorem majority_behind_delivery (cfg : Config) (s : Sys) (h : (stack cfg).Reachable s) (q : Nat)
    (k : Str)
    (hk : (s.proc q).urb.canDeliver cfg.N k = true ∨ (s.proc q).urb.delivered k ≠ 0) :
    ∃ origin text, k = messageKey origin text ∧ text ∈ said .broadcast origin s.trace ∧
      ∃ holders : Finset Nat, q ∈ holders ∧ cfg.N / 2 + 1 ≤ holders.card ∧
        ∀ r ∈ holders, (1 ≤ r ∧ r ≤ cfg.N) ∧ HasMessage cfg s origin text r := by
  have hinv := stackInv_reachable h
  have hv := votes_of_canDeliver hinv hk
  obtain ⟨origin, text, ht, rfl⟩ := known_of_votes hinv.sound (Nat.zero_lt_of_lt hv)
  refine ⟨origin, text, rfl, ht, insert q (relayers s.trace q (messageKey origin text)),
    Finset.mem_insert_self _ _, relayers_card hinv.sound hv, fun r hr => ?_⟩
  obtain ⟨hid, hhandles⟩ := holders_handle hinv hv hr
  exact ⟨hid, hhandles.hasMessage hinv⟩

theorem majority_behind_delivery_trio : ∃ origin text,
    messageKey 1 trioFirst = messageKey origin text ∧
    text ∈ said .broadcast origin ((stack trio).after trioDelivered).trace ∧
    ∃ holders : Finset Nat, 3 ∈ holders ∧ trio.N / 2 + 1 ≤ holders.card ∧ ∀ r ∈ holders,
      (1 ≤ r ∧ r ≤ trio.N) ∧ HasMessage trio ((stack trio).after trioDelivered) origin text r :=
  majority_behind_delivery trio _ ((stack trio).reachable_after trioDelivered) 3 _
    (.inl (by decide))

/-- `relay` is the relay that the sender of `own` made of its own message. -/
def SelfRelay (relay own : Str) : Prop :=
  packetOrigin relay = packetOrigin own ∧ relay.drop 7 = 'r' :: (packetOrigin own ++ own.drop 7)

instance (relay own : Str) : Decidable (SelfRelay relay own) := inferInstanceAs (Decidable (_ ∧ _))

/-- No process handles both a message from its origin and the origin's own relay of it. -/
def NoSelfRelay (s : Sys) : Action → Prop
  | .receive p _ f => ∀ g ∈ (s.proc p).messagesDelivered, ¬ SelfRelay f g ∧ ¬ SelfRelay g f
  | _ => True

instance (s : Sys) : (a : Action) → Decidable (NoSelfRelay s a)
  | .receive p _ _ => inferInstanceAs (Decidable (∀ g ∈ (s.proc p).messagesDelivered, _))
  | .setBroadcastActive _ | .broadcastMessage _ | .sendThreaded _ _ | .ackThreaded _ _
  | .urbDeliverPending _ | .lcbDeliverPending _ | .crash _ => inferInstanceAs (Decidable True)

theorem noSelfRelay_handUp {cfg : Config} {s : Sys} (h : (stack cfg).ReachableBy NoSelfRelay s)
    (q : Nat) : ∀ f ∈ said .handUp q s.trace, ∀ g ∈ said .handUp q s.trace, ¬ SelfRelay f g := by
  refine h.invariant_reached (fun s => ∀ q, ∀ f ∈ said .handUp q s.trace,
    ∀ g ∈ said .handUp q s.trace, ¬ SelfRelay f g) (by simp [stack, Sys.start]) ?_ q
  intro s a s' hreach hno hallowed hs q f hf g hg
  have hn := netInv_reachableBy (stack_links hreach.reachable)
  have hi := stackInv_reachable hreach.reachable
  rcases step_handUp hn hs q with heq | ⟨link, x, rfl, heq⟩
  · rw [heq] at hf hg
    exact hno q f hf g hg
  · simp only [heq, List.mem_append, List.mem_singleton] at hf hg
    have hx : ∀ y ∈ said .handUp q s.trace, ¬ SelfRelay x y ∧ ¬ SelfRelay y x := by
      rw [← (hi.proc q).seen]
      exact hallowed
    rcases hf with hf | rfl <;> rcases hg with hg | rfl
    · exact hno q f hf g hg
    · exact (hx f hf).2
    · exact (hx g hg).1
    · rintro ⟨-, hself⟩
      have := congrArg List.length hself
      simp only [List.length_cons, List.length_append] at this
      omega

/-- The acks that two packets of one key bring name one process only if one of the packets
is a self-relay of the other. -/
theorem selfRelay_of_same_origin {cfg : Config} {tr : List Event} (h : Sound (EventOk cfg) tr)
    {q : Nat} {f g : Str} (hf : f ∈ said .handUp q tr) (hg : g ∈ said .handUp q tr)
    (hkey : packetKey f = packetKey g) (horigin : packetOrigin f = packetOrigin g) (hne : f ≠ g) :
    SelfRelay f g ∨ SelfRelay g f := by
  obtain ⟨p, -, hp, hq, hop, hcf⟩ := handUp_cases h hf
  obtain ⟨p', -, hp', -, hop', hcg⟩ := handUp_cases h hg
  obtain rfl : p = p' := pad3_injective (hop.symm.trans (horigin.trans hop'))
  have hself : ∀ text k, text ∈ said .broadcast p tr → k = messageKey p text → Known tr k →
      SelfRelay (packetText p q ('r' :: k)) (packetText p q text) := by
    rintro text k ht rfl hk
    refine ⟨by rw [packetOrigin_packetText hp, packetOrigin_packetText hp], ?_⟩
    rw [packetText_payload hp hq, packetText_payload hp hq, packetOrigin_packetText hp,
      cStr_relay (hk.plain h), (broadcast_plain h ht).cStr]
    rfl
  have hkf := handUp_known h hf
  have hkg := handUp_known h hg
  cases hcf with
  | own text given key eq =>
    cases hcg with
    | own text' given' key' eq' =>
      obtain ⟨-, rfl⟩ := messageKey_injective hp hp (key.symm.trans (hkey.trans key'))
      exact absurd (eq.trans eq'.symm) hne
    | relay given' eq' =>
      right
      rw [eq, eq']
      exact hself text _ given (hkey ▸ key) hkg
  | relay given eq =>
    cases hcg with
    | own text' given' key' eq' =>
      left
      rw [eq, eq']
      exact hself text' _ given' (hkey ▸ key') hkf
    | relay given' eq' => exact absurd (eq.trans (hkey ▸ eq'.symm)) hne

/-- In a run without such packets an ack is one vote: the entries under a key name
different processes, so that `canDeliver` counts processes. -/
theorem acks_are_votes (cfg : Config) (s : Sys) (h : (stack cfg).ReachableBy NoSelfRelay s)
    (q : Nat) (k : Str) :
    (((s.proc q).urb.ack.filter (·.1 = k)).map Prod.snd).Nodup ∧
    ((s.proc q).urb.canDeliver cfg.N k = true →
      cfg.N / 2 < (((s.proc q).urb.ack.filter (·.1 = k)).map Prod.snd).toFinset.card) := by
  have hinv := stackInv_reachable h.reachable
  have hno := noSelfRelay_handUp h q
  have hnodup : (((s.proc q).urb.ack.filter (·.1 = k)).map Prod.snd).Nodup := by
    rw [(hinv.proc q).ack, List.filter_map, List.map_map]
    refine List.Nodup.map_on ?_ ((handUp_nodup hinv.sound q).filter _)
    intro f hf g hg horigin
    obtain ⟨hf, hkf⟩ := List.mem_filter.mp hf
    obtain ⟨hg, hkg⟩ := List.mem_filter.mp hg
    have hkey : packetKey f = packetKey g := by
      simp only [Function.comp_apply, decide_eq_true_eq] at hkf hkg
      exact hkf.trans hkg.symm
    by_contra hne
    rcases selfRelay_of_same_origin hinv.sound hf hg hkey horigin hne with hself | hself
    · exact hno f hf g hg hself
    · exact hno g hg f hf hself
  refine ⟨hnodup, fun hcan => ?_⟩
  rw [List.toFinset_card_of_nodup hnodup, List.length_map, ← List.countP_eq_length_filter]
  exact of_decide_eq_true hcan

/-- The third process hears of the message from its origin and from the second process. -/
def trioRelayed : List Action :=
  [.setBroadcastActive 1, .setBroadcastActive 2, .setBroadcastActive 3, .broadcastMessage 1,
    .receive 2 1 (packetText 1 2 trioFirst), .receive 3 1 (packetText 1 3 trioFirst),
    .receive 3 2 (packetText 2 3 (relayFrame 1 trioFirst))]

theorem acks_are_votes_trio :
    ((((stack trio).afterBy NoSelfRelay trioRelayed).proc 3).urb.ack.filter
      (·.1 = messageKey 1 trioFirst)).map Prod.snd = [pad3 1, pad3 2] ∧
    [pad3 1, pad3 2].Nodup := by
  have hacks : ((((stack trio).afterBy NoSelfRelay trioRelayed).proc 3).urb.ack.filter
      (·.1 = messageKey 1 trioFirst)).map Prod.snd = [pad3 1, pad3 2] := by decide
  exact ⟨hacks, hacks ▸ (acks_are_votes trio _
    ((stack trio).reachableBy_after NoSelfRelay trioRelayed) 3 (messageKey 1 trioFirst)).1⟩

/-- The first process takes the relay of its own message for a new message and relays it. -/
theorem acks_not_votes_selfRelay : ¬ ∀ (cfg : Config) (s : Sys), (stack cfg).Reachable s → ∀ q k,
    (((s.proc q).urb.ack.filter (·.1 = k)).map Prod.snd).Nodup := by
  intro h
  have := h trio _ ((stack trio).reachable_after trioWaiting) 2 (messageKey 1 trioFirst)
  exact absurd this (by decide)

end DecentralizedBroadcast
