import DecentralizedBroadcast.CausalOrder
import DecentralizedBroadcast.SettledDelivery

/-! What localized causal broadcast guarantees once the program is at rest: all packets between
live processes have arrived, and no pass of a live process finds anything to deliver. -/
set_option autoImplicit false

namespace DecentralizedBroadcast
open History ClockedDelivery

def UrbIdle (N : Nat) (q : Process) : Prop := (q.urb.deliverPending N).2 = []

instance (N : Nat) (q : Process) : Decidable (UrbIdle N q) := inferInstanceAs (Decidable (_ = []))

def LcbIdle (q : Process) : Prop := q.lcb.Quiet

structure AtRest (cfg : Config) (s : Sys) : Prop where
  settled : Settled s
  urb : ∀ p ∈ live cfg.N s, UrbIdle cfg.N (s.proc p)
  lcb : ∀ p ∈ live cfg.N s, LcbIdle (s.proc p)

theorem urbIdle_iff {N : Nat} {q : Process} : UrbIdle N q ↔
    ∀ k ∈ q.urb.pending, q.urb.canDeliver N k = true → q.urb.delivered k ≠ 0 := by
  cases hu : q.urb.deliverPending N with
  | mk u up =>
    obtain ⟨-, -, -, -, hall⟩ := urb_deliverLoop hu
    rw [UrbIdle, hu]
    constructor
    · rintro rfl k hk hcan h0
      have hin := (hall k).mpr ⟨hk, hcan, h0⟩
      simp at hin
    · intro h
      refine List.eq_nil_iff_forall_not_mem.mpr fun k hk => ?_
      obtain ⟨hp, hcan, h0⟩ := (hall k).mp hk
      exact h k hp hcan h0

theorem lcbIdle_of_nothing {q q' : Process} (h : q.lcbDeliverPending = .ok (q', [])) :
    LcbIdle q := by
  obtain ⟨⟨l, out⟩, hl, hout⟩ := bind_eq_ok.mp h
  obtain ⟨-, hnone⟩ := Prod.mk.inj (Except.ok.inj hout)
  obtain rfl := List.map_eq_nil_iff.mp hnone
  obtain ⟨rfl, -⟩ := deliverLoop_nothing hl
  exact hl

theorem lcbIdle_iff {q : Process} : LcbIdle q ↔
    ∀ e ∈ q.lcb.pairs.entries, Lcb.isInferior q.lcb.vc e.2 = false :=
  ⟨fun h => (deliverLoop_nothing h).2, fun h =>
    lcbIdle_of_nothing (lcbDeliverPending_of_notReady h)⟩

section Rest
variable {cfg : Config} {s : Sys} (hn : NetInv cfg.N s.net) (h : StackInv cfg s)
include h

theorem UrbIdle.delivered {p : Nat} (hi : UrbIdle cfg.N (s.proc p)) {k : Str}
    (hcan : (s.proc p).urb.canDeliver cfg.N k = true) : k ∈ said .urbDeliver p s.trace := by
  have hv := ((h.proc p).canDeliver cfg.N k).mp hcan
  obtain ⟨f, hf, hk⟩ := handles_of_votes (Nat.zero_lt_of_lt hv)
  have hpend := ((h.proc p).pending k).mpr (.inr (List.mem_map.mpr ⟨f, hf, hk⟩))
  have hdel := urbIdle_iff.mp hi k hpend hcan
  by_contra hnot
  exact hdel (by rw [(h.proc p).delivered, if_neg hnot])

theorem LcbIdle.notReady {p : Nat} (hi : LcbIdle (s.proc p)) {k : Str}
    (hrec : k ∈ said .urbDeliver p s.trace) (hnew : k ∉ said .lcbDeliver p s.trace) :
    ¬ Ready keyOrigin need (said .lcbDeliver p s.trace) k := by
  have hpass := lcbDeliverPending_of_notReady (lcbIdle_iff.mp hi)
  exact (h.proc p).notReady h.sound hpass hrec hnew

include hn

variable (hset : Settled s) (hmany : cfg.N / 2 + 2 ≤ (live cfg.N s).card)
include hset hmany

/-- The message of a live origin, or one that URB delivered anywhere, can be delivered by all. -/
theorem canDeliver_everywhere {origin : Nat} {text : Str}
    (ht : text ∈ said .broadcast origin s.trace)
    (hwho : origin ∈ live cfg.N s ∨
      ∃ r, (s.proc r).urb.delivered (messageKey origin text) ≠ 0) {p : Nat}
    (hp : p ∈ live cfg.N s) :
    (s.proc p).urb.canDeliver cfg.N (messageKey origin text) = true := by
  have hcard := live_add_failed cfg.N s
  exact canDeliver_of_extraVote hn h hset (by omega) ht hp
    (all_handle hn h hset (by omega) ht hwho) (.inl hmany)

variable (hurb : ∀ p ∈ live cfg.N s, UrbIdle cfg.N (s.proc p))
include hurb

/-- URB has handed up at every live process what it has handed up anywhere. -/
theorem urbDeliver_everywhere {q : Nat} {k : Str} (hk : k ∈ said .urbDeliver q s.trace) {p : Nat}
    (hp : p ∈ live cfg.N s) : k ∈ said .urbDeliver p s.trace := by
  obtain ⟨origin, text, ht, rfl⟩ := urbDeliver_known h.sound hk
  refine (hurb p hp).delivered h (canDeliver_everywhere hn h hset hmany ht (.inr ⟨q, ?_⟩) hp)
  rw [(h.proc q).delivered, if_pos hk]
  exact one_ne_zero

theorem urbDeliver_live {x p : Nat} (hx : x ∈ live cfg.N s) (hp : p ∈ live cfg.N s) {text : Str}
    (ht : text ∈ said .broadcast x s.trace) : messageKey x text ∈ said .urbDeliver p s.trace :=
  (hurb p hp).delivered h (canDeliver_everywhere hn h hset hmany ht (.inl hx) hp)

/-- All that a message of a live process comes after has been handed up at that process. -/
theorem past_received {x : Nat} (hx : x ∈ live cfg.N s) {text : Str}
    (ht : text ∈ said .broadcast x s.trace) {k : Str}
    (hpast : Relation.TransGen (DirectPast cfg s.trace) k (messageKey x text)) :
    k ∈ said .urbDeliver x s.trace := by
  have hs := h.sound
  -- along the chain: own messages up to the first one of another process, which was delivered here
  have hall : ∀ m, Relation.TransGen (DirectPast cfg s.trace) k m → ∀ text,
      text ∈ said .broadcast x s.trace → m = messageKey x text →
      k ∈ said .urbDeliver x s.trace := by
    have direct : ∀ c text, text ∈ said .broadcast x s.trace →
        DirectPast cfg s.trace c (messageKey x text) →
        (∃ text' ∈ said .broadcast x s.trace, c = messageKey x text') ∨
          c ∈ said .lcbDeliver x s.trace := by
      intro c text ht hd
      cases hd with
      | @sameOrigin y text₁ text' past rest htr key earlier key' =>
        have hy : text₁ ∈ said .broadcast y s.trace := mem_said.mpr (by simp [htr])
        obtain ⟨rfl, rfl⟩ := messageKey_injective (broadcast_fits hs ht).2.2
          (broadcast_fits hs hy).2.2 key
        exact .inl ⟨text', by rw [htr, said_append]; simp [earlier], key'⟩
      | @dependency y text₁ past rest htr key delivered dep =>
        have hy : text₁ ∈ said .broadcast y s.trace := mem_said.mpr (by simp [htr])
        obtain ⟨rfl, rfl⟩ := messageKey_injective (broadcast_fits hs ht).2.2
          (broadcast_fits hs hy).2.2 key
        exact .inr (by rw [htr, said_append]; simp [delivered])
    intro m hm
    induction hm with
    | single hd =>
      rintro text ht rfl
      rcases direct _ _ ht hd with ⟨text', ht', rfl⟩ | hdel
      · exact urbDeliver_live hn h hset hmany hurb hx hx ht'
      · exact lcbDeliver_received hs hdel
    | @tail c m hkc hd ih =>
      rintro text ht rfl
      rcases direct _ _ ht hd with ⟨text', ht', rfl⟩ | hdel
      · exact ih text' ht' rfl
      · obtain ⟨before, after, hsplit⟩ := List.append_of_mem hdel
        have hin := (orderly hs x).causal (known_unique hs) (fun _ _ hd => hd.covers hs)
          (fun _ hx => lcbDeliver_known hs hx) hkc hsplit
        exact lcbDeliver_received hs (by simp [hsplit, hin])
  exact hall _ hpast text ht rfl

end Rest

namespace AtRest
variable {cfg : Config} {s : Sys} (hr : (stack cfg).Reachable s) (hrest : AtRest cfg s)
  (hmany : cfg.N / 2 + 2 ≤ (live cfg.N s).card)
include hr hrest

theorem stuck {p : Nat} (hp : p ∈ live cfg.N s) : ∀ m ∈ {k | k ∈ said .urbDeliver p s.trace},
    m ∉ said .lcbDeliver p s.trace → ¬ Ready keyOrigin need (said .lcbDeliver p s.trace) m :=
  fun _ hm hnew => (hrest.lcb p hp).notReady (stackInv_reachable hr) hm hnew

include hmany

theorem subset (q : Nat) {p : Nat} (hp : p ∈ live cfg.N s) :
    said .lcbDeliver q s.trace ⊆ said .lcbDeliver p s.trace := by
  have h := stackInv_reachable hr
  refine (orderly h.sound q).subset_of_stuck (fun m hm => ?_) (hrest.stuck hr hp)
  exact urbDeliver_everywhere (netInv_reachableBy (stack_links hr)) h hrest.settled hmany
    hrest.urb (lcbDeliver_received h.sound hm) hp

theorem ownDelivered {x : Nat} (hx : x ∈ live cfg.N s) {text : Str}
    (ht : text ∈ said .broadcast x s.trace) :
    messageKey x text ∈ said .lcbDeliver x s.trace := by
  have hn := netInv_reachableBy (stack_links hr)
  have h := stackInv_reachable hr
  have hs := h.sound
  by_contra hnew
  obtain ⟨k, hpast, hnot⟩ := (orderly hs x).blocked (known_unique hs) (directPast_wf hs)
    (directPast_complete hs) (fun _ hk => lcbDeliver_known hs hk) (hrest.stuck hr hx)
    (show Known s.trace (messageKey x text) from ⟨x, text, ht, rfl⟩)
    (urbDeliver_live hn h hrest.settled hmany hrest.urb hx hx ht) hnew
  exact hnot (past_received hn h hrest.settled hmany hrest.urb hx ht hpast)

theorem vc_eq_lsn {x p : Nat} (hx : x ∈ live cfg.N s) (hp : p ∈ live cfg.N s) :
    (s.proc p).lcb.vc x = (s.proc x).lcb.lsn := by
  have h := stackInv_reachable hr
  rw [(h.proc p).vc, (h.proc x).lsn, vcOf, count_eq_length h.sound fun text ht =>
    hrest.subset hr hmany x hp (hrest.ownDelivered hr hmany hx ht)]

theorem vc_eq {p q : Nat} (hp : p ∈ live cfg.N s) (hq : q ∈ live cfg.N s) :
    (s.proc p).lcb.vc = (s.proc q).lcb.vc := by
  have h := stackInv_reachable hr
  have hperm : (said .lcbDeliver p s.trace).Perm (said .lcbDeliver q s.trace) :=
    (List.perm_ext_iff_of_nodup (orderly h.sound p).nodup (orderly h.sound q).nodup).mpr
      fun m => ⟨fun hm => hrest.subset hr hmany p hq hm, fun hm => hrest.subset hr hmany q hp hm⟩
  rw [(h.proc p).vc, (h.proc q).vc]
  funext z
  rw [vcOf, vcOf, count, count, deliveriesFrom, deliveriesFrom, (hperm.filter _).length_eq]

end AtRest

/-- All packets of the first message have arrived, and each process made its passes. -/
def trioAtRest : List Action :=
  trioSettled ++ [.urbDeliverPending 1, .urbDeliverPending 2, .urbDeliverPending 3,
    .lcbDeliverPending 1, .lcbDeliverPending 2, .lcbDeliverPending 3]

theorem trioAtRest_live : live trio.N ((stack trio).after trioAtRest) = Finset.Icc 1 3 := by
  refine Finset.filter_true_of_mem fun p hp => ?_
  have hid : p = 1 ∨ p = 2 ∨ p = 3 := by
    have : 1 ≤ p ∧ p ≤ 3 := Finset.mem_Icc.mp hp
    omega
  rcases hid with rfl | rfl | rfl <;> decide

theorem trioAtRest_rest : AtRest trio ((stack trio).after trioAtRest) := by
  have hid : ∀ p ∈ live trio.N ((stack trio).after trioAtRest), p = 1 ∨ p = 2 ∨ p = 3 := by
    intro p hp
    rw [trioAtRest_live] at hp
    have := Finset.mem_Icc.mp hp
    omega
  refine ⟨by decide, fun p hp => ?_, fun p hp => ?_⟩
  · rcases hid p hp with rfl | rfl | rfl <;> decide
  · have hempty : (((stack trio).after trioAtRest).proc p).lcb.pairs.entries = [] := by
      rcases hid p hp with rfl | rfl | rfl <;> decide
    rw [LcbIdle, Lcb.Quiet, Lcb.deliverPending, hempty]
    rfl

/-- At rest with one live process more than a majority, whatever the run was: a live process has
delivered all that any process, crashed or not, has delivered, and every message of the live
ones; the clocks of the live processes are equal. -/
theorem rest_agreement (cfg : Config) (s : Sys) (hr : (stack cfg).Reachable s)
    (hrest : AtRest cfg s) (hmany : cfg.N / 2 + 2 ≤ (live cfg.N s).card) :
    (∀ q, ∀ p ∈ live cfg.N s, said .lcbDeliver q s.trace ⊆ said .lcbDeliver p s.trace) ∧
    (∀ x ∈ live cfg.N s, ∀ p ∈ live cfg.N s, (s.proc p).lcb.vc x = (s.proc x).lcb.lsn) ∧
    ∀ p ∈ live cfg.N s, ∀ q ∈ live cfg.N s, (s.proc p).lcb.vc = (s.proc q).lcb.vc :=
  ⟨fun q _ hp => hrest.subset hr hmany q hp, fun _ hx _ hp => hrest.vc_eq_lsn hr hmany hx hp,
    fun _ hp _ hq => hrest.vc_eq hr hmany hp hq⟩

theorem rest_agreement_trio :
    said .lcbDeliver 1 ((stack trio).after trioAtRest).trace ⊆
      said .lcbDeliver 3 ((stack trio).after trioAtRest).trace ∧
    (((stack trio).after trioAtRest).proc 3).lcb.vc 1 = 1 := by
  have h := rest_agreement trio _ ((stack trio).reachable_after trioAtRest) trioAtRest_rest
    (by rw [trioAtRest_live]; decide)
  rw [trioAtRest_live] at h
  exact ⟨h.1 1 3 (by decide), (h.2.1 1 (by decide) 3 (by decide)).trans (by decide)⟩

end DecentralizedBroadcast
