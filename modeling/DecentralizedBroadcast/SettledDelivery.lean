import DecentralizedBroadcast.UniformDelivery

/-! Validity and uniform agreement once everything has arrived: which messages the live
processes can deliver then, and exactly when that is all of them. -/
set_option autoImplicit false

namespace DecentralizedBroadcast
open History

def live (N : Nat) (s : Sys) : Finset Nat := (Finset.Icc 1 N).filter (s.crashed · = false)

def failed (N : Nat) (s : Sys) : Finset Nat := (Finset.Icc 1 N).filter (s.crashed · = true)

/-- Every frame that a live process queued for a live one was received and handled. -/
def Settled (s : Sys) : Prop :=
  ∀ e ∈ s.net.queued, s.crashed e.1 = false → s.crashed e.2.1 = false →
    e.2.2.drop 1 ∈ (s.net.layer e.2.1).processDelivered

instance (s : Sys) : Decidable (Settled s) := inferInstanceAs (Decidable (∀ e ∈ s.net.queued, _))

def Validity (cfg : Config) (s : Sys) : Prop :=
  ∀ p ∈ live cfg.N s, ∀ text ∈ said .broadcast p s.trace,
    (s.proc p).urb.canDeliver cfg.N (messageKey p text) = true

def UniformAgreement (cfg : Config) (s : Sys) : Prop :=
  ∀ k q, (s.proc q).urb.delivered k ≠ 0 →
    ∀ p ∈ live cfg.N s, (s.proc p).urb.canDeliver cfg.N k = true

/-- `q` has handled a packet of key `k` from a process that has crashed since. -/
def HeardFromFailed (s : Sys) (q : Nat) (k : Str) : Prop :=
  ∃ f ∈ (s.proc q).messagesDelivered, packetKey f = k ∧
    ∃ p, s.crashed p = true ∧ packetOrigin f = pad3 p

/-- Where the live processes are one short of making up for the vote nobody has for itself,
a crashed one helped: at the origin of a message, and for a message of a crashed origin. -/
def ExtraVote (cfg : Config) (s : Sys) : Prop :=
  ∀ origin, ∀ text ∈ said .broadcast origin s.trace, ∀ q ∈ live cfg.N s,
    q = origin ∨ s.crashed origin = true ∧
      (∃ r, (s.proc r).urb.delivered (messageKey origin text) ≠ 0) →
    cfg.N / 2 + 2 ≤ (live cfg.N s).card ∨ HeardFromFailed s q (messageKey origin text)

theorem mem_live {N : Nat} {s : Sys} {p : Nat} :
    p ∈ live N s ↔ (1 ≤ p ∧ p ≤ N) ∧ s.crashed p = false := by simp [live]

theorem live_add_failed (N : Nat) (s : Sys) : (live N s).card + (failed N s).card = N := by
  have hpart := Finset.card_filter_add_card_filter_not (s := Finset.Icc 1 N)
    (p := (s.crashed · = false))
  simpa [live, failed] using hpart

theorem Handles.fits {cfg : Config} {s : Sys} (h : StackInv cfg s) {k : Str} {r : Nat}
    (hk : Handles s k r) : r ≤ 999 := by
  obtain ⟨g, hg, -⟩ := hk
  obtain ⟨-, -, -, hr, -⟩ := handUp_cases h.sound hg
  exact hr

/-- Nobody votes for itself: without the help of a crashed process, the votes that a process
gets for its own message, or for one of a crashed origin, come from the other live ones. -/
theorem votes_lt_live {cfg : Config} {s : Sys} (h : StackInv cfg s) {origin q : Nat} {text : Str}
    (ht : text ∈ said .broadcast origin s.trace)
    (hq : q ∈ live cfg.N s) (hwho : q = origin ∨ s.crashed origin = true)
    (hnone : ¬ HeardFromFailed s q (messageKey origin text)) :
    votes s.trace q (messageKey origin text) + 1 ≤ (live cfg.N s).card := by
  have hknown : Known s.trace (messageKey origin text) := ⟨origin, text, ht, rfl⟩
  have hlive : ∀ f ∈ said .handUp q s.trace, packetKey f = messageKey origin text →
      ∀ p, packetOrigin f = pad3 p → s.crashed p = false := by
    intro f hf hkey p hp
    by_contra hc
    exact hnone ⟨f, (h.proc q).seen ▸ hf, hkey, p, by simpa using hc, hp⟩
  have hnoDirect : packetText origin q text ∉ said .handUp q s.trace := by
    intro hin
    obtain ⟨p, hl, hp, hq3, ho, -⟩ := handUp_cases h.sound hin
    have hs := (broadcast_fits h.sound ht).2.2
    have hself : origin = p := by
      rw [packetOrigin_packetText hs] at ho
      exact pad3_injective ho
    rcases hwho with rfl | hc
    · exact hl.2.2.2.2 hself.symm
    · have hkey := packetKey_own hs hq3 (broadcast_plain h.sound ht)
      have := hlive _ hin hkey origin (packetOrigin_packetText hs q text)
      rw [hc] at this
      cases this
  have hsub : relayers s.trace q (messageKey origin text) ⊆ (live cfg.N s).erase q := by
    intro p hp
    obtain ⟨hl, hp3, hin, -⟩ := (mem_relayers h.sound hknown).mp hp
    obtain ⟨-, -, -, hq3, -⟩ := handUp_cases h.sound hin
    have hkey := packetKey_relay hp3 hq3 (hknown.plain h.sound)
    have hpl := hlive _ hin hkey p (packetOrigin_packetText hp3 q _)
    exact Finset.mem_erase.mpr ⟨hl.2.2.2.2, mem_live.mpr ⟨⟨hl.1, hl.2.1⟩, hpl⟩⟩
  have hle := Finset.card_le_card hsub
  have hpos := Finset.card_pos.mpr ⟨q, hq⟩
  rw [Finset.card_erase_of_mem hq] at hle
  rw [votes_eq h.sound ht, if_neg hnoDirect]
  omega

section Settled
variable {cfg : Config} {s : Sys} (hn : NetInv cfg.N s.net) (h : StackInv cfg s)
  (hset : Settled s)
include hn h hset

theorem settled_handUp {p q : Nat} {frame : Str} (hp : p ∈ live cfg.N s) (hq : q ∈ live cfg.N s)
    (hpq : p ≠ q) (hf : frame ∈ said .beb p s.trace) :
    packetText p q frame ∈ said .handUp q s.trace := by
  obtain ⟨hpid, hpl⟩ := mem_live.mp hp
  obtain ⟨hqid, hql⟩ := mem_live.mp hq
  have hlink : HasLink cfg.N p q := ⟨hpid.1, hpid.2, hqid.1, hqid.2, hpq⟩
  have hqueued := (h.posted.queued p q _).mpr ⟨hlink, frame, hf, rfl⟩
  have hdel := hset _ hqueued hpl hql
  exact (h.posted.handed q _).mp ((hn.handed q _).mpr ⟨_, rfl, hdel⟩)

theorem Handles.spread {k : Str} {r : Nat} (hr : r ∈ live cfg.N s) (hk : Handles s k r) :
    ∀ q ∈ live cfg.N s, Handles s k q := by
  intro q hq
  by_cases hrq : r = q
  · exact hrq ▸ hk
  · have hfits := hk.fits h
    obtain ⟨g, hg, rfl⟩ := hk
    have hup := settled_handUp hn h hset hr hq hrq (h.relayed r g hg)
    obtain ⟨-, -, -, hq3, -⟩ := handUp_cases h.sound hup
    exact ⟨_, hup, packetKey_relay hfits hq3 ((handUp_known h.sound hg).plain h.sound)⟩

theorem live_erase_subset {k : Str} {q : Nat} (hq : q ∈ live cfg.N s)
    (hall : ∀ p ∈ live cfg.N s, Handles s k p) :
    (live cfg.N s).erase q ⊆ relayers s.trace q k := by
  intro p hp
  obtain ⟨hpq, hp⟩ := Finset.mem_erase.mp hp
  have hfits := (hall p hp).fits h
  obtain ⟨g, hg, rfl⟩ := hall p hp
  exact Finset.mem_filter.mpr ⟨Finset.mem_range.mpr (by omega),
    settled_handUp hn h hset hp hq hpq (h.relayed p g hg)⟩

theorem live_le_relayers {k : Str} {q : Nat} (hq : q ∈ live cfg.N s)
    (hall : ∀ p ∈ live cfg.N s, Handles s k p) :
    (live cfg.N s).card ≤ (relayers s.trace q k).card + 1 := by
  have hle := Finset.card_le_card (live_erase_subset hn h hset hq hall)
  rw [Finset.card_erase_of_mem hq] at hle
  omega

variable (hmin : 2 * (failed cfg.N s).card < cfg.N)
include hmin

theorem all_handle {origin : Nat} {text : Str} (ht : text ∈ said .broadcast origin s.trace)
    (hwho : origin ∈ live cfg.N s ∨
      ∃ r, (s.proc r).urb.delivered (messageKey origin text) ≠ 0) :
    ∀ q ∈ live cfg.N s, Handles s (messageKey origin text) q := by
  have hcard := live_add_failed cfg.N s
  have htwo := cfg.two_le
  rcases hwho with ho | ⟨r, hr⟩
  · obtain ⟨q, hq, hne⟩ := Finset.exists_mem_ne (by omega : 1 < (live cfg.N s).card) origin
    have hup := settled_handUp hn h hset ho hq (Ne.symm hne) (h.sent origin text ht)
    obtain ⟨-, -, -, hq3, -⟩ := handUp_cases h.sound hup
    have hkey := packetKey_own (broadcast_fits h.sound ht).2.2 hq3 (broadcast_plain h.sound ht)
    exact Handles.spread hn h hset hq ⟨_, hup, hkey⟩
  · -- more holders than crashed processes: one of them lives
    have hv := votes_of_canDeliver h (.inr hr)
    have hlt : (failed cfg.N s).card <
        (insert r (relayers s.trace r (messageKey origin text))).card := by
      have := relayers_card h.sound hv
      omega
    obtain ⟨p, hp, hnot⟩ := Finset.exists_mem_notMem_of_card_lt_card hlt
    obtain ⟨hid, hhandles⟩ := holders_handle h hv hp
    refine Handles.spread hn h hset (mem_live.mpr ⟨hid, ?_⟩) hhandles
    simpa [failed, hid] using hnot

theorem canDeliver_of_extraVote {origin q : Nat} {text : Str}
    (ht : text ∈ said .broadcast origin s.trace) (hq : q ∈ live cfg.N s)
    (hall : ∀ p ∈ live cfg.N s, Handles s (messageKey origin text) p)
    (hextra : cfg.N / 2 + 2 ≤ (live cfg.N s).card ∨ HeardFromFailed s q (messageKey origin text) ∨
      packetText origin q text ∈ said .handUp q s.trace) :
    (s.proc q).urb.canDeliver cfg.N (messageKey origin text) = true := by
  have hcard := live_add_failed cfg.N s
  have hle := live_le_relayers hn h hset hq hall
  have hknown : Known s.trace (messageKey origin text) := ⟨origin, text, ht, rfl⟩
  rw [(h.proc q).canDeliver, votes_eq h.sound ht]
  have hdirect : packetText origin q text ∈ said .handUp q s.trace → cfg.N / 2 <
      (if packetText origin q text ∈ said .handUp q s.trace then 1 else 0) +
        (relayers s.trace q (messageKey origin text)).card := by
    intro hin
    rw [if_pos hin]
    omega
  rcases hextra with hmany | ⟨f, hf, hkey, p, hp, horigin⟩ | hin
  · omega
  · rw [(h.proc q).seen] at hf
    obtain ⟨p', hl, hp', -, horigin', hcase⟩ := handUp_cases h.sound hf
    obtain rfl := pad3_injective (horigin.symm.trans horigin')
    rw [hkey] at hcase
    cases hcase with
    | own text' given key eq =>
      obtain ⟨rfl, rfl⟩ := messageKey_injective (broadcast_fits h.sound ht).2.2 hp' key
      exact hdirect (eq ▸ hf)
    | relay given eq =>
      have hrel : p ∈ relayers s.trace q (messageKey origin text) :=
        (mem_relayers h.sound hknown).mpr ⟨hl, hp', eq ▸ hf, given⟩
      have hnotLive : p ∉ (live cfg.N s).erase q := by
        intro hin
        have := (mem_live.mp (Finset.mem_of_mem_erase hin)).2
        rw [hp] at this
        cases this
      have hins := Finset.card_le_card
        (Finset.insert_subset hrel (live_erase_subset hn h hset hq hall))
      rw [Finset.card_insert_of_notMem hnotLive, Finset.card_erase_of_mem hq] at hins
      omega
  · exact hdirect hin

end Settled

/-- In a settled state with a live majority the live processes can deliver all they should
exactly when the extra votes are there. -/
theorem settled_delivery (cfg : Config) (s : Sys) (hr : (stack cfg).Reachable s)
    (hset : Settled s) (hmin : 2 * (failed cfg.N s).card < cfg.N) :
    (Validity cfg s ∧ UniformAgreement cfg s) ↔ ExtraVote cfg s := by
  have hn := netInv_reachableBy (stack_links hr)
  have h := stackInv_reachable hr
  constructor
  · rintro ⟨hval, hagr⟩ origin text ht q hq hwho
    have hcan : (s.proc q).urb.canDeliver cfg.N (messageKey origin text) = true := by
      rcases hwho with rfl | ⟨-, r, hdel⟩
      · exact hval q hq text ht
      · exact hagr _ r hdel q hq
    by_cases hheard : HeardFromFailed s q (messageKey origin text)
    · exact .inr hheard
    · have hlt := votes_lt_live h ht hq (hwho.imp id And.left) hheard
      have hv := ((h.proc q).canDeliver _ _).mp hcan
      exact .inl (by omega)
  · intro hextra
    constructor
    · intro p hp text ht
      refine canDeliver_of_extraVote hn h hset hmin ht hp
        (all_handle hn h hset hmin ht (.inl hp)) ?_
      exact (hextra p text ht p hp (.inl rfl)).imp id .inl
    · intro k q hdel p hp
      have hv := votes_of_canDeliver h (.inr hdel)
      obtain ⟨origin, text, ht, rfl⟩ := known_of_votes h.sound (Nat.zero_lt_of_lt hv)
      refine canDeliver_of_extraVote hn h hset hmin ht hp
        (all_handle hn h hset hmin ht (.inr ⟨q, hdel⟩)) ?_
      by_cases hpo : p = origin
      · exact (hextra origin text ht p hp (.inl hpo)).imp id .inl
      · by_cases ho : s.crashed origin = true
        · exact (hextra origin text ht p hp (.inr ⟨ho, q, hdel⟩)).imp id .inl
        · -- a live origin has reached every other live process itself
          obtain ⟨h1, hN, -⟩ := broadcast_fits h.sound ht
          have holive : origin ∈ live cfg.N s := mem_live.mpr ⟨⟨h1, hN⟩, by simpa using ho⟩
          exact .inr (.inr (settled_handUp hn h hset holive hp (Ne.symm hpo)
            (h.sent origin text ht)))

/-- Every frame of the first message is exchanged between all three processes. -/
def trioSettled : List Action :=
  trioRelayed ++ [.receive 2 3 (packetText 3 2 (relayFrame 1 trioFirst)),
    .receive 1 2 (packetText 2 1 (relayFrame 1 trioFirst)),
    .receive 1 3 (packetText 3 1 (relayFrame 1 trioFirst)),
    .receive 2 1 (packetText 1 2 (relayFrame 1 trioFirst)),
    .receive 3 1 (packetText 1 3 (relayFrame 1 trioFirst))]

theorem settled_delivery_trio : Settled ((stack trio).after trioSettled) ∧
    Validity trio ((stack trio).after trioSettled) ∧
    UniformAgreement trio ((stack trio).after trioSettled) := by
  have hset : Settled ((stack trio).after trioSettled) := by decide
  have hcard : trio.N / 2 + 2 ≤ (live trio.N ((stack trio).after trioSettled)).card := by decide
  exact ⟨hset, (settled_delivery trio _ ((stack trio).reachable_after trioSettled) hset
    (by decide)).mpr fun _ _ _ _ _ _ => .inl hcard⟩

def trioCrashed : List Action :=
  [.crash 3, .setBroadcastActive 1, .setBroadcastActive 2, .broadcastMessage 1,
    .receive 2 1 (packetText 1 2 trioFirst), .receive 1 2 (packetText 2 1 (relayFrame 1 trioFirst)),
    .receive 2 1 (packetText 1 2 (relayFrame 1 trioFirst))]

/-- The origin has one ack of the two it needs, and no more will come. -/
theorem settled_delivery_crashed : ¬ ∀ (cfg : Config) (s : Sys), (stack cfg).Reachable s →
    Settled s → 2 * (failed cfg.N s).card < cfg.N → Validity cfg s ∧ UniformAgreement cfg s := by
  intro h
  have hval := (h trio _ ((stack trio).reachable_after trioCrashed) (by decide) (by decide)).1
  exact absurd (hval 1 (by decide) trioFirst (by decide)) (by decide)

end DecentralizedBroadcast
