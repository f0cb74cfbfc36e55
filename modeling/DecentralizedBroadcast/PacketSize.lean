import DecentralizedBroadcast.NoFault
import Mathlib.Algebra.Order.BigOperators.Group.List

/-! How long packets get. They are formatted into an array of MAX_LENGTH characters;
a batch with its clock, which has one entry for every dependency, has to fit in there, and
so has the relay of both. -/
set_option autoImplicit false

namespace DecentralizedBroadcast
open History

/-- What `sendNewMessage` writes: the formatted text, the NUL of `%c`, the terminator. -/
def packetSize (p t : Nat) (msg : Str) : Nat := (packetText p t msg).length + 2

def PacketFits (p t : Nat) (msg : Str) : Prop := packetSize p t msg ≤ maxLength ∧ cStr msg = msg

/-- What `p` broadcasts next fits into the packets of `p` and into those of every relay. -/
def NextFits (cfg : Config) (s : Sys) (p : Nat) : Prop :=
  ∀ frame, Sends cfg s (.broadcastMessage p) frame →
    (∀ t, HasLink cfg.N p t → PacketFits p t frame) ∧
    ∀ q t, HasLink cfg.N q t → PacketFits q t (relayFrame p frame)

/-- The characters of a clock: marker and id before every count. -/
def clockSize (vc : Int → Int) (dependencies : List Int) (lsn : Nat) : Nat :=
  (dependencies.map fun d => 4 + (intToString (vc d)).length).sum + (4 + (decimal lsn).length)

/-- The header, the relay mark with an id, the batch, its clock, the NUL and the terminator. -/
def relaySize (cfg : Config) (s : Sys) (p : Nat) (msg : Str) : Nat :=
  7 + 4 + msg.length + clockSize (s.proc p).lcb.vc (cfg.localizedIds p) (s.proc p).lcb.lsn + 2

/-- There is room for the next batch of `p`, should there be one. -/
def Room (cfg : Config) (s : Sys) (p : Nat) : Prop :=
  ∀ msg ∈ (s.proc p).unsent.head?, relaySize cfg s p msg ≤ maxLength

instance (cfg : Config) (s : Sys) (p : Nat) : Decidable (Room cfg s p) :=
  inferInstanceAs (Decidable (∀ msg ∈ (s.proc p).unsent.head?, _))

/-- How many texts of `q` there can be before number `i` of `p`. -/
def sentBefore (cfg : Config) (p i q : Nat) : Nat :=
  if q = p then i else (mainBatches (cfg.m q)).length

/-- A relay of text number `i` of `p`, should `p` have delivered all that there can be by then. -/
def longestRelay (cfg : Config) (p i : Nat) (msg : Str) : Nat :=
  7 + 4 + msg.length +
    clockSize (fun d => (sentBefore cfg p i d.toNat : Nat)) (cfg.localizedIds p) i + 2

/-- There is room for every batch of `p` whatever it has delivered by then. This depends on the
configuration alone. -/
def AlwaysRoom (cfg : Config) (p : Nat) : Prop :=
  ∀ i msg, (mainBatches (cfg.m p))[i]? = some msg → longestRelay cfg p i msg ≤ maxLength

/-- The condition on a step: only main's own broadcasts make texts. -/
def HasRoom (cfg : Config) (s : Sys) : Action → Prop
  | .broadcastMessage p => Room cfg s p
  | _ => True

instance (cfg : Config) (s : Sys) : (a : Action) → Decidable (HasRoom cfg s a)
  | .broadcastMessage p => inferInstanceAs (Decidable (Room cfg s p))
  | .setBroadcastActive _ | .sendThreaded _ _ | .ackThreaded _ _ | .receive _ _ _
  | .urbDeliverPending _ | .lcbDeliverPending _ | .crash _ => inferInstanceAs (Decidable True)

theorem clockText_length {es : List (Int × Int)} (h : ∀ e ∈ es, FitsId e.1) :
    (clockText es).length = (es.map fun e => 4 + (intToString e.2).length).sum := by
  induction es with
  | nil => rfl
  | cons e es ih =>
    have hid := (h e (by simp)).length
    rw [clockText_cons, List.map_cons, List.sum_cons, ← ih fun x hx => h x (by simp [hx])]
    simp only [List.length_cons, List.length_append, hid]
    omega

theorem clockEntries_length {p : Nat} (hp : p ≤ 999) {ds : List Int} (h : ∀ d ∈ ds, FitsId d)
    (vc : Int → Int) (lsn : Nat) :
    (clockText (clockEntries vc ds p lsn)).length = clockSize vc ds lsn := by
  rw [clockText_length, clockEntries, List.map_append, List.sum_append, List.map_map]
  · rfl
  · intro e he
    rcases List.mem_append.mp he with he | he
    · obtain ⟨d, hd, rfl⟩ := List.mem_map.mp he
      exact h d hd
    · obtain rfl := List.mem_singleton.mp he
      exact fitsId_pad3 hp

theorem packetFits_iff {p t : Nat} (hp : p ≤ 999) (ht : t ≤ 999) {msg : Str} (h : cStr msg = msg) :
    PacketFits p t msg ↔ 7 + msg.length + 2 ≤ maxLength := by
  have hsize : packetSize p t msg = 7 + msg.length + 2 := by
    simp only [packetSize, packetText, List.length_cons, List.length_append, pad3_length hp,
      pad3_length ht, h]
    omega
  rw [PacketFits, hsize]
  exact and_iff_left h

theorem relayFrame_length {s : Nat} (hs : s ≤ 999) (text : Str) :
    (relayFrame s text).length = 4 + text.length := by
  rw [relayFrame, List.length_cons, List.length_append, pad3_length hs]
  omega

section Reached
variable {cfg : Config} {s : Sys} (hN : cfg.N ≤ 999) (hd : DependsOnProcesses cfg)
  (h : StackInv cfg s)
include hN hd h

theorem StackInv.nextFrame {p : Nat} (hp : 1 ≤ p ∧ p ≤ cfg.N) {msg : Str} {rest : List Str}
    (hu : (s.proc p).unsent = msg :: rest) :
    ∃ frame, (∀ f, Sends cfg s (.broadcastMessage p) f ↔ f = frame) ∧ Plain frame ∧
      relaySize cfg s p msg = 7 + (4 + frame.length) + 2 := by
  have hfits : p ≤ 999 := Nat.le_trans hp.2 hN
  have hids := hd.fitsId hN hp
  obtain ⟨q, hb⟩ := Process.broadcastMessage_total hfits hids { s.proc p with unsent := rest } msg
  refine ⟨msg ++ clockText (clockEntries (s.proc p).lcb.vc (cfg.localizedIds p) p
    (s.proc p).lcb.lsn), fun f => ⟨fun hf => ?_, ?_⟩, ?_, ?_⟩
  · cases hf with
    | own next built =>
      obtain ⟨rfl, rfl⟩ := List.cons.inj (hu.symm.trans next)
      exact (Prod.mk.inj (Except.ok.inj (built.symm.trans hb))).2
  · rintro rfl
    exact .own hu hb
  · obtain ⟨batch, ho⟩ := ((h.proc p).broadcast hp hu hb).1.origin
    exact ho.plain
  · rw [List.length_append, clockEntries_length hfits hids, relaySize]
    omega

/-- Every process can relay, and a relay is longer than what it relays. -/
theorem StackInv.nextFits_iff {p : Nat} (hp : 1 ≤ p ∧ p ≤ cfg.N) :
    NextFits cfg s p ↔ Room cfg s p := by
  have hlink : HasLink cfg.N p (if p = 1 then 2 else 1) := by
    have := cfg.two_le
    unfold HasLink
    split <;> omega
  have hid : ∀ {q t : Nat}, HasLink cfg.N q t → q ≤ 999 ∧ t ≤ 999 := fun hl =>
    ⟨Nat.le_trans hl.2.1 hN, Nat.le_trans hl.2.2.2.1 hN⟩
  cases hu : (s.proc p).unsent with
  | nil =>
    refine iff_of_true (fun frame hf => ?_) (fun msg hm => ?_)
    · cases hf with
      | own next built =>
        rw [hu] at next
        cases next
    · rw [hu] at hm
      cases hm
  | cons msg rest =>
    obtain ⟨frame, hframe, hplain, hsize⟩ := h.nextFrame hN hd hp hu
    have hrelay : cStr (relayFrame p frame) = relayFrame p frame :=
      cStr_relay (plain_messageKey hplain)
    have hlen := relayFrame_length (hid hlink).1 frame
    have hroom : Room cfg s p ↔ 7 + (4 + frame.length) + 2 ≤ maxLength := by
      simp [Room, hu, hsize]
    rw [hroom, ← hlen]
    constructor
    · intro hn
      exact (packetFits_iff (hid hlink).1 (hid hlink).2 hrelay).mp
        ((hn frame ((hframe frame).mpr rfl)).2 p _ hlink)
    · rintro hle f hf
      obtain rfl := (hframe f).mp hf
      refine ⟨fun t hl => ?_, fun q t hl => ?_⟩
      · exact (packetFits_iff (hid hl).1 (hid hl).2 hplain.cStr).mpr (by omega)
      · exact (packetFits_iff (hid hl).1 (hid hl).2 hrelay).mpr hle

end Reached

theorem step_broadcastMessage {cfg : Config} {s s' : Sys} {p : Nat}
    (hs : Sys.step cfg s (.broadcastMessage p) = some s') :
    s'.crashed = s.crashed ∧ ∃ frame, Sends cfg s (.broadcastMessage p) frame ∧
      ∀ q, said .broadcast q s'.trace =
        said .broadcast q s.trace ++ if q = p then [frame] else [] := by
  obtain ⟨hp, -, heff⟩ := step_effect hs
  cases heff with
  | @broadcast p msg frame rest q' s' hu hb hs =>
    have hb' := hb
    simp only [Process.broadcastMessage, bind_eq_ok] at hb'
    obtain ⟨⟨l, text⟩, hl, -⟩ := hb'
    obtain ⟨net, rfl, -⟩ := bebBroadcast_ok hp (broadcastMessage_ok hl).2.1 hs
    refine ⟨rfl, frame, .own hu hb, fun q => ?_⟩
    by_cases hpq : p = q
    · simp [said, hpq]
    · simp [said, hpq, Ne.symm hpq]

/-- Only main's own broadcasts make texts. -/
theorem step_broadcast {cfg : Config} {s s' : Sys} {a : Action} (hs : Sys.step cfg s a = some s')
    (q : Nat) : said .broadcast q s'.trace = said .broadcast q s.trace ∨
      ∃ frame, a = .broadcastMessage q ∧ Sends cfg s a frame ∧
        said .broadcast q s'.trace = said .broadcast q s.trace ++ [frame] := by
  by_cases ha : ∃ p, a = .broadcastMessage p
  · obtain ⟨p, rfl⟩ := ha
    obtain ⟨-, frame, hsends, hsaid⟩ := step_broadcastMessage hs
    have hq := hsaid q
    split at hq
    · rename_i hqp
      subst hqp
      exact .inr ⟨frame, rfl, hsends, hq⟩
    · exact .inl (hq.trans (List.append_nil _))
  obtain ⟨hp, -, heff⟩ := step_effect hs
  cases heff with
  | activate | sendThreaded | ackThreaded | receive | crash => exact .inl rfl
  | broadcast => exact absurd ⟨_, rfl⟩ ha
  | handUp | urbDeliverPending | lcbDeliverPending => exact .inl (by simp)
  | relay he hr hd hs =>
    obtain ⟨net, rfl, -⟩ := bebBroadcast_ok hp (receive_fits he.1 hr) hs
    exact .inl (by simp [said])

/-- In a run of steps with room, every text broadcast so far fits into a relay. -/
theorem texts_fit {cfg : Config} (hN : cfg.N ≤ 999) (hd : DependsOnProcesses cfg) {s : Sys}
    (h : (stack cfg).ReachableBy (HasRoom cfg) s) :
    ∀ q, ∀ text ∈ said .broadcast q s.trace, 7 + (4 + text.length) + 2 ≤ maxLength := by
  refine h.invariant_reached (fun s => ∀ q, ∀ text ∈ said .broadcast q s.trace,
    7 + (4 + text.length) + 2 ≤ maxLength) (by simp [stack, Sys.start]) ?_
  intro s a s' hreach hold hroom hs q text ht
  rcases step_broadcast hs q with heq | ⟨frame, rfl, hsends, heq⟩
  · exact hold q text (heq ▸ ht)
  · rw [heq] at ht
    rcases List.mem_append.mp ht with ht | ht
    · exact hold q text ht
    · obtain rfl := List.mem_singleton.mp ht
      cases hsends with
      | own next built =>
        obtain ⟨f, hf, -, hsize⟩ :=
          (stackInv_reachable hreach.reachable).nextFrame hN hd (step_effect hs).1 next
        obtain rfl := (hf text).mp (.own next built)
        rw [← hsize]
        exact hroom _ (by simp [next])

theorem relay_fits {cfg : Config} (hN : cfg.N ≤ 999) (hd : DependsOnProcesses cfg) {s : Sys}
    (h : (stack cfg).ReachableBy (HasRoom cfg) s) {k : Str} (hk : Known s.trace k) {p t : Nat}
    (hl : HasLink cfg.N p t) : PacketFits p t ('r' :: k) := by
  have hsound := (stackInv_reachable h.reachable).sound
  have hrelay := cStr_relay (hk.plain hsound)
  refine (packetFits_iff (Nat.le_trans hl.2.1 hN) (Nat.le_trans hl.2.2.2.1 hN) hrelay).mpr ?_
  obtain ⟨x, text, ht, rfl⟩ := hk
  rw [List.length_cons, messageKey, List.length_append, pad3_length (broadcast_fits hsound ht).2.2]
  have := texts_fit hN hd h x text ht
  omega

theorem bebBroadcast_total {N p : Nat} (hp : 1 ≤ p ∧ p ≤ N) {frame : Str}
    (h : ∀ t, HasLink N p t → PacketFits p t frame) (s : Sys) :
    ∃ s', s.bebBroadcast N p frame = .ok s' := by
  have hall : ∀ ts n, (∀ t ∈ ts, HasLink N p t) → ∃ n', Sys.sendAll p frame ts n = .ok n' := by
    intro ts
    induction ts with
    | nil => exact fun n _ => ⟨n, rfl⟩
    | cons t ts ih =>
      intro n hl
      have hfit : (packetText p t frame).length + 2 ≤ maxLength := (h t (hl t (by simp))).1
      rw [Sys.sendAll, Net.sendNewMessage, formatPacket, if_pos hfit]
      exact ih _ fun u hu => hl u (by simp [hu])
  obtain ⟨n, hn⟩ := hall (Sys.others N p) s.net fun t ht => by
    have := mem_others.mp ht
    unfold HasLink
    omega
  exact ⟨_, bind_eq_ok.mpr ⟨n, hn, rfl⟩⟩

/-- The next broadcast of a process fits, sent or relayed, exactly when there is room for it. As
long as there is for each, every packet fits and no action fails. -/
theorem packets_fit (cfg : Config) (hN : cfg.N ≤ 999) (hd : DependsOnProcesses cfg) (s : Sys)
    (hr : (stack cfg).Reachable s) :
    (∀ p, 1 ≤ p ∧ p ≤ cfg.N → (NextFits cfg s p ↔ Room cfg s p)) ∧
    ((stack cfg).ReachableBy (HasRoom cfg) s → ∀ a : Action, 1 ≤ a.proc ∧ a.proc ≤ cfg.N →
      a.Enabled cfg.N s → HasRoom cfg s a →
      (∀ frame t, Sends cfg s a frame → HasLink cfg.N a.proc t → PacketFits a.proc t frame) ∧
      ∃ s', s.act cfg a = .ok s') := by
  have h := stackInv_reachable hr
  have hn := netInv_reachableBy (stack_links hr)
  refine ⟨fun p hp => h.nextFits_iff hN hd hp, fun hby a hp he hroom => ?_⟩
  have hfits : ∀ frame t, Sends cfg s a frame → HasLink cfg.N a.proc t →
      PacketFits a.proc t frame := by
    intro frame t hsends hl
    cases hsends with
    | own next built => exact ((h.nextFits_iff hN hd hp).mpr hroom frame (.own next built)).1 t hl
    | relay known => exact relay_fits hN hd hby known hl
  refine ⟨hfits, ?_⟩
  rcases h.act_cases hN hd hn hp he with hok | ⟨s₁, frame, hsends, hbeb⟩
  · exact hok
  · rw [hbeb]
    exact bebBroadcast_total hp (fun t => hfits frame t hsends) s₁

theorem clockSize_le {vc : Int → Int} {ds : List Int} {lsn k : Nat}
    (h : ∀ d ∈ ds, (intToString (vc d)).length ≤ k) (hl : (decimal lsn).length ≤ k) :
    clockSize vc ds lsn ≤ (ds.length + 1) * (4 + k) := by
  have hsum : (ds.map fun d => 4 + (intToString (vc d)).length).sum ≤ ds.length * (4 + k) := by
    induction ds with
    | nil => simp
    | cons d ds ih =>
      have hd := h d (by simp)
      have hds := ih fun x hx => h x (by simp [hx])
      rw [List.map_cons, List.sum_cons, List.length_cons, Nat.succ_mul]
      omega
  rw [clockSize, Nat.succ_mul]
  omega

theorem clockSize_mono {vc vc' : Int → Int} {ds : List Int} {lsn : Nat}
    (h : ∀ d ∈ ds, (intToString (vc d)).length ≤ (intToString (vc' d)).length) :
    clockSize vc ds lsn ≤ clockSize vc' ds lsn := by
  have hsum : (ds.map fun d => 4 + (intToString (vc d)).length).sum ≤
      (ds.map fun d => 4 + (intToString (vc' d)).length).sum :=
    List.sum_le_sum fun d hd => Nat.add_le_add_left (h d hd) 4
  rw [clockSize, clockSize]
  omega

theorem AlwaysRoom.room {cfg : Config} {s : Sys} (hr : (stack cfg).Reachable s) {p : Nat}
    (hroom : AlwaysRoom cfg p) : Room cfg s p := by
  have h := stackInv_reachable hr
  intro msg hmsg
  have hnext : (mainBatches (cfg.m p))[(s.proc p).lcb.lsn]? = some msg := by
    rw [(h.proc p).unsent, List.head?_drop, ← (h.proc p).lsn] at hmsg
    exact hmsg
  refine Nat.le_trans ?_ (hroom _ msg hnext)
  have hclock : clockSize (s.proc p).lcb.vc (cfg.localizedIds p) (s.proc p).lcb.lsn ≤
      clockSize (fun d => (sentBefore cfg p (s.proc p).lcb.lsn d.toNat : Nat))
        (cfg.localizedIds p) (s.proc p).lcb.lsn := by
    refine clockSize_mono fun d _ => ?_
    have hsent := vcOf_le_broadcasts h.sound p d
    have hbatches := broadcast_length_le h.sound d.toNat
    rw [(h.proc p).vc, (h.proc p).lsn]
    simp only [vcOf, sentBefore] at hsent ⊢
    refine decimal_length_mono ?_
    split
    · rename_i hdp
      rw [hdp] at hsent
      omega
    · omega
  rw [relaySize, longestRelay]
  omega

/-- What the numbers of the configuration say: how many dependencies, how many digits a count of
batches has, how wide a batch is. -/
theorem alwaysRoom_of_digits {cfg : Config} {p k w : Nat} (hk : 0 < k)
    (hcount : ∀ x, (mainBatches (cfg.m x)).length < 10 ^ k)
    (hw : ∀ msg ∈ mainBatches (cfg.m p), msg.length ≤ w)
    (hroom : 13 + w + ((cfg.localizedIds p).length + 1) * (4 + k) ≤ maxLength) :
    AlwaysRoom cfg p := by
  intro i msg hi
  have hlt := (List.getElem?_eq_some_iff.mp hi).1
  have hwidth := hw msg (List.mem_of_getElem? hi)
  have hi10 : i < 10 ^ k := Nat.lt_trans hlt (hcount p)
  have hbefore : ∀ q, sentBefore cfg p i q < 10 ^ k := by
    intro q
    unfold sentBefore
    split
    · exact hi10
    · exact hcount q
  have hclock := @clockSize_le (fun d => (sentBefore cfg p i d.toNat : Nat)) (cfg.localizedIds p)
    i k (fun d _ => decimal_length_le hk (hbefore d.toNat)) (decimal_length_le hk hi10)
  rw [longestRelay]
  omega

/-- With 24 dependencies there is room whatever is sent: no count has more than nine digits. -/
theorem room_of_few {cfg : Config} {p : Nat} (hfew : (cfg.localizedIds p).length ≤ 24) :
    AlwaysRoom cfg p := by
  refine alwaysRoom_of_digits (k := 9) (w := 166) (by decide) (fun x => ?_) (fun msg hmsg => ?_) ?_
  · have h1 := mainBatches_length_mul_lt (cfg.m x)
    have h2 := cfg.m_le x
    simp only [groupBy] at h1
    omega
  · exact mainBatches_width (cfg.m_le p) hmsg
  · have hmul := Nat.mul_le_mul_right (4 + 9) (Nat.succ_le_succ hfew)
    simp only [maxLength]
    omega

/-- The first of 128 processes depends on all the others and broadcasts one message. -/
def crowded : Config where
  N := 128
  two_le := by decide
  m := fun p => if p = 1 then 1 else 0
  m_le := by intro p; split <;> decide
  localizedIds := fun p => if p = 1 then (List.range' 2 127).map Int.ofNat else []

def crowdedStart : Sys := (stack crowded).after [.setBroadcastActive 1]

theorem crowded_depends : DependsOnProcesses crowded := by
  intro p hp d hin
  have hdeps : crowded.localizedIds p =
      if p = 1 then (List.range' 2 127).map Int.ofNat else [] := rfl
  rw [hdeps] at hin
  split at hin
  · obtain ⟨n, hn, rfl⟩ := List.mem_map.mp hin
    have := List.mem_range'_1.mp hn
    simp only [crowded, Int.ofNat_eq_natCast]
    omega
  · cases hin

theorem crowded_relaySize : relaySize crowded crowdedStart 1 ['0', '1', '1'] = 656 := by
  have hdeps : crowded.localizedIds 1 = (List.range' 2 127).map Int.ofNat := rfl
  have hvc : (crowdedStart.proc 1).lcb.vc = fun _ => 0 := rfl
  have hlsn : (crowdedStart.proc 1).lcb.lsn = 0 := rfl
  have hzero : (intToString 0).length = 1 ∧ (decimal 0).length = 1 := by decide
  simp only [relaySize, clockSize, hdeps, hvc, hlsn, hzero.1, hzero.2, List.map_const',
    List.sum_replicate_nat, List.length_map, List.length_range']
  rfl

/-- Already the first packet of a process with 127 dependencies is longer than its array. -/
theorem packets_overflow : crowded.N ≤ 128 ∧ DependsOnProcesses crowded ∧
    (stack crowded).Reachable crowdedStart ∧
    (Action.broadcastMessage 1).Enabled crowded.N crowdedStart ∧
    ¬ NextFits crowded crowdedStart 1 := by
  have hr : (stack crowded).Reachable crowdedStart := Machine.reachable_after _ _
  refine ⟨by decide, crowded_depends, hr, by decide, fun hn => ?_⟩
  have hroom := ((stackInv_reachable hr).nextFits_iff (by decide) crowded_depends (by decide)).mp hn
  have hnext : ['0', '1', '1'] ∈ (crowdedStart.proc 1).unsent.head? := by decide
  have := hroom _ hnext
  rw [crowded_relaySize] at this
  exact absurd this (by decide)

def trioStart : Sys := (stack trio).afterBy (HasRoom trio) [.setBroadcastActive 1]

theorem packets_fit_trio : NextFits trio trioStart 1 ∧
    ∃ s', trioStart.act trio (.broadcastMessage 1) = .ok s' := by
  have hby : (stack trio).ReachableBy (HasRoom trio) trioStart := Machine.reachableBy_after _ _ _
  have hroom : Room trio trioStart 1 := by decide
  obtain ⟨hiff, hacts⟩ := packets_fit trio (by decide) trio_depends trioStart hby.reachable
  exact ⟨(hiff 1 (by decide)).mpr hroom,
    (hacts hby (.broadcastMessage 1) (by decide) (by decide) hroom).2⟩

end DecentralizedBroadcast
