import DecentralizedBroadcast.Trace
import Mathlib.Data.List.Perm.Subperm

/-! What follows from every event being justified: a key handed up belongs to one
broadcast and to no other, and the clock behind it says what its origin had seen. -/
set_option autoImplicit false

namespace DecentralizedBroadcast
open History ClockedDelivery

/-- `p`, having said `past`, broadcasts `msg` as `text`. -/
structure Origin (cfg : Config) (past : List Event) (p : Nat) (msg text : Str) : Prop where
  id : 1 ≤ p ∧ p ≤ cfg.N
  fits : p ≤ 999
  deps : ∀ d ∈ cfg.localizedIds p, FitsId d
  next : (mainBatches (cfg.m p))[(said .broadcast p past).length]? = some msg
  eq : text = msg ++ clockText (clockEntries (vcOf past p) (cfg.localizedIds p) p
    (said .broadcast p past).length)

theorem EventOk.origin {cfg : Config} {past : List Event} {p : Nat} {text : Str}
    (h : EventOk cfg past ⟨.broadcast, p, text⟩) : ∃ msg, Origin cfg past p msg text := by
  cases h with
  | broadcast hp fits ids next => exact ⟨_, hp, fits, ids, next, rfl⟩

namespace Origin
variable {cfg : Config} {past : List Event} {p : Nat} {msg text : Str}

theorem notMem_marker (h : Origin cfg past p msg text) : 'v' ∉ msg := by
  intro hv
  exact absurd (mainBatches_chars (List.mem_of_getElem? h.next) 'v' hv) (by decide)

theorem plain (h : Origin cfg past p msg text) : Plain text := by
  refine plain_of_chars fun c hc => ?_
  rw [h.eq] at hc
  rcases List.mem_append.mp hc with hc | hc
  · have := mainBatches_chars (List.mem_of_getElem? h.next) c hc
    tauto
  · have := clockText_chars _ c hc
    tauto

theorem tail (h : Origin cfg past p msg text) :
    ∃ front, text = front ++ 'v' :: (pad3 p ++ decimal (said .broadcast p past).length) := by
  refine ⟨msg ++ clockText ((cfg.localizedIds p).map fun d => (d, vcOf past p d)), ?_⟩
  rw [h.eq, clockEntries, clockText_append]
  simp [intToString]

end Origin

section Sound
variable {cfg : Config} {tr : List Event} (h : Sound (EventOk cfg) tr)
include h

theorem broadcast_at {p i : Nat} {text : Str} (hi : (said .broadcast p tr)[i]? = some text) :
    ∃ past rest msg, tr = past ++ ⟨.broadcast, p, text⟩ :: rest ∧
      (said .broadcast p past).length = i ∧ Origin cfg past p msg text := by
  obtain ⟨hlt, he⟩ := List.getElem?_eq_some_iff.mp hi
  have hs : said .broadcast p tr =
      (said .broadcast p tr).take i ++ text :: (said .broadcast p tr).drop (i + 1) := by
    rw [← he, ← List.drop_eq_getElem_cons hlt, List.take_append_drop]
  obtain ⟨past, rest, htr, hpast⟩ := said_split hs
  obtain ⟨msg, ho⟩ := (h past _ rest htr).origin
  refine ⟨past, rest, msg, htr, ?_, ho⟩
  rw [hpast, List.length_take]
  omega

theorem broadcast_origin {p : Nat} {text : Str} (ht : text ∈ said .broadcast p tr) :
    ∃ past rest msg, tr = past ++ ⟨.broadcast, p, text⟩ :: rest ∧
      Origin cfg past p msg text := by
  obtain ⟨i, hi⟩ := List.getElem?_of_mem ht
  obtain ⟨past, rest, msg, htr, -, ho⟩ := broadcast_at h hi
  exact ⟨past, rest, msg, htr, ho⟩

theorem broadcast_fits {p : Nat} {text : Str} (ht : text ∈ said .broadcast p tr) :
    1 ≤ p ∧ p ≤ cfg.N ∧ p ≤ 999 := by
  obtain ⟨past, rest, msg, -, ho⟩ := broadcast_origin h ht
  exact ⟨ho.id.1, ho.id.2, ho.fits⟩

theorem broadcast_plain {p : Nat} {text : Str} (ht : text ∈ said .broadcast p tr) : Plain text := by
  obtain ⟨past, rest, msg, -, ho⟩ := broadcast_origin h ht
  exact ho.plain

/-- A text that ends in another one is that very broadcast: the last marker tells. -/
theorem broadcast_suffix {p p' i j : Nat} {text text' front : Str}
    (hi : (said .broadcast p tr)[i]? = some text) (hj : (said .broadcast p' tr)[j]? = some text')
    (he : text = front ++ text') : p = p' ∧ i = j := by
  obtain ⟨past, rest, msg, -, rfl, ho⟩ := broadcast_at h hi
  obtain ⟨past', rest', msg', -, rfl, ho'⟩ := broadcast_at h hj
  obtain ⟨a, ha⟩ := ho.tail
  obtain ⟨b, hb⟩ := ho'.tail
  have hnot : ∀ p n, 'v' ∉ pad3 p ++ decimal n :=
    fun p _ => notMem_pad3_append p (notMem_decimal rfl)
  rw [ha, hb, ← List.append_assoc] at he
  have hlast := last_marker (hnot _ _) (hnot _ _) he
  have hlen : (pad3 p).length = (pad3 p').length := by
    rw [pad3_length ho.fits, pad3_length ho'.fits]
  obtain ⟨hp, hn⟩ := List.append_inj hlast hlen
  exact ⟨pad3_injective hp, decimal_injective hn⟩

/-- The copy of its own message that a process leaves in pending is no key. -/
theorem broadcast_ne_key {p : Nat} {text : Str} (ht : text ∈ said .broadcast p tr) :
    ¬ Known tr text := by
  rintro ⟨s, text', ht', he⟩
  obtain ⟨i, hi⟩ := List.getElem?_of_mem ht
  obtain ⟨j, hj⟩ := List.getElem?_of_mem ht'
  obtain ⟨rfl, rfl⟩ := broadcast_suffix h hi hj he
  obtain rfl := Option.some.inj (hi.symm.trans hj)
  have hlen := congrArg List.length he
  have := three_le_pad3_length p
  rw [messageKey, List.length_append] at hlen
  omega

theorem broadcast_nodup (p : Nat) : (said .broadcast p tr).Nodup := by
  refine List.nodup_iff_injective_get.mpr fun i j hij => Fin.ext ?_
  have hi := List.getElem?_eq_getElem i.isLt
  have hj := List.getElem?_eq_getElem j.isLt
  have he : (said .broadcast p tr)[i.val] = [] ++ (said .broadcast p tr)[j.val] := by
    simpa using hij
  exact (broadcast_suffix h hi hj he).2

theorem broadcast_length_le (p : Nat) :
    (said .broadcast p tr).length ≤ (mainBatches (cfg.m p)).length := by
  cases hl : (said .broadcast p tr).length with
  | zero => exact Nat.zero_le _
  | succ i =>
    obtain ⟨past, rest, msg, -, rfl, ho⟩ :=
      broadcast_at h (List.getElem?_eq_getElem (by omega : i < (said .broadcast p tr).length))
    exact (List.getElem?_eq_some_iff.mp ho.next).1

theorem Known.plain {k : Str} (hk : Known tr k) : Plain k := by
  obtain ⟨s, text, ht, rfl⟩ := hk
  exact plain_messageKey (broadcast_plain h ht)

theorem beb_cases {p : Nat} {frame : Str} (hf : frame ∈ said .beb p tr) :
    frame ∈ said .broadcast p tr ∨ ∃ f ∈ said .handUp p tr, frame = 'r' :: packetKey f := by
  obtain ⟨past, rest, rfl, ok⟩ := h.of_mem (mem_said.mp hf)
  cases ok with
  | own given => exact .inl (by simp [given])
  | relay given => exact .inr ⟨_, by simp [given], rfl⟩

end Sound

/-- However often a message was relayed, the key of the packet is that of a broadcast. -/
theorem handUp_known {cfg : Config} {tr : List Event} (h : Sound (EventOk cfg) tr) {q : Nat}
    {f : Str} (hf : f ∈ said .handUp q tr) : Known tr (packetKey f) := by
  induction tr using List.reverseRecOn generalizing q f with
  | nil => simp at hf
  | append_singleton tr e ih =>
    obtain ⟨htr, ok⟩ := sound_snoc.mp h
    rw [said_append, List.mem_append] at hf
    rcases hf with hf | hf
    · exact (ih htr hf).append [e]
    · obtain rfl := List.mem_singleton.mp (mem_said.mp hf)
      cases ok with
      | handUp link hp hq sent new =>
        rcases beb_cases htr sent with hown | ⟨g, hg, rfl⟩
        · rw [packetKey_own hp hq (broadcast_plain htr hown)]
          exact Known.append ⟨_, _, hown, rfl⟩ _
        · have hk := ih htr hg
          rw [packetKey_relay hp hq (hk.plain htr)]
          exact hk.append _

/-- A packet of key `k` that `p` sent to `q`: the message of `p` itself, or its relay of `k`. -/
inductive FrameOf (tr : List Event) (p q : Nat) (k f : Str) : Prop where
  | own (text : Str) (given : text ∈ said .broadcast p tr) (key : k = messageKey p text)
      (eq : f = packetText p q text)
  | relay (given : ∃ g ∈ said .handUp p tr, packetKey g = k) (eq : f = packetText p q ('r' :: k))

section Sound
variable {cfg : Config} {tr : List Event} (h : Sound (EventOk cfg) tr)
include h

theorem handUp_cases {q : Nat} {f : Str} (hf : f ∈ said .handUp q tr) :
    ∃ p, HasLink cfg.N p q ∧ p ≤ 999 ∧ q ≤ 999 ∧ packetOrigin f = pad3 p ∧
      FrameOf tr p q (packetKey f) f := by
  obtain ⟨past, rest, htr, ok⟩ := h.of_mem (mem_said.mp hf)
  generalize hg : f = g at ok
  cases ok with
  | @handUp p q frame link hp hq sent new =>
    subst hg
    refine ⟨p, link, hp, hq, packetOrigin_packetText hp q frame, ?_⟩
    rcases beb_cases h (show frame ∈ said .beb p tr by simp [htr, sent]) with hown | ⟨g, hg, rfl⟩
    · exact .own frame hown (packetKey_own hp hq (broadcast_plain h hown)) rfl
    · have hkey := packetKey_relay hp hq ((handUp_known h hg).plain h)
      exact .relay ⟨g, hg, hkey.symm⟩ (by rw [hkey])

theorem handUp_nodup (q : Nat) : (said .handUp q tr).Nodup := by
  refine ((said_sound h .handUp q).imp ?_).nodup
  rintro before f ⟨past, rfl, ok⟩
  generalize hg : f = g at ok
  cases ok with
  | handUp link hp hq sent new => exact hg ▸ new

theorem urbDeliver_nodup (q : Nat) : (said .urbDeliver q tr).Nodup := by
  refine ((said_sound h .urbDeliver q).imp ?_).nodup
  rintro before k ⟨past, rfl, ok⟩
  cases ok with
  | urbDeliver new acked => exact new

theorem urbDeliver_acked {q : Nat} {k : Str} (hk : k ∈ said .urbDeliver q tr) :
    cfg.N / 2 < votes tr q k := by
  obtain ⟨past, rest, rfl, ok⟩ := h.of_mem (mem_said.mp hk)
  cases ok with
  | urbDeliver new acked =>
    rw [votes, said_append, List.countP_append]
    exact Nat.lt_of_lt_of_le acked (Nat.le_add_right _ _)

theorem known_of_votes {q : Nat} {k : Str} (hv : 0 < votes tr q k) : Known tr k := by
  obtain ⟨f, hf, hk⟩ := List.countP_pos_iff.mp hv
  obtain rfl : packetKey f = k := by simpa using hk
  exact handUp_known h hf

theorem urbDeliver_known {q : Nat} {k : Str} (hk : k ∈ said .urbDeliver q tr) : Known tr k :=
  known_of_votes h (Nat.zero_lt_of_lt (urbDeliver_acked h hk))

theorem lcbDeliver_received {q : Nat} {k : Str} (hk : k ∈ said .lcbDeliver q tr) :
    k ∈ said .urbDeliver q tr := by
  obtain ⟨past, rest, rfl, ok⟩ := h.of_mem (mem_said.mp hk)
  cases ok with
  | lcbDeliver received new ready => simp [received]

theorem lcbDeliver_known {q : Nat} {k : Str} (hk : k ∈ said .lcbDeliver q tr) : Known tr k :=
  urbDeliver_known h (lcbDeliver_received h hk)

/-- The deliveries of a process are those of a receiver that counts. -/
theorem orderly (q : Nat) : Orderly keyOrigin need (said .lcbDeliver q tr) := by
  refine (said_sound h .lcbDeliver q).imp ?_
  rintro before k ⟨past, rfl, ok⟩
  cases ok with
  | lcbDeliver received new ready => exact ⟨new, isInferior_iff.mp ready⟩

/-- Nobody delivers more from a process than it has broadcast. -/
theorem vcOf_le_broadcasts (q : Nat) (z : Int) :
    vcOf tr q z ≤ (said .broadcast z.toNat tr).length := by
  set ds := deliveriesFrom keyOrigin (said .lcbDeliver q tr) z with hds
  have hz : vcOf tr q z = ds.length := rfl
  have hsub : ds ⊆ (said .broadcast z.toNat tr).map (messageKey z.toNat) := by
    intro x hx
    obtain ⟨hx, ho⟩ := mem_deliveriesFrom.mp hx
    obtain ⟨s, text, ht, rfl⟩ := lcbDeliver_known h hx
    rw [keyOrigin_messageKey (broadcast_fits h ht).2.2] at ho
    obtain rfl := ho
    exact List.mem_map_of_mem ht
  have hnodup : ds.Nodup := (orderly h q).nodup.filter _
  have hle := (hnodup.subperm hsub).length_le
  rw [List.length_map] at hle
  rw [hz]
  omega

theorem vcOf_le (q : Nat) (z : Int) : vcOf tr q z ≤ intMax := by
  have h0 := vcOf_le_broadcasts h q z
  have h1 := broadcast_length_le h z.toNat
  have h2 := mainBatches_length_le (cfg.m z.toNat)
  have h3 := cfg.m_le z.toNat
  simp only [intMax]
  omega

theorem Origin.entryFits {p : Nat} {msg text : Str} (ho : Origin cfg tr p msg text) :
    ∀ e ∈ clockEntries (vcOf tr p) (cfg.localizedIds p) p (said .broadcast p tr).length,
      EntryFits e := by
  intro e he
  rcases List.mem_append.mp he with he | he
  · obtain ⟨d, hd, rfl⟩ := List.mem_map.mp he
    exact ⟨ho.deps d hd, Int.natCast_nonneg _, vcOf_le h p d⟩
  · obtain rfl := List.mem_singleton.mp he
    have h1 := broadcast_length_le h p
    have h2 := mainBatches_length_le (cfg.m p)
    have h3 := cfg.m_le p
    refine ⟨fitsId_pad3 ho.fits, Int.natCast_nonneg _, ?_⟩
    simp only [intMax]
    omega

theorem Origin.clockOf {p : Nat} {msg text : Str} (ho : Origin cfg tr p msg text) :
    clockOf (messageKey p text) = .ofEntries (clockEntries (vcOf tr p) (cfg.localizedIds p) p
      (said .broadcast p tr).length) := by
  have hv := notMem_pad3_append p ho.notMem_marker
  have hkey : messageKey p text = (pad3 p ++ msg) ++ clockText (clockEntries (vcOf tr p)
      (cfg.localizedIds p) p (said .broadcast p tr).length) := by
    rw [messageKey, ho.eq, List.append_assoc]
  rw [DecentralizedBroadcast.clockOf, hkey,
    readClock_clockText hv (clockEntries_ne_nil _ _ _ _) (ho.entryFits h)]
  rfl

theorem Origin.need {p : Nat} {msg text : Str} (ho : Origin cfg tr p msg text) (z : Int) :
    need (messageKey p text) z =
      if z = p then (said .broadcast p tr).length
      else if z ∈ cfg.localizedIds p then count keyOrigin (said .lcbDeliver p tr) z else 0 := by
  rw [DecentralizedBroadcast.need, ho.clockOf h, find?_clockEntries]
  by_cases hz : z = p
  · simp [hz]
  · by_cases hd : z ∈ cfg.localizedIds p <;> simp [hz, hd, vcOf]

end Sound

theorem number_broadcast {cfg : Config} {tr : List Event} (h : Sound (EventOk cfg) tr) {p i : Nat}
    {text : Str} (hi : (said .broadcast p tr)[i]? = some text) :
    number keyOrigin need (messageKey p text) = i := by
  obtain ⟨past, rest, msg, rfl, rfl, ho⟩ := broadcast_at h hi
  rw [number, keyOrigin_messageKey ho.fits, ho.need h.past, if_pos rfl]

/-- A message is determined by its origin and its number. -/
theorem known_unique {cfg : Config} {tr : List Event} (h : Sound (EventOk cfg) tr) :
    ∀ k ∈ {k | Known tr k}, ∀ k' ∈ {k | Known tr k}, keyOrigin k = keyOrigin k' →
      number keyOrigin need k = number keyOrigin need k' → k = k' := by
  rintro k ⟨s, text, ht, rfl⟩ k' ⟨s', text', ht', rfl⟩ ho hn
  rw [keyOrigin_messageKey (broadcast_fits h ht).2.2,
    keyOrigin_messageKey (broadcast_fits h ht').2.2, Int.ofNat_inj] at ho
  subst ho
  obtain ⟨i, hi⟩ := List.getElem?_of_mem ht
  obtain ⟨j, hj⟩ := List.getElem?_of_mem ht'
  rw [number_broadcast h hi, number_broadcast h hj] at hn
  subst hn
  obtain rfl := Option.some.inj (hi.symm.trans hj)
  rfl

end DecentralizedBroadcast
