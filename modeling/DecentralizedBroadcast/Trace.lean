import DecentralizedBroadcast.Batches
import DecentralizedBroadcast.ClockText
import DecentralizedBroadcast.PerfectLinkContract
import DecentralizedBroadcast.Lib.ClockedDelivery

/-! What the layers say to each other, and what justifies each word of it: a frame
of a message it was broadcast as, a relay a packet handed up, a delivery its acks
or its clock. Only the events are looked at here, not the states. -/
set_option autoImplicit false

namespace DecentralizedBroadcast
open History ClockedDelivery

/-- The texts of the events of one kind at one process, in order. -/
def said (k : Kind) (p : Nat) (tr : List Event) : List Str :=
  tr.filterMap fun e => if e.kind = k ∧ e.proc = p then some e.text else none

@[simp] theorem said_nil (k : Kind) (p : Nat) : said k p [] = [] := rfl

@[simp] theorem said_append (k : Kind) (p : Nat) (tr tr' : List Event) :
    said k p (tr ++ tr') = said k p tr ++ said k p tr' := List.filterMap_append

@[simp] theorem said_singleton (k k' : Kind) (p p' : Nat) (text : Str) :
    said k p [⟨k', p', text⟩] = if k' = k ∧ p' = p then [text] else [] := by
  simp only [said, List.filterMap_cons, List.filterMap_nil]
  split <;> simp_all

@[simp] theorem said_map (k k' : Kind) (p p' : Nat) (texts : List Str) :
    said k p (texts.map (⟨k', p', ·⟩)) = if k' = k ∧ p' = p then texts else [] := by
  induction texts with
  | nil => simp
  | cons text texts ih =>
    rw [List.map_cons, ← List.singleton_append, said_append, ih, said_singleton]
    split <;> simp

theorem mem_said {k : Kind} {p : Nat} {tr : List Event} {text : Str} :
    text ∈ said k p tr ↔ ⟨k, p, text⟩ ∈ tr := by
  constructor
  · intro h
    obtain ⟨⟨k', p', text'⟩, hmem, he⟩ := List.mem_filterMap.mp h
    split at he
    · rename_i hkp
      obtain ⟨rfl, rfl⟩ := hkp
      obtain rfl := Option.some.inj he
      exact hmem
    · cases he
  · intro h
    exact List.mem_filterMap.mpr ⟨_, h, by simp⟩

theorem mem_said_snoc {k k' : Kind} {p p' : Nat} {tr : List Event} {text x : Str} :
    x ∈ said k p (tr ++ [⟨k', p', text⟩]) ↔
      x ∈ said k p tr ∨ (k' = k ∧ p' = p) ∧ x = text := by
  rw [said_append, said_singleton, List.mem_append]
  split <;> simp_all

theorem said_split {k : Kind} {p : Nat} {tr : List Event} {before after : List Str} {text : Str}
    (h : said k p tr = before ++ text :: after) :
    ∃ past rest, tr = past ++ ⟨k, p, text⟩ :: rest ∧ said k p past = before := by
  obtain ⟨past, tail, rfl, hpast, htail⟩ := List.filterMap_eq_append_iff.mp h
  obtain ⟨skip, ⟨k', p', text'⟩, rest, rfl, hskip, he, -⟩ := List.filterMap_eq_cons_iff.mp htail
  split at he
  · rename_i hkp
    obtain ⟨rfl, rfl⟩ := hkp
    obtain rfl := Option.some.inj he
    refine ⟨past ++ skip, rest, by simp, ?_⟩
    have hnone : said k' p' skip = [] := List.filterMap_eq_nil_iff.mpr hskip
    rw [said_append, hnone, List.append_nil]
    exact hpast
  · cases he

theorem said_sound {ok : List Event → Event → Prop} {tr : List Event} (h : Sound ok tr)
    (k : Kind) (p : Nat) :
    Sound (fun before text => ∃ past, said k p past = before ∧ ok past ⟨k, p, text⟩)
      (said k p tr) := by
  intro before text after hs
  obtain ⟨past, rest, rfl, hpast⟩ := said_split hs
  exact ⟨past, hpast, h past _ rest rfl⟩

/-- The key of a message: the id of its origin before what the origin gave to URB. -/
def messageKey (s : Nat) (text : Str) : Str := pad3 s ++ text

theorem notMem_pad3_append {msg : Str} (s : Nat) (h : 'v' ∉ msg) : 'v' ∉ pad3 s ++ msg := by
  intro hv
  rcases List.mem_append.mp hv with hv | hv
  · exact notMem_pad3 rfl hv
  · exact h hv

/-- The log entry of a delivery from `x`: the id of the sender, a zero target, the batch. -/
def deliveredLog (x : Nat) (b : Str) : Str := 'd' :: (pad3 x ++ (['0', '0', '0'] ++ b))

theorem toMessageFormat_messageKey {x : Nat} (hx : x ≤ 999) (b : Str) :
    Lcb.toMessageFormat (messageKey x b) = .ok ('0' :: (pad3 x ++ (['0', '0', '0'] ++ b))) := by
  have hsender : substr (pad3 x ++ b) 0 3 = .ok (pad3 x) := by
    have := @substr_mid [] (pad3 x) b 0 3 rfl (pad3_length hx).symm
    simpa using this
  have hpayload : substr (pad3 x ++ b) 3 (pad3 x ++ b).length = .ok b :=
    substr_tail (pad3_length hx).symm (by simp)
  rw [messageKey]
  simp only [Lcb.toMessageFormat, hsender, hpayload]
  rfl

theorem deliveredEntry_messageKey {x : Nat} (hx : x ≤ 999) (text : Str) :
    Lcb.deliveredEntry (messageKey x text) = .ok (deliveredLog x (Lcb.withoutClock text)) := by
  have hkey : Lcb.withoutClock (messageKey x text) = messageKey x (Lcb.withoutClock text) :=
    takeWhile_ne_append (notMem_pad3 rfl) text
  rw [Lcb.deliveredEntry, hkey, toMessageFormat_messageKey hx]
  rfl

def packetOrigin (f : Str) : Str := (f.drop 1).take 3

/-- The key under which URB files a packet, relayed or not. -/
def packetKey (f : Str) : Str :=
  if (f.drop 7).head? = some 'r' then f.drop 8 else packetOrigin f ++ f.drop 7

/-- The rank that LCB reads from a key. -/
def keyOrigin (k : Str) : Int := (stoi (k.take 3)).toOption.getD 0

def clockOf (k : Str) : VectorClock := (Lcb.vcString k >>= Lcb.constructVC).toOption.getD .empty

/-- How many messages of `z` must have been delivered before the message of key `k`. -/
def need (k : Str) (z : Int) : Nat := (((clockOf k).find? z).getD 0).toNat

/-- What `VC` shows after the deliveries of `p` in `tr`. -/
def vcOf (tr : List Event) (p : Nat) (z : Int) : Int := count keyOrigin (said .lcbDeliver p tr) z

/-- How often `q` was handed a packet of key `k`. -/
def votes (tr : List Event) (q : Nat) (k : Str) : Nat :=
  (said .handUp q tr).countP (packetKey · = k)

inductive EventOk (cfg : Config) (past : List Event) : Event → Prop where
  | broadcast {p : Nat} {msg : Str} (hp : 1 ≤ p ∧ p ≤ cfg.N) (fits : p ≤ 999)
      (ids : ∀ d ∈ cfg.localizedIds p, FitsId d)
      (next : (mainBatches (cfg.m p))[(said .broadcast p past).length]? = some msg) :
      EventOk cfg past ⟨.broadcast, p, msg ++ clockText (clockEntries (vcOf past p)
        (cfg.localizedIds p) p (said .broadcast p past).length)⟩
  | own {p : Nat} {text : Str} (given : text ∈ said .broadcast p past) :
      EventOk cfg past ⟨.beb, p, text⟩
  | relay {p : Nat} {f : Str} (given : f ∈ said .handUp p past) :
      EventOk cfg past ⟨.beb, p, 'r' :: packetKey f⟩
  | handUp {p q : Nat} {frame : Str} (link : HasLink cfg.N p q) (hp : p ≤ 999) (hq : q ≤ 999)
      (sent : frame ∈ said .beb p past) (new : packetText p q frame ∉ said .handUp q past) :
      EventOk cfg past ⟨.handUp, q, packetText p q frame⟩
  | urbDeliver {q : Nat} {k : Str} (new : k ∉ said .urbDeliver q past)
      (acked : cfg.N / 2 < votes past q k) : EventOk cfg past ⟨.urbDeliver, q, k⟩
  | lcbDeliver {q : Nat} {k : Str} (received : k ∈ said .urbDeliver q past)
      (new : k ∉ said .lcbDeliver q past)
      (ready : Lcb.isInferior (vcOf past q) (clockOf k) = true) :
      EventOk cfg past ⟨.lcbDeliver, q, k⟩

/-- `k` is the key of a message that was broadcast. -/
def Known (tr : List Event) (k : Str) : Prop :=
  ∃ s text, text ∈ said .broadcast s tr ∧ k = messageKey s text

theorem Known.append {tr : List Event} {k : Str} (h : Known tr k) (es : List Event) :
    Known (tr ++ es) k := by
  obtain ⟨s, text, ht, rfl⟩ := h
  exact ⟨s, text, by simp [ht], rfl⟩

theorem packetText_payload {p q : Nat} (hp : p ≤ 999) (hq : q ≤ 999) (frame : Str) :
    (packetText p q frame).drop 7 = cStr frame := by
  have h : packetText p q frame = ('0' :: (pad3 p ++ pad3 q)) ++ cStr frame := by simp [packetText]
  rw [h]
  exact List.drop_left' (by simp [pad3_length hp, pad3_length hq])

theorem packetOrigin_packetText {p : Nat} (hp : p ≤ 999) (q : Nat) (frame : Str) :
    packetOrigin (packetText p q frame) = pad3 p := take_pad3 hp _

theorem keyOrigin_messageKey {s : Nat} (hs : s ≤ 999) (text : Str) :
    keyOrigin (messageKey s text) = s := by
  rw [keyOrigin, messageKey, take_pad3 hs, stoi_pad3 hs]
  rfl

theorem messageKey_injective {s s' : Nat} (hs : s ≤ 999) (hs' : s' ≤ 999) {text text' : Str}
    (h : messageKey s text = messageKey s' text') : s = s' ∧ text = text' := by
  have hlen : (pad3 s).length = (pad3 s').length := by rw [pad3_length hs, pad3_length hs']
  obtain ⟨hpad, htext⟩ := List.append_inj h hlen
  exact ⟨pad3_injective hpad, htext⟩

def Plain (text : Str) : Prop := ∀ c ∈ text, c ≠ 'r' ∧ c ≠ '\x00'

theorem plain_of_chars {text : Str}
    (h : ∀ c ∈ text, c.isDigit = true ∨ c = 's' ∨ c = '-' ∨ c = 'v') : Plain text := by
  intro c hc
  constructor <;> rintro rfl <;> exact absurd (h _ hc) (by decide)

theorem plain_messageKey {s : Nat} {text : Str} (h : Plain text) : Plain (messageKey s text) := by
  intro c hc
  rcases List.mem_append.mp hc with hc | hc
  · exact plain_of_chars (fun x hx => .inl (pad3_digits hx)) c hc
  · exact h c hc

theorem packetKey_direct {p q : Nat} (hp : p ≤ 999) (hq : q ≤ 999) {text : Str}
    (hnul : '\x00' ∉ text) (hr : text.head? ≠ some 'r') :
    packetKey (packetText p q text) = messageKey p text := by
  rw [packetKey, packetText_payload hp hq, cStr_of_notMem hnul, if_neg hr,
    packetOrigin_packetText hp]
  rfl

theorem packetKey_relayed {p q : Nat} (hp : p ≤ 999) (hq : q ≤ 999) {k : Str} (h : '\x00' ∉ k) :
    packetKey (packetText p q ('r' :: k)) = k := by
  have hc : cStr ('r' :: k) = 'r' :: k := cStr_of_notMem (by simpa using h)
  have hpay := packetText_payload hp hq ('r' :: k)
  have htail : (packetText p q ('r' :: k)).drop 8 = k := by
    rw [show 8 = 7 + 1 from rfl, ← List.drop_drop, hpay, hc]
    rfl
  rw [packetKey, hpay, hc, if_pos (show ('r' :: k).head? = some 'r' from rfl), htail]

theorem Plain.notMem_nul {text : Str} (h : Plain text) : '\x00' ∉ text :=
  fun hin => (h _ hin).2 rfl

theorem Plain.cStr {text : Str} (h : Plain text) : cStr text = text :=
  cStr_of_notMem h.notMem_nul

theorem cStr_relay {k : Str} (h : Plain k) : cStr ('r' :: k) = 'r' :: k :=
  cStr_of_notMem (by simpa using h.notMem_nul)

theorem packetKey_own {p q : Nat} (hp : p ≤ 999) (hq : q ≤ 999) {text : Str} (h : Plain text) :
    packetKey (packetText p q text) = messageKey p text :=
  packetKey_direct hp hq h.notMem_nul fun hr => (h 'r' (List.mem_of_head? hr)).1 rfl

theorem packetKey_relay {p q : Nat} (hp : p ≤ 999) (hq : q ≤ 999) {k : Str} (h : Plain k) :
    packetKey (packetText p q ('r' :: k)) = k :=
  packetKey_relayed hp hq h.notMem_nul

theorem last_marker {a b x y : Str} {c : Char} (hx : c ∉ x) (hy : c ∉ y)
    (h : a ++ c :: x = b ++ c :: y) : x = y := by
  rcases List.append_eq_append_iff.mp h with ⟨l, -, hl⟩ | ⟨l, -, hl⟩
  · cases l with
    | nil => exact (List.cons.inj hl).2
    | cons c l =>
      obtain ⟨-, rfl⟩ := List.cons.inj hl
      exact absurd (by simp) hx
  · cases l with
    | nil => exact (List.cons.inj hl).2.symm
    | cons c l =>
      obtain ⟨-, rfl⟩ := List.cons.inj hl
      exact absurd (by simp) hy

theorem isInferior_iff {ds : List Str} {k : Str} :
    Lcb.isInferior (fun z => count keyOrigin ds z) (clockOf k) = true ↔
      Ready keyOrigin need ds k := by
  simp only [Lcb.isInferior, List.all_eq_true, decide_eq_true_eq, Ready, need]
  constructor
  · intro h z
    cases hf : (clockOf k).find? z with
    | none => simp
    | some n =>
      have := h (z, n) (OrderedMap.find?_eq_some.mp hf)
      simpa using this
  · rintro h ⟨z, n⟩ he
    have := h z
    rw [OrderedMap.find?_eq_some.mpr he] at this
    simpa using this

end DecentralizedBroadcast
