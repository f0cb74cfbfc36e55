import DecentralizedBroadcast.LogExact
import DecentralizedBroadcast.OrderedDelivery
import DecentralizedBroadcast.ProcessState

/-! Any text as payload. The layers mark with letters inside of the text: s between the
messages of a batch, v before a clock, r before a relayed key; the logs drop equal entries.
What comes out at the end is what went in exactly for texts that do not look like that. -/
set_option autoImplicit false

namespace DecentralizedBroadcast
open Groups ClockedDelivery

/-- What `p` gives to URB for its batches. Between two of them LCB delivers what it likes. -/
inductive SentAs (p : Nat) (dependencies : List Int) : Nat → List Str → List Str → Prop where
  | nil (lsn : Nat) : SentAs p dependencies lsn [] []
  | cons {l l' : Lcb} {batch frame : Str} {batches frames : List Str}
      (sent : l.broadcastMessage p dependencies batch = .ok (l', frame))
      (rest : SentAs p dependencies l'.lsn batches frames) :
      SentAs p dependencies l.lsn (batch :: batches) (frame :: frames)

/-- The frames that carry a broadcast of `p`: its own, and what URB relays on receiving one. -/
inductive Carries (p : Nat) (frame : Str) : Nat → Str → Prop where
  | own : Carries p frame p frame
  | relay {a r : Nat} {f relayed : Str} {u u' : Urb} (fits : r ≤ 999) (sent : Carries p frame a f)
      (received : u.deliver (packetText a r f) = .ok (u', some relayed)) : Carries p frame r relayed

/-- At `q` URB files a message of `p`, from whom it got it, under `key`. -/
def ReceivedAs (p q : Nat) (frame key : Str) : Prop :=
  ∃ a f, Carries p frame a f ∧ ∃ (u u' : Urb) (relay : Option Str) (sender : Str),
    u.deliver (packetText a q f) = .ok (u', relay) ∧ u'.ack = u.ack ++ [(key, sender)]

/-- The texts come out of the log of `p`, behind a b, and out of the log of every process that
delivers all batches of `p` in order, behind the id of `p`, whatever else is in these logs. -/
structure Agnostic (N p : Nat) (ts frames : List Str) : Prop where
  own : ∀ es, entriesOf ['b'] es = (concatMessages ts).map sentEntry →
    deconcatMessages (entriesOf ['b'] (es.foldl addMessageLog [])) = .ok (ts.map (['b'] ++ ·))
  others : ∀ q keys cs l l' out es, 1 ≤ q ∧ q ≤ N → List.Forall₂ (ReceivedAs p q) frames keys →
    l.vc = (fun _ => 0) → l.pairs = .empty → HandedUp N cs → Lcb.run cs l = .ok (l', out) →
    keysFrom p out = keys → entriesOf ['d'] es = out.map Prod.snd →
    deconcatMessages (entriesOf (deliveredHeader (pad3 p)) (es.foldl addMessageLog [])) =
      .ok (ts.map (deliveredHeader (pad3 p) ++ ·))

theorem Carries.shape {p : Nat} (hp : p ≤ 999) {frame : Str} (hnul : '\x00' ∉ frame)
    (hr : frame.head? ≠ some 'r') {a : Nat} {f : Str} (h : Carries p frame a f) :
    a ≤ 999 ∧ ∀ q ≤ 999, packetKey (packetText a q f) = messageKey p frame := by
  have hkey : '\x00' ∉ messageKey p frame := by
    intro hin
    rcases List.mem_append.mp hin with hin | hin
    · exact notMem_pad3 rfl hin
    · exact hnul hin
  induction h with
  | own => exact ⟨hp, fun q hq => packetKey_direct hp hq hnul hr⟩
  | relay fits _ received ih =>
    obtain ⟨-, hrelay⟩ := urbDeliver_ok received
    split at hrelay
    · cases hrelay
    · obtain rfl := Option.some.inj hrelay
      rw [ih.2 _ fits]
      exact ⟨fits, fun q hq => packetKey_relayed fits hq hkey⟩

/-- From whomever it comes, URB files a message under the id of its origin and its text. -/
theorem receivedAs_iff {p q : Nat} (hp : p ≤ 999) (hq : q ≤ 999) {frame key : Str}
    (hnul : '\x00' ∉ frame) (hr : frame.head? ≠ some 'r') :
    ReceivedAs p q frame key ↔ messageKey p frame = key := by
  constructor
  · rintro ⟨a, f, hc, u, u', relay, sender, hd, hack⟩
    obtain ⟨rfl, -⟩ := urbDeliver_ok hd
    have hlast := List.append_cancel_left hack
    rw [← (hc.shape hp hnul hr).2 q hq]
    exact (Prod.mk.inj (List.singleton_inj.mp hlast)).1
  · rintro rfl
    have hkey := packetKey_direct hp hq hnul hr
    have hpay := packetText_payload hp hq frame
    rw [cStr_of_notMem hnul] at hpay
    have hfits : FrameFits (packetText p q frame) := by
      constructor
      · simp only [packetText, List.length_cons, List.length_append, pad3_length hp,
          pad3_length hq]
        omega
      · rw [← List.head?_drop, hpay]
        exact fun hin => absurd hin hr
    obtain ⟨u', relay, hd⟩ := urbDeliver_total hfits ⟨true, [], [], fun _ => 0⟩
    obtain ⟨rfl, -⟩ := urbDeliver_ok hd
    exact ⟨p, frame, .own, _, _, relay, packetOrigin (packetText p q frame), hd, by rw [hkey]⟩

theorem receivedAs_keys {p q : Nat} (hp : p ≤ 999) (hq : q ≤ 999) {frames keys : List Str}
    (h : ∀ frame ∈ frames, '\x00' ∉ frame ∧ frame.head? ≠ some 'r') :
    List.Forall₂ (ReceivedAs p q) frames keys ↔ keys = frames.map (messageKey p) := by
  induction frames generalizing keys with
  | nil => simp
  | cons frame frames ih =>
    obtain ⟨hnul, hr⟩ := h frame (by simp)
    have ih := fun keys => @ih keys fun x hx => h x (by simp [hx])
    cases keys with
    | nil => simp
    | cons key keys =>
      rw [List.forall₂_cons, receivedAs_iff hp hq hnul hr, ih, List.map_cons, List.cons.injEq,
        eq_comm (a := key)]

theorem mem_intercalate {g : List Str} {c : Char} (h : c ∈ ['s'].intercalate g) :
    c = 's' ∨ ∃ t ∈ g, c ∈ t := by
  induction g with
  | nil => simp at h
  | cons t g ih =>
    rw [intercalate_cons] at h
    rcases List.mem_append.mp h with h | h
    · exact .inr ⟨t, by simp, h⟩
    · split at h
      · cases h
      · rcases List.mem_cons.mp h with rfl | h
        · exact .inl rfl
        · rcases ih h with rfl | ⟨x, hx, hc⟩
          · exact .inl rfl
          · exact .inr ⟨x, by simp [hx], hc⟩

theorem mem_intercalate_of_mem {g : List Str} {t : Str} (ht : t ∈ g) {c : Char} (hc : c ∈ t) :
    c ∈ ['s'].intercalate g := by
  induction g with
  | nil => cases ht
  | cons x g ih =>
    rw [intercalate_cons]
    rcases List.mem_cons.mp ht with rfl | ht
    · exact List.mem_append_left _ hc
    · rw [if_neg (List.ne_nil_of_mem ht)]
      exact List.mem_append_right _ (List.mem_cons_of_mem _ (ih ht))

theorem withoutClock_batchText (g : List Str) : Lcb.withoutClock (batchText g) =
    zeroPad 2 (decimal g.length) ++ Lcb.withoutClock (['s'].intercalate g) := by
  have hdigits : 'v' ∉ zeroPad 2 (decimal g.length) :=
    notMem_digits (zeroPad_digits fun _ => decimal_digits) rfl
  exact takeWhile_ne_append hdigits _

namespace SentAs
variable {p lsn : Nat} {dependencies : List Int} {batches frames : List Str}

theorem batch (h : SentAs p dependencies lsn batches frames) :
    (∀ frame ∈ frames, ∃ batch ∈ batches, ∃ es, frame = batch ++ clockText es) ∧
    frames.map Lcb.withoutClock = batches.map Lcb.withoutClock := by
  induction h with
  | nil => simp
  | cons sent _ ih =>
    obtain ⟨hmem, hmap⟩ := ih
    obtain ⟨-, -, -, rfl⟩ := broadcastMessage_ok sent
    refine ⟨fun x hx => ?_, ?_⟩
    · rcases List.mem_cons.mp hx with rfl | hx
      · exact ⟨_, by simp, _, rfl⟩
      · obtain ⟨b, hb, es, rfl⟩ := hmem x hx
        exact ⟨b, by simp [hb], es, rfl⟩
    · rw [List.map_cons, List.map_cons, hmap,
        withoutClock_clockText _ (clockEntries_ne_nil _ _ _ _)]

/-- Each frame ends with its own number, so that no two are equal. -/
theorem numbered (h : SentAs p dependencies lsn batches frames) :
    frames.Nodup ∧ ∀ frame ∈ frames, ∃ n front, lsn ≤ n ∧
      frame = front ++ 'v' :: (pad3 p ++ decimal n) := by
  induction h with
  | nil => simp
  | @cons l l' batch frame batches frames sent _ ih =>
    obtain ⟨hnd, hnum⟩ := ih
    obtain ⟨rfl, -, -, rfl⟩ := broadcastMessage_ok sent
    set es := clockEntries l.vc dependencies p l.lsn with hes
    have hend : batch ++ clockText es = (batch ++ clockText (dependencies.map fun d => (d, l.vc d)))
        ++ 'v' :: (pad3 p ++ decimal l.lsn) := by
      rw [hes, clockEntries, clockText_append, clockText_cons, clockText_nil, List.append_nil,
        List.append_assoc]
      rfl
    have hdigits : ∀ n, 'v' ∉ pad3 p ++ decimal n :=
      fun _ => notMem_pad3_append p (notMem_decimal rfl)
    refine ⟨List.nodup_cons.mpr ⟨fun hin => ?_, hnd⟩, fun x hx => ?_⟩
    -- the own entry comes last, so that its marker is the last one, also behind a v of the batch
    · obtain ⟨n, front, hn, he⟩ := hnum _ hin
      have hlast := last_marker (hdigits _) (hdigits n) (hend.symm.trans he)
      have := decimal_injective (List.append_cancel_left hlast)
      simp only at hn
      omega
    · rcases List.mem_cons.mp hx with rfl | hx
      · exact ⟨_, _, Nat.le_refl _, hend⟩
      · obtain ⟨n, front, hn, he⟩ := hnum x hx
        exact ⟨n, front, Nat.le_of_succ_le hn, he⟩

/-- The links and URB take no frame for anything else. -/
theorem carried {ts : List Str} (hts : ∀ t ∈ ts, '\x00' ∉ t)
    (h : SentAs p dependencies lsn (concatMessages ts) frames) :
    ∀ frame ∈ frames, '\x00' ∉ frame ∧ frame.head? ≠ some 'r' := by
  intro frame hin
  obtain ⟨b, hb, es, rfl⟩ := h.batch.1 frame hin
  rw [concatMessages_cut] at hb
  obtain ⟨g, hg, rfl⟩ := List.mem_map.mp hb
  have hdigits : ∀ c ∈ zeroPad 2 (decimal g.length), c.isDigit = true :=
    zeroPad_digits fun _ => decimal_digits
  constructor
  · intro hnul
    rcases List.mem_append.mp hnul with hnul | hnul
    · rcases List.mem_append.mp hnul with hnul | hnul
      · exact absurd (hdigits _ hnul) (by decide)
      · rcases mem_intercalate hnul with he | ⟨t, ht, hc⟩
        · exact absurd he (by decide)
        · exact hts t (mem_of_mem_cut hg ht) hc
    · exact absurd (clockText_chars es _ hnul) (by decide)
  · intro hr
    have hne : zeroPad 2 (decimal g.length) ≠ [] := zeroPad_ne_nil (decimal_ne_nil g.length)
    obtain ⟨d, ds, hd⟩ := List.exists_cons_of_ne_nil hne
    rw [batchText, hd] at hr
    obtain rfl := Option.some.inj hr
    exact absurd (hdigits 'r' (by simp [hd])) (by decide)

end SentAs

def shown (g : List Str) : Str := Lcb.withoutClock (['s'].intercalate g)

theorem entriesOf_log (header : Str) (es : List Str) :
    entriesOf header (es.foldl addMessageLog []) = (entriesOf header es).foldl addMessageLog [] :=
  filter_foldl_addMessageLog _ es []

theorem entriesOf_delivered (id : Str) (es : List Str) :
    entriesOf (deliveredHeader id) es = entriesOf (deliveredHeader id) (entriesOf ['d'] es) := by
  rw [entriesOf, entriesOf, entriesOf, List.filter_filter]
  refine List.filter_congr fun e _ => ?_
  have hd : ['d'] <+: deliveredHeader id := List.prefix_append ['d'] _
  by_cases h : deliveredHeader id <+: e
  · simp [h, hd.trans h]
  · simp [h]

theorem deliveredEntry_d {key entry : Str} (h : Lcb.deliveredEntry key = .ok entry) :
    ['d'] <+: entry := by
  simp only [Lcb.deliveredEntry, Lcb.toMessageFormat, bind_eq_ok] at h
  obtain ⟨formated, ⟨sender, -, payload, -, hf⟩, h⟩ := h
  obtain rfl := Except.ok.inj hf
  obtain rfl := Except.ok.inj h
  exact List.prefix_append ['d'] _

section Log
variable {N : Nat} (hN : N ≤ 999) {p : Nat} (hp : p ≤ N)
include hN hp

theorem delivered_entries {out : List (Str × Str)}
    (h : ∀ e ∈ out, Lcb.deliveredEntry e.1 = .ok e.2 ∧ ∃ s text, s ≤ N ∧ e.1 = messageKey s text) :
    entriesOf (deliveredHeader (pad3 p)) (out.map Prod.snd) =
      (keysFrom p out).map fun k => deliveredLog p (Lcb.withoutClock (k.drop 3)) := by
  induction out with
  | nil => rfl
  | cons e out ih =>
    obtain ⟨key, entry⟩ := e
    obtain ⟨hentry, s, text, hs, rfl⟩ := h (key, entry) (by simp)
    have ih := ih fun x hx => h x (by simp [hx])
    dsimp only at hentry
    rw [deliveredEntry_messageKey (by omega)] at hentry
    obtain rfl := Except.ok.inj hentry
    have hkeyStarts := pad3_starts_iff hN hp hs text
    rw [keyOrigin_messageKey (by omega), Int.natCast_inj] at hkeyStarts
    have hentryStarts :=
      deliveredLog_starts (x := p) (y := s) (by omega) (by omega) (Lcb.withoutClock text)
    have hdrop : (messageKey s text).drop 3 = text := List.drop_left' (pad3_length (by omega))
    simp only [entriesOf, keysFrom, List.map_cons, List.filter_cons] at ih ⊢
    by_cases he : s = p
    · subst he
      simp [hkeyStarts, hentryStarts, hdrop, ih]
    · simp [hkeyStarts, hentryStarts, he, Ne.symm he, ih]

theorem log_of_run {cs : List LcbCall} (h : HandedUp N cs) {l l' : Lcb} (h0 : l.pairs = .empty)
    {out : List (Str × Str)} (hr : Lcb.run cs l = .ok (l', out)) {ts frames es : List Str}
    {dependencies : List Int} (hsent : SentAs p dependencies 0 (concatMessages ts) frames)
    (hkeys : keysFrom p out = frames.map (messageKey p))
    (hes : entriesOf ['d'] es = out.map Prod.snd) :
    entriesOf (deliveredHeader (pad3 p)) (es.foldl addMessageLog []) =
      ((cut groupBy ts).map (entryOf (deliveredHeader (pad3 p)) shown)).foldl addMessageLog [] := by
  have hout : ∀ e ∈ out, Lcb.deliveredEntry e.1 = .ok e.2 ∧
      ∃ s text, s ≤ N ∧ e.1 = messageKey s text := by
    intro e he
    obtain ⟨s, text, -, hs, hkey⟩ :=
      h.known _ ((h.progress hN h0 hr).received _ (List.mem_map_of_mem he))
    exact ⟨(((stored_of_empty h0).run hr).2 e he).2, s, text, hs, hkey⟩
  have hdrop : ∀ frame, (messageKey p frame).drop 3 = frame := fun frame =>
    List.drop_left' (pad3_length (by omega))
  have hbatch : ∀ g, deliveredLog p (Lcb.withoutClock (batchText g)) =
      entryOf (deliveredHeader (pad3 p)) shown g := by
    intro g
    rw [deliveredLog_eq, withoutClock_batchText]
    rfl
  rw [entriesOf_log, entriesOf_delivered, hes, delivered_entries hN hp hout, hkeys]
  congr 1
  calc (frames.map (messageKey p)).map (fun k => deliveredLog p (Lcb.withoutClock (k.drop 3)))
      = (frames.map Lcb.withoutClock).map (deliveredLog p) := by
        simp only [List.map_map, Function.comp_def, hdrop]
    _ = ((concatMessages ts).map Lcb.withoutClock).map (deliveredLog p) := by rw [hsent.batch.2]
    _ = (cut groupBy ts).map (entryOf (deliveredHeader (pad3 p)) shown) := by
        simp only [concatMessages_cut, List.map_map, Function.comp_def, hbatch]

end Log

theorem sentEntries (ts : List Str) : (concatMessages ts).map sentEntry =
    (cut groupBy ts).map (entryOf ['b'] (['s'].intercalate ·)) := by
  rw [concatMessages_cut, List.map_map]
  rfl

theorem log_decodes {header : Str} (hh : EntryHeader header) {ts : List Str}
    (hu : ∀ t ∈ ts, Uncut t) (hnd : (concatMessages ts).Nodup) :
    deconcatMessages (((concatMessages ts).map (header ++ ·)).foldl addMessageLog []) =
      .ok (ts.map (header ++ ·)) := by
  have hinj : Function.Injective (header ++ · : Str → Str) := fun _ _ => List.append_cancel_left
  rw [foldl_addMessageLog (l := []) (List.Nodup.map hinj hnd), List.nil_append]
  exact deconcatMessages_batches hh hu

theorem shown_eq {g : List Str} (h : ∀ t ∈ g, 'v' ∉ t) : shown g = ['s'].intercalate g := by
  refine takeWhile_ne_self fun hc => ?_
  rcases mem_intercalate hc with he | ⟨t, ht, hv⟩
  · exact absurd he (by decide)
  · exact h t ht hv

theorem shown_length_le (g : List Str) : (shown g).length ≤ (['s'].intercalate g).length :=
  (List.takeWhile_prefix _).length_le

theorem notMem_of_shown {g : List Str} (h : (shown g).length = (['s'].intercalate g).length) :
    ∀ t ∈ g, 'v' ∉ t := by
  intro t ht hv
  have heq := (List.takeWhile_prefix (fun c => decide (c ≠ 'v'))).eq_of_length h
  have hall := List.takeWhile_eq_self_iff.mp heq _ (mem_intercalate_of_mem ht hv)
  simp at hall

/-- A log that gives back the texts dropped no batch, cut none short, and shows no separator. -/
theorem log_exact_texts {header : Str} (hh : EntryHeader header) {body : List Str → Str}
    {ts : List Str} (hbody : ∀ g, (body g).length ≤ (['s'].intercalate g).length)
    (h : deconcatMessages (((cut groupBy ts).map (entryOf header body)).foldl addMessageLog []) =
      .ok (ts.map (header ++ ·))) :
    ((cut groupBy ts).map (entryOf header body)).Nodup ∧
    (∀ g ∈ cut groupBy ts, (body g).length = (['s'].intercalate g).length) ∧
    ∀ t ∈ ts, 's' ∉ t.tail := by
  have hflat := flatten_cut (n := groupBy) (by decide) ts
  have hexact := log_exact hh (fun g => mem_cut (by decide)) (fun g _ => hbody g)
    (h.trans (by rw [hflat]))
  rwa [hflat] at hexact

theorem own_iff {ts : List Str} (hts : ∀ t ∈ ts, t ≠ []) :
    (∀ es, entriesOf ['b'] es = (concatMessages ts).map sentEntry →
      deconcatMessages (entriesOf ['b'] (es.foldl addMessageLog [])) =
        .ok (ts.map (['b'] ++ ·))) ↔
    (∀ t ∈ ts, 's' ∉ t.tail) ∧ (concatMessages ts).Nodup := by
  constructor
  · intro h
    have hall : entriesOf ['b'] ((concatMessages ts).map sentEntry) =
        (concatMessages ts).map sentEntry := by
      refine List.filter_eq_self.mpr fun e he => ?_
      obtain ⟨b, -, rfl⟩ := List.mem_map.mp he
      simp [sentEntry]
    have hlog := h _ hall
    rw [entriesOf_log, hall, sentEntries] at hlog
    obtain ⟨hnd, -, hs⟩ := log_exact_texts .sent (fun _ => Nat.le_refl _) hlog
    rw [← sentEntries] at hnd
    exact ⟨hs, hnd.of_map _⟩
  · rintro ⟨hs, hnd⟩ es hes
    rw [entriesOf_log, hes]
    exact log_decodes .sent (fun t ht => ⟨hts t ht, hs t ht⟩) hnd

/-- If all batches can be delivered, some process delivers them, and its log must show all. -/
theorem Agnostic.notMem_marker {N p : Nat} (hN : N ≤ 999) (hp : 1 ≤ p ∧ p ≤ N)
    {dependencies : List Int} {ts frames : List Str} (hts : ∀ t ∈ ts, '\x00' ∉ t)
    (hsent : SentAs p dependencies 0 (concatMessages ts) frames) (h : Agnostic N p ts frames)
    (hall : ∀ i frame, frames[i]? = some frame → Deliverable N p i (messageKey p frame)) :
    ∀ t ∈ ts, 'v' ∉ t := by
  set keys := frames.map (messageKey p) with hkeys
  have hd : ∀ i k, keys[i]? = some k → Deliverable N p i k := by
    intro i k hk
    rw [hkeys, List.getElem?_map, Option.map_eq_some_iff] at hk
    obtain ⟨frame, hi, rfl⟩ := hk
    exact hall i frame hi
  have hfrom : ∀ k ∈ keys, ∃ text, k = messageKey p text := by
    intro k hk
    obtain ⟨frame, -, rfl⟩ := List.mem_map.mp hk
    exact ⟨frame, rfl⟩
  have hdistinct : keys.Nodup := hsent.numbered.1.map fun _ _ he => List.append_cancel_left he
  obtain ⟨cs, l', out, hup, hrun, hout⟩ := exists_run_of_deliverable hN hp hfrom hdistinct hd
    (l := ⟨false, 0, fun _ => 0, .empty⟩) rfl rfl
  have hes : entriesOf ['d'] (out.map Prod.snd) = out.map Prod.snd := by
    refine List.filter_eq_self.mpr fun entry he => ?_
    obtain ⟨e, hin, rfl⟩ := List.mem_map.mp he
    exact decide_eq_true (deliveredEntry_d (((stored_of_empty rfl).run hrun).2 e hin).2)
  have hlog := h.others p keys cs _ l' out _ hp
    ((receivedAs_keys (by omega) (by omega) (hsent.carried hts)).mpr rfl) rfl rfl hup hrun hout hes
  rw [log_of_run hN hp.2 hup rfl hrun hsent hout hes] at hlog
  obtain ⟨-, hshown, -⟩ :=
    log_exact_texts (.delivered (pad3_length (by omega))) shown_length_le hlog
  intro t ht
  rw [← flatten_cut (n := groupBy) (by decide) ts] at ht
  obtain ⟨g, hg, ht⟩ := List.mem_flatten.mp ht
  exact notMem_of_shown (hshown g hg) t ht

/-- Exactly the texts that the layers can carry: no s behind the first character, no two batches
alike, and no v, or so placed that what follows is a clock no process ever gets past. -/
theorem payload_text_iff {N p : Nat} (hN : N ≤ 999) (hp : 1 ≤ p ∧ p ≤ N) {dependencies : List Int}
    {ts frames : List Str} (hts : ∀ t ∈ ts, t ≠ [] ∧ '\x00' ∉ t)
    (hsent : SentAs p dependencies 0 (concatMessages ts) frames) :
    Agnostic N p ts frames ↔ (∀ t ∈ ts, 's' ∉ t.tail) ∧ (concatMessages ts).Nodup ∧
      ((∀ t ∈ ts, 'v' ∉ t) ∨
        ∃ i frame, frames[i]? = some frame ∧ ¬ Deliverable N p i (messageKey p frame)) := by
  have hheader : EntryHeader (deliveredHeader (pad3 p)) := .delivered (pad3_length (by omega))
  have hcarried := hsent.carried fun t ht => (hts t ht).2
  constructor
  · intro h
    obtain ⟨hs, hnd⟩ := (own_iff fun t ht => (hts t ht).1).mp h.own
    refine ⟨hs, hnd, or_iff_not_imp_right.mpr fun hnone => ?_⟩
    refine Agnostic.notMem_marker hN hp (fun t ht => (hts t ht).2) hsent h fun i frame hi => ?_
    by_contra hnot
    exact hnone ⟨i, frame, hi, hnot⟩
  · rintro ⟨hs, hnd, hv⟩
    refine ⟨(own_iff fun t ht => (hts t ht).1).mpr ⟨hs, hnd⟩, ?_⟩
    intro q keys cs l l' out es hq hreceived hvc h0 hup hrun hkeys hes
    obtain rfl := (receivedAs_keys (by omega) (by omega) hcarried).mp hreceived
    rcases hv with hv | ⟨i, frame, hi, hnot⟩
    -- without the marker an entry shows its batch whole
    · have hwhole : (cut groupBy ts).map (entryOf (deliveredHeader (pad3 p)) shown) =
          (concatMessages ts).map (deliveredHeader (pad3 p) ++ ·) := by
        rw [concatMessages_cut, List.map_map]
        refine List.map_congr_left fun g hg => ?_
        rw [entryOf, shown_eq fun t ht => hv t (mem_of_mem_cut hg ht)]
        rfl
      rw [log_of_run hN hp.2 hup h0 hrun hsent hkeys hes, hwhole]
      exact log_decodes hheader (fun t ht => ⟨(hts t ht).1, hs t ht⟩) hnd
    -- no process delivers this one, whatever else it is handed
    · refine absurd (hup.deliverable hN hvc h0 hrun hp.2 ?_) hnot
      rw [hkeys, List.getElem?_map, hi]
      rfl

theorem payload_text_hello : Agnostic 3 1 [['h', 'i'], ['h', 'o']]
    [['0', '2', 'h', 'i', 's', 'h', 'o', 'v', '0', '0', '1', '0']] := by
  have hsent : Lcb.broadcastMessage 1 [] ⟨true, 0, fun _ => 0, .empty⟩
      ['0', '2', 'h', 'i', 's', 'h', 'o'] = .ok (⟨true, 1, fun _ => 0, .empty⟩,
        ['0', '2', 'h', 'i', 's', 'h', 'o', 'v', '0', '0', '1', '0']) := rfl
  exact (payload_text_iff (N := 3) (p := 1) (by decide) (by decide) (by decide)
    (.cons hsent (.nil 1))).mpr ⟨by decide, by decide, .inl (by decide)⟩

/-- A text with an s inside is cut at it, already in the log of its own process. -/
theorem payload_text_cut : ∃ frames,
    SentAs 1 [] 0 (concatMessages [['c', 'a', 's', 'e']]) frames ∧
    ¬ Agnostic 3 1 [['c', 'a', 's', 'e']] frames := by
  have hsent : Lcb.broadcastMessage 1 [] ⟨true, 0, fun _ => 0, .empty⟩
      ['0', '1', 'c', 'a', 's', 'e'] = .ok (⟨true, 1, fun _ => 0, .empty⟩,
        ['0', '1', 'c', 'a', 's', 'e', 'v', '0', '0', '1', '0']) := rfl
  refine ⟨_, .cons hsent (.nil 1), fun h => ?_⟩
  have hcut : deconcatMessages (entriesOf ['b'] ([['b', '0', '1', 'c', 'a', 's', 'e']].foldl
      addMessageLog [])) = .ok [['b', 'c', 'a']] := by decide
  have hown := h.own [['b', '0', '1', 'c', 'a', 's', 'e']] (by decide)
  rw [hcut] at hown
  exact absurd (Except.ok.inj hown) (by decide)

end DecentralizedBroadcast
