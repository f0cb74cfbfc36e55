import DecentralizedBroadcast.Output
import DecentralizedBroadcast.ProcessLog

/-! From the log to the verdict: the numbers that went into a batch come out of it again,
one line each, and the script reads these lines back. -/
set_option autoImplicit false

namespace DecentralizedBroadcast

/-- A log entry, as the batch it stands for. -/
inductive Entry where
  | sent (g : List Nat)
  | delivered (x : Nat) (g : List Nat)

/-- A line of the output file. -/
inductive Line where
  | b (k : Nat)
  | d (s k : Nat)

namespace Entry

def text : Entry → Str
  | sent g => sentEntry (batchOf g)
  | delivered x g => deliveredLog x (batchOf g)

def Fits : Entry → Prop
  | sent g => g ≠ [] ∧ g.length ≤ groupBy
  | delivered x g => x ≤ 999 ∧ g ≠ [] ∧ g.length ≤ groupBy

def messages : Entry → List Str
  | sent g => g.map fun n => ['b'] ++ decimal n
  | delivered x g => g.map fun n => deliveredLog x [] ++ decimal n

def lines : Entry → List Line
  | sent g => g.map .b
  | delivered x g => g.map (.d x)

end Entry

def Line.text : Line → Str
  | .b k => ['b', ' '] ++ (decimal k ++ ['\n'])
  | .d s k => ['d', ' '] ++ (decimal s ++ (' ' :: (decimal k ++ ['\n'])))

theorem intercalate_cons (t : Str) (ts : List Str) : ['s'].intercalate (t :: ts) =
    t ++ if ts = [] then [] else 's' :: ['s'].intercalate ts := by
  split
  · rename_i hts
    simp [hts]
  · rename_i hts
    rw [List.intercalate_cons_of_ne_nil hts]
    simp

/-- A text that `find` from its second character on does not cut. -/
def Uncut (t : Str) : Prop := t ≠ [] ∧ 's' ∉ t.tail

theorem uncut_decimal (n : Nat) : Uncut (decimal n) :=
  ⟨decimal_ne_nil n, fun hin => notMem_decimal rfl (List.mem_of_mem_tail hin)⟩

/-- The texts of a batch come out in order; `front` is what the loop has passed. -/
theorem deconcatLoop_texts (header front : Str) {ts : List Str} (h : ∀ t ∈ ts, Uncut t) :
    deconcatLoop header (front ++ ['s'].intercalate ts) ts.length front.length =
      .ok (ts.map (header ++ ·)) := by
  induction ts generalizing front with
  | nil => rfl
  | cons t ts ih =>
    set tail : Str := if ts = [] then [] else 's' :: ['s'].intercalate ts with htail
    have hm : front ++ ['s'].intercalate (t :: ts) = front ++ (t ++ tail) := by
      rw [intercalate_cons]
    have hend : (find (front ++ (t ++ tail)) 's' (front.length + 1)).getD
        (front ++ (t ++ tail)).length = front.length + t.length := by
      obtain ⟨hne, hs⟩ := h t (by simp)
      obtain ⟨c, ds, rfl⟩ := List.exists_cons_of_ne_nil hne
      rw [List.tail_cons] at hs
      have hsplit : front ++ (c :: ds ++ tail) = (front ++ [c]) ++ (ds ++ tail) := by simp
      rw [hsplit, find_append (by simp)]
      by_cases hts : ts = []
      · rw [htail, if_pos hts, List.append_nil, find_zero_of_notMem hs]
        simp
      · rw [htail, if_neg hts, find_zero_marker hs]
        simp
        omega
    have htext : substr (front ++ (t ++ tail)) front.length
        (front.length + t.length - front.length) = .ok t :=
      substr_mid rfl (by omega)
    have hrest : deconcatLoop header (front ++ (t ++ tail)) ts.length
        (front.length + t.length + 1) = .ok (ts.map (header ++ ·)) := by
      by_cases hts : ts = []
      · subst hts
        rfl
      · have hfront := ih (front ++ (t ++ ['s'])) fun x hx => h x (by simp [hx])
        have hsplit : front ++ (t ++ tail) =
            front ++ (t ++ ['s']) ++ ['s'].intercalate ts := by simp [htail, hts]
        rw [hsplit]
        simpa [Nat.add_assoc] using hfront
    simp only [hm, List.length_cons, deconcatLoop, hend, htext, hrest]
    rfl

theorem stoul_digits {ds : Str} {n : Nat} (hne : ds ≠ []) (hd : ∀ c ∈ ds, c.isDigit = true)
    (hv : Nat.ofDigitChars 10 ds 0 = n) (hn : n < 2 ^ 64) : stoul ds = .ok n := by
  have hscan := @scanNumber_digits ds [] hne hd (by simp)
  rw [List.append_nil, hv] at hscan
  have hmod : ((n : Int) % 2 ^ 64).toNat = n := by omega
  simp only [stoul, hscan, Int.natAbs_natCast, hn, if_true, hmod]

theorem batchHeader_length {k : Nat} (hk : k ≤ groupBy) : (zeroPad 2 (decimal k)).length = 2 := by
  have hk : k ≤ 15 := hk
  have := decimal_length_le (n := k) (k := 2) (by decide) (by omega)
  rw [zeroPad_length]
  omega

theorem stoul_batchHeader {k : Nat} (hk : k ≤ groupBy) :
    stoul (zeroPad 2 (decimal k)) = .ok k := by
  have hk : k ≤ 15 := hk
  exact stoul_digits (zeroPad_ne_nil (decimal_ne_nil k)) (zeroPad_digits fun _ => decimal_digits)
    (ofDigitChars_zeroPad 2 k) (by omega)

def deliveredHeader (id : Str) : Str := 'd' :: (id ++ ['0', '0', '0'])

/-- What `deconcatMessages` takes for the header of an entry. -/
inductive EntryHeader : Str → Prop where
  | sent : EntryHeader ['b']
  | delivered {id : Str} (h : id.length = 3) : EntryHeader (deliveredHeader id)

/-- Behind either header stand the count and the messages. -/
theorem deconcatEntry_eq {header : Str} (h : EntryHeader header) {k : Nat} (hk : k ≤ groupBy)
    (messages : Str) : deconcatEntry (header ++ (zeroPad 2 (decimal k) ++ messages)) =
      deconcatLoop header messages k 0 := by
  have hlen := batchHeader_length hk
  have hcount : ∀ pos, pos = header.length →
      substr (header ++ (zeroPad 2 (decimal k) ++ messages)) pos 2 =
        .ok (zeroPad 2 (decimal k)) := fun pos hp => substr_mid hp hlen.symm
  have hmessages : ∀ pos, pos = header.length + 2 →
      substr (header ++ (zeroPad 2 (decimal k) ++ messages)) pos
        (header ++ (zeroPad 2 (decimal k) ++ messages)).length = .ok messages := by
    intro pos hp
    rw [← List.append_assoc]
    exact substr_tail (by simp [hp, hlen]) (by simp; omega)
  cases h with
  | sent =>
    have hb : (['b'] ++ (zeroPad 2 (decimal k) ++ messages)).head? = some 'b' := rfl
    simp only [deconcatEntry, hb, if_true, hcount 1 rfl, hmessages 3 rfl, bind, Except.bind,
      stoul_batchHeader hk]
  | @delivered id hid =>
    have hseven : 7 = (deliveredHeader id).length := by simp [deliveredHeader, hid]
    have hheader : substr (deliveredHeader id ++ (zeroPad 2 (decimal k) ++ messages)) 0 7 =
        .ok (deliveredHeader id) := by
      have := substr_mid (a := []) (b := deliveredHeader id)
        (c := zeroPad 2 (decimal k) ++ messages) rfl hseven
      simpa using this
    have hd : (deliveredHeader id ++ (zeroPad 2 (decimal k) ++ messages)).head? = some 'd' := rfl
    have hb : ¬ some 'd' = some 'b' := by decide
    simp only [deconcatEntry, hd, hb, if_true, if_false, hheader, hcount 7 hseven,
      hmessages 9 (by omega), bind, Except.bind, stoul_batchHeader hk]

theorem deconcatEntry_batch {header : Str} (hh : EntryHeader header) {ts : List Str}
    (h : ∀ t ∈ ts, Uncut t) (hl : ts.length ≤ groupBy) :
    deconcatEntry (header ++ batchText ts) = .ok (ts.map (header ++ ·)) := by
  rw [batchText, deconcatEntry_eq hh hl]
  simpa using deconcatLoop_texts header [] h

theorem deliveredLog_eq (x : Nat) (b : Str) : deliveredLog x b = deliveredHeader (pad3 x) ++ b := by
  simp [deliveredLog, deliveredHeader]

def entriesOf (header : Str) (processLog : List Str) : List Str :=
  processLog.filter (header <+: ·)

theorem deliveredHeader_starts {id id' : Str} (h : id.length = 3) (h' : id'.length = 3)
    (rest : Str) : deliveredHeader id <+: deliveredHeader id' ++ rest ↔ id = id' := by
  constructor
  · intro hpre
    have hlen : (deliveredHeader id).length = (deliveredHeader id').length := by
      simp [deliveredHeader, h, h']
    have hpre := List.prefix_of_prefix_length_le hpre (List.prefix_append _ rest)
      (Nat.le_of_eq hlen)
    exact List.append_cancel_right (List.cons.inj (hpre.eq_of_length hlen)).2
  · rintro rfl
    exact List.prefix_append _ _

theorem deliveredLog_starts {x y : Nat} (hx : x ≤ 999) (hy : y ≤ 999) (b : Str) :
    deliveredHeader (pad3 x) <+: deliveredLog y b ↔ x = y := by
  rw [deliveredLog_eq, deliveredHeader_starts (pad3_length hx) (pad3_length hy)]
  exact ⟨pad3_injective, fun h => congrArg _ h⟩

theorem deconcatEntry_text {e : Entry} (h : e.Fits) : deconcatEntry e.text = .ok e.messages := by
  have hu : ∀ (g : List Nat), ∀ t ∈ g.map decimal, Uncut t := by
    intro g t ht
    obtain ⟨n, -, rfl⟩ := List.mem_map.mp ht
    exact uncut_decimal n
  cases e with
  | sent g =>
    have hb : sentEntry (batchText (g.map decimal)) = ['b'] ++ batchText (g.map decimal) := rfl
    rw [Entry.text, batchOf_eq, hb, deconcatEntry_batch .sent (hu g) (by simpa using h.2),
      List.map_map]
    rfl
  | delivered x g =>
    rw [Entry.text, batchOf_eq, deliveredLog_eq, deconcatEntry_batch (.delivered (pad3_length h.1))
      (hu g) (by simpa using h.2.2), List.map_map]
    simp [Entry.messages, deliveredLog_eq, Function.comp_def]

theorem deconcatMessages_text {es : List Entry} (h : ∀ e ∈ es, e.Fits) :
    deconcatMessages (es.map Entry.text) = .ok (es.flatMap Entry.messages) := by
  induction es with
  | nil => rfl
  | cons e es ih =>
    have ih := ih fun x hx => h x (by simp [hx])
    simp only [List.map_cons, deconcatMessages, deconcatEntry_text (h e (by simp)), ih]
    rfl

theorem outputLine_b (n : Nat) : outputLine (['b'] ++ decimal n) = .ok (Line.b n).text := by
  have hpay : substr ('b' :: decimal n) 1 ('b' :: decimal n).length = .ok (decimal n) :=
    @substr_tail ['b'] (decimal n) 1 _ rfl (by simp)
  simp only [outputLine, List.cons_append, List.nil_append, List.head?_cons, hpay]
  rfl

theorem outputLine_d {x : Nat} (hx : x ≤ 999) (n : Nat) :
    outputLine (deliveredLog x [] ++ decimal n) = .ok (Line.d x n).text := by
  set m := deliveredLog x [] ++ decimal n with hm
  have hlen := pad3_length hx
  have hid : substr m 1 3 = .ok (pad3 x) := by
    have := @substr_mid ['d'] (pad3 x) (['0', '0', '0'] ++ decimal n) 1 3 rfl hlen.symm
    simpa [hm, deliveredLog] using this
  have htarget : substr m 4 3 = .ok ['0', '0', '0'] := by
    have := @substr_mid ('d' :: pad3 x) ['0', '0', '0'] (decimal n) 4 3 (by simp [hlen]) rfl
    simpa [hm, deliveredLog] using this
  have hzero : stoi ['0', '0', '0'] = .ok 0 := by decide
  have hpay : substr m 7 m.length = .ok (decimal n) :=
    substr_tail (by simp [deliveredLog, hlen]) (by simp [hm])
  have hd : m.head? = some 'd' := rfl
  simp only [outputLine, hd, if_true, hid, htarget, hpay, bind, Except.bind, stoi_pad3 hx, hzero]
  rfl

theorem outputLines_append {a b : List Str} {x y : Str} (ha : outputLines a = .ok x)
    (hb : outputLines b = .ok y) : outputLines (a ++ b) = .ok (x ++ y) := by
  induction a generalizing x with
  | nil =>
    obtain rfl := Except.ok.inj ha
    exact hb
  | cons m a ih =>
    simp only [outputLines, bind_eq_ok] at ha
    obtain ⟨line, hline, rest, hrest, ha⟩ := ha
    obtain rfl := Except.ok.inj ha
    simp only [List.cons_append, outputLines, hline, ih hrest, bind, Except.bind]
    simp [pure, Except.pure]

theorem outputLines_map {g : List Nat} {f : Nat → Str} {l : Nat → Line}
    (h : ∀ n, outputLine (f n) = .ok (l n).text) :
    outputLines (g.map f) = .ok ((g.map l).flatMap Line.text) := by
  induction g with
  | nil => rfl
  | cons n g ih =>
    simp only [List.map_cons, outputLines, h n, ih, bind, Except.bind, List.flatMap_cons]
    rfl

theorem outputLines_messages {es : List Entry} (h : ∀ e ∈ es, e.Fits) :
    outputLines (es.flatMap Entry.messages) =
      .ok ((es.flatMap Entry.lines).flatMap Line.text) := by
  induction es with
  | nil => rfl
  | cons e es ih =>
    have ih := ih fun x hx => h x (by simp [hx])
    have he : outputLines e.messages = .ok (e.lines.flatMap Line.text) := by
      cases e with
      | sent g => exact outputLines_map outputLine_b
      | delivered x g => exact outputLines_map (outputLine_d (h (.delivered x g) (by simp)).1)
    rw [List.flatMap_cons, List.flatMap_cons, List.flatMap_append]
    exact outputLines_append he ih

/-- What a process with this log writes when it is stopped. -/
theorem stop_text {es : List Entry} (h : ∀ e ∈ es, e.Fits) :
    stop (es.map Entry.text) = .ok ((es.flatMap Entry.lines).flatMap Line.text) :=
  bind_eq_ok.mpr ⟨_, deconcatMessages_text h, outputLines_messages h⟩

theorem Entry.text_injective {e e' : Entry} (h : e.Fits) (h' : e'.Fits) (he : e.text = e'.text) :
    e = e' := by
  have hinj : ∀ {front : Str} {g g' : List Nat},
      g.map (fun n => front ++ decimal n) = g'.map (fun n => front ++ decimal n) → g = g' :=
    fun heq => List.map_injective_iff.mpr
      (fun n n' hn => decimal_injective (List.append_cancel_left hn)) heq
  have hm : e.messages = e'.messages := by
    have := deconcatEntry_text h
    rw [he, deconcatEntry_text h'] at this
    exact (Except.ok.inj this).symm
  cases e with
  | sent g =>
    cases e' with
    | sent g' => rw [hinj hm]
    | delivered x' g' => cases he
  | delivered x g =>
    cases e' with
    | sent g' => cases he
    | delivered x' g' =>
      obtain ⟨rfl, -⟩ := deliveredLog_injective h.1 h'.1 he
      rw [hinj hm]

end DecentralizedBroadcast
