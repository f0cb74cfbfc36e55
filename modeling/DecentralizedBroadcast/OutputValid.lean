import DecentralizedBroadcast.OutputText

/-! Every output file passes the script: what a process logs are the batches it broadcast, in
order, and for every sender the batches it broadcast, in order. -/
set_option autoImplicit false

namespace DecentralizedBroadcast
open History ClockedDelivery Groups

def Line.b? : Line → Option Nat
  | .b k => some k
  | .d _ _ => none

def Line.d? (s : Nat) : Line → Option Nat
  | .b _ => none
  | .d s' k => if s' = s then some k else none

theorem fileLines_line {body : Str} (h : ∀ c ∈ body, c ≠ '\n' ∧ c ≠ '\r') (cur rest : Str) :
    fileLines (body ++ '\n' :: rest) cur = (cur ++ (body ++ ['\n'])) :: fileLines rest [] := by
  induction body generalizing cur with
  | nil => simp [fileLines]
  | cons c body ih =>
    obtain ⟨hn, hr⟩ := h c (by simp)
    have ih := ih (fun x hx => h x (by simp [hx])) (cur ++ [c])
    rw [List.cons_append, fileLines.eq_6 _ _ _ hn (fun _ hx => absurd hx hr) hr, ih]
    simp

theorem splitWords_word {w : Str} (hw : ∀ c ∈ w, pySpace c = false) {c : Char}
    (hc : pySpace c = true) (cur rest : Str) (hne : cur ++ w ≠ []) :
    splitWords (w ++ c :: rest) cur = (cur ++ w) :: splitWords rest [] := by
  induction w generalizing cur with
  | nil =>
    have hcur : cur ≠ [] := by simpa using hne
    simp [splitWords, hc, hcur]
  | cons x w ih =>
    have hx : pySpace x = false := hw x (by simp)
    have ih := ih (fun y hy => hw y (by simp [hy])) (cur ++ [x]) (by simp)
    simp only [List.cons_append, splitWords, hx, Bool.false_eq_true, if_false, ih]
    simp

theorem pySpace_digit {c : Char} (h : c.isDigit = true) : pySpace c = false := by
  have h1 := isspace_of_isDigit h
  simp only [Char.isDigit, Bool.and_eq_true, decide_eq_true_eq, ge_iff_le] at h
  have h48 : 48 ≤ c.toNat := by simpa [UInt32.le_iff_toNat_le] using h.1
  have h57 : c.toNat ≤ 57 := by simpa [UInt32.le_iff_toNat_le] using h.2
  simp only [pySpace, h1, Bool.false_or, Bool.or_eq_false_iff, Bool.and_eq_false_iff,
    decide_eq_false_iff_not, beq_eq_false_iff_ne]
  omega

theorem asciiDigit_digit {c : Char} (h : c.isDigit = true) : asciiDigit c = c := by
  simp only [Char.isDigit, Bool.and_eq_true, decide_eq_true_eq, ge_iff_le] at h
  have h48 : 48 ≤ c.toNat := by simpa [UInt32.le_iff_toNat_le] using h.1
  have h57 : c.toNat ≤ 57 := by simpa [UInt32.le_iff_toNat_le] using h.2
  have hzero : decimalZeros.find? (fun z => z ≤ c.toNat && c.toNat ≤ z + 9) = some 48 :=
    List.find?_cons_of_pos (by simp [h48, h57])
  have hdigit : ∀ n, 48 ≤ n → n ≤ 57 → Nat.digitChar (n - 48) = Char.ofNat n := by
    intro n h0 h9
    interval_cases n <;> rfl
  rw [asciiDigit, hzero]
  exact (hdigit _ h48 h57).trans (Char.ofNat_toNat c)

theorem pyInt_decimal {n : Nat} (hn : (decimal n).length ≤ 4300) :
    pyInt (decimal n) = some (n : Int) := by
  have hascii : (decimal n).map asciiDigit = decimal n :=
    (List.map_congr_left fun c hc => asciiDigit_digit (decimal_digits hc)).trans (List.map_id' _)
  obtain ⟨c, ds, hd⟩ := List.exists_cons_of_ne_nil (decimal_ne_nil n)
  have hc : c.isDigit = true := decimal_digits (n := n) (by simp [hd])
  have hsign : splitSign (decimal n) = (false, decimal n) := by
    rw [hd]
    exact splitSign_digit hc ds
  have hno : '_' ∉ decimal n := notMem_decimal rfl
  have hfilter : (decimal n).filter (· ≠ '_') = decimal n := by
    refine List.filter_eq_self.mpr fun x hx => ?_
    simp only [decide_eq_true_eq]
    rintro rfl
    exact hno hx
  have hall : (decimal n).all Char.isDigit = true :=
    List.all_eq_true.mpr fun _ => decimal_digits
  have hhead : (decimal n).head? ≠ some '_' := fun h => hno (List.mem_of_head? h)
  have hlast : (decimal n).getLast? ≠ some '_' := fun h => hno (List.mem_of_getLast? h)
  have hin : ¬ ['_', '_'] <:+: decimal n := fun h => hno (h.subset (by simp))
  have hv : Nat.ofDigitChars 10 (decimal n) 0 = n := by simp [decimal]
  simp only [pyInt, hascii, hsign, hfilter, hn, hall, hhead, hlast, hin, decimal_ne_nil n, hv,
    ne_eq, not_false_eq_true, and_self, if_true, Bool.false_eq_true, if_false]

theorem Line.text_body (l : Line) : ∃ body, l.text = body ++ ['\n'] ∧
    ∀ c ∈ body, c ≠ '\n' ∧ c ≠ '\r' := by
  have hdigit : ∀ {n : Nat} {c : Char}, c ∈ decimal n → c ≠ '\n' ∧ c ≠ '\r' := by
    intro n c hc
    constructor <;> rintro rfl <;> exact absurd (decimal_digits hc) (by decide)
  cases l with
  | b k =>
    refine ⟨['b', ' '] ++ decimal k, by simp [Line.text], fun c hc => ?_⟩
    rcases List.mem_append.mp hc with hc | hc
    · rcases List.mem_pair.mp hc with rfl | rfl <;> decide
    · exact hdigit hc
  | d s k =>
    refine ⟨['d', ' '] ++ (decimal s ++ (' ' :: decimal k)), by simp [Line.text], fun c hc => ?_⟩
    rcases List.mem_append.mp hc with hc | hc
    · rcases List.mem_pair.mp hc with rfl | rfl <;> decide
    · rcases List.mem_append.mp hc with hc | hc
      · exact hdigit hc
      · rcases List.mem_cons.mp hc with rfl | hc
        · decide
        · exact hdigit hc

theorem fileLines_text (ls : List Line) :
    fileLines (ls.flatMap Line.text) [] = ls.map Line.text := by
  induction ls with
  | nil => rfl
  | cons l ls ih =>
    obtain ⟨body, htext, hbody⟩ := l.text_body
    rw [List.flatMap_cons, List.map_cons, htext, List.append_assoc, List.singleton_append,
      fileLines_line hbody, ih, List.nil_append]

theorem splitWords_b (k : Nat) : splitWords (Line.b k).text [] = [['b'], decimal k] := by
  have hk := splitWords_word (w := decimal k) (fun c hc => pySpace_digit (decimal_digits hc))
    (show pySpace '\n' = true from rfl) [] [] (decimal_ne_nil k)
  have hb := splitWords_word (w := ['b']) (List.forall_mem_singleton.mpr rfl)
    (show pySpace ' ' = true from rfl) []
    (decimal k ++ ['\n']) (by simp)
  simp only [Line.text, List.cons_append, List.nil_append] at hb hk ⊢
  rw [hb, hk]
  rfl

theorem splitWords_d (s k : Nat) :
    splitWords (Line.d s k).text [] = [['d'], decimal s, decimal k] := by
  have hk := splitWords_word (w := decimal k) (fun c hc => pySpace_digit (decimal_digits hc))
    (show pySpace '\n' = true from rfl) [] [] (decimal_ne_nil k)
  have hs := splitWords_word (w := decimal s) (fun c hc => pySpace_digit (decimal_digits hc))
    (show pySpace ' ' = true from rfl) [] (decimal k ++ ['\n']) (decimal_ne_nil s)
  have hd := splitWords_word (w := ['d']) (List.forall_mem_singleton.mpr rfl)
    (show pySpace ' ' = true from rfl) []
    (decimal s ++ (' ' :: (decimal k ++ ['\n']))) (by simp)
  simp only [Line.text, List.cons_append, List.nil_append] at hd hs hk ⊢
  rw [hd, hs, hk]
  rfl

def Line.Short : Line → Prop
  | .b k => (decimal k).length ≤ 4300
  | .d s k => (decimal s).length ≤ 4300 ∧ (decimal k).length ≤ 4300

theorem decimal_short {n : Nat} (h : n ≤ 2147483647) : (decimal n).length ≤ 4300 := by
  have := decimal_length_le (n := n) (k := 10) (by decide) (by omega)
  omega

theorem checkLines_text {ls : List Line} {i : Nat} {next : Int → Int} {f : Nat → Nat}
    (hshort : ∀ l ∈ ls, l.Short)
    (hnext : ∀ s : Nat, next s = f s)
    (hb : ls.filterMap Line.b? = List.range' i (ls.filterMap Line.b?).length)
    (hd : ∀ s, ls.filterMap (Line.d? s) = List.range' (f s) (ls.filterMap (Line.d? s)).length) :
    checkLines (ls.map Line.text) i next = some true := by
  induction ls generalizing i next f with
  | nil => rfl
  | cons l ls ih =>
    obtain ⟨hl, hrestShort⟩ := List.forall_mem_cons.mp hshort
    cases l with
    | b k =>
      have hd' : ∀ s, ls.filterMap (Line.d? s) =
          List.range' (f s) (ls.filterMap (Line.d? s)).length := by
        intro s
        have hs := hd s
        rwa [List.filterMap_cons_none (show Line.d? s (.b k) = none from rfl)] at hs
      simp only [List.filterMap_cons, Line.b?, List.length_cons, List.range'_succ] at hb
      obtain ⟨rfl, hb⟩ := List.cons.inj hb
      have hrest := ih hrestShort hnext hb hd'
      simp only [List.map_cons, checkLines, splitWords_b]
      simpa [pyInt_decimal hl] using hrest
    | d s k =>
      have hs := hd s
      simp only [List.filterMap_cons, Line.d?, if_true, List.length_cons, List.range'_succ] at hs
      obtain ⟨rfl, hs⟩ := List.cons.inj hs
      rw [List.filterMap_cons_none (show Line.b? (.d s (f s)) = none from rfl)] at hb
      have hnext' : ∀ s' : Nat, Function.update next s (f s + 1) s' =
          (Function.update f s (f s + 1) s' : Nat) := by
        intro s'
        by_cases he : s' = s
        · subst he
          simp
        · have hne : (s' : Int) ≠ s := by omega
          simp [he, hne, hnext]
      have hd' : ∀ s', ls.filterMap (Line.d? s') =
          List.range' (Function.update f s (f s + 1) s') (ls.filterMap (Line.d? s')).length := by
        intro s'
        by_cases he : s' = s
        · subst he
          simpa using hs
        · have hother := hd s'
          rw [List.filterMap_cons_none (by simp [Line.d?, Ne.symm he])] at hother
          simpa [he] using hother
      have hrest := ih hrestShort hnext' hb hd'
      simp only [List.map_cons, checkLines, splitWords_d]
      simpa [pyInt_decimal hl.1, pyInt_decimal hl.2, hnext] using hrest

def Entry.sent? : Entry → Option (List Nat)
  | .sent g => some g
  | .delivered _ _ => none

def Entry.from? (x : Nat) : Entry → Option (List Nat)
  | .sent _ => none
  | .delivered x' g => if x' = x then some g else none

/-- `groups x` are the batches that main makes of the numbers of process `x`. -/
def GroupsOf (cfg : Config) (groups : Nat → List (List Nat)) : Prop :=
  ∀ x, mainBatches (cfg.m x) = (groups x).map batchOf ∧
    (groups x).flatten = List.range' 1 (cfg.m x) ∧ ∀ g ∈ groups x, g ≠ [] ∧ g.length ≤ groupBy

theorem exists_groups (cfg : Config) : ∃ groups, GroupsOf cfg groups := by
  choose groups h using fun x => mainBatches_groups (cfg.m x)
  exact ⟨groups, h⟩

theorem Origin.batch {cfg : Config} {groups : Nat → List (List Nat)} (hg : GroupsOf cfg groups)
    {past : List Event} {p : Nat} {msg text : Str} (h : Origin cfg past p msg text) :
    ∃ g, (groups p)[(said .broadcast p past).length]? = some g ∧ msg = batchOf g ∧ g ≠ [] ∧
      g.length ≤ groupBy := by
  obtain ⟨hmap, -, hall⟩ := hg p
  have hnext := h.next
  rw [hmap, List.getElem?_map] at hnext
  obtain ⟨g, hi, rfl⟩ := Option.map_eq_some_iff.mp hnext
  obtain ⟨hne, hlen⟩ := hall g (List.mem_of_getElem? hi)
  exact ⟨g, hi, rfl, hne, hlen⟩

/-- What `p` has logged: its own batches and those of every sender, each in order. -/
structure Logged (groups : Nat → List (List Nat)) (tr : List Event) (p : Nat) (es : List Entry) :
    Prop where
  text : logEntries p tr = es.map Entry.text
  fits : ∀ e ∈ es, e.Fits
  sent : es.filterMap Entry.sent? = (groups p).take (said .broadcast p tr).length
  delivered : ∀ x : Nat, es.filterMap (Entry.from? x) =
    (groups x).take (count keyOrigin (said .lcbDeliver p tr) x)

theorem take_succ_of_getElem? {α : Type*} {l : List α} {i : Nat} {a : α} (h : l[i]? = some a) :
    l.take (i + 1) = l.take i ++ [a] := by
  rw [List.take_add_one, h]
  rfl

/-- The number of a delivery is the count of those before it from its sender. -/
theorem lcbDeliver_number {cfg : Config} {tr : List Event} {p : Nat} {k : Str}
    (h : Sound (EventOk cfg) (tr ++ [⟨.lcbDeliver, p, k⟩])) :
    number keyOrigin need k = count keyOrigin (said .lcbDeliver p tr) (keyOrigin k) := by
  have hs : said .lcbDeliver p (tr ++ [⟨.lcbDeliver, p, k⟩]) = said .lcbDeliver p tr ++ [k] := by
    simp
  have hnum := (orderly h p).numbers (known_unique h) (fun _ hx => lcbDeliver_known h hx)
    (keyOrigin k)
  have hold := (orderly h.past p).numbers (known_unique h.past)
    (fun _ hx => lcbDeliver_known h.past hx) (keyOrigin k)
  rw [hs, deliveriesFrom_snoc, count_snoc, if_pos rfl, if_pos rfl, List.map_append, hold,
    List.range_succ] at hnum
  exact List.singleton_inj.mp (List.append_cancel_left hnum)

namespace Logged
variable {cfg : Config} {groups : Nat → List (List Nat)} {tr : List Event} {p : Nat}
  {es : List Entry}

theorem other (hes : Logged groups tr p es) {e : Event} (hl : logEntries p [e] = [])
    (hs : ∀ k, k = .broadcast ∨ k = .lcbDeliver → said k p [e] = []) :
    Logged groups (tr ++ [e]) p es := by
  refine ⟨?_, hes.fits, ?_, fun x => ?_⟩
  · rw [logEntries_append, hl, List.append_nil, hes.text]
  · rw [said_append, hs _ (.inl rfl), List.append_nil, hes.sent]
  · rw [said_append, hs _ (.inr rfl), List.append_nil, hes.delivered]

theorem broadcast (hes : Logged groups tr p es) (hg : GroupsOf cfg groups) {text : Str}
    (ok : EventOk cfg tr ⟨.broadcast, p, text⟩) :
    ∃ g, Logged groups (tr ++ [⟨.broadcast, p, text⟩]) p (es ++ [.sent g]) := by
  obtain ⟨msg, ho⟩ := ok.origin
  obtain ⟨g, hi, rfl, hne, hlen⟩ := ho.batch hg
  refine ⟨g, ?_, ?_, ?_, fun x => ?_⟩
  · rw [logEntries_append, hes.text, List.map_append]
    simp [logEntries, logEntry_broadcast ho, Entry.text]
  · simpa [or_imp, forall_and] using ⟨hes.fits, hne, hlen⟩
  · rw [List.filterMap_append, hes.sent, said_append, List.length_append, said_singleton]
    simp [Entry.sent?, take_succ_of_getElem? hi]
  · rw [List.filterMap_append, hes.delivered]
    simp [Entry.from?]

theorem lcbDeliver (hes : Logged groups tr p es) (hg : GroupsOf cfg groups) {k : Str}
    (h : Sound (EventOk cfg) (tr ++ [⟨.lcbDeliver, p, k⟩])) :
    ∃ x g, Logged groups (tr ++ [⟨.lcbDeliver, p, k⟩]) p (es ++ [.delivered x g]) := by
  obtain ⟨x, text, ht, rfl⟩ :=
    lcbDeliver_known h (mem_said_snoc.mpr (.inr ⟨⟨rfl, rfl⟩, rfl⟩))
  obtain ⟨i, hi'⟩ := List.getElem?_of_mem ht
  obtain ⟨past, rest, msg, -, hpast, ho⟩ := broadcast_at h hi'
  obtain ⟨g, hi, rfl, hne, hlen⟩ := ho.batch hg
  have hcount := lcbDeliver_number h
  rw [number_broadcast h hi', keyOrigin_messageKey ho.fits] at hcount
  rw [hpast, hcount] at hi
  refine ⟨x, g, ?_, ?_, ?_, fun z => ?_⟩
  · rw [logEntries_append, hes.text, List.map_append]
    simp [logEntries, logEntry_lcbDeliver ho, Entry.text]
  · simpa [or_imp, forall_and] using ⟨hes.fits, ho.fits, hne, hlen⟩
  · rw [List.filterMap_append, hes.sent]
    simp [Entry.sent?]
  · rw [List.filterMap_append, hes.delivered, said_append, said_singleton, if_pos ⟨rfl, rfl⟩,
      count_snoc, keyOrigin_messageKey ho.fits]
    by_cases hz : x = z
    · subst hz
      simp [Entry.from?, take_succ_of_getElem? hi]
    · have hz' : ¬ (x : Int) = z := by omega
      simp [Entry.from?, hz, hz']

end Logged

theorem exists_logged {cfg : Config} {groups : Nat → List (List Nat)} (hg : GroupsOf cfg groups)
    {tr : List Event} (h : Sound (EventOk cfg) tr) (p : Nat) : ∃ es, Logged groups tr p es := by
  induction tr using List.reverseRecOn with
  | nil => exact ⟨[], rfl, by simp, by simp, by simp [count]⟩
  | append_singleton tr e ih =>
    obtain ⟨htr, ok⟩ := sound_snoc.mp h
    obtain ⟨es, hes⟩ := ih htr
    obtain ⟨kind, q, text⟩ := e
    by_cases hq : q = p
    · subst hq
      cases kind with
      | beb | handUp | urbDeliver =>
        refine ⟨es, hes.other (by simp [logEntries, logEntry]) ?_⟩
        rintro k (rfl | rfl) <;> simp
      | broadcast =>
        obtain ⟨g, hes'⟩ := hes.broadcast hg ok
        exact ⟨_, hes'⟩
      | lcbDeliver =>
        obtain ⟨x, g, hes'⟩ := hes.lcbDeliver hg h
        exact ⟨_, hes'⟩
    · exact ⟨es, hes.other (by simp [logEntries, hq]) fun k _ => by simp [hq]⟩

theorem entries_nodup {es : List Entry} (hs : (es.filterMap Entry.sent?).Nodup)
    (hd : ∀ x, (es.filterMap (Entry.from? x)).Nodup) : es.Nodup := by
  induction es with
  | nil => exact List.nodup_nil
  | cons e es ih =>
    have hs' : (es.filterMap Entry.sent?).Nodup :=
      hs.sublist (List.Sublist.filterMap _ (List.sublist_cons_self e es))
    have hd' : ∀ x, (es.filterMap (Entry.from? x)).Nodup := fun x =>
      (hd x).sublist (List.Sublist.filterMap _ (List.sublist_cons_self e es))
    refine List.nodup_cons.mpr ⟨fun hin => ?_, ih hs' hd'⟩
    cases e with
    | sent g =>
      rw [List.filterMap_cons_some (show Entry.sent? (.sent g) = some g from rfl)] at hs
      exact (List.nodup_cons.mp hs).1 (List.mem_filterMap.mpr ⟨_, hin, rfl⟩)
    | delivered x g =>
      have hx : Entry.from? x (.delivered x g) = some g := if_pos rfl
      have hdx := hd x
      rw [List.filterMap_cons_some hx] at hdx
      exact (List.nodup_cons.mp hdx).1 (List.mem_filterMap.mpr ⟨_, hin, hx⟩)

/-- No entry of a log is ever dropped as a duplicate. -/
theorem Logged.processLog {cfg : Config} {groups : Nat → List (List Nat)} (hg : GroupsOf cfg groups)
    {tr : List Event} {p : Nat} {es : List Entry} (h : Logged groups tr p es) {q : Process}
    (hq : Reflects cfg tr p q) : q.processLog = es.map Entry.text := by
  have hgroups : ∀ x, (groups x).Nodup := by
    intro x
    obtain ⟨-, hflat, hall⟩ := hg x
    exact nodup_of_flatten (hflat ▸ List.nodup_range') fun g hin => (hall g hin).1
  have hes : es.Nodup := entries_nodup (h.sent ▸ (hgroups p).sublist (List.take_sublist _ _))
    fun x => h.delivered x ▸ (hgroups x).sublist (List.take_sublist _ _)
  have hnodup : (es.map Entry.text).Nodup := hes.map_on fun e he e' he' heq =>
    Entry.text_injective (h.fits e he) (h.fits e' he') heq
  rw [hq.log, h.text, foldl_addMessageLog (by simpa using hnodup), List.nil_append]

theorem lines_b (es : List Entry) :
    (es.flatMap Entry.lines).filterMap Line.b? = (es.filterMap Entry.sent?).flatten := by
  have hb : ∀ g : List Nat, (g.map Line.b).filterMap Line.b? = g := by
    intro g
    induction g with
    | nil => rfl
    | cons n g ih => simp [Line.b?, ih]
  have hd : ∀ (x : Nat) (g : List Nat), (g.map (Line.d x)).filterMap Line.b? = [] := by
    intro x g
    simp [Line.b?]
  induction es with
  | nil => rfl
  | cons e es ih =>
    rw [List.flatMap_cons, List.filterMap_append, ih]
    cases e with
    | sent g =>
      rw [List.filterMap_cons_some (show Entry.sent? (.sent g) = some g from rfl)]
      simp [Entry.lines, hb]
    | delivered x g =>
      rw [List.filterMap_cons_none (show Entry.sent? (.delivered x g) = none from rfl)]
      simp [Entry.lines, hd]

theorem lines_d (es : List Entry) (x : Nat) :
    (es.flatMap Entry.lines).filterMap (Line.d? x) = (es.filterMap (Entry.from? x)).flatten := by
  have hb : ∀ g : List Nat, (g.map Line.b).filterMap (Line.d? x) = [] := by
    intro g
    simp [Line.d?]
  have hd : ∀ (y : Nat) (g : List Nat),
      (g.map (Line.d y)).filterMap (Line.d? x) = if y = x then g else [] := by
    intro y g
    induction g with
    | nil => simp
    | cons n g ih => by_cases hy : y = x <;> simp_all [Line.d?]
  induction es with
  | nil => rfl
  | cons e es ih =>
    rw [List.flatMap_cons, List.filterMap_append, ih]
    cases e with
    | sent g =>
      rw [List.filterMap_cons_none (show Entry.from? x (.sent g) = none from rfl)]
      simp [Entry.lines, hb]
    | delivered y g => by_cases hy : y = x <;> simp [Entry.lines, Entry.from?, hd, hy]

theorem flatten_of_prefix {gs gs' : List (List Nat)} {m : Nat} (h : gs' <+: gs)
    (hflat : gs.flatten = List.range' 1 m) :
    gs'.flatten = List.range' 1 gs'.flatten.length := by
  obtain ⟨rest, rfl⟩ := h
  rw [List.flatten_append] at hflat
  have hle : gs'.flatten.length ≤ m := by
    have hlen := congrArg List.length hflat
    rw [List.length_append, List.length_range'] at hlen
    omega
  have hsplit : List.range' 1 m = List.range' 1 gs'.flatten.length ++
      List.range' (1 + gs'.flatten.length) (m - gs'.flatten.length) := by
    rw [List.range'_append_1, Nat.add_sub_cancel' hle]
  exact (List.append_inj (hflat.trans hsplit) (by simp)).1

theorem short_lines {cfg : Config} {groups : Nat → List (List Nat)} (hg : GroupsOf cfg groups)
    {es : List Entry} (hfits : ∀ e ∈ es, e.Fits) {p : Nat}
    (hsent : es.filterMap Entry.sent? <+: groups p)
    (hdelivered : ∀ x, es.filterMap (Entry.from? x) <+: groups x) :
    ∀ l ∈ es.flatMap Entry.lines, l.Short := by
  have hnumber : ∀ {x : Nat} {gs : List (List Nat)} {g : List Nat} {k : Nat}, gs <+: groups x →
      g ∈ gs → k ∈ g → (decimal k).length ≤ 4300 := by
    intro x gs g k hpre hgs hk
    have hin : k ∈ List.range' 1 (cfg.m x) :=
      (hg x).2.1 ▸ List.mem_flatten.mpr ⟨g, hpre.subset hgs, hk⟩
    have hm := cfg.m_le x
    rw [List.mem_range'_1] at hin
    exact decimal_short (by omega)
  intro l hl
  obtain ⟨e, he, hl⟩ := List.mem_flatMap.mp hl
  cases e with
  | sent g =>
    obtain ⟨k, hk, rfl⟩ := List.mem_map.mp hl
    exact hnumber hsent (List.mem_filterMap.mpr ⟨_, he, rfl⟩) hk
  | delivered x g =>
    obtain ⟨k, hk, rfl⟩ := List.mem_map.mp hl
    have hx : x ≤ 999 := (hfits _ he).1
    exact ⟨decimal_short (by omega),
      hnumber (hdelivered x) (List.mem_filterMap.mpr ⟨_, he, if_pos rfl⟩) hk⟩

/-- Whenever a process is stopped, its output passes the script: its 'b' lines count up from 1,
and so do its 'd' lines for every sender. `log` is what it had logged by then. -/
theorem output_passes (cfg : Config) (s : Sys) (hr : (stack cfg).Reachable s) (p : Nat)
    (log : List Str) (hlog : log <+: (s.proc p).processLog) :
    ∃ ls : List Line, stop log = .ok (ls.flatMap Line.text) ∧
      ls.filterMap Line.b? = List.range' 1 (ls.filterMap Line.b?).length ∧
      (∀ x, ls.filterMap (Line.d? x) = List.range' 1 (ls.filterMap (Line.d? x)).length) ∧
      checkProcess (ls.flatMap Line.text) = some true := by
  have h := stackInv_reachable hr
  obtain ⟨groups, hg⟩ := exists_groups cfg
  obtain ⟨es, hes⟩ := exists_logged hg h.sound p
  rw [hes.processLog hg (h.proc p)] at hlog
  obtain ⟨es', hpre, rfl⟩ := List.prefix_map_iff.mp hlog
  have hsent : es'.filterMap Entry.sent? <+: groups p :=
    (hpre.filterMap _).trans (hes.sent ▸ List.take_prefix _ _)
  have hdelivered : ∀ x, es'.filterMap (Entry.from? x) <+: groups x :=
    fun x => (hpre.filterMap _).trans (hes.delivered x ▸ List.take_prefix _ _)
  have hfits : ∀ e ∈ es', e.Fits := fun e he => hes.fits e (hpre.subset he)
  have hb : (es'.flatMap Entry.lines).filterMap Line.b? =
      List.range' 1 ((es'.flatMap Entry.lines).filterMap Line.b?).length := by
    rw [lines_b]
    exact flatten_of_prefix hsent (hg p).2.1
  have hd : ∀ x, (es'.flatMap Entry.lines).filterMap (Line.d? x) =
      List.range' 1 ((es'.flatMap Entry.lines).filterMap (Line.d? x)).length := by
    intro x
    rw [lines_d]
    exact flatten_of_prefix (hdelivered x) (hg x).2.1
  refine ⟨es'.flatMap Entry.lines, stop_text hfits, hb, hd, ?_⟩
  rw [checkProcess, fileLines_text]
  exact checkLines_text (f := fun _ => 1) (short_lines hg hfits hsent hdelivered) (fun _ => rfl)
    hb hd

theorem output_passes_trio :
    (stop (((stack trio).after trioDelivered).proc 2).processLog).toOption =
      some ['d', ' ', '1', ' ', '1', '\n', 'b', ' ', '1', '\n'] ∧
    ∃ ls : List Line,
      stop (((stack trio).after trioDelivered).proc 2).processLog = .ok (ls.flatMap Line.text) ∧
      ls.filterMap Line.b? = List.range' 1 (ls.filterMap Line.b?).length ∧
      (∀ x, ls.filterMap (Line.d? x) = List.range' 1 (ls.filterMap (Line.d? x)).length) ∧
      checkProcess (ls.flatMap Line.text) = some true :=
  ⟨by decide, output_passes trio _ (Machine.reachable_after _ trioDelivered) 2 _ List.prefix_rfl⟩

end DecentralizedBroadcast
