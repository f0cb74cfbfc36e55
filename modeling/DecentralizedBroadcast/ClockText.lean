import DecentralizedBroadcast.CausalBroadcast

/-! Clocks as text: what `broadcastMessage` appends is what `constructVC` reads back. -/
set_option autoImplicit false

namespace DecentralizedBroadcast

def clockText (es : List (Int × Int)) : Str :=
  es.flatMap fun e => 'v' :: (format03d e.1 ++ intToString e.2)

/-- An id that `%03d` prints in the three characters `constructVC` reads. -/
def FitsId (d : Int) : Prop := (format03d d).length < 4

/-- An entry that a clock can carry: its count is a non-negative `int`. -/
def EntryFits (e : Int × Int) : Prop := FitsId e.1 ∧ 0 ≤ e.2 ∧ e.2 ≤ intMax

@[simp] theorem clockText_nil : clockText [] = [] := rfl

@[simp] theorem clockText_cons (e : Int × Int) (es : List (Int × Int)) :
    clockText (e :: es) = 'v' :: (format03d e.1 ++ (intToString e.2 ++ clockText es)) := by
  simp [clockText]

theorem clockText_append (es es' : List (Int × Int)) :
    clockText (es ++ es') = clockText es ++ clockText es' := by
  simp [clockText]

theorem fitsId_pad3 {p : Nat} (h : p ≤ 999) : FitsId p := by
  have : (format03d p).length = 3 := pad3_length h
  simp only [FitsId]
  omega

theorem fitsId_int {d : Int} (h0 : 0 ≤ d) (h : d ≤ 999) : FitsId d := by
  obtain ⟨n, rfl⟩ := Int.eq_ofNat_of_zero_le h0
  exact fitsId_pad3 (by omega)

theorem minus_chars {s : Str} (h : ∀ c ∈ s, c.isDigit = true) :
    ∀ c ∈ '-' :: s, c.isDigit = true ∨ c = '-' := by
  intro c hc
  rcases List.mem_cons.mp hc with rfl | hc
  · exact .inr rfl
  · exact .inl (h c hc)

theorem format03d_chars (d : Int) : ∀ c ∈ format03d d, c.isDigit = true ∨ c = '-' := by
  cases d with
  | ofNat n => exact fun c hc => .inl (pad3_digits hc)
  | negSucc n => exact minus_chars (zeroPad_digits fun _ => decimal_digits)

theorem intToString_chars (d : Int) : ∀ c ∈ intToString d, c.isDigit = true ∨ c = '-' := by
  cases d with
  | ofNat n => exact fun c hc => .inl (decimal_digits hc)
  | negSucc n => exact minus_chars fun _ => decimal_digits

theorem clockText_chars (es : List (Int × Int)) :
    ∀ c ∈ clockText es, c.isDigit = true ∨ c = '-' ∨ c = 'v' := by
  intro c hc
  obtain ⟨e, -, hc⟩ := List.mem_flatMap.mp hc
  rcases List.mem_cons.mp hc with rfl | hc
  · exact .inr (.inr rfl)
  · rcases List.mem_append.mp hc with hc | hc
    · exact (format03d_chars e.1 c hc).imp_right .inl
    · exact (intToString_chars e.2 c hc).imp_right .inl

theorem notMem_of_digits {s : Str} {c : Char} (h : ∀ x ∈ s, x.isDigit = true ∨ x = '-')
    (hc : c.isDigit = false) (hm : c ≠ '-') : c ∉ s := by
  intro hin
  rcases h c hin with hd | rfl
  · rw [hc] at hd
    cases hd
  · exact hm rfl

theorem FitsId.length {d : Int} (h : FitsId d) : (format03d d).length = 3 := by
  unfold FitsId at h
  cases d with
  | ofNat n =>
    have hle := three_le_pad3_length n
    change (pad3 n).length < 4 at h
    change (pad3 n).length = 3
    omega
  | negSucc n =>
    simp only [format03d, List.length_cons, zeroPad_length] at h ⊢
    omega

theorem stoi_format03d {d : Int} (h : FitsId d) : stoi (format03d d) = .ok d := by
  cases d with
  | ofNat n =>
    refine stoi_pad3 ?_
    have h : (pad3 n).length < 4 := h
    rw [pad3_eq, zeroPad_length] at h
    have := lt_of_decimal_length (n := n) (k := 3) (by decide) (by omega)
    omega
  | negSucc n =>
    have h : (zeroPad 2 (decimal (n + 1))).length < 3 := by
      simpa only [FitsId, format03d, List.length_cons, Nat.succ_lt_succ_iff] using h
    rw [zeroPad_length] at h
    have hn := lt_of_decimal_length (n := n + 1) (k := 2) (by decide) (by omega)
    have hv := ofDigitChars_zeroPad 2 (n + 1)
    have hne := zeroPad_ne_nil (w := 2) (decimal_ne_nil (n + 1))
    have hd : ∀ c ∈ zeroPad 2 (decimal (n + 1)), c.isDigit = true :=
      zeroPad_digits fun _ => decimal_digits
    simp only [format03d]
    generalize zeroPad 2 (decimal (n + 1)) = ds at hv hne hd
    have htake : ds.takeWhile Char.isDigit = ds := List.takeWhile_eq_self_iff.mpr hd
    have hscan : scanNumber ('-' :: ds) = some (Int.negSucc n) := by
      simp only [scanNumber, List.dropWhile_cons, show isspace '-' = false from rfl,
        Bool.false_eq_true, if_false, splitSign, htake, hne, hv, if_true]
      rfl
    have hr : -intMax - 1 ≤ Int.negSucc n ∧ Int.negSucc n ≤ intMax := by
      simp only [intMax]
      omega
    simp only [stoi, hscan, hr, and_self, if_true]

theorem stoi_intToString {n : Int} (h0 : 0 ≤ n) (hn : n ≤ intMax) :
    stoi (intToString n) = .ok n := by
  obtain ⟨k, rfl⟩ := Int.eq_ofNat_of_zero_le h0
  exact stoi_digits_only (decimal_ne_nil k) (fun _ => decimal_digits) Nat.ofDigitChars_ten_toDigits
    (by simp only [intMax] at hn; omega)

theorem find_clockText {s : Str} (h : 'v' ∉ s) (es : List (Int × Int)) :
    find (s ++ clockText es) 'v' 0 = if es = [] then none else some s.length := by
  cases es with
  | nil => simpa using find_zero_of_notMem h
  | cons e es => simpa using find_zero_marker h

/-- The loop, started at the first marker of a clock behind any text. -/
theorem constructVCLoop_clockText (es : List (Int × Int)) (h : ∀ e ∈ es, EntryFits e)
    (front : Str) (fuel : Nat) (hf : es.length ≤ fuel) (w : VectorClock) :
    Lcb.constructVCLoop (front ++ clockText es) fuel
      (if es = [] then none else some front.length) w =
    .ok (es.foldl (fun m e => m.insert e.1 e.2) w) := by
  induction es generalizing front fuel w with
  | nil => cases fuel <;> rfl
  | cons e es ih =>
    obtain ⟨fuel, rfl⟩ : ∃ k, fuel = k + 1 := ⟨fuel - 1, by simp at hf; omega⟩
    obtain ⟨hid, h0, hmax⟩ := h e (by simp)
    set num := intToString e.2 with hnum
    have hv : 'v' ∉ num := notMem_of_digits (intToString_chars _) rfl (by decide)
    have hlen := hid.length
    have hshape : front ++ clockText (e :: es) =
        (front ++ 'v' :: (format03d e.1 ++ num)) ++ clockText es := by simp [hnum]
    have hidtext : substr (front ++ clockText (e :: es)) (front.length + 1) 3 =
        .ok (format03d e.1) := by
      have hpos : front.length + 1 = (front ++ ['v']).length := by simp
      have := @substr_mid (front ++ ['v']) (format03d e.1) (num ++ clockText es) _ _ hpos hlen.symm
      simpa [hnum] using this
    have hsplit : front ++ clockText (e :: es) =
        (front ++ 'v' :: format03d e.1) ++ (num ++ clockText es) := by simp [hnum]
    have hpos : front.length + 4 = (front ++ 'v' :: format03d e.1).length := by simp [hlen]
    have hnext : find (front ++ clockText (e :: es)) 'v' (front.length + 4) =
        if es = [] then none else some (front ++ 'v' :: (format03d e.1 ++ num)).length := by
      rw [hsplit, find_append hpos, find_clockText hv]
      split
      · rfl
      · simp [hlen]
        omega
    have hsn : Lcb.snText (front ++ clockText (e :: es)) front.length
        (if es = [] then none else some (front ++ 'v' :: (format03d e.1 ++ num)).length) =
        .ok num := by
      by_cases hes : es = []
      · subst hes
        rw [hsplit, clockText_nil, List.append_nil, if_pos rfl]
        exact substr_tail hpos (by simp; omega)
      · rw [hsplit, if_neg hes]
        exact substr_mid hpos (by simp [hlen]; omega)
    simp only [Lcb.constructVCLoop, List.cons_ne_nil, if_false, hidtext, hnext, hsn,
      List.foldl_cons]
    have hrest := ih (fun x hx => h x (by simp [hx])) (front ++ 'v' :: (format03d e.1 ++ num)) fuel
      (by simpa using hf) (w.insert e.1 e.2)
    rw [← hshape] at hrest
    simp only [bind, Except.bind, stoi_format03d hid, hnum, stoi_intToString h0 hmax]
    exact hrest

theorem length_le_clockText (es : List (Int × Int)) : es.length ≤ (clockText es).length := by
  induction es with
  | nil => simp
  | cons e es ih => simp; omega

theorem constructVC_clockText {es : List (Int × Int)} (h : ∀ e ∈ es, EntryFits e) :
    Lcb.constructVC (clockText es) = .ok (OrderedMap.ofEntries es) := by
  have hloop := constructVCLoop_clockText es h [] _ (length_le_clockText es) .empty
  have hfind := find_clockText (s := []) (by simp) es
  simp only [List.nil_append] at hloop hfind
  rw [Lcb.constructVC, hfind]
  exact hloop

theorem vcString_clockText {msg : Str} (h : 'v' ∉ msg) {es : List (Int × Int)} (hes : es ≠ []) :
    Lcb.vcString (msg ++ clockText es) = .ok (clockText es) := by
  rw [Lcb.vcString, find_clockText h, if_neg hes]
  exact substr_tail rfl (by simp)

/-- What `deliver` reads from a message that carries a clock. -/
theorem readClock_clockText {msg : Str} (h : 'v' ∉ msg) {es : List (Int × Int)} (hes : es ≠ [])
    (fits : ∀ e ∈ es, EntryFits e) :
    (Lcb.vcString (msg ++ clockText es) >>= Lcb.constructVC) = .ok (OrderedMap.ofEntries es) :=
  bind_eq_ok.mpr ⟨_, vcString_clockText h hes, constructVC_clockText fits⟩

/-- Of a message with its clock only what comes before the first marker is logged. -/
theorem withoutClock_clockText (batch : Str) {es : List (Int × Int)} (hes : es ≠ []) :
    Lcb.withoutClock (batch ++ clockText es) = Lcb.withoutClock batch := by
  induction batch with
  | nil =>
    obtain ⟨e, es, rfl⟩ := List.exists_cons_of_ne_nil hes
    simp [Lcb.withoutClock]
  | cons c batch ih =>
    simp only [Lcb.withoutClock, List.cons_append, List.takeWhile_cons] at ih ⊢
    rw [ih]

theorem withoutClock_append {msg : Str} (h : 'v' ∉ msg) {es : List (Int × Int)} (hes : es ≠ []) :
    Lcb.withoutClock (msg ++ clockText es) = msg := by
  rw [withoutClock_clockText msg hes]
  exact takeWhile_ne_self h

theorem clockEntry_eq {id : Int} (h : FitsId id) (count : Int) :
    Lcb.clockEntry id count = .ok (clockText [(id, count)]) := by
  have hs : sprintf03d id = .ok (format03d id) := if_pos h
  rw [Lcb.clockEntry, hs, clockText_cons, clockText_nil, List.append_nil]
  rfl

theorem dependencyClock_eq (vc : Int → Int) {ds : List Int} (h : ∀ d ∈ ds, FitsId d) :
    Lcb.dependencyClock vc ds = .ok (clockText (ds.map fun d => (d, vc d))) := by
  induction ds with
  | nil => rfl
  | cons d ds ih =>
    rw [Lcb.dependencyClock, clockEntry_eq (h d (by simp)), ih fun x hx => h x (by simp [hx])]
    simp [bind, Except.bind, pure, Except.pure]

theorem clockEntry_ok {id count : Int} {s : Str} (h : Lcb.clockEntry id count = .ok s) :
    FitsId id ∧ s = clockText [(id, count)] := by
  simp only [Lcb.clockEntry, bind_eq_ok] at h
  obtain ⟨t, ht, h⟩ := h
  obtain ⟨rfl, hl⟩ := sprintf03d_ok ht
  obtain rfl := Except.ok.inj h
  exact ⟨hl, by simp⟩

theorem dependencyClock_ok {vc : Int → Int} {ds : List Int} {s : Str}
    (h : Lcb.dependencyClock vc ds = .ok s) :
    (∀ d ∈ ds, FitsId d) ∧ s = clockText (ds.map fun d => (d, vc d)) := by
  induction ds generalizing s with
  | nil => exact ⟨by simp, (Except.ok.inj h).symm⟩
  | cons d ds ih =>
    simp only [Lcb.dependencyClock, bind_eq_ok] at h
    obtain ⟨t, ht, w, hw, h⟩ := h
    obtain ⟨hd, rfl⟩ := clockEntry_ok ht
    obtain ⟨hds, rfl⟩ := ih hw
    obtain rfl := Except.ok.inj h
    exact ⟨by simpa using ⟨hd, hds⟩, by simp⟩

/-- The clock of a broadcast: a count for each dependency, then the process's own number. -/
def clockEntries (vc : Int → Int) (dependencies : List Int) (rank lsn : Nat) : List (Int × Int) :=
  dependencies.map (fun d => (d, vc d)) ++ [((rank : Int), (lsn : Int))]

theorem clockEntries_ne_nil (vc : Int → Int) (ds : List Int) (rank lsn : Nat) :
    clockEntries vc ds rank lsn ≠ [] := by
  simp [clockEntries]

theorem find?_clockEntries (vc : Int → Int) (ds : List Int) (rank lsn : Nat) (z : Int) :
    (OrderedMap.ofEntries (clockEntries vc ds rank lsn)).find? z =
      if z = rank then some (lsn : Int) else if z ∈ ds then some (vc z) else none := by
  rw [clockEntries, OrderedMap.ofEntries_snoc, OrderedMap.find?_insert,
    OrderedMap.find?_ofEntries_map]

theorem broadcastMessage_eq {rank : Nat} (hr : rank ≤ 999) {ds : List Int}
    (h : ∀ d ∈ ds, FitsId d) (l : Lcb) (msg : Str) : l.broadcastMessage rank ds msg =
      .ok ({ l with lsn := l.lsn + 1 }, msg ++ clockText (clockEntries l.vc ds rank l.lsn)) := by
  rw [Lcb.broadcastMessage, dependencyClock_eq l.vc h, clockEntry_eq (fitsId_pad3 hr)]
  simp [bind, Except.bind, pure, Except.pure, clockEntries, clockText_append]

theorem broadcastMessage_ok {rank : Nat} {ds : List Int} {l l' : Lcb} {msg text : Str}
    (h : l.broadcastMessage rank ds msg = .ok (l', text)) :
    l' = { l with lsn := l.lsn + 1 } ∧ rank ≤ 999 ∧ (∀ d ∈ ds, FitsId d) ∧
      text = msg ++ clockText (clockEntries l.vc ds rank l.lsn) := by
  simp only [Lcb.broadcastMessage, bind_eq_ok] at h
  obtain ⟨w, hw, own, hown, h⟩ := h
  obtain ⟨rfl, rfl⟩ := Prod.mk.inj (Except.ok.inj h)
  obtain ⟨hds, rfl⟩ := dependencyClock_ok hw
  simp only [Lcb.clockEntry, bind_eq_ok] at hown
  obtain ⟨t, ht, hown⟩ := hown
  obtain ⟨rfl, hrank⟩ := sprintf03d_nat_ok ht
  obtain rfl := Except.ok.inj hown
  exact ⟨rfl, hrank, hds, by simp [clockEntries, clockText_append]⟩

end DecentralizedBroadcast
