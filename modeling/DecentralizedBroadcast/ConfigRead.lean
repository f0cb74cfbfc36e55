import DecentralizedBroadcast.ConfigFile
import Mathlib.Data.List.Forall2

/-! Which config files are read as they are meant. The fields of a line are what stands between
single blanks; any other white space goes with the number beside it, which `stoi` lets pass but
the comparison with the id does not. -/
set_option autoImplicit false

namespace DecentralizedBroadcast

abbrev Numbers (fields : List Str) (ns : List Int) : Prop :=
  List.Forall₂ (fun field n => stoi field = .ok n) fields ns

theorem pushIds_eq_ok {fields : List Str} {ids out : List Int} :
    pushIds fields ids = .ok out ↔ ∃ ns, Numbers fields ns ∧ out = ids ++ ns := by
  induction fields generalizing ids with
  | nil =>
    constructor
    · intro h
      exact ⟨[], .nil, by rw [List.append_nil]; exact (Except.ok.inj h).symm⟩
    · rintro ⟨ns, hns, rfl⟩
      cases hns
      rw [List.append_nil]
      rfl
  | cons field fields ih =>
    simp only [pushIds, bind_eq_ok, ih]
    constructor
    · rintro ⟨n, hn, ns, hns, rfl⟩
      exact ⟨n :: ns, .cons hn hns, by simp⟩
    · rintro ⟨ns, hns, rfl⟩
      cases hns with
      | cons hn hns => exact ⟨_, hn, _, hns, by simp⟩

def Blank (s : Str) : Prop := ∀ c ∈ s, isspace c = true

theorem stoi_blank {s : Str} (h : Blank s) (i : Int) : stoi s ≠ .ok i := by
  have hscan : scanNumber s = none := by
    rw [scanNumber, List.dropWhile_eq_nil_iff.mpr h]
    rfl
  rw [stoi, hscan]
  intro he
  cases he

theorem stoi_field {a b : Str} (ha : Blank a) (hb : Blank b) (n : Numeral) {i : Int} :
    stoi (a ++ (n.digits ++ b)) = .ok i ↔ i = n.value ∧ n.value ≤ 2147483647 := by
  have hend : ∀ c ∈ b.head?, c.isDigit = false := by
    intro c hc
    by_contra hd
    have := hb c (List.mem_of_mem_head? hc)
    rw [isspace_of_isDigit (by simpa using hd)] at this
    cases this
  have hscan : scanNumber (a ++ (n.digits ++ b)) = some (n.value : Int) := by
    have hskip : (a ++ (n.digits ++ b)).dropWhile isspace = (n.digits ++ b).dropWhile isspace :=
      List.dropWhile_append_of_pos ha
    have hdigits : scanNumber (n.digits ++ b) = some (n.value : Int) :=
      scanNumber_digits n.ne_nil n.isDigit hend
    rw [← hdigits, scanNumber, hskip]
    rfl
  rw [stoi, hscan]
  dsimp only
  split
  · rename_i hfits
    unfold intMax at hfits
    rw [Except.ok.injEq]
    constructor
    · rintro rfl
      exact ⟨rfl, by omega⟩
    · exact fun h => h.1.symm
  · rename_i hfits
    unfold intMax at hfits
    constructor
    · intro h
      cases h
    · rintro ⟨-, hle⟩
      omega

def NoneBlank (fields : List Str) : Prop := ∀ field ∈ fields, ¬ Blank field

theorem Numbers.noneBlank {fields : List Str} {ns : List Int} (h : Numbers fields ns) :
    NoneBlank fields := by
  induction h with
  | nil => exact fun field hin => absurd hin List.not_mem_nil
  | cons hn _ ih =>
    intro field hin hblank
    rcases List.mem_cons.mp hin with rfl | hin
    · exact stoi_blank hblank _ hn
    · exact ih field hin hblank

theorem Blank.left {a b : Str} (h : Blank (a ++ b)) : Blank a :=
  fun c hc => h c (List.mem_append_left _ hc)

theorem Blank.right {a b : Str} (h : Blank (a ++ b)) : Blank b :=
  fun c hc => h c (List.mem_append_right _ hc)

theorem Blank.tail {c : Char} {a : Str} (h : Blank (c :: a)) : Blank a :=
  fun d hd => h d (List.mem_cons_of_mem c hd)

/-- A blank in front of a number, or a second one between two, leaves a field without a number. -/
theorem notMem_of_noneBlank {a s : Str} (ha : Blank a) (h : NoneBlank (getlines ' ' (a ++ s))) :
    ' ' ∉ a := by
  intro hin
  obtain ⟨x, y, rfl, hx⟩ := List.eq_append_cons_of_mem hin
  rw [List.append_assoc, List.cons_append, getlines_append hx] at h
  exact h x (by simp) ha.left

theorem eq_nil_of_noneBlank {a : Str} (ha : Blank a) (h : NoneBlank (getlines ' ' a)) : a = [] := by
  have hnot : ' ' ∉ a := notMem_of_noneBlank (s := []) ha (by rwa [List.append_nil])
  by_contra hne
  rw [getlines_last hnot hne] at h
  exact h a (by simp) ha

theorem notMem_word {a b : Str} (ha : ' ' ∉ a) (n : Numeral) (hb : ' ' ∉ b) :
    ' ' ∉ a ++ (n.digits ++ b) := by
  simp only [List.mem_append, not_or]
  exact ⟨ha, n.notMem_space rfl, hb⟩

theorem getlines_word {a b : Str} (ha : ' ' ∉ a) (n : Numeral) (hb : ' ' ∉ b) (rest : Str) :
    getlines ' ' (a ++ (n.digits ++ (b ++ ' ' :: rest))) =
      (a ++ (n.digits ++ b)) :: getlines ' ' rest := by
  have hsplit : a ++ (n.digits ++ (b ++ ' ' :: rest)) =
      (a ++ (n.digits ++ b)) ++ ' ' :: rest := by simp
  rw [hsplit, getlines_append (notMem_word ha n hb)]

theorem getlines_lastWord {a b : Str} (ha : ' ' ∉ a) (n : Numeral) (hb : ' ' ∉ b) :
    getlines ' ' (a ++ (n.digits ++ b)) = [a ++ (n.digits ++ b)] :=
  getlines_last (notMem_word ha n hb) (by simp [n.ne_nil])

theorem fields_length_le (trailing : Gap) {rest : List (Gap × Numeral)} {a : Str} (ha : ' ' ∉ a)
    (n : Numeral)
    (h : NoneBlank (getlines ' ' (a ++ (n.digits ++ restText trailing.text rest)))) :
    (getlines ' ' (a ++ (n.digits ++ restText trailing.text rest))).length ≤ rest.length + 1 := by
  induction rest generalizing a n with
  | nil =>
    rw [restText] at h ⊢
    by_cases htrail : ' ' ∈ trailing.text
    · obtain ⟨x, y, hxy, hx⟩ := List.eq_append_cons_of_mem htrail
      have hblank : Blank y := (Blank.right (hxy ▸ trailing.blank)).tail
      rw [hxy, getlines_word ha n hx] at h ⊢
      have hy := eq_nil_of_noneBlank hblank fun f hf => h f (by simp [hf])
      simp [hy]
    · rw [getlines_lastWord ha n htrail]
      simp
  | cons x rest ih =>
    obtain ⟨g, n'⟩ := x
    rw [restText] at h ⊢
    by_cases hgap : ' ' ∈ g.text
    · obtain ⟨x, y, hxy, hx⟩ := List.eq_append_cons_of_mem hgap
      have hblank : Blank y := (Blank.right (hxy ▸ g.blank)).tail
      rw [hxy, List.append_assoc, List.cons_append, getlines_word ha n hx] at h ⊢
      have hrest : NoneBlank (getlines ' ' (y ++ (n'.digits ++ restText trailing.text rest))) :=
        fun f hf => h f (by simp [hf])
      have := ih (notMem_of_noneBlank hblank hrest) n' hrest
      simpa using this
    · have hword : a ++ (n.digits ++ (g.text ++ (n'.digits ++ restText trailing.text rest))) =
          (a ++ (n.digits ++ g.text)) ++ (n'.digits ++ restText trailing.text rest) := by simp
      rw [hword] at h ⊢
      have := ih (notMem_word ha n hgap) n' h
      rw [List.length_cons]
      omega

/-- The fields of a list of numbers are these numbers, exactly if each gap between two of them has
one blank, there is none in front, and behind them at most one, at the end. -/
theorem numbers_iff (trailing : Gap) {rest : List (Gap × Numeral)} {a : Str} (ha : Blank a)
    (n : Numeral) :
    Numbers (getlines ' ' (a ++ (n.digits ++ restText trailing.text rest)))
        ((n.value : Int) :: rest.map fun x => (x.2.value : Int)) ↔
      ' ' ∉ a ∧ n.value ≤ 2147483647 ∧
        (∀ x ∈ rest, x.1.text.count ' ' = 1 ∧ x.2.value ≤ 2147483647) ∧
        ' ' ∉ trailing.text.dropLast := by
  by_cases hfront : ' ' ∈ a
  · exact ⟨fun h => absurd hfront (notMem_of_noneBlank ha h.noneBlank),
      fun h => absurd hfront h.1⟩
  induction rest generalizing a n with
  | nil =>
    rw [restText, List.map_nil]
    by_cases htrail : ' ' ∈ trailing.text
    · obtain ⟨x, y, hxy, hx⟩ := List.eq_append_cons_of_mem htrail
      have hblank : Blank x := Blank.left (hxy ▸ trailing.blank)
      have hlast : ' ' ∉ trailing.text.dropLast ↔ y = [] := by
        rw [hxy]
        cases y with
        | nil => simpa using hx
        | cons c y => simp [List.dropLast_append_of_ne_nil]
      rw [hlast, hxy, getlines_word hfront n hx, Numbers, List.forall₂_cons,
        List.forall₂_nil_right_iff, getlines_eq_nil, stoi_field ha hblank]
      simp [hfront]
    · have hlast : ' ' ∉ trailing.text.dropLast := fun h => htrail (List.dropLast_subset _ h)
      rw [getlines_lastWord hfront n htrail, Numbers, List.forall₂_cons,
        stoi_field ha trailing.blank]
      simp [hfront, hlast]
  | cons x rest ih =>
    obtain ⟨g, n'⟩ := x
    rw [restText, List.map_cons]
    by_cases hgap : ' ' ∈ g.text
    · obtain ⟨x, y, hxy, hx⟩ := List.eq_append_cons_of_mem hgap
      have hblank := g.blank
      rw [hxy] at hblank
      have hy : Blank y := (Blank.right hblank).tail
      have hone : g.text.count ' ' = 1 ↔ ' ' ∉ y := by
        rw [hxy, List.count_append, List.count_cons_self, List.count_eq_zero.mpr hx,
          ← List.count_eq_zero]
        omega
      rw [List.forall_mem_cons, hone, hxy, List.append_assoc, List.cons_append,
        getlines_word hfront n hx, Numbers, List.forall₂_cons, stoi_field ha (Blank.left hblank)]
      by_cases hsecond : ' ' ∈ y
      · have hnot : ¬ Numbers (getlines ' ' (y ++ (n'.digits ++ restText trailing.text rest)))
            ((n'.value : Int) :: rest.map fun x => (x.2.value : Int)) :=
          fun h => notMem_of_noneBlank hy h.noneBlank hsecond
        simp [hnot, hsecond]
      · refine (and_congr_right fun _ => ih hy n' hsecond).trans ?_
        tauto
    -- one field for two numbers: there are too few of them
    · constructor
      · intro h
        have hword : a ++ (n.digits ++ (g.text ++ (n'.digits ++ restText trailing.text rest))) =
            (a ++ (n.digits ++ g.text)) ++ (n'.digits ++ restText trailing.text rest) := by simp
        have hlen := h.length_eq
        have hnone := h.noneBlank
        rw [hword] at hlen hnone
        have := fields_length_le trailing (notMem_word hfront n hgap) n' hnone
        simp only [List.length_cons, List.length_map] at hlen
        omega
      · rintro ⟨-, -, hall, -⟩
        have hone := (hall (g, n') (by simp)).1
        rw [List.count_eq_zero.mpr hgap] at hone
        cases hone

namespace NumberLine

/-- The line starts with its id as `to_string` writes it, and a blank or nothing comes next. -/
def Found (l : NumberLine) : Prop :=
  l.leading.text = [] ∧ l.first.digits = decimal l.first.value ∧
    ∀ c ∈ (restText l.trailing.text l.rest).head?, c = ' '

/-- With ids on the line it must be found, with one blank in every gap; with none it may as well
be overlooked. -/
def Readable (l : NumberLine) : Prop :=
  if l.rest = [] then l.Found → l.trailing.text.length ≤ 1
  else l.Found ∧ (∀ x ∈ l.rest, x.1.text.count ' ' = 1 ∧ x.2.value ≤ 2147483647) ∧
    ' ' ∉ l.trailing.text.dropLast

theorem restText_head (l : NumberLine) :
    ∀ c ∈ (restText l.trailing.text l.rest).head?, isspace c = true := by
  intro c hc
  cases hrest : l.rest with
  | nil =>
    rw [hrest] at hc
    exact l.trailing.blank c (List.mem_of_mem_head? hc)
  | cons x rest =>
    have hne := l.separated x (by simp [hrest])
    obtain ⟨d, text, hd⟩ := List.exists_cons_of_ne_nil hne
    rw [hrest, restText, hd] at hc
    obtain rfl := Option.some.inj hc
    exact x.1.blank _ (by simp [hd])

theorem value_of_digits {l : NumberLine} {i : Nat} (h : l.first.digits = decimal i) :
    l.first.value = i := by
  rw [Numeral.value, h, decimal, Nat.ofDigitChars_ten_toDigits]

/-- The first field is the number `i` only on the line of process `i`. -/
theorem field_iff (l : NumberLine) (i : Nat) :
    decimal i = l.text.takeWhile (· ≠ ' ') ↔ l.first.value = i ∧ l.Found := by
  have hdigit : ∀ c ∈ decimal i, isspace c = false :=
    fun c hc => isspace_of_isDigit (decimal_digits hc)
  have hspelled : decimal i = l.first.digits ↔
      l.first.value = i ∧ l.first.digits = decimal l.first.value := by
    constructor
    · intro h
      have hv := value_of_digits h.symm
      exact ⟨hv, by rw [hv, h]⟩
    · rintro ⟨rfl, h⟩
      exact h.symm
  rw [text, Found]
  cases hlead : l.leading.text with
  | cons c lead =>
    have hc := l.leading.blank c (by simp [hlead])
    refine ⟨fun h => ?_, fun h => absurd h.2.1 (List.cons_ne_nil _ _)⟩
    rw [List.cons_append, List.takeWhile_cons] at h
    split at h
    · have := hdigit c (by simp [h])
      rw [hc] at this
      cases this
    · exact absurd h (decimal_ne_nil i)
  | nil =>
    rw [List.nil_append, takeWhile_ne_append (l.first.notMem_space rfl)]
    have hhead := l.restText_head
    cases hrest : restText l.trailing.text l.rest with
    | nil =>
      rw [List.takeWhile_nil, List.append_nil, hspelled]
      simp
    | cons c rest =>
      rw [hrest] at hhead
      by_cases hc : c = ' '
      · subst hc
        rw [List.takeWhile_cons_of_neg (by simp), List.append_nil, hspelled]
        simp
      · refine ⟨fun h => ?_, fun h => absurd (h.2.2.2 c rfl) hc⟩
        rw [List.takeWhile_cons_of_pos (by simpa using hc)] at h
        have := hdigit c (by simp [h])
        rw [hhead c rfl] at this
        cases this

/-- Of a line that is found, the fields after the first are those behind the blank. -/
theorem Found.fields {l : NumberLine} (h : l.Found) : (getlines ' ' l.text).tail =
    getlines ' ' (restText l.trailing.text l.rest).tail := by
  obtain ⟨hlead, -, hhead⟩ := h
  have hnum : ' ' ∉ l.first.digits := l.first.notMem_space rfl
  rw [text, hlead, List.nil_append]
  cases hrest : restText l.trailing.text l.rest with
  | nil =>
    rw [List.append_nil, getlines_last hnum l.first.ne_nil]
    rfl
  | cons c rest =>
    rw [hrest] at hhead
    obtain rfl := hhead c rfl
    rw [getlines_append hnum]
    rfl

theorem readIds_found {l : NumberLine} (h : l.Found) :
    readIds l.first.value [l.text] [] = .ok l.listed ↔ l.Readable := by
  have hfield := (l.field_iff l.first.value).mpr ⟨rfl, h⟩
  have hread : readIds l.first.value [l.text] [] =
      pushIds (getlines ' ' (restText l.trailing.text l.rest).tail) [] := by
    rw [readIds, getlines_headD, if_pos hfield, h.fields]
    cases pushIds (getlines ' ' (restText l.trailing.text l.rest).tail) [] <;> rfl
  have hnumbers : readIds l.first.value [l.text] [] = .ok l.listed ↔
      Numbers (getlines ' ' (restText l.trailing.text l.rest).tail) l.listed := by
    rw [hread, pushIds_eq_ok]
    simp
  rw [hnumbers, Readable, listed]
  have hhead := h.2.2
  cases hrest : l.rest with
  | nil =>
    rw [if_pos rfl, restText, List.map_nil, Numbers, List.forall₂_nil_right_iff, getlines_eq_nil,
      ← List.length_eq_zero_iff, List.length_tail]
    exact ⟨fun h _ => by omega, fun hle => by have := hle h; omega⟩
  | cons x rest =>
    obtain ⟨g, n⟩ := x
    obtain ⟨c, a, hg⟩ := List.exists_cons_of_ne_nil (l.separated (g, n) (by simp [hrest]))
    dsimp only at hg
    rw [hrest, restText, hg] at hhead
    obtain rfl := hhead c rfl
    have hblank : Blank a := Blank.tail (hg ▸ g.blank)
    have hone : g.text.count ' ' = 1 ↔ ' ' ∉ a := by
      rw [hg, List.count_cons_self, ← List.count_eq_zero]
      omega
    rw [if_neg (by simp), restText, hg, List.cons_append, List.tail_cons, List.map_cons,
      numbers_iff l.trailing hblank n, List.forall_mem_cons, hone]
    tauto

/-- A line that is not found gives no ids. -/
theorem readIds_line (l : NumberLine) :
    readIds l.first.value [l.text] [] = .ok l.listed ↔ l.Readable := by
  by_cases h : l.Found
  · exact readIds_found h
  · have hfield := mt (l.field_iff l.first.value).mp fun hf => h hf.2
    have hread : readIds l.first.value [l.text] [] = .ok [] := by
      rw [readIds, getlines_headD, if_neg hfield]
      rfl
    rw [hread, Except.ok.injEq, Readable, listed]
    cases l.rest <;> simp [h]

end NumberLine

theorem readIds_append {myId : Nat} (front back : List Str) (ids : List Int) :
    readIds myId (front ++ back) ids = readIds myId front ids >>= readIds myId back := by
  induction front generalizing ids with
  | nil => rfl
  | cons line front ih =>
    rw [List.cons_append, readIds, readIds]
    split
    · simp only [bind, Except.bind] at ih ⊢
      cases pushIds (getlines ' ' line).tail ids with
      | error e => rfl
      | ok ids => exact ih ids
    · exact ih ids

theorem readIds_others {i : Nat} {ls : List NumberLine} (h : ∀ l ∈ ls, l.first.value ≠ i)
    (ids : List Int) : readIds i (ls.map NumberLine.text) ids = .ok ids := by
  induction ls with
  | nil => rfl
  | cons l ls ih =>
    have hfield := mt (l.field_iff i).mp fun hf => h l (by simp) hf.1
    rw [List.map_cons, readIds, getlines_headD, if_neg hfield]
    exact ih fun x hx => h x (by simp [hx])

namespace ConfigText

theorem nodup_ids (c : ConfigText) : (c.lines.map (·.first.value)).Nodup :=
  c.ids.nodup_iff.mpr List.nodup_range'

theorem readIds_lines (c : ConfigText) (i : Nat) :
    readIds i (c.lines.map NumberLine.text) [] = .ok (c.listed i) ↔
      ∀ l ∈ c.lines, l.first.value = i → l.Readable := by
  by_cases hin : ∃ l ∈ c.lines, l.first.value = i
  · obtain ⟨l, hl, rfl⟩ := hin
    obtain ⟨front, back, hlines⟩ := List.append_of_mem hl
    have hnodup := c.nodup_ids
    rw [hlines, List.map_append, List.map_cons] at hnodup
    obtain ⟨-, hback, hdisjoint⟩ := List.nodup_append.mp hnodup
    have hfront : ∀ x ∈ front, x.first.value ≠ l.first.value :=
      fun x hx => hdisjoint _ (List.mem_map_of_mem hx) _ (by simp)
    have hback : ∀ x ∈ back, x.first.value ≠ l.first.value := by
      intro x hx he
      exact (List.nodup_cons.mp hback).1 (he ▸ List.mem_map_of_mem hx)
    have hlisted : c.listed l.first.value = l.listed := by
      have hf : front.filter (·.first.value = l.first.value) = [] :=
        List.filter_eq_nil_iff.mpr fun x hx => by simpa using hfront x hx
      have hb : back.filter (·.first.value = l.first.value) = [] :=
        List.filter_eq_nil_iff.mpr fun x hx => by simpa using hback x hx
      rw [listed, hlines, List.filter_append, List.filter_cons, hf, hb]
      simp
    have hread : readIds l.first.value (c.lines.map NumberLine.text) [] =
        readIds l.first.value [l.text] [] := by
      have hsplit : c.lines.map NumberLine.text =
          front.map NumberLine.text ++ ([l.text] ++ back.map NumberLine.text) := by simp [hlines]
      rw [hsplit, readIds_append, readIds_others hfront]
      refine (readIds_append _ _ _).trans ?_
      cases readIds l.first.value [l.text] [] with
      | error e => rfl
      | ok ids => exact readIds_others hback ids
    rw [hread, hlisted, l.readIds_line]
    constructor
    · intro h x hx he
      rw [hlines] at hx
      rcases List.mem_append.mp hx with hx | hx
      · exact absurd he (hfront x hx)
      · rcases List.mem_cons.mp hx with rfl | hx
        · exact h
        · exact absurd he (hback x hx)
    · exact fun h => h l hl rfl
  · have hnone : ∀ l ∈ c.lines, l.first.value ≠ i := fun l hl he => hin ⟨l, hl, he⟩
    have hlisted : c.listed i = [] := by
      rw [listed, List.filter_eq_nil_iff.mpr fun l hl => by simpa using hnone l hl]
      rfl
    rw [readIds_others hnone, hlisted]
    exact ⟨fun _ l hl he => absurd he (hnone l hl), fun _ => rfl⟩

theorem stoi_m (c : ConfigText) :
    stoi (c.firstLine.takeWhile (· ≠ ' ')) = .ok (c.m.value : Int) ↔
      ' ' ∉ c.leading.text ∧ c.m.value ≤ 2147483647 := by
  by_cases h : ' ' ∈ c.leading.text
  · obtain ⟨a, b, hab, ha⟩ := List.eq_append_cons_of_mem h
    have hblank := c.leading.blank
    rw [hab] at hblank
    have hfield : c.firstLine.takeWhile (· ≠ ' ') = a := by
      rw [firstLine, hab, List.append_assoc, takeWhile_ne_append ha]
      simp
    rw [hfield]
    exact ⟨fun hok => absurd hok (stoi_blank (Blank.left hblank) _), fun hnot => absurd h hnot.1⟩
  · have hfield : c.firstLine.takeWhile (· ≠ ' ') =
        c.leading.text ++ (c.m.digits ++ c.trailing.text.takeWhile (· ≠ ' ')) := by
      rw [firstLine, takeWhile_ne_append h, takeWhile_ne_append (c.m.notMem_space rfl)]
    rw [hfield, stoi_field c.leading.blank
      fun x hx => c.trailing.blank x ((List.takeWhile_sublist _).mem hx)]
    simp [h]

/-- `main` of process `i` reads the file without throwing: `m`, and exactly the ids of its line. -/
def ReadsRight (c : ConfigText) (i : Nat) : Prop :=
  ∃ m, readConfig i c.text = .ok (m, c.listed i) ∧ stoi m = .ok (c.m.value : Int)

end ConfigText

/-- The file is read right exactly if no blank comes before `m`, the line of the process is
readable, and the numbers fit an `int`. -/
theorem config_read_iff (c : ConfigText) (i : Nat) :
    c.ReadsRight i ↔ (' ' ∉ c.leading.text ∧ c.m.value ≤ 2147483647) ∧
      ∀ l ∈ c.lines, l.first.value = i → l.Readable := by
  rw [← c.stoi_m, ← c.readIds_lines, ConfigText.ReadsRight, readConfig_text]
  cases readIds i (c.lines.map NumberLine.text) [] with
  | error e =>
    constructor
    · rintro ⟨m, hm, -⟩
      cases hm
    · rintro ⟨-, h⟩
      cases h
  | ok ids =>
    constructor
    · rintro ⟨m, hm, hstoi⟩
      obtain ⟨rfl, rfl⟩ := Prod.mk.inj (Except.ok.inj hm)
      exact ⟨hstoi, rfl⟩
    · rintro ⟨hstoi, hids⟩
      exact ⟨_, by rw [Except.ok.inj hids]; rfl, hstoi⟩

def Numeral.of (n : Nat) : Numeral := ⟨decimal n, decimal_ne_nil n, fun _ => decimal_digits⟩

def Gap.none : Gap := ⟨[], by simp, by simp⟩

def Gap.tab : Gap := ⟨['\t'], by simp [isspace], by simp⟩

/-- Two processes, of which the first is affected by the second, behind a tab. -/
def tabbedConfig : ConfigText where
  leading := Gap.none
  m := .of 2
  trailing := Gap.none
  lines := [⟨Gap.none, .of 1, [(Gap.tab, .of 2)], by simp [Gap.tab], Gap.none⟩,
    ⟨Gap.none, .of 2, [], by simp, Gap.none⟩]
  ids := by decide

theorem config_read_tabbed : ¬ tabbedConfig.ReadsRight 1 := by
  rintro ⟨m, hm, -⟩
  have hlost : (readConfig 1 tabbedConfig.text).toOption.map Prod.snd = some [] := by decide
  rw [hm] at hlost
  have hids : tabbedConfig.listed 1 = [] := Option.some.inj hlost
  exact absurd hids (by decide)

/-- Two blanks leave an empty field between them. -/
example : readIds 1 [['1', ' ', ' ', '2']] [] = .error .invalidArgument ∧
    readIds 1 [['1', ' ', '2', ' ', '3', ' ']] [] = .ok [2, 3] := ⟨rfl, rfl⟩

end DecentralizedBroadcast
