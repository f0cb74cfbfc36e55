import Mathlib.Data.List.TakeWhile
import Mathlib.Tactic.IntervalCases

/-! The part of `std::string`, `sprintf` and the number parsers that the program
uses. Texts are lists of characters; what throws, or writes past its buffer, in
the program is a `Fault` here. -/
set_option autoImplicit false

namespace DecentralizedBroadcast

abbrev Str := List Char

instance (s : Str) (l : List Str) : Decidable (s ∈ l) := List.instDecidableMemOfLawfulBEq s l

inductive Fault where
  | outOfRange       -- std::out_of_range, from substr, stoi or stoul
  | invalidArgument  -- std::invalid_argument, from stoi or stoul
  | bufferOverflow   -- sprintf past the end of its array
  | badIndex         -- operator[] past the end of a vector
  deriving DecidableEq, Repr

def substr (s : Str) (pos len : Nat) : Except Fault Str :=
  if s.length < pos then .error .outOfRange else .ok ((s.drop pos).take len)

/-- `s.find(c, pos)`, with `none` for npos. -/
def find (s : Str) (c : Char) (pos : Nat) : Option Nat :=
  ((s.drop pos).findIdx? (· == c)).map (pos + ·)

/-- What `c_str()` shows to a `%s`: the text up to its first NUL. -/
def cStr (s : Str) : Str := s.takeWhile (· ≠ '\x00')

def isspace (c : Char) : Bool :=
  c == ' ' || c == '\t' || c == '\n' || c == '\x0b' || c == '\x0c' || c == '\r'

/-- An optional sign, and whether it was a minus. -/
def splitSign : Str → Bool × Str
  | '-' :: rest => (true, rest)
  | '+' :: rest => (false, rest)
  | rest => (false, rest)

/-- The number at the front of a text, as strtol reads it: white space, a sign, digits. -/
def scanNumber (s : Str) : Option Int :=
  let (negative, body) := splitSign (s.dropWhile isspace)
  let digits := body.takeWhile Char.isDigit
  if digits = [] then none
  else
    let n : Int := Nat.ofDigitChars 10 digits 0
    some (if negative then -n else n)

def intMax : Int := 2147483647

def stoi (s : Str) : Except Fault Int :=
  match scanNumber s with
  | none => .error .invalidArgument
  | some n => if -intMax - 1 ≤ n ∧ n ≤ intMax then .ok n else .error .outOfRange

/-- On a 64-bit `unsigned long`; a minus sign wraps around, as in strtoul. -/
def stoul (s : Str) : Except Fault Nat :=
  match scanNumber s with
  | none => .error .invalidArgument
  | some n => if n.natAbs < 2 ^ 64 then .ok (n % 2 ^ 64).toNat else .error .outOfRange

def decimal (n : Nat) : Str := Nat.toDigits 10 n

def intToString : Int → Str
  | .ofNat n => decimal n
  | .negSucc n => '-' :: decimal (n + 1)

def zeroPad (width : Nat) (s : Str) : Str := List.replicate (width - s.length) '0' ++ s

/-- `%03d`. -/
def format03d : Int → Str
  | .ofNat n => zeroPad 3 (decimal n)
  | .negSucc n => '-' :: zeroPad 2 (decimal (n + 1))

/-- `sprintf(buffer, "%03d", i)` into a `char[4]`. -/
def sprintf03d (i : Int) : Except Fault Str :=
  let s := format03d i
  if s.length < 4 then .ok s else .error .bufferOverflow

/-- A process id as `%03d` prints it. -/
abbrev pad3 (p : Nat) : Str := format03d p

theorem bind_eq_ok {α β : Type} {x : Except Fault α} {f : α → Except Fault β} {b : β} :
    x >>= f = .ok b ↔ ∃ a, x = .ok a ∧ f a = .ok b := by
  cases x <;> simp [bind, Except.bind]

theorem toOption_eq_some {α : Type} {x : Except Fault α} {a : α} :
    x.toOption = some a ↔ x = .ok a := by
  cases x <;> simp [Except.toOption]

theorem substr_eq_ok {s t : Str} {pos len : Nat} :
    substr s pos len = .ok t ↔ pos ≤ s.length ∧ t = (s.drop pos).take len := by
  unfold substr
  split
  · simp; omega
  · simp only [Except.ok.injEq, eq_comm]
    constructor
    · exact fun h => ⟨by omega, h⟩
    · exact fun h => h.2

theorem substr_mid {a b c : Str} {pos len : Nat} (hp : pos = a.length) (hl : len = b.length) :
    substr (a ++ (b ++ c)) pos len = .ok b := by
  subst hp hl
  simp [substr]

theorem substr_tail {a b : Str} {pos len : Nat} (hp : pos = a.length) (hl : b.length ≤ len) :
    substr (a ++ b) pos len = .ok b := by
  subst hp
  simp [substr, List.take_of_length_le hl]

theorem find_append {a b : Str} {c : Char} {pos : Nat} (hp : pos = a.length) :
    find (a ++ b) c pos = (find b c 0).map (pos + ·) := by
  subst hp
  simp [find]

theorem find_zero_of_notMem {a : Str} {c : Char} (h : c ∉ a) : find a c 0 = none := by
  simp only [find, List.drop_zero, Option.map_eq_none_iff, List.findIdx?_eq_none_iff]
  intro x hx
  exact beq_false_of_ne fun he => h (he ▸ hx)

theorem find_zero_marker {a b : Str} {c : Char} (h : c ∉ a) :
    find (a ++ c :: b) c 0 = some a.length := by
  induction a with
  | nil => simp [find, List.findIdx?_cons]
  | cons x a ih =>
    have hx : (x == c) = false := beq_false_of_ne fun he => h (by simp [he])
    have ih := ih fun hc => h (by simp [hc])
    simp only [find, List.drop_zero] at ih ⊢
    simp only [List.cons_append, List.findIdx?_cons, hx]
    simp only [Option.map_eq_some_iff, Nat.zero_add, exists_eq_right] at ih
    simp [ih]

theorem find_eq_some {s : Str} {c : Char} {pos i : Nat} (h : find s c pos = some i) :
    pos ≤ i ∧ i < s.length ∧ c ∉ (s.drop pos).take (i - pos) := by
  simp only [find, Option.map_eq_some_iff] at h
  obtain ⟨j, hj, rfl⟩ := h
  obtain ⟨hlt, -, hbefore⟩ := List.findIdx?_eq_some_iff_getElem.mp hj
  rw [List.length_drop] at hlt
  refine ⟨by omega, by omega, fun hin => ?_⟩
  rw [Nat.add_sub_cancel_left] at hin
  obtain ⟨k, hk, hc⟩ := List.getElem_of_mem hin
  rw [List.length_take] at hk
  rw [List.getElem_take] at hc
  exact hbefore k (by omega) (by simp [hc])

theorem notMem_of_find_none {s : Str} {c : Char} {pos : Nat} (h : find s c pos = none) :
    c ∉ s.drop pos := by
  simp only [find, Option.map_eq_none_iff, List.findIdx?_eq_none_iff] at h
  intro hin
  have := h c hin
  simp at this

theorem takeWhile_ne_append {s : Str} {c : Char} (h : c ∉ s) (rest : Str) :
    (s ++ rest).takeWhile (· ≠ c) = s ++ rest.takeWhile (· ≠ c) :=
  List.takeWhile_append_of_pos fun _ hx => decide_eq_true fun he => h (he ▸ hx)

theorem takeWhile_ne_self {s : Str} {c : Char} (h : c ∉ s) : s.takeWhile (· ≠ c) = s := by
  simpa using takeWhile_ne_append h []

theorem cStr_of_notMem {s : Str} (h : '\x00' ∉ s) : cStr s = s := takeWhile_ne_self h

theorem notMem_digits {s : Str} {c : Char} (h : ∀ x ∈ s, x.isDigit = true)
    (hc : c.isDigit = false) : c ∉ s := by
  intro hin
  rw [h c hin] at hc
  cases hc

theorem ofDigitChars_lt {s : Str} (h : ∀ c ∈ s, c.isDigit = true) :
    Nat.ofDigitChars 10 s 0 < 10 ^ s.length := by
  induction s with
  | nil => simp
  | cons c s ih =>
    have ih := ih fun x hx => h x (by simp [hx])
    have hc : c.toNat - '0'.toNat ≤ 9 := by
      have := h c (by simp)
      simp only [Char.isDigit, Bool.and_eq_true, decide_eq_true_eq, ge_iff_le] at this
      have h57 : c.toNat ≤ 57 := by simpa [UInt32.le_iff_toNat_le] using this.2
      simp only [Char.reduceToNat]
      omega
    have hmul := Nat.mul_le_mul_left (10 ^ s.length) hc
    rw [Nat.ofDigitChars_cons, Nat.ofDigitChars_eq_ofDigitChars_zero, List.length_cons,
      Nat.pow_succ, Nat.mul_zero, Nat.zero_add]
    omega

/-- Three characters spell no number beyond 999. -/
theorem stoi_le_999 {s : Str} {i : Int} (h : stoi s = .ok i) (hl : s.length ≤ 3) : i ≤ 999 := by
  unfold stoi at h
  split at h
  · cases h
  · rename_i n hn
    split at h
    · obtain rfl := Except.ok.inj h
      simp only [scanNumber] at hn
      split at hn
      · cases hn
      · have hle :
            (List.takeWhile Char.isDigit (splitSign (s.dropWhile isspace)).2).length ≤ 3 := by
          have h1 := (List.takeWhile_sublist (p := Char.isDigit)
            (l := (splitSign (s.dropWhile isspace)).2)).length_le
          have h2 : (splitSign (s.dropWhile isspace)).2.length ≤ (s.dropWhile isspace).length := by
            unfold splitSign
            split <;> simp_all
          have h3 := (List.dropWhile_sublist isspace (l := s)).length_le
          omega
        have hlt := ofDigitChars_lt (s := List.takeWhile Char.isDigit
          (splitSign (s.dropWhile isspace)).2) fun c hc => List.mem_takeWhile_imp hc
        have hpow := Nat.pow_le_pow_right (by decide : 0 < 10) hle
        split at hn <;> simp only [Option.some.injEq] at hn <;> omega
    · cases h

theorem decimal_digits {n : Nat} {c : Char} (h : c ∈ decimal n) : c.isDigit = true :=
  Nat.isDigit_of_mem_toDigits (by decide) (by decide) h

theorem notMem_decimal {n : Nat} {c : Char} (hc : c.isDigit = false) : c ∉ decimal n :=
  notMem_digits (fun _ => decimal_digits) hc

theorem decimal_ne_nil (n : Nat) : decimal n ≠ [] := Nat.toDigits_ne_nil

theorem decimal_injective {m n : Nat} (h : decimal m = decimal n) : m = n := by
  have := congrArg (fun s => Nat.ofDigitChars 10 s 0) h
  simpa [decimal] using this

theorem isspace_of_isDigit {c : Char} (h : c.isDigit = true) : isspace c = false := by
  unfold isspace
  simp only [Bool.or_eq_false_iff, beq_eq_false_iff_ne]
  refine ⟨⟨⟨⟨⟨?_, ?_⟩, ?_⟩, ?_⟩, ?_⟩, ?_⟩ <;> rintro rfl <;> exact absurd h (by decide)

theorem splitSign_digit {c : Char} (h : c.isDigit = true) (rest : Str) :
    splitSign (c :: rest) = (false, c :: rest) := by
  unfold splitSign
  split
  · rename_i heq
    obtain ⟨rfl, _⟩ := List.cons.inj heq
    exact absurd h (by decide)
  · rename_i heq
    obtain ⟨rfl, _⟩ := List.cons.inj heq
    exact absurd h (by decide)
  · rfl

theorem scanNumber_digits {ds rest : Str} (hne : ds ≠ []) (hd : ∀ c ∈ ds, c.isDigit = true)
    (hrest : ∀ c ∈ rest.head?, c.isDigit = false) :
    scanNumber (ds ++ rest) = some (Nat.ofDigitChars 10 ds 0 : Int) := by
  obtain ⟨d, ds', rfl⟩ := List.exists_cons_of_ne_nil hne
  have hd0 : d.isDigit = true := hd d (by simp)
  have htake : (d :: ds' ++ rest).takeWhile Char.isDigit = d :: ds' := by
    rw [List.takeWhile_append_of_pos hd]
    cases rest with
    | nil => simp
    | cons c rest => simp [hrest c (by simp)]
  simp only [List.cons_append] at htake
  simp only [scanNumber, List.cons_append, List.dropWhile_cons, isspace_of_isDigit hd0,
    Bool.false_eq_true, if_false, splitSign_digit hd0, htake]
  simp

theorem stoi_digits {ds rest : Str} {n : Nat} (hne : ds ≠ []) (hd : ∀ c ∈ ds, c.isDigit = true)
    (hrest : ∀ c ∈ rest.head?, c.isDigit = false) (hv : Nat.ofDigitChars 10 ds 0 = n)
    (hn : n ≤ 2147483647) : stoi (ds ++ rest) = .ok (n : Int) := by
  have h : -intMax - 1 ≤ (n : Int) ∧ (n : Int) ≤ intMax := by simp only [intMax]; omega
  simp only [stoi, scanNumber_digits hne hd hrest, hv, h, and_self, if_true]

theorem stoi_digits_only {ds : Str} {n : Nat} (hne : ds ≠ []) (hd : ∀ c ∈ ds, c.isDigit = true)
    (hv : Nat.ofDigitChars 10 ds 0 = n) (hn : n ≤ 2147483647) : stoi ds = .ok (n : Int) := by
  have h := @stoi_digits ds [] n hne hd (by simp) hv hn
  rwa [List.append_nil] at h

theorem zeroPad_digits {w : Nat} {s : Str} (h : ∀ c ∈ s, c.isDigit = true) :
    ∀ c ∈ zeroPad w s, c.isDigit = true := by
  intro c hc
  rcases List.mem_append.mp hc with hc | hc
  · rw [List.eq_of_mem_replicate hc]; rfl
  · exact h c hc

theorem ofDigitChars_zeroPad (w n : Nat) : Nat.ofDigitChars 10 (zeroPad w (decimal n)) 0 = n := by
  simp [zeroPad, decimal, Nat.ofDigitChars_append]

theorem zeroPad_ne_nil {w : Nat} {s : Str} (h : s ≠ []) : zeroPad w s ≠ [] := by
  simp [zeroPad, h]

@[simp] theorem zeroPad_length (w : Nat) (s : Str) : (zeroPad w s).length = max w s.length := by
  simp [zeroPad]; omega

theorem decimal_length_le {n k : Nat} (hk : 0 < k) (h : n < 10 ^ k) : (decimal n).length ≤ k :=
  (Nat.length_toDigits_le_iff (by decide) hk).mpr h

theorem lt_of_decimal_length {n k : Nat} (hk : 0 < k) (h : (decimal n).length ≤ k) : n < 10 ^ k :=
  (Nat.length_toDigits_le_iff (by decide) hk).mp h

theorem decimal_length_mono {m n : Nat} (h : m ≤ n) : (decimal m).length ≤ (decimal n).length := by
  have hpos := List.length_pos_iff.mpr (decimal_ne_nil n)
  exact decimal_length_le hpos (Nat.lt_of_le_of_lt h (lt_of_decimal_length hpos (Nat.le_refl _)))

theorem pad3_eq (p : Nat) : pad3 p = zeroPad 3 (decimal p) := rfl

theorem pad3_digits {p : Nat} {c : Char} (h : c ∈ pad3 p) : c.isDigit = true :=
  zeroPad_digits (fun _ => decimal_digits) c h

theorem notMem_pad3 {p : Nat} {c : Char} (hc : c.isDigit = false) : c ∉ pad3 p :=
  notMem_digits (fun _ => pad3_digits) hc

theorem pad3_length {p : Nat} (h : p ≤ 999) : (pad3 p).length = 3 := by
  have := decimal_length_le (n := p) (k := 3) (by decide) (by omega)
  rw [pad3_eq, zeroPad_length]
  omega

theorem three_le_pad3_length (p : Nat) : 3 ≤ (pad3 p).length := by
  rw [pad3_eq, zeroPad_length]
  omega

theorem pad3_injective {p q : Nat} (h : pad3 p = pad3 q) : p = q := by
  have := congrArg (fun s => Nat.ofDigitChars 10 s 0) h
  simpa [pad3_eq, ofDigitChars_zeroPad] using this

theorem stoi_pad3 {p : Nat} (h : p ≤ 999) : stoi (pad3 p) = .ok (p : Int) := by
  have := stoi_digits_only (zeroPad_ne_nil (decimal_ne_nil p)) (fun _ => pad3_digits)
    (ofDigitChars_zeroPad 3 p) (by omega)
  simpa [pad3_eq] using this

theorem sprintf03d_ok {i : Int} {s : Str} (h : sprintf03d i = .ok s) :
    s = format03d i ∧ (format03d i).length < 4 := by
  simp only [sprintf03d] at h
  split at h
  · rename_i hl
    exact ⟨(Except.ok.inj h).symm, hl⟩
  · cases h

theorem sprintf03d_nat_ok {p : Nat} {s : Str} (h : sprintf03d p = .ok s) :
    s = pad3 p ∧ p ≤ 999 := by
  obtain ⟨rfl, hl⟩ := sprintf03d_ok h
  refine ⟨rfl, ?_⟩
  have hl : (pad3 p).length < 4 := hl
  rw [pad3_eq, zeroPad_length] at hl
  have := lt_of_decimal_length (n := p) (k := 3) (by decide) (by omega)
  omega

end DecentralizedBroadcast
