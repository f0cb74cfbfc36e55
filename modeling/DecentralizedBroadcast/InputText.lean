import DecentralizedBroadcast.CppString

/-! What the program uses of `std::istream` to read its files: `getline` up to a delimiter, and
`>>` into numbers and words. -/
set_option autoImplicit false

namespace DecentralizedBroadcast

/-- What `getline(stream, text, delim)` reads, call after call. Nothing comes after a delimiter at
the end of the stream. -/
def getlines (delim : Char) : Str → List Str
  | [] => []
  | c :: rest =>
      if c = delim then [] :: getlines delim rest
      else
        match getlines delim rest with
        | [] => [[c]]
        | line :: lines => (c :: line) :: lines

/-- `stream >> n` for an unsigned type up to `max`, with what is left of the stream; `none` where
the stream fails. As in strtoul a minus sign wraps around. -/
def readUnsigned (max : Nat) (s : Str) : Option (Nat × Str) :=
  let (negative, body) := splitSign (s.dropWhile isspace)
  let digits := body.takeWhile Char.isDigit
  let n := Nat.ofDigitChars 10 digits 0
  if digits = [] ∨ max < n then none
  else
    some (if negative then (max + 1 - n) % (max + 1) else n, body.dropWhile Char.isDigit)

def ulongMax : Nat := 18446744073709551615

def ushortMax : Nat := 65535

def readWord (s : Str) : Option (Str × Str) :=
  let body := s.dropWhile isspace
  let word := body.takeWhile fun c => !isspace c
  if word = [] then none else some (word, body.dropWhile fun c => !isspace c)

@[simp] theorem getlines_nil (delim : Char) : getlines delim [] = [] := rfl

theorem getlines_append {delim : Char} {line : Str} (h : delim ∉ line) (rest : Str) :
    getlines delim (line ++ delim :: rest) = line :: getlines delim rest := by
  induction line with
  | nil => simp [getlines]
  | cons c line ih =>
    have hc : c ≠ delim := fun he => h (by simp [he])
    rw [List.cons_append, getlines, if_neg hc, ih fun hin => h (by simp [hin])]

theorem getlines_last {delim : Char} {line : Str} (h : delim ∉ line) (hne : line ≠ []) :
    getlines delim line = [line] := by
  induction line with
  | nil => exact absurd rfl hne
  | cons c line ih =>
    have hc : c ≠ delim := fun he => h (by simp [he])
    rw [getlines, if_neg hc]
    by_cases hline : line = []
    · rw [hline, getlines_nil]
    · rw [ih (fun hin => h (by simp [hin])) hline]

theorem getlines_flatMap {delim : Char} {lines : List Str} (h : ∀ line ∈ lines, delim ∉ line) :
    getlines delim (lines.flatMap (· ++ [delim])) = lines := by
  induction lines with
  | nil => rfl
  | cons line lines ih =>
    rw [List.flatMap_cons, List.append_assoc, List.singleton_append,
      getlines_append (h line (by simp)), ih fun x hx => h x (by simp [hx])]

theorem getlines_eq_nil {delim : Char} {s : Str} : getlines delim s = [] ↔ s = [] := by
  constructor
  · intro h
    cases s with
    | nil => rfl
    | cons c rest =>
      rw [getlines] at h
      split at h
      · cases h
      · split at h <;> cases h
  · rintro rfl
    rfl

theorem getlines_headD (delim : Char) (s : Str) :
    (getlines delim s).headD [] = s.takeWhile (· ≠ delim) := by
  by_cases h : delim ∈ s
  · obtain ⟨line, rest, rfl, hline⟩ := List.eq_append_cons_of_mem h
    rw [getlines_append hline, takeWhile_ne_append hline]
    simp
  · by_cases hs : s = []
    · rw [hs]
      rfl
    · rw [getlines_last h hs, takeWhile_ne_self h]
      rfl

end DecentralizedBroadcast
