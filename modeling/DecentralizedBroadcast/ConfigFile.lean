import DecentralizedBroadcast.InputText

/-! The config file for localized causal broadcast: the loop of `main` that reads it, and its
format, a line with the number of messages and for each process a line with its id and the ids
that affect it. -/
set_option autoImplicit false

namespace DecentralizedBroadcast

/-- `while (getline(iss, other_id, ' '))`, from the fields that are left. -/
def pushIds : List Str → List Int → Except Fault (List Int)
  | [], localizedIds => pure localizedIds
  | otherId :: rest, localizedIds => do
      let n ← stoi otherId
      pushIds rest (localizedIds ++ [n])

/-- `while (getline(readFile, line))`: of each line the first field is compared with the id. -/
def readIds (myId : Nat) : List Str → List Int → Except Fault (List Int)
  | [], localizedIds => pure localizedIds
  | line :: rest, localizedIds =>
      let fields := getlines ' ' line
      if decimal myId = fields.headD [] then do
        let localizedIds ← pushIds fields.tail localizedIds
        readIds myId rest localizedIds
      else readIds myId rest localizedIds

/-- What `main` takes from the file: `m` as text, and `localized_ids`. -/
def readConfig (myId : Nat) (content : Str) : Except Fault (Str × List Int) := do
  let lines := getlines '\n' content
  let m := (getlines ' ' (lines.headD [])).headD []
  let localizedIds ← readIds myId lines.tail []
  pure (m, localizedIds)

/-- A number as digits, possibly with zeros in front. -/
structure Numeral where
  digits : Str
  ne_nil : digits ≠ []
  isDigit : ∀ c ∈ digits, c.isDigit = true

structure Gap where
  text : Str
  blank : ∀ c ∈ text, isspace c = true
  noNewline : '\n' ∉ text

/-- A line of a process: its id and, each behind a gap, the ids that affect it. -/
structure NumberLine where
  leading : Gap
  first : Numeral
  rest : List (Gap × Numeral)
  separated : ∀ x ∈ rest, x.1.text ≠ []
  trailing : Gap

def Numeral.value (n : Numeral) : Nat := Nat.ofDigitChars 10 n.digits 0

def restText (trailing : Str) : List (Gap × Numeral) → Str
  | [] => trailing
  | (g, n) :: rest => g.text ++ (n.digits ++ restText trailing rest)

namespace NumberLine

def text (l : NumberLine) : Str :=
  l.leading.text ++ (l.first.digits ++ restText l.trailing.text l.rest)

def listed (l : NumberLine) : List Int := l.rest.map fun x => (x.2.value : Int)

end NumberLine

/-- A config file: `m`, and the lines of the processes, in any order. -/
structure ConfigText where
  leading : Gap
  m : Numeral
  trailing : Gap
  lines : List NumberLine
  ids : (lines.map (·.first.value)).Perm (List.range' 1 lines.length)

namespace ConfigText

def firstLine (c : ConfigText) : Str := c.leading.text ++ (c.m.digits ++ c.trailing.text)

def text (c : ConfigText) : Str :=
  (c.firstLine :: c.lines.map NumberLine.text).flatMap (· ++ ['\n'])

def listed (c : ConfigText) (i : Nat) : List Int :=
  (c.lines.filter (·.first.value = i)).flatMap NumberLine.listed

end ConfigText

theorem Numeral.notMem_space (n : Numeral) {c : Char} (hc : isspace c = true) : c ∉ n.digits := by
  intro hin
  rw [isspace_of_isDigit (n.isDigit c hin)] at hc
  cases hc

theorem restText_noNewline (trailing : Gap) (rest : List (Gap × Numeral)) :
    '\n' ∉ restText trailing.text rest := by
  induction rest with
  | nil => exact trailing.noNewline
  | cons x rest ih =>
    obtain ⟨g, n⟩ := x
    simp only [restText, List.mem_append, not_or]
    exact ⟨g.noNewline, n.notMem_space rfl, ih⟩

theorem NumberLine.noNewline (l : NumberLine) : '\n' ∉ l.text := by
  simp only [NumberLine.text, List.mem_append, not_or]
  exact ⟨l.leading.noNewline, l.first.notMem_space rfl, restText_noNewline l.trailing l.rest⟩

theorem readConfig_text (myId : Nat) (c : ConfigText) : readConfig myId c.text =
    readIds myId (c.lines.map NumberLine.text) [] >>= fun localizedIds =>
      pure (c.firstLine.takeWhile (· ≠ ' '), localizedIds) := by
  have hlines : ∀ line ∈ c.firstLine :: c.lines.map NumberLine.text, '\n' ∉ line := by
    intro line hline
    rcases List.mem_cons.mp hline with rfl | hline
    · simp only [ConfigText.firstLine, List.mem_append, not_or]
      exact ⟨c.leading.noNewline, c.m.notMem_space rfl, c.trailing.noNewline⟩
    · obtain ⟨l, -, rfl⟩ := List.mem_map.mp hline
      exact l.noNewline
  rw [readConfig, ConfigText.text, getlines_flatMap hlines, List.headD_cons, List.tail_cons,
    getlines_headD]

end DecentralizedBroadcast
