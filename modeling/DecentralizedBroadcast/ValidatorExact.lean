import DecentralizedBroadcast.Output

/-! What the verdict of the script says about a file, whoever wrote it: which files it accepts, and
at which line it stops with the others. -/
set_option autoImplicit false

namespace DecentralizedBroadcast

/-- What the script takes from a line; it passes over a line of another kind. -/
inductive Reading where
  | broadcast (msg : Int)
  | delivery (sender msg : Int)
  | other

/-- `none` where reading the line raises an exception. -/
def readLine (line : Str) : Option Reading := do
  let tokens := splitWords line []
  let kind ← tokens[0]?
  if kind = ['b'] then
    let msg ← pyInt (← tokens[1]?)
    pure (.broadcast msg)
  else if kind = ['d'] then
    let sender ← pyInt (← tokens[1]?)
    let msg ← pyInt (← tokens[2]?)
    pure (.delivery sender msg)
  else pure .other

def Reading.broadcast? : Reading → Option Int
  | broadcast msg => some msg
  | _ => none

def Reading.delivery? (sender : Int) : Reading → Option Int
  | delivery s msg => if s = sender then some msg else none
  | _ => none

def broadcasts (rs : List Reading) : List Int := rs.filterMap Reading.broadcast?

def deliveries (sender : Int) (rs : List Reading) : List Int :=
  rs.filterMap (Reading.delivery? sender)

/-- The numbers go up one by one, from `k`. -/
def CountsFrom : Int → List Int → Prop
  | _, [] => True
  | k, x :: xs => x = k ∧ CountsFrom (k + 1) xs

theorem countsFrom_iff {k : Int} {xs : List Int} :
    CountsFrom k xs ↔ ∀ (j : Nat) (x : Int), xs[j]? = some x → x = k + j := by
  induction xs generalizing k with
  | nil => simp [CountsFrom]
  | cons y xs ih =>
    rw [CountsFrom, ih]
    constructor
    · rintro ⟨rfl, h⟩ j x hx
      cases j with
      | zero => simpa using hx.symm
      | succ j =>
        have := h j x (by simpa using hx)
        omega
    · intro h
      refine ⟨by simpa using h 0 y rfl, fun j x hx => ?_⟩
      have := h (j + 1) x (by simpa using hx)
      omega

/-- What is read goes on in order, if `i` is the next to be broadcast and `next` are the next to
be delivered. -/
def InOrderFrom (i : Int) (next : Int → Int) (rs : List Reading) : Prop :=
  CountsFrom i (broadcasts rs) ∧ ∀ sender, CountsFrom (next sender) (deliveries sender rs)

namespace Reading

def Fits (i : Int) (next : Int → Int) : Reading → Bool
  | broadcast msg => msg = i
  | delivery sender msg => msg = next sender
  | other => true

def nextMessage (i : Int) : Reading → Int
  | broadcast _ => i + 1
  | _ => i

def nextMessages (next : Int → Int) : Reading → Int → Int
  | delivery sender msg => Function.update next sender (msg + 1)
  | _ => next

end Reading

theorem inOrderFrom_nil (i : Int) (next : Int → Int) : InOrderFrom i next [] :=
  ⟨trivial, fun _ => trivial⟩

theorem inOrderFrom_cons {i : Int} {next : Int → Int} {r : Reading} {rs : List Reading} :
    InOrderFrom i next (r :: rs) ↔
      r.Fits i next ∧ InOrderFrom (r.nextMessage i) (r.nextMessages next) rs := by
  cases r with
  | broadcast msg =>
    simp only [InOrderFrom, broadcasts, deliveries, List.filterMap_cons, Reading.broadcast?,
      Reading.delivery?, CountsFrom, Reading.Fits, Reading.nextMessage, Reading.nextMessages,
      decide_eq_true_eq, and_assoc]
  | delivery s msg =>
    have hdel : (∀ sender, CountsFrom (next sender) (deliveries sender (.delivery s msg :: rs))) ↔
        msg = next s ∧ ∀ sender, CountsFrom (Function.update next s (msg + 1) sender)
          (deliveries sender rs) := by
      have hother : ∀ sender, sender ≠ s → deliveries sender (.delivery s msg :: rs) =
          deliveries sender rs := by
        intro sender hne
        simp [deliveries, Reading.delivery?, Ne.symm hne]
      have hsame : deliveries s (.delivery s msg :: rs) = msg :: deliveries s rs := by
        simp [deliveries, Reading.delivery?]
      constructor
      · intro h
        have hs := h s
        rw [hsame, CountsFrom] at hs
        refine ⟨hs.1, fun sender => ?_⟩
        by_cases he : sender = s
        · rw [he, Function.update_self, hs.1]
          exact hs.2
        · rw [Function.update_of_ne he, ← hother sender he]
          exact h sender
      · rintro ⟨hmsg, h⟩ sender
        by_cases he : sender = s
        · subst he
          have hs := h sender
          rw [Function.update_self, hmsg] at hs
          rw [hsame]
          exact ⟨hmsg, hs⟩
        · have hs := h sender
          rwa [Function.update_of_ne he, ← hother sender he] at hs
    rw [InOrderFrom, hdel]
    simp only [InOrderFrom, broadcasts, List.filterMap_cons, Reading.broadcast?, Reading.Fits,
      Reading.nextMessage, Reading.nextMessages, decide_eq_true_eq]
    exact and_left_comm
  | other =>
    simp only [InOrderFrom, broadcasts, deliveries, List.filterMap_cons, Reading.broadcast?,
      Reading.delivery?, Reading.Fits, Reading.nextMessage, Reading.nextMessages, true_and]

theorem checkLines_cons (line : Str) (lines : List Str) (i : Int) (next : Int → Int) :
    checkLines (line :: lines) i next = (readLine line).bind fun r =>
      if r.Fits i next then checkLines lines (r.nextMessage i) (r.nextMessages next)
      else some false := by
  rw [checkLines, readLine]
  cases hkind : (splitWords line [])[0]? with
  | none => rfl
  | some kind =>
    simp only [Option.bind_eq_bind, Option.bind_some]
    by_cases hb : kind = ['b']
    · rw [if_pos hb, if_pos hb]
      cases (splitWords line [])[1]? with
      | none => rfl
      | some token =>
        cases hmsg : pyInt token with
        | none => simp [hmsg]
        | some msg => simp [hmsg, Reading.Fits, Reading.nextMessage, Reading.nextMessages]
    · rw [if_neg hb, if_neg hb]
      by_cases hd : kind = ['d']
      · rw [if_pos hd, if_pos hd]
        cases (splitWords line [])[1]? with
        | none => rfl
        | some token =>
          cases hs : pyInt token with
          | none => simp [hs]
          | some sender =>
            cases (splitWords line [])[2]? with
            | none => simp
            | some token' =>
              cases hmsg : pyInt token' with
              | none => simp [hmsg]
              | some msg =>
                simp [hs, hmsg, Reading.Fits, Reading.nextMessage, Reading.nextMessages]
      · rw [if_neg hd, if_neg hd]
        rfl

theorem mapM_cons_eq_some {line : Str} {lines : List Str} {rs : List Reading} :
    (line :: lines).mapM readLine = some rs ↔
      ∃ r rest, readLine line = some r ∧ lines.mapM readLine = some rest ∧ rs = r :: rest := by
  simp only [List.mapM_cons, Option.bind_eq_bind, Option.bind_eq_some_iff, Option.pure_def,
    Option.some.injEq]
  constructor
  · rintro ⟨r, hr, rest, hrest, rfl⟩
    exact ⟨r, rest, hr, hrest, rfl⟩
  · rintro ⟨r, rest, hr, hrest, rfl⟩
    exact ⟨r, hr, rest, hrest, rfl⟩

theorem checkLines_true {lines : List Str} {i : Int} {next : Int → Int} :
    checkLines lines i next = some true ↔
      ∃ rs, lines.mapM readLine = some rs ∧ InOrderFrom i next rs := by
  induction lines generalizing i next with
  | nil => simp [checkLines, inOrderFrom_nil]
  | cons line lines ih =>
    simp only [checkLines_cons, mapM_cons_eq_some, Option.bind_eq_some_iff]
    constructor
    · rintro ⟨r, hr, h⟩
      split at h
      · rename_i hfits
        obtain ⟨rs, hrs, horder⟩ := ih.mp h
        exact ⟨r :: rs, ⟨r, rs, hr, hrs, rfl⟩, inOrderFrom_cons.mpr ⟨hfits, horder⟩⟩
      · cases h
    · rintro ⟨_, ⟨r, rs, hr, hrs, rfl⟩, horder⟩
      obtain ⟨hfits, hrest⟩ := inOrderFrom_cons.mp horder
      exact ⟨r, hr, by rw [if_pos hfits]; exact ih.mpr ⟨rs, hrs, hrest⟩⟩

/-- The lines before `line` are read and in order, and with `line` they are no longer. -/
def BreaksAt (i : Int) (next : Int → Int) (pre : List Str) (line : Str) : Prop :=
  ∃ rs r, pre.mapM readLine = some rs ∧ readLine line = some r ∧ InOrderFrom i next rs ∧
    ¬ InOrderFrom i next (rs ++ [r])

theorem breaksAt_nil {i : Int} {next : Int → Int} {line : Str} :
    BreaksAt i next [] line ↔ ∃ r, readLine line = some r ∧ r.Fits i next = false := by
  constructor
  · rintro ⟨rs, r, hrs, hr, -, hnot⟩
    obtain rfl : [] = rs := Option.some.inj hrs
    refine ⟨r, hr, ?_⟩
    by_contra hfits
    exact hnot (inOrderFrom_cons.mpr ⟨by simpa using hfits, inOrderFrom_nil _ _⟩)
  · rintro ⟨r, hr, hfits⟩
    refine ⟨[], r, rfl, hr, inOrderFrom_nil _ _, fun h => ?_⟩
    rw [(inOrderFrom_cons.mp h).1] at hfits
    cases hfits

theorem breaksAt_cons {i : Int} {next : Int → Int} {first line : Str} {pre : List Str} :
    BreaksAt i next (first :: pre) line ↔ ∃ r, readLine first = some r ∧ r.Fits i next = true ∧
      BreaksAt (r.nextMessage i) (r.nextMessages next) pre line := by
  constructor
  · rintro ⟨rs, r', hrs, hr', horder, hnot⟩
    obtain ⟨r, rest, hr, hrest, rfl⟩ := mapM_cons_eq_some.mp hrs
    obtain ⟨hfits, horder⟩ := inOrderFrom_cons.mp horder
    exact ⟨r, hr, hfits, rest, r', hrest, hr', horder,
      fun h => hnot (inOrderFrom_cons.mpr ⟨hfits, h⟩)⟩
  · rintro ⟨r, hr, hfits, rest, r', hrest, hr', horder, hnot⟩
    exact ⟨r :: rest, r', mapM_cons_eq_some.mpr ⟨r, rest, hr, hrest, rfl⟩, hr',
      inOrderFrom_cons.mpr ⟨hfits, horder⟩, fun h => hnot (inOrderFrom_cons.mp h).2⟩

theorem checkLines_false {lines : List Str} {i : Int} {next : Int → Int} :
    checkLines lines i next = some false ↔
      ∃ pre line post, lines = pre ++ line :: post ∧ BreaksAt i next pre line := by
  induction lines generalizing i next with
  | nil => simp [checkLines]
  | cons first lines ih =>
    simp only [checkLines_cons, Option.bind_eq_some_iff]
    constructor
    · rintro ⟨r, hr, h⟩
      split at h
      · rename_i hfits
        obtain ⟨pre, line, post, rfl, hbreaks⟩ := ih.mp h
        exact ⟨first :: pre, line, post, rfl, breaksAt_cons.mpr ⟨r, hr, hfits, hbreaks⟩⟩
      · rename_i hfits
        exact ⟨[], first, lines, rfl, breaksAt_nil.mpr ⟨r, hr, by simpa using hfits⟩⟩
    · rintro ⟨pre, line, post, hlines, hbreaks⟩
      cases pre with
      | nil =>
        obtain ⟨rfl, rfl⟩ := List.cons.inj hlines
        obtain ⟨r, hr, hfits⟩ := breaksAt_nil.mp hbreaks
        exact ⟨r, hr, by simp [hfits]⟩
      | cons first' pre =>
        obtain ⟨rfl, rfl⟩ := List.cons.inj hlines
        obtain ⟨r, hr, hfits, hbreaks⟩ := breaksAt_cons.mp hbreaks
        exact ⟨r, hr, by rw [if_pos hfits]; exact ih.mpr ⟨pre, line, post, rfl, hbreaks⟩⟩

/-- The script accepts a file exactly if it can read every line and the numbers of the 'b' lines,
and of the 'd' lines for each sender, go up from 1 one by one; it complains exactly if some line
is the first to break that, whatever comes behind. -/
theorem checkProcess_exact (file : Str) :
    (checkProcess file = some true ↔ ∃ rs, (fileLines file []).mapM readLine = some rs ∧
      (∀ (j : Nat) (msg : Int), (broadcasts rs)[j]? = some msg → msg = 1 + j) ∧
      ∀ (sender : Int) (j : Nat) (msg : Int), (deliveries sender rs)[j]? = some msg →
        msg = 1 + j) ∧
    (checkProcess file = some false ↔ ∃ pre line post, fileLines file [] = pre ++ line :: post ∧
      BreaksAt 1 (fun _ => 1) pre line) := by
  refine ⟨?_, checkLines_false⟩
  rw [checkProcess, checkLines_true]
  simp only [InOrderFrom, countsFrom_iff]

/-- A gap in the numbers. -/
example : checkProcess ['b', ' ', '1', '\n', 'b', ' ', '3', '\n'] = some false := by decide

end DecentralizedBroadcast
