import DecentralizedBroadcast.Stack
import Mathlib.Data.List.Infix

/-! The output file of a stopped process, and the script that checks it. -/
set_option autoImplicit false

namespace DecentralizedBroadcast

def deconcatLoop (header messages : Str) : Nat → Nat → Except Fault (List Str)
  | 0, _ => pure []
  | i + 1, msgStart => do
      let msgEnd := (find messages 's' (msgStart + 1)).getD messages.length
      let text ← substr messages msgStart (msgEnd - msgStart)
      let rest ← deconcatLoop header messages i (msgEnd + 1)
      pure ((header ++ text) :: rest)

def deconcatEntry (msg : Str) : Except Fault (List Str) := do
  if msg.head? = some 'b' then
    let numMessages ← stoul (← substr msg 1 2)
    let messages ← substr msg 3 msg.length
    deconcatLoop ['b'] messages numMessages 0
  else if msg.head? = some 'd' then
    let header ← substr msg 0 7
    let numMessages ← stoul (← substr msg 7 2)
    let messages ← substr msg 9 msg.length
    deconcatLoop header messages numMessages 0
  else pure []

def deconcatMessages : List Str → Except Fault (List Str)
  | [] => pure []
  | msg :: log => do
      let messages ← deconcatEntry msg
      let rest ← deconcatMessages log
      pure (messages ++ rest)

def outputLine (message : Str) : Except Fault Str := do
  if message.head? = some 'd' then
    let msgProcessId ← stoi (← substr message 1 3)
    let _msgTargetId ← stoi (← substr message 4 3)
    let payload ← substr message 7 message.length
    pure (['d', ' '] ++ (intToString msgProcessId ++ (' ' :: (payload ++ ['\n']))))
  else if message.head? = some 'b' then
    let payload ← substr message 1 message.length
    pure (['b', ' '] ++ (payload ++ ['\n']))
  else pure []

def outputLines : List Str → Except Fault Str
  | [] => pure []
  | message :: messages => do
      let line ← outputLine message
      let rest ← outputLines messages
      pure (line ++ rest)

def getMessageLog (canReceive : Bool) (processLog : List Str) : List Str :=
  if canReceive then [] else processLog

def writeOutput (canReceive : Bool) (processLog : List Str) : Except Fault Str := do
  let log ← deconcatMessages (getMessageLog canReceive processLog)
  outputLines log

/-- The signal handler: `stopProcesses` ends receiving, then the output is written. -/
def stop (processLog : List Str) : Except Fault Str := writeOutput false processLog

/-- The lines of a text file as Python reads them, any kind of line end made a newline. -/
def fileLines : Str → Str → List Str
  | [], [] => []
  | [], cur => [cur]
  | '\n' :: rest, cur => (cur ++ ['\n']) :: fileLines rest []
  | '\r' :: '\n' :: rest, cur => (cur ++ ['\n']) :: fileLines rest []
  | '\r' :: rest, cur => (cur ++ ['\n']) :: fileLines rest []
  | c :: rest, cur => fileLines rest (cur ++ [c])

/-- What separates the words of `str.split()`: ASCII white space, the four ASCII separators
and the blanks of Unicode. -/
def pySpace (c : Char) : Bool :=
  isspace c || (0x1c ≤ c.toNat && c.toNat ≤ 0x1f) || c.toNat == 0x85 || c.toNat == 0xa0 ||
    c.toNat == 0x1680 || (0x2000 ≤ c.toNat && c.toNat ≤ 0x200a) || c.toNat == 0x2028 ||
    c.toNat == 0x2029 || c.toNat == 0x202f || c.toNat == 0x205f || c.toNat == 0x3000

def splitWords : Str → Str → List Str
  | [], cur => if cur = [] then [] else [cur]
  | c :: rest, cur =>
      if pySpace c then if cur = [] then splitWords rest [] else cur :: splitWords rest []
      else splitWords rest (cur ++ [c])

/-- The zeros of the decimal digits of Unicode 14, each with its nine others behind it. -/
def decimalZeros : List Nat := [
  0x30, 0x660, 0x6f0, 0x7c0, 0x966, 0x9e6, 0xa66, 0xae6, 0xb66, 0xbe6, 0xc66, 0xce6, 0xd66, 0xde6,
  0xe50, 0xed0, 0xf20, 0x1040, 0x1090, 0x17e0, 0x1810, 0x1946, 0x19d0, 0x1a80, 0x1a90, 0x1b50,
  0x1bb0, 0x1c40, 0x1c50, 0xa620, 0xa8d0, 0xa900, 0xa9d0, 0xa9f0, 0xaa50, 0xabf0, 0xff10, 0x104a0,
  0x10d30, 0x11066, 0x110f0, 0x11136, 0x111d0, 0x112f0, 0x11450, 0x114d0, 0x11650, 0x116c0, 0x11730,
  0x118e0, 0x11950, 0x11c50, 0x11d50, 0x11da0, 0x16a60, 0x16ac0, 0x16b50, 0x1d7ce, 0x1d7d8, 0x1d7e2,
  0x1d7ec, 0x1d7f6, 0x1e140, 0x1e2f0, 0x1e950, 0x1fbf0]

/-- A decimal digit of any script as the ASCII one; other characters stay. -/
def asciiDigit (c : Char) : Char :=
  match decimalZeros.find? fun z => z ≤ c.toNat && c.toNat ≤ z + 9 with
  | some z => Nat.digitChar (c.toNat - z)
  | none => c

/-- `int(token)` of Python 3.11: a sign, then at most 4300 decimal digits that single underscores
may part. -/
def pyInt (token : Str) : Option Int :=
  let (negative, body) := splitSign (token.map asciiDigit)
  let digits := body.filter (· ≠ '_')
  if digits ≠ [] ∧ digits.length ≤ 4300 ∧ digits.all Char.isDigit ∧ body.head? ≠ some '_' ∧
      body.getLast? ≠ some '_' ∧ ¬ ['_', '_'] <:+: body then
    some (if negative then -(Nat.ofDigitChars 10 digits 0 : Int) else Nat.ofDigitChars 10 digits 0)
  else none

/-- The loop of `checkProcess` over the lines left; `none` where Python raises an exception. -/
def checkLines : List Str → Int → (Int → Int) → Option Bool
  | [], _, _ => some true
  | line :: rest, i, nextMessage => do
      let tokens := splitWords line []
      let kind ← tokens[0]?
      if kind = ['b'] then
        let msg ← pyInt (← tokens[1]?)
        if msg ≠ i then some false else checkLines rest (i + 1) nextMessage
      else if kind = ['d'] then
        let sender ← pyInt (← tokens[1]?)
        let msg ← pyInt (← tokens[2]?)
        if msg ≠ nextMessage sender then some false
        else checkLines rest i (Function.update nextMessage sender (msg + 1))
      else checkLines rest i nextMessage

def checkProcess (file : Str) : Option Bool := checkLines (fileLines file []) 1 fun _ => 1

end DecentralizedBroadcast
