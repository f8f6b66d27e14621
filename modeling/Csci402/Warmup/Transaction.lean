import Csci402.Lib.Outcome

/-! The input loop of `Warmup1/warmup1.c`: one line is split by `sscanf`, checked field by
field and copied into a record. A check ends the program with its message; a read or a write
past the end of an array is a fault. What `time(NULL)` returns is a parameter. -/

namespace Csci402.Warmup

open Lib Lib.CString

/-- The message of a check that fails: `line%d, field: %s, %s`. -/
structure Complaint where
  lineNum : ℕ
  field : String
  text : String
  deriving DecidableEq, Repr

/-- A check returns, calls `exit(1)` with its message, or accesses an array out of bounds. -/
abbrev Checked (α : Type) := Outcome Complaint α

open Outcome

/-! ### The checks -/

def checkLine (line : List Char) (lineNum : ℕ) : Checked Unit := do
  refuse (line.length > 1024) ⟨lineNum, "line", "the line length is larger than 1024."⟩
  refuse (line.count '\t' ≠ 3) ⟨lineNum, "line", "the line does not have exactly 4 fields."⟩

def checkType (type : List Char) (lineNum : ℕ) : Checked Unit := do
  refuse (type.length ≠ 1) ⟨lineNum, "type", "the type does not have only 1 char."⟩
  refuse (type.head? ≠ some '+' ∧ type.head? ≠ some '-') ⟨lineNum, "type", "the type should be + or -."⟩

def checkTime (now : ℤ) (myTime : List Char) (lineNum : ℕ) : Checked ℤ := do
  refuse (myTime.length < 1 ∨ myTime.length ≥ 11)
    ⟨lineNum, "time", "the time length should be >= 1 and <= 10."⟩
  refuse (myTime.any (!isdigit ·) = true) ⟨lineNum, "time", "the time has non-digit char."⟩
  refuse (myTime.head? = some '0') ⟨lineNum, "time", "the time first digit is 0."⟩
  let inputTime := atoll myTime
  refuse (inputTime < 0 ∨ inputTime > now) ⟨lineNum, "time", "the time should not < 0 or > curTime."⟩
  return atoll myTime

/-- The loop that looks for dots, from index `a` on: the index of the last dot and how many
there are. -/
def dotScan : List Char → ℕ → ℕ × ℕ → ℕ × ℕ
  | [], _, r => r
  | c :: cs, a, r => dotScan cs (a+1) (if c = '.' then (a, r.2+1) else r)

def checkAmount (amount : List Char) (lineNum : ℕ) : Checked ℤ := do
  refuse (amount.length < 1) ⟨lineNum, "amount", "the amount length should be > 0."⟩
  let dotIndex := (dotScan amount 0 (0, 0)).1
  let dotCount := (dotScan amount 0 (0, 0)).2
  refuse (dotCount ≠ 1) ⟨lineNum, "amount", "the amount does not have exactly only 1 dot."⟩
  refuse ((amount.take dotIndex).any (!isdigit ·) = true)
    ⟨lineNum, "amount", "the amount has non-digit char."⟩
  refuse ((amount.drop (dotIndex+1)).any (!isdigit ·) = true)
    ⟨lineNum, "amount", "the amount has non-digit char."⟩
  refuse (dotIndex > 7) ⟨lineNum, "amount", "the amount number before dot has more than 7 digits."⟩
  refuse ((amount.length : ℤ) - 1 - dotIndex ≠ 2)
    ⟨lineNum, "amount", "the amount number after dot does not have exactly only 2 digits."⟩
  -- both arrays have 16 characters
  let numPrevDot := amount.take dotIndex
  let numNextDot := (amount.drop (dotIndex+1)).take 16
  let numPrev := atoll numPrevDot
  let numNext := atoll numNextDot
  if numPrev > 0 ∨ numNext > 0 then
    refuse ((dotIndex : ℤ) - 1 ≠ 0 ∧ amount.head? = some '0')
      ⟨lineNum, "amount", "the amount non-zero has leading 0."⟩
  else
    exit ⟨lineNum, "amount", "the amount cannot be 0."⟩
  return numPrev*100+numNext

/-- The array of the caller has `bufferSize` characters; the description is rewritten in it. -/
def bufferSize : ℕ := 1050

def checkDesc (desc : List Char) (lineNum : ℕ) : Checked (List Char) := do
  refuse (desc.length < 1) ⟨lineNum, "desc", "the description length should be > 0."⟩
  let nonZeroIndex := (desc.findIdx? (· ≠ ' ')).getD 0
  refuse (nonZeroIndex ≥ desc.length) ⟨lineNum, "desc", "the description cannot be empty."⟩
  let temp := fill 25 (desc.drop nonZeroIndex)
  strcpy bufferSize temp

theorem checkLine_ne_fault {line : List Char} {lineNum : ℕ} : checkLine line lineNum ≠ fault :=
  bind_ne_fault refuse_ne_fault fun _ _ => refuse_ne_fault

theorem checkType_ne_fault {type : List Char} {lineNum : ℕ} : checkType type lineNum ≠ fault :=
  bind_ne_fault refuse_ne_fault fun _ _ => refuse_ne_fault

theorem checkTime_ne_fault {now : ℤ} {myTime : List Char} {lineNum : ℕ} : checkTime now myTime lineNum ≠ fault :=
  bind_ne_fault refuse_ne_fault fun _ _ => bind_ne_fault refuse_ne_fault fun _ _ =>
    bind_ne_fault refuse_ne_fault fun _ _ => bind_ne_fault refuse_ne_fault fun _ _ => nofun

theorem checkAmount_ne_fault {amount : List Char} {lineNum : ℕ} : checkAmount amount lineNum ≠ fault := by
  refine bind_ne_fault refuse_ne_fault fun _ _ => bind_ne_fault refuse_ne_fault fun _ _ =>
    bind_ne_fault refuse_ne_fault fun _ _ => bind_ne_fault refuse_ne_fault fun _ _ =>
    bind_ne_fault refuse_ne_fault fun _ _ => bind_ne_fault refuse_ne_fault fun _ _ => ?_
  dsimp only
  split
  · exact bind_ne_fault refuse_ne_fault fun _ _ => nofun
  · nofun

/-! ### A line of input -/

/-- The arrays that `sscanf` fills; one that it does not reach holds the empty string. -/
structure Fields where
  type : List Char := []
  time : List Char := []
  amout : List Char := []
  desc : List Char := []
  deriving DecidableEq, Repr

/-- `sscanf(inputLine, "%s %s %s %[^\n]", type, time, amout, desc)`: it ends at the first
conversion that fails. -/
def sscanfLine (inputLine : List Char) : Checked Fields :=
  match scanWord inputLine with
  | none => value {}
  | some (type, rest) => do
    let type ← store bufferSize type
    match scanWord (skipSpace rest) with
    | none => value { type }
    | some (time, rest) => do
      let time ← store bufferSize time
      match scanWord (skipSpace rest) with
      | none => value { type, time }
      | some (amout, rest) => do
        let amout ← store bufferSize amout
        match scanToNewline (skipSpace rest) with
        | none => value { type, time, amout }
        | some (desc, _) => do
          let desc ← store bufferSize desc
          value { type, time, amout, desc }

/-- The record of a transaction. The text of its date is not kept. -/
structure My402ListElemObj where
  type : List Char
  time : List Char
  amount : List Char
  desc : List Char
  timestamp : ℤ
  amountNum : ℤ
  lineNum : ℕ
  deriving DecidableEq, Repr

/-- The body of the input loop up to the append. The arrays that are copied hold the strings
that they were given, with the NULs that `memset` stored behind them. -/
def readTransaction (now : ℤ) (inputLine : List Char) (lineNum : ℕ) : Checked My402ListElemObj := do
  let f ← sscanfLine inputLine
  checkLine inputLine lineNum
  checkType f.type lineNum
  let inputTime ← checkTime now f.time lineNum
  let myAmount ← checkAmount f.amout lineNum
  let desc ← checkDesc f.desc lineNum
  let type ← strcpy 2 (fill bufferSize f.type)
  let time ← strcpy 16 (fill bufferSize f.time)
  let amount ← strcpy 16 (fill bufferSize f.amout)
  let desc ← strcpy 25 (fill bufferSize desc)
  return {
    type, time, amount, desc, lineNum
    timestamp := inputTime
    amountNum := if f.type.head? = some '-' then myAmount * -1 else myAmount }

end Csci402.Warmup
