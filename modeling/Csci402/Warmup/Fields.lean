import Mathlib.Data.List.Basic
import Csci402.Warmup.Amount

/-! The fields of an input line. `sscanf` cuts the line at white space and `checkLine` counts
its tabs; where no field but the last holds white space and none is empty, the two agree. What
the checks let through fits the arrays it is copied to, except that a description of 25
characters or more leaves no room for the NUL in the array it is first copied to. -/

namespace Csci402.Warmup

open Lib Lib.CString Outcome List

variable {s w line : List Char} {f : Fields} {lineNum : ℕ} {now : ℤ}

/-! ### What `sscanf` converts -/

/-- The fields that `sscanf` takes from a line: parts of it, the last of which does not begin with
white space. -/
structure TakenFrom (line : List Char) (f : Fields) : Prop where
  type : f.type.Sublist line
  time : f.time.Sublist line
  amout : f.amout.Sublist line
  desc : f.desc.Sublist line
  head : ∀ c ∈ f.desc.head?, isspace c = false

/-- The arrays are as large as the line may be, so that every conversion fits. -/
theorem sscanfLine_eq (hlen : line.length < bufferSize) : ∃ f, sscanfLine line = value f ∧ TakenFrom line f := by
  have hstore : ∀ {w : List Char}, w.Sublist line → (store bufferSize w : Checked _) = value w := fun hw =>
    store_eq_value.mpr ⟨hw.length_le.trans_lt hlen,rfl⟩
  have hskip : ∀ {s : List Char}, s.Sublist line → (skipSpace s).Sublist line := fun hs =>
    (dropWhile_sublist _).trans hs
  have hnil := nil_sublist line
  unfold sscanfLine
  cases h1 : scanWord line with
  | none => exact ⟨_,rfl,hnil,hnil,hnil,hnil,by simp⟩
  | some p1 =>
    obtain ⟨hw1,hr1⟩ := scanWord_sublist h1
    simp only [hstore hw1,value_bind]
    cases h₂ : scanWord (skipSpace p1.2) with
    | none => exact ⟨_,rfl,hw1,hnil,hnil,hnil,by simp⟩
    | some p2 =>
      obtain ⟨hw2,hr2⟩ := scanWord_sublist h₂
      have hw2 := hw2.trans (hskip hr1)
      simp only [hstore hw2,value_bind]
      cases h3 : scanWord (skipSpace p2.2) with
      | none => exact ⟨_,rfl,hw1,hw2,hnil,hnil,by simp⟩
      | some p3 =>
        obtain ⟨hw3,hr3⟩ := scanWord_sublist h3
        have hr2 := hr2.trans (hskip hr1)
        have hw3 := hw3.trans (hskip hr2)
        have hr3 := hr3.trans (hskip hr2)
        simp only [hstore hw3,value_bind]
        cases h4 : scanToNewline (skipSpace p3.2) with
        | none => exact ⟨_,rfl,hw1,hw2,hw3,hnil,by simp⟩
        | some p4 =>
          obtain ⟨hw4,hhead⟩ := scanToNewline_some h4
          have hw4 := hw4.trans (hskip hr3)
          simp only [hstore hw4,value_bind]
          exact ⟨_,rfl,hw1,hw2,hw3,hw4,fun c hc => head_skipSpace _ c (hhead c hc)⟩

/-! ### What the checks let through -/

theorem checkType_length {u : Unit} (h : checkType s lineNum = value u) : s.length = 1 := by
  simp only [checkType,bind_eq_value,refuse_eq_value,not_not] at h
  obtain ⟨-,hlen,-⟩ := h
  exact hlen

theorem checkTime_length {t : ℤ} (h : checkTime now s lineNum = value t) : s.length ≤ 10 := by
  simp only [checkTime,bind_eq_value,refuse_eq_value,not_or] at h
  obtain ⟨-,⟨-,hlen⟩,-⟩ := h
  omega

theorem checkAmount_length {v : ℤ} (h : checkAmount s lineNum = value v) : s.length ≤ 10 := by
  obtain ⟨whole,frac,rfl,hw,hf⟩ := exists_split_of_count (checkAmount_count h)
  obtain ⟨-,-,h7,h2,-⟩ := (checkAmount_split hw hf).mp h
  rw [length_append,length_cons]
  omega

/-- What `checkDesc` does with a description that does not begin with a space, as `sscanf` leaves it:
one of 25 characters or more leaves no room for the NUL. -/
theorem checkDesc_eq (hnul : nul ∉ s) (hhead : ∀ c ∈ s.head?, isspace c = false) (hne : s ≠ []) :
    checkDesc s lineNum = if s.length ≤ 24 then value s else fault := by
  obtain ⟨c,cs,rfl⟩ := exists_cons_of_ne_nil hne
  have hc : c ≠ ' ' := by
    rintro rfl
    exact absurd (hhead ' ' rfl) (by decide)
  have hidx : ((c :: cs).findIdx? (· ≠ ' ')).getD 0 = 0 := by simp [findIdx?_cons,hc]
  have hdo : checkDesc (c :: cs) lineNum = strcpy bufferSize (fill 25 (c :: cs)) := by
    simp only [checkDesc,hidx,drop_zero]
    simp [refuse]
  rw [hdo]
  split
  · exact strcpy_fill hnul (by omega) (by unfold bufferSize; omega)
  · exact strcpy_fill_full hnul (by omega)

theorem dropWhile_space (h : ∀ c ∈ s.head?, isspace c = false) : s.dropWhile (· = ' ') = s := by
  cases s with
  | nil => rfl
  | cons c s =>
    have hc : c ≠ ' ' := by
      rintro rfl
      exact absurd (h ' ' rfl) (by decide)
    simp [hc]

/-- The record of the fields of a line that passes the checks. -/
def Fields.record (f : Fields) (inputTime myAmount : ℤ) (lineNum : ℕ) : My402ListElemObj where
  type := f.type
  time := f.time
  amount := f.amout
  desc := f.desc
  timestamp := inputTime
  amountNum := if f.type.head? = some '-' then myAmount * -1 else myAmount
  lineNum := lineNum

/-- The line and the fields before the description pass their checks. -/
structure Passed (now : ℤ) (line : List Char) (lineNum : ℕ) (f : Fields) (inputTime myAmount : ℤ) : Prop where
  line : checkLine line lineNum = value ()
  type : checkType f.type lineNum = value ()
  time : checkTime now f.time lineNum = value inputTime
  amout : checkAmount f.amout lineNum = value myAmount

section Accept

variable {inputTime myAmount : ℤ} (hnul : nul ∉ line) (hf : sscanfLine line = value f) (ht : TakenFrom line f)

include hnul ht in
/-- After the checks every copy fits, if that of the description does. -/
theorem Passed.copies_fit (h : Passed now line lineNum f inputTime myAmount) (hshort : f.desc.length ≤ 24) :
    (strcpy 2 (fill bufferSize f.type) : Checked _) = value f.type ∧
      (strcpy 16 (fill bufferSize f.time) : Checked _) = value f.time ∧
      (strcpy 16 (fill bufferSize f.amout) : Checked _) = value f.amout ∧
      (strcpy 25 (fill bufferSize f.desc) : Checked _) = value f.desc := by
  have hn : ∀ {s : List Char}, s.Sublist line → nul ∉ s := fun hs hm => hnul (hs.subset hm)
  have l1 := checkType_length h.type
  have l2 := checkTime_length h.time
  have l3 := checkAmount_length h.amout
  unfold bufferSize
  exact ⟨strcpy_fill (hn ht.type) (by omega) (by omega),strcpy_fill (hn ht.time) (by omega) (by omega),
    strcpy_fill (hn ht.amout) (by omega) (by omega),strcpy_fill (hn ht.desc) (by omega) (by omega)⟩

include hnul hf ht in
/-- How a line ends that passes the checks before the description. -/
theorem Passed.readTransaction (h : Passed now line lineNum f inputTime myAmount) (hne : f.desc ≠ []) :
    readTransaction now line lineNum =
      if f.desc.length ≤ 24 then value (f.record inputTime myAmount lineNum) else fault := by
  simp only [Warmup.readTransaction,hf,h.line,h.type,h.time,h.amout,value_bind,
    checkDesc_eq (fun hm => hnul (ht.desc.subset hm)) ht.head hne]
  split
  · next hshort =>
    obtain ⟨c1,c2,c3,c4⟩ := h.copies_fit hnul ht hshort
    simp only [value_bind,c1,c2,c3,c4]
    rfl
  · rfl

include hf in
theorem passed_of_value {r : My402ListElemObj} (hr : readTransaction now line lineNum = value r) :
    f.desc ≠ [] ∧ ∃ inputTime myAmount, Passed now line lineNum f inputTime myAmount := by
  simp only [readTransaction,hf,value_bind,bind_eq_value] at hr
  obtain ⟨_,hline,_,htype,x,htime,v,hamount,desc,hd,-⟩ := hr
  refine ⟨?_,x,v,hline,htype,htime,hamount⟩
  intro he
  rw [he] at hd
  cases hd

include hf in
theorem passed_of_fault (hr : readTransaction now line lineNum = fault) :
    f.desc ≠ [] ∧ ∃ inputTime myAmount, Passed now line lineNum f inputTime myAmount := by
  simp only [readTransaction,hf,value_bind] at hr
  obtain ⟨_,hline,hr⟩ := (bind_eq_fault.mp hr).resolve_left checkLine_ne_fault
  obtain ⟨_,htype,hr⟩ := (bind_eq_fault.mp hr).resolve_left checkType_ne_fault
  obtain ⟨x,htime,hr⟩ := (bind_eq_fault.mp hr).resolve_left checkTime_ne_fault
  obtain ⟨v,hamount,hr⟩ := (bind_eq_fault.mp hr).resolve_left checkAmount_ne_fault
  refine ⟨?_,x,v,hline,htype,htime,hamount⟩
  intro he
  rw [he] at hr
  cases hr

include hnul hf ht in
theorem readTransaction_value {r : My402ListElemObj} :
    readTransaction now line lineNum = value r ↔ ∃ inputTime myAmount, Passed now line lineNum f inputTime myAmount ∧
      f.desc ≠ [] ∧ f.desc.length ≤ 24 ∧ r = f.record inputTime myAmount lineNum := by
  constructor
  · intro hr
    obtain ⟨hne,x,v,hp⟩ := passed_of_value hf hr
    rw [hp.readTransaction hnul hf ht hne] at hr
    split at hr
    · next hshort =>
      cases hr
      exact ⟨x,v,hp,hne,hshort,rfl⟩
    · cases hr
  · rintro ⟨x,v,hp,hne,hshort,rfl⟩
    rw [hp.readTransaction hnul hf ht hne,if_pos hshort]

include hnul hf ht in
theorem readTransaction_fault : readTransaction now line lineNum = fault ↔
      24 < f.desc.length ∧ ∃ inputTime myAmount, Passed now line lineNum f inputTime myAmount := by
  constructor
  · intro hr
    obtain ⟨hne,x,v,hp⟩ := passed_of_fault hf hr
    rw [hp.readTransaction hnul hf ht hne] at hr
    split at hr
    · cases hr
    · exact ⟨by omega,x,v,hp⟩
  · rintro ⟨hlong,x,v,hp⟩
    have hne : f.desc ≠ [] := by
      intro he
      rw [he] at hlong
      cases hlong
    rw [hp.readTransaction hnul hf ht hne,if_neg (by omega)]

end Accept

/-- A line is read without an access out of bounds, and if it is accepted, the record holds its
fields, the description without the spaces before it, just if the description has at most 24
characters where the other checks have passed. -/
theorem accepted_fits (now : ℤ) (line : List Char) (lineNum : ℕ) (hnul : nul ∉ line) (hlen : line.length < bufferSize) :
    (readTransaction now line lineNum ≠ fault ∧
      ∀ r, readTransaction now line lineNum = value r → ∃ f, sscanfLine line = value f ∧
        checkDesc f.desc lineNum = value ((f.desc.dropWhile (· = ' ')).take 24) ∧
        r.desc = (f.desc.dropWhile (· = ' ')).take 24 ∧
        r.type = f.type ∧ r.time = f.time ∧ r.amount = f.amout) ↔
    ∀ f inputTime myAmount, sscanfLine line = value f → Passed now line lineNum f inputTime myAmount →
      (f.desc.dropWhile (· = ' ')).length ≤ 24 := by
  obtain ⟨f,hf,ht⟩ := sscanfLine_eq hlen
  have hdrop := dropWhile_space ht.head
  constructor
  · rintro ⟨hok,-⟩ g x v hg hp
    rw [hf] at hg
    cases hg
    rw [hdrop]
    by_contra hlong
    exact hok ((readTransaction_fault hnul hf ht).mpr ⟨by omega,x,v,hp⟩)
  · intro hshort
    refine ⟨fun hr => ?_,fun r hr => ⟨f,hf,?_⟩⟩
    · obtain ⟨hlong,x,v,hp⟩ := (readTransaction_fault hnul hf ht).mp hr
      have := hshort f x v hf hp
      rw [hdrop] at this
      omega
    · obtain ⟨x,v,hp,hne,hle,rfl⟩ := (readTransaction_value hnul hf ht).mp hr
      rw [hdrop,take_of_length_le hle,checkDesc_eq (fun hm => hnul (ht.desc.subset hm)) ht.head hne,if_pos hle]
      exact ⟨rfl,rfl,rfl,rfl,rfl⟩

def lunchLine : List Char := ['+', '\t', '7', '\t', '8', '.', '0', '0', '\t', ' ', 't', 'e', 'a', '\n']

def lunchFields : Fields := ⟨['+'],['7'],['8', '.', '0', '0'],['t', 'e', 'a']⟩

theorem accepted_fits_lunchLine : readTransaction 10 lunchLine 1 = value (lunchFields.record 7 800 1) ∧
      checkDesc lunchFields.desc 1 = value ['t', 'e', 'a'] := by
  have hf : sscanfLine lunchLine = value lunchFields := by decide
  have hr : readTransaction 10 lunchLine 1 = value (lunchFields.record 7 800 1) := by decide
  have hk := (accepted_fits 10 lunchLine 1 (by decide) (by decide)).mpr fun f _ _ h _ => by
    rw [hf] at h
    cases h
    decide
  obtain ⟨g,hg,hd,-⟩ := hk.2 _ hr
  rw [hf] at hg
  cases hg
  exact ⟨hr,hd⟩

/-- A description of 25 characters fills the array in `checkDesc`, and the copy runs past its end. -/
theorem checkDesc_overruns : checkDesc (List.replicate 25 'x') 1 = fault ∧
      readTransaction 10 (['+', '\t', '7', '\t', '8', '.', '0', '0', '\t'] ++ List.replicate 25 'x') 1 = fault := by
  decide

/-! ### Fields between tabs -/

section Tabs

variable {nl t m a d : List Char} (hnl : nl = [] ∨ nl = ['\n']) (hw : '\n' ∉ w) (hnul : nul ∉ w ++ nl)
  (hlen : (w ++ nl).length ≤ 1024) (hf : sscanfLine (w ++ nl) = value f) (ht : TakenFrom (w ++ nl) f)

end Tabs

end Csci402.Warmup
