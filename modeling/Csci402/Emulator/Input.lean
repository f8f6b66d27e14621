import Mathlib.Data.Rat.Floor
import Mathlib.Tactic.Linarith
import Csci402.Lib.Outcome

/-! What `Warmup2/warmup2.c` accepts as input: the lines of a trace file and the command line,
with the periods that `init` computes from its rates. Numbers are exact: a rate is the decimal
number that is written, and `round` is applied to the exact quotient. -/

namespace Csci402.Emulator

open Lib Lib.CString Outcome Function List

/-- The options of the command line. -/
inductive Opt where
  | lambda | mu | r | B | P | num | tsfile
  deriving DecidableEq, Repr

/-- The messages before `printUsageAndExit`. -/
inductive Malformed where
  | tooLong (lineNum : ℕ)
  | leadingOrTrailing (lineNum : ℕ)
  | notAnOption (arg : List Char)
  | noValue (arg : List Char)
  | notInteger (o : Opt) (v : List Char)
  | notInRange (o : Opt) (v : List Char)
  | notNumber (o : Opt) (v : List Char)
  | cannotOpen (v : List Char)
  deriving DecidableEq, Repr

/-! ### Lines of a trace file -/

/-- A space or a tab. -/
def Blank (c : Char) : Prop := c = ' ' ∨ c = '\t'

instance (c : Char) : Decidable (Blank c) := inferInstanceAs (Decidable (_ ∨ _))

/-- The second index is read only if the first character is no blank. -/
def checkFileLine (fileLine : List Char) (lineNum : ℕ) : Outcome Malformed Unit := do
  refuse (fileLine.length > 1024) (.tooLong lineNum)
  let first ← access (charAt fileLine 0)
  refuse (Blank first) (.leadingOrTrailing lineNum)
  let last ← access (charAt fileLine ((fileLine.length : ℤ) - 2))
  refuse (Blank last) (.leadingOrTrailing lineNum)

/-- The line begins or ends with a blank. -/
def BlankEnds (w : List Char) : Prop := w.head?.any (Blank ·) = true ∨ w.getLast?.any (Blank ·) = true

instance (w : List Char) : Decidable (BlankEnds w) := inferInstanceAs (Decidable (_ ∨ _))

section FileLine

variable {w u : List Char} {a b c : Char} {lineNum : ℕ}

theorem refuse_or {ε : Type} (p q : Prop) [Decidable p] [Decidable q] (e : ε) :
    (refuse p e >>= fun _ => refuse q e) = refuse (p ∨ q) e := by
  unfold refuse
  by_cases hp : p
  · simp [hp]
  · simp [hp]

/-- The verdict on a line that is not too long, given the two characters that are read. -/
theorem checkFileLine_eq (hlen : w.length ≤ 1024) (ha : charAt w 0 = some a)
    (hb : charAt w ((w.length : ℤ) - 2) = some b) :
    checkFileLine w lineNum = refuse (Blank a ∨ Blank b) (.leadingOrTrailing lineNum) := by
  rw [← refuse_or,checkFileLine,ha,hb,refuse,if_neg (by omega)]
  rfl

theorem charAt_zero (ha : a ∈ w.head?) (u : List Char) : charAt (w ++ u) 0 = some a := by
  obtain ⟨w',rfl⟩ := head?_eq_some_iff.mp ha
  exact charAt_mid (s := []) rfl

/-- With a newline the last character of the text is read. -/
theorem checkFileLine_newline (lineNum : ℕ) (ha : a ∈ w.head?) (hb : b ∈ w.getLast?) (hlen : w.length+1 ≤ 1024) :
    checkFileLine (w ++ ['\n']) lineNum = refuse (Blank a ∨ Blank b) (.leadingOrTrailing lineNum) := by
  refine checkFileLine_eq (by simpa using hlen) (charAt_zero ha _) ?_
  obtain ⟨u,rfl⟩ := getLast?_eq_some_iff.mp hb
  rw [append_assoc,singleton_append]
  refine charAt_mid ?_
  rw [length_append,length_cons,length_singleton]
  omega

/-- Without one it is the last but one. -/
theorem checkFileLine_last (lineNum : ℕ) (ha : a ∈ (u ++ [b,c]).head?) (hlen : (u ++ [b,c]).length ≤ 1024) :
    checkFileLine (u ++ [b,c]) lineNum = refuse (Blank a ∨ Blank b) (.leadingOrTrailing lineNum) := by
  refine checkFileLine_eq hlen (by simpa using charAt_zero ha []) (charAt_mid ?_)
  rw [length_append,length_cons,length_singleton]
  omega

theorem blankEnds_iff (ha : a ∈ w.head?) (hb : b ∈ w.getLast?) : BlankEnds w ↔ Blank a ∨ Blank b := by
  rw [Option.mem_def] at ha hb
  simp [BlankEnds,ha,hb]

/-- A line whose first character is blank is refused for it. -/
theorem checkFileLine_blank (ha : a ∈ w.head?) (hblank : Blank a) (hlen : w.length ≤ 1024) :
    checkFileLine w lineNum = exit (.leadingOrTrailing lineNum) := by
  have hzero := charAt_zero ha []
  rw [append_nil] at hzero
  rw [checkFileLine,hzero,refuse,if_neg (by omega)]
  simp [access,refuse,hblank]

/-- Of a shorter one, a character in front of it is read. -/
theorem checkFileLine_short (hw : w.length ≤ 1) (ha : ¬w.head?.any (Blank ·) = true) : checkFileLine w lineNum = fault := by
  match w, hw with
  | [], _ => rfl
  | [a], _ =>
    have hblank : ¬Blank a := by simpa using ha
    simp [checkFileLine,charAt,access,refuse,hblank]
    rfl

theorem checkFileLine_long (h : 1024 < w.length) : checkFileLine w lineNum = exit (.tooLong lineNum) := by
  rw [checkFileLine,refuse,if_pos h]
  rfl

theorem checkFileLine_ne_fault (hw : 2 ≤ w.length) : checkFileLine w lineNum ≠ fault := by
  have hread : ∀ i : ℤ, 0 ≤ i → i ≤ w.length → (access (charAt w i) : Outcome Malformed Char) ≠ fault := by
    intro i h0 h1
    rw [charAt,if_pos ⟨h0,h1⟩]
    rintro ⟨⟩
  exact bind_ne_fault refuse_ne_fault fun _ _ => bind_ne_fault (hread _ (by omega) (by omega)) fun _ _ =>
    bind_ne_fault refuse_ne_fault fun _ _ => bind_ne_fault (hread _ (by omega) (by omega)) fun _ _ => refuse_ne_fault

/-- The verdict on a line depends on its text alone, and nothing outside of it is read. -/
structure Judged (w : List Char) (lineNum : ℕ) : Prop where
  verdict : w.length+1 ≤ 1024 → ∀ line ∈ [w,w ++ ['\n']], checkFileLine line lineNum =
    if BlankEnds w then exit (.leadingOrTrailing lineNum) else value ()
  tooLong : ∀ line ∈ [w,w ++ ['\n']], 1024 < line.length → checkFileLine line lineNum = exit (.tooLong lineNum)
  inside : ∀ line ∈ [w,w ++ ['\n']], checkFileLine line lineNum ≠ fault

/-- Where both verdicts are given by the text, nothing else is to be shown. -/
theorem judged_of_verdict (h : ∀ line ∈ [w,w ++ ['\n']], checkFileLine line lineNum =
    if BlankEnds w then exit (.leadingOrTrailing lineNum) else value ()) (hlen : w.length+1 ≤ 1024) :
    Judged w lineNum := by
  refine ⟨fun _ => h,fun line hline hlong => ?_,fun line hline => ?_⟩
  · simp only [mem_cons,not_mem_nil,or_false] at hline
    rcases hline with rfl | rfl
    · omega
    · simp only [length_append,length_singleton] at hlong
      omega
  · rw [h line hline]
    split <;> exact nofun

/-- Of a line with two characters the last but one is read without a newline, and the last with it. -/
theorem judged_two (ha : a ∈ (u ++ [b,c]).head?) (hlen : (u ++ [b,c]).length+1 ≤ 1024) :
    Judged (u ++ [b,c]) lineNum ↔ Blank a ∨ (Blank b ↔ Blank c) := by
  have hlast : c ∈ (u ++ [b,c]).getLast? := by simp
  have h1 := checkFileLine_last lineNum ha (by omega)
  have h2 := checkFileLine_newline lineNum ha hlast hlen
  have hends := blankEnds_iff ha hlast
  rw [refuse] at h1 h2
  constructor
  · intro h
    have he := (h.verdict hlen _ (by simp)).symm.trans h1
    by_contra hnot
    rw [not_or] at hnot
    simp only [hends,hnot.1,false_or] at he
    refine hnot.2 ⟨fun hb => ?_,fun hc => ?_⟩
    · by_contra hc
      rw [if_neg hc,if_pos hb] at he
      cases he
    · by_contra hb
      rw [if_pos hc,if_neg hb] at he
      cases he
  · intro h
    refine judged_of_verdict (fun line hline => ?_) hlen
    simp only [hends]
    simp only [mem_cons,not_mem_nil,or_false] at hline
    rcases hline with rfl | rfl
    · rw [h1]
      exact if_congr (by tauto) rfl rfl
    · exact h2

/-- The text of a line decides just if it begins with a blank, or is too long for a newline, or has two
characters at its end of which both are blank or both not. -/
theorem checkFileLine_judges (w : List Char) (lineNum : ℕ) :
    Judged w lineNum ↔ w.head?.any (Blank ·) = true ∨ 1024 ≤ w.length ∨
      ∃ u b c, w = u ++ [b,c] ∧ (Blank b ↔ Blank c) := by
  by_cases hlen : 1024 ≤ w.length
  · refine iff_of_true ⟨fun h => by omega,fun line _ => checkFileLine_long,fun line hline => ?_⟩ (.inr (.inl hlen))
    refine checkFileLine_ne_fault ?_
    simp only [mem_cons,not_mem_nil,or_false] at hline
    rcases hline with rfl | rfl
    · omega
    · rw [length_append]
      omega
  · by_cases htwo : 2 ≤ w.length
    · obtain ⟨u,b,c,rfl⟩ : ∃ u b c, w = u ++ [b,c] := by
        obtain ⟨b,c,hbc⟩ := length_eq_two.mp (by simp; omega : (w.drop (w.length - 2)).length = 2)
        exact ⟨w.take (w.length - 2),b,c,by rw [← hbc,take_append_drop]⟩
      obtain ⟨a,ha⟩ : ∃ a, a ∈ (u ++ [b,c]).head? := ⟨_,head?_eq_some_head (by simp)⟩
      rw [judged_two ha (by omega),Option.mem_def.mp ha]
      simp only [Option.any_some,decide_eq_true_eq,hlen,false_or]
      refine or_congr_right ⟨fun h => ⟨u,b,c,rfl,h⟩,?_⟩
      rintro ⟨u',b',c',he,h⟩
      obtain ⟨-,he⟩ := append_inj' he rfl
      cases he
      exact h
    · have hno : ¬∃ u b c, w = u ++ [b,c] ∧ (Blank b ↔ Blank c) := by
        rintro ⟨u,b,c,rfl,-⟩
        simp at htwo
      simp only [hno,hlen,or_false]
      by_cases ha : w.head?.any (Blank ·) = true
      · refine iff_of_true (judged_of_verdict (fun line hline => ?_) (by omega)) ha
        obtain ⟨a,hmem,hblank⟩ := (Option.any_eq_true _ _).mp ha
        rw [if_pos (.inl ha)]
        simp only [mem_cons,not_mem_nil,or_false] at hline
        rcases hline with rfl | rfl
        · exact checkFileLine_blank hmem (by simpa using hblank) (by omega)
        · refine checkFileLine_blank (a := a) ?_ (by simpa using hblank) (by simp; omega)
          rw [head?_append,hmem]
          rfl
      · exact iff_of_false (fun h => h.inside w (by simp) (checkFileLine_short (by omega) ha)) ha

/-- A blank at the end of the last line is not noticed, and of an empty line a character in front of
it is read. -/
theorem checkFileLine_newline_assumed : checkFileLine ['1', '2', ' '] 2 = value () ∧
      checkFileLine ['1', '2', ' ', '\n'] 2 = exit (.leadingOrTrailing 2) ∧ checkFileLine ['\n'] 2 = fault := by
  decide

end FileLine

/-! ### The command line -/

def Opt.name : Opt → List Char
  | .lambda => "-lambda".toList
  | .mu => "-mu".toList
  | .r => "-r".toList
  | .B => "-B".toList
  | .P => "-P".toList
  | .num => "-n".toList
  | .tsfile => "-t".toList

/-- The option that an argument names. -/
def optionOf (arg : List Char) : Option Opt :=
  [Opt.lambda,.mu,.r,.B,.P,.num,.tsfile].find? fun o => o.name = arg

def isValidOption (arg : List Char) : Bool := (optionOf arg).isSome

def isInteger (v : List Char) : Bool := v.all isdigit

/-- `none` where a character in front of the argument is read. -/
def isNumber (v : List Char) : Option Bool :=
  if v.any (fun c => c ≠ '.' && !isdigit c) then some false
  else if v.count '.' > 1 then some false
  else (charAt v ((v.length : ℤ) - 1)).map (· ≠ '.')

/-- The check of one option; `opens` says which files can be opened. -/
def checkOption (opens : List Char → Bool) (o : Opt) (v : List Char) : Outcome Malformed Unit :=
  match o with
  | .B | .P | .num => do
    refuse (isInteger v = false) (.notInteger o v)
    refuse (atoll v ≤ 0 ∨ atoll v > 2147483647) (.notInRange o v)
  | .lambda | .mu | .r => do
    let isNum ← access (isNumber v)
    refuse (isNum = false) (.notNumber o v)
  | .tsfile => refuse (opens v = false) (.cannotOpen v)

/-- The loop over the arguments, with the values given so far; the last one of an option counts. -/
def checkInput (opens : List Char → Bool) :
    List (List Char) → (Opt → Option (List Char)) → Outcome Malformed (Opt → Option (List Char))
  | [], opts => value opts
  | [arg], _ => if isValidOption arg then exit (.noValue arg) else exit (.notAnOption arg)
  | arg :: v :: rest, opts =>
    match optionOf arg with
    | none => exit (.notAnOption arg)
    | some o => do
      refuse (isValidOption v = true) (.noValue arg)
      checkOption opens o v
      checkInput opens rest (update opts o (some v))

/-- The value that the arguments give last for an option. -/
def lastGiven : List (List Char) → Opt → Option (List Char)
  | arg :: v :: rest, o => (lastGiven rest o).or (if arg = o.name then some v else none)
  | _, _ => none

/-- `atof` of digits with at most one dot among them. -/
def atof (v : List Char) : ℚ :=
  let whole := v.takeWhile isdigit
  let frac := ((v.dropWhile isdigit).drop 1).takeWhile isdigit
  number whole+number frac / 10 ^ frac.length

/-- The rates after `setDefault` and `readInput`. -/
def lambda (opts : Opt → Option (List Char)) : ℚ := ((opts .lambda).map atof).getD 1

def mu (opts : Opt → Option (List Char)) : ℚ := ((opts .mu).map atof).getD (35 / 100)

def r (opts : Opt → Option (List Char)) : ℚ := ((opts .r).map atof).getD (3 / 2)

/-- `round`: to the nearest integer, halves away from zero. -/
def cround (q : ℚ) : ℤ := if 0 ≤ q then ⌊q+1 / 2⌋ else -⌊-q+1 / 2⌋

/-- The period in microseconds that `init` computes for a rate: `none` where it divides by zero or
converts what a `long long` cannot hold. -/
def period (rate : ℚ) : Option ℤ :=
  if rate = 0 then none else
    let t := cround (1 / rate*1000)*1000
    if -2 ^ 63 ≤ t ∧ t < 2 ^ 63 then some (min t (10*1000000)) else none

section Rates

variable {opens : List Char → Bool} {args : List (List Char)} {opts opts' : Opt → Option (List Char)} {rate : ℚ}

/-- The rates that were given are written as numbers. -/
def NumbersGiven (opts : Opt → Option (List Char)) : Prop :=
  ∀ o, o = .lambda ∨ o = .mu ∨ o = .r → ∀ v ∈ opts o, isNumber v = some true

theorem checkOption_number {o : Opt} {v : List Char} {u : Unit} (ho : o = .lambda ∨ o = .mu ∨ o = .r)
    (h : checkOption opens o v = value u) : isNumber v = some true := by
  rcases ho with rfl | rfl | rfl
  all_goals
    simp only [checkOption,bind_eq_value,refuse_eq_value,Bool.not_eq_false] at h
    obtain ⟨b,hb,rfl⟩ := h
    cases hn : isNumber v with
    | none =>
      rw [hn] at hb
      cases hb
    | some b =>
      rw [hn] at hb
      cases hb
      rfl

theorem numbersGiven_of_checkInput (h : checkInput opens args opts = value opts') (hopts : NumbersGiven opts) :
    NumbersGiven opts' := by
  induction args, opts using checkInput.induct with
  | case1 opts =>
    cases h
    exact hopts
  | case2 arg opts ho =>
    rw [checkInput,if_pos ho] at h
    cases h
  | case3 arg opts ho =>
    rw [checkInput,if_neg ho] at h
    cases h
  | case4 arg v rest opts ho =>
    rw [checkInput,ho] at h
    cases h
  | case5 arg v rest opts o ho ih =>
    rw [checkInput,ho] at h
    simp only [bind_eq_value] at h
    obtain ⟨_,-,_,hcheck,h⟩ := h
    refine ih h fun o' ho' v' hv' => ?_
    by_cases he : o' = o
    · subst he
      rw [update_self] at hv'
      cases hv'
      exact checkOption_number ho' hcheck
    · rw [update_of_ne he] at hv'
      exact hopts o' ho' v' hv'

theorem optionOf_name {arg : List Char} {o : Opt} (h : optionOf arg = some o) : arg = o.name := by
  simpa [eq_comm] using find?_some h

theorem Opt.name_injective {o o' : Opt} (h : o.name = o'.name) : o = o' := by
  revert h
  cases o <;> cases o' <;> decide

/-- What an accepted command line gives last counts. -/
theorem checkInput_lastGiven (h : checkInput opens args opts = value opts') (o : Opt) :
    opts' o = (lastGiven args o).or (opts o) := by
  induction args, opts using checkInput.induct with
  | case1 opts =>
    cases h
    rfl
  | case2 arg opts ho =>
    rw [checkInput,if_pos ho] at h
    cases h
  | case3 arg opts ho =>
    rw [checkInput,if_neg ho] at h
    cases h
  | case4 arg v rest opts ho =>
    rw [checkInput,ho] at h
    cases h
  | case5 arg v rest opts o' ho ih =>
    rw [checkInput,ho] at h
    simp only [bind_eq_value] at h
    obtain ⟨_,-,_,-,h⟩ := h
    rw [ih h,lastGiven,optionOf_name ho,Option.or_assoc]
    by_cases he : o = o'
    · subst he
      simp
    · rw [update_of_ne he,if_neg fun hn => he (Opt.name_injective hn).symm,Option.none_or]

theorem isNumber_isSome {v : List Char} (hv : v ≠ []) : (isNumber v).isSome := by
  obtain ⟨u,c,rfl⟩ := eq_nil_or_concat v |>.resolve_left hv
  have hlast : charAt (u ++ [c]) (((u ++ [c]).length : ℤ) - 1) = some c := charAt_mid (by simp)
  rw [concat_eq_append]
  unfold isNumber
  split
  · rfl
  · split
    · rfl
    · rw [hlast]
      rfl

/-- The rates with a period that is defined and in its range. -/
theorem period_iff : (0 < rate ∧ ∃ t, period rate = some t ∧ 0 ≤ t ∧ t ≤ 10 ^ 7) ↔ 2000 / 18446744073709551 < rate := by
  have hround : ∀ hpos : 0 < rate, cround (1 / rate*1000) ≤ 9223372036854775 ↔ 2000 / 18446744073709551 < rate := by
    intro hpos
    rw [cround,if_pos (by positivity),← Int.lt_add_one_iff,Int.floor_lt,← sub_pos,div_lt_iff₀ (by norm_num)]
    rw [show ((9223372036854775+1 : ℤ) : ℚ) - (1 / rate*1000+1 / 2) =
      (rate*18446744073709551 - 2000) / (2*rate) by field_simp; push_cast; ring]
    rw [div_pos_iff_of_pos_right (by positivity),sub_pos]
  have hnonneg : 0 < rate → 0 ≤ cround (1 / rate*1000) := by
    intro hpos
    have hq : 0 ≤ 1 / rate*1000 := by positivity
    rw [cround,if_pos hq]
    exact Int.floor_nonneg.mpr (by linarith)
  constructor
  · rintro ⟨hpos,t,ht,-⟩
    rw [period,if_neg hpos.ne'] at ht
    simp only [Option.ite_none_right_eq_some] at ht
    exact (hround hpos).mp (by omega)
  · intro h
    have hpos : 0 < rate := lt_trans (by norm_num) h
    have h0 := hnonneg hpos
    have h1 := (hround hpos).mpr h
    refine ⟨hpos,min (cround (1 / rate*1000)*1000) (10*1000000),?_,by omega,by omega⟩
    rw [period,if_neg hpos.ne']
    exact if_pos (by omega)

/-- On a command line that is accepted all rates are positive and the periods defined and at most ten
seconds, just if no rate that it gives last is too small; and only of the empty string `isNumber` reads
a character that is not in it. -/
theorem rates_usable (opens : List Char → Bool) (args : List (List Char)) (opts : Opt → Option (List Char))
    (h : checkInput opens args (fun _ => none) = value opts) :
    ((∀ rate ∈ [lambda opts,mu opts,r opts], 0 < rate ∧ ∃ t, period rate = some t ∧ 0 ≤ t ∧ t ≤ 10 ^ 7) ↔
      ∀ o, o = .lambda ∨ o = .mu ∨ o = .r → ∀ v ∈ lastGiven args o, 2000 / 18446744073709551 < atof v) ∧
    NumbersGiven opts ∧ ∀ v : List Char, (isNumber v).isSome ↔ v ≠ [] := by
  have hrate : ∀ o, ∀ d : ℚ, 2000 / 18446744073709551 < d → (2000 / 18446744073709551 < ((opts o).map atof).getD d ↔
      ∀ v ∈ lastGiven args o, 2000 / 18446744073709551 < atof v) := by
    intro o d hd
    rw [checkInput_lastGiven h o,Option.or_none]
    cases lastGiven args o with
    | none => simp [hd]
    | some v => simp
  refine ⟨?_,numbersGiven_of_checkInput h (fun _ _ _ hv => by cases hv),fun v => ⟨?_,isNumber_isSome⟩⟩
  · simp only [forall_mem_cons,period_iff,lambda,mu,r]
    rw [hrate .lambda _ (by norm_num),hrate .mu _ (by norm_num),hrate .r _ (by norm_num)]
    simp
  · rintro hv rfl
    cases hv

theorem rates_usable_half :
    ∃ opts, checkInput (fun _ => false) ["-lambda".toList, "0.5".toList] (fun _ => none) = value opts ∧
      lambda opts = 1 / 2 ∧ ∃ t, period (lambda opts) = some t ∧ 0 ≤ t ∧ t ≤ 10 ^ 7 := by
  have hv : atof "0.5".toList = 1 / 2 := by decide +kernel
  have h : checkInput (fun _ => false) ["-lambda".toList, "0.5".toList] (fun _ => none) =
      value (update (fun _ => none) Opt.lambda (some "0.5".toList)) := rfl
  refine ⟨_,h,hv,?_⟩
  refine ((rates_usable _ _ _ h).1.mpr (fun o ho v hm => ?_) _ (by simp)).2
  rcases ho with rfl | rfl | rfl
  · cases hm
    rw [hv]
    norm_num
  · cases hm
  · cases hm

/-- A rate of zero is accepted, and so is one whose period does not fit; and of the empty string a
character in front of it is read. -/
theorem rates_not_usable :
    (∃ opts, checkInput (fun _ => false) ["-lambda".toList, "0".toList, "-mu".toList, "0.0000000000000001".toList]
        (fun _ => none) = value opts ∧ lambda opts = 0 ∧ period (lambda opts) = none ∧ 0 < mu opts ∧
        period (mu opts) = none) ∧
      isNumber [] = none := by
  refine ⟨⟨_,rfl,?_⟩,rfl⟩
  decide +kernel

end Rates

end Csci402.Emulator
