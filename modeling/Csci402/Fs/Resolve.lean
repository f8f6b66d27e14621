import Csci402.Fs.Namev
import Csci402.Lib.Tally

/-! What path resolution does. `Took s t d` says that from `s` to `t` a call has gained the
references `d` (negative where it gave some up) and has used vnodes only while it owned a
reference to them. -/

namespace Csci402.Fs

open Lib Lib.Prog Option List

variable {F E : Type} {ops : Ops F E} {s t u : Vfs F} {d e : ℕ → ℤ} {v w pid limit fast n : ℕ} {p : List Char}

/-- The references that a call owns, by its events. -/
def own : List Event → ℕ → ℤ
  | [] => 0
  | .got v :: l => own l+Pi.single v 1
  | .put v :: l => own l - Pi.single v 1
  | _ :: l => own l

/-- Every vnode that is used is one to which a reference is owned. -/
def Safe : List Event → Prop
  | [] => True
  | .use v :: l => 0 < own l v ∧ Safe l
  | _ :: l => Safe l

/-- The files that have been created. -/
def created : List Event → List ℕ
  | [] => []
  | .made v :: l => v :: created l
  | _ :: l => created l

structure Took (s t : Vfs F) (d : ℕ → ℤ) : Prop where
  files : t.files = s.files
  procs : t.procs = s.procs
  next : t.nextFile = s.nextFile ∧ t.nextPid = s.nextPid
  refs : ∀ x, (t.refs x : ℤ) = s.refs x+d x
  owns : own t.trace = own s.trace+d
  safe : Safe s.trace → Safe t.trace

theorem Took.refl (s : Vfs F) : Took s s 0 :=
  ⟨rfl,rfl,⟨rfl,rfl⟩,fun x => by simp,by simp,id⟩

theorem Took.trans (h : Took s t d) (h' : Took t u e) : Took s u (d+e) where
  files := h'.files.trans h.files
  procs := h'.procs.trans h.procs
  next := ⟨h'.next.1.trans h.next.1,h'.next.2.trans h.next.2⟩
  refs x := by
    rw [h'.refs,h.refs,Pi.add_apply]
    omega
  owns := by rw [h'.owns,h.owns,add_assoc]
  safe hs := h'.safe (h.safe hs)

/-! ### The primitives -/

/-- What holds of a call that does nothing else: the file system stays, and nothing is made. -/
structure Quiet (s t : Vfs F) : Prop where
  fs : t.fs = s.fs
  made : created t.trace = created s.trace

theorem Quiet.refl (s : Vfs F) : Quiet s s := ⟨rfl,rfl⟩

theorem Quiet.trans (h : Quiet s t) (h' : Quiet t u) : Quiet s u := ⟨h'.fs.trans h.fs,h'.made.trans h.made⟩

variable {Q : Unit → Vfs F → Prop} {X : Vfs F → Prop}

theorem runs_gain (h : ∀ t, Took s t (Pi.single v 1) → Quiet s t → Q () t) : Runs Q X (gain v) s := by
  refine h _ ⟨rfl,rfl,⟨rfl,rfl⟩,fun x => ?_,rfl,id⟩ ⟨rfl,rfl⟩
  by_cases hx : x = v
  · subst hx
    simp
  · simp [hx]

theorem runs_vref (hv : 0 < s.refs v)
    (h : ∀ t, Took s t (Pi.single v 1) → Quiet s t → Q () t) : Runs Q X (vref v) s := by
  unfold vref
  rw [runs_bind,runs_get,runs_bind,runs_assert,if_pos hv]
  exact runs_gain h

theorem runs_vput (hv : 0 < s.refs v)
    (h : ∀ t, Took s t (-Pi.single v 1) → Quiet s t → Q () t) : Runs Q X (vput (some v)) s := by
  unfold vput dropRef
  simp only [runs_bind,runs_need_some,runs_get,runs_assert,if_pos hv,runs_modify,note]
  refine h _ ⟨rfl,rfl,⟨rfl,rfl⟩,fun x => ?_,sub_eq_add_neg _ _,id⟩ ⟨rfl,rfl⟩
  by_cases hx : x = v
  · subst hx
    simp only [Function.update_self,Pi.neg_apply,Pi.single_eq_same]
    omega
  · simp [hx]

theorem runs_useVnode (hv : 0 < own s.trace v) (h : ∀ t, Took s t 0 → Quiet s t → Q () t) : Runs Q X (useVnode v) s :=
  h _ ⟨rfl,rfl,⟨rfl,rfl⟩,fun x => by simp,by simp [own],fun hs => ⟨hv,hs⟩⟩ ⟨rfl,rfl⟩

/-- The call owns these references, and the vnodes have them. -/
structure Owns (s : Vfs F) (c : ℕ → ℤ) : Prop where
  own : ∀ x, c x ≤ own s.trace x
  refs : ∀ x, c x ≤ s.refs x

variable {c : ℕ → ℤ}

theorem Owns.took (h : Owns s c) (ht : Took s t d) : Owns t (c+d) where
  own x := by
    rw [ht.owns,Pi.add_apply,Pi.add_apply]
    have := h.own x
    omega
  refs x := by
    rw [ht.refs,Pi.add_apply]
    have := h.refs x
    omega

theorem Owns.refs_pos (h : Owns s c) (hv : 0 < c v) : 0 < s.refs v := by
  have := h.refs v
  omega

theorem Owns.own_pos (h : Owns s c) (hv : 0 < c v) : 0 < Fs.own s.trace v := by
  have := h.own v
  omega

theorem runs_lookup {Q : Except Errno ℕ → Vfs F → Prop} {dir : ℕ} {name : List Char}
    (herr : ∀ e, (ops.type dir ≠ .dir ∧ e = .enotdir ∨ ops.type dir = .dir ∧ ops.lookup s.fs dir name = .error e) →
      Q (.error e) s)
    (hok : ∀ v t, ops.type dir = .dir → ops.lookup s.fs dir name = .ok v → Took s t (Pi.single v 1) → Quiet s t →
      Q (.ok v) t) : Runs Q X (lookup ops dir (some name)) s := by
  unfold lookup
  rw [runs_bind,runs_need_some]
  split
  next hd =>
    exact herr _ (.inl ⟨hd,rfl⟩)
  next hd =>
    rw [not_ne_iff] at hd
    rw [runs_bind,runs_get]
    split
    next e he =>
      exact herr e (.inr ⟨hd,he⟩)
    next v hv =>
      rw [runs_bind]
      exact runs_gain fun t ht hq => hok v t hd hv ht hq

variable {cur : Option ℕ}

theorem tally_pos (h : cur = some v) : 0 < tally cur v := by
  rw [tally_apply,if_pos h]
  exact Int.one_pos

theorem runs_useIf (hown : Owns s (tally cur))
    (h : ∀ t, Took s t 0 → Quiet s t → Q () t) : Runs Q X (useIf cur) s := by
  cases cur with
  | none => exact h s (Took.refl s) (Quiet.refl s)
  | some v => exact runs_useVnode (hown.own_pos (tally_pos rfl)) h

theorem runs_vputIf (hcur : ∀ v, cur = some v → 0 < s.refs v) (h : ∀ t, Took s t (-tally cur) → Quiet s t → Q () t) :
    Runs Q X (vputIf cur) s := by
  cases cur with
  | none => exact h s (by simpa using Took.refl s) (Quiet.refl s)
  | some v => exact runs_vput (hcur v rfl) h

/-! ### Walking down a path -/

/-- Components are looked up one after another, as long as they are not too long. -/
def walk (ops : Ops F E) (f : F) : ℕ → List (List Char) → Except Errno ℕ
  | v, [] => .ok v
  | v, c :: cs =>
    if ops.nameLen < c.length then .error .enametoolong
    else if ops.type v ≠ .dir then .error .enotdir
    else match ops.lookup f v c with
      | .error e => .error e
      | .ok w => walk ops f w cs

/-- The first component is too long. -/
def FirstLong (ops : Ops F E) (cs : List (List Char)) : Prop := ∃ c ∈ cs.head?, ops.nameLen < c.length

/-- What the loop of `dir_namev` returns: the last vnode it has found, if there is one. -/
def walked (ops : Ops F E) (f : F) (b : ℕ) (cur : Option ℕ) (cs : List (List Char)) : Except Errno (ℕ × Option ℕ) :=
  (walk ops f b cs).map fun w => (w, if cs = [] then cur else some w)

/-- The references that the loop has gained when it is done. -/
def loopGain (cur : Option ℕ) : Except Errno (ℕ × Option ℕ) → ℕ → ℤ
  | .ok x => tally x.2 - tally cur
  | .error _ => -tally cur

variable {f : F}

theorem walked_cons {b : ℕ} {c : List Char} {cs : List (List Char)}
    (hc : ¬ ops.nameLen < c.length) (hd : ops.type b = .dir) (hw : ops.lookup f b c = .ok w) :
    walked ops f b cur (c :: cs) = walked ops f w (some w) cs := by
  have h : walk ops f b (c :: cs) = walk ops f w cs := by rw [walk,if_neg hc,if_neg (not_not.mpr hd),hw]
  rw [walked,walked,h]
  cases cs with
  | nil => rfl
  | cons c' cs => simp only [reduceCtorEq,if_false]

theorem dirLoop_spec (ops : Ops F E) (cur : Option ℕ) (b : ℕ) (hl : limit ≤ p.length) (hf : fast ≤ limit) (hfuel : limit - fast < n)
    (hns : fast < limit → charAt p fast ≠ '/') (hcur : Owns s (tally cur)) :
    Runs (fun r t => r = walked ops s.fs b cur (components (slice p fast limit)) ∧ Quiet s t ∧ Took s t (loopGain cur r))
      (fun t => cur = none ∧ t = s ∧ FirstLong ops (components (slice p fast limit)))
      (dirLoop ops p limit n fast b cur) s := by
  induction n generalizing fast b cur s with
  | zero => exact absurd hfuel (Nat.not_lt_zero _)
  | succ n ih =>
    unfold dirLoop
    by_cases hlt : fast < limit
    · rw [if_pos hlt]
      obtain ⟨h1,h2,hcs⟩ := components_name hlt hl (hns hlt)
      have hlen := length_slice (p := p) (Nat.le_of_lt h1) (Nat.le_trans h2 hl)
      rw [hcs]
      dsimp only
      by_cases hlong : scanName p limit fast - fast > ops.nameLen
      · rw [if_pos hlong]
        rw [← hlen] at hlong
        cases cur with
        | none => exact ⟨rfl,rfl,_,rfl,hlong⟩
        | some v =>
          rw [runs_bind]
          refine runs_vput (hcur.refs_pos (tally_pos rfl)) fun t ht hq => ⟨?_,hq,ht⟩
          rw [walked,walk,if_pos hlong]
          rfl
      · rw [if_neg hlong]
        rw [← hlen] at hlong
        rw [runs_bind]
        refine runs_useIf hcur fun s1 ht1 hq1 => ?_
        rw [runs_bind]
        refine runs_lookup (fun e he => ?_) fun w s2 hd hw ht2 hq2 => ?_
        · rw [runs_bind]
          have hown1 := hcur.took ht1
          rw [add_zero] at hown1
          refine runs_vputIf (fun v hv => hown1.refs_pos (tally_pos hv)) fun t ht hq => ⟨?_,hq1.trans hq,?_⟩
          · rw [walked,walk,if_neg hlong]
            rw [hq1.fs] at he
            rcases he with ⟨hd,rfl⟩ | ⟨hd,he⟩
            · rw [if_pos hd]
              rfl
            · rw [if_neg (not_not.mpr hd),he]
              rfl
          · have := ht1.trans ht
            rwa [zero_add] at this
        · rw [runs_bind]
          have hown2 := (hcur.took ht1).took ht2
          rw [add_zero] at hown2
          refine runs_vputIf (fun v hv => hown2.refs_pos ?_) fun s3 ht3 hq3 => ?_
          · rw [Pi.add_apply]
            have := tally_pos hv
            have : (0 : ℤ) ≤ (Pi.single w 1 : ℕ → ℤ) v := tally_nonneg (some w) v
            omega
          · have hown3 := hown2.took ht3
            rw [add_comm (tally cur),add_neg_cancel_right] at hown3
            obtain ⟨hs1,hs2,-,hs4⟩ := skipSlashes_spec p h2
            have ht := (ht1.trans ht2).trans ht3
            have hq := (hq1.trans hq2).trans hq3
            rw [hq1.fs] at hw
            refine (ih (some w) w hs2 (by omega) hs4 hown3).mono ?_ ?_
            · rintro r t ⟨hr,hq4,ht4⟩
              refine ⟨?_,hq.trans hq4,?_⟩
              · rw [hr,components_skip h2,hq.fs,walked_cons hlong hd hw]
              · have hsum := ht.trans ht4
                have he : 0+Pi.single w 1 + -tally cur+loopGain (some w) r = loopGain cur r := by
                  cases r with
                  | error e =>
                    simp only [loopGain,tally_some]
                    abel
                  | ok x =>
                    simp only [loopGain,tally_some]
                    abel
                rwa [he] at hsum
            · rintro t ⟨hc,-⟩
              cases hc
    · rw [if_neg hlt]
      obtain rfl : fast = limit := by omega
      have hnil : components (slice p fast fast) = [] := by rw [slice_self]; exact segments_nil
      rw [hnil]
      refine ⟨rfl,Quiet.refl s,?_⟩
      simpa [loopGain] using Took.refl s

/-! ### `dir_namev` -/

/-- The components before the last one. -/
def dirPart (p : List Char) : List (List Char) := components (slice p 0 (baseStart p - 1))

/-- What `dir_namev` returns, for a path from the vnode `start`. -/
def dirResult (ops : Ops F E) (f : F) (start : ℕ) (p : List Char) : Except Errno DirName :=
  if ops.nameLen < baseEnd p - baseStart p then .error .enametoolong
  else match walk ops f start (dirPart p) with
    | .error e => .error e
    | .ok v =>
      if ops.type v ≠ .dir then .error .enotdir
      else .ok ⟨baseEnd p - baseStart p,if 0 < baseEnd p - baseStart p then some (baseStart p) else none,v⟩

/-- The references that a call has gained when path resolution returns. -/
def gained {α : Type} (vnode : α → ℕ) : Except Errno α → ℕ → ℤ
  | .ok a => Pi.single (vnode a) 1
  | .error _ => 0

/-- Where `dir_namev` stops: at a first component that is too long, before a last one that is not. -/
def Overlong (ops : Ops F E) (p : List Char) : Prop :=
  baseEnd p - baseStart p ≤ ops.nameLen ∧ FirstLong ops (dirPart p)

/-- What path resolution takes for granted: there is the process, and resolution starts at a
directory to which there is a reference. -/
structure Ready (ops : Ops F E) (s : Vfs F) (pid : ℕ) (p : List Char) (base : Option ℕ) (start : ℕ) : Prop where
  proc : ∃ pr, s.procs pid = some pr ∧ start = startOf ops p base pr.pCwd
  dir : ops.type start = .dir
  refs : 0 < s.refs start
  owns : Owns s 0

theorem namelen_eq (p : List Char) : p.length - (trailing p p.length).2 - lastSlash p (trailing p p.length).1 =
    baseEnd p - baseStart p := by
  have h := trailing_sum p p.length
  change _ - _ - baseStart p = baseEnd p - baseStart p
  rw [show p.length - (trailing p p.length).2 = baseEnd p by unfold baseEnd; omega]

variable {base : Option ℕ} {start : ℕ}

theorem dirNamev_spec (h : Ready ops s pid p base start) :
    Runs (fun r t => r = dirResult ops s.fs start p ∧ Quiet s t ∧ Took s t (gained DirName.vnode r))
      (fun t => t = s ∧ Overlong ops p) (dirNamev ops pid p base) s := by
  obtain ⟨pr,hpr,hst⟩ := h.proc
  have hend := (baseEnd_spec p).1
  have hstart := (baseStart_spec p).1
  unfold dirNamev
  rw [runs_bind,runs_get,runs_bind,hpr,runs_need_some]
  dsimp only
  rw [namelen_eq,← hst,show lastSlash p (trailing p p.length).1 = baseStart p from rfl]
  by_cases hlong : ops.nameLen < baseEnd p - baseStart p
  · rw [if_pos hlong,runs_pure,dirResult,if_pos hlong]
    exact ⟨rfl,Quiet.refl s,Took.refl s⟩
  rw [if_neg hlong,runs_bind]
  obtain ⟨-,hs2,-,hs4⟩ := skipSlashes_spec p (Nat.zero_le (baseStart p - 1))
  have hloop := dirLoop_spec ops none start (n := p.length+1) (show baseStart p - 1 ≤ p.length by omega)
    hs2 (by omega) hs4 h.owns
  rw [components_skip (Nat.zero_le _),show components (slice p 0 (baseStart p - 1)) = dirPart p from rfl] at hloop
  refine hloop.mono ?_ fun t ht => ⟨ht.2.1,Nat.not_lt.mp hlong,ht.2.2⟩
  rintro r t ⟨rfl,hq,ht⟩
  rw [dirResult,if_neg hlong]
  cases hw : walk ops s.fs start (dirPart p) with
  | error e =>
    rw [walked,hw] at ht ⊢
    simp only [Except.map,loopGain,tally_none,neg_zero] at ht
    exact ⟨rfl,hq,ht⟩
  | ok v =>
    rw [walked,hw] at ht ⊢
    simp only [Except.map,loopGain,tally_none,sub_zero] at ht ⊢
    by_cases hnil : dirPart p = []
    · -- no lookup has been made
      obtain rfl : start = v := by
        rw [hnil] at hw
        exact Except.ok.inj hw
      rw [if_pos hnil] at ht ⊢
      rw [if_neg (not_not.mpr h.dir)]
      rw [runs_bind]
      have href : 0 < t.refs start := by
        have := ht.refs start
        have := h.refs
        simp at *
        omega
      refine runs_vref href fun u hu hqu => ⟨rfl,hq.trans hqu,?_⟩
      have := ht.trans hu
      simpa [gained] using this
    · rw [if_neg hnil] at ht ⊢
      have hown := h.owns.took ht
      rw [zero_add] at hown
      rw [runs_bind]
      refine runs_useVnode (hown.own_pos (tally_pos rfl)) fun u hu hqu => ?_
      have hown' := hown.took hu
      rw [add_zero] at hown'
      by_cases hd : ops.type v ≠ .dir
      · rw [if_pos hd,if_pos hd,runs_bind]
        refine runs_vput (hown'.refs_pos (tally_pos rfl)) fun u' hu' hqu' => ⟨rfl,(hq.trans hqu).trans hqu',?_⟩
        have := (ht.trans hu).trans hu'
        simpa [gained] using this
      · rw [if_neg hd,if_neg hd]
        refine ⟨rfl,hq.trans hqu,?_⟩
        have := ht.trans hu
        simpa [gained] using this

/-- With no vnode at hand, the loop stops at a first component that is too long. -/
theorem dirLoop_halts {b : ℕ} (hl : limit ≤ p.length) (hf : fast ≤ limit) (hns : fast < limit → charAt p fast ≠ '/')
    (hlong : FirstLong ops (components (slice p fast limit))) : Halts (dirLoop ops p limit (n+1) fast b none) s := by
  have hlt : fast < limit := by
    refine Nat.lt_of_le_of_ne hf fun he => ?_
    obtain ⟨c,hc,-⟩ := hlong
    rw [he,slice_self,show components [] = [] from segments_nil] at hc
    cases hc
  obtain ⟨h1,h2,hcs⟩ := components_name hlt hl (hns hlt)
  obtain ⟨c,hc,hlen⟩ := hlong
  rw [hcs] at hc
  cases hc
  rw [length_slice (Nat.le_of_lt h1) (Nat.le_trans h2 hl)] at hlen
  unfold dirLoop
  rw [if_pos hlt]
  dsimp only
  rw [if_pos hlen]
  trivial

theorem dirNamev_halts (hp : s.procs pid ≠ none) (h : Overlong ops p) : Halts (dirNamev ops pid p base) s := by
  obtain ⟨pr,hpr⟩ := ne_none_iff_exists'.mp hp
  have hend := (baseEnd_spec p).1
  have hstart := (baseStart_spec p).1
  unfold dirNamev Halts
  rw [runs_bind,runs_get,runs_bind,hpr,runs_need_some]
  dsimp only
  rw [namelen_eq,show lastSlash p (trailing p p.length).1 = baseStart p from rfl,if_neg (Nat.not_lt.mpr h.1)]
  obtain ⟨-,hs2,-,hs4⟩ := skipSlashes_spec p (Nat.zero_le (baseStart p - 1))
  refine Halts.bind (dirLoop_halts (by omega) hs2 hs4 ?_)
  rw [components_skip (Nat.zero_le _)]
  exact h.2

/-! ### What a call holds -/

/-- Since `s0`, where the call began, it has been given references to the vnodes in the list
and holds them still. -/
structure Holding (s0 s : Vfs F) (l : List ℕ) : Prop where
  took : Took s0 s (tallyList some l)
  start : Owns s0 0

variable {s0 : Vfs F} {l : List ℕ}

theorem Holding.owns (h : Holding s0 s l) : Owns s (tallyList some l) := by
  have := h.start.took h.took
  rwa [zero_add] at this

theorem Holding.pos (_ : Holding s0 s l) (hv : v ∈ l) : 0 < tallyList some l v := by
  have := tallyList_pos hv rfl
  omega

theorem Holding.step (h : Holding s0 s l) (ht : Took s t 0) : Holding s0 t l := by
  have := h.took.trans ht
  rw [add_zero] at this
  exact ⟨this,h.start⟩

theorem Holding.more (h : Holding s0 s l) (ht : Took s t (Pi.single v 1)) : Holding s0 t (v :: l) := by
  have := h.took.trans ht
  refine ⟨?_,h.start⟩
  rwa [tallyList_cons,tally_some,add_comm]

theorem Holding.less (h : Holding s0 s l) (hv : v ∈ l) (ht : Took s t (-Pi.single v 1)) : Holding s0 t (l.erase v) := by
  have := h.took.trans ht
  refine ⟨?_,h.start⟩
  rwa [tallyList_erase hv,tally_some,sub_eq_add_neg]

section Rules

variable {Q : Unit → Vfs F → Prop} {X : Vfs F → Prop} (h : Holding s0 s l)

include h

theorem Holding.runs_vput (hv : v ∈ l) (k : ∀ t, Holding s0 t (l.erase v) → Quiet s t → Q () t) :
    Runs Q X (vput (some v)) s :=
  Fs.runs_vput (h.owns.refs_pos (h.pos hv)) fun t ht hq => k t (h.less hv ht) hq

theorem Holding.runs_useVnode (hv : v ∈ l) (k : ∀ t, Holding s0 t l → Quiet s t → Q () t) : Runs Q X (useVnode v) s :=
  Fs.runs_useVnode (h.owns.own_pos (h.pos hv)) fun t ht hq => k t (h.step ht) hq

theorem Holding.runs_lookup {Q : Except Errno ℕ → Vfs F → Prop} {dir : ℕ} {name : List Char} (hd : ops.type dir = .dir)
    (herr : ∀ e, ops.lookup s.fs dir name = .error e → Q (.error e) s)
    (hok : ∀ v t, ops.lookup s.fs dir name = .ok v → Holding s0 t (v :: l) → Quiet s t → Q (.ok v) t) :
    Runs Q X (lookup ops dir (some name)) s := by
  refine Fs.runs_lookup (fun e he => herr e ?_) fun v t _ hv ht hq => hok v t hv (h.more ht) hq
  rcases he with ⟨hne,-⟩ | ⟨-,he⟩
  · exact absurd hd hne
  · exact he

theorem Holding.runs_create {Q : Except Errno ℕ → Vfs F → Prop} {dir : ℕ} {name : List Char} (hd : ops.type dir = .dir)
    (hv : dir ∈ l) (herr : ∀ e t, (ops.create s.fs dir name).2 = .error e → Holding s0 t l →
      created t.trace = created s.trace → Q (.error e) t)
    (hok : ∀ v t, (ops.create s.fs dir name).2 = .ok v → Holding s0 t (v :: l) → Q (.ok v) t) :
    Runs Q X (create ops dir (some name)) s := by
  unfold create
  rw [runs_bind]
  refine h.runs_useVnode hv fun t ht hq => ?_
  rw [runs_bind,runs_assert,if_pos hd,runs_bind,runs_need_some,runs_bind,runs_get,runs_bind,runs_modify,hq.fs]
  have hfs : Holding s0 { t with fs := (ops.create s.fs dir name).1 } l :=
    ⟨⟨ht.took.files,ht.took.procs,ht.took.next,ht.took.refs,ht.took.owns,ht.took.safe⟩,ht.start⟩
  split
  next e he =>
    exact herr e _ he hfs hq.made
  next v hv =>
    rw [runs_bind]
    refine runs_gain fun u hu _ => ?_
    obtain ⟨hm,hst⟩ := hfs.more hu
    exact hok v _ hv ⟨⟨hm.files,hm.procs,hm.next,hm.refs,hm.owns,hm.safe⟩,hst⟩

end Rules

theorem erase_pair (a b : ℕ) : [a,b].erase b = [a] := by
  by_cases h : a = b
  · subst h
    rw [erase_cons_head]
  · rw [erase_cons_tail (by simpa using h),erase_cons_head]

/-! ### `open_namev` -/

theorem dirResult_ok {d : DirName} (h : dirResult ops f start p = .ok d) :
    ops.type d.vnode = .dir ∧ d.namelen = baseEnd p - baseStart p ∧
      d.name = (if 0 < d.namelen then some (baseStart p) else none) ∧ walk ops f start (dirPart p) = .ok d.vnode ∧
      d.namelen ≤ ops.nameLen := by
  unfold dirResult at h
  split at h
  · cases h
  next hlen =>
    split at h
    · cases h
    next v hv =>
      split at h
      · cases h
      next hd =>
        cases h
        exact ⟨not_not.mp hd,rfl,rfl,hv,Nat.not_lt.mp hlen⟩

theorem dirResult_base {d : DirName} (h : dirResult ops f start p = .ok d) (hpos : d.namelen ≠ 0) :
    d.base p = some (slice p (baseStart p) (baseEnd p)) := by
  obtain ⟨-,hlen,hname,-⟩ := dirResult_ok h
  rw [DirName.base,hname,if_pos (Nat.pos_of_ne_zero hpos),map_some,hlen,Nat.add_sub_cancel' (baseStart_spec p).1]

/-- The vnodes that a call holds when path resolution returns. -/
def held {α : Type} (vnode : α → ℕ) : Except Errno α → List ℕ
  | .ok a => [vnode a]
  | .error _ => []

theorem dirNamev_holding (h : Ready ops s pid p base start) :
    Runs (fun r t => r = dirResult ops s.fs start p ∧ Quiet s t ∧ Holding s t (held DirName.vnode r))
      (fun t => t = s ∧ Overlong ops p) (dirNamev ops pid p base) s := by
  refine (dirNamev_spec h).mono ?_ fun t ht => ht
  rintro r t ⟨hr,hq,ht⟩
  refine ⟨hr,hq,?_,h.owns⟩
  cases r with
  | error e => simpa [gained,held] using ht
  | ok d => simpa [gained,held] using ht

/-- What `open_namev` returns. -/
def openResult (ops : Ops F E) (creat : Bool) (f : F) (start : ℕ) (p : List Char) : Except Errno ℕ :=
  match dirResult ops f start p with
  | .error e => .error e
  | .ok d => match d.base p with
    | none => .ok d.vnode
    | some name => match ops.lookup f d.vnode name with
      | .error e => if creat then (ops.create f d.vnode name).2 else .error e
      | .ok v => if charAt p (p.length - 1) = '/' ∧ ops.type v ≠ .dir then .error .enotdir else .ok v

/-- What `open_namev` does: it returns the vnode with a reference, or fails and leaves nothing behind. -/
structure Opened (ops : Ops F E) (creat : Bool) (start : ℕ) (p : List Char) (s : Vfs F) (r : Except Errno ℕ) (t : Vfs F) :
    Prop where
  holding : Holding s t (held id r)
  result : r = openResult ops creat s.fs start p
  made : ∀ e, r = .error e → created t.trace = created s.trace

section Open

variable {f : F} {start : ℕ} {creat : Bool} {d : DirName} (hdir : dirResult ops f start p = .ok d)

include hdir

theorem openResult_base (creat : Bool) (hpos : d.namelen ≠ 0) : openResult ops creat f start p =
    match ops.lookup f d.vnode (slice p (baseStart p) (baseEnd p)) with
    | .error e => if creat then (ops.create f d.vnode (slice p (baseStart p) (baseEnd p))).2 else .error e
    | .ok v => if charAt p (p.length - 1) = '/' ∧ ops.type v ≠ .dir then .error .enotdir else .ok v := by
  simp only [openResult,hdir,dirResult_base hdir hpos]

theorem openResult_nameless (hzero : d.namelen = 0) : openResult ops creat f start p = .ok d.vnode := by
  have hname := (dirResult_ok hdir).2.2.1
  rw [if_neg (by omega)] at hname
  simp only [openResult,hdir,DirName.base,hname,map_none]

end Open

theorem openNamev_spec {creat : Bool} (h : Ready ops s pid p base start) :
    Runs (Opened ops creat start p s) (fun t => t = s ∧ Overlong ops p) (openNamev ops pid p creat base) s := by
  unfold openNamev
  rw [runs_bind]
  refine (dirNamev_holding h).mono ?_ fun t ht => ht
  rintro r t ⟨hr,hq,ht⟩
  cases r with
  | error e => exact ⟨ht,by simp only [openResult,← hr],fun _ _ => hq.made⟩
  | ok d =>
    have hdir : dirResult ops s.fs start p = .ok d := hr.symm
    obtain ⟨hd,-⟩ := dirResult_ok hdir
    change Holding s t [d.vnode] at ht
    dsimp only
    by_cases hzero : d.namelen = 0
    · rw [if_pos hzero]
      exact ⟨ht,(openResult_nameless hdir hzero).symm,nofun⟩
    rw [if_neg hzero,runs_bind]
    have hresult := openResult_base hdir creat hzero
    refine ht.runs_useVnode (by simp) fun t1 ht1 hq1 => ?_
    have hfs : t1.fs = s.fs := hq1.fs.trans hq.fs
    rw [runs_bind,dirResult_base hdir hzero]
    refine ht1.runs_lookup hd (fun e he => ?_) fun v t2 hv ht2 hq2 => ?_
    · rw [hfs] at he
      rw [he] at hresult
      cases creat with
      | false =>
        simp only [Bool.false_eq_true,if_false]
        rw [runs_bind]
        refine ht1.runs_vput (by simp) fun u hu hqu => ⟨?_,hresult.symm,fun _ _ => ((hq.trans hq1).trans hqu).made⟩
        rwa [erase_cons_head] at hu
      | true =>
        simp only [if_true] at hresult ⊢
        rw [runs_bind]
        refine ht1.runs_create hd (by simp) (fun e t2 hc ht2 hm2 => ?_) fun v t2 hc ht2 => ?_
        · rw [runs_bind]
          rw [hfs,← hresult] at hc
          refine ht2.runs_vput (by simp) fun u hu hqu => ⟨?_,hc.symm,fun _ _ => ?_⟩
          · rwa [erase_cons_head] at hu
          · rw [hqu.made,hm2,(hq.trans hq1).made]
        · rw [runs_bind]
          rw [hfs,← hresult] at hc
          refine ht2.runs_vput (by simp) fun u hu hqu => ⟨?_,hc.symm,nofun⟩
          rwa [erase_pair] at hu
    · rw [runs_bind]
      rw [hfs] at hv
      rw [hv] at hresult
      dsimp only at hresult
      have hq2' := (hq.trans hq1).trans hq2
      have huse : Runs (fun _ t => Holding s t [v,d.vnode] ∧ Quiet s t) (fun t => t = s ∧ Overlong ops p)
          (useIf (if charAt p (p.length - 1) = '/' then some v else none)) t2 := by
        split
        · exact ht2.runs_useVnode (by simp) fun t ht hqt => ⟨ht,hq2'.trans hqt⟩
        · exact ⟨ht2,hq2'⟩
      refine huse.mono ?_ fun t ht => ht
      rintro - t3 ⟨ht3,hq3⟩
      split
      · next hslash =>
        rw [if_pos hslash] at hresult
        rw [runs_bind]
        refine ht3.runs_vput (by simp) fun t4 ht4 hq4 => ?_
        rw [erase_cons_head] at ht4
        rw [runs_bind]
        refine ht4.runs_vput (by simp) fun u hu hqu => ⟨?_,hresult.symm,fun _ _ => ((hq3.trans hq4).trans hqu).made⟩
        rwa [erase_cons_head] at hu
      · next hslash =>
        rw [if_neg hslash] at hresult
        rw [runs_bind]
        refine ht3.runs_vput (by simp) fun u hu hqu => ⟨?_,hresult.symm,nofun⟩
        rwa [erase_pair] at hu

end Csci402.Fs
