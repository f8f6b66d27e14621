import Csci402.Fs.PathNames
import Csci402.Fs.Syscalls

/-! A logic for the calls on paths. A ledger keeps the list of the vnodes to which a call
holds a reference, with a contract for each thing a call does with them; the calls are
followed once, for every ledger. -/

namespace Csci402.Fs

open Lib Lib.Prog Option List

variable {F E : Type}

/-- `holds s l` is what is known while the call holds `l`, `stops` what is known where it
stops; it may stop where `mayStop` is true. `found p d` is what is known of a result of
`dir_namev`. -/
structure Ledger (ops : Ops F E) (pid : ℕ) where
  holds : Vfs F → List ℕ → Prop
  stops : Vfs F → Prop
  mayStop : Prop
  found : List Char → DirName → Prop
  halt {s : Vfs F} {l : List ℕ} : holds s l → mayStop → stops s
  put {s : Vfs F} {l : List ℕ} {v : ℕ} : holds s l → v ∈ l →
    Runs (fun _ t => holds t (l.erase v)) stops (vput (some v)) s
  use {s : Vfs F} {l : List ℕ} {v : ℕ} : holds s l → v ∈ l → Runs (fun _ t => holds t l) stops (useVnode v) s
  look {s : Vfs F} {l : List ℕ} {dir : ℕ} {name : List Char} : holds s l →
    Runs (fun r t => holds t (held id r ++ l)) stops (lookup ops dir (some name)) s
  make {s : Vfs F} {l : List ℕ} {dir : ℕ} {name : List Char} : holds s l → dir ∈ l → (ops.type dir ≠ .dir → mayStop) →
    Runs (fun r t => holds t (held id r ++ l)) stops (create ops dir (some name)) s
  act {s : Vfs F} {l : List ℕ} {dir : ℕ} {name : List Char} {op : F → ℕ → List Char → F × ℤ} : holds s l → dir ∈ l →
    (ops.type dir ≠ .dir → mayStop) → Runs (fun _ t => holds t l) stops (dirOp ops dir (some name) op) s
  walk {s : Vfs F} {l : List ℕ} {p : List Char} : holds s l → (Overlong ops p → mayStop) →
    Runs (fun r t => holds t (held DirName.vnode r ++ l) ∧ ∀ d, r = .ok d → found p d) stops (dirNamev ops pid p none) s
  dir {p : List Char} {d : DirName} : found p d → ops.type d.vnode ≠ .dir → mayStop
  named {p : List Char} {d : DirName} : found p d → d.namelen ≠ 0 → d.base p = none → mayStop
  nameless {p : List Char} {d : DirName} : found p d → components p = [] → d.namelen ≠ 0 → mayStop

namespace Ledger

variable {ops : Ops F E} {pid : ℕ} (L : Ledger ops pid) {s : Vfs F} {l : List ℕ} {p q : List Char} {v w : ℕ} {d : DirName}

/-- The path has a last component wherever one is needed. -/
def Named (p : List Char) : Prop := ∀ d, L.found p d → d.base p = none → L.mayStop

variable {L}

/-! ### Derived rules -/

theorem dirOp_base (h : L.holds s l) (hv : v ∈ l) (hd : ops.type v ≠ .dir → L.mayStop) {name : Option (List Char)}
    (hname : name ≠ none) {op : F → ℕ → List Char → F × ℤ} :
    Runs (fun _ t => L.holds t l) L.stops (dirOp ops v name op) s := by
  cases name with
  | none => exact absurd rfl hname
  | some name => exact L.act h hv hd

theorem put_head {α : Type} {a : α} (h : L.holds s (v :: l)) :
    Runs (fun x t => x = a ∧ L.holds t l) L.stops (do vput (some v); return a) s := by
  refine (L.put h (by simp)).seq fun _ t ht => ⟨rfl,?_⟩
  rwa [erase_cons_head] at ht

/-- Both vnodes are put, the last one first. -/
theorem put_two {α : Type} {a : α} (h : L.holds s (v :: w :: l)) :
    Runs (fun x t => x = a ∧ L.holds t l) L.stops (do vput (some v); vput (some w); return a) s := by
  refine (L.put h (by simp)).seq fun _ t ht => put_head ?_
  rwa [erase_cons_head] at ht

/-- The vnode under the last one is put. -/
theorem put_under {α : Type} {a : α} (h : L.holds s (v :: w :: l)) :
    Runs (fun x t => x = a ∧ L.holds t (v :: l)) L.stops (do vput (some w); return a) s := by
  refine (L.put h (by simp)).seq fun _ t ht => ⟨rfl,?_⟩
  by_cases hvw : v = w
  · subst hvw
    rwa [erase_cons_head] at ht
  · rwa [erase_cons_tail (by simpa using hvw),erase_cons_head] at ht

/-- A lookup stops on a missing name, so after it the name is there. -/
theorem lookup_name (h : L.holds s l) {name : Option (List Char)} (hname : name = none → L.mayStop) :
    Runs (fun r t => L.holds t (held id r ++ l) ∧ name ≠ none) L.stops (lookup ops v name) s := by
  cases name with
  | none => exact L.halt h (hname rfl)
  | some name => exact (L.look h).mono (fun r t ht => ⟨ht,some_ne_none _⟩) fun t ht => ht

/-! ### The calls -/

theorem openNamev {creat : Bool} (h : L.holds s l) (hlong : Overlong ops p → L.mayStop) :
    Runs (fun r t => L.holds t (held id r ++ l) ∧ ∀ v, r = .ok v → components p = [] → ops.type v ≠ .dir → L.mayStop)
      L.stops (openNamev ops pid p creat none) s := by
  unfold Fs.openNamev
  refine (L.walk h hlong).seq ?_
  rintro (e | d) t ⟨ht,hd⟩
  · exact ⟨ht,fun v hv => by cases hv⟩
  have hfound := hd d rfl
  change L.holds t (d.vnode :: l) at ht
  dsimp only
  by_cases hz : d.namelen = 0
  · rw [if_pos hz]
    refine ⟨ht,fun v hv _ hne => ?_⟩
    cases hv
    exact L.dir hfound hne
  rw [if_neg hz]
  have hstop : components p = [] → L.mayStop := fun hc => L.nameless hfound hc hz
  refine (L.use ht (by simp)).seq fun _ t1 ht1 => ?_
  refine (lookup_name ht1 (L.named hfound hz)).seq ?_
  rintro (e | v) t2 ⟨ht2,hname⟩
  · change L.holds t2 (d.vnode :: l) at ht2
    cases creat with
    | false =>
      refine (put_head ht2).mono ?_ fun t ht => ht
      rintro - u ⟨rfl,hu⟩
      exact ⟨hu,fun v hv => by cases hv⟩
    | true =>
      obtain ⟨name,hname⟩ := ne_none_iff_exists'.mp hname
      simp only [if_true]
      rw [hname]
      refine (L.make ht2 (by simp) (L.dir hfound)).seq ?_
      rintro (e | v) t3 ht3
      · refine (put_head ht3).mono ?_ fun t ht => ht
        rintro - u ⟨rfl,hu⟩
        exact ⟨hu,fun v hv => by cases hv⟩
      · refine (put_under ht3).mono ?_ fun t ht => ht
        rintro - u ⟨rfl,hu⟩
        exact ⟨hu,fun _ _ hc _ => hstop hc⟩
  · change L.holds t2 (v :: d.vnode :: l) at ht2
    have huse : Runs (fun _ t => L.holds t (v :: d.vnode :: l)) L.stops
        (useIf (if charAt p (p.length - 1) = '/' then some v else none)) t2 := by
      split
      · exact L.use ht2 (by simp)
      · exact ht2
    refine huse.seq fun _ t3 ht3 => ?_
    split
    · refine (put_two ht3).mono ?_ fun t ht => ht
      rintro - u ⟨rfl,hu⟩
      exact ⟨hu,fun v hv => by cases hv⟩
    · refine (put_under ht3).mono ?_ fun t ht => ht
      rintro - u ⟨rfl,hu⟩
      exact ⟨hu,fun _ _ hc _ => hstop hc⟩

theorem addEntry {op : F → ℕ → List Char → F × ℤ} (h : L.holds s (d.vnode :: l)) (hd : L.found p d)
    (hname : d.base p = none → L.mayStop) : Runs (fun _ t => L.holds t l) L.stops (addEntry ops d p op) s := by
  unfold Fs.addEntry
  refine (L.use h (by simp)).seq fun _ t ht => ?_
  refine (lookup_name ht hname).seq ?_
  rintro (e | v) t1 ⟨ht1,hne⟩
  · refine (dirOp_base ht1 (by simp [held]) (L.dir hd) hne).seq fun r t2 ht2 => ?_
    exact (put_head ht2).mono (fun _ _ hu => hu.2) fun t ht => ht
  · exact (put_two ht1).mono (fun _ _ hu => hu.2) fun t ht => ht

theorem doMknod {mode : FileType} {devid : ℕ} (h : L.holds s l) (hname : L.Named p) (hlong : Overlong ops p → L.mayStop) :
    Runs (fun _ t => L.holds t l) L.stops (doMknod ops pid p mode devid) s := by
  unfold Fs.doMknod
  split
  · exact h
  refine (L.walk h hlong).seq ?_
  rintro (e | d) t ⟨ht,hd⟩
  · exact ht
  · exact addEntry ht (hd d rfl) (hname d (hd d rfl))

/-- `do_mkdir` looks for the root itself. -/
theorem doMkdir (h : L.holds s l)
    (hname : ∀ d, L.found p d → d.base p = none → ¬ (d.namelen = 0 ∧ d.vnode = ops.root) → L.mayStop)
    (hlong : Overlong ops p → L.mayStop) : Runs (fun _ t => L.holds t l) L.stops (doMkdir ops pid p) s := by
  unfold Fs.doMkdir
  refine (L.walk h hlong).seq ?_
  rintro (e | d) t ⟨ht,hd⟩
  · exact ht
  dsimp only
  split
  · exact (put_head ht).mono (fun _ _ hu => hu.2) fun t ht => ht
  next hroot =>
    exact addEntry ht (hd d rfl) fun hb => hname d (hd d rfl) hb hroot

theorem doRmdir (h : L.holds s l) (hname : L.Named p) (hlong : Overlong ops p → L.mayStop) :
    Runs (fun _ t => L.holds t l) L.stops (doRmdir ops pid p) s := by
  unfold Fs.doRmdir
  refine (L.walk h hlong).seq ?_
  rintro (e | d) t ⟨ht,hd⟩
  · exact ht
  change L.holds t (d.vnode :: l) at ht
  dsimp only
  rw [runs_bind]
  cases hi : d.name with
  | none => exact L.halt ht (hname d (hd d rfl) (by rw [DirName.base,hi]; rfl))
  | some i =>
    rw [runs_need_some]
    have hne : d.base p ≠ none := by rw [DirName.base,hi]; exact some_ne_none _
    split
    · exact (put_head ht).mono (fun _ _ hu => hu.2) fun t ht => ht
    · split
      · exact (put_head ht).mono (fun _ _ hu => hu.2) fun t ht => ht
      · refine (dirOp_base ht (by simp) (L.dir (hd d rfl)) hne).seq fun r t1 ht1 => ?_
        exact (put_head ht1).mono (fun _ _ hu => hu.2) fun t ht => ht

theorem doUnlink (h : L.holds s l) (hname : L.Named p) (hlong : Overlong ops p → L.mayStop) :
    Runs (fun _ t => L.holds t l) L.stops (doUnlink ops pid p) s := by
  unfold Fs.doUnlink
  refine (L.walk h hlong).seq ?_
  rintro (e | d) t ⟨ht,hd⟩
  · exact ht
  refine (L.use ht (by simp [held])).seq fun _ t1 ht1 => ?_
  refine (lookup_name ht1 (hname d (hd d rfl))).seq ?_
  rintro (e | v) t2 ⟨ht2,hne⟩
  · exact (put_head ht2).mono (fun _ _ hu => hu.2) fun t ht => ht
  · change L.holds t2 (v :: d.vnode :: l) at ht2
    refine (L.use ht2 (by simp)).seq fun _ t3 ht3 => ?_
    split
    · exact (put_two ht3).mono (fun _ _ hu => hu.2) fun t ht => ht
    · refine (dirOp_base ht3 (by simp) (L.dir (hd d rfl)) hne).seq fun r t4 ht4 => ?_
      exact (put_two ht4).mono (fun _ _ hu => hu.2) fun t ht => ht

theorem doStat (h : L.holds s l) (hlong : Overlong ops p → L.mayStop) :
    Runs (fun _ t => L.holds t l) L.stops (doStat ops pid p) s := by
  unfold Fs.doStat
  split
  · exact h
  refine (openNamev h hlong).seq ?_
  rintro (e | v) t ⟨ht,-⟩
  · exact ht
  refine (L.use ht (by simp [held])).seq fun _ t1 ht1 => ?_
  rw [runs_bind,runs_get]
  exact (put_head ht1).mono (fun _ _ hu => hu.2) fun t ht => ht

/-! `do_link` uses the vnode of `from` when it is no longer held, so it needs a ledger in
which that is allowed. -/

section Link

variable (free : ∀ {s : Vfs F} {l : List ℕ} {v : ℕ}, L.holds s l → Runs (fun _ t => L.holds t l) L.stops (useVnode v) s)

include free

theorem doLink (h : L.holds s l) (hname : L.Named q) (hlong : Overlong ops p → L.mayStop)
    (hlong' : Overlong ops q → L.mayStop) :
    Runs (fun r t => L.holds t l ∧ ∀ n, r = .ok n → components p = [] → L.mayStop) L.stops (doLink ops pid p q) s := by
  unfold Fs.doLink
  refine (openNamev h hlong).seq ?_
  rintro (e | v) t ⟨ht,hdir⟩
  · exact ⟨ht,fun n hn => by cases hn⟩
  refine (L.put ht (by simp [held])).seq fun _ t1 ht1 => ?_
  rw [show held id (.ok v) ++ l = v :: l from rfl,erase_cons_head] at ht1
  refine (free ht1).seq fun _ t2 ht2 => ?_
  split
  · exact ⟨ht2,fun n hn => by cases hn⟩
  rename_i hne
  have hstop : components p = [] → L.mayStop := fun hc => hdir v rfl hc hne
  refine (L.walk ht2 hlong').seq ?_
  rintro (e | d) t3 ⟨ht3,hd⟩
  · exact ⟨ht3,fun n hn => by cases hn⟩
  refine (L.use ht3 (by simp [held])).seq fun _ t4 ht4 => ?_
  refine (lookup_name ht4 (hname d (hd d rfl))).seq ?_
  rintro (e | w) t5 ⟨ht5,hbase⟩
  · change L.holds t5 (d.vnode :: l) at ht5
    refine (L.use ht5 (by simp)).seq fun _ t6 ht6 => ?_
    split
    · exact (put_head ht6).mono (fun _ _ hu => ⟨hu.2,fun _ _ => hstop⟩) fun t ht => ht
    · refine (free ht6).seq fun _ t7 ht7 => ?_
      refine (dirOp_base ht7 (by simp) (L.dir (hd d rfl)) hbase).seq fun r t8 ht8 => ?_
      exact (put_head ht8).mono (fun _ _ hu => ⟨hu.2,fun _ _ => hstop⟩) fun t ht => ht
  · exact (put_two ht5).mono (fun _ _ hu => ⟨hu.2,fun _ _ => hstop⟩) fun t ht => ht

/-- A path without a component is a directory, and `do_link` has refused it. -/
theorem doRename (h : L.holds s l) (hold : components p ≠ [] → L.Named p) (hname : L.Named q)
    (hlong : Overlong ops p → L.mayStop) (hlong' : Overlong ops q → L.mayStop) :
    Runs (fun _ t => L.holds t l) L.stops (doRename ops pid p q) s := by
  unfold Fs.doRename
  refine (doLink free h hname hlong hlong').seq ?_
  rintro (e | n) t ⟨ht,hc⟩
  · exact ht
  refine doUnlink ht ?_ hlong
  by_cases hp : components p = []
  · exact fun _ _ _ => hc n rfl hp
  · exact hold hp

end Link

end Ledger

end Csci402.Fs
