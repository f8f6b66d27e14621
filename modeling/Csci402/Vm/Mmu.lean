import Csci402.Vm.Coherence
import Csci402.Vm.Writable

/-! Loads and stores of user programs. The processor goes through the page table: where it has
an entry that allows the access, the frame is accessed at once; otherwise there is a page fault,
and the instruction is run again after `handle_pagefault`. This path is another one than that of
the kernel's own copies, which look every page up. The two agree. -/

namespace Csci402.Vm

namespace Memory

open Lib Option

variable {D : Type}

/-- What the processor reads, or `some none` for a page fault; `none` is an entry whose frame is gone. -/
def mmuLoad (pid v : ℕ) (s : Memory D) : Option (Option D) :=
  match s.entry pid v with
  | none => some none
  | some e => (s.frames e.1).map fun pf => some pf.pfData

def mmuStore (pid v : ℕ) (g : D → D) (s : Memory D) : Option (Option (Memory D)) :=
  match s.entry pid v with
  | some (f, true) => (s.frames f).map fun _ => some (s.modFrame f fun pf => { pf with pfData := g pf.pfData })
  | _ => some none

section Accesses

variable [Zero D]

/-- A load of a user program; no value if the process does not survive the page fault. -/
def userLoad (env : Env D) (pid vaddr : ℕ) (s : Memory D) : Option (Memory D × Option D) := do
  match ← mmuLoad pid (vaddr / pageSize) s with
  | some d => return (s, some d)
  | none =>
    let s ← handlePagefault env pid vaddr ⟨false,false⟩ s
    return (s, ← mmuLoad pid (vaddr / pageSize) s)

/-- A store of a user program, and whether it was made. -/
def userStore (env : Env D) (pid vaddr : ℕ) (g : D → D) (s : Memory D) : Option (Memory D × Bool) := do
  match ← mmuStore pid (vaddr / pageSize) g s with
  | some s => return (s, true)
  | none =>
    let s ← handlePagefault env pid vaddr ⟨true,false⟩ s
    match ← mmuStore pid (vaddr / pageSize) g s with
    | some s => return (s, true)
    | none => return (s, false)

/-- A step: a call of the kernel, or an access of a user program. -/
inductive UserAct (D : Type) where
  | call (c : Env D × Call D)
  | load (env : Env D) (pid vaddr : ℕ)
  | store (env : Env D) (pid vaddr : ℕ) (g : D → D)

def userStep (U : UserMem) (s : Memory D) : UserAct D → Option (Memory D)
  | .call c => step U s c
  | .load env pid vaddr => (userLoad env pid vaddr s).map Prod.fst
  | .store env pid vaddr g => (userStore env pid vaddr g s).map Prod.fst

/-- No page is reclaimed, and entries are not left behind by copies. -/
def UserOk (s : Memory D) : UserAct D → Prop
  | .call c => NoReclaim s c ∧ Tended s c
  | _ => True

end Accesses

variable {U : UserMem} {s t : Memory D} {env : Env D} {pid q v w f o : ℕ} {a : Vmarea} {e : ℕ × Bool} {g : D → D}

theorem mmuStore_fault (h : ∀ f, s.entry pid v ≠ some (f, true)) : mmuStore pid v g s = some none := by
  unfold mmuStore
  split
  · exact absurd ‹_› (h _)
  · rfl

/-- What holds between the calls and the accesses. -/
structure UserInv (U : UserMem) (s : Memory D) : Prop where
  sys : Sys U s
  offsets : ∀ q, Offsets s q
  finds : Entries Finds s
  own : Entries OwnFrame s

theorem UserInv.store (h : UserInv U s) (f : ℕ) (g : D → D) :
    UserInv U (s.modFrame f fun pf => { pf with pfData := g pf.pfData }) :=
  ⟨h.sys.store f g,h.offsets,h.finds.finds_store f g,h.own.store f g⟩

/-- The entry has the frame that is found for the page. -/
theorem UserInv.entry (h : UserInv U s) (he : s.entry pid v = some e) : ∃ a o ob pf,
    vmmapLookup (s.vmmList pid) v = some a ∧ a.vmaObj = some o ∧ s.objs o = some ob ∧ s.frames e.1 = some pf ∧
    s.nearest o (a.page v) = some e.1 ∧
    (e.2 = true → a.vmaProt.write = true ∧ s.pframeGetResident o (a.page v) = some e.1) := by
  obtain ⟨x,hx,o,ho,hn⟩ := h.finds pid v e he
  obtain ⟨x',hx',hown⟩ := h.own pid v e he
  cases hx.symm.trans hx'
  obtain ⟨a,ha,rfl⟩ := map_eq_some_iff.mp hx
  obtain ⟨pf,hpf,-⟩ := h.sys.heap.nearest_frame hn
  obtain ⟨ob,hob⟩ := isSome_iff_exists.mp (h.sys.trans_obj hx ho)
  refine ⟨a,o,ob,pf,ha,ho,hob,hpf,hn,fun hw => ?_⟩
  obtain ⟨hwrite,pf',hpf',hxo,hpage⟩ := hown hw
  cases ho.symm.trans hxo
  exact ⟨hwrite,h.sys.heap.pages.resident_iff.mpr ⟨pf',hpf',rfl,hpage⟩⟩

variable [Zero D]

/-- A page that the object has is what a write lookup returns. -/
theorem lookuppage_resident {ob : Mmobj} {n : ℕ} (ho : s.objs o = some ob) (hr : s.pframeGetResident o n = some f) :
    lookuppage env o n true s = some (s, some f) := by
  simp only [lookuppage,ho,bind_eq_bind,bind_some]
  cases hops : ob.mmoOps with
  | shadow => simp only [shadowLookuppage,hr,if_true]; rfl
  | anon => exact lookupBase_resident ho (by simp [hops]) hr
  | vnode => exact lookupBase_resident ho (by simp [hops]) hr

theorem view_ptMap {b : Bool} : (s.ptMap pid v f b).view q w = s.view q w := by
  have hl : (s.ptMap pid v f b).vmmList q = s.vmmList q := vmmList_modProc fun _ => rfl
  unfold view
  rw [hl]
  rfl

theorem UserInv.call {c : Env D × Call D} (h : UserInv U s) (hc : NoReclaim s c ∧ Tended s c) (ht : step U s c = some t) :
    UserInv U t :=
  ⟨(h.sys.step hc.1.1 ht).sys,h.sys.step_offsets h.offsets hc.1.1 ht,
    h.sys.step_finds h.offsets h.finds ⟨hc.1.1,hc.2⟩ ht,h.sys.step_entries h.own hc.1 ht⟩

variable {vaddr : ℕ}

theorem UserInv.pagefault {cause : Cause} (h : UserInv U s)
    (ht : handlePagefault env pid vaddr cause s = some t) : UserInv U t :=
  h.call (c := (env, .pagefault pid vaddr cause)) ⟨⟨trivial,trivial⟩,trivial⟩ ht

omit [Zero D] in
theorem UserInv.mmuStore (h : UserInv U s) (ht : mmuStore pid v g s = some (some t)) : UserInv U t := by
  unfold Memory.mmuStore at ht
  split at ht
  · obtain ⟨pf,-,he⟩ := map_eq_some_iff.mp ht
    cases he
    exact h.store _ g
  · cases ht

theorem UserInv.userStep {b : UserAct D} (h : UserInv U s) (hb : UserOk s b) (ht : userStep U s b = some t) :
    UserInv U t := by
  cases b with
  | call c => exact h.call hb ht
  | load env pid vaddr =>
    obtain ⟨⟨t',r⟩,hl,rfl⟩ := map_eq_some_iff.mp ht
    obtain ⟨_ | d,-,hl⟩ := bind_eq_some_iff.mp hl
    · obtain ⟨s1,hs1,hl⟩ := bind_eq_some_iff.mp hl
      obtain ⟨d,-,hl⟩ := bind_eq_some_iff.mp hl
      cases hl
      exact h.pagefault hs1
    · cases hl
      exact h
  | store env pid vaddr g =>
    obtain ⟨⟨t',r⟩,hl,rfl⟩ := map_eq_some_iff.mp ht
    obtain ⟨_ | m,hm,hl⟩ := bind_eq_some_iff.mp hl
    · obtain ⟨s1,hs1,hl⟩ := bind_eq_some_iff.mp hl
      obtain ⟨_ | m,hm,hl⟩ := bind_eq_some_iff.mp hl
      · cases hl
        exact h.pagefault hs1
      · cases hl
        exact (h.pagefault hs1).mmuStore hm
    · cases hl
      exact h.mmuStore hm

theorem userInv_of_exec {s0 : Memory D} {bs : List (UserAct D)} (h0 : Initial s0)
    (h : Exec (userStep U) UserOk s0 bs s) : UserInv U s := by
  refine h.invariant ⟨h0.sys,fun q a ha => ?_,h0.entries _,h0.entries _⟩ fun _ _ _ hi hb ht => hi.userStep hb ht
  simp [h0.vmmList] at ha

/-! ### Accesses that are permitted -/

/-- After a page fault that is permitted the page table has an entry for the frame of the lookup. -/
theorem UserInv.pagefault_maps (h : UserInv U s) (henv : LookupsOk env) (cause : Cause)
    (ha : vmmapLookup (s.vmmList pid) (vaddr / pageSize) = some a) (ho : a.vmaObj = some o)
    (hperm : permitted cause a.vmaProt = true) : ∃ s1 f pf,
      lookuppage env o (a.page (vaddr / pageSize)) cause.write s = some (s1, some f) ∧ s1.frames f = some pf ∧
      handlePagefault env pid vaddr cause s = some (s1.ptMap pid (vaddr / pageSize) f cause.write) ∧
      (s1.ptMap pid (vaddr / pageSize) f cause.write).entry pid (vaddr / pageSize) = some (f, cause.write) := by
  obtain ⟨o',ob,ho',hob⟩ := h.sys.area_obj (vmmapLookup_mem ha).1
  cases ho.symm.trans ho'
  obtain ⟨s1,r,hs1,h1,hl⟩ := h.sys.lookuppage env hob (a.page (vaddr / pageSize)) cause.write
  obtain ⟨f,rfl⟩ := isSome_iff_exists.mp (lookuppage_ok henv hs1)
  obtain ⟨pf,hpf,-⟩ := h1.heap.nearest_frame (hl.nearest f rfl)
  refine ⟨s1,f,pf,hs1,hpf,?_,?_⟩
  · simp only [handlePagefault,ha,hperm,if_true,ho,bind_eq_bind,bind_some,hs1]
    rfl
  · obtain ⟨p,hp⟩ := isSome_iff_exists.mp (live_of_mem (vmmapLookup_mem ha).1)
    rw [entry_ptMap,if_pos ⟨rfl,rfl⟩,hl.adds.procs,hp]
    rfl

/-- A load returns what the kernel would read. -/
theorem UserInv.load (h : UserInv U s) (henv : LookupsOk env)
    (ha : vmmapLookup (s.vmmList pid) (vaddr / pageSize) = some a) (hr : a.vmaProt.read = true) : ∃ t t' d,
      userLoad env pid vaddr s = some (t, some d) ∧ readPage env pid (vaddr / pageSize) s = some (t', some d) ∧
      ∀ q w, t.view q w = t'.view q w := by
  cases he : s.entry pid (vaddr / pageSize) with
  | some e =>
    obtain ⟨a',o,ob,pf,ha',ho,hob,hpf,hn,-⟩ := h.entry he
    cases ha.symm.trans ha'
    refine ⟨s,s,pf.pfData,?_,?_,fun _ _ => rfl⟩
    · simp only [userLoad,mmuLoad,he,hpf,map_some,bind_eq_bind,bind_some]
      rfl
    · simp only [readPage,ha,ho,h.sys.heap.lookuppage_found hob hn env,hpf,bind_eq_bind,bind_some]
      rfl
  | none =>
    obtain ⟨o,ob,ho,-⟩ := h.sys.area_obj (vmmapLookup_mem ha).1
    obtain ⟨s1,f,pf,hs1,hpf,hfault,hentry⟩ := h.pagefault_maps henv ⟨false,false⟩ ha ho
      (by simp [permitted,hr])
    have hpf' : (s1.ptMap pid (vaddr / pageSize) f false).frames f = some pf := hpf
    refine ⟨s1.ptMap pid (vaddr / pageSize) f false,s1,pf.pfData,?_,?_,fun _ _ => view_ptMap⟩
    · simp only [userLoad,mmuLoad,he,hfault,hentry,hpf',map_some,bind_eq_bind,bind_some]
      rfl
    · simp only [readPage,ha,ho,hs1,hpf,bind_eq_bind,bind_some]
      rfl

/-- A store has the effect of the kernel's. -/
theorem UserInv.stores (h : UserInv U s) (henv : LookupsOk env) (g : D → D)
    (ha : vmmapLookup (s.vmmList pid) (vaddr / pageSize) = some a) (hw : a.vmaProt.write = true) : ∃ t t',
      userStore env pid vaddr g s = some (t, true) ∧ writePage env pid (vaddr / pageSize) g s = some (t', some ()) ∧
      ∀ q w, t.view q w = t'.view q w := by
  by_cases hentry : ∃ f, s.entry pid (vaddr / pageSize) = some (f, true)
  · -- the frame is the one that a write lookup returns
    obtain ⟨f,he⟩ := hentry
    obtain ⟨a',o,ob,pf,ha',ho,hob,hpf,-,hown⟩ := h.entry he
    cases ha.symm.trans ha'
    refine ⟨s.modFrame f fun pf => { pf with pfData := g pf.pfData },
      s.modFrame f fun pf => { pf with pfData := g pf.pfData },?_,?_,fun _ _ => rfl⟩
    · simp only [userStore,Memory.mmuStore,he,hpf,map_some,bind_eq_bind,bind_some]
      rfl
    · simp only [writePage,ha,ho,lookuppage_resident hob (hown rfl).2,bind_eq_bind,bind_some]
      rfl
  · have hmiss := mmuStore_fault (g := g) (not_exists.mp hentry)
    obtain ⟨o,ob,ho,-⟩ := h.sys.area_obj (vmmapLookup_mem ha).1
    obtain ⟨s1,f,pf,hs1,hpf,hfault,he⟩ := h.pagefault_maps henv ⟨true,false⟩ ha ho
      (by simp [permitted,hw])
    have hpf' : (s1.ptMap pid (vaddr / pageSize) f true).frames f = some pf := hpf
    have hhit : (s1.ptMap pid (vaddr / pageSize) f true).mmuStore pid (vaddr / pageSize) g =
        some (some ((s1.modFrame f fun pf => { pf with pfData := g pf.pfData }).ptMap pid (vaddr / pageSize) f true)) := by
      simp only [Memory.mmuStore,he,hpf',map_some]
      rfl
    refine ⟨(s1.modFrame f fun pf => { pf with pfData := g pf.pfData }).ptMap pid (vaddr / pageSize) f true,
      s1.modFrame f fun pf => { pf with pfData := g pf.pfData },?_,?_,fun _ _ => view_ptMap⟩
    · simp only [userStore,hmiss,hfault,hhit,bind_eq_bind,bind_some]
      rfl
    · simp only [writePage,ha,ho,hs1,bind_eq_bind,bind_some]
      rfl

/-- A store where the process may not write is not made, and ends the process. -/
theorem UserInv.denied (h : UserInv U s) (env : Env D) (g : D → D)
    (hno : ∀ a, vmmapLookup (s.vmmList pid) (vaddr / pageSize) = some a → a.vmaProt.write = false) : ∃ t,
      userStore env pid vaddr g s = some (t, false) ∧ ¬ t.live pid ∧ ∀ q w, q ≠ pid → t.view q w = s.view q w := by
  have hmiss : s.mmuStore pid (vaddr / pageSize) g = some none := mmuStore_fault fun f he => by
    obtain ⟨a,o,ob,pf,ha,-,-,-,-,hown⟩ := h.entry he
    rw [hno a ha] at hown
    cases (hown rfl).1
  have hfault : handlePagefault env pid vaddr ⟨true,false⟩ s = doExit env pid s := by
    unfold handlePagefault
    dsimp only
    split
    · rfl
    next a ha =>
      have hperm : permitted ⟨true,false⟩ a.vmaProt = false := by simp [permitted,hno a ha]
      rw [hperm]
      rfl
  obtain ⟨t,ht,hsys,hs,hex⟩ := h.sys.exit env pid
  have hgone : t.mmuStore pid (vaddr / pageSize) g = some none := by
    simp only [Memory.mmuStore,hex.entry_self]
  refine ⟨t,?_,fun hlive => ((hex.live pid).mp hlive).1 rfl,fun q w hq => hs.toKeeps.view h.sys hsys ?_⟩
  · simp only [userStore,hmiss,hfault,ht,hgone,bind_eq_bind,bind_some]
    rfl
  · rw [hex.vmmList,if_neg hq]

/-- In every state of a run of kernel calls and user accesses, with memory to be had and files that
can be read: a load from an area that can be read returns what the process sees there, which is
what the kernel would read, and changes nothing that any process sees; a store into an area that
can be written changes what the process sees there, and what all processes see as the kernel's own
write would; and any other store leaves what the other processes see alone and ends the process. -/
theorem user_accesses (U : UserMem) {s0 : Memory D} {bs : List (UserAct D)} (h0 : Initial s0)
    (h : Exec (userStep U) UserOk s0 bs s) (henv : LookupsOk env) (pid vaddr : ℕ) (g : D → D) :
    (∀ a, vmmapLookup (s.vmmList pid) (vaddr / pageSize) = some a → a.vmaProt.read = true → ∃ t t' d,
      userLoad env pid vaddr s = some (t, some d) ∧ readPage env pid (vaddr / pageSize) s = some (t', some d) ∧
      s.view pid (vaddr / pageSize) = some d ∧ ∀ q w, t.view q w = s.view q w) ∧
    (∀ a, vmmapLookup (s.vmmList pid) (vaddr / pageSize) = some a → a.vmaProt.write = true → ∃ t t',
      userStore env pid vaddr g s = some (t, true) ∧ writePage env pid (vaddr / pageSize) g s = some (t', some ()) ∧
      t.view pid (vaddr / pageSize) = (s.view pid (vaddr / pageSize)).map g ∧ ∀ q w, t.view q w = t'.view q w) ∧
    ((∀ a, vmmapLookup (s.vmmList pid) (vaddr / pageSize) = some a → a.vmaProt.write = false) → ∃ t,
      userStore env pid vaddr g s = some (t, false) ∧ ¬ t.live pid ∧ ∀ q w, q ≠ pid → t.view q w = s.view q w) := by
  have hi := userInv_of_exec h0 h
  refine ⟨fun a ha hr => ?_,fun a ha hw => ?_,hi.denied env g⟩
  · obtain ⟨t,t',d,hl,hread,hsame⟩ := hi.load henv ha hr
    obtain ⟨hv,hkept⟩ := hi.sys.readPage_view hread
    exact ⟨t,t',d,hl,hread,hv,fun q w => (hsame q w).trans (hkept q w)⟩
  · obtain ⟨t,t',hst,hwrite,hsame⟩ := hi.stores henv g ha hw
    refine ⟨t,t',hst,hwrite,?_,hsame⟩
    obtain ⟨-,⟨hr,-⟩ | ⟨-,a',o,ha',ho,hwrote⟩⟩ := hi.sys.writePage_wrote hwrite
    · cases hr
    · cases ha.symm.trans ha'
      have hlook : vmmapLookup (t'.vmmList pid) (vaddr / pageSize) = some a := by rw [hwrote.lists]; exact ha
      rw [hsame,view_of_lookup hlook ho hwrote.self,view_of_lookup ha ho rfl]
      rfl

end Memory

open Memory Lib

/-- A process stores into a page of a private area and forks. -/
def storeActs : List (UserAct ℕ) :=
  [.call (calmEnv, .procCreate),.call (calmEnv, .map 0 none 0x500 4 readWrite privateAnon 0 .hilo),
    .store calmEnv 0 0x501000 fun _ => 7,.call (calmEnv, .fork 0),.load calmEnv 0 0x501000]

/-- What `UserOk` asks, as far as it can be decided. -/
def CallsOk (s : Memory ℕ) : UserAct ℕ → Prop
  | .call c => NoReclaim s c
  | _ => True

instance (s : Memory ℕ) : ∀ b : UserAct ℕ, Decidable (CallsOk s b) := by
  rintro ⟨⟩ <;> unfold CallsOk <;> infer_instance

def storeMemory : Memory ℕ := (run (userStep sampleUser) CallsOk emptyMemory storeActs).getD emptyMemory

/-- The child sees the 7. -/
theorem user_accesses_storeMemory : Exec (userStep sampleUser) UserOk emptyMemory storeActs storeMemory ∧
    ∃ t, userLoad calmEnv 1 0x501000 storeMemory = some (t, some 7) := by
  have hrun : Exec (userStep sampleUser) CallsOk emptyMemory storeActs storeMemory := Exec.ofRun_getD (by decide +kernel) _
  have h := hrun.weaken fun s b hb hok => show UserOk s b by
    simp only [storeActs,List.mem_cons,List.not_mem_nil,or_false] at hb
    rcases hb with rfl | rfl | rfl | rfl | rfl
    · exact ⟨hok,trivial⟩
    · exact ⟨hok,trivial⟩
    · trivial
    · exact ⟨hok,trivial⟩
    · trivial
  have hcalm : LookupsOk calmEnv := fun _ => ⟨rfl,rfl⟩
  have hview : storeMemory.view 1 0x501 = some 7 := by decide +kernel
  obtain ⟨a,ha,hr⟩ : ∃ a, vmmapLookup (storeMemory.vmmList 1) (0x501000 / pageSize) = some a ∧ a.vmaProt.read = true :=
    ⟨(vmmapLookup (storeMemory.vmmList 1) 0x501).get (by decide +kernel),by decide +kernel,by decide +kernel⟩
  obtain ⟨t,-,d,hl,-,hv,-⟩ := (user_accesses sampleUser emptyMemory_initial h hcalm 1 0x501000 id).1 a ha hr
  cases hview.symm.trans hv
  exact ⟨h,t,hl⟩

end Csci402.Vm
