import Csci402.Vm.Entries
import Csci402.Vm.Offsets

/-! Writable page-table entries. A process can store directly only into frames of the object
of its own area, at the page that the area has there. For a private area this object is the
process's alone, so after a fork neither side stores into what the other one reads, unless it
does so through a shared mapping. -/

namespace Csci402.Vm

namespace Memory

open Lib Option

variable {D : Type} {U : UserMem} {s t : Memory D} {env : Env D} {pid q v w f o : ℕ}

/-- The frame of a writable entry is the area's own, and the area may be written. -/
def OwnFrame (s : Memory D) (x : Option ℕ × ℕ × Prot × MapFlags) (e : ℕ × Bool) : Prop :=
  e.2 = true → x.2.2.1.write = true ∧ ∃ pf, s.frames e.1 = some pf ∧ x.1 = some pf.pfObj ∧ pf.pfPagenum = x.2.1

theorem OwnFrame.mono {x : Option ℕ × ℕ × Prot × MapFlags} {e : ℕ × Bool} (h : OwnFrame s x e)
    (hf : ∀ f pf, s.frames f = some pf → x.1 = some pf.pfObj →
      ∃ pf', t.frames f = some pf' ∧ pf'.pfObj = pf.pfObj ∧ pf'.pfPagenum = pf.pfPagenum) : OwnFrame t x e := by
  intro he
  obtain ⟨hw,pf,hpf,hx,hn⟩ := h he
  obtain ⟨pf',hpf',ho,hn'⟩ := hf e.1 pf hpf hx
  exact ⟨hw,pf',hpf',by rw [ho]; exact hx,hn'.trans hn⟩

theorem Entries.survives (h : Entries OwnFrame s) (h' : Sys U t) (hr : Retains s t) (hs : Survives s t) :
    Entries OwnFrame t :=
  h.retain hr fun _ _ _ _ _ _ hx hp => hp.mono fun f pf hf ho => ⟨pf,hs.frame f pf hf (h'.trans_obj hx ho),rfl,rfl⟩

theorem Entries.adds (h : Entries OwnFrame s) (ha : Adds s t) : Entries OwnFrame t :=
  h.retain ha.clears.retains
    fun _ _ _ _ _ _ _ hp => hp.mono fun f pf hf _ => ⟨pf,ha.frame f pf hf,rfl,rfl⟩

theorem Entries.store (h : Entries OwnFrame s) (f : ℕ) (g : D → D) :
    Entries OwnFrame (s.modFrame f fun pf => { pf with pfData := g pf.pfData }) := by
  refine h.retain (Clears.of_procs rfl rfl rfl).retains fun _ _ _ _ _ _ _ hp => hp.mono fun f' pf hf _ => ?_
  rw [frames_modFrame]
  split
  next he =>
    rw [← he,hf]
    exact ⟨_,rfl,rfl,rfl⟩
  · exact ⟨pf,hf,rfl,rfl⟩

section Steps

variable [Zero D]

theorem Sys.pagefault_entries (hsys : Sys U s) (h : Entries OwnFrame s) {vaddr : ℕ} {cause : Cause} (h' : Sys U t)
    (ht : handlePagefault env pid vaddr cause s = some t) : Entries OwnFrame t := by
  rcases hsys.pagefault_cases ht with ⟨s1,-,hr,hs,-,hcase⟩ | ⟨a,o,s1,f,ha,hperm,ho,hsys1,hl,rfl⟩
  · rcases hcase with rfl | ⟨a,o,-,-,hl⟩
    · exact h.survives h' hr hs
    · exact (h.adds hl.adds).survives h' hr hs
  · have h1 := h.adds hl.adds
    refine Entries.ptMap (fun q u e _ he => h1 q u e he) ⟨a.target (vaddr / pageSize),?_,fun hw => ⟨?_,?_⟩⟩
    · rw [hl.adds.vmmList,trans,ha]
      rfl
    · rw [permitted,show cause.write = true from hw] at hperm
      change a.vmaProt.write = true
      simpa using (Bool.and_eq_true_iff.mp hperm).1
    · obtain ⟨pf,hpf,hpo,hpn⟩ := hsys1.heap.pages.resident_iff.mp (hl.write f rfl hw)
      exact ⟨pf,hpf,by rw [hpo]; exact ho,hpn⟩

/-- Calls that do not reclaim pages; a range that is removed has addresses. -/
def Reclaimless : Call D → Prop
  | .reclaim _ => False
  | .remove _ lopage npages => lopage+npages < 2 ^ 20
  | _ => True

instance : ∀ c : Call D, Decidable (Reclaimless c) := by
  rintro ⟨⟩ <;> unfold Reclaimless <;> infer_instance

def NoReclaim (s : Memory D) (c : Env D × Call D) : Prop := Allowed s c ∧ Reclaimless c.2

instance (s : Memory D) (c : Env D × Call D) : Decidable (NoReclaim s c) :=
  inferInstanceAs (Decidable (Allowed s c ∧ Reclaimless c.2))

theorem Sys.step_entries {c : Env D × Call D} (hsys : Sys U s) (h : Entries OwnFrame s) (hc : NoReclaim s c)
    (hst : Memory.step U s c = some t) : Entries OwnFrame t := by
  obtain ⟨hal,hno⟩ := hc
  have hsys' := (hsys.step hal hst).sys
  have hquiet : Quiet c.2 → Entries OwnFrame t := fun hq =>
    h.survives hsys' (hsys.quiet hal hq hst).1 (hsys.quiet hal hq hst).2
  have hacc : Accesses c.2 → Entries OwnFrame t := fun ha =>
    (hsys.access (Entries OwnFrame) (fun _ ha h => h.adds ha) (fun f g h => h.store f g) h ha hst).2
  obtain ⟨env,c⟩ := c
  cases c with
  | pagefault pid vaddr cause => exact hsys.pagefault_entries h hsys' hst
  | lookup | read | write | vmmapRead | vmmapWrite => exact hacc trivial
  | reclaim frame => exact hno.elim
  | _ => exact hquiet hno

theorem entries_of_exec {s0 : Memory D} {cs : List (Env D × Call D)} (h0 : Initial s0)
    (h : Exec (step U) NoReclaim s0 cs s) : Sys U s ∧ (∀ q, Offsets s q) ∧ Entries OwnFrame s := by
  induction h with
  | nil => exact ⟨h0.sys,fun q a ha => by simp [h0.vmmList] at ha,h0.entries _⟩
  | snoc _ hc hst ih =>
    obtain ⟨hsys,hoff,hent⟩ := ih
    exact ⟨(hsys.step hc.1 hst).sys,hsys.step_offsets hoff hc.1 hst,hsys.step_entries hent hc hst⟩

end Steps

/-! ### Stores -/

/-- A process that stores into what another one reads does it through a shared mapping. -/
theorem Sys.stored_shared [Zero D] (h : Sys U s) {a : Vmarea} {pf : Pframe D} (ha : a ∈ s.vmmList pid)
    (ho : a.vmaObj = some pf.pfObj) (hf : s.frames f = some pf) (hq : q ≠ pid)
    (hread : Memory.lookupVfn env q w false s = some (t, some f)) : a.isShared = true := by
  by_contra hpriv
  obtain ⟨h',b,o',hb,hbo,hl⟩ := h.lookupVfn hread
  obtain ⟨pf',hf',hu,-⟩ := h'.heap.nearest_frame (hl.nearest f rfl)
  cases hf'.symm.trans (hl.adds.frame f pf hf)
  rw [hl.adds.under] at hu
  have hpriv : a.isShared = false := by simpa using hpriv
  obtain rfl := hu.eq_of_top (h.owned.top pid a ha hpriv _ ho)
  exact hq (h.owned.sole pid a ha hpriv _ ho q b (vmmapLookup_mem hb).1 hbo).1

/-- After a fork no entry of the two sides is left. -/
theorem Forked.entry_none (hf : Forked U pid s t) (h : Sys U s) {P : Memory D → Option ℕ × ℕ × Prot × MapFlags → ℕ × Bool → Prop}
    (hent : Entries P s) (v : ℕ) : t.entry pid v = none ∧ t.entry s.nextPid v = none := by
  constructor
  · rcases hf.entry pid v with hn | ⟨-,hv,hs⟩
    · exact hn
    · rw [hs]
      refine eq_none_iff_forall_ne_some.mpr fun e he => ?_
      obtain ⟨x,hx,-⟩ := hent pid v e he
      obtain ⟨a,ha,hav,hve,-⟩ := (trans_eq_some (h.list pid).ok).mp hx
      have hb := (h.list pid).ok.bounds a ha
      exact hv ⟨rfl,Nat.le_trans hb.1 hav,Nat.lt_of_lt_of_le hve hb.2⟩
  · rcases hf.entry s.nextPid v with hn | ⟨hne,-⟩
    · exact hn
    · exact absurd rfl hne

/-- In every state of a run without reclaiming, a writable entry is for a page of an area that
may be written and has a frame of the area's own object, at the area's page. What another
process reads it stores into only through a shared mapping. A fork leaves no entry to either
side. -/
theorem writable_entries_own [Zero D] (U : UserMem) {s0 : Memory D} {cs : List (Env D × Call D)} (h0 : Initial s0)
    (h : Exec (step U) NoReclaim s0 cs s) :
    (∀ pid v f, s.entry pid v = some (f, true) → ∃ a o pf, vmmapLookup (s.vmmList pid) v = some a ∧
      a.vmaProt.write = true ∧ a.vmaObj = some o ∧ s.frames f = some pf ∧ pf.pfObj = o ∧
      pf.pfPagenum = a.vmaOff+(v - a.vmaStart) ∧
      ∀ env q w t, q ≠ pid → lookupVfn env q w false s = some (t, some f) → a.isShared = true) ∧
    ∀ pid t, s.live pid → doFork U pid s = some t → ∀ v, t.entry pid v = none ∧ t.entry s.nextPid v = none := by
  obtain ⟨hsys,hoff,hent⟩ := entries_of_exec h0 h
  refine ⟨fun pid v f he => ?_,fun pid t hlive ht => ?_⟩
  · obtain ⟨x,hx,hown⟩ := hent pid v _ he
    obtain ⟨hw,pf,hpf,hxo,hn⟩ := hown rfl
    obtain ⟨a,ha,rfl⟩ := map_eq_some_iff.mp hx
    obtain ⟨ham,hstart,hend⟩ := vmmapLookup_mem ha
    have hv : v < 2 ^ 20 := by
      have := ((hsys.list pid).ok.bounds a ham).2
      have := U.high_lt
      omega
    exact ⟨a,pf.pfObj,pf,ha,hw,hxo,hpf,rfl,hn.trans ((hoff pid a ham).page_eq hstart hv),fun env q w t hq hread =>
      hsys.stored_shared ham hxo hpf hq hread⟩
  · obtain ⟨-,hf⟩ := of_returns (hsys.fork hlive) ht
    exact hf.entry_none hsys hent

end Memory

open Memory Lib

/-- A process writes a page, forks, and the child writes the page. -/
def childWrites : List (Env ℕ × Call ℕ) :=
  [.procCreate,.map 0 none 0x500 4 readWrite privateAnon 0 .hilo,.pagefault 0 0x501000 ⟨true,false⟩,.fork 0,
    .pagefault 1 0x501000 ⟨true,false⟩].map fun c => (calmEnv, c)

theorem writable_entries_own_childWrites : ∃ s f a pf, Exec (step sampleUser) NoReclaim emptyMemory childWrites s ∧
    s.entry 1 0x501 = some (f, true) ∧ vmmapLookup (s.vmmList 1) 0x501 = some a ∧ a.vmaProt.write = true ∧
    s.frames f = some pf ∧ a.vmaObj = some pf.pfObj ∧ pf.pfPagenum = a.vmaOff+(0x501 - a.vmaStart) := by
  have h : Exec (step sampleUser) NoReclaim emptyMemory childWrites _ := Exec.ofRun rfl
  obtain ⟨a,o,pf,ha,hw,ho,hpf,rfl,hn,-⟩ :=
    (writable_entries_own sampleUser emptyMemory_initial h).1 1 0x501 _ rfl
  exact ⟨_,_,a,pf,h,rfl,ha,hw,hpf,ho,hn⟩

/-- A process maps a page of a file twice, shared and private, and forks. The parent writes
the shared page and the child reads the private one. -/
def fileCalls : List (Env ℕ × Call ℕ) :=
  [.procCreate,.vget,.mmap 0 0x500000 0x1000 readWrite ⟨true,false,true,false⟩ (some (0, true)) 0,
    .mmap 0 0x600000 0x1000 readWrite ⟨false,true,true,false⟩ (some (0, true)) 0,.fork 0,
    .pagefault 0 0x500000 ⟨true,false⟩,.pagefault 1 0x600000 ⟨false,false⟩].map fun c => (calmEnv, c)

def fileMemory : Memory ℕ := (run (step sampleUser) NoReclaim emptyMemory fileCalls).getD emptyMemory

/-- The parent can store into the frame that the child reads through its private mapping. -/
theorem shared_store_read_privately : Exec (step sampleUser) NoReclaim emptyMemory fileCalls fileMemory ∧
    fileMemory.entry 0 0x500 = some (0, true) ∧ fileMemory.entry 1 0x600 = some (0, false) ∧
    (vmmapLookup (fileMemory.vmmList 1) 0x600).map Vmarea.isShared = some false := by
  have h : Exec (step sampleUser) NoReclaim emptyMemory fileCalls fileMemory := Exec.ofRun_getD (by decide +kernel) _
  refine ⟨h,?_,?_,?_⟩
  · decide +kernel
  · decide +kernel
  · decide +kernel

end Csci402.Vm
