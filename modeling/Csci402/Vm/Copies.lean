import Csci402.Vm.Bytes

/-! `vmmap_write` followed by `vmmap_read` of the same range gives the buffer back, whatever
pages and areas the range goes through, and a copy that meets a page that is not mapped has
transferred the bytes before it. A lookup that fails is another matter: neither function
looks at what it returns. -/

namespace Csci402.Vm

def emptyBytes : Memory (ℕ → ℕ) := ⟨fun _ => none,fun _ => none,fun _ => none,0,0,0,0,fun _ _ => 0,fun _ => 0⟩

theorem emptyBytes_initial : emptyBytes.Initial := ⟨fun _ => rfl,fun _ => rfl,fun _ => rfl,fun _ => rfl⟩

/-- Every frame can be had and every file can be read and mapped. -/
def calmBytes : Env (ℕ → ℕ) := ⟨fun _ => true,fun _ => true,fun _ => true,fun _ => none,0⟩

namespace Memory

open Lib Option

variable {β : Type} [Zero β] {U : UserMem} {env env' : Env (ℕ → β)} {s t : Memory (ℕ → β)} {pid vaddr count x : ℕ}

/-- What a read lookup of its page returns for an address. -/
def byteSeen (env : Env (ℕ → β)) (s : Memory (ℕ → β)) (pid x : ℕ) : Option β :=
  (seen env s pid (x / pageSize)).map fun page => page (x % pageSize)

theorem Sys.byteSeen (h : Sys U s) (henv : LookupsOk env) (pid x : ℕ) : byteSeen env s pid x = s.byteAt pid x := by
  rw [Memory.byteSeen,h.seen henv,byteAt]

/-! ### A memory of bytes -/

/-- A process maps two private areas, one right after the other. -/
def mappedBytes : List (Env (ℕ → ℕ) × Call (ℕ → ℕ)) :=
  [.procCreate,.map 0 none 0x500 2 readWrite privateAnon 0 .hilo,.map 0 none 0x502 1 readWrite privateAnon 0 .hilo].map
    fun c => (calmBytes, c)

def sampleBytes : Memory (ℕ → ℕ) := (run (step sampleUser) Allowed emptyBytes mappedBytes).getD emptyBytes

theorem sampleBytes_sys : Sys sampleUser sampleBytes := by
  have h : Exec (step sampleUser) Allowed emptyBytes mappedBytes _ := Exec.ofRun rfl
  exact sys_of_exec emptyBytes_initial.sys h

theorem calmBytes_ok : LookupsOk calmBytes := fun _ => ⟨rfl,rfl⟩

/-- The pages of eight bytes around the start of page 0x502. -/
theorem boundary_pages (hx : 0x501ffc ≤ x) (hxe : x < 0x501ffc+8) : x / pageSize = 0x501 ∨ x / pageSize = 0x502 := by
  unfold pageSize
  omega

/-! ### Writing and reading back -/

/-- Every page of the range is in an area. -/
def MappedRange (s : Memory (ℕ → β)) (pid vaddr count : ℕ) : Prop :=
  ∀ x, vaddr ≤ x → x < vaddr+count → (vmmapLookup (s.vmmList pid) (x / pageSize)).isSome

omit [Zero β] in
theorem MappedRange.congr (h : MappedRange s pid vaddr count) (hl : t.vmmList pid = s.vmmList pid) :
    MappedRange t pid vaddr count := by
  intro x hx hxe
  rw [hl]
  exact h x hx hxe

theorem Sys.mapped_of_byte (h : Sys U s) {y : β} (hb : s.byteAt pid x = some y) :
    (vmmapLookup (s.vmmList pid) (x / pageSize)).isSome := by
  by_contra hc
  rw [Bool.not_eq_true,isSome_eq_false_iff,isNone_iff_eq_none] at hc
  rw [byteAt,h.view_eq_none.mpr hc] at hb
  cases hb

/-- A read returns 0 exactly if the whole range is mapped. -/
theorem Sys.read_returns (h : Sys U s) {out : ℕ → β} (hok : ReadsOk env pid vaddr count ⟨s,out,[]⟩)
    (hsum : vaddr+count < 2 ^ 32) : ∃ z r, Transfer.vmmapRead env pid vaddr count ⟨s,out,[]⟩ = some (z, r) ∧
      (MappedRange s pid vaddr count → r = 0 ∧ ∀ i, i < count → s.byteAt pid (vaddr+i) = some (z.buf i)) ∧
      (¬ MappedRange s pid vaddr count → r < 0) := by
  have hx : Sys U (⟨s,out,[]⟩ : Transfer β).mem := h
  obtain ⟨z,r,hz,hcase⟩ := hx.vmmapRead hok hsum
  refine ⟨z,r,hz,?_⟩
  rcases hcase with ⟨rfl,hf⟩ | ⟨rfl,d,hd,-,hnone⟩
  · refine ⟨fun _ => ⟨rfl,hf.got⟩,fun hm => absurd (fun x hx hxe => ?_) hm⟩
    have hbyte := hf.got (x - vaddr) (by omega)
    rw [show vaddr+(x - vaddr) = x by omega] at hbyte
    exact h.mapped_of_byte hbyte
  · refine ⟨fun hm => ?_,fun _ => by decide⟩
    have hsome := hm (vaddr+d) (by omega) (by omega)
    rw [show vmmapLookup (s.vmmList pid) ((vaddr+d) / pageSize) = none from hnone] at hsome
    cases hsome

/-- A write returns 0 exactly if the whole range is mapped. -/
theorem Sys.write_returns (h : Sys U s) {buf : ℕ → β} (hok : WritesOk env pid vaddr count ⟨s,buf,[]⟩)
    (hsum : vaddr+count < 2 ^ 32) :
    ∃ w r, Transfer.vmmapWrite env pid vaddr count ⟨s,buf,[]⟩ = some (w, r) ∧ Sys U w.mem ∧
      (∀ q, w.mem.vmmList q = s.vmmList q) ∧
      (MappedRange s pid vaddr count → r = 0 ∧ Filled U pid vaddr count buf s (vaddr+count) w.mem) ∧
      (¬ MappedRange s pid vaddr count → r < 0) := by
  have hstart : Filled U pid vaddr count buf s vaddr (⟨s,buf,[]⟩ : Transfer β).mem := .start h
  obtain ⟨w,r,hw,hcase⟩ := hstart.vmmapWrite hok (Nat.le_refl _) (Nat.le_refl _) hsum fun i _ => by
    rw [Nat.sub_self,Nat.zero_add]
  refine ⟨w,r,hw,?_⟩
  rcases hcase with ⟨rfl,hf,-,-⟩ | ⟨rfl,d,hd,⟨hf,-,-⟩,hnone⟩
  · refine ⟨hf.sys,hf.lists,fun _ => ⟨rfl,hf⟩,fun hm => absurd (fun x hx hxe => ?_) hm⟩
    obtain ⟨a,o,ha,-⟩ := hf.resident x hx hxe
    rw [← hf.lists,ha]
    rfl
  · refine ⟨hf.sys,hf.lists,fun hm => ?_,fun _ => by decide⟩
    have hsome := hm (vaddr+d) (by omega) (by omega)
    rw [hnone] at hsome
    cases hsome

/-- What is written is read back, and a write to private areas leaves every byte outside
the range alone. A range with a page that is not mapped is refused by both. -/
theorem write_read_inverse (h : Sys U s) (henv : LookupsOk env) (henv' : LookupsOk env') (pid : ℕ)
    (hsum : vaddr+count < 2 ^ 32) (buf out : ℕ → β) :
    ∃ w r z r', Transfer.vmmapWrite env pid vaddr count ⟨s,buf,[]⟩ = some (w, r) ∧
      Transfer.vmmapRead env' pid vaddr count ⟨w.mem,out,[]⟩ = some (z, r') ∧
      (MappedRange s pid vaddr count → r = 0 ∧ r' = 0 ∧
        (Apart s pid vaddr count → ∀ i, i < count → z.buf i = buf i) ∧
        (InPrivate s pid vaddr count → ∀ x, x < vaddr ∨ vaddr+count ≤ x →
          byteSeen env' w.mem pid x = byteSeen env' s pid x)) ∧
      (¬ MappedRange s pid vaddr count → r < 0 ∧ r' < 0 ∧
        ∃ z r, Transfer.vmmapRead env pid vaddr count ⟨s,out,[]⟩ = some (z, r) ∧ r < 0) := by
  obtain ⟨w,r,hw,hsys,hlists,hmapped,hrefused⟩ := h.write_returns (henv.writesOk pid vaddr count ⟨s,buf,[]⟩) hsum
  obtain ⟨z,r',hz,hmapped',hrefused'⟩ := hsys.read_returns (henv'.readsOk pid vaddr count ⟨w.mem,out,[]⟩) hsum
  refine ⟨w,r,z,r',hw,hz,fun hm => ?_,fun hm => ?_⟩
  · obtain ⟨hr,hf⟩ := hmapped hm
    obtain ⟨hr',hgot⟩ := hmapped' (hm.congr (hlists pid))
    refine ⟨hr,hr',fun hap i hi => ?_,fun hpr x hx => ?_⟩
    · have hbyte := hf.written hap (vaddr+i) (by omega) (by omega)
      rw [hgot i hi,Nat.add_sub_cancel_left] at hbyte
      exact some.inj hbyte
    · rw [hsys.byteSeen henv',h.byteSeen henv']
      exact hf.outside hpr pid x (by omega)
  · obtain ⟨z0,r0,hz0,-,hr0⟩ := h.read_returns (henv.readsOk pid vaddr count ⟨s,out,[]⟩) hsum
    exact ⟨hrefused hm,hrefused' fun hm' => hm (hm'.congr (hlists pid).symm),z0,r0,hz0,hr0 hm⟩

theorem write_read_inverse_sampleBytes : ∃ w z,
    Transfer.vmmapWrite calmBytes 0 0x501ffc 8 ⟨sampleBytes,id,[]⟩ = some (w, 0) ∧
    Transfer.vmmapRead calmBytes 0 0x501ffc 8 ⟨w.mem,0,[]⟩ = some (z, 0) ∧ (∀ i, i < 8 → z.buf i = i) ∧
    byteSeen calmBytes w.mem 0 0x501ffb = byteSeen calmBytes sampleBytes 0 0x501ffb := by
  obtain ⟨w,r,z,r',hw,hz,hmapped,-⟩ := write_read_inverse sampleBytes_sys calmBytes_ok calmBytes_ok 0
    (show 0x501ffc+8 < 2 ^ 32 by decide) id 0
  obtain ⟨rfl,rfl,hback,hsame⟩ := hmapped fun x hx hxe => by
    rcases boundary_pages hx hxe with he | he <;> rw [he] <;> rfl
  have hap : Apart sampleBytes 0 0x501ffc 8 := by
    intro x y hx hxe hy hye he
    rcases boundary_pages hx hxe with hx | hx <;> rcases boundary_pages hy hye with hy | hy <;> rw [hx,hy] at he ⊢
    · exact absurd he (by decide)
    · exact absurd he (by decide)
  have hpr : InPrivate sampleBytes 0 0x501ffc 8 := by
    intro x hx hxe a ha
    rcases boundary_pages hx hxe with he | he <;> rw [he] at ha <;> cases ha <;> rfl
  exact ⟨w,z,hw,hz,hback hap,hsame hpr _ (by decide)⟩

/-! ### Where a copy ends -/

/-- After `d` bytes a copy of a range returns `r`: the range is done, or it wraps and
nothing was done, or the next page is not mapped. -/
def EndsAfter (s : Memory (ℕ → β)) (pid vaddr count d : ℕ) (r : ℤ) : Prop :=
  r = 0 ∧ d = count ∧ vaddr+count < 2 ^ 32 ∨ r = 0 ∧ d = 0 ∧ 2 ^ 32 ≤ vaddr+count ∨
    r < 0 ∧ d < count ∧ vmmapLookup (s.vmmList pid) ((vaddr+d) / pageSize) = none

/-- Where no lookup fails, both copies return and have gone through the buffer from its
start up to where they ended; a read has put there what is seen in memory and nothing else,
and a write has written what is there. A lookup that fails is never reported. A range that wraps
is not gone through. -/
theorem copies_transfer_prefix (h : Sys U s) (env : Env (ℕ → β)) (henv' : LookupsOk env') (pid : ℕ) (hv : vaddr < 2 ^ 32)
    (hc : count < 2 ^ 32) (buf : ℕ → β) :
    ((∃ y r d, Transfer.vmmapRead env pid vaddr count ⟨s,buf,[]⟩ = some (y, r) ∧ Tiles y.touched 0 d ∧
      EndsAfter s pid vaddr count d r ∧ (∀ i, i < d → byteSeen env' s pid (vaddr+i) = some (y.buf i)) ∧
      ∀ i, d ≤ i → y.buf i = buf i) ↔ (vaddr+count < 2 ^ 32 → ReadsOk env pid vaddr count ⟨s,buf,[]⟩)) ∧
    ((∃ y r d, Transfer.vmmapWrite env pid vaddr count ⟨s,buf,[]⟩ = some (y, r) ∧ Tiles y.touched 0 d ∧
      EndsAfter s pid vaddr count d r ∧
      (Apart s pid vaddr count → ∀ i, i < d → byteSeen env' y.mem pid (vaddr+i) = some (buf i)) ∧
      (InPrivate s pid vaddr count → ∀ q x, ¬ (q = pid ∧ vaddr ≤ x ∧ x < vaddr+d) →
        byteSeen env' y.mem q x = byteSeen env' s q x)) ↔
      (vaddr+count < 2 ^ 32 → WritesOk env pid vaddr count ⟨s,buf,[]⟩)) := by
  by_cases hsum : vaddr+count < 2 ^ 32
  · refine ⟨⟨fun hret _ => ?_,fun hok => ?_⟩,⟨fun hret _ => ?_,fun hok => ?_⟩⟩
    · obtain ⟨y,r,-,hy,-⟩ := hret
      exact readsOk_of_vmmapRead hsum hy
    · have hx : Sys U (⟨s,buf,[]⟩ : Transfer β).mem := h
      obtain ⟨y,r,hy,hcase⟩ := hx.vmmapRead (hok hsum) hsum
      obtain ⟨d,hf,hend⟩ : ∃ d, Fetched U pid vaddr ⟨s,buf,[]⟩ d y ∧ EndsAfter s pid vaddr count d r := by
        rcases hcase with ⟨rfl,hf⟩ | ⟨rfl,d,hd,hf,hnone⟩
        · exact ⟨count,hf,.inl ⟨rfl,rfl,hsum⟩⟩
        · exact ⟨d,hf,.inr (.inr ⟨by decide,hd,hnone⟩)⟩
      obtain ⟨l,hl,ht⟩ := hf.touched
      refine ⟨y,r,d,hy,by rw [hl]; exact ht,hend,fun i hi => ?_,hf.rest⟩
      rw [h.byteSeen henv']
      exact hf.got i hi
    · obtain ⟨y,r,-,hy,-⟩ := hret
      exact writesOk_of_vmmapWrite hsum hy
    · have hstart : Filled U pid vaddr count buf s vaddr (⟨s,buf,[]⟩ : Transfer β).mem := .start h
      obtain ⟨y,r,hy,hcase⟩ := hstart.vmmapWrite (hok hsum) (Nat.le_refl _) (Nat.le_refl _) hsum fun i _ => by
        rw [Nat.sub_self,Nat.zero_add]
      obtain ⟨d,⟨hf,-,l,hl,ht⟩,hend⟩ : ∃ d, Stored U pid vaddr count buf s vaddr ⟨s,buf,[]⟩ d y ∧
          EndsAfter s pid vaddr count d r := by
        rcases hcase with ⟨rfl,hf⟩ | ⟨rfl,d,hd,hf,hnone⟩
        · exact ⟨count,hf,.inl ⟨rfl,rfl,hsum⟩⟩
        · exact ⟨d,hf,.inr (.inr ⟨by decide,hd,hnone⟩)⟩
      refine ⟨y,r,d,hy,by rw [hl]; exact ht,hend,fun hap i hi => ?_,fun hpr q x hne => ?_⟩
      · rw [hf.sys.byteSeen henv',hf.written hap (vaddr+i) (by omega) (by omega),Nat.add_sub_cancel_left]
      · rw [hf.sys.byteSeen henv',h.byteSeen henv']
        exact hf.outside hpr q x hne
  · have hend : EndsAfter s pid vaddr count 0 0 := .inr (.inl ⟨rfl,rfl,by omega⟩)
    refine ⟨iff_of_true ?_ fun hlt => absurd hlt hsum,iff_of_true ?_ fun hlt => absurd hlt hsum⟩
    · exact ⟨_,0,0,Transfer.copyLoop_wrap hv hc (by omega) _,rfl,hend,by omega,fun _ _ => rfl⟩
    · exact ⟨_,0,0,Transfer.copyLoop_wrap hv hc (by omega) _,rfl,hend,by omega,fun _ _ _ _ => rfl⟩

/-- Page 0x503 is not mapped. -/
theorem copies_transfer_prefix_sampleBytes : ∃ y r d,
    Transfer.vmmapRead calmBytes 0 0x502ffe 8 ⟨sampleBytes,id,[]⟩ = some (y, r) ∧
    EndsAfter sampleBytes 0 0x502ffe 8 d r ∧ ∀ i, d ≤ i → y.buf i = i := by
  obtain ⟨y,r,d,hy,-,hend,-,hrest⟩ := ( copies_transfer_prefix sampleBytes_sys calmBytes calmBytes_ok 0
    (show 0x502ffe < 2 ^ 32 by decide) (show 8 < 2 ^ 32 by decide) id).1.mpr fun _ => calmBytes_ok.readsOk 0 0x502ffe 8 _
  exact ⟨y,r,d,hy,hend,hrest⟩

/-- No frame can be had. -/
def noFrames : Env (ℕ → ℕ) := { calmBytes with allocOk := fun _ => false }

/-- The lookup of a mapped page fails, and both copies go on with a frame that no lookup
returned. -/
theorem failed_lookup_not_reported : ((lookupVfn noFrames 0 0x501 false sampleBytes).any fun x => x.2.isNone) ∧
    ((lookupVfn noFrames 0 0x501 true sampleBytes).any fun x => x.2.isNone) ∧
    Transfer.vmmapRead noFrames 0 0x501000 8 ⟨sampleBytes,id,[]⟩ = none ∧
    Transfer.vmmapWrite noFrames 0 0x501000 8 ⟨sampleBytes,id,[]⟩ = none := by
  refine ⟨by decide,by decide,isNone_iff_eq_none.mp ?_,isNone_iff_eq_none.mp ?_⟩
  · decide +kernel
  · decide +kernel

end Memory

end Csci402.Vm
