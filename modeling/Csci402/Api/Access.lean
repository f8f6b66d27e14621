import Csci402.Vm.Copies

/-! Access to user memory by system calls (`api/access.c`). `range_perm` looks at one
address for every page size of the range, and only at whether it is mapped; the copies
trust what it says. -/

namespace Csci402.Api

open Vm Vm.Memory Option

variable {l : List Vmarea} {avaddr len : ℕ} {perm : Prot}

/-- `addr_perm`. The test of the protection is commented out in the source, so `_perm` is
not looked at. -/
def addrPerm (l : List Vmarea) (vaddr : ℕ) (_perm : Prot) : Bool := (vmmapLookup l (vaddr / pageSize)).isSome

/-- The loop of `range_perm`. -/
def rangeLoop (l : List Vmarea) (avaddr len : ℕ) (perm : Prot) : (fuel offset : ℕ) → Option Bool
  | 0, _ => none
  | n+1, offset =>
    if offset < len then
      if addrPerm l (u32 (avaddr+offset)) perm then rangeLoop l avaddr len perm n (u32 (offset+pageSize))
      else some false
    else some true

/-- `range_perm`; `none` if its loop goes on after an offset for every page of the range. -/
def rangePerm (l : List Vmarea) (avaddr len : ℕ) (perm : Prot) : Option Bool :=
  rangeLoop l avaddr len perm (len / pageSize+2) 0

/-- The errors of a copy: `-EFAULT`, or what `vmmap_read` or `vmmap_write` returned. -/
inductive CopyError where
  | efault
  | vmmap (r : ℤ)
  deriving DecidableEq, Repr

def protRead : Prot := ⟨true,false,false⟩

def protWrite : Prot := ⟨false,true,false⟩

def copyResult (r : ℤ) : Except CopyError Unit := if r < 0 then .error (.vmmap r) else .ok ()

section Copies

variable {β : Type}

/-- A range that `range_perm` passes is copied. -/
def copyUser (perm : Prot) (copy : Transfer β → Option (Transfer β × ℤ)) (pid uaddr nbytes : ℕ) (x : Transfer β) :
    Option (Transfer β × Except CopyError Unit) := do
  if ← rangePerm (x.mem.vmmList pid) uaddr nbytes perm then
    let (x, r) ← copy x
    return (x, copyResult r)
  else return (x, .error .efault)

variable [Zero β]

def copyFromUser (env : Env (ℕ → β)) (pid uaddr nbytes : ℕ) : Transfer β → Option (Transfer β × Except CopyError Unit) :=
  copyUser protRead (Transfer.vmmapRead env pid uaddr nbytes) pid uaddr nbytes

def copyToUser (env : Env (ℕ → β)) (pid uaddr nbytes : ℕ) : Transfer β → Option (Transfer β × Except CopyError Unit) :=
  copyUser protWrite (Transfer.vmmapWrite env pid uaddr nbytes) pid uaddr nbytes

end Copies

/-! ### The loop of `range_perm` -/

/-- The area of the address. Addresses are numbers of 32 bits. -/
def areaAt (l : List Vmarea) (x : ℕ) : Option Vmarea := vmmapLookup l (u32 x / pageSize)

/-- The address that is looked at in round `k`. -/
def sampled (avaddr k : ℕ) : ℕ := avaddr+k*pageSize

variable {U : UserMem}

theorem areaAt_wrap (h : AreasOk U l) {x : ℕ} (hx : U.high ≤ u32 x / pageSize ∨ u32 x / pageSize < U.low) :
    areaAt l x = none := by
  refine eq_none_iff_forall_ne_some.mpr fun a ha => ?_
  obtain ⟨hm,hlo,hhi⟩ := vmmapLookup_mem ha
  have := h.bounds a hm
  omega

/-- The loop does not come back to its first address: one of the pages is not mapped. -/
theorem exists_unmapped (h : AreasOk U l) (avaddr : ℕ) : ∃ k, k < 2 ^ 20 ∧ areaAt l (sampled avaddr k) = none := by
  refine ⟨(2 ^ 20 - avaddr / pageSize % 2 ^ 20) % 2 ^ 20,Nat.mod_lt _ (by decide),areaAt_wrap h (.inr ?_)⟩
  have := U.low_pos
  unfold sampled u32 pageSize
  omega

theorem addrPerm_sampled (l : List Vmarea) (avaddr k : ℕ) (perm : Prot) :
    addrPerm l (u32 ((avaddr : ℤ)+(k*pageSize : ℕ))) perm = (areaAt l (sampled avaddr k)).isSome := by
  rw [addrPerm,areaAt,sampled,Nat.cast_add]

/-- Every address that is looked at is mapped. -/
def AllSampled (l : List Vmarea) (avaddr len : ℕ) : Prop := ∀ j, j*pageSize < len → (areaAt l (sampled avaddr j)).isSome

/-- Round `k` is reached if the addresses before it are mapped. -/
theorem rangeLoop_spec (h : AreasOk U l) {fuel k : ℕ} (hk : k ≤ len / pageSize+1)
    (hfuel : len / pageSize+1 < fuel+k) (hdone : ∀ j, j < k → (areaAt l (sampled avaddr j)).isSome) :
    ∃ b, rangeLoop l avaddr len perm fuel (k*pageSize) = some b ∧ (b = true ↔ AllSampled l avaddr len) := by
  induction fuel generalizing k with
  | zero => omega
  | succ fuel ih =>
    unfold rangeLoop
    by_cases hlt : k*pageSize < len
    · rw [if_pos hlt,addrPerm_sampled]
      cases hmap : (areaAt l (sampled avaddr k)).isSome with
      | false =>
        refine ⟨false,rfl,iff_of_false (by decide) fun hall => ?_⟩
        rw [hall k hlt] at hmap
        cases hmap
      | true =>
        have hnext : ∀ j, j < k+1 → (areaAt l (sampled avaddr j)).isSome := by
          intro j hj
          rcases Nat.lt_succ_iff_lt_or_eq.mp hj with hj | rfl
          · exact hdone j hj
          · exact hmap
        have hsmall : k+1 < 2 ^ 20 := by
          obtain ⟨j,hj,hnone⟩ := exists_unmapped h avaddr
          by_contra hc
          have hsome := hnext j (by omega)
          rw [hnone] at hsome
          cases hsome
        rw [if_pos rfl,show u32 ((k*pageSize : ℕ)+(pageSize : ℕ) : ℤ) = (k+1)*pageSize by
          rw [u32_add] <;> unfold pageSize <;> omega]
        exact ih (by unfold pageSize at *; omega) (by omega) hnext
    · rw [if_neg hlt]
      refine ⟨true,rfl,iff_of_true rfl fun j hj => hdone j ?_⟩
      unfold pageSize at *
      omega

/-- `range_perm` says whether the addresses it looks at are mapped. -/
theorem rangePerm_spec (h : AreasOk U l) (avaddr len : ℕ) (perm : Prot) :
    ∃ b, rangePerm l avaddr len perm = some b ∧ (b = true ↔ AllSampled l avaddr len) := by
  have hloop : ∃ b, rangeLoop l avaddr len perm (len / pageSize+2) (0*pageSize) = some b ∧
      (b = true ↔ AllSampled l avaddr len) := rangeLoop_spec h
    (Nat.zero_le _) (Nat.lt_succ_self _) fun j hj => absurd hj (Nat.not_lt_zero j)
  rwa [Nat.zero_mul] at hloop

theorem rangePerm_eq_true (h : AreasOk U l) : rangePerm l avaddr len perm = some true ↔ AllSampled l avaddr len := by
  obtain ⟨b,hb,hiff⟩ := rangePerm_spec h avaddr len perm
  rw [hb,some.injEq,hiff]

theorem rangePerm_eq_false (h : AreasOk U l) : rangePerm l avaddr len perm = some false ↔ ¬AllSampled l avaddr len := by
  obtain ⟨b,hb,hiff⟩ := rangePerm_spec h avaddr len perm
  rw [hb,some.injEq,← hiff,Bool.not_eq_true]

/-- The last byte of the range is mapped. -/
def LastMapped (l : List Vmarea) (avaddr len : ℕ) : Prop := ∀ i, i+1 = len → (areaAt l (avaddr+i)).isSome

/-- Every page of the range but the last has an address that is looked at. -/
theorem allMapped_iff : (∀ i, i < len → (areaAt l (avaddr+i)).isSome) ↔ AllSampled l avaddr len ∧ LastMapped l avaddr len := by
  refine ⟨fun hall => ⟨fun j hj => hall _ hj,fun i hi => hall i (by omega)⟩,fun ⟨hall,hlast⟩ i hi => ?_⟩
  have page : ∀ {y : ℕ}, (areaAt l y).isSome → u32 y / pageSize = u32 (avaddr+i : ℕ) / pageSize →
      (areaAt l (avaddr+i)).isSome := by
    intro y hy he
    rwa [areaAt,← he]
  unfold AllSampled sampled at hall
  by_cases hsame : avaddr % pageSize+i % pageSize < pageSize
  · refine page (hall (i / pageSize) ?_) ?_ <;> unfold u32 pageSize at * <;> omega
  by_cases hnext : (i / pageSize+1)*pageSize < len
  · refine page (hall (i / pageSize+1) hnext) ?_
    unfold u32 pageSize at *
    omega
  · refine page (hlast (len - 1) (by omega)) ?_
    unfold u32 pageSize at *
    omega

/-- A range that passes does not wrap: it would reach the last page of the address space. -/
theorem sum_lt_of_allSampled (h : AreasOk U l) (hv : avaddr < 2 ^ 32) (hall : AllSampled l avaddr len) :
    avaddr+len < 2 ^ 32 := by
  have hhigh := U.high_lt
  by_contra hc
  have hsome := hall ((2 ^ 32 - 1 - avaddr) / pageSize) (by unfold pageSize; omega)
  rw [areaAt_wrap h (.inl (by unfold sampled u32 pageSize; omega))] at hsome
  cases hsome

/-! ### The copies -/

/-- The protection allows all that is asked for. -/
def Includes (prot perm : Prot) : Prop :=
  (perm.read → prot.read) ∧ (perm.write → prot.write) ∧ (perm.exec → prot.exec)

/-- The address is in an area whose protection allows all that is asked for. -/
def Allows (l : List Vmarea) (perm : Prot) (x : ℕ) : Prop :=
  ∃ a ∈ l, a.vmaStart ≤ u32 x / pageSize ∧ u32 x / pageSize < a.vmaEnd ∧ Includes a.vmaProt perm

theorem allows_iff (hok : AreasOk U l) {x : ℕ} : Allows l perm x ↔ ∃ a, areaAt l x = some a ∧ Includes a.vmaProt perm := by
  refine exists_congr fun a => ?_
  rw [areaAt,vmmapLookup_eq_some hok,and_assoc,and_assoc]

section Run

variable {β : Type} [Zero β] {U : UserMem} {env env' : Env (ℕ → β)} {s : Memory (ℕ → β)} {pid : ℕ} {x : Transfer β}

omit [Zero β] in
theorem mappedRange_iff (hsum : avaddr+len < 2 ^ 32) :
    MappedRange s pid avaddr len ↔ ∀ i, i < len → (areaAt (s.vmmList pid) (avaddr+i)).isSome := by
  have hu : ∀ y : ℕ, y < 2 ^ 32 → u32 y = y := by
    intro y hy
    unfold u32
    omega
  constructor
  · intro h i hi
    rw [areaAt,hu _ (by omega)]
    exact h (avaddr+i) (by omega) (by omega)
  · intro h y hy hye
    have hsome := h (y - avaddr) (by omega)
    rwa [areaAt,Nat.add_sub_cancel' hy,hu y (by omega)] at hsome

omit [Zero β] in
theorem no_hole (h : MappedRange s pid avaddr len) {d : ℕ} (hd : d < len) :
    vmmapLookup (s.vmmList pid) ((avaddr+d) / pageSize) ≠ none := by
  intro hnone
  have hsome := h (avaddr+d) (by omega) (by omega)
  rw [hnone] at hsome
  cases hsome

section Cases

variable {copy : Transfer β → Option (Transfer β × ℤ)}

omit [Zero β]

theorem copyUser_refused (h : Sys U x.mem) (hno : ¬AllSampled (x.mem.vmmList pid) avaddr len) :
    copyUser perm copy pid avaddr len x = some (x, .error .efault) := by
  simp only [copyUser,(rangePerm_eq_false (h.list pid).ok).mpr hno]
  rfl

theorem copyUser_passed (h : Sys U x.mem) (hall : AllSampled (x.mem.vmmList pid) avaddr len) :
    copyUser perm copy pid avaddr len x = (copy x).map fun y => (y.1, copyResult y.2) := by
  simp only [copyUser,(rangePerm_eq_true (h.list pid).ok).mpr hall,bind_eq_bind,bind_some,if_true,
    map_eq_bind]
  rfl

end Cases

/-- An address that no area has, or that is past the end of the address space. -/
theorem byteAt_eq_none (h : Sys U s) {y : ℕ} (hy : areaAt (s.vmmList pid) y = none) : s.byteAt pid y = none := by
  have hhigh := U.high_lt
  have hnone : vmmapLookup (s.vmmList pid) (y / pageSize) = none := by
    by_cases hlt : y < 2 ^ 32
    · rwa [areaAt,show u32 (y : ℤ) = y by unfold u32; omega] at hy
    · by_contra hc
      obtain ⟨a,ha⟩ := ne_none_iff_exists'.mp hc
      obtain ⟨hm,-,hend⟩ := vmmapLookup_mem ha
      have hbound := ((h.list pid).ok.bounds a hm).2
      unfold pageSize at hend
      omega
  rw [byteAt,h.view_eq_none.mpr hnone]
  rfl

/-- The copy returns: it has read everything, or there is a byte that is not mapped. -/
theorem copyFromUser_returns (h : Sys U x.mem) (henv : LookupsOk env) (pid : ℕ) (hv : avaddr < 2 ^ 32) (len : ℕ) :
    ∃ y r, copyFromUser env pid avaddr len x = some (y, r) ∧
      (r = .ok () ∧ Fetched U pid avaddr x len y ∨ (∃ e, r = .error e) ∧
        (∃ d, d ≤ len ∧ Fetched U pid avaddr x d y) ∧ ∃ i, i < len ∧ x.mem.byteAt pid (avaddr+i) = none) := by
  have hok := (h.list pid).ok
  by_cases hall : AllSampled (x.mem.vmmList pid) avaddr len
  · have hsum := sum_lt_of_allSampled hok hv hall
    obtain ⟨y,r,hy,hcase⟩ := h.vmmapRead (henv.readsOk pid avaddr len x) hsum
    have hcopy : copyFromUser env pid avaddr len x = some (y, copyResult r) := by
      rw [copyFromUser,copyUser_passed h hall,hy]
      rfl
    rcases hcase with ⟨rfl,hf⟩ | ⟨rfl,d,hd,hf,hnone⟩
    · exact ⟨y,_,hcopy,.inl ⟨rfl,hf⟩⟩
    · refine ⟨y,_,hcopy,.inr ⟨⟨_,rfl⟩,⟨d,Nat.le_of_lt hd,hf⟩,d,hd,?_⟩⟩
      rw [byteAt,h.view_eq_none.mpr hnone]
      rfl
  · have hrefused : copyFromUser env pid avaddr len x = some (x, .error .efault) := copyUser_refused h hall
    obtain ⟨j,hj,hnone⟩ : ∃ j, j*pageSize < len ∧ areaAt (x.mem.vmmList pid) (sampled avaddr j) = none := by
      by_contra hc
      refine hall fun j hj => ?_
      by_contra hn
      exact hc ⟨j,hj,not_isSome_iff_eq_none.mp hn⟩
    exact ⟨x,_,hrefused,.inr ⟨⟨_,rfl⟩,⟨0,Nat.zero_le _,.start h⟩,j*pageSize,hj,byteAt_eq_none h hnone⟩⟩

/-- A range that is mapped is written; it may be the next part of a longer one. -/
theorem copyToUser_mapped {base count : ℕ} {data : ℕ → β} (h : Filled U pid base count data s avaddr x.mem)
    (hok : WritesOk env pid avaddr len x) (hba : base ≤ avaddr) (hin : avaddr+len ≤ base+count) (hsum : avaddr+len < 2 ^ 32)
    (hbuf : ∀ i, i < len → x.buf i = data (avaddr - base+i)) (hm : MappedRange s pid avaddr len) :
    ∃ y, copyToUser env pid avaddr len x = some (y, .ok ()) ∧ Stored U pid base count data s avaddr x len y := by
  obtain ⟨y,r,hy,hcase⟩ := h.vmmapWrite hok hba hin hsum hbuf
  rcases hcase with ⟨rfl,hf⟩ | ⟨-,d,hd,-,hnone⟩
  · refine ⟨y,?_,hf⟩
    have hm' : MappedRange x.mem pid avaddr len := hm.congr (h.lists pid)
    rw [copyToUser,copyUser_passed h.sys (allMapped_iff.mp ((mappedRange_iff hsum).mp hm')).1,hy]
    rfl
  · exact absurd hnone (no_hole hm hd)

/-- `range_perm` decides whether every byte is accessible, just where the addresses it looks at are
not all mapped, or the last byte is mapped as well and the areas allow what is asked for. The copies
copy everything or nothing just where the last byte is mapped and no lookup fails. -/
theorem range_perm_decides (h : Sys U s) (env : Env (ℕ → β)) (henv' : LookupsOk env') (pid : ℕ) (hv : avaddr < 2 ^ 32)
    (len : ℕ) (perm : Prot) (buf : ℕ → β) : ((∃ b, rangePerm (s.vmmList pid) avaddr len perm = some b ∧
      (b = true ↔ ∀ i, i < len → Allows (s.vmmList pid) perm (avaddr+i))) ↔
      (AllSampled (s.vmmList pid) avaddr len → LastMapped (s.vmmList pid) avaddr len ∧
        ∀ i, i < len → ∀ a, areaAt (s.vmmList pid) (avaddr+i) = some a → Includes a.vmaProt perm)) ∧
    ((∃ y r, copyFromUser env pid avaddr len ⟨s,buf,[]⟩ = some (y, r) ∧
      (r = .error .efault ∧ y = ⟨s,buf,[]⟩ ∨
        r = .ok () ∧ ∀ i, i < len → byteSeen env' s pid (avaddr+i) = some (y.buf i))) ↔
      (AllSampled (s.vmmList pid) avaddr len → LastMapped (s.vmmList pid) avaddr len ∧
        ReadsOk env pid avaddr len ⟨s,buf,[]⟩)) ∧
    ((∃ y r, copyToUser env pid avaddr len ⟨s,buf,[]⟩ = some (y, r) ∧
      (r = .error .efault ∧ y = ⟨s,buf,[]⟩ ∨ r = .ok () ∧ Tiles y.touched 0 len ∧
        (Apart s pid avaddr len → ∀ i, i < len → byteSeen env' y.mem pid (avaddr+i) = some (buf i)))) ↔
      (AllSampled (s.vmmList pid) avaddr len → LastMapped (s.vmmList pid) avaddr len ∧
        WritesOk env pid avaddr len ⟨s,buf,[]⟩)) := by
  have hok := (h.list pid).ok
  have hx : Sys U (⟨s,buf,[]⟩ : Transfer β).mem := h
  by_cases hall : AllSampled (s.vmmList pid) avaddr len
  · have hsum := sum_lt_of_allSampled hok hv hall
    have hmap : MappedRange s pid avaddr len ↔ LastMapped (s.vmmList pid) avaddr len := by
      rw [mappedRange_iff hsum,allMapped_iff,and_iff_right hall]
    refine ⟨?_,⟨?_,?_⟩,⟨?_,?_⟩⟩
    · simp only [(rangePerm_eq_true hok).mpr hall,some.injEq,exists_eq_left',true_iff,allows_iff hok]
      refine ⟨fun hc _ => ⟨fun i hi => ?_,fun i hi a ha => ?_⟩,fun hc i hi => ?_⟩
      · obtain ⟨a,ha,-⟩ := hc i (by omega)
        exact isSome_of_eq_some ha
      · obtain ⟨b,hb,hin⟩ := hc i hi
        cases ha.symm.trans hb
        exact hin
      · obtain ⟨a,ha⟩ := isSome_iff_exists.mp (allMapped_iff.mpr ⟨hall,(hc hall).1⟩ i hi)
        exact ⟨a,ha,(hc hall).2 i hi a ha⟩
    · rintro ⟨y,r,hy,hcase⟩ -
      rw [copyFromUser,copyUser_passed hx hall] at hy
      obtain ⟨⟨z,n⟩,hz,he⟩ := map_eq_some_iff.mp hy
      cases he
      have hreads := readsOk_of_vmmapRead hsum hz
      obtain ⟨z',n',hz',-,hhole⟩ := h.read_returns hreads hsum
      cases hz.symm.trans hz'
      refine ⟨hmap.mp ?_,hreads⟩
      by_contra hm
      simp [copyResult,hhole hm] at hcase
    · intro hc
      obtain ⟨hlast,hreads⟩ := hc hall
      obtain ⟨y,n,hy,hread,-⟩ := h.read_returns hreads hsum
      obtain ⟨rfl,hgot⟩ := hread (hmap.mpr hlast)
      refine ⟨y,_,by rw [copyFromUser,copyUser_passed hx hall,hy]; rfl,.inr ⟨rfl,fun i hi => ?_⟩⟩
      rw [h.byteSeen henv']
      exact hgot i hi
    · rintro ⟨y,r,hy,hcase⟩ -
      rw [copyToUser,copyUser_passed hx hall] at hy
      obtain ⟨⟨z,n⟩,hz,he⟩ := map_eq_some_iff.mp hy
      cases he
      have hwrites := writesOk_of_vmmapWrite hsum hz
      obtain ⟨z',n',hz',-,-,-,hhole⟩ := h.write_returns hwrites hsum
      cases hz.symm.trans hz'
      refine ⟨hmap.mp ?_,hwrites⟩
      by_contra hm
      simp [copyResult,hhole hm] at hcase
    · intro hc
      obtain ⟨hlast,hwrites⟩ := hc hall
      have hstart : Filled U pid avaddr len buf s avaddr (⟨s,buf,[]⟩ : Transfer β).mem := .start h
      obtain ⟨y,hy,hf,-,l,hl,ht⟩ := copyToUser_mapped hstart hwrites (Nat.le_refl _) (Nat.le_refl _) hsum
        (fun i _ => by rw [Nat.sub_self,Nat.zero_add]) (hmap.mpr hlast)
      refine ⟨y,_,hy,.inr ⟨rfl,by rw [hl]; exact ht,fun hap i hi => ?_⟩⟩
      rw [hf.sys.byteSeen henv',hf.written hap (avaddr+i) (by omega) (by omega),Nat.add_sub_cancel_left]
  · refine ⟨iff_of_true ?_ fun hc => absurd hc hall,iff_of_true ?_ fun hc => absurd hc hall,
      iff_of_true ?_ fun hc => absurd hc hall⟩
    · refine ⟨false,(rangePerm_eq_false hok).mpr hall,iff_of_false Bool.false_ne_true fun hc => hall fun j hj => ?_⟩
      obtain ⟨a,ha,-⟩ := (allows_iff hok).mp (hc _ hj)
      exact isSome_of_eq_some ha
    · exact ⟨_,_,copyUser_refused hx hall,.inl ⟨rfl,rfl⟩⟩
    · exact ⟨_,_,copyUser_refused hx hall,.inl ⟨rfl,rfl⟩⟩

end Run

/-- Eight bytes from before the end of page 0x501, where page 0x502 has no address that is looked at. -/
theorem range_perm_decides_sampleBytes : (∃ b, rangePerm (sampleBytes.vmmList 0) 0x501ffc 8 protRead = some b ∧
      (b = true ↔ ∀ i, i < 8 → Allows (sampleBytes.vmmList 0) protRead (0x501ffc+i))) ∧
    ∃ y r, copyFromUser calmBytes 0 0x501ffc 8 ⟨sampleBytes,id,[]⟩ = some (y, r) ∧
      (r = .error .efault ∧ y = ⟨sampleBytes,id,[]⟩ ∨
        r = .ok () ∧ ∀ i, i < 8 → byteSeen calmBytes sampleBytes 0 (0x501ffc+i) = some (y.buf i)) := by
  have hlast : LastMapped (sampleBytes.vmmList 0) 0x501ffc 8 := by
    intro i hi
    obtain rfl : i = 7 := by omega
    decide +kernel
  have hd := range_perm_decides sampleBytes_sys calmBytes calmBytes_ok 0 (show 0x501ffc < 2 ^ 32 by decide) 8 protRead id
  refine ⟨hd.1.mpr fun _ => ⟨hlast,?_⟩,hd.2.1.mpr fun _ => ⟨hlast,calmBytes_ok.readsOk 0 0x501ffc 8 _⟩⟩
  have hprot : ∀ a ∈ sampleBytes.vmmList 0, a.vmaProt = readWrite := by decide +kernel
  intro i _ a ha
  rw [hprot a (vmmapLookup_mem ha).1]
  exact ⟨fun _ => rfl,fun _ => rfl,fun hc => absurd hc (by decide)⟩

def protExec : Prot := ⟨false,false,true⟩

/-- Page 0x503 is not mapped, but the range of eight bytes that starts two bytes before it
passes, and two bytes are copied before `vmmap_read` finds that out. No page may be
executed, but `range_perm` does not mind. -/
theorem range_perm_overlooks : rangePerm (sampleBytes.vmmList 0) 0x502ffe 8 protRead = some true ∧
    ¬ Allows (sampleBytes.vmmList 0) protRead (0x502ffe+2) ∧
    ((copyFromUser calmBytes 0 0x502ffe 8 ⟨sampleBytes,id,[]⟩).any fun y =>
      y.2 matches .error (.vmmap (-1)) && y.1.touched = [(0, 2)]) ∧
    rangePerm (sampleBytes.vmmList 0) 0x501000 8 protExec = some true ∧
    ¬ Allows (sampleBytes.vmmList 0) protExec 0x501000 := by
  unfold Allows Includes
  decide +kernel

end Csci402.Api
