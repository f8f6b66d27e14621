import Csci402.Vm.Entries
import Csci402.Vm.Offsets

/-! Page tables and lookups. An entry has the frame that a read lookup of its page finds, so
that the user and the kernel see the same bytes. Three things can take this away from an
entry: a copy of the page that the kernel makes when it writes, the freeing of the frame when
the area is not on the list of its bottom object, and a range that is removed past the end of
the address space. Where they do not happen, every entry stays right. -/

namespace Csci402.Vm

namespace Memory

open Lib Function Option

variable {D : Type} {U : UserMem} {s t : Memory D} {ext : ℕ → ℤ} {env : Env D} {pid q v u n f o o' : ℕ} {a b : Vmarea}
  {x : Option ℕ × ℕ × Prot × MapFlags} {e : ℕ × Bool}

/-- The frame of the entry is the one found for the page. -/
def Finds (s : Memory D) (x : Option ℕ × ℕ × Prot × MapFlags) (e : ℕ × Bool) : Prop :=
  ∃ o, x.1 = some o ∧ s.nearest o x.2.1 = some e.1

theorem Finds.survives (h : Sys U s) (h' : Sys U t) (hs : Survives s t) (hx : Vm.trans (s.vmmList q) v = some x)
    (hx' : Vm.trans (t.vmmList q) v = some x) (hf : Finds s x e) : Finds t x e := by
  obtain ⟨o,ho,hn⟩ := hf
  exact ⟨o,ho,(hs.nearest o _ (h.trans_obj hx ho) (h'.trans_obj hx' ho)).trans hn⟩

/-! ### Lookups -/

section Lookups

variable [Zero D]

theorem lookupBase_resident {ob : Mmobj} (ho : s.objs o = some ob) (hk : ob.mmoOps ≠ .shadow)
    (hr : s.pframeGetResident o n = some f) : lookupBase env o n s = some (s, some f) := by
  unfold lookupBase pframeGet
  rw [ho,hr]
  cases hops : ob.mmoOps with
  | shadow => exact absurd hops hk
  | anon => simp [hops]
  | vnode => simp [hops]

/-- A page that is found is returned, and nothing is allocated. -/
theorem Heap.lookuppage_found (h : Heap s ∅ ext) {ob : Mmobj} (ho : s.objs o = some ob) (hn : s.nearest o n = some f)
    (env : Env D) : lookuppage env o n false s = some (s, some f) := by
  obtain ⟨b,bob,hb,hbob,hk⟩ := h.shape.bottom ho (Finset.notMem_empty o)
  simp only [lookuppage,ho,bind_eq_bind,bind_some]
  cases hops : ob.mmoOps with
  | shadow =>
    obtain ⟨sh,b',hl⟩ := h.shape.link o ob ho (Finset.notMem_empty o) hops
    obtain rfl : b = b' := by
      rw [mmobjBottomObj,ho,bind_some,hl.shadowed] at hb
      exact some.inj (hb.symm.trans hl.bottom)
    obtain ⟨r,hfind,hnear⟩ := h.findShadow (n := n) hb (Nat.lt_succ_self o)
    simp only [shadowLookuppage,hfind,Bool.false_eq_true,if_false,bind_eq_bind,bind_some]
    cases r with
    | some g =>
      rw [hn] at hnear
      cases hnear
      rfl
    | none =>
      simp only [ho,hl.bottom,bind_some]
      exact lookupBase_resident hbob hk (hnear.symm.trans hn)
  | anon =>
    have hu : s.under o = none := by simp [under,ho,(h.shape.base o ob ho (by simp [hops])).1]
    exact lookupBase_resident ho (by simp [hops]) ((h.nearest_base hu).symm.trans hn)
  | vnode =>
    have hu : s.under o = none := by simp [under,ho,(h.shape.base o ob ho (by simp [hops])).1]
    exact lookupBase_resident ho (by simp [hops]) ((h.nearest_base hu).symm.trans hn)

variable {w : Bool} {r : Option ℕ}

/-- A lookup adds frames where nothing was found, but for the copy that a write makes in the
object of a private area. That object is seen through the page looked up only. -/
theorem Looked.nearest_kept (h : Sys U s) (h' : Sys U t)
    (ha : vmmapLookup (s.vmmList pid) v = some a) (hao : a.vmaObj = some o) (hl : Looked s t o (a.page v) w r)
    (hb : vmmapLookup (s.vmmList q) u = some b) (hbo : b.vmaObj = some o') (hn : s.nearest o' (b.page u) = some f)
    (hsafe : ¬ (q = pid ∧ u = v) ∨ w = false ∨ a.isShared = true ∨ (s.pframeGetResident o (a.page v)).isSome) :
    t.nearest o' (b.page u) = some f := by
  have hd := h.heap.shape.descends
  unfold Memory.nearest at hn ⊢
  rw [hl.adds.under]
  refine resolve_keep hd (fun y hy => ?_) hn
  cases hsy : s.pframeGetResident y (b.page u) with
  | some g => exact .inl (hl.adds.resident h.heap.pages h'.heap.pages hsy)
  | none =>
    cases hty : t.pframeGetResident y (b.page u) with
    | none => exact .inl rfl
    | some g =>
      refine .inr (.inl ?_)
      change s.nearest y (b.page u) = none
      obtain ⟨pf,hpf,hnew,hpo,hpn⟩ := hl.adds.resident_new h.heap.pages h'.heap.pages hsy hty
      obtain ⟨hpage,hwhere⟩ := hl.new g pf hpf hnew
      rcases hwhere with ⟨hyo,hw⟩ | hbot
      · -- the copy in the object of the area
        obtain rfl : y = o := hpo.symm.trans hyo
        obtain ⟨ham,-⟩ := vmmapLookup_mem ha
        cases hsh : a.isShared with
        | true =>
          obtain ⟨ob,hob⟩ := isSome_iff_exists.mp (h.heap.holders.area pid a ham y hao).2
          have hk : ob.mmoOps ≠ .shadow := fun hc => by
            rw [(h.owned.kind pid a ham y ob hao hob).mp hc] at hsh
            cases hsh
          have hu : s.under y = none := by simp [under,hob,(h.heap.shape.base y ob hob hk).1]
          rw [h.heap.nearest_base hu]
          exact hsy
        | false =>
          obtain rfl := hy.eq_of_top (h.owned.top pid a ham hsh y hao)
          obtain ⟨rfl,hpages⟩ := h.owned.sole pid a ham hsh o' hao q b (vmmapLookup_mem hb).1 hbo
          have huv : u = v := page_inj (h.list q).ok (h.list q).ok ha hb hpages (hpn.symm.trans hpage)
          subst huv
          rcases hsafe with hc | hc | hc | hc
          · exact absurd ⟨rfl,rfl⟩ hc
          · rw [hc] at hw
            cases hw
          · rw [hc] at hsh
            cases hsh
          · rw [← hpages u,hsy] at hc
            cases hc
      · rw [hpo] at hbot
        rw [h.heap.nearest_base (h.heap.shape.under_bottom hbot).2]
        exact hsy

/-- The lookup of a page leaves the other entries right, and its own if no copy is made. -/
theorem Finds.looked (h : Sys U s) (h' : Sys U t)
    (ha : vmmapLookup (s.vmmList pid) v = some a) (hao : a.vmaObj = some o) (hl : Looked s t o (a.page v) w r)
    (hsafe : ¬ (q = pid ∧ u = v) ∨ w = false ∨ a.isShared = true ∨ (s.pframeGetResident o (a.page v)).isSome)
    (hx : Vm.trans (s.vmmList q) u = some x) (hf : Finds s x e) : Finds t x e := by
  obtain ⟨o',ho',hn⟩ := hf
  obtain ⟨b,hb,rfl⟩ := map_eq_some_iff.mp hx
  exact ⟨o',ho',hl.nearest_kept h h' ha hao hb ho' hn hsafe⟩

/-- No entry of the page, or no copy to be made of it. -/
def Settled (s : Memory D) (pid v : ℕ) : Prop :=
  s.entry pid v = none ∨ ∃ a o, vmmapLookup (s.vmmList pid) v = some a ∧ a.vmaObj = some o ∧
    (a.isShared = true ∨ (s.pframeGetResident o (a.page v)).isSome)

theorem Entries.finds_looked (hent : Entries Finds s) (h : Sys U s) (h' : Sys U t)
    (ha : vmmapLookup (s.vmmList pid) v = some a) (hao : a.vmaObj = some o) (hl : Looked s t o (a.page v) w r)
    (hset : w = true → Settled s pid v) : Entries Finds t := by
  refine hent.retain hl.adds.clears.retains
    fun q u x e he hx _ hf => hf.looked h h' ha hao hl ?_ hx
  cases w with
  | false => exact .inr (.inl rfl)
  | true =>
    rcases hset rfl with hnone | ⟨a',o1,ha',ho1,hcase⟩
    · refine .inl ?_
      rintro ⟨rfl,rfl⟩
      rw [entry,hl.adds.procs] at he
      rw [entry,he] at hnone
      cases hnone
    · cases ha.symm.trans ha'
      cases hao.symm.trans ho1
      exact .inr (.inr hcase)

omit [Zero D] in
theorem Settled.adds (h : Settled s pid v) (hs : Pages s) (ht : Pages t) (ha : Adds s t) : Settled t pid v := by
  rcases h with hnone | ⟨a,o,hla,hao,hcase⟩
  · refine .inl ?_
    rw [entry,ha.procs]
    exact hnone
  · refine .inr ⟨a,o,by rw [ha.vmmList]; exact hla,hao,hcase.imp_right fun hr => ?_⟩
    obtain ⟨f,hf⟩ := isSome_iff_exists.mp hr
    rw [ha.resident hs ht hf]
    rfl

/-! ### Faults and copies -/

variable {vaddr : ℕ}

theorem Sys.pagefault_finds (h : Sys U s) (hent : Entries Finds s) (h' : Sys U t) {cause : Cause}
    (ht : handlePagefault env pid vaddr cause s = some t) : Entries Finds t := by
  rcases h.pagefault_cases ht with ⟨s1,h1,hr,hs,hgone,hcase⟩ | ⟨a,o,s1,f,ha,-,ho,h1,hl,rfl⟩
  · intro q u e he
    obtain ⟨he1,hx1⟩ := hr q u e he
    -- the process is gone, and what a failed lookup has added is not seen by others
    have hq : q ≠ pid := by
      rintro rfl
      rw [hgone] at he
      cases he
    rcases hcase with rfl | ⟨a,o,ha,ho,hl⟩
    · obtain ⟨x,hx,hf⟩ := hent q u e he1
      exact ⟨x,hx1 x hx,hf.survives h h' hs hx (hx1 x hx)⟩
    · rw [entry,hl.adds.procs] at he1
      obtain ⟨x,hx,hf⟩ := hent q u e he1
      rw [hl.adds.vmmList] at hx1
      have hf1 : Finds s1 x e := hf.looked h h1 ha ho hl (.inl fun hc => hq hc.1) hx
      exact ⟨x,hx1 x hx,hf1.survives h1 h' hs (by rw [hl.adds.vmmList]; exact hx) (hx1 x hx)⟩
  · refine Entries.ptMap (fun q u e hne he => ?_) ⟨a.target (vaddr / pageSize),?_,o,ho,hl.nearest f rfl⟩
    · rw [entry,hl.adds.procs] at he
      obtain ⟨x,hx,hf⟩ := hent q u e he
      have hf1 : Finds s1 x e := hf.looked h h1 ha ho hl (.inl hne) hx
      exact ⟨x,by rw [hl.adds.vmmList]; exact hx,hf1⟩
    · rw [hl.adds.vmmList,Vm.trans,ha]
      rfl

omit [Zero D] in
/-- What a frame holds does not matter to lookups. -/
theorem pframeGetResident_store (s : Memory D) (f : ℕ) (g : D → D) :
    (s.modFrame f fun pf => { pf with pfData := g pf.pfData }).pframeGetResident = s.pframeGetResident := by
  funext o n
  unfold pframeGetResident
  refine congrArg _ (funext fun ob => congrArg (fun p => ob.mmoRespages.find? p) (funext fun x => ?_))
  rw [frames_modFrame]
  split
  next he =>
    rw [he,any_map]
  · rfl

omit [Zero D] in
theorem Entries.finds_store (hent : Entries Finds s) (f : ℕ) (g : D → D) :
    Entries Finds (s.modFrame f fun pf => { pf with pfData := g pf.pfData }) := by
  refine hent.retain (Clears.of_procs rfl rfl rfl).retains fun q u x e _ _ _ hf => ?_
  obtain ⟨o,ho,hn⟩ := hf
  refine ⟨o,ho,?_⟩
  rw [nearest,pframeGetResident_store]
  exact hn

omit [Zero D] in
theorem Settled.store (h : Settled s pid v) (f : ℕ) (g : D → D) :
    Settled (s.modFrame f fun pf => { pf with pfData := g pf.pfData }) pid v := by
  unfold Settled
  rw [pframeGetResident_store]
  exact h

/-- The kernel reads a page. -/
theorem Sys.readPage_finds (h : Sys U s) (hent : Entries Finds s) {r : Option D}
    (ht : readPage env pid v s = some (t, r)) : Entries Finds t := by
  obtain ⟨-,rfl⟩ | ⟨a,o,f,pf,ha,ho,hsys,hl,-⟩ := h.readPage_looked ht
  · exact hent
  · exact hent.finds_looked h hsys ha ho hl (by simp)

/-- The kernel writes a page. -/
theorem Sys.writePage_finds (h : Sys U s) (hent : Entries Finds s) (hset : Settled s pid v) {g : D → D} {r : Option Unit}
    (ht : Memory.writePage env pid v g s = some (t, r)) :
    Entries Finds t ∧ ∀ u, Settled s pid u → Settled t pid u := by
  obtain ⟨-,rfl,-⟩ | ⟨-,a,o,s1,f,ha,ho,hsys,hl,rfl⟩ := h.writePage_looked ht
  · exact ⟨hent,fun _ hu => hu⟩
  · exact ⟨(hent.finds_looked h hsys ha ho hl fun _ => hset).finds_store f g,
      fun u hu => (hu.adds h.heap.pages hsys.heap.pages hl.adds).store f g⟩

omit [Zero D] in
/-- The loop of a copy visits the addresses of its range only. -/
theorem copyPages_within {β : Type} (I : Memory D → Prop) {visit : ℕ → ℕ → ℕ → Memory D → Option (Memory D × Option β)}
    {count fuel d : ℕ} (hsum : vaddr+count < 2 ^ 32)
    (hv : ∀ d k s t r, d < count → I s → visit (vaddr+d) d k s = some (t, r) → I t) {r : Option (List β)} (hd : d ≤ count)
    (h : I s) (ht : copyPages visit (vaddr+count) count fuel (vaddr+d) d s = some (t, r)) : I t := by
  induction fuel generalizing d s r with
  | zero => cases ht
  | succ fuel ih =>
    unfold copyPages at ht
    split at ht
    next hlt =>
      obtain ⟨⟨s1,r1⟩,hs1,ht⟩ := bind_eq_some_iff.mp ht
      have h1 := hv d _ s s1 r1 (by omega) h hs1
      cases r1 with
      | none =>
        cases ht
        exact h1
      | some x =>
        obtain ⟨⟨s2,r2⟩,hs2,ht⟩ := bind_eq_some_iff.mp ht
        cases ht
        generalize hk : min (count - d) (pageSize - (vaddr+d) % pageSize) = k at hs2
        have hle : d+k ≤ count := by omega
        rw [u32_add (by omega),Nat.add_assoc] at hs2
        exact ih hle h1 hs2
    · cases ht
      exact h

/-- `vmmap_write` to pages of which no copy is to be made. -/
theorem Sys.vmmapWrite_finds (h : Sys U s) (hent : Entries Finds s) {count : ℕ} (hva : vaddr < 2 ^ 32)
    (hc : count < 2 ^ 32) (hset : ∀ x, vaddr ≤ x → x < vaddr+count → Settled s pid (x / pageSize))
    {store : ℕ → ℕ → ℕ → D → D} {r : Option (List Unit)}
    (ht : vmmapWrite env pid vaddr count store s = some (t, r)) : Entries Finds t := by
  unfold vmmapWrite at ht
  by_cases hsum : vaddr+count < 2 ^ 32
  · rw [u32_add hsum] at ht
    refine (copyPages_within (fun t => Sys U t ∧ Entries Finds t ∧
      ∀ x, vaddr ≤ x → x < vaddr+count → Settled t pid (x / pageSize)) hsum (fun d k s1 t1 r1 hd hI hvisit => ?_)
      (Nat.zero_le count) ⟨h,hent,hset⟩ ht).2.1
    obtain ⟨h1,hent1,hset1⟩ := hI
    obtain ⟨hent2,hset2⟩ := h1.writePage_finds hent1 (hset1 (vaddr+d) (Nat.le_add_right _ _) (by omega)) hvisit
    exact ⟨h1.writePage hvisit,hent2,fun x hx hxe => hset2 _ (hset1 x hx hxe)⟩
  · -- a range that wraps is copied not at all
    have hend : ¬ vaddr < u32 ((vaddr : ℤ)+count) := by
      unfold u32
      omega
    rw [copyPages,if_neg hend] at ht
    cases ht
    exact hent

end Lookups

/-! ### Freeing a page -/

/-- Every entry with the frame is for a page of an area that is on the list of the bottom
object of the frame's object. -/
def Listed (s : Memory D) (f : ℕ) : Prop :=
  ∀ q v w, s.entry q v = some (f, w) → ∃ a pf b bob, vmmapLookup (s.vmmList q) v = some a ∧ s.frames f = some pf ∧
    s.mmobjBottomObj pf.pfObj = some b ∧ s.objs b = some bob ∧ (q, a.vmaId) ∈ bob.mmoVmas

theorem removeFromPt_entry (h : s.findArea q a.vmaId = some a) (hoff : a.vmaOff < 2 ^ 20+a.vmaStart)
    (hv : a.vmaStart ≤ v ∧ v < a.vmaEnd) (hend : a.vmaEnd < 2 ^ 20)
    (ht : removeFromPt (a.vmaOff+(v - a.vmaStart)) s (q, a.vmaId) = some t) : t.entry q v = none := by
  obtain ⟨vma,hvma,ht⟩ := bind_eq_some_iff.mp ht
  cases h.symm.trans hvma
  have hlt : a.vmaOff+(v - a.vmaStart) < u32 ((a.vmaOff : ℤ)+(a.vmaEnd - a.vmaStart)) := by
    unfold u32
    omega
  rw [if_pos ⟨Nat.le_add_right _ _,hlt⟩] at ht
  cases ht
  have hvfn : addrPage (u32 ((a.vmaStart : ℤ)+((a.vmaOff+(v - a.vmaStart) : ℕ) : ℤ) - a.vmaOff)) = v := by
    unfold addrPage u32
    omega
  rw [hvfn,ptUnmap,entry_ptUnmapRange,if_pos ⟨rfl,Nat.le_refl v,Nat.lt_succ_self v⟩]

theorem Clears.entry_none (h : Clears s t) (he : s.entry q v = none) : t.entry q v = none := by
  rcases h.entry q v with hn | hn
  · exact hn
  · rw [hn,he]

/-- `pframe_remove_from_pts` clears the entry of a page of a listed area. -/
theorem removeFromPts_entry {links : List (ℕ × ℕ)} (h : s.findArea q a.vmaId = some a)
    (hoff : a.vmaOff < 2 ^ 20+a.vmaStart) (hv : a.vmaStart ≤ v ∧ v < a.vmaEnd) (hend : a.vmaEnd < 2 ^ 20)
    (hmem : (q, a.vmaId) ∈ links)
    (ht : links.foldlM (removeFromPt (a.vmaOff+(v - a.vmaStart))) s = some t) : t.entry q v = none := by
  induction links generalizing s with
  | nil => cases hmem
  | cons link links ih =>
    rw [List.foldlM_cons] at ht
    obtain ⟨s1,h1,ht⟩ := bind_eq_some_iff.mp ht
    have hcl := removeFromPt_clears h1
    by_cases hlink : link = (q, a.vmaId)
    · rw [hlink] at h1
      exact (foldlM_removeFromPt_clears ht).entry_none (removeFromPt_entry h hoff hv hend h1)
    · refine ih ?_ ((List.mem_cons.mp hmem).resolve_left (Ne.symm hlink)) ht
      rw [findArea,hcl.vmmList]
      exact h

/-- A frame that goes is not missed where another one was found. -/
theorem Uncached.finds (h : Heap s ∅ ext) {ext' : ℕ → ℤ} (h' : Heap t ∅ ext') {pf : Pframe D}
    (hu : Uncached s t f pf.pfObj) (hne : e.1 ≠ f) (hf : Finds s x e) : Finds t x e := by
  obtain ⟨o,ho,hn⟩ := hf
  have hunder : t.under = s.under := by
    funext y
    have hy := hu.shape y
    unfold under
    cases hs : s.objs y <;> cases ht : t.objs y <;> simp_all [Memory.shape]
  refine ⟨o,ho,?_⟩
  unfold nearest at hn ⊢
  rw [hunder]
  refine resolve_keep h.shape.descends (fun y _ => ?_) hn
  have hback : ∀ g, t.pframeGetResident y x.2.1 = some g → g ≠ f ∧ s.pframeGetResident y x.2.1 = some g := by
    intro g hg
    obtain ⟨pg,hpg,hkey⟩ := h'.pages.resident_iff.mp hg
    rw [hu.frames] at hpg
    by_cases hgf : g = f
    · subst hgf
      simp at hpg
    · rw [update_of_ne hgf] at hpg
      exact ⟨hgf,h.pages.resident_iff.mpr ⟨pg,hpg,hkey⟩⟩
  cases hty : t.pframeGetResident y x.2.1 with
  | some g => exact .inl (hback g hty).2.symm
  | none =>
    cases hsy : s.pframeGetResident y x.2.1 with
    | none => exact .inl rfl
    | some g =>
      refine .inr (.inr ⟨rfl,fun hc => ?_⟩)
      obtain rfl : g = e.1 := some.inj hc
      obtain ⟨pg,hpg,hkey⟩ := h.pages.resident_iff.mp hsy
      have hg : t.pframeGetResident y x.2.1 = some e.1 :=
        h'.pages.resident_iff.mpr ⟨pg,by rw [hu.frames,update_of_ne hne]; exact hpg,hkey⟩
      rw [hty] at hg
      cases hg

/-- The entries with the frame are cleared before it is freed. -/
theorem Sys.listed_cleared (h : Sys U s) (hoff : ∀ q, Offsets s q) (hent : Entries Finds s) (hlist : Listed s e.1)
    {pf : Pframe D} (hf : s.frames e.1 = some pf) (ht : pframeUncache e.1 pf s = some t) (he : s.entry q v = some e) :
    t.entry q v = none := by
  have hH := U.high_lt
  obtain ⟨a,pf',b,bob,ha,hf',hb,hbob,hmem⟩ := hlist q v e.2 he
  cases hf.symm.trans hf'
  obtain ⟨x,hx,o,-,hn⟩ := hent q v e he
  obtain ⟨a',ha',rfl⟩ := map_eq_some_iff.mp hx
  cases ha.symm.trans ha'
  obtain ⟨ham,hstart,hend⟩ := vmmapLookup_mem ha
  have hbound := ((h.list q).ok.bounds a ham).2
  have hpage : pf.pfPagenum = a.vmaOff+(v - a.vmaStart) := by
    obtain ⟨pf',hf',-,hpn⟩ := h.heap.nearest_frame hn
    cases hf.symm.trans hf'
    exact hpn.trans ((hoff q a ham).page_eq hstart (by omega))
  have hfind : s.findArea q a.vmaId = some a := by
    obtain ⟨done,rest,hl⟩ := List.append_of_mem ham
    exact findArea_eq hl (h.list q).ids
  unfold pframeUncache at ht
  split at ht
  · obtain ⟨s1,hs1,rfl⟩ := map_eq_some_iff.mp ht
    simp only [pframeRemoveFromPts,hb,hbob,hpage,bind_eq_bind,bind_some] at hs1
    have hnone := removeFromPts_entry hfind (hoff q a ham) ⟨hstart,hend⟩ (by omega) hmem hs1
    exact hnone
  · cases ht

/-- A page is freed. -/
theorem Sys.reclaim_finds (h : Sys U s) (hent : Entries Finds s) (hoff : ∀ q, Offsets s q) (hlist : Listed s f)
    (h' : Sys U t) (ht : pframeFree (put env) f s = some t) : Entries Finds t := by
  have hput : ∀ o s t, put env o s = some t → Clears s t := fun _ _ _ => put_clears
  have hcl := pframeFree_clears hput ht
  obtain ⟨pf,s1,hf,hs1,hdrop,hu,hd⟩ := h.reclaim_steps ht
  have h1 := h.heap.uncached hf hu
  have hsurv := hd.drops.survives h1 h'.heap
  refine hent.retain hcl.retains fun q v x e he hx hx' hfinds => ?_
  have hne : e.1 ≠ f := by
    rintro rfl
    have hclear := h.listed_cleared hoff hent hlist hf hs1 (entry_or (hcl.entry q v) he)
    rw [(put_clears hdrop).entry_none hclear] at he
    cases he
  obtain ⟨o,ho,hn⟩ := hu.finds h.heap h1 hne hfinds
  have ho1 : (s1.objs o).isSome := by
    rw [← isSome_map,hu.shape,isSome_map]
    exact h.trans_obj hx ho
  exact ⟨o,ho,(hsurv.nearest o _ ho1 (h'.trans_obj hx' ho)).trans hn⟩

/-! ### Runs -/

/-- Where the kernel writes no copy of the page is made under an entry, a frame that is freed
is in listed areas only, and a range that is removed has addresses. -/
def Tended (s : Memory D) : Env D × Call D → Prop
  | (_, .write pid v _) | (_, .lookup pid v true) => Settled s pid v
  | (_, .vmmapWrite pid vaddr count _) =>
    vaddr < 2 ^ 32 ∧ count < 2 ^ 32 ∧ ∀ x, vaddr ≤ x → x < vaddr+count → Settled s pid (x / pageSize)
  | (_, .reclaim f) => Listed s f
  | (_, .remove _ lopage npages) => lopage+npages < 2 ^ 20
  | _ => True

def TendedCall (s : Memory D) (c : Env D × Call D) : Prop := Allowed s c ∧ Tended s c

section Runs

variable [Zero D]

theorem Sys.step_finds {c : Env D × Call D} (h : Sys U s) (hoff : ∀ q, Offsets s q) (hent : Entries Finds s)
    (hc : TendedCall s c) (hst : Memory.step U s c = some t) : Entries Finds t := by
  obtain ⟨hal,htend⟩ := hc
  have h' := (h.step hal hst).sys
  have hquiet : Quiet c.2 → Entries Finds t := fun hq => by
    obtain ⟨hr,hs⟩ := h.quiet hal hq hst
    exact hent.retain hr fun q v x e _ hx hx' hf => hf.survives h h' hs hx hx'
  obtain ⟨env,c⟩ := c
  cases c with
  | pagefault pid vaddr cause => exact h.pagefault_finds hent h' hst
  | lookup pid v forwrite =>
    obtain ⟨⟨t',r⟩,ht,rfl⟩ := map_eq_some_iff.mp hst
    obtain ⟨-,a,o,ha,ho,hl⟩ := h.lookupVfn ht
    refine hent.finds_looked h h' ha ho hl ?_
    rintro rfl
    exact htend
  | read pid v =>
    obtain ⟨⟨t',r⟩,ht,rfl⟩ := map_eq_some_iff.mp hst
    exact h.readPage_finds hent ht
  | write pid v store =>
    obtain ⟨⟨t',r⟩,ht,rfl⟩ := map_eq_some_iff.mp hst
    exact (h.writePage_finds hent htend ht).1
  | vmmapRead pid vaddr count =>
    obtain ⟨⟨t',r⟩,ht,rfl⟩ := map_eq_some_iff.mp hst
    exact (copyPages_rule (fun s => Sys U s ∧ Entries Finds s) (fun _ _ _ s t _ hs hv =>
      ⟨(hs.1.readPage_adds hv).1,hs.1.readPage_finds hs.2 hv⟩) ⟨h,hent⟩ ht).2
  | vmmapWrite pid vaddr count store =>
    obtain ⟨⟨t',r⟩,ht,rfl⟩ := map_eq_some_iff.mp hst
    exact h.vmmapWrite_finds hent htend.1 htend.2.1 htend.2.2 ht
  | reclaim frame => exact h.reclaim_finds hent hoff htend h' hst
  | _ => exact hquiet htend

theorem finds_of_exec {s0 : Memory D} {cs : List (Env D × Call D)} (h0 : Initial s0)
    (h : Exec (step U) TendedCall s0 cs s) : Sys U s ∧ (∀ q, Offsets s q) ∧ Entries Finds s := by
  induction h with
  | nil => exact ⟨h0.sys,fun q a ha => by simp [h0.vmmList] at ha,h0.entries _⟩
  | snoc _ hc hst ih =>
    obtain ⟨hsys,hoff,hent⟩ := ih
    exact ⟨(hsys.step hc.1 hst).sys,hsys.step_offsets hoff hc.1 hst,hsys.step_finds hoff hent hc hst⟩

/-- In every state of such a run, an entry has the frame that a read lookup of its page
returns, and what the kernel reads there is what is in the frame. -/
theorem page_tables_coherent (U : UserMem) {s0 : Memory D} {cs : List (Env D × Call D)} (h0 : Initial s0)
    (h : Exec (step U) TendedCall s0 cs s) (he : s.entry pid v = some e) :
    ∃ pf, s.frames e.1 = some pf ∧ ∀ env, lookupVfn env pid v false s = some (s, some e.1) ∧
      readPage env pid v s = some (s, some pf.pfData) := by
  obtain ⟨hsys,-,hent⟩ := finds_of_exec h0 h
  obtain ⟨x,hx,o,ho,hn⟩ := hent pid v e he
  obtain ⟨a,ha,rfl⟩ := map_eq_some_iff.mp hx
  obtain ⟨pf,hpf,-⟩ := hsys.heap.nearest_frame hn
  obtain ⟨ob,hob⟩ := isSome_iff_exists.mp (hsys.trans_obj hx ho)
  refine ⟨pf,hpf,fun env => ?_⟩
  have hlook := hsys.heap.lookuppage_found hob hn env
  have hao : a.vmaObj = some o := ho
  constructor
  · simp only [lookupVfn,ha,hao,bind_eq_bind,bind_some]
    exact hlook
  · simp only [readPage,ha,hao,bind_eq_bind,bind_some]
    rw [show lookuppage env o (a.page v) false s = some (s, some e.1) from hlook]
    simp [hpf]

end Runs

end Memory

open Memory Lib

/-- A process writes a page and forks, and both sides read it. -/
def readersCalls : List (Env ℕ × Call ℕ) :=
  [.procCreate,.map 0 none 0x500 4 readWrite privateAnon 0 .hilo,.pagefault 0 0x501000 ⟨true,false⟩,.fork 0,
    .pagefault 1 0x501000 ⟨false,false⟩,.pagefault 0 0x501000 ⟨false,false⟩].map fun c => (calmEnv, c)

def readersMemory : Memory ℕ := (run (step sampleUser) Allowed emptyMemory readersCalls).getD emptyMemory

theorem page_tables_coherent_readersMemory : Exec (step sampleUser) TendedCall emptyMemory readersCalls readersMemory ∧
    readersMemory.entry 0 0x501 = some (0, false) ∧ readersMemory.entry 1 0x501 = some (0, false) ∧
    lookupVfn calmEnv 1 0x501 false readersMemory = some (readersMemory, some 0) := by
  have hrun : Exec (step sampleUser) Allowed emptyMemory readersCalls readersMemory := Exec.ofRun_getD (by decide +kernel) _
  have h := hrun.weaken fun s c hc hal => show TendedCall s c from ⟨hal,by
    simp only [readersCalls,List.map_cons,List.map_nil,List.mem_cons,List.not_mem_nil,or_false] at hc
    rcases hc with rfl | rfl | rfl | rfl | rfl | rfl <;> trivial⟩
  have he : readersMemory.entry 1 0x501 = some (0, false) := by decide +kernel
  obtain ⟨pf,-,hread⟩ := page_tables_coherent sampleUser emptyMemory_initial h he
  exact ⟨h,by decide +kernel,he,(hread calmEnv).1⟩

/-- A process reads a page of a private area, and then the kernel copies into it. -/
def copyCalls : List (Env ℕ × Call ℕ) :=
  [.procCreate,.map 0 none 0x500 1 readWrite privateAnon 0 .hilo,.pagefault 0 0x500000 ⟨false,false⟩,
    .vmmapWrite 0 0x500000 1 fun _ _ _ _ => 7].map fun c => (calmEnv, c)

def copyMemory : Memory ℕ := (run (step sampleUser) Allowed emptyMemory copyCalls).getD emptyMemory

/-- A process reads a page of a file, the area is split before it, and the page is freed. -/
def splitCalls : List (Env ℕ × Call ℕ) :=
  [.procCreate,.vget,.map 0 (some 0) 0x500 4 readWrite ⟨true,false,true,false⟩ 0 .hilo,
    .pagefault 0 0x503000 ⟨false,false⟩,.munmap 0 0x501000 0x1000,.reclaim 0].map fun c => (calmEnv, c)

def splitMemory : Memory ℕ := (run (step sampleUser) Allowed emptyMemory splitCalls).getD emptyMemory

/-- The copy leaves the entry with the old frame, and the frame that is freed stays in the
entry of the part that was split off. -/
theorem stale_entries : Exec (step sampleUser) Allowed emptyMemory copyCalls copyMemory ∧
    copyMemory.entry 0 0x500 = some (0, false) ∧
    (lookupVfn calmEnv 0 0x500 false copyMemory).map Prod.snd = some (some 1) ∧
    Exec (step sampleUser) Allowed emptyMemory splitCalls splitMemory ∧
    splitMemory.entry 0 0x503 = some (0, false) ∧ (splitMemory.frames 0).isNone := by
  refine ⟨Exec.ofRun_getD (by decide +kernel) _,?_,?_,Exec.ofRun_getD (by decide +kernel) _,?_,?_⟩
  · decide +kernel
  · decide +kernel
  · decide +kernel
  · decide +kernel

end Csci402.Vm
