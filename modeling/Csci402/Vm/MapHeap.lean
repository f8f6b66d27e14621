import Csci402.Vm.AreaMap
import Csci402.Vm.Unmap

/-! Adding mappings: `vmmap_map` with arguments that satisfy its assertions returns
whenever the heap is consistent, and leaves it so. The object of a private mapping
is a new shadow object, the last object made. -/

namespace Csci402.Vm

namespace Memory

open Lib Option List

variable {D : Type} {U : UserMem} {s t u : Memory D} {ext : ℕ → ℤ} {pid lo hi n k o : ℕ}
  {ob : Mmobj} {a : Vmarea} {done rest : List Vmarea} {file : Option ℕ} {flags : MapFlags}
  {prot : Prot} {off : ℕ}

/-! ### The object of a mapping -/

theorem mapAttach_heap (flags : MapFlags) (hh : Heap s ∅ (ext+Pi.single o 1)) (hz : ext s.nextObj = 0)
    (ho : s.objs o = some ob) (hk : ob.mmoOps ≠ .shadow) (hl : s.vmmList pid = done ++ a :: rest)
    (hn : (s.areaIds pid).Nodup) (ha : a.vmaObj = none) :
    ∃ t tob, mapAttach pid a.vmaId o flags s = some t ∧ Heap t ∅ ext ∧ Keeps s t ∧
      t.nextObj = s.nextObj+(if flags.priv then 1 else 0) ∧
      t.objs (if flags.priv then s.nextObj else o) = some tob ∧
      tob.mmoOps = (if flags.priv then .shadow else ob.mmoOps) ∧
      tob.mmoShadowed = if flags.priv then some o else ob.mmoShadowed := by
  have hlt := hh.shape.obj_lt o ob ho
  let s1 := s.modObj o fun ob => { ob with mmoVmas := ob.mmoVmas ++ [(pid, a.vmaId)] }
  have h1 : Heap s1 ∅ (ext+Pi.single o 1) := by
    have := hh.modObj (o := o) (f := fun ob => { ob with mmoVmas := ob.mmoVmas ++ [(pid, a.vmaId)] })
      (δ := 0) (fun _ => ⟨rfl,rfl,rfl,(add_zero _).symm⟩) (hh.used o) fun xob hx l hm => by
        rcases mem_append.mp hm with hm | hm
        · exact hh.holders.vmas o xob hx l hm
        · rw [mem_singleton.mp hm]
          exact ⟨a,by simp [hl],rfl⟩
    rwa [Pi.single_zero,add_zero] at this
  have hl1 : s1.vmmList pid = done ++ a :: rest := hl
  have ho1 : s1.objs o = some { ob with mmoVmas := ob.mmoVmas ++ [(pid, a.vmaId)] } := by
    rw [objs_modObj,if_pos rfl,ho]
    rfl
  let s2 := s1.modArea pid a.vmaId fun a => { a with vmaObj := some o }
  have h2 : Heap s2 ∅ ext := by
    have := h1.modArea (f := fun a => { a with vmaObj := some o }) hl1 hn rfl (by
      rintro _ ⟨⟩; simp [ho1])
    simpa [ha,add_assoc] using this
  have hl2 : s2.vmmList pid = done ++ { a with vmaObj := some o } :: rest :=
    vmmList_modArea_eq hl1 hn _
  have hn2 : (s2.areaIds pid).Nodup := by
    rw [areaIds,hl] at hn
    rw [areaIds,hl2]
    simpa using hn
  have hk1 : Keeps s s1 := keeps_modObj fun _ => rfl
  have hk2 : Keeps s s2 := hk1.trans (sameHeap_modArea s1 pid a.vmaId _).keeps
  have hmap : mapAttach pid a.vmaId o flags s = if flags.priv then (do
      let b ← s2.mmobjBottomObj o
      let s' ← ref b (s2.newShadow o b)
      return s'.modArea pid a.vmaId fun a => { a with vmaObj := some s2.nextObj }) else some s2 := by
    simp only [mapAttach,ho,bind_eq_bind,bind_some]
    rfl
  rw [hmap]
  cases flags.priv with
  | false => exact ⟨s2,_,rfl,h2,hk2,rfl,ho1,rfl,rfl⟩
  | true =>
    have hbot : s2.mmobjBottomObj o = some o := by
      change (s1.objs o).bind _ = _
      rw [ho1]
      simp [(hh.shape.base o ob ho hk).1]
    have h3 := h2.newShadow hz hbot
    have hne : o ≠ s.nextObj := Nat.ne_of_lt hlt
    have ho3 : (s2.newShadow o o).objs o =
        some { ob with mmoVmas := ob.mmoVmas ++ [(pid, a.vmaId)] } := by
      rw [newShadow_eq_create,objs_create]
      exact (if_neg hne).trans ho1
    obtain ⟨s4,hs4,h4,he4⟩ := h3.ref (by simp [ho3]) (Finset.notMem_empty o)
    have hnew : s4.objs s.nextObj = some ⟨.shadow,1,0,[],some o,some o,[]⟩ := by
      rw [he4,objs_modObj,if_neg hne.symm,newShadow_eq_create,objs_create]
      exact if_pos rfl
    have hl4 : s4.vmmList pid = done ++ { a with vmaObj := some o } :: rest := by
      rw [(ref_clears hs4).vmmList]
      exact hl2
    have h5 := h4.modArea (f := fun a => { a with vmaObj := some s.nextObj }) hl4
      (by rw [areaIds,(ref_clears hs4).vmmList]; exact hn2) rfl (by rintro _ ⟨⟩; simp [hnew])
    refine ⟨s4.modArea pid a.vmaId fun a => { a with vmaObj := some s.nextObj },_,?_,?_,?_,
      nextObj_ref hs4,hnew,rfl,rfl⟩
    · simp only [hbot,bind_eq_bind,bind_some,hs4,if_true]
      rfl
    · have hext : ext+Pi.single s.nextObj 1 - (Pi.single o 1+Pi.single o 1)+Pi.single o 1 +
          (tally (some o) - tally (some s.nextObj)) = ext := by
        simp only [tally_some]
        abel
      exact hext ▸ h5
    · have hk3 : Keeps s2 (s2.newShadow o o) := by
        rw [newShadow_eq_create]
        exact keeps_create s2 _
      have hk4 : Keeps (s2.newShadow o o) s4 := by
        rw [he4]
        exact keeps_modObj fun _ => rfl
      exact ((hk2.trans hk3).trans hk4).trans (sameHeap_modArea s4 pid _ _).keeps

/-- What the new shadow object of a mapping shadows is not a shadow object. -/
theorem Heap.attached_below (h : Heap t ∅ ext) (hk : Keeps s t) {tob : Mmobj} (ho : s.objs o = some ob)
    (hs : ob.mmoOps ≠ .shadow) (hlt : o < s.nextObj) (hno : t.nextObj = s.nextObj+(if flags.priv then 1 else 0))
    (htop : t.objs (if flags.priv then s.nextObj else o) = some tob)
    (hsh : tob.mmoShadowed = if flags.priv then some o else ob.mmoShadowed) {x y : ℕ} {xob : Mmobj}
    (hx : s.nextObj ≤ x) (hxo : t.objs x = some xob) (hy : xob.mmoShadowed = some y) :
    ∃ yob, t.objs y = some yob ∧ yob.mmoOps ≠ .shadow := by
  have hxt := h.shape.obj_lt x xob hxo
  cases hp : flags.priv with
  | false =>
    rw [hno,hp] at hxt
    exact absurd hxt (Nat.not_lt.mpr hx)
  | true =>
    simp only [hp,if_true] at hno htop hsh
    obtain rfl : x = s.nextObj := by omega
    cases htop.symm.trans hxo
    cases hsh.symm.trans hy
    have hshadow : tob.mmoOps = .shadow := by
      by_contra hc
      rw [(h.shape.base _ tob htop hc).1] at hsh
      cases hsh
    obtain ⟨sh,b,hl⟩ := h.shape.link _ tob htop (Finset.notMem_empty _) hshadow
    cases hsh.symm.trans hl.shadowed
    obtain ⟨yob,hyo,-⟩ := bind_eq_some_iff.mp hl.chain
    obtain ⟨ob0,h₀,he⟩ := hk.obj o yob hlt hyo
    cases ho.symm.trans h₀
    exact ⟨yob,hyo,fun hc => hs ((congrArg Prod.fst he).symm.trans hc)⟩

/-- A file that is mapped is held by the caller, and its `mmap` operation succeeds. -/
def Mappable (env : Env D) (s : Memory D) (file : Option ℕ) : Prop :=
  ∀ f, file = some f → env.mmapErr f = none ∧ 0 < s.held f ∧
    ∃ ob, s.objs f = some ob ∧ ob.mmoOps = .vnode

variable {env : Env D}

theorem Mappable.keeps (h : Mappable env s file) (hk : Keeps s t) (hh : Heap s ∅ ext) : Mappable env t file := by
  intro f hf
  obtain ⟨h1,h2,ob,ho,hv⟩ := h f hf
  obtain ⟨ob',ho'⟩ := isSome_iff_exists.mp (hk.kept f h2 (by simp [ho]))
  obtain ⟨ob0,h₀,he⟩ := hk.obj f ob' (hh.shape.obj_lt f ob ho) ho'
  rw [ho] at h₀
  cases h₀
  exact ⟨h1,by rwa [hk.held],ob',ho',(congrArg Prod.fst he).trans hv⟩

/-- The object of a new mapping is new, unless it is that of a file. -/
structure NewTop (file : Option ℕ) (flags : MapFlags) (s t : Memory D) (o : ℕ) : Prop where
  fresh : flags.priv = true ∨ file = none → s.nextObj ≤ o
  file_eq : flags.priv = false → ∀ f, file = some f → o = f
  kind : ∃ ob, t.objs o = some ob ∧ (ob.mmoOps = .shadow ↔ flags.priv = true)
  last : flags.priv = true → t.nextObj = o+1
  below : ∀ x xob y, s.nextObj ≤ x → t.objs x = some xob → xob.mmoShadowed = some y →
    ∃ yob, t.objs y = some yob ∧ yob.mmoOps ≠ .shadow

theorem mapObject_heap (env : Env D) (flags : MapFlags) (hh : Heap s ∅ ext) (hz : ∀ x, s.nextObj ≤ x → ext x = 0)
    (hf : Mappable env s file) (hl : s.vmmList pid = done ++ a :: rest) (hn : (s.areaIds pid).Nodup)
    (ha : a.vmaObj = none) :
    ∃ t, mapObject env pid a.vmaId file flags s = some (t, .ok ()) ∧ Heap t ∅ ext ∧ Keeps s t ∧
      NewTop file flags s t (mapTop file flags s) := by
  cases file with
  | none =>
    have hnew : newObj .anon s = s.create ⟨.anon,1,0,[],none,none,[]⟩ := rfl
    have h1 : Heap (s.create ⟨.anon,1,0,[],none,none,[]⟩) ∅
        (ext+Pi.single s.nextObj 1 - links (some ⟨.anon,1,0,[],none,none,[]⟩)) :=
      hh.create (hz _ (Nat.le_refl _)) ⟨rfl,rfl,rfl,rfl⟩ (fun _ => ⟨rfl,rfl⟩) (fun hk => by cases hk)
    have hlinks : links (some ⟨.anon,1,0,[],none,none,[]⟩) = 0 := by simp [links]
    rw [hlinks,sub_zero,← hnew] at h1
    have ho : (newObj .anon s).objs s.nextObj = some ⟨.anon,1,0,[],none,none,[]⟩ := by
      rw [hnew,objs_create,if_pos rfl]
    obtain ⟨t,tob,ht,hheap,hkeep,hno,hto,hops,hsh⟩ :=
      mapAttach_heap flags h1 (hz _ (Nat.le_succ _)) ho (by simp) hl hn ha
    refine ⟨t,by simp only [mapObject,ht]; rfl,hheap,(keeps_create s _).trans hkeep,?_⟩
    have htop : mapTop none flags s = if flags.priv then s.nextObj+1 else s.nextObj := rfl
    rw [htop]
    refine ⟨fun _ => ?_,by rintro _ _ ⟨⟩,⟨tob,hto,?_⟩,fun hp => ?_,fun x xob y hx hxo hy => ?_⟩
    · split <;> omega
    · rw [hops]
      cases flags.priv <;> simp
    · rw [hno,hp]
      rfl
    · rcases Nat.eq_or_lt_of_le hx with rfl | hx
      · obtain ⟨ob0,h₀,he⟩ := hkeep.obj _ xob (Nat.lt_succ_self s.nextObj) hxo
        cases ho.symm.trans h₀
        simp only [shape,Prod.mk.injEq] at he
        cases he.2.1.symm.trans hy
      · exact hheap.attached_below hkeep ho (by simp) (Nat.lt_succ_self _) hno hto hsh hx hxo hy
  | some f =>
    obtain ⟨hm,hheld,ob,ho,hv⟩ := hf f rfl
    obtain ⟨s1,hs1,h1,he1⟩ := hh.ref (by simp [ho]) (Finset.notMem_empty f)
    have ho1 : s1.objs f = some { ob with mmoRefcount := ob.mmoRefcount+1 } := by
      rw [he1,objs_modObj,if_pos rfl,ho]
      rfl
    have hcl := ref_clears hs1
    have hno1 := nextObj_ref hs1
    obtain ⟨t,tob,ht,hheap,hkeep,hno,hto,hops,hsh⟩ := mapAttach_heap flags h1
      (by rw [hno1]; exact hz _ (Nat.le_refl _)) ho1 (by simp [hv]) (by rw [hcl.vmmList]; exact hl)
      (by rw [areaIds,hcl.vmmList]; exact hn) ha
    have hk1 : Keeps s s1 := by
      rw [he1]
      exact keeps_modObj fun _ => rfl
    refine ⟨t,by simp only [mapObject,hm,hs1,bind_some,ht]; rfl,hheap,hk1.trans hkeep,?_⟩
    have hlt1 := h1.shape.obj_lt f _ ho1
    have hbelow : ∀ x xob y, s1.nextObj ≤ x → t.objs x = some xob → xob.mmoShadowed = some y →
        ∃ yob, t.objs y = some yob ∧ yob.mmoOps ≠ .shadow := fun x xob y hx hxo hy =>
      hheap.attached_below hkeep ho1 (by simp [hv]) hlt1 hno hto hsh hx hxo hy
    rw [hno1] at hno hto hbelow
    have htop : mapTop (some f) flags s = if flags.priv then s.nextObj else f := rfl
    rw [htop]
    refine ⟨fun hp => ?_,fun hp g hg => ?_,⟨tob,hto,?_⟩,fun hp => ?_,hbelow⟩
    · rw [if_pos (hp.resolve_right (by rintro ⟨⟩))]
    · cases hg
      simp [hp]
    · rw [hops]
      cases flags.priv <;> simp [hv]
    · rw [hno,hp]
      rfl

/-! ### `vmmap_map` -/

theorem vmmapFindRange_returns (U : UserMem) (n : ℕ) (dir : Dir) {l : List Vmarea} (hl : l ≠ []) :
    ∃ r, vmmapFindRange U l n dir = some r := by
  cases l with
  | nil => exact absurd rfl hl
  | cons a l =>
    cases dir with
    | lohi =>
      simp only [vmmapFindRange,getLast?_cons,map_some]
      split <;> exact ⟨_,rfl⟩
    | hilo =>
      simp only [vmmapFindRange,head?_cons,map_some]
      split <;> exact ⟨_,rfl⟩

variable {lopage : ℕ}

theorem mapPlace_heap (env : Env D) (dir : Dir) (h : ListInv U s pid)
    (hh : Heap s ∅ ext) (hpos : ∀ x, (s.held x : ℤ) ≤ ext x) (hb : Backed s pid) (hn : 0 < n)
    (hlo : lopage = 0 ∧ s.vmmList pid ≠ [] ∨ U.low ≤ lopage ∧ lopage+n ≤ U.high) :
    ∃ t r, mapPlace U env pid lopage n dir s = some (t, r) ∧ Heap t ∅ ext ∧ Shrinks s t ∧
      Backed t pid ∧ (r = none → t = s) := by
  have hH := U.high_lt
  unfold mapPlace
  rcases hlo with ⟨h0,hne⟩ | ⟨h1,h2⟩
  · rw [if_pos h0]
    obtain ⟨r,hr⟩ := vmmapFindRange_returns U n dir hne
    exact ⟨s,_,by simp only [hr,bind_eq_bind,bind_some]; rfl,hh,
      (SameHeap.refl s).shrinks,hb,fun _ => rfl⟩
  · have hpos' : 0 < lopage := Nat.lt_of_lt_of_le U.low_pos h1
    rw [if_neg (by omega)]
    have hu : u32 ((lopage : ℤ)+n) = lopage+n := u32_add (by omega)
    have he : vmmapIsRangeEmpty U (s.vmmList pid) lopage n =
        some (isRangeEmpty lopage (lopage+n) (s.vmmList pid)) := by
      simp only [vmmapIsRangeEmpty,hu]
      exact if_pos ⟨by omega,h1,h2⟩
    simp only [he,bind_eq_bind,bind_some]
    split
    · exact ⟨s,_,rfl,hh,(SameHeap.refl s).shrinks,hb,fun _ => rfl⟩
    · obtain ⟨t,ht,hheap,hkeep⟩ := vmmapRemove_heap env h hh hpos hb (by omega : lopage+n < 2 ^ 32)
      refine ⟨t,some lopage,by simp only [ht,bind_some]; rfl,hheap,hkeep,?_,by rintro ⟨⟩⟩
      exact (vmmapRemove_areas h (by omega) ht).backed hb

theorem mapInsert_heap (env : Env D) (prot : Prot) (flags : MapFlags) (off : ℕ) (h : ListInv U s pid) (hlive : s.live pid) (hh : Heap s ∅ ext)
    (hz : ∀ x, s.nextObj ≤ x → ext x = 0) (hf : Mappable env s file) (hn : 0 < n)
    (hlo : U.low ≤ lo) (hhi : lo+n ≤ U.high) :
    ∃ t, mapInsert U env pid file lo n prot flags off s = some (t, .ok ()) ∧ Heap t ∅ ext ∧
      Keeps s t ∧ NewTop file flags s t (mapTop file flags s) := by
  have hH := U.high_lt
  generalize hnew : mapArea s.nextArea lo n prot flags off = a
  have hend : a.vmaEnd = lo+n := by
    rw [← hnew]
    exact u32_add (by omega)
  have hstart : a.vmaStart = lo := by rw [← hnew]; rfl
  have hid : a.vmaId = s.nextArea := by rw [← hnew]; rfl
  have hobj : a.vmaObj = none := by rw [← hnew]; rfl
  have hins : vmmapInsert U a (s.vmmList pid) = some (insertArea a (s.vmmList pid)) :=
    if_pos (by omega)
  have hperm := insertArea_perm a (s.vmmList pid)
  have hadd := hh.addArea hlive hperm (by simp [hobj])
  rw [hobj,tally_none,sub_zero] at hadd
  have hl' : (s.addArea pid (insertArea a (s.vmmList pid))).vmmList pid =
      insertArea a (s.vmmList pid) := (vmmList_setList hlive).trans (if_pos rfl)
  obtain ⟨done,rest,hl⟩ := append_of_mem (hperm.mem_iff.mpr (mem_cons_self ..))
  obtain ⟨t,ht,hheap,hkeep,htop⟩ := mapObject_heap env flags hadd hz hf (hl'.trans hl)
    (by rw [areaIds,hl']; exact h.ids_addArea hid hperm) hobj
  rw [hid] at ht
  exact ⟨t,by simp only [mapInsert,hnew,hins,bind_eq_bind,bind_some,ht],hheap,
    (sameHeap_addArea s pid _).keeps.trans hkeep,⟨htop.fresh,htop.file_eq,htop.kind,htop.last,htop.below⟩⟩

/-- The arguments that `vmmap_map` asserts. -/
structure MapArgs (U : UserMem) (s : Memory D) (pid lopage n : ℕ) (flags : MapFlags) (off : ℕ) : Prop where
  npages_pos : 0 < n
  flags_ok : flags.shared ∨ flags.priv
  off_aligned : off % pageSize = 0
  range : lopage = 0 ∧ s.vmmList pid ≠ [] ∨ U.low ≤ lopage ∧ lopage+n ≤ U.high

/-- A call that has returned had such arguments. -/
theorem vmmapMap_args {dir : Dir} {r : Except Errno ℕ} (hn : n < 2 ^ 32) (h : ListInv U s pid)
    (ht : vmmapMap U env pid file lopage n prot flags off dir s = some (t, r)) :
    MapArgs U s pid lopage n flags off := by
  obtain ⟨⟨h1,h2,h3,h4,h5⟩,hr⟩ := vmmapMap_cases ht
  obtain ⟨s1,place,hpl⟩ : ∃ s1 place, mapPlace U env pid lopage n dir s = some (s1, place) := by
    obtain ⟨hpl,-⟩ | ⟨s1,lo,-,hpl,-⟩ := hr
    · exact ⟨t,none,hpl⟩
    · exact ⟨s1,some lo,hpl⟩
  refine ⟨h1,h2,h5,?_⟩
  unfold mapPlace at hpl
  split at hpl
  next h0 =>
    refine .inl ⟨h0,fun hnil => ?_⟩
    rw [hnil] at hpl
    cases dir <;> cases hpl
  · obtain ⟨e,he,-⟩ := bind_eq_some_iff.mp hpl
    obtain ⟨h6,h7,-⟩ := vmmapIsRangeEmpty_spec h.ok hn he
    exact .inr ⟨h6,h7⟩

/-- Such arguments pass the assertions as the code writes them. -/
theorem MapArgs.asserted (h : MapArgs U s pid lopage n flags off) :
    0 < n ∧ (flags.shared ∨ flags.priv) ∧ (lopage = 0 ∨ U.low ≤ lopage) ∧
      (lopage = 0 ∨ u32 (lopage+n) ≤ U.high) ∧ off % pageSize = 0 := by
  have hH := U.high_lt
  refine ⟨h.npages_pos,h.flags_ok,h.range.imp And.left And.left,
    h.range.imp And.left fun hr => ?_,h.off_aligned⟩
  rw [u32_add (by omega)]
  exact hr.2

theorem NewTop.of_shrinks {s1 : Memory D} (h : NewTop file flags s1 t o) (hk : Shrinks s s1) :
    NewTop file flags s t o :=
  ⟨fun hc => Nat.le_trans hk.nextObj (h.fresh hc),h.file_eq,h.kind,h.last,
    fun x xob y hx => h.below x xob y (hk.same ▸ hx)⟩

theorem Mapped.backed (h : Mapped U pid lo n prot flags off s t o) (hb : Backed s pid) : Backed t pid := by
  intro c hc
  rcases h.area c hc with ⟨b,hb',hp⟩ | ⟨-,-,-,-,-,he⟩
  · rw [show c.vmaObj = b.vmaObj from congrArg Prod.fst (hp.target 0)]
    exact hb b hb'
  · simp [he]

/-- `vmmap_map` returns; it either finds no range, or the new area is there. -/
theorem vmmapMap_heap (env : Env D) (dir : Dir) (prot : Prot) (h : ListInv U s pid)
    (hlive : s.live pid) (hh : Heap s ∅ ext) (hpos : ∀ x, (s.held x : ℤ) ≤ ext x)
    (hz : ∀ x, s.nextObj ≤ x → ext x = 0) (hb : Backed s pid) (hf : Mappable env s file)
    (hn : n < 2 ^ 32) (hargs : MapArgs U s pid lopage n flags off) :
    ∃ t r, vmmapMap U env pid file lopage n prot flags off dir s = some (t, r) ∧ Heap t ∅ ext ∧
      Keeps s t ∧ Backed t pid ∧ ((∃ e, r = .error e) ∧ t = s ∨ ∃ lo o, r = .ok lo ∧
        Mapped U pid lo n prot flags off s t o ∧ NewTop file flags s t o) := by
  obtain ⟨s1,place,hpl,h1,hk1,hb1,hnone⟩ :=
    mapPlace_heap env dir h hh hpos hb hargs.npages_pos hargs.range
  simp only [vmmapMap,if_pos hargs.asserted,hpl,bind_eq_bind,bind_some]
  cases place with
  | none =>
    obtain rfl := hnone rfl
    exact ⟨s1,_,rfl,h1,hk1.toKeeps,hb1,.inl ⟨⟨_,rfl⟩,rfl⟩⟩
  | some lo =>
    obtain ⟨hrem,hlo,hhi,-⟩ := mapPlace_areas h hargs.npages_pos hn hpl
    obtain ⟨t,ht,hheap,hkeep,htop⟩ := mapInsert_heap env prot flags off hrem.list
      ((hrem.edits.live pid).mpr hlive) h1 (fun x hx => hz x (Nat.le_trans hk1.nextObj hx))
      (hf.keeps hk1.toKeeps hh) hargs.npages_pos hlo hhi
    have hm := Mapped.of_parts hargs.npages_pos hlive hrem hlo hhi ht
    exact ⟨t,_,by simp only [ht]; rfl,hheap,hk1.toKeeps.trans hkeep,hm.backed hb,
      .inr ⟨lo,_,rfl,hm,htop.of_shrinks hk1⟩⟩

/-! ### `do_brk` -/

theorem sameHeap_setBrk (s : Memory D) (pid addr : ℕ) : SameHeap s (s.setBrk pid addr) :=
  ⟨rfl,rfl,rfl,rfl,rfl,rfl⟩

/-- Processes change in their page tables and breaks only. -/
theorem Heap.same_lists (h : Heap s ∅ ext) (hs : SameHeap s t) (hl : ∀ q, t.vmmList q = s.vmmList q)
    (hlive : ∀ q, t.live q → s.live q) (hp : t.nextPid = s.nextPid) : Heap t ∅ ext := by
  refine h.relist (fun x => by rw [hs.objs]) hs.frames ⟨hs.nextObj,hs.nextFrame⟩ (fun x ob hx link hm => ?_)
    (fun q a ha x hx => ?_) (fun q hq => ?_) ?_
  · rw [hl]
    rw [hs.objs] at hx
    exact h.holders.vmas x ob hx link hm
  · rw [hl] at ha
    exact (h.holders.area q a ha x hx).2
  · rw [hp]
    exact h.holders.pid_lt q (hlive q hq)
  · exact congrArg (· + ext) (areaRefs_congr hp hl)

theorem doBrk_heap {addr : ℕ} {r : Except Errno ℕ} (h : ListInv U s pid)
    (hh : Heap s ∅ ext) (hpos : ∀ x, (s.held x : ℤ) ≤ ext x) (hb : Backed s pid)
    (ht : doBrk U env pid addr s = some (t, r)) : Heap t ∅ ext ∧ Shrinks s t := by
  have hH := U.high_lt
  have hself : Heap s ∅ ext ∧ Shrinks s s := ⟨hh,(SameHeap.refl s).shrinks⟩
  have hset : ∀ {u : Memory D}, Heap u ∅ ext ∧ Shrinks s u →
      Heap (u.setBrk pid addr) ∅ ext ∧ Shrinks s (u.setBrk pid addr) := fun hu =>
    ⟨hu.1.same_lists (sameHeap_setBrk _ pid addr) (fun _ => vmmList_setBrk) (fun _ => live_modProc.mp) rfl,hu.2.trans (sameHeap_setBrk _ pid addr).shrinks⟩
  obtain ⟨p,hp,ht⟩ := bind_eq_some_iff.mp ht
  split at ht
  · cases ht
    exact hself
  split at ht
  · cases ht
    exact hself
  obtain ⟨a,ha,ht⟩ := bind_eq_some_iff.mp ht
  have hal := (vmmapLookup_mem ha).1
  rw [show p.vmmList = s.vmmList pid by simp [vmmList,hp]] at hal
  have hab := h.ok.bounds a hal
  unfold moveBrk at ht
  split at ht
  · obtain ⟨s1,hs1,ht⟩ := bind_eq_some_iff.mp ht
    cases ht
    obtain ⟨s2,hs2,hheap,hkeep⟩ := vmmapRemove_heap env h hh hpos hb
      (by omega : pagesOf addr+(a.vmaEnd - pagesOf addr) < 2 ^ 32)
    rw [hs1] at hs2
    cases hs2
    exact hset ⟨hheap,hkeep⟩
  split at ht
  · obtain ⟨e,-,ht⟩ := bind_eq_some_iff.mp ht
    split at ht
    · cases ht
      obtain ⟨done,rest,hl⟩ := append_of_mem hal
      have hmod := hh.modArea (f := fun a => { a with vmaEnd := pagesOf addr }) hl h.ids rfl
        fun x hx => (hh.holders.area pid a hal x hx).2
      rw [sub_self,add_zero] at hmod
      exact hset ⟨hmod,(sameHeap_modArea s pid _ _).shrinks⟩
    · cases ht
      exact hself
  · cases ht
    exact hset hself

end Memory

end Csci402.Vm
