import Csci402.Vm.View

/-! Offsets of areas. An area starts at a page of its object that a 32-bit offset can name, so
the page numbers that the source computes from it do not wrap. -/

namespace Csci402.Vm

open Lib Option List

variable {U : UserMem} {a b : Vmarea} {lo hi k v : ℕ}

/-- Cutting the start of an area off moves its offset as far as its start. -/
def Vmarea.OffsetOk (a : Vmarea) : Prop := a.vmaOff < 2 ^ 20+a.vmaStart

theorem Vmarea.OffsetOk.page_eq (h : a.OffsetOk) (ha : a.vmaStart ≤ v) (hv : v < 2 ^ 20) :
    a.page v = a.vmaOff+(v - a.vmaStart) := by
  unfold Vmarea.OffsetOk at h
  unfold Vmarea.page u32
  omega

theorem offsetOk_of_mem_pieces (h : a.OffsetOk) (hlh : lo ≤ hi) (hb : b ∈ pieces lo hi k a) : b.OffsetOk := by
  unfold Vmarea.OffsetOk at *
  unfold pieces at hb
  split at hb
  · rw [mem_cons,mem_singleton] at hb
    rcases hb with rfl | rfl
    · exact h
    · simp only [u32]
      omega
  split at hb
  · rw [mem_singleton.mp hb]
    exact h
  split at hb
  · rw [mem_singleton.mp hb]
    simp only [u32]
    omega
  split at hb
  · cases hb
  · rw [mem_singleton.mp hb]
    exact h

namespace Memory

variable {D : Type} {s t u : Memory D} {env : Env D} {pid n : ℕ}

def Offsets (s : Memory D) (pid : ℕ) : Prop := ∀ a ∈ s.vmmList pid, a.OffsetOk

theorem removeArea_offsets (h : ListInv U s pid) (ho : Offsets s pid) (hlh : lo ≤ hi) (hk : k ∈ s.areaIds pid)
    (ht : removeArea U env pid lo hi k s = some t) : Offsets t pid := by
  obtain ⟨b,hb,rfl⟩ := List.mem_map.mp hk
  obtain ⟨done,rest,hl⟩ := append_of_mem hb
  obtain ⟨hl',-⟩ := removeArea_areas h hl ht
  intro a ha
  rw [hl',mem_append,mem_append] at ha
  rcases ha with ha | ha | ha
  · exact ho a (by rw [hl]; simp [ha])
  · exact offsetOk_of_mem_pieces (ho b hb) hlh ha
  · exact ho a (by rw [hl]; simp [ha])

theorem vmmapRemove_offsets (h : ListInv U s pid) (ho : Offsets s pid) (hn : lo+n < 2 ^ 32)
    (ht : vmmapRemove U env pid lo n s = some t) : Offsets t pid := by
  unfold vmmapRemove at ht
  simp only [u32_add hn] at ht
  obtain ⟨s1,hs1,ht⟩ := bind_eq_some_iff.mp ht
  cases ht
  have hround : ∀ k rest t u, Cutting U pid lo (lo+n) s (k :: rest) t ∧ Offsets t pid →
      removeArea U env pid lo (lo+n) k t = some u → Cutting U pid lo (lo+n) s rest u ∧ Offsets u pid := by
    rintro k rest t u ⟨hc,hot⟩ hu
    obtain ⟨done,hids,-⟩ := hc.next
    obtain ⟨-,-,-,-,-,-,hinv,-⟩ := id hc
    exact ⟨hc.round (Nat.le_add_right lo n) hu,removeArea_offsets hinv hot (Nat.le_add_right lo n) (by simp [hids]) hu⟩
  have hend := listIterate_inv (fun rest t => Cutting U pid lo (lo+n) s rest t ∧ Offsets t pid)
    (fun _ _ _ h => h.1.next) (fun _ _ _ _ => hround _ _ _ _) ⟨Cutting.start h,ho⟩ hs1
  unfold Offsets
  rw [(clears_ptUnmapRange s1 pid _ _).vmmList pid]
  exact hend.2

theorem vmmapMap_offsets {file : Option ℕ} {lopage : ℕ} {prot : Prot} {flags : MapFlags} {off : ℕ} {dir : Dir}
    (h : ListInv U s pid) (ho : Offsets s pid) (hlive : s.live pid) (hn : n < 2 ^ 32)
    (ht : vmmapMap U env pid file lopage n prot flags off dir s = some (t, .ok lo)) : Offsets t pid := by
  have hH := U.high_lt
  obtain ⟨s1,hpl,hpos,hrem,hlo,hhi,-,hins⟩ := vmmapMap_parts h hn ht
  have hfree := free_of_trans hrem.list.ok hpos fun w hw => by rw [hrem.trans_eq,if_pos hw]
  obtain ⟨l1,l2,hl1,hl2,-,-⟩ := mapInsert_areas hrem.list ((hrem.edits.live pid).mpr hlive) hhi hfree hins
  have hs1 : Offsets s1 pid := by
    rcases mapPlace_state hpl with rfl | ⟨-,hs1⟩
    · exact ho
    · exact vmmapRemove_offsets h ho (by omega) hs1
  intro a ha
  rw [hl2,mem_append,mem_cons] at ha
  rcases ha with ha | rfl | ha
  · exact hs1 a (by rw [hl1]; simp [ha])
  · change u32 (off : ℤ) / pageSize < 2 ^ 20+lo
    unfold u32 pageSize
    omega
  · exact hs1 a (by rw [hl1]; simp [ha])

theorem doBrk_offsets {addr : ℕ} {r : Except Errno ℕ} (h : ListInv U s pid) (ho : Offsets s pid)
    (ht : doBrk U env pid addr s = some (t, r)) : Offsets t pid := by
  have hH := U.high_lt
  obtain ⟨p,hp,ht⟩ := bind_eq_some_iff.mp ht
  split at ht
  · cases ht
    exact ho
  split at ht
  · cases ht
    exact ho
  obtain ⟨vma,hvma,ht⟩ := bind_eq_some_iff.mp ht
  have hlist : p.vmmList = s.vmmList pid := by simp [vmmList,hp]
  have hend : vma.vmaEnd ≤ U.high := (h.ok.bounds vma (hlist ▸ (vmmapLookup_mem hvma).1)).2
  have hset : ∀ {s1 : Memory D}, Offsets s1 pid → Offsets (s1.setBrk pid addr) pid := by
    intro s1 h1
    unfold Offsets
    rw [vmmList_setBrk]
    exact h1
  unfold moveBrk at ht
  split at ht
  · obtain ⟨s1,hs1,ht⟩ := bind_eq_some_iff.mp ht
    cases ht
    exact hset (vmmapRemove_offsets h ho (by omega) hs1)
  split at ht
  · obtain ⟨empty,-,ht⟩ := bind_eq_some_iff.mp ht
    split at ht
    · cases ht
      refine hset fun a ha => ?_
      rw [vmmList_modArea,if_pos rfl] at ha
      obtain ⟨b,hb,rfl⟩ := List.mem_map.mp ha
      split
      · exact ho b hb
      · exact ho b hb
    · cases ht
      exact ho
  · cases ht
    exact hset ho

theorem Forked.offsets (h : Forked U pid s t) (ho : ∀ q, Offsets s q) (q : ℕ) : Offsets t q := by
  have hside : ∀ side, ∀ p ∈ forkedAreas side s.nextObj (s.vmmList pid), p.OffsetOk := by
    intro side p hp
    obtain ⟨a,ha,-,-,hsame,hnew⟩ := mem_forkedAreas hp
    cases hsh : a.isShared with
    | true =>
      rw [hsame hsh]
      exact ho pid a ha
    | false =>
      obtain ⟨j,rfl,-⟩ := hnew hsh
      exact ho pid a ha
  intro a ha
  by_cases hp : q = pid
  · subst hp
    rw [h.parent] at ha
    exact hside 0 a ha
  · by_cases hc : q = s.nextPid
    · subst hc
      rw [h.child] at ha
      obtain ⟨b,hb,i,-,-,rfl⟩ := mem_renumber ha
      exact hside 1 b hb
    · rw [h.other q hp hc] at ha
      exact ho q a ha

theorem Offsets.of_list (h : Offsets s pid) (hl : t.vmmList pid = s.vmmList pid) : Offsets t pid := by
  unfold Offsets
  rw [hl]
  exact h

/-- The map of one process changes. -/
theorem Edits.offsets (h : Edits pid s t) (ho : ∀ q, Offsets s q) (ht : Offsets t pid) (q : ℕ) : Offsets t q := by
  by_cases hq : q = pid
  · rw [hq]
    exact ht
  · exact (ho q).of_list (h.vmmList q hq)

theorem Exited.offsets (h : Exited pid s t) (ho : ∀ q, Offsets s q) (q : ℕ) : Offsets t q := by
  intro a ha
  rw [h.vmmList] at ha
  split at ha
  · cases ha
  · exact ho q a ha

theorem Sys.vmmapMap_offsets (h : Sys U s) (ho : ∀ q, Offsets s q) {file : Option ℕ} {lopage : ℕ} {prot : Prot}
    {flags : MapFlags} {off : ℕ} {dir : Dir} {r : Except Errno ℕ} (hlive : s.live pid) (hf : Mappable env s file)
    (hn : n < 2 ^ 32) (ht : Memory.vmmapMap U env pid file lopage n prot flags off dir s = some (t, r)) (q : ℕ) :
    Offsets t q := by
  obtain ⟨t',r',ht',-,-,hcase⟩ := h.map env dir prot hlive hf hn (vmmapMap_args hn (h.list pid) ht)
  cases ht'.symm.trans ht
  rcases hcase with ⟨-,rfl⟩ | ⟨lo,o,rfl,hm,-⟩
  · exact ho q
  · exact hm.edits.offsets ho (Memory.vmmapMap_offsets (h.list pid) (ho pid) hlive hn ht) q

section Lookups

variable [Zero D]

theorem Sys.pagefault_offsets (h : Sys U s) (ho : ∀ q, Offsets s q) {vaddr : ℕ} {cause : Cause}
    (ht : handlePagefault env pid vaddr cause s = some t) (q : ℕ) : Offsets t q := by
  have hexit : ∀ s1, Sys U s1 → (∀ q, Offsets s1 q) → doExit env pid s1 = some t → Offsets t q := by
    intro s1 h1 ho1 he
    obtain ⟨-,-,hex⟩ := of_returns (h1.exit env pid) he
    exact hex.offsets ho1 q
  have looked : ∀ s1 o v w r, Looked s s1 o v w r → ∀ q, Offsets s1 q := fun s1 o v w r hl q =>
    (ho q).of_list (hl.adds.vmmList q)
  rcases h.pagefault_lookup ht with ⟨s1,hsys,he,rfl | ⟨_,_,_,_,hl⟩⟩ | ⟨_,_,_,_,_,_,_,-,hl,rfl⟩
  · exact hexit _ h ho he
  · exact hexit s1 hsys (looked _ _ _ _ _ hl) he
  · exact (looked _ _ _ _ _ hl q).of_list (vmmList_modProc fun _ => rfl)

end Lookups

theorem Sys.step_offsets [Zero D] {c : Env D × Call D} (h : Sys U s) (ho : ∀ q, Offsets s q) (hc : Allowed s c)
    (hst : Memory.step U s c = some t) (q : ℕ) : Offsets t q := by
  have hmapless : Mapless c.2 → Offsets t q := fun hm => (ho q).of_list ((h.mapless hm hst).vmmList q)
  obtain ⟨env,c⟩ := c
  cases c with
  | procCreate =>
    cases hst
    exact (ho q).of_list (vmmList_procCreate h.heap q)
  | map pid file lopage npages prot flags off dir =>
    obtain ⟨⟨t',r⟩,ht,rfl⟩ := map_eq_some_iff.mp hst
    exact h.vmmapMap_offsets ho hc.1 hc.2.2 hc.2.1 ht q
  | remove pid lopage npages =>
    have hrem := vmmapRemove_areas (h.list pid) hc hst
    exact hrem.edits.offsets ho (vmmapRemove_offsets (h.list pid) (ho pid) hc hst) q
  | mmap pid addr len prot flags file off =>
    obtain ⟨⟨t',r⟩,ht,rfl⟩ := map_eq_some_iff.mp hst
    rcases doMmap_cases ht with rfl | ⟨f,hfile,ht⟩
    · exact ho q
    · exact h.vmmapMap_offsets ho hc.1 (hfile hc.2.2) (Nat.lt_of_le_of_lt (pagesOf_lt hc.2.1) (by decide)) ht q
  | munmap pid addr len =>
    obtain ⟨⟨t',r⟩,ht,rfl⟩ := map_eq_some_iff.mp hst
    rcases doMunmap_cases ht with rfl | ⟨hn,hrem⟩
    · exact ho q
    · have hn' := Nat.lt_trans (hn hc) (show 2 ^ 20 < 2 ^ 32 by decide)
      exact (vmmapRemove_areas (h.list pid) hn' hrem).edits.offsets ho (vmmapRemove_offsets (h.list pid) (ho pid) hn' hrem) q
  | brk pid addr =>
    obtain ⟨⟨t',r⟩,ht,rfl⟩ := map_eq_some_iff.mp hst
    by_cases hq : q = pid
    · rw [hq]
      exact doBrk_offsets (h.list pid) (ho pid) ht
    · exact (ho q).of_list ((doBrk_areas (h.list pid) ht).1.vmmList q hq)
  | fork pid =>
    obtain ⟨-,hf⟩ := of_returns (h.fork hc) hst
    exact hf.offsets ho q
  | exit pid =>
    obtain ⟨-,-,hex⟩ := of_returns (h.exit env pid) hst
    exact hex.offsets ho q
  | pagefault pid vaddr cause => exact h.pagefault_offsets ho hst q
  | _ => exact hmapless trivial

end Memory

end Csci402.Vm
