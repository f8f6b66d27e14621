import Mathlib.Data.List.Perm.Basic
import Mathlib.Data.List.Nodup
import Mathlib.Logic.Function.Basic

/-! A heap of blocks that are made and freed, with a log of both. A computation holds those of
the blocks it has made that it has not freed: the other blocks are as they were, and the log
balances. What is held adds up along a computation. -/

namespace Csci402.Lib

open Function List

/-- The data from `size` on does not belong to the block. -/
structure Block (β : Type*) where
  size : ℕ
  data : ℕ → β

/-- The blocks by their address, and the addresses of the blocks made and freed so far. -/
structure Blocks (β : Type*) where
  block : ℕ → Option (Block β)
  made : List ℕ
  freed : List ℕ

namespace Blocks

variable {β : Type*} {s t u : Blocks β} {a x : ℕ} {own own' : List ℕ} {b : Block β}

def make (a : ℕ) (b : Block β) (s : Blocks β) : Blocks β :=
  ⟨update s.block a (some b),s.made ++ [a],s.freed⟩

def free (a : ℕ) (s : Blocks β) : Option (Blocks β) :=
  (s.block a).map fun _ => ⟨update s.block a none,s.made,s.freed ++ [a]⟩

def modify (a : ℕ) (f : (ℕ → β) → ℕ → β) (s : Blocks β) : Blocks β :=
  { s with block := update s.block a ((s.block a).map fun b => { b with data := f b.data }) }

theorem block_make (x : ℕ) : (s.make a b).block x = if x = a then some b else s.block x := update_apply ..

theorem block_modify (f : (ℕ → β) → ℕ → β) (x : ℕ) : (s.modify a f).block x =
    if x = a then (s.block a).map fun b => { b with data := f b.data } else s.block x := update_apply ..

theorem block_modify_of_ne (hx : x ≠ a) (f : (ℕ → β) → ℕ → β) : (s.modify a f).block x = s.block x :=
  (block_modify f x).trans (if_neg hx)

theorem block_modify_self (hb : s.block a = some b) (f : (ℕ → β) → ℕ → β) :
    (s.modify a f).block a = some ⟨b.size,f b.data⟩ := by
  rw [block_modify,if_pos rfl,hb]
  rfl

/-- Of the blocks made between `s` and `t` those in `own` are left, and the rest is freed. -/
structure Holds (s t : Blocks β) (own : List ℕ) : Prop where
  nodup : own.Nodup
  fresh : ∀ a ∈ own, s.block a = none
  live : ∀ a ∈ own, (t.block a).isSome
  frame : ∀ a, a ∉ own → t.block a = s.block a
  log : ∃ made freed, t.made = s.made ++ made ∧ t.freed = s.freed ++ freed ∧ made.Perm (freed ++ own)

theorem Holds.refl (s : Blocks β) : Holds s s [] :=
  ⟨nodup_nil,by simp,by simp,fun _ _ => rfl,[],[],by simp,by simp,by simp⟩

/-- A block that there is not is not held. -/
theorem Holds.notMem (h : Holds s t own) (ha : t.block a = none) : a ∉ own := fun hm => by
  have hlive := h.live a hm
  rw [ha] at hlive
  cases hlive

/-- A block that was there is still there. -/
theorem Holds.kept (h : Holds s t own) (hb : s.block a = some b) : t.block a = some b := by
  rw [h.frame a,hb]
  intro hm
  cases (h.fresh a hm).symm.trans hb

theorem Holds.trans (h : Holds s t own) (h' : Holds t u own') : Holds s u (own' ++ own) := by
  have hnew : ∀ a ∈ own', a ∉ own := fun a ha => h.notMem (h'.fresh a ha)
  obtain ⟨m,f,hm,hf,hp⟩ := h.log
  obtain ⟨m',f',hm',hf',hp'⟩ := h'.log
  refine ⟨?_,fun a ha => ?_,fun a ha => ?_,fun a ha => ?_,m ++ m',f ++ f',?_,?_,?_⟩
  · exact nodup_append.mpr ⟨h'.nodup,h.nodup,fun a ha b hb he => hnew a ha (he ▸ hb)⟩
  · rcases mem_append.mp ha with ha | ha
    · rw [← h.frame a (hnew a ha)]
      exact h'.fresh a ha
    · exact h.fresh a ha
  · by_cases ha' : a ∈ own'
    · exact h'.live a ha'
    · rw [h'.frame a ha']
      exact h.live a ((mem_append.mp ha).resolve_left ha')
  · rw [mem_append,not_or] at ha
    rw [h'.frame a ha.1,h.frame a ha.2]
  · rw [hm',hm,append_assoc]
  · rw [hf',hf,append_assoc]
  · have hswap : (own ++ (f' ++ own')).Perm (f' ++ own' ++ own) := perm_append_comm
    have hall : (m ++ m').Perm (f ++ (own ++ (f' ++ own'))) := by
      rw [← append_assoc]
      exact hp.append hp'
    simpa only [append_assoc] using hall.trans (hswap.append_left f)

theorem Holds.perm (h : Holds s t own) (hp : own.Perm own') : Holds s t own' := by
  obtain ⟨m,f,hm,hf,hlog⟩ := h.log
  exact ⟨hp.nodup_iff.mp h.nodup,fun a ha => h.fresh a (hp.mem_iff.mpr ha),fun a ha => h.live a (hp.mem_iff.mpr ha),
    fun a ha => h.frame a fun hm => ha (hp.mem_iff.mp hm),m,f,hm,hf,hlog.trans (hp.append_left f)⟩

theorem holds_make (ha : s.block a = none) (b : Block β) : Holds s (s.make a b) [a] := by
  refine ⟨nodup_singleton a,by simpa using ha,?_,fun x hx => ?_,[a],[],rfl,(append_nil _).symm,.refl _⟩
  · simp [block_make]
  · rw [block_make,if_neg (by simpa using hx)]

theorem Holds.modify (h : Holds s t own) (ha : a ∈ own) (f : (ℕ → β) → ℕ → β) : Holds s (t.modify a f) own := by
  refine ⟨h.nodup,h.fresh,fun x hx => ?_,fun x hx => ?_,h.log⟩
  · rw [block_modify]
    split
    · rw [Option.isSome_map]
      exact h.live a ha
    · exact h.live x hx
  · rw [block_modify_of_ne _ f,h.frame x hx]
    rintro rfl
    exact hx ha

/-- A block that is held can be freed. -/
theorem Holds.free (h : Holds s t (a :: own)) :
    ∃ u, t.free a = some u ∧ Holds s u own ∧ ∀ x, x ≠ a → u.block x = t.block x := by
  obtain ⟨b,hb⟩ := Option.isSome_iff_exists.mp (h.live a mem_cons_self)
  obtain ⟨hnot,hnodup⟩ := nodup_cons.mp h.nodup
  obtain ⟨m,f,hm,hf,hp⟩ := h.log
  have hblock : ∀ x, x ≠ a → update t.block a none x = t.block x := fun x hx => update_of_ne hx ..
  refine ⟨⟨update t.block a none,t.made,t.freed ++ [a]⟩,by rw [Blocks.free,hb]; rfl,
    ⟨hnodup,fun x hx => h.fresh x (mem_cons_of_mem a hx),fun x hx => ?_,fun x hx => ?_,m,f ++ [a],hm,?_,?_⟩,
    hblock⟩
  · have hne : x ≠ a := fun he => hnot (he ▸ hx)
    change (update t.block a none x).isSome
    rw [hblock x hne]
    exact h.live x (mem_cons_of_mem a hx)
  · change update t.block a none x = s.block x
    by_cases hxa : x = a
    · rw [hxa,update_self,h.fresh a mem_cons_self]
    · rw [hblock x hxa,h.frame x]
      simp [hxa,hx]
  · change t.freed ++ [a] = _
    rw [hf,append_assoc]
  · rw [append_assoc]
    exact hp

end Blocks

end Csci402.Lib
