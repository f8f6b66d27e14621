import Csci402.Vm.Isolation

/-! Copies between user memory and a buffer of the kernel. The contents of a page are its
bytes, and `vmmap_read` and `vmmap_write` go through the pages of a range with one `memcpy`
each. Where every page can be looked up, a copy transfers the bytes before the first page
that is not mapped. -/

namespace Csci402.Vm

open Option List

variable {β : Type}

/-- `n` bytes of `src` from `j` on go to `dst` from `i` on. -/
def memcpy (dst : ℕ → β) (i : ℕ) (src : ℕ → β) (j n : ℕ) : ℕ → β :=
  fun k => if i ≤ k ∧ k < i+n then src (j+(k - i)) else dst k

variable {i j : ℕ}

theorem memcpy_inside {dst src : ℕ → β} {n k : ℕ} (h : i ≤ k ∧ k < i+n) :
    memcpy dst i src j n k = src (j+(k - i)) := if_pos h

theorem memcpy_outside {dst src : ℕ → β} {n k : ℕ} (h : ¬ (i ≤ k ∧ k < i+n)) :
    memcpy dst i src j n k = dst k := if_neg h

/-- The pieces, each given by its start and its length, make up the range from `i` to `j`. -/
def Tiles : List (ℕ × ℕ) → ℕ → ℕ → Prop
  | [], i, j => i = j
  | p :: l, i, j => p.1 = i ∧ Tiles l (i+p.2) j

variable {l : List (ℕ × ℕ)}

theorem Tiles.snoc (h : Tiles l i j) (k : ℕ) : Tiles (l ++ [(j, k)]) i (j+k) := by
  induction l generalizing i with
  | nil =>
    cases h
    exact ⟨rfl,rfl⟩
  | cons p l ih => exact ⟨h.1,ih h.2⟩

theorem Tiles.le (h : Tiles l i j) : i ≤ j := by
  induction l generalizing i with
  | nil => exact Nat.le_of_eq h
  | cons p l ih => exact Nat.le_trans (Nat.le_add_right i p.2) (ih h.2)

theorem Tiles.mem_le (h : Tiles l i j) {p : ℕ × ℕ} (hp : p ∈ l) : p.1+p.2 ≤ j := by
  induction l generalizing i with
  | nil => cases hp
  | cons x l ih =>
    rcases mem_cons.mp hp with rfl | hp
    · rw [h.1]
      exact h.2.le
    · exact ih h.2 hp

/-- The last piece goes up to the end. -/
theorem Tiles.exists_last (h : Tiles l i j) (hij : i < j) : ∃ p ∈ l, p.1+p.2 = j := by
  induction l generalizing i with
  | nil => exact absurd h (Nat.ne_of_lt hij)
  | cons p l ih =>
    rcases Nat.eq_or_lt_of_le h.2.le with he | hlt
    · exact ⟨p,mem_cons_self,by rw [h.1,he]⟩
    · obtain ⟨q,hq,hqj⟩ := ih h.2 hlt
      exact ⟨q,mem_cons_of_mem p hq,hqj⟩

/-- A copy between user memory and a buffer of the kernel. `touched` lists the parts of the
buffer that have been accessed, each by its first index and its length. -/
structure Transfer (β : Type) where
  mem : Memory (ℕ → β)
  buf : ℕ → β
  touched : List (ℕ × ℕ)

namespace Transfer

/-- The loop of `vmmap_read` and `vmmap_write`. A round is given the address, the number of
bytes done and the number of bytes to do; it is `false` where there is no area. -/
def copyLoop (round : ℕ → ℕ → ℕ → Transfer β → Option (Transfer β × Bool)) (endaddr count : ℕ) :
    (fuel curraddr done : ℕ) → Transfer β → Option (Transfer β × ℤ)
  | 0, _, _, _ => none
  | n+1, curraddr, done, x =>
    if curraddr < endaddr then do
      let bytes := min (count - done) (pageSize - curraddr % pageSize)
      let (x, found) ← round curraddr done bytes x
      if found then copyLoop round endaddr count n (u32 (curraddr+bytes)) (done+bytes) x
      else return (x, -1)
    else some (x, 0)

variable [Zero β]

def readRound (env : Env (ℕ → β)) (pid addr done bytes : ℕ) (x : Transfer β) : Option (Transfer β × Bool) := do
  let (s, r) ← x.mem.readPage env pid (addr / pageSize)
  match r with
  | none => return ({ x with mem := s }, false)
  | some page => return ({
      mem := s
      buf := memcpy x.buf done page (addr % pageSize) bytes
      touched := x.touched ++ [(done, bytes)] }, true)

def writeRound (env : Env (ℕ → β)) (pid addr done bytes : ℕ) (x : Transfer β) : Option (Transfer β × Bool) := do
  let (s, r) ← x.mem.writePage env pid (addr / pageSize) fun page => memcpy page (addr % pageSize) x.buf done bytes
  match r with
  | none => return ({ x with mem := s }, false)
  | some () => return ({ x with mem := s, touched := x.touched ++ [(done, bytes)] }, true)

/-- `vmmap_read` into the buffer. -/
def vmmapRead (env : Env (ℕ → β)) (pid vaddr count : ℕ) : Transfer β → Option (Transfer β × ℤ) :=
  copyLoop (readRound env pid) (u32 (vaddr+count)) count (count+1) vaddr 0

/-- `vmmap_write` from the buffer. -/
def vmmapWrite (env : Env (ℕ → β)) (pid vaddr count : ℕ) : Transfer β → Option (Transfer β × ℤ) :=
  copyLoop (writeRound env pid) (u32 (vaddr+count)) count (count+1) vaddr 0

/-! ### The loop -/

/-- How many bytes the round at `done` does. -/
def chunk (vaddr count done : ℕ) : ℕ := min (count - done) (pageSize - (vaddr+done) % pageSize)

theorem chunk_pos {count done : ℕ} (h : done < count) (vaddr : ℕ) : 0 < chunk vaddr count done := by
  have : (vaddr+done) % pageSize < pageSize := Nat.mod_lt _ (by decide)
  unfold chunk
  omega

theorem chunk_le (vaddr count done : ℕ) :
    chunk vaddr count done ≤ count - done ∧ (vaddr+done) % pageSize+chunk vaddr count done ≤ pageSize := by
  have : (vaddr+done) % pageSize < pageSize := Nat.mod_lt _ (by decide)
  unfold chunk
  omega

section Rule

variable {round : ℕ → ℕ → ℕ → Transfer β → Option (Transfer β × Bool)} {vaddr count : ℕ}
  {I F : ℕ → Transfer β → Prop}

/-- The rounds that have been made when `d` bytes are done lead to this state. -/
inductive Reaches (round : ℕ → ℕ → ℕ → Transfer β → Option (Transfer β × Bool)) (vaddr count : ℕ) (x0 : Transfer β) :
    ℕ → Transfer β → Prop
  | start : Reaches round vaddr count x0 0 x0
  | next {d : ℕ} {x y : Transfer β} (h : Reaches round vaddr count x0 d x) (hd : d < count)
      (hy : round (vaddr+d) d (chunk vaddr count d) x = some (y, true)) :
      Reaches round vaddr count x0 (d+chunk vaddr count d) y

variable {d : ℕ}

omit [Zero β] in
theorem copyLoop_round {fuel : ℕ} (hd : d < count) (x : Transfer β) :
    copyLoop round (vaddr+count) count (fuel+1) (vaddr+d) d x = (round (vaddr+d) d (chunk vaddr count d) x).bind fun y =>
      if y.2 then copyLoop round (vaddr+count) count fuel (u32 ((vaddr+d : ℕ)+(chunk vaddr count d : ℕ)))
        (d+chunk vaddr count d) y.1 else some (y.1, -1) := by
  conv_lhs => unfold copyLoop
  rw [if_pos (by omega)]
  rfl

variable {x0 x : Transfer β}

omit [Zero β] in
/-- The loop goes on from every state that its rounds lead to. -/
theorem Reaches.copyLoop (h : Reaches round vaddr count x0 d x) (hsum : vaddr+count < 2 ^ 32) :
    d ≤ count ∧ ∃ fuel, count - d < fuel ∧ copyLoop round (u32 (vaddr+count)) count (count+1) vaddr 0 x0 =
      copyLoop round (vaddr+count) count fuel (vaddr+d) d x := by
  rw [u32_add hsum]
  induction h with
  | start => exact ⟨Nat.zero_le _,count+1,by omega,rfl⟩
  | @next d x y _ hd hy ih =>
    obtain ⟨-,fuel,hfuel,he⟩ := ih
    obtain ⟨fuel,rfl⟩ := Nat.exists_eq_succ_of_ne_zero (Nat.ne_of_gt (Nat.zero_lt_of_lt hfuel))
    have hpos := chunk_pos hd vaddr
    obtain ⟨hle,-⟩ := chunk_le vaddr count d
    refine ⟨by omega,fuel,by omega,?_⟩
    rw [he,copyLoop_round hd,hy,bind_some,if_pos rfl,u32_add (by omega),Nat.add_assoc]

omit [Zero β] in
/-- The loop ends, after the last byte or with the round that fails. -/
theorem copyLoop_rule (hsum : vaddr+count < 2 ^ 32)
    (hround : ∀ d x, Reaches round vaddr count x0 d x → d < count → I d x →
      (∃ y, round (vaddr+d) d (chunk vaddr count d) x = some (y, true) ∧ I (d+chunk vaddr count d) y) ∨
      ∃ y, round (vaddr+d) d (chunk vaddr count d) x = some (y, false) ∧ F d y) (hx : I 0 x0) :
    ∃ y r, copyLoop round (u32 (vaddr+count)) count (count+1) vaddr 0 x0 = some (y, r) ∧
      (r = 0 ∧ I count y ∨ r = -1 ∧ ∃ d, d < count ∧ F d y) := by
  suffices h : ∀ n d x, count - d ≤ n → Reaches round vaddr count x0 d x → I d x →
      ∃ y r, copyLoop round (u32 (vaddr+count)) count (count+1) vaddr 0 x0 = some (y, r) ∧
        (r = 0 ∧ I count y ∨ r = -1 ∧ ∃ d, d < count ∧ F d y) from h count 0 x0 (by omega) .start hx
  intro n
  induction n with
  | zero =>
    intro d x hn hr hI
    obtain ⟨hle,fuel,hfuel,he⟩ := hr.copyLoop hsum
    obtain ⟨fuel,rfl⟩ := Nat.exists_eq_succ_of_ne_zero (Nat.ne_of_gt (Nat.zero_lt_of_lt hfuel))
    obtain rfl : d = count := by omega
    refine ⟨x,0,?_,.inl ⟨rfl,hI⟩⟩
    rw [he]
    exact if_neg (Nat.lt_irrefl _)
  | succ n ih =>
    intro d x hn hr hI
    by_cases hd : d < count
    · obtain ⟨-,fuel,hfuel,he⟩ := hr.copyLoop hsum
      obtain ⟨fuel,rfl⟩ := Nat.exists_eq_succ_of_ne_zero (Nat.ne_of_gt (Nat.zero_lt_of_lt hfuel))
      have hpos := chunk_pos hd vaddr
      rcases hround d x hr hd hI with ⟨y,hy,hI'⟩ | ⟨y,hy,hF⟩
      · exact ih _ y (by omega) (hr.next hd hy) hI'
      · refine ⟨y,-1,?_,.inr ⟨rfl,d,hd,hF⟩⟩
        rw [he,copyLoop_round hd,hy]
        rfl
    · exact ih d x (by omega) hr hI

omit [Zero β] in
/-- A round that has no result leaves the loop without one. -/
theorem Reaches.copyLoop_none (h : Reaches round vaddr count x0 d x) (hsum : vaddr+count < 2 ^ 32)
    (hd : d < count) (hnone : round (vaddr+d) d (chunk vaddr count d) x = none) :
    Transfer.copyLoop round (u32 (vaddr+count)) count (count+1) vaddr 0 x0 = none := by
  obtain ⟨-,fuel,hfuel,he⟩ := h.copyLoop hsum
  obtain ⟨fuel,rfl⟩ := Nat.exists_eq_succ_of_ne_zero (Nat.ne_of_gt (Nat.zero_lt_of_lt hfuel))
  rw [he,copyLoop_round hd,hnone]
  rfl

omit [Zero β] in
/-- The end of a range that wraps is below its start, and nothing is done. -/
theorem copyLoop_wrap (hv : vaddr < 2 ^ 32) (hc : count < 2 ^ 32) (hsum : 2 ^ 32 ≤ vaddr+count) (x : Transfer β) :
    copyLoop round (u32 (vaddr+count)) count (count+1) vaddr 0 x = some (x, 0) := by
  have hend : u32 ((vaddr : ℤ)+count) ≤ vaddr := by
    unfold u32
    omega
  unfold copyLoop
  exact if_neg (Nat.not_lt.mpr hend)

omit [Zero β] in
/-- To the memory the loop does what the loop over whole pages does. -/
theorem copyLoop_copyPages {γ : Type} {P : Transfer β → Prop} {fuel addr done endaddr : ℕ}
    {visit : ℕ → ℕ → ℕ → Memory (ℕ → β) → Option (Memory (ℕ → β) × Option γ)}
    (h : ∀ c d k x, P x → round c d k x = none ∧ visit c d k x.mem = none ∨
      (∃ y g, round c d k x = some (y, true) ∧ P y ∧ visit c d k x.mem = some (y.mem, some g)) ∨
      ∃ y, round c d k x = some (y, false) ∧ visit c d k x.mem = some (y.mem, none)) (hx : P x) :
    (copyLoop round endaddr count fuel addr done x).map (fun y => (y.1.mem, y.2)) =
      (Memory.copyPages visit endaddr count fuel addr done x.mem).map fun y => (y.1, if y.2.isSome then 0 else -1) := by
  induction fuel generalizing addr done x with
  | zero => rfl
  | succ fuel ih =>
    unfold copyLoop Memory.copyPages
    split
    · rcases h addr done (min (count - done) (pageSize - addr % pageSize)) x hx with ⟨hr,hv⟩ | ⟨y,g,hr,hy,hv⟩ | ⟨y,hr,hv⟩
      · simp only [hr,hv,bind_eq_bind,bind_none,map_none]
      · simp only [hr,hv,bind_eq_bind,bind_some,if_true,ih hy]
        cases Memory.copyPages visit endaddr count fuel _ _ y.mem with
        | none => rfl
        | some z =>
          obtain ⟨t,xs⟩ := z
          cases xs <;> rfl
      · simp only [hr,hv,bind_eq_bind,bind_some]
        rfl
    · rfl

end Rule

/-- The copies of bytes are the calls of a run. -/
theorem vmmapRead_mem (env : Env (ℕ → β)) (pid vaddr count : ℕ) (x : Transfer β) :
    (vmmapRead env pid vaddr count x).map (fun y => (y.1.mem, y.2)) =
      (x.mem.vmmapRead env pid vaddr count).map fun y => (y.1, if y.2.isSome then 0 else -1) := by
  refine copyLoop_copyPages (P := fun _ => True) (fun c d k x _ => ?_) trivial
  unfold readRound
  cases hr : x.mem.readPage env pid (c / pageSize) with
  | none => exact .inl ⟨rfl,rfl⟩
  | some y =>
    obtain ⟨t,page⟩ := y
    cases page with
    | none => exact .inr (.inr ⟨_,rfl,rfl⟩)
    | some page => exact .inr (.inl ⟨_,page,rfl,trivial,rfl⟩)

theorem vmmapWrite_mem (env : Env (ℕ → β)) (pid vaddr count : ℕ) (x : Transfer β) :
    (vmmapWrite env pid vaddr count x).map (fun y => (y.1.mem, y.2)) =
      (x.mem.vmmapWrite env pid vaddr count fun off done bytes page => memcpy page off x.buf done bytes).map
        fun y => (y.1, if y.2.isSome then 0 else -1) := by
  refine copyLoop_copyPages (P := fun y => y.buf = x.buf) (fun c d k y hy => ?_) rfl
  unfold writeRound
  rw [← hy]
  cases hr : y.mem.writePage env pid (c / pageSize) fun page => memcpy page (c % pageSize) y.buf d k with
  | none => exact .inl ⟨rfl,rfl⟩
  | some z =>
    obtain ⟨t,found⟩ := z
    cases found with
    | none => exact .inr (.inr ⟨_,rfl,rfl⟩)
    | some u => exact .inr (.inl ⟨_,u,rfl,rfl,rfl⟩)

end Transfer

namespace Memory

variable [Zero β] {U : UserMem} {env : Env (ℕ → β)} {s t u : Memory (ℕ → β)} {pid q v w base count d k e o n x : ℕ}
  {a b : Vmarea} {buf data : ℕ → β}

/-- The byte that the process sees at an address. -/
def byteAt (s : Memory (ℕ → β)) (pid x : ℕ) : Option β := (s.view pid (x / pageSize)).map fun page => page (x % pageSize)

theorem byteAt_of_view {page : ℕ → β} (h : s.view pid (x / pageSize) = some page) :
    s.byteAt pid x = some (page (x % pageSize)) := by
  rw [byteAt,h]
  rfl

theorem byteAt_congr (h : t.view q (x / pageSize) = s.view q (x / pageSize)) : t.byteAt q x = s.byteAt q x := by
  rw [byteAt,byteAt,h]

/-- The addresses of a page that lie in one page. -/
theorem same_page (he : e % pageSize+k ≤ pageSize) (hx : e ≤ x) (hk : x < e+k) :
    x / pageSize = e / pageSize ∧ x % pageSize = e % pageSize+(x - e) := by
  unfold pageSize at *
  omega

theorem page_offset (h : x / pageSize = e / pageSize) :
    (e % pageSize ≤ x % pageSize ↔ e ≤ x) ∧ (e ≤ x → x % pageSize = e % pageSize+(x - e)) := by
  unfold pageSize at *
  omega

/-! ### Reading -/

/-- The first `d` bytes from `base` on have been read into the buffer. -/
structure Fetched (U : UserMem) (pid base : ℕ) (x0 : Transfer β) (d : ℕ) (x : Transfer β) : Prop where
  sys : Sys U x.mem
  lists : ∀ q, x.mem.vmmList q = x0.mem.vmmList q
  views : ∀ q w, x.mem.view q w = x0.mem.view q w
  got : ∀ i, i < d → x0.mem.byteAt pid (base+i) = some (x.buf i)
  rest : ∀ i, d ≤ i → x.buf i = x0.buf i
  touched : ∃ l, x.touched = x0.touched ++ l ∧ Tiles l 0 d

variable {x0 : Transfer β}

theorem Fetched.start (h : Sys U x0.mem) : Fetched U pid base x0 0 x0 :=
  ⟨h,fun _ => rfl,fun _ _ => rfl,fun i hi => absurd hi (Nat.not_lt_zero i),fun _ _ => rfl,[],by simp,rfl⟩

theorem Fetched.round {x : Transfer β} (h : Fetched U pid base x0 d x)
    (hok : ¬LookupFails env pid ((base+d) / pageSize) false x.mem) (hk : (base+d) % pageSize+k ≤ pageSize) :
    (∃ y, Transfer.readRound env pid (base+d) d k x = some (y, true) ∧ Fetched U pid base x0 (d+k) y) ∨
    ∃ y, Transfer.readRound env pid (base+d) d k x = some (y, false) ∧ Fetched U pid base x0 d y ∧
      vmmapLookup (x0.mem.vmmList pid) ((base+d) / pageSize) = none := by
  obtain ⟨hsys,hlists,hviews,hgot,hrest,l,hl,htiles⟩ := h
  obtain ⟨t,ht,hsys',hlists',hviews'⟩ := hsys.readPage_returns hok
  unfold Transfer.readRound
  simp only [ht,bind_eq_bind,bind_some]
  have hlists'' : ∀ q, t.vmmList q = x0.mem.vmmList q := fun q => (hlists' q).trans (hlists q)
  have hviews'' : ∀ q w, t.view q w = x0.mem.view q w := fun q w => (hviews' q w).trans (hviews q w)
  cases hv : x.mem.view pid ((base+d) / pageSize) with
  | none =>
    refine .inr ⟨_,rfl,⟨hsys',hlists'',hviews'',hgot,hrest,l,hl,htiles⟩,?_⟩
    rw [← hlists]
    exact hsys.view_eq_none.mp hv
  | some page =>
    refine .inl ⟨_,rfl,hsys',hlists'',hviews'',fun i hi => ?_,fun i hi => ?_,l ++ [(d, k)],?_,htiles.snoc k⟩
    · by_cases hid : i < d
      · rw [hgot i hid]
        exact congrArg some (memcpy_outside (by omega)).symm
      · obtain ⟨hpage,hoff⟩ := same_page hk (show base+d ≤ base+i by omega) (by omega)
        rw [byteAt_of_view (by rw [hpage,← hviews]; exact hv),hoff]
        refine congrArg some ((memcpy_inside (by omega)).trans ?_).symm
        rw [show base+i - (base+d) = i - d by omega]
    · exact (memcpy_outside (by omega)).trans (hrest i (by omega))
    · change x.touched ++ [(d, k)] = _
      rw [hl,append_assoc]

/-- No page lookup of the read fails. -/
def ReadsOk (env : Env (ℕ → β)) (pid base count : ℕ) (x0 : Transfer β) : Prop :=
  ∀ d x, Transfer.Reaches (Transfer.readRound env pid) base count x0 d x → d < count →
    ¬LookupFails env pid ((base+d) / pageSize) false x.mem

theorem LookupsOk.readsOk (henv : LookupsOk env) (pid base count : ℕ) (x0 : Transfer β) : ReadsOk env pid base count x0 :=
  fun _ x _ _ => henv.succeeds pid _ false x.mem

/-- `vmmap_read` returns; it reads all bytes, or those before a page that is not mapped. -/
theorem Sys.vmmapRead (h : Sys U x0.mem) (hok : ReadsOk env pid base count x0) (hsum : base+count < 2 ^ 32) :
    ∃ x r, Transfer.vmmapRead env pid base count x0 = some (x, r) ∧
      (r = 0 ∧ Fetched U pid base x0 count x ∨ r = -1 ∧ ∃ d, d < count ∧ Fetched U pid base x0 d x ∧
        vmmapLookup (x0.mem.vmmList pid) ((base+d) / pageSize) = none) :=
  Transfer.copyLoop_rule (I := Fetched U pid base x0) hsum
    (fun d x hr hd hI => hI.round (hok d x hr hd) (Transfer.chunk_le base count d).2) (.start h)

/-- Where a lookup fails, the read goes on with a frame that is not there. -/
theorem readsOk_of_vmmapRead {y : Transfer β} {r : ℤ} (hsum : base+count < 2 ^ 32)
    (hy : Transfer.vmmapRead env pid base count x0 = some (y, r)) : ReadsOk env pid base count x0 := by
  intro d x hr hd hfail
  have hnone : Transfer.readRound env pid (base+d) d (Transfer.chunk base count d) x = none := by
    rw [Transfer.readRound,hfail.readPage]
    rfl
  cases hy.symm.trans (hr.copyLoop_none hsum hd hnone)

/-! ### Writing -/

/-- The object and the page in it that a page is mapped to. -/
def place (s : Memory (ℕ → β)) (pid v : ℕ) : Option (Option ℕ × ℕ) :=
  (trans (s.vmmList pid) v).map fun target => (target.1, target.2.1)

omit [Zero β] in
theorem place_congr (h : ∀ q, t.vmmList q = s.vmmList q) : t.place pid v = s.place pid v := by
  rw [place,place,h]

/-- No two pages of the range are mapped to one page of an object. -/
def Apart (s : Memory (ℕ → β)) (pid base count : ℕ) : Prop :=
  ∀ x y, base ≤ x → x < base+count → base ≤ y → y < base+count →
    s.place pid (x / pageSize) = s.place pid (y / pageSize) → x / pageSize = y / pageSize

/-- The pages of the range are in private areas. -/
def InPrivate (s : Memory (ℕ → β)) (pid base count : ℕ) : Prop :=
  ∀ x, base ≤ x → x < base+count → ∀ a, vmmapLookup (s.vmmList pid) (x / pageSize) = some a → a.isShared = false

/-- The object of the page has a frame for it. -/
def Resident (s : Memory (ℕ → β)) (pid v : ℕ) : Prop :=
  ∃ a o, vmmapLookup (s.vmmList pid) v = some a ∧ a.vmaObj = some o ∧ (s.pframeGetResident o (a.page v)).isSome

/-- The range from `base` on has been written with `data` up to the address `e`. What has
been written has its own frames, so that writes further on do not change it. -/
structure Filled (U : UserMem) (pid base count : ℕ) (data : ℕ → β) (s : Memory (ℕ → β)) (e : ℕ)
    (t : Memory (ℕ → β)) : Prop where
  sys : Sys U t
  lists : ∀ q, t.vmmList q = s.vmmList q
  written : Apart s pid base count → ∀ x, base ≤ x → x < e → t.byteAt pid x = some (data (x - base))
  resident : ∀ x, base ≤ x → x < e → Resident t pid (x / pageSize)
  outside : InPrivate s pid base count → ∀ q x, ¬ (q = pid ∧ base ≤ x ∧ x < e) → t.byteAt q x = s.byteAt q x

theorem Filled.start (h : Sys U s) : Filled U pid base count data s base s :=
  ⟨h,fun _ => rfl,fun _ x _ _ => by omega,fun x _ _ => by omega,fun _ _ _ _ => rfl⟩

theorem Wrote.resident_kept {store : (ℕ → β) → ℕ → β} (hw : Wrote s t o n store) (h : Resident s q w) :
    Resident t q w := by
  obtain ⟨b,y,hb,hy,hr⟩ := h
  exact ⟨b,y,by rw [hw.lists]; exact hb,hy,hw.kept y _ hr⟩

/-- A page that has its own frame is changed only by a write to it. -/
theorem Wrote.view_resident {store : (ℕ → β) → ℕ → β} (hw : Wrote s t o n store) (h : Resident s q w)
    (hne : s.place q w ≠ some (some o, n)) : t.view q w = s.view q w := by
  obtain ⟨b,y,hb,hy,hr⟩ := h
  have hp : s.place q w = some (some y, b.page w) := by simp [place,trans,hb,Vmarea.target,hy]
  rw [view_of_lookup hb hy rfl]
  refine view_of_lookup (by rw [hw.lists]; exact hb) hy ?_
  by_cases hn : b.page w = n
  · rw [hn] at hr hp ⊢
    refine hw.near y (fun hyo => hne ?_) hr
    rw [hp,hyo]
  · exact hw.other y _ (.inl hn)

/-- One page of the range is written. -/
theorem Filled.write (h : Filled U pid base count data s e t) (hok : ¬LookupFails env pid (e / pageSize) true t)
    (hbe : base ≤ e) (hk : 0 < k) (hpage : e % pageSize+k ≤ pageSize) (hin : e+k ≤ base+count)
    (hbuf : ∀ i, i < k → buf (d+i) = data (e - base+i)) :
    (∃ u, t.writePage env pid (e / pageSize) (fun page => memcpy page (e % pageSize) buf d k) = some (u, some ()) ∧
      Filled U pid base count data s (e+k) u) ∨
    t.writePage env pid (e / pageSize) (fun page => memcpy page (e % pageSize) buf d k) = some (t, none) ∧
      vmmapLookup (s.vmmList pid) (e / pageSize) = none := by
  obtain ⟨hsys,hlists,hwritten,hres,hout⟩ := h
  obtain ⟨u,hu⟩ := hsys.writePage_returns hok fun page => memcpy page (e % pageSize) buf d k
  obtain ⟨hsys',hcase⟩ := hsys.writePage_wrote hu
  rcases hcase with ⟨hr,rfl,hnone⟩ | ⟨hr,a,o,ha,ho,hw⟩
  · rw [hr] at hu
    exact .inr ⟨hu,by rw [← hlists]; exact hnone⟩
  rw [hr] at hu
  have hold := view_of_lookup ha ho rfl
  have hnew := hw.view_self ha ho rfl
  refine .inl ⟨u,hu,hsys',fun q => (hw.lists q).trans (hlists q),fun hap x hx hxe => ?_,fun x hx hxe => ?_,
    fun hpr q x hne => ?_⟩
  · by_cases hv : x / pageSize = e / pageSize
    · obtain ⟨hle,hoff⟩ := page_offset hv
      rw [byteAt_of_view (by rw [hv]; exact hnew)]
      by_cases hlt : x < e
      · rw [memcpy_outside (by omega),← hwritten hap x hx hlt,byteAt_of_view (by rw [hv]; exact hold)]
      · have hbyte := hbuf (x - e) (by omega)
        rw [memcpy_inside (by have := hoff (by omega); omega),hoff (by omega),Nat.add_sub_cancel_left,hbyte]
        congr 2
        omega
    · have hlt : x < e := by
        by_contra hc
        exact hv (same_page hpage (by omega) hxe).1
      refine (byteAt_congr (hw.view_resident (hres x hx hlt) fun hp => hv ?_)).trans (hwritten hap x hx hlt)
      refine hap x e hx (by omega) hbe (by omega) ?_
      rw [← place_congr hlists,← place_congr hlists,hp]
      simp [place,trans,ha,Vmarea.target,ho]
  · by_cases hlt : x < e
    · exact hw.resident_kept (hres x hx hlt)
    · rw [(same_page hpage (by omega) hxe).1]
      exact ⟨a,o,by rw [hw.lists]; exact ha,ho,hw.resident⟩
  · have hpriv : a.isShared = false := hpr e hbe (by omega) a (by rw [← hlists]; exact ha)
    refine Eq.trans ?_ (hout hpr q x fun hc => hne ⟨hc.1,hc.2.1,by omega⟩)
    by_cases hv : q = pid ∧ x / pageSize = e / pageSize
    · obtain ⟨rfl,hv⟩ := hv
      have hoff := page_offset hv
      rw [byteAt_of_view (by rw [hv]; exact hnew),byteAt_of_view (by rw [hv]; exact hold),memcpy_outside]
      intro hc
      have hex := hoff.1.mp hc.1
      have := hoff.2 hex
      exact hne ⟨rfl,by omega,by omega⟩
    · exact byteAt_congr (hsys.wrote_private hsys' ha hpriv ho hw hv)

/-- What a write of the buffer has done after `d` bytes. -/
structure Stored (U : UserMem) (pid base count : ℕ) (data : ℕ → β) (s : Memory (ℕ → β)) (c : ℕ) (x0 : Transfer β)
    (d : ℕ) (x : Transfer β) : Prop where
  filled : Filled U pid base count data s (c+d) x.mem
  buf : x.buf = x0.buf
  touched : ∃ l, x.touched = x0.touched ++ l ∧ Tiles l 0 d

/-- No page lookup of the write fails. -/
def WritesOk (env : Env (ℕ → β)) (pid base count : ℕ) (x0 : Transfer β) : Prop :=
  ∀ d x, Transfer.Reaches (Transfer.writeRound env pid) base count x0 d x → d < count →
    ¬LookupFails env pid ((base+d) / pageSize) true x.mem

theorem LookupsOk.writesOk (henv : LookupsOk env) (pid base count : ℕ) (x0 : Transfer β) : WritesOk env pid base count x0 :=
  fun _ x _ _ => henv.succeeds pid _ true x.mem

theorem writesOk_of_vmmapWrite {y : Transfer β} {r : ℤ} (hsum : base+count < 2 ^ 32)
    (hy : Transfer.vmmapWrite env pid base count x0 = some (y, r)) : WritesOk env pid base count x0 := by
  intro d x hr hd hfail
  have hnone : Transfer.writeRound env pid (base+d) d (Transfer.chunk base count d) x = none := by
    rw [Transfer.writeRound,hfail.writePage]
    rfl
  cases hy.symm.trans (hr.copyLoop_none hsum hd hnone)

/-- `vmmap_write` returns; it writes all bytes, or those before a page that is not mapped.
The range may be the next part of a longer one. -/
theorem Filled.vmmapWrite {c m : ℕ} (h : Filled U pid base count data s c x0.mem) (hok : WritesOk env pid c m x0)
    (hbc : base ≤ c) (hin : c+m ≤ base+count) (hsum : c+m < 2 ^ 32)
    (hbuf : ∀ i, i < m → x0.buf i = data (c - base+i)) : ∃ x r, Transfer.vmmapWrite env pid c m x0 = some (x, r) ∧
      (r = 0 ∧ Stored U pid base count data s c x0 m x ∨ r = -1 ∧ ∃ d, d < m ∧ Stored U pid base count data s c x0 d x ∧
        vmmapLookup (s.vmmList pid) ((c+d) / pageSize) = none) := by
  refine Transfer.copyLoop_rule (I := Stored U pid base count data s c x0) hsum (fun d x hr hd hI => ?_)
    ⟨h,rfl,[],by simp,rfl⟩
  obtain ⟨hfilled,hxbuf,l,hl,htiles⟩ := hI
  obtain ⟨hle,hpage⟩ := Transfer.chunk_le c m d
  have hk := Transfer.chunk_pos hd c
  have hdata : ∀ i, i < Transfer.chunk c m d → x.buf (d+i) = data (c+d - base+i) := by
    intro i hi
    rw [hxbuf,hbuf (d+i) (by omega)]
    congr 1
    omega
  unfold Transfer.writeRound
  rcases hfilled.write (hok d x hr hd) (by omega) hk hpage (by omega) hdata with ⟨u,hu,hfilled'⟩ | ⟨hu,hnone⟩
  · simp only [hu,bind_eq_bind,bind_some]
    refine .inl ⟨_,rfl,by rw [← Nat.add_assoc]; exact hfilled',hxbuf,l ++ [(d, _)],?_,htiles.snoc _⟩
    change x.touched ++ [(d, _)] = _
    rw [hl,append_assoc]
  · simp only [hu,bind_eq_bind,bind_some]
    exact .inr ⟨_,rfl,⟨hfilled,hxbuf,l,hl,htiles⟩,hnone⟩

end Memory

end Csci402.Vm
