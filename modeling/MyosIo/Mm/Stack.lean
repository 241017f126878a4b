import MyosIo.Mm.Boot

/-! Each round of the loop of `kernel_init_part2` moves one page from the iterator to the stack
and, where the array reaches a new page, one page to the array and at most one to the pool; so the
pool stays far above the array. -/
namespace MyosIo.Mm

open Function

variable {L : Layout} {ram s s' : State} {v w ph q room : ℕ} {fixed : List (ℕ × ℕ)}
  {stack pages : List ℕ} {it : FreePagesIterator} {es : List E820Entry}

/-- `&free_pages[free_pages_num_in_init]`. -/
def slot (L : Layout) (s : State) : ℕ := L.ekernelAlign8 + 8 * s.freePages.length

theorem slot_mod (L : Layout) (s : State) : slot L s % 8 = 0 := by
  unfold slot Layout.ekernelAlign8
  omega

theorem Books.dropLeft (hB : Books L fixed (pages ++ stack) s) : Books L fixed stack s := by
  induction pages with
  | nil => exact hB
  | cons q pages ih => exact ih hB.drop

theorem Books.pushPtPage (hB : Books L fixed (q :: stack) s) (hsp : 0x200000 < s.ptPagesSp)
    (h : pushPtPage s q = .ok s') : Ready L fixed (q :: stack) stack s s' := by
  obtain ⟨w, hw⟩ : ∃ w, s.ptPagesSp - 0x200000 = w := ⟨_, rfl⟩
  have hpos : 0 < w := by omega
  unfold Mm.pushPtPage at h
  rw [hw] at h
  have hG := (hB.pt.setSp w).addPtPage ((hB.fresh hsp.le hpos hw).setSp w) hB.ph_mod h
  exact (hG.ready hB hw hsp.le).1

/-- The end of the page that holds the entry before address `n`. -/
def roundup (n : ℕ) : ℕ := (n + 0x1fffff) / 0x200000 * 0x200000

theorem roundup_mono (n : ℕ) : roundup n ≤ roundup (n + 8) :=
  Nat.mul_le_mul_right _ (Nat.div_le_div_right (Nat.add_le_add_right (Nat.le_add_right n 8) _))

theorem roundup_lt (n : ℕ) : roundup n < n + 0x200000 := by
  unfold roundup
  omega

theorem roundup_self {n : ℕ} (h : n % 0x200000 = 0) : roundup n = n := by
  unfold roundup
  omega

theorem roundup_succ {n : ℕ} (h : n % 0x200000 = 0) : roundup (n + 8) = n + 0x200000 := by
  unfold roundup
  rw [Nat.add_assoc]
  omega

/-- The array up to and including the page the next entry goes to, unless it starts a page. -/
def ArrayMapped (L : Layout) (fixed : List (ℕ × ℕ)) (n : ℕ) : Prop :=
  ∀ i < n, ∃ q, (align2m (L.ekernelAlign8 + 8 * i), q) ∈ fixed

/-- The invariant of the loop. -/
structure Filling (L : Layout) (fixed : List (ℕ × ℕ)) (it : FreePagesIterator) (s : State) :
    Prop where
  books : Books L fixed (left it ++ s.freePages) s
  inside : Inside L it
  none : ∀ v, IsUser v → target s v = none
  min : s.ptPagesSpMin = 0
  pool : firstPtPageVAddr ≤ s.ptPagesSp + roundup (slot L s)
  array : ArrayMapped L fixed s.freePages.length
  next : slot L s % 0x200000 ≠ 0 → ∃ q, (align2m (slot L s), q) ∈ fixed

/-- The state `kernel_init_part2` leaves, but for `pt_pages_sp_min`. -/
structure Filled (L : Layout) (fixed : List (ℕ × ℕ)) (s : State) : Prop where
  books : Books L fixed s.freePages s
  none : ∀ v, IsUser v → target s v = none
  array : ArrayMapped L fixed s.freePages.length

theorem Filling.filled (hF : Filling L fixed it s) : Filled L fixed s :=
  ⟨hF.books.dropLeft, hF.none, hF.array⟩

theorem slot_push : slot L { s with freePages := q :: s.freePages } = slot L s + 8 := by
  unfold slot
  rw [List.length_cons]
  omega

/-- The page on the way goes on the stack. -/
theorem Filling.push (hB : Books L fixed (q :: left it ++ s.freePages) s) (hi : Inside L it)
    (hn : ∀ v, IsUser v → target s v = Option.none) (hmin : s.ptPagesSpMin = 0)
    (hpool : firstPtPageVAddr ≤ s.ptPagesSp + roundup (slot L s + 8))
    (ha : ArrayMapped L fixed s.freePages.length) (hx : ∃ q, (align2m (slot L s), q) ∈ fixed) :
    Filling L fixed it { s with freePages := q :: s.freePages } where
  books := (hB.perm List.perm_middle.symm).setFreePages _
  inside := hi
  none := hn
  min := hmin
  pool := by
    rw [slot_push]
    exact hpool
  array i hlt := by
    rcases Nat.lt_succ_iff_lt_or_eq.mp hlt with hlt | rfl
    · exact ha i hlt
    · exact hx
  next hm := by
    have h8 := slot_mod L s
    rw [slot_push] at hm ⊢
    have he : align2m (slot L s + 8) = align2m (slot L s) := by
      unfold align2m
      omega
    rw [he]
    exact hx

theorem ptTryMap_parm {σ : Type} {hook : σ → Option ℕ × σ} {parm parm' : σ} {ret : ℤ}
    {isSoft : Bool} (h : ptTryMap hook parm s ph v isSoft = .ok (ret, parm', s')) :
    parm' = parm ∨ parm' = (hook parm).2 := by
  cases ptTryMap_ok h with
  | already | noRoom | written => exact Or.inl rfl
  | noPage hh | grown hh => exact Or.inr (by rw [hh])

/-- The array and the pool never lie in one gibibyte. -/
theorem slot_far (hslot : v < freePagesVAddrMax) (hm : v % 0x200000 = 0)
    (hpool : firstPtPageVAddr ≤ s.ptPagesSp + roundup v)
    (hle : s.ptPagesSp ≤ firstPtPageVAddr) (hw : s.ptPagesSp - 0x200000 = w) :
    0 < w ∧ ¬ (i1 v = i1 w ∧ i2 v = i2 w) := by
  rw [roundup_self hm] at hpool
  unfold freePagesVAddrMax at hslot
  unfold firstPtPageVAddr at hpool hle
  refine ⟨by omega, fun hi => ?_⟩
  have h1 := hi.1
  unfold i1 at h1
  omega

/-- One page of the iterator goes to the array, at most one to the pool. -/
theorem Filling.grow {it₁ it₂ : FreePagesIterator} {ret : ℤ} (hF : Filling L fixed it s)
    (hlt : slot L s < freePagesVAddrMax) (hs : slot L s % 0x200000 = 0)
    (hB : Books L fixed (ph :: (left it₁ ++ (q :: s.freePages))) s) (hi : Inside L it₁)
    (h : ptTryMap getFreePageInInit it₁ s ph (slot L s) false = .ok (ret, it₂, s')) :
    (ret = -1 ∧ Books L fixed (ph :: (left it₂ ++ (q :: s.freePages))) s ∧ s' = s) ∨
    (ret = 0 ∧ s'.freePages = s.freePages ∧
      Filling L ((slot L s, ph) :: fixed) it₂ { s' with freePages := q :: s'.freePages }) := by
  have hle := hB.spLe
  have hlt45 : slot L s < 2 ^ 45 := by unfold freePagesVAddrMax at hlt; omega
  have hfar := fun w (_ : s.ptPagesSpMin + 0x200000 ≤ s.ptPagesSp)
    (hw : s.ptPagesSp - 0x200000 = w) => slot_far hlt hs hF.pool hle hw
  have hT := @Books.tryMap L fixed s s' (slot L s) ph false _ getFreePageInInit
    (fun it => left it ++ (q :: s.freePages)) it₁ it₂ ret hB (source_init hi _) hlt45 hfar h
  rcases hT with
    ⟨-, hsoft, -⟩ | ⟨rfl, -, hsrc, rfl⟩ | ⟨rfl, s₁, hR, hM, hn⟩
  · cases hsoft
  · refine Or.inl ⟨rfl, ?_, rfl⟩
    rw [hsrc]
    exact hB
  · obtain ⟨hB', -⟩ := hR.books.fix hM hn hs (by unfold freePagesVAddrMax at hlt; omega)
    have hfree : s'.freePages = s.freePages := hM.freePages.trans hR.freePages
    have hslot : slot L s' = slot L s := by rw [slot, hfree, slot]
    have hinside : Inside L it₂ := by
      rcases ptTryMap_parm h with rfl | rfl
      · exact hi
      · exact hi.next
    refine Or.inr ⟨rfl, hfree, Filling.push ?_ hinside ?_ ?_ ?_ ?_ ?_⟩
    · rw [hfree]
      exact hB'.perm List.perm_middle
    · intro u hu
      have hge := hu.ge
      rw [hM.sets.target_ne hs (by unfold freePagesVAddrMax at hlt; omega) hu.mod hu.lt45
        (by unfold freePagesVAddrMax at hlt; omega), hR.same u hu, hF.none u hu]
    · exact (hM.sp.2.trans hR.min).trans hF.min
    · have hsp := hR.sp.2
      have hpool := hF.pool
      rw [roundup_self hs] at hpool
      rw [hslot, hM.sp.1, roundup_succ hs]
      omega
    · rw [hfree]
      intro i hlt
      obtain ⟨q, hq⟩ := hF.array i hlt
      exact ⟨q, List.mem_cons_of_mem _ hq⟩
    · rw [hslot, align2m_of_mod hs]
      exact ⟨ph, by simp⟩

/-- A page becomes a `PT_Page` at the end of the loop. -/
theorem Ready.last {stack' : List ℕ} (hR : Ready L fixed stack stack' s s')
    (hn : ∀ v, IsUser v → target s v = Option.none) :
    (∀ v, IsUser v → target s' v = Option.none) ∧ s.ptPagesSp ≤ s'.ptPagesSp + 0x200000 :=
  ⟨fun v hv => (hR.same v hv).trans (hn v hv), hR.sp.2⟩

/-- The array ends below the mappings still to come, and memory outside the pool is kept. -/
structure Laid (L : Layout) (ram : State) (fixed : List (ℕ × ℕ)) (s : State) : Prop where
  bounded : ∀ v q, (v, q) ∈ fixed → v < roundup (slot L s)
  image : Image L (ptPages s.ptPagesSp) ram (emptyEntries L) s

/-- What the loop leaves, and what holds at the head of each of its rounds. -/
structure Ended (L : Layout) (ram : State) (fixed : List (ℕ × ℕ)) (s : State) : Prop extends
    Filled L fixed s, Laid L ram fixed s where
  min : s.ptPagesSpMin = 0
  slot_le : slot L s ≤ freePagesVAddrMax
  sp_ge : 0x20000000000 ≤ s.ptPagesSp

theorem Filling.sp_ge (hF : Filling L fixed it s) (hle : slot L s ≤ freePagesVAddrMax) :
    0x20000400000 ≤ s.ptPagesSp := by
  have hpool := hF.pool
  have hlt' := roundup_lt (slot L s)
  unfold freePagesVAddrMax at hle
  unfold firstPtPageVAddr at hpool
  omega

theorem Filling.ended (hF : Filling L fixed it s) (hL : Laid L ram fixed s)
    (hle : slot L s ≤ freePagesVAddrMax) : Ended L ram fixed s where
  toFilled := hF.filled
  toLaid := hL
  min := hF.min
  slot_le := hle
  sp_ge := Nat.le_trans (by omega) (hF.sp_ge hle)

/-- The last pages of the iterator go to the pool. -/
theorem Filling.ended_pushed (hF : Filling L fixed it s)
    (hB : Books L fixed (pages ++ s.freePages) s') (hn : ∀ v, IsUser v → target s' v = Option.none)
    (hfree : s'.freePages = s.freePages) (hmin : s'.ptPagesSpMin = s.ptPagesSpMin)
    (hL : Laid L ram fixed s') (hle : slot L s ≤ freePagesVAddrMax)
    (hsp : 0x20000000000 ≤ s'.ptPagesSp) : Ended L ram fixed s' where
  books := hfree ▸ hB.dropLeft
  none := hn
  array := hfree ▸ hF.array
  toLaid := hL
  min := hmin.trans hF.min
  slot_le := by
    rw [slot, hfree]
    exact hle
  sp_ge := hsp

theorem le_roundup (n : ℕ) : n ≤ roundup n := by
  unfold roundup
  omega

theorem roundup_le {n m : ℕ} (h : n ≤ m) (hm : m % 0x200000 = 0) : roundup n ≤ m := by
  unfold roundup
  omega

/-- Between the fixed mappings and the pool nothing is mapped. -/
theorem Books.free_above {n : ℕ} (hB : Books L fixed stack s)
    (hb : ∀ v q, (v, q) ∈ fixed → v < n) (hm : v % 0x200000 = 0) (h0 : 0 < v) (hn : n ≤ v)
    (hsp : v < s.ptPagesSp) : target s v = none := by
  have hle := hB.spLe
  unfold firstPtPageVAddr at hle
  by_contra hne
  obtain ⟨q, hq⟩ := Option.ne_none_iff_exists'.mp hne
  rcases hB.low v hm h0 (by omega) q hq with ⟨hp, -⟩ | hf
  · have := ((mem_ptPages hB.spMod).mp hp).2.1
    omega
  · have := hb v q hf
    omega

theorem Laid.pushPtPage (hL : Laid L ram fixed s) (hB : Books L fixed (q :: stack) s)
    (hle : slot L s ≤ freePagesVAddrMax) (hsp : 0x20000200000 ≤ s.ptPagesSp) :
    ∃ s', pushPtPage s q = .ok s' ∧ Ready L fixed (q :: stack) stack s s' ∧
      Laid L ram fixed s' := by
  obtain ⟨w, hw⟩ : ∃ w, s.ptPagesSp - 0x200000 = w := ⟨_, rfl⟩
  have hround : roundup (slot L s) ≤ freePagesVAddrMax := roundup_le hle (by decide)
  have hmod := hB.spMod
  have hfree : target s w = none := by
    unfold freePagesVAddrMax at hround
    exact hB.free_above hL.bounded (by omega) (by omega) (by omega) (by omega)
  have hf := (hB.fresh (by omega) (by omega) hw).setSp w
  obtain ⟨s', h⟩ := (hB.pt.setSp w).addPtPage_comes hB.num (target_eq_none.mp hfree) q
  have hp : Mm.pushPtPage s q = .ok s' := by
    unfold Mm.pushPtPage
    rw [hw]
    exact h
  have hG := (hB.pt.setSp w).addPtPage hf hB.ph_mod h
  obtain ⟨hR, hpool⟩ := hG.ready hB hw (by omega)
  have hi : Image L (ptPages s.ptPagesSp) ram (emptyEntries L) { s with ptPagesSp := w } :=
    hL.image.congr rfl rfl rfl rfl
  refine ⟨s', hp, hR, ?_, ?_⟩
  · rw [slot, hR.freePages]
    exact hL.bounded
  · rw [hpool]
    exact hi.addPtPage (hB.pt.setSp w) hf hB.ph_mod h fun _ => by omega

/-- The pages of the iterator are aligned. -/
theorem Books.init_mod {it₁ it' : FreePagesIterator} {q' : ℕ}
    (hB : Books L fixed (ph :: (left it₁ ++ (q :: s.freePages))) s) (hi : Inside L it₁)
    (h : getFreePageInInit it₁ = (some q', it')) : q' % 0x200000 = 0 := by
  refine hB.stackMod q' ?_
  simp [(source_init hi (q :: s.freePages)).some _ _ h]

/-- One page goes to the array, at most one to the pool: memory outside the pool is kept. -/
theorem Laid.grow {it₁ it₂ : FreePagesIterator} {ret : ℤ} (hL : Laid L ram fixed s)
    (hF : Filling L fixed it s) (hlt : slot L s < freePagesVAddrMax)
    (hs : slot L s % 0x200000 = 0)
    (hB : Books L fixed (ph :: (left it₁ ++ (q :: s.freePages))) s) (hi : Inside L it₁)
    (h : ptTryMap getFreePageInInit it₁ s ph (slot L s) false = .ok (ret, it₂, s')) :
    Image L (ptPages s'.ptPagesSp) ram (emptyEntries L) s' := by
  have hle := hB.spLe
  have hsp := hF.sp_ge hlt.le
  have hek := ekernel_le L
  have hka : L.kernelAlign2m ≤ slot L s := by
    have h1 := nullPt3_in L
    have h2 := Nat.le_add_right L.ekernelAlign8 (8 * s.freePages.length)
    unfold slot
    omega
  have hq : ∀ q' it', getFreePageInInit it₁ = (some q', it') → q' % 0x200000 = 0 :=
    fun _ _ => hB.init_mod hi
  rcases hL.image.tryMap hB.pt h hB.ph_mod (fun hh => hh.trans hka)
      (by unfold freePagesVAddrMax at hlt; omega) hq fun w hr hw =>
        ⟨hB.fresh (by omega) (by omega) hw, fun _ => by omega⟩ with ⟨he, hi'⟩ | ⟨-, he, hi'⟩
  · rw [he]
    exact hi'
  · rw [he] at hi' ⊢
    rw [ptPages_cons (by omega) hle]
    exact hi'

/-- The page of the array is not mapped before, so it can be mapped. -/
theorem Laid.tryMap_comes {it₁ : FreePagesIterator} (hL : Laid L ram fixed s)
    (hF : Filling L fixed it s) (hlt : slot L s < freePagesVAddrMax)
    (hs : slot L s % 0x200000 = 0)
    (hB : Books L fixed (ph :: (left it₁ ++ (q :: s.freePages))) s) (hi : Inside L it₁) :
    ∃ r, ptTryMap getFreePageInInit it₁ s ph (slot L s) false = .ok r := by
  have hsp := hF.sp_ge hlt.le
  have hround := roundup_self hs
  have hb := hL.bounded
  rw [hround] at hb
  have hpos : 0 < slot L s := by
    have h1 := nullPt3_in L
    have h2 := ekernel_le L
    have h3 := Nat.le_add_right L.ekernelAlign8 (8 * s.freePages.length)
    unfold slot
    omega
  have hmod := hB.spMod
  unfold freePagesVAddrMax at hlt
  have hq : ∀ q' it', getFreePageInInit it₁ = (some q', it') → q' % 0x200000 = 0 :=
    fun _ _ => hB.init_mod hi
  rcases hB.pt.tryMap_comes it₁ ph (slot L s) false hB.num hq fun w hr hw =>
      ⟨hB.fresh (by omega) (by omega) hw, target_eq_none.mp
        (hB.free_above hb (by omega) (by omega) (by omega) (by omega))⟩ with h | ⟨-, hl, -⟩
  · exact h
  · exact absurd (target_eq_none.mp (hB.free_above hb hs hpos le_rfl (by omega))) hl

/-- The loop comes to an end. -/
theorem Filling.buildStack (hF : Filling L fixed it s) (hL : Laid L ram fixed s)
    (hroom : slot L s + 8 * room ≤ freePagesVAddrMax) :
    ∃ s' fixed', buildStack L room it s = .ok s' ∧ Ended L ram fixed' s' := by
  induction room generalizing it s fixed with
  | zero => exact ⟨s, fixed, rfl, hF.ended hL hroom⟩
  | succ room ih =>
    have hle : slot L s ≤ freePagesVAddrMax := by omega
    have hsp := hF.sp_ge hle
    unfold Mm.buildStack
    cases hb : it.blocks with
    | nil =>
      rw [(next_nil hb).1]
      exact ⟨s, fixed, rfl, hF.ended hL hle⟩
    | cons b rest =>
      obtain ⟨it₁, hn, hl, hi⟩ := next_spec hF.inside hb
      have hB := hF.books
      rw [hl] at hB
      rw [hn]
      simp only
      change ∃ s' fixed', (if slot L s % 0x200000 = 0 then _ else _) = _ ∧ _
      by_cases hs : slot L s % 0x200000 = 0
      · rw [if_pos hs]
        cases hb₁ : it₁.blocks with
        | nil =>
          rw [(next_nil hb₁).1]
          obtain ⟨s', h, hR, hL'⟩ := hL.pushPtPage hB hle (by omega)
          have hspR := hR.sp.2
          exact ⟨s', fixed, h, hF.ended_pushed hR.books (hR.last hF.none).1 hR.freePages hR.min
            hL' hle
            (by omega)⟩
        | cons b₁ rest₁ =>
          obtain ⟨it₂, hn₁, hl₁, hi₁⟩ := next_spec hi hb₁
          rw [hl₁] at hB
          have hB₁ : Books L fixed (it₁.addr :: (left it₂ ++ (it.addr :: s.freePages))) s :=
            hB.perm ((List.Perm.swap _ _ _).trans (List.perm_middle.symm.cons _))
          obtain ⟨⟨ret, it₃, s₁⟩, h₁⟩ := hL.tryMap_comes hF (by omega) hs hB₁ hi₁
          have hi₂ := hL.grow hF (by omega) hs hB₁ hi₁ h₁
          rw [hn₁]
          simp only
          rw [show ptTryMap getFreePageInInit it₂ s it₁.addr (L.ekernelAlign8 +
            8 * s.freePages.length) false = .ok (ret, it₃, s₁) from h₁]
          change ∃ s' fixed', (if ret ≠ 0 then
            (Mm.pushPtPage s₁ it.addr >>= fun s => Mm.pushPtPage s it₁.addr) else
            Mm.buildStack L room it₃ { s₁ with freePages := it.addr :: s₁.freePages }) = _ ∧ _
          rcases hF.grow (by omega) hs hB₁ hi₁ h₁ with ⟨rfl, hB₂, rfl⟩ | ⟨rfl, hfree, hF'⟩
          · have hB₃ : Books L fixed (it.addr :: it₁.addr :: (left it₃ ++ s₁.freePages)) s₁ :=
              hB₂.perm ((List.perm_middle.cons _).trans (List.Perm.swap _ _ _))
            obtain ⟨s₂, h₂, hR₂, hL₂⟩ := hL.pushPtPage hB₃ hle (by omega)
            have hsp₂ := hR₂.sp.2
            have hle₂ : slot L s₂ ≤ freePagesVAddrMax := by rwa [slot, hR₂.freePages]
            obtain ⟨s₃, h₃, hR₃, hL₃⟩ := hL₂.pushPtPage hR₂.books hle₂ (by omega)
            have hsp₃ := hR₃.sp.2
            rw [if_pos (by decide), h₂]
            exact ⟨s₃, fixed, h₃, hF.ended_pushed hR₃.books (hR₃.last (hR₂.last hF.none).1).1
              (hR₃.freePages.trans hR₂.freePages) (hR₃.min.trans hR₂.min) hL₃ hle (by omega)⟩
          · have hslot : slot L s₁ = slot L s := by rw [slot, hfree, slot]
            rw [if_neg (by decide)]
            refine ih hF' ⟨fun v q hq => ?_, hi₂.congr rfl rfl rfl rfl⟩ ?_
            · rw [slot_push, hslot, roundup_succ hs]
              rcases List.mem_cons.mp hq with he | hq
              · obtain ⟨rfl, -⟩ : v = slot L s ∧ q = it₁.addr := by simpa using he
                omega
              · have hlt := hL.bounded v q hq
                rw [roundup_self hs] at hlt
                omega
            · rw [slot_push, hslot]
              omega
      · rw [if_neg hs]
        have hpool : firstPtPageVAddr ≤ s.ptPagesSp + roundup (slot L s + 8) :=
          hF.pool.trans (Nat.add_le_add_left (roundup_mono _) _)
        have hF' := Filling.push hB hi hF.none hF.min hpool hF.array (hF.next hs)
        refine ih hF' ⟨fun v q hq => ?_, hL.image.congr rfl rfl rfl rfl⟩ ?_
        · rw [slot_push]
          exact Nat.lt_of_lt_of_le (hL.bounded v q hq) (roundup_mono _)
        · rw [slot_push]
          omega

theorem Books.setSpMin (hB : Books L fixed stack s) (x : ℕ) :
    Books L fixed stack { s with ptPagesSpMin := x } where
  pt := ⟨hB.pt.tables.congr rfl rfl rfl rfl rfl,
    ⟨hB.pt.list.poolNodup, hB.pt.list.nodup, hB.pt.list.mem⟩, hB.pt.counts, hB.pt.num⟩
  num := hB.num
  spMod := hB.spMod
  spLe := hB.spLe
  stackMod := hB.stackMod
  nodup := by
    have hn := hB.nodup
    unfold held at hn ⊢
    exact hn
  window := hB.window
  low := hB.low
  fixedAt := hB.fixedAt
  null := hB.null

/-- The kernel is where it should be, and the first page of the first block holds the tables. -/
theorem beforeStack_ok (h : beforeStack L ram es = .ok (it, s)) :
    L.Loaded ∧ ∃ block rest, freeBlocks L es = .ok (block :: rest) ∧
      mapFirst L ram block.addr = .ok s ∧ it = initFreePagesIterator (afterFirst block rest) := by
  unfold beforeStack at h
  split at h
  · cases h
  next hl =>
  split at h
  · cases h
  obtain ⟨blocks, hb, h⟩ := bind_ok.mp h
  cases blocks with
  | nil => cases h
  | cons block rest =>
    simp only at h
    split at h
    · cases h
    obtain ⟨s₁, h₁, h⟩ := bind_ok.mp h
    cases h
    exact ⟨⟨by omega, by omega⟩, block, rest, hb, h₁, rfl⟩

/-- The loop starts with an empty stack and the kernel image mapped. -/
theorem beforeStack_filling (hm : MemoryMap L es) (h : beforeStack L ram es = .ok (it, s)) :
    L.Loaded ∧ s.freePages = [] ∧ ∃ fixed, Filling L fixed it s ∧ Laid L ram fixed s := by
  obtain ⟨hL, block, rest, hb, h₁, rfl⟩ := beforeStack_ok h
  obtain ⟨lo, hS⟩ := freeBlocks_sorted hL hm hb
  have hflat := flatMap_afterFirst (hS.free block (by simp)) rest
  have hnodup := hS.nodup
  rw [hflat] at hnodup
  obtain ⟨fixed, hB, hnone, ⟨hsp, hmin, hfree⟩, hkernel, hbelow, himage⟩ :=
    mapFirst_books hL (fun q hq => hS.page (hflat ▸ hq)) hnodup h₁
  have hslot : slot L s = L.ekernelAlign8 := by rw [slot, hfree]; rfl
  have hek := ekernel_le L
  have hin := kernel_in L
  have hka := kernelAlign2m_mod L
  have hnull := nullPt3_in L
  have hround := le_roundup (slot L s)
  refine ⟨hL, hfree, fixed, ?_, fun v q hq => ?_, himage⟩
  · exact
      { books := by
          rw [left_init, hfree, List.append_nil]
          exact hB
        inside := inside_init (free_afterFirst hS.free), none := hnone, min := hmin
        pool := hsp ▸ Nat.le_add_right _ _
        array := by
          rw [hfree]
          exact fun i hi => absurd hi (Nat.not_lt_zero i)
        next := fun hs => by
          rw [hslot] at hs ⊢
          refine hkernel _ (align2m_mod _) ?_ ?_
          · unfold align2m
            omega
          · unfold Layout.ekernelAlign8 align2m at *
            omega }
  · have := hbelow v q hq
    omega

theorem stackRoom_le (hL : L.Loaded) (hs : s.freePages = []) :
    slot L s + 8 * stackRoom L ≤ freePagesVAddrMax := by
  have hek := ekernel_le L
  have hhigh := hL.ekernelAlign2m_le
  rw [slot, hs]
  unfold stackRoom freePagesVAddrMax
  rw [List.length_nil]
  omega

/-- The state `kernel_init_part2` leaves is where the loop ends, with `pt_pages_sp_min` set. -/
theorem kernelInitPart2_ended (hm : MemoryMap L es) (h : kernelInitPart2 L ram es = .ok s) :
    ∃ fixed s₂, Ended L ram fixed s₂ ∧ s = { s₂ with ptPagesSpMin := slot L s₂ } := by
  rw [kernelInitPart2_eq] at h
  obtain ⟨⟨it, s₁⟩, h₁, h⟩ := bind_ok.mp h
  obtain ⟨s₂, h₂, h⟩ := bind_ok.mp h
  cases h
  obtain ⟨hL, hfree, fixed, hF, hLaid⟩ := beforeStack_filling hm h₁
  obtain ⟨s₃, fixed', h₃, hE⟩ := hF.buildStack hLaid (stackRoom_le hL hfree)
  obtain rfl : s₃ = s₂ := by simpa [h₃] using h₂
  exact ⟨fixed', s₃, hE, rfl⟩

theorem Filled.setSpMin (hF : Filled L fixed s) (x : ℕ) :
    Filled L fixed { s with ptPagesSpMin := x } :=
  ⟨hF.books.setSpMin x, hF.none, hF.array⟩

/-- The state `kernel_init_part2` leaves has good books and no page of [4T, 32T) is mapped. -/
theorem kernelInitPart2_filled (hm : MemoryMap L es) (h : kernelInitPart2 L ram es = .ok s) :
    ∃ fixed, Filled L fixed s ∧ 0 < s.ptPagesSpMin := by
  obtain ⟨fixed, s₂, hE, rfl⟩ := kernelInitPart2_ended hm h
  refine ⟨fixed, hE.toFilled.setSpMin _, ?_⟩
  have hek := ekernel_le L
  have hin := nullPt3_in L
  exact Nat.lt_of_lt_of_le (by omega) (Nat.le_add_right L.ekernelAlign8 _)

end MyosIo.Mm
