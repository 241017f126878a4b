import MyosIo.Mm.Runs

/-! Along every run the pool stays above the array of the stack, memory outside the pool is kept,
and a call that has passed its checks fails only where it is told to map a page that is mapped. -/
namespace MyosIo.Mm

open Function

variable {L : Layout} {ram s₀ s s' s₁ t : State} {es : List E820Entry} {fixed : List (ℕ × ℕ)}
  {c : Call} {cs : List Call} {v w q ph num addr length prot flags : ℕ} {offset : ℤ}
  {stack stack' mapped mapped' : List ℕ} {isSoft ok : Bool}

/-- The pool and the array; the array may reach up to `pt_pages_sp_min`. -/
structure Steady (L : Layout) (ram : State) (fixed : List (ℕ × ℕ)) (s : State) : Prop where
  bounded : ∀ v q, (v, q) ∈ fixed → v < roundup s.ptPagesSpMin
  image : Image L (ptPages s.ptPagesSp) ram (emptyEntries L) s
  sp : roundup s.ptPagesSpMin ≤ s.ptPagesSp
  min : L.ekernelAlign8 ≤ s.ptPagesSpMin

theorem kernelAlign2m_le (L : Layout) : L.kernelAlign2m ≤ L.ekernelAlign8 := by
  have h1 := nullPt3_in L
  have h2 := ekernel_le L
  omega

theorem Steady.pos (hS : Steady L ram fixed s) : 0 < s.ptPagesSpMin := by
  have h1 := nullPt3_in L
  have h2 := ekernel_le L
  have h3 := hS.min
  omega

/-- Between the array and the pool nothing is mapped. -/
theorem Steady.free (hS : Steady L ram fixed s) (hB : Books L fixed stack s)
    (hr : s.ptPagesSpMin + 0x200000 ≤ s.ptPagesSp) (hw : s.ptPagesSp - 0x200000 = w) :
    target s w = none := by
  have hmod := hB.spMod
  have hpos := hS.pos
  have hround : roundup s.ptPagesSpMin ≤ w := roundup_le (by omega) (by omega)
  exact hB.free_above hS.bounded (by omega) (by omega) hround (by omega)

theorem Steady.fresh (hS : Steady L ram fixed s) (hB : Books L fixed stack s)
    (hr : s.ptPagesSpMin + 0x200000 ≤ s.ptPagesSp) (hw : s.ptPagesSp - 0x200000 = w) :
    Fresh L (ptPages s.ptPagesSp) s w ∧ (0x40000000 ≤ L.kernelAlign2m → 0x40000000 ≤ w) := by
  have hpos := hS.pos
  have hmin := hS.min
  have hka := kernelAlign2m_le L
  exact ⟨hB.fresh (by omega) (by omega) hw, fun hh => by omega⟩

theorem Steady.congr (hS : Steady L ram fixed s) (hi : Image L (ptPages s'.ptPagesSp) ram
    (emptyEntries L) s') (hsp : roundup s.ptPagesSpMin ≤ s'.ptPagesSp)
    (hmin : s'.ptPagesSpMin = s.ptPagesSpMin) : Steady L ram fixed s' :=
  ⟨hmin ▸ hS.bounded, hi, hmin ▸ hsp, hmin ▸ hS.min⟩

theorem Steady.setFreePages (hS : Steady L ram fixed s) (x : List ℕ) :
    Steady L ram fixed { s with freePages := x } :=
  hS.congr (hS.image.congr rfl rfl rfl rfl) hS.sp rfl

theorem IsUser.high (hv : IsUser v) : ¬ (i1 v = 0 ∧ i2 v = 0) := by
  have hge := hv.ge
  have hlt := hv.lt
  unfold i1
  omega

/-- `pt_try_map` at a page of [4T, 32T). -/
theorem Steady.tryMap {ret : ℤ} (hS : Steady L ram fixed s) (hB : Books L fixed (ph :: stack) s)
    (hv : IsUser v)
    (h : ptTryMap getFreePageGeneric stack s ph v isSoft = .ok (ret, stack', s')) :
    Steady L ram fixed s' := by
  have hge := hv.ge
  have hmod := hB.spMod
  have hq : ∀ q stack', getFreePageGeneric stack = (some q, stack') → q % 0x200000 = 0 := by
    intro q stack' hh
    have hst : stack = q :: stack' := (source_generic stack).some q stack' hh
    exact hB.stackMod q (by simp [hst])
  have hmin : s'.ptPagesSpMin = s.ptPagesSpMin := by
    rcases hB.tryMapUser (source_generic stack) hS.pos hv h with
      ⟨-, -, -, -, rfl⟩ | ⟨-, -, -, rfl⟩ | ⟨-, -, -, hF, -⟩
    · rfl
    · rfl
    · exact hF.min
  rcases hS.image.tryMap hB.pt h hB.ph_mod (fun _ => by omega) hv.lt45 hq
    fun w => hS.fresh hB with ⟨he, hi⟩ | ⟨hr, he, hi⟩
  · exact hS.congr (by rw [he]; exact hi) (by rw [he]; exact hS.sp) hmin
  · refine hS.congr ?_ ?_ hmin
    · rw [he] at hi ⊢
      rwa [ptPages_cons (by omega) hB.spLe]
    · rw [he]
      exact roundup_le (by omega) (by omega)

theorem Steady.tryMap_comes (hS : Steady L ram fixed s) (hB : Books L fixed (ph :: stack) s)
    (v : ℕ) (isSoft : Bool) :
    (∃ r, ptTryMap getFreePageGeneric stack s ph v isSoft = .ok r) ∨
    (isSoft = false ∧ target s v ≠ none ∧ ptTryMap getFreePageGeneric stack s ph v isSoft =
      .error (.abort "remap a page!\n")) := by
  have hq : ∀ q stack', getFreePageGeneric stack = (some q, stack') → q % 0x200000 = 0 := by
    intro q stack' hh
    have hst : stack = q :: stack' := (source_generic stack).some q stack' hh
    exact hB.stackMod q (by simp [hst])
  rcases hB.pt.tryMap_comes stack ph v isSoft hB.num hq fun w hr hw =>
    ⟨(hS.fresh hB hr hw).1, target_eq_none.mp (hS.free hB hr hw)⟩ with h | ⟨hs, hl, h⟩
  · exact Or.inl h
  · exact Or.inr ⟨hs, fun hn => hl (target_eq_none.mp hn), h⟩

theorem Steady.unmap (hS : Steady L ram fixed s) (hB : Books L fixed stack s) (hv : IsUser v)
    (h : ptUnmap s v = .ok (ph, s')) : Steady L ram fixed s' := by
  have hU := hB.pt.unmap h fun h0 => by
    have hge := hv.ge
    have hlt := hv.lt
    unfold i1 at h0
    omega
  refine hS.congr ?_ (hU.sp.1 ▸ hS.sp) hU.sp.2
  rw [hU.sp.1]
  exact hS.image.of_local (hB.pt.local_unmap h hv.high) (fun _ => id) hB.pt.tables.nullOut

theorem Steady.allocPages (hS : Steady L ram fixed s) (hB : Books L fixed stack s)
    (hr : UserRange addr num)
    (h : allocPages isSoft num addr stack mapped s = .ok (ok, stack', mapped', s')) :
    Steady L ram fixed s' := by
  induction num generalizing addr stack mapped s with
  | zero =>
    cases h
    exact hS
  | succ num ih =>
    cases stack with
    | nil =>
      cases h
      exact hS
    | cons ph stack =>
      obtain ⟨⟨ret, stack₁, s₁⟩, h₁, hk⟩ := bind_ok.mp h
      have hS₁ := hS.tryMap hB hr.head h₁
      rcases hB.tryMapUser (source_generic stack) hS.pos hr.head h₁ with
        ⟨rfl, -, -, rfl, rfl⟩ | ⟨rfl, -, -, rfl⟩ | ⟨rfl, -, -, -, hB₁, -⟩
      · exact ih hS₁ hB.drop hr.tail hk
      · cases hk
        exact hS₁
      · exact ih hS₁ hB₁ hr.tail hk

/-- The loop fails only at a page that was mapped before. -/
theorem Steady.allocPages_error {e : Fault} (hS : Steady L ram fixed s)
    (hB : Books L fixed stack s) (hr : UserRange addr num)
    (h : Mm.allocPages isSoft num addr stack mapped s = .error e) :
    isSoft = false ∧ ReachesMapped s stack.length (rangePages num addr) := by
  induction num generalizing addr stack mapped s with
  | zero => cases h
  | succ num ih =>
    cases stack with
    | nil => cases h
    | cons ph stack =>
      rcases hS.tryMap_comes hB addr isSoft with
        ⟨⟨ret, stack₁, s₁⟩, h₁⟩ | ⟨hs, ht, -⟩
      · have hS₁ := hS.tryMap hB hr.head h₁
        rw [allocPages_succ h₁] at h
        rcases hB.tryMapUser (source_generic stack) hS.pos hr.head h₁ with
          ⟨rfl, hs, -, rfl, rfl⟩ | ⟨rfl, -, -, rfl⟩ | ⟨rfl, ht, -, hF, hB₁, -⟩
        · obtain ⟨hs', -⟩ := ih hS₁ hB.drop hr.tail h
          rw [hs] at hs'
          cases hs'
        · cases h
        · obtain ⟨hs, hreach⟩ := ih hS₁ hB₁ hr.tail h
          obtain ⟨-, hSp⟩ := (hB.tryMap_spent hS.pos hr.head h₁).resolve_left fun h =>
            absurd h.1 (by decide)
          have hu : ∀ w ∈ rangePages num (addr + 0x200000), IsUser w := fun w hw =>
            hr.tail.mem hw
          refine ⟨hs, (hSp.reachesMapped hr.head hu hB.spLe ?_ fun w hw => ?_).mpr hreach⟩
          · rw [ptIsMap_eq, ht]
            rfl
          · have hge := mem_rangePages_ge hw
            rw [ptIsMap_eq, ptIsMap_eq, hF.same w (hu w hw) (by omega)]
      · refine ⟨hs, reachesMapped_of_head hB.num ?_⟩
        rw [ptIsMap_eq]
        exact Option.isSome_iff_ne_none.mpr ht

theorem Steady.unmapPages (hS : Steady L ram fixed s) (hB : Books L fixed stack s)
    (hu : ∀ v ∈ mapped, IsUser v) (h : unmapPages mapped stack s = .ok (stack', s')) :
    Steady L ram fixed s' := by
  induction mapped generalizing stack s with
  | nil =>
    cases h
    exact hS
  | cons v mapped ih =>
    obtain ⟨⟨ph, s₁⟩, h₁, h⟩ := bind_ok.mp h
    obtain ⟨-, -, -, hB₁, -⟩ := hB.ptUnmap (hu v (by simp)) h₁
    exact ih (hS.unmap hB (hu v (by simp)) h₁) hB₁
      (fun w hw => hu w (List.mem_cons_of_mem v hw)) h

/-- Pages that are mapped can be unmapped. -/
theorem Books.unmapPages_comes (hB : Books L fixed stack s) (hn : mapped.Nodup)
    (hu : ∀ v ∈ mapped, IsUser v) (hm : ∀ v ∈ mapped, target s v ≠ none) :
    ∃ r, Mm.unmapPages mapped stack s = .ok r := by
  induction mapped generalizing stack s with
  | nil => exact ⟨_, rfl⟩
  | cons v mapped ih =>
    obtain ⟨hvm, hn⟩ := List.nodup_cons.mp hn
    obtain ⟨ph, s₁, h₁⟩ := ptUnmap_comes fun hl => hm v (by simp) (target_eq_none.mpr hl)
    obtain ⟨-, -, hF, hB₁, -⟩ := hB.ptUnmap (hu v (by simp)) h₁
    have hu' : ∀ w ∈ mapped, IsUser w := fun w hw => hu w (List.mem_cons_of_mem v hw)
    obtain ⟨r, h⟩ := ih hB₁ hn hu' fun w hw => by
      rw [hF.same w (hu' w hw) fun he => hvm (he ▸ hw)]
      exact hm w (List.mem_cons_of_mem v hw)
    exact ⟨r, bind_ok.mpr ⟨_, h₁, h⟩⟩

theorem Steady.allocPageLockRoutine {ret : ℤ} (hS : Steady L ram fixed s)
    (hB : Books L fixed s.freePages s) (hr : UserRange addr num)
    (h : allocPageLockRoutine s addr num isSoft = .ok (ret, t)) : Steady L ram fixed t := by
  obtain ⟨⟨ok, stack₁, mapped, s₁⟩, h₁, h⟩ := bind_ok.mp h
  have hS₁ := hS.allocPages hB hr h₁
  cases ok with
  | true =>
    cases h
    exact hS₁.setFreePages _
  | false =>
    obtain ⟨new, lost, hnew, hA, -⟩ := hB.allocPages hS.pos hr h₁
    have hnew : mapped = new := by simpa using hnew
    subst hnew
    obtain ⟨⟨stack₂, s₂⟩, h₂, h⟩ := bind_ok.mp h
    cases h
    exact (hS₁.unmapPages hA.books (fun v hv => hr.mem (hA.sub v hv).1) h₂).setFreePages _

theorem Steady.allocPageLockRoutine_error {e : Fault} (hS : Steady L ram fixed s)
    (hB : Books L fixed s.freePages s) (hr : UserRange addr num)
    (h : Mm.allocPageLockRoutine s addr num isSoft = .error e) :
    isSoft = false ∧ ReachesMapped s s.freePages.length (rangePages num addr) := by
  unfold Mm.allocPageLockRoutine at h
  cases h₁ : Mm.allocPages isSoft num addr s.freePages [] s with
  | error e => exact hS.allocPages_error hB hr h₁
  | ok r =>
    obtain ⟨ok, stack₁, mapped, s₁⟩ := r
    rw [h₁] at h
    obtain ⟨new, lost, hnew, hA, -⟩ := hB.allocPages hS.pos hr h₁
    have hnew : mapped = new := by simpa using hnew
    subst hnew
    cases ok with
    | true => cases h
    | false =>
      obtain ⟨r, h₂⟩ := hA.books.unmapPages_comes hA.nodup
        (fun v hv => hr.mem (hA.sub v hv).1) fun v hv => (hA.sub v hv).2.2
      change (Mm.unmapPages mapped stack₁ s₁ >>= _) = _ at h
      rw [h₂] at h
      cases h

theorem Steady.mapRange {ret : ℕ} (hS : Steady L ram fixed s) (hB : Books L fixed s.freePages s)
    (h : mapRange isSoft s addr length prot flags offset = .ok (ret, t)) :
    Steady L ram fixed t := by
  obtain he | ⟨rfl, rfl, rfl, hA⟩ := mapRange_checks isSoft s addr length prot flags offset
  · rw [he] at h
    cases h
  rw [mapRange_eq hA] at h
  split at h
  · split at h
    · cases h
      exact hS
    · obtain ⟨⟨ret', t'⟩, h₁, h⟩ := bind_ok.mp h
      cases h
      exact hS.allocPageLockRoutine hB hA.2 h₁
  · cases h
    exact hS

/-- `mmap` and `mmap_soft` fail in their checks, or `mmap` comes to a page that was mapped. -/
theorem Steady.mapRange_error {e : Fault} (hS : Steady L ram fixed s)
    (hB : Books L fixed s.freePages s)
    (h : Mm.mapRange isSoft s addr length prot flags offset = .error e) :
    e = .abort "" ∨ (isSoft = false ∧ Wasteful s addr length) := by
  obtain he | ⟨rfl, rfl, rfl, hA⟩ := mapRange_checks isSoft s addr length prot flags offset
  · rw [he] at h
    cases h
    exact Or.inl rfl
  rw [mapRange_eq hA] at h
  split at h
  next hnum =>
    split at h
    · cases h
    cases ha : Mm.allocPageLockRoutine s addr (length / 0x200000) isSoft with
    | error e' =>
      obtain ⟨hs, hr⟩ := hS.allocPageLockRoutine_error hB hA.2 ha
      exact Or.inr ⟨hs, hnum, hr⟩
    | ok r =>
      rw [ha] at h
      cases h
  · cases h

theorem Steady.munmap {ret : ℤ} (hS : Steady L ram fixed s) (hB : Books L fixed s.freePages s)
    (h : munmap s addr length = .ok (ret, t)) : Steady L ram fixed t := by
  have hA := (hB.munmap h).1
  obtain ⟨⟨⟩, -, h⟩ := bind_ok.mp h
  simp only at h
  split at h
  · cases h
    exact hS
  · obtain ⟨⟨stack₁, s₁⟩, h₁, h⟩ := bind_ok.mp h
    cases h
    rw [freePagesLoop_eq] at h₁
    exact (hS.unmapPages hB (fun v hv => hA.2.mem hv) h₁).setFreePages _

theorem Step.steady (h : Step s c t) (hg : Good L fixed s) (hS : Steady L ram fixed s) :
    Steady L ram fixed t := by
  cases h with
  | mmap h => exact hS.mapRange hg.books h
  | mmapSoft h => exact hS.mapRange hg.books h
  | munmap h => exact hS.munmap hg.books h
  | checkMap h => exact hS

theorem Step.min_eq (h : Step s c t) (hg : Good L fixed s) : t.ptPagesSpMin = s.ptPagesSpMin := by
  cases h with
  | mmap h | mmapSoft h =>
    obtain ⟨-, lost, ok, hM, -⟩ := hg.books.mapRange hg.min h
    exact hM.min
  | munmap h => exact (hg.books.munmap h).2.min
  | checkMap h => rfl

theorem run_min (hg₀ : Good L fixed s₀) (h : Run Step s₀ cs s) :
    s.ptPagesSpMin = s₀.ptPagesSpMin := by
  induction h with
  | refl => rfl
  | step hr hs ih => exact (hs.min_eq (run_pages hg₀ hr).1).trans ih

theorem run_steady (hg₀ : Good L fixed s₀) (hS₀ : Steady L ram fixed s₀)
    (h : Run Step s₀ cs s) : Steady L ram fixed s := by
  induction h with
  | refl => exact hS₀
  | step hr hs ih => exact hs.steady (run_pages hg₀ hr).1 ih

theorem Ended.steady (h : Ended L ram fixed s) :
    Steady L ram fixed { s with ptPagesSpMin := slot L s } := by
  have hround : roundup (slot L s) ≤ freePagesVAddrMax := roundup_le h.slot_le (by decide)
  have hsp := h.sp_ge
  unfold freePagesVAddrMax at hround
  exact ⟨h.bounded, h.image.congr rfl rfl rfl rfl, hround.trans (Nat.le_trans (by omega) hsp),
    Nat.le_add_right _ _⟩

end MyosIo.Mm
