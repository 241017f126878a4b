import MyosIo.Mm.Mapping

/-! A page is on the stack, mapped in [4T, 32T), behind a `PT_Page`, or behind one of the fixed
mappings below 4T. `held` lists all of them; an operation on the page tables moves pages between
the four groups, and a page is never in two places. -/
namespace MyosIo.Mm

open Function

/-- The physical page a virtual page is mapped to. -/
def target (s : State) (v : ℕ) : Option ℕ :=
  if lookup s v = 0 then none else some (align2m (lookup s v))

/-- A 2 MiB page of [4T, 32T). -/
structure IsUser (v : ℕ) : Prop where
  mod : v % 0x200000 = 0
  ge : 0x40000000000 ≤ v
  lt : v < 0x200000000000

@[irreducible] def userPages : List ℕ :=
  (List.range 0xe00000).map fun k => 0x40000000000 + k * 0x200000

/-- The `PT_Page`s: every 2 MiB page from `pt_pages_sp` up to 4T. -/
@[irreducible] def ptPages (sp : ℕ) : List ℕ :=
  (List.range ((firstPtPageVAddr + 0x200000 - sp) / 0x200000)).map fun k => sp + k * 0x200000

/-- The pages on `stack`, mapped in [4T, 32T), behind the pool and behind the mappings `fixed`. -/
@[irreducible] def held (fixed : List (ℕ × ℕ)) (stack : List ℕ) (s : State) : List ℕ :=
  stack ++ (userPages.filterMap (target s) ++
    ((ptPages s.ptPagesSp).map s.phAddr ++ fixed.map Prod.snd))

variable {L : Layout} {fixed : List (ℕ × ℕ)} {stack stack' : List ℕ} {s s' : State}
  {v w p ph q a b c x sp : ℕ}

theorem mem_userPages : v ∈ userPages ↔ IsUser v := by
  unfold userPages
  simp only [List.mem_map, List.mem_range]
  constructor
  · rintro ⟨k, hk, rfl⟩
    exact ⟨by omega, by omega, by omega⟩
  · rintro ⟨h1, h2, h3⟩
    exact ⟨(v - 0x40000000000) / 0x200000, by omega, by omega⟩

theorem userPages_nodup : userPages.Nodup := by
  unfold userPages
  refine List.nodup_range.map fun a b h => ?_
  have h : 0x40000000000 + a * 0x200000 = 0x40000000000 + b * 0x200000 := h
  omega

theorem IsUser.lt45 (h : IsUser v) : v < 2 ^ 45 := by
  have := h.lt
  omega

theorem mem_ptPages (hm : sp % 0x200000 = 0) :
    p ∈ ptPages sp ↔ p % 0x200000 = 0 ∧ sp ≤ p ∧ p ≤ firstPtPageVAddr := by
  unfold ptPages firstPtPageVAddr
  simp only [List.mem_map, List.mem_range]
  constructor
  · rintro ⟨k, hk, rfl⟩
    omega
  · rintro ⟨h1, h2, h3⟩
    exact ⟨(p - sp) / 0x200000, by omega, by omega⟩

theorem ptPages_cons (h : 0x200000 ≤ sp) (hle : sp ≤ firstPtPageVAddr) :
    ptPages (sp - 0x200000) = (sp - 0x200000) :: ptPages sp := by
  unfold ptPages
  exact progression_cons (Nat.succ_pos _) h (Nat.le_add_right_of_le hle)

theorem target_eq_none : target s v = none ↔ lookup s v = 0 := by
  unfold target
  split <;> simp_all

theorem target_eq_some (h : lookup s v = pageEntry ph) (hph : ph % 0x200000 = 0) :
    target s v = some ph := by
  rw [target, h, if_neg (pageEntry_ne_zero hph), align2m_pageEntry hph]

theorem target_setSp (s : State) (x v : ℕ) : target { s with ptPagesSp := x } v = target s v := rfl

theorem Sets.target_self (h : Sets s s' (i1 v) (i2 v) (i3 v) (pageEntry ph))
    (hph : ph % 0x200000 = 0) : target s' v = some ph := by
  refine target_eq_some ?_ hph
  have := h (i1 v) (i2 v) (i3 v) (i3_lt v)
  simpa [lookup] using this

theorem Sets.target_none (h : Sets s s' (i1 v) (i2 v) (i3 v) 0) : target s' v = none := by
  rw [target_eq_none]
  have := h (i1 v) (i2 v) (i3 v) (i3_lt v)
  simpa [lookup] using this

/-- The other pages keep their targets. -/
theorem Sets.target_ne (h : Sets s s' (i1 v) (i2 v) (i3 v) x) (hv : v % 0x200000 = 0)
    (hv' : v < 2 ^ 45) (hw : w % 0x200000 = 0) (hw' : w < 2 ^ 45) (hne : w ≠ v) :
    target s' w = target s w := by
  have hl : lookup s' w = lookup s w := by
    have hne' : ¬ (i1 w = i1 v ∧ i2 w = i2 v ∧ i3 w = i3 v) := fun hi =>
      hne (index_inj hw' hv' hw hv hi.1 hi.2.1 hi.2.2)
    exact (h (i1 w) (i2 w) (i3 w) (i3_lt w)).trans (if_neg hne')
  unfold target
  rw [hl]

/-- The invariant between two operations; `stack` holds the free pages. -/
structure Books (L : Layout) (fixed : List (ℕ × ℕ)) (stack : List ℕ) (s : State) : Prop where
  pt : PtInv L (ptPages s.ptPagesSp) s
  num : 1 ≤ s.freePtsNum
  spMod : s.ptPagesSp % 0x200000 = 0
  spLe : s.ptPagesSp ≤ firstPtPageVAddr
  stackMod : ∀ q ∈ stack, q % 0x200000 = 0
  nodup : (held fixed stack s).Nodup
  window : ∀ p ∈ ptPages s.ptPagesSp, target s p = some (s.phAddr p)
  low : ∀ v, v % 0x200000 = 0 → 0 < v → v < 0x40000000000 → ∀ q, target s v = some q →
    (v ∈ ptPages s.ptPagesSp ∧ q = s.phAddr v) ∨ (v, q) ∈ fixed
  fixedAt : ∀ v q, (v, q) ∈ fixed → v % 0x200000 = 0 ∧ v < 0x40000000000 ∧ target s v = some q
  null : (align2m L.nullPt3, align2m L.nullPt3) ∈ fixed

theorem held_perm (h : stack.Perm stack') :
    (held fixed stack s).Perm (held fixed stack' s) := by
  unfold held
  exact h.append_right _

theorem held_cons : held fixed (ph :: stack) s = ph :: held fixed stack s := by
  unfold held
  rfl

theorem Books.perm (hB : Books L fixed stack s) (h : stack.Perm stack') :
    Books L fixed stack' s :=
  { hB with
    stackMod := fun q hq => hB.stackMod q (h.mem_iff.mpr hq)
    nodup := (held_perm h).nodup_iff.mp hB.nodup }

/-- A popped page that goes nowhere. -/
theorem Books.drop (hB : Books L fixed (ph :: stack) s) : Books L fixed stack s := by
  have hn := hB.nodup
  rw [held_cons] at hn
  exact { hB with
    stackMod := fun q hq => hB.stackMod q (List.mem_cons_of_mem _ hq)
    nodup := (List.nodup_cons.mp hn).2 }

theorem Books.ph_mod (hB : Books L fixed (ph :: stack) s) : ph % 0x200000 = 0 :=
  hB.stackMod ph (by simp)

theorem pool_lt (hm : sp % 0x200000 = 0) (hp : p ∈ ptPages sp) : p < 0x40000000000 := by
  have := ((mem_ptPages hm).mp hp).2.2
  unfold firstPtPageVAddr at this
  omega

/-- A free page is mapped at a page of [4T, 32T). -/
theorem Books.mapped (hB : Books L fixed (ph :: stack) s)
    (hM : Mapped L (ptPages s.ptPagesSp) s s' v ph) (hn : 1 ≤ s'.freePtsNum) (hv : IsUser v) :
    Books L fixed stack s' ∧ (held fixed stack s').Perm (held fixed (ph :: stack) s) := by
  have hph := hB.ph_mod
  have hne : ∀ w, w % 0x200000 = 0 → w < 2 ^ 45 → w ≠ v → target s' w = target s w :=
    fun w hw hw' => hM.sets.target_ne hv.mod hv.lt45 hw hw'
  have hlow : ∀ w, w % 0x200000 = 0 → w < 0x40000000000 → target s' w = target s w := by
    intro w hw hlt
    have hge := hv.ge
    exact hne w hw (by omega) (by omega)
  have hU : (userPages.filterMap (target s')).Perm (ph :: userPages.filterMap (target s)) := by
    refine filterMap_update_some userPages_nodup (mem_userPages.mpr hv)
      (target_eq_none.mpr hM.was) (hM.sets.target_self hph) fun w hw hwv => ?_
    have hw := mem_userPages.mp hw
    exact hne w hw.mod hw.lt45 hwv
  have hperm : (held fixed stack s').Perm (held fixed (ph :: stack) s) := by
    unfold held
    rw [hM.phAddr, hM.sp.1]
    exact perm_second hU
  refine ⟨⟨by rw [hM.sp.1]; exact hM.inv, hn, by rw [hM.sp.1]; exact hB.spMod,
    by rw [hM.sp.1]; exact hB.spLe, hB.drop.stackMod, hperm.nodup_iff.mpr hB.nodup, ?_, ?_, ?_,
    hB.null⟩, hperm⟩
  · intro p hp
    rw [hM.sp.1] at hp
    rw [hlow p ((mem_ptPages hB.spMod).mp hp).1 (pool_lt hB.spMod hp), hM.phAddr]
    exact hB.window p hp
  · intro w hw hpos hlt q ht
    rw [hlow w hw hlt] at ht
    rw [hM.sp.1, hM.phAddr]
    exact hB.low w hw hpos hlt q ht
  · intro w q hq
    obtain ⟨hw, hlt, ht⟩ := hB.fixedAt w q hq
    exact ⟨hw, hlt, (hlow w hw hlt).trans ht⟩

/-- A free page is mapped for good at a page below 4T. -/
theorem Books.fix (hB : Books L fixed (ph :: stack) s)
    (hM : Mapped L (ptPages s.ptPagesSp) s s' v ph) (hn : 1 ≤ s'.freePtsNum)
    (hv : v % 0x200000 = 0) (hlt : v < 0x40000000000) :
    Books L ((v, ph) :: fixed) stack s' ∧
      (held ((v, ph) :: fixed) stack s').Perm (held fixed (ph :: stack) s) := by
  have hph := hB.ph_mod
  have hne : ∀ w, w % 0x200000 = 0 → w < 2 ^ 45 → w ≠ v → target s' w = target s w :=
    fun w hw hw' => hM.sets.target_ne hv (by omega) hw hw'
  have hU : userPages.filterMap (target s') = userPages.filterMap (target s) := by
    refine List.filterMap_congr fun w hw => ?_
    have hw := mem_userPages.mp hw
    have hge := hw.ge
    exact hne w hw.mod hw.lt45 (by omega)
  have hperm : (held ((v, ph) :: fixed) stack s').Perm (held fixed (ph :: stack) s) := by
    unfold held
    rw [hM.phAddr, hM.sp.1, hU, List.map_cons]
    exact perm_fourth _ _ _ _ _
  refine ⟨⟨by rw [hM.sp.1]; exact hM.inv, hn, by rw [hM.sp.1]; exact hB.spMod,
    by rw [hM.sp.1]; exact hB.spLe, hB.drop.stackMod, hperm.nodup_iff.mpr hB.nodup, ?_, ?_, ?_,
    List.mem_cons_of_mem _ hB.null⟩, hperm⟩
  · intro p hp
    rw [hM.sp.1] at hp
    have hpv : p ≠ v := by
      rintro rfl
      have := hB.window p hp
      simp [target_eq_none.mpr hM.was] at this
    have hp' := pool_lt hB.spMod hp
    rw [hne p ((mem_ptPages hB.spMod).mp hp).1 (by omega) hpv, hM.phAddr]
    exact hB.window p hp
  · intro w hw hpos hlt' q ht
    by_cases hwv : w = v
    · subst hwv
      rw [hM.sets.target_self hph] at ht
      obtain rfl : ph = q := by simpa using ht
      exact Or.inr (by simp)
    · rw [hne w hw (by omega) hwv] at ht
      rw [hM.sp.1, hM.phAddr]
      exact (hB.low w hw hpos hlt' q ht).imp_right (List.mem_cons_of_mem _)
  · intro w q hq
    rcases List.mem_cons.mp hq with he | hq
    · obtain ⟨rfl, rfl⟩ : w = v ∧ q = ph := by simpa using he
      exact ⟨hv, hlt, hM.sets.target_self hph⟩
    · obtain ⟨hw, hlt', ht⟩ := hB.fixedAt w q hq
      have hwv : w ≠ v := by
        rintro rfl
        simp [target_eq_none.mpr hM.was] at ht
      exact ⟨hw, hlt', (hne w hw (by omega) hwv).trans ht⟩

/-- A free page becomes a `PT_Page`. -/
theorem Books.grown (hB : Books L fixed (q :: stack) s) (hw : s.ptPagesSp - 0x200000 = w)
    (hsp : 0x200000 ≤ s.ptPagesSp)
    (hG : Grown L (ptPages s.ptPagesSp) { s with ptPagesSp := w } s' w q) :
    Books L fixed stack s' ∧ (held fixed stack s').Perm (held fixed (q :: stack) s) ∧
      ∀ v, IsUser v → target s' v = target s v := by
  have hq := hB.ph_mod
  have hle := hB.spLe
  have hmod := hB.spMod
  have hsp' : s'.ptPagesSp = w := hG.sp.1
  have hcons : ptPages w = w :: ptPages s.ptPagesSp := hw ▸ ptPages_cons hsp hle
  have hlt : w + 0x200000 < 0x40000000000 := by
    unfold firstPtPageVAddr at hle
    omega
  have hwm : w % 0x200000 = 0 := by omega
  have hne : ∀ v, v % 0x200000 = 0 → v < 2 ^ 45 → v ≠ w → target s' v = target s v := by
    intro v hv hv' hvn
    rw [hG.sets.target_ne hwm (by omega) hv hv' hvn, target_setSp]
  have hnot : w ∉ ptPages s.ptPagesSp := fun hm => by
    have := ((mem_ptPages hB.spMod).mp hm).2.1
    omega
  have huser : ∀ v, IsUser v → target s' v = target s v := by
    intro v hv
    have hge := hv.ge
    exact hne v hv.mod hv.lt45 (by omega)
  have hU : userPages.filterMap (target s') = userPages.filterMap (target s) :=
    List.filterMap_congr fun v hv => huser v (mem_userPages.mp hv)
  have hpool : (ptPages s'.ptPagesSp).map s'.phAddr = q :: (ptPages s.ptPagesSp).map s.phAddr := by
    rw [hsp', hcons, hG.phAddr, List.map_cons, update_self]
    refine List.cons_eq_cons.mpr ⟨rfl, List.map_congr_left fun p hp => ?_⟩
    have hpn : p ≠ w := fun he => hnot (he ▸ hp)
    exact update_of_ne hpn _ _
  have hperm : (held fixed stack s').Perm (held fixed (q :: stack) s) := by
    unfold held
    rw [hU, hpool]
    exact perm_third _ _ _ _ _
  refine ⟨⟨by rw [hsp', hcons]; exact hG.inv, Nat.le_trans (by omega) (hG.num_ge hB.num),
    by rw [hsp']; exact hwm, by rw [hsp']; unfold firstPtPageVAddr; omega, hB.drop.stackMod,
    hperm.nodup_iff.mpr hB.nodup, ?_, ?_, ?_, hB.null⟩, hperm, huser⟩
  · intro p hp
    rw [hsp', hcons] at hp
    rw [hG.phAddr]
    rcases List.mem_cons.mp hp with rfl | hp
    · rw [hG.sets.target_self hq, update_self]
    · have hpn : p ≠ w := fun he => hnot (he ▸ hp)
      have hp' := pool_lt hB.spMod hp
      rw [hne p ((mem_ptPages hB.spMod).mp hp).1 (by omega) hpn, update_of_ne hpn]
      exact hB.window p hp
  · intro v hv hpos hlt' q' ht
    rw [hsp', hcons, hG.phAddr]
    by_cases hvw : v = w
    · subst hvw
      rw [hG.sets.target_self hq] at ht
      obtain rfl : q = q' := by simpa using ht
      exact Or.inl ⟨by simp, by simp⟩
    · rw [hne v hv (by omega) hvw] at ht
      rw [update_of_ne hvw]
      exact (hB.low v hv hpos hlt' q' ht).imp_left fun h => ⟨List.mem_cons_of_mem _ h.1, h.2⟩
  · intro v q' hq'
    obtain ⟨hv, hlt', ht⟩ := hB.fixedAt v q' hq'
    have hvw : v ≠ w := by
      rintro rfl
      rw [← target_setSp s v, target_eq_none.mpr hG.was] at ht
      cases ht
    exact ⟨hv, hlt', (hne v hv (by omega) hvw).trans ht⟩

/-- A page of [4T, 32T) gives its physical page back. -/
theorem Books.unmapped (hB : Books L fixed stack s)
    (hU : Unmapped L (ptPages s.ptPagesSp) s s' v ph) (hv : IsUser v) :
    Books L fixed (ph :: stack) s' ∧ (held fixed (ph :: stack) s').Perm (held fixed stack s) := by
  have hne : ∀ w, w % 0x200000 = 0 → w < 2 ^ 45 → w ≠ v → target s' w = target s w :=
    fun w hw hw' => hU.sets.target_ne hv.mod hv.lt45 hw hw'
  have hlow : ∀ w, w % 0x200000 = 0 → w < 0x40000000000 → target s' w = target s w := by
    intro w hw hlt
    have hge := hv.ge
    exact hne w hw (by omega) (by omega)
  have hP : (userPages.filterMap (target s)).Perm (ph :: userPages.filterMap (target s')) := by
    refine filterMap_update_some userPages_nodup (mem_userPages.mpr hv) hU.sets.target_none
      (target_eq_some hU.was hU.mod) fun w hw hwv => ?_
    have hw := mem_userPages.mp hw
    exact (hne w hw.mod hw.lt45 hwv).symm
  have hperm : (held fixed (ph :: stack) s').Perm (held fixed stack s) := by
    unfold held
    rw [hU.phAddr, hU.sp.1]
    exact (perm_second hP).symm
  refine ⟨⟨by rw [hU.sp.1]; exact hU.inv, Nat.le_trans hB.num hU.num,
    by rw [hU.sp.1]; exact hB.spMod, by rw [hU.sp.1]; exact hB.spLe, ?_,
    hperm.nodup_iff.mpr hB.nodup, ?_, ?_, ?_, hB.null⟩, hperm⟩
  · rintro q hq
    rcases List.mem_cons.mp hq with rfl | hq
    · exact hU.mod
    · exact hB.stackMod q hq
  · intro p hp
    rw [hU.sp.1] at hp
    rw [hlow p ((mem_ptPages hB.spMod).mp hp).1 (pool_lt hB.spMod hp), hU.phAddr]
    exact hB.window p hp
  · intro w hw hpos hlt q ht
    rw [hlow w hw hlt] at ht
    rw [hU.sp.1, hU.phAddr]
    exact hB.low w hw hpos hlt q ht
  · intro w q hq
    obtain ⟨hw, hlt, ht⟩ := hB.fixedAt w q hq
    exact ⟨hw, hlt, (hlow w hw hlt).trans ht⟩

end MyosIo.Mm
