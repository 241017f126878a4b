import MyosIo.Mm.Ranges

/-! What mapping a list of pages of [4T, 32T) takes: a free page for each of them, a table for each
gibibyte that has none, and a further free page for each `PT_Page` that the tables need. -/
namespace MyosIo.Mm

variable {L : Layout} {fixed : List (ℕ × ℕ)} {stack stack' pages : List ℕ} {s s' : State}
  {v w ph n grow : ℕ} {ret : ℤ} {isSoft : Bool}

/-- The number of tables that mapping the pages takes. -/
def newTables (s : State) (pages : List ℕ) : ℕ :=
  ((pages.map gibibyte).toFinset.filter (Bare s)).card

/-- Where the next `PT_Page`s go. -/
def belowPages : ℕ → ℕ → List ℕ
  | 0, _ => []
  | grow + 1, sp => (sp - 0x200000) :: belowPages grow (sp - 0x200000)

/-- `n` free pages are enough for `pages` and `grow` `PT_Page`s, which fit above
`pt_pages_sp_min` and bring the tables that are wanting. One table is always left. -/
structure Budget (s : State) (n : ℕ) (pages : List ℕ) (grow : ℕ) : Prop where
  enough : pages.length + grow ≤ n
  room : grow * 0x200000 ≤ s.ptPagesSp - s.ptPagesSpMin
  tables : newTables s pages + newTables s (belowPages grow s.ptPagesSp) <
    s.freePtsNum + 510 * grow

/-- `n` free pages are enough for mapping `pages`. -/
def Affords (s : State) (n : ℕ) (pages : List ℕ) : Prop := ∃ grow, Budget s n pages grow

instance (s : State) (n : ℕ) (pages : List ℕ) : DecidablePred (Budget s n pages) := fun grow =>
  decidable_of_iff (pages.length + grow ≤ n ∧ grow * 0x200000 ≤ s.ptPagesSp - s.ptPagesSpMin ∧
      newTables s pages + newTables s (belowPages grow s.ptPagesSp) < s.freePtsNum + 510 * grow)
    ⟨fun ⟨h1, h2, h3⟩ => ⟨h1, h2, h3⟩, fun ⟨h1, h2, h3⟩ => ⟨h1, h2, h3⟩⟩

instance (s : State) (n : ℕ) (pages : List ℕ) : Decidable (Affords s n pages) :=
  decidable_of_iff (∃ grow < n + 1, Budget s n pages grow)
    ⟨fun ⟨grow, _, h⟩ => ⟨grow, h⟩, fun ⟨grow, h⟩ => ⟨grow, by have := h.enough; omega, h⟩⟩

theorem newTables_nil : newTables s [] = 0 := rfl

theorem newTables_cons
    (h : ∀ w ∈ pages, Bare s' (gibibyte w) ↔ Bare s (gibibyte w) ∧ gibibyte w ≠ gibibyte v) :
    newTables s (v :: pages) = newTable s v + newTables s' pages := by
  unfold newTables newTable
  rw [List.map_cons, List.toFinset_cons]
  refine card_filter_insert fun g hg => ?_
  obtain ⟨w, hw, rfl⟩ := List.mem_map.mp (List.mem_toFinset.mp hg)
  exact h w hw

theorem newTables_congr (h : ∀ w ∈ pages, Bare s' (gibibyte w) ↔ Bare s (gibibyte w)) :
    newTables s' pages = newTables s pages := by
  unfold newTables
  refine congrArg Finset.card (Finset.filter_congr fun g hg => ?_)
  obtain ⟨w, hw, rfl⟩ := List.mem_map.mp (List.mem_toFinset.mp hg)
  exact h w hw

theorem newTables_pos (h : Bare s (gibibyte v)) : 1 ≤ newTables s (v :: pages) := by
  refine Finset.card_pos.mpr ⟨gibibyte v, Finset.mem_filter.mpr ⟨?_, h⟩⟩
  simp

/-- No page below 4T lies in a gibibyte of [4T, 32T). -/
theorem IsUser.gibibyte_ne (hv : IsUser v) (hw : w < 0x40000000000) : gibibyte w ≠ gibibyte v := by
  intro h
  have hge := hv.ge
  have hlt := hv.lt
  have h1 : i1 w = i1 v := congrArg Prod.fst h
  unfold i1 at h1
  omega

theorem belowPages_lt {sp : ℕ} (h : sp ≤ firstPtPageVAddr) (hw : w ∈ belowPages grow sp) :
    w < 0x40000000000 := by
  induction grow generalizing sp with
  | zero => simp [belowPages] at hw
  | succ grow ih =>
    rw [belowPages, List.mem_cons] at hw
    rcases hw with he | hw
    · unfold firstPtPageVAddr at h
      omega
    · exact ih (by omega) hw

/-- What mapping `v` takes: the free pages are `stack'` then. -/
inductive Spent (s : State) (v : ℕ) (stack stack' : List ℕ) (s' : State) : Prop
  | kept (stack : stack' = stack) (sp : s'.ptPagesSp = s.ptPagesSp)
      (min : s'.ptPagesSpMin = s.ptPagesSpMin) (num : s'.freePtsNum + newTable s v = s.freePtsNum)
      (bare : ∀ g, Bare s' g ↔ Bare s g ∧ g ≠ gibibyte v)
  | grown {q w : ℕ} (stack : stack = q :: stack') (none : Bare s (gibibyte v))
      (one : s.freePtsNum = 1) (room : s.ptPagesSpMin + 0x200000 ≤ s.ptPagesSp)
      (below : s.ptPagesSp - 0x200000 = w) (sp : s'.ptPagesSp = w)
      (min : s'.ptPagesSpMin = s.ptPagesSpMin) (num : s'.freePtsNum + newTable s w = 510)
      (bare : ∀ g, Bare s' g ↔ (Bare s g ∧ g ≠ gibibyte w) ∧ g ≠ gibibyte v)

/-- Why `v` cannot be mapped: the last table is kept for a `PT_Page` that cannot be added. -/
structure Stuck (s : State) (v : ℕ) (stack : List ℕ) : Prop where
  none : Bare s (gibibyte v)
  one : s.freePtsNum = 1
  short : stack = [] ∨ s.ptPagesSp < s.ptPagesSpMin + 0x200000

theorem Books.tryMap_spent (hB : Books L fixed (ph :: stack) s) (hmin : 0 < s.ptPagesSpMin)
    (hv : IsUser v) (h : ptTryMap getFreePageGeneric stack s ph v isSoft = .ok (ret, stack', s')) :
    (ret = -1 ∧ Stuck s v stack) ∨ (0 ≤ ret ∧ Spent s v stack stack' s') := by
  have hS := source_generic stack
  have hq : ∀ q stack', getFreePageGeneric stack = (some q, stack') → q % 0x200000 = 0 := by
    intro q stack' hh
    have hst : stack = q :: stack' := hS.some q stack' hh
    exact hB.stackMod q (by simp [hst])
  have hph := hB.ph_mod
  have hT := hB.pt.tryMap hB.num h hv.lt45 hph hq fun w hr hw =>
    have hfar := hB.far hmin hv hr hw
    ⟨hB.fresh (Nat.le_trans (Nat.le_add_left _ _) hr) hfar.1 hw, hfar.2⟩
  cases hT with
  | already hs hl =>
    have hnot : ¬ Bare s (gibibyte v) := fun h0 => hl (entry_of_zero h0)
    refine Or.inr ⟨Int.one_nonneg, .kept rfl rfl rfl (by rw [newTable_of_not_bare hnot]; rfl) ?_⟩
    exact fun g => ⟨fun hg => ⟨hg, fun he => hnot (he ▸ hg)⟩, And.left⟩
  | noRoom h0 h1 hr => exact Or.inl ⟨rfl, h0, h1, Or.inr hr⟩
  | noPage hh h0 h1 =>
    refine Or.inl ⟨rfl, h0, h1, Or.inl ?_⟩
    cases stack with
    | nil => rfl
    | cons q stack => simp [getFreePageGeneric] at hh
  | mapped hM =>
    exact Or.inr ⟨le_rfl, .kept rfl hM.sp.1 hM.sp.2 hM.num (hM.bare_iff hph)⟩
  | @grown _ q w s₁ _ hh h0 h1 hr hw hG hM =>
    have hmod : q % 0x200000 = 0 := hq q _ hh
    have hne := (hB.far hmin hv hr hw).2
    have hv₁ : newTable s₁ v = 1 :=
      newTable_of_bare ((hG.bare_iff hmod _).mpr ⟨h0, fun he => hne (Prod.ext_iff.mp he)⟩)
    have hnum := hM.num
    have hnum₁ : s₁.freePtsNum + newTable s w = s.freePtsNum + 510 := hG.num
    refine Or.inr ⟨le_rfl, .grown (hS.some q _ hh) h0 h1 hr hw (hM.sp.1.trans hG.sp.1)
      (hM.sp.2.trans hG.sp.2) (by omega) fun g => ?_⟩
    exact (hM.bare_iff hph g).trans (and_congr_left fun _ => hG.bare_iff hmod g)

/-- What is left for the rest of the pages. -/
theorem Spent.affords (hS : Spent s v stack stack' s') (hv : IsUser v)
    (hp : ∀ w ∈ pages, IsUser w) (hsp : s.ptPagesSp ≤ firstPtPageVAddr) :
    Affords s (stack.length + 1) (v :: pages) ↔ Affords s' stack'.length pages := by
  cases hS with
  | kept hst heq hmin hnum hbare =>
    subst hst
    have htab : newTables s (v :: pages) = newTable s v + newTables s' pages :=
      newTables_cons fun w _ => hbare (gibibyte w)
    have hbelow : ∀ grow, newTables s' (belowPages grow s.ptPagesSp) =
        newTables s (belowPages grow s.ptPagesSp) := fun grow =>
      newTables_congr fun w hw =>
        (hbare _).trans (and_iff_left (hv.gibibyte_ne (belowPages_lt hsp hw)))
    refine exists_congr fun grow =>
      ⟨fun ⟨h1, h2, h3⟩ => ⟨?_, ?_, ?_⟩, fun ⟨h1, h2, h3⟩ => ⟨?_, ?_, ?_⟩⟩
    all_goals
      simp only [heq, hmin, hbelow, htab, List.length_cons] at *
      omega
  | @grown q w hst h0 h1 hr hw heq hmin hnum hbare =>
    have hw' : w < 0x40000000000 := by
      unfold firstPtPageVAddr at hsp
      omega
    have hle : w ≤ firstPtPageVAddr := by omega
    have htab : newTables s (v :: pages) = newTable s v + newTables s' pages :=
      newTables_cons fun u hu => (hbare _).trans
        (and_congr_left fun _ => and_iff_left ((hp u hu).gibibyte_ne hw').symm)
    have hbelow : ∀ grow, newTables s (belowPages (grow + 1) s.ptPagesSp) =
        newTable s w + newTables s' (belowPages grow w) := by
      intro grow
      rw [belowPages, hw]
      exact newTables_cons fun u hu => (hbare _).trans
        (and_iff_left (hv.gibibyte_ne (belowPages_lt hle hu)))
    have hroom : s'.ptPagesSp - s'.ptPagesSpMin = s.ptPagesSp - s.ptPagesSpMin - 0x200000 := by
      rw [heq, hmin, ← hw, Nat.sub_right_comm]
    have hv₁ : newTable s v = 1 := newTable_of_bare h0
    have hlen : stack.length = stack'.length + 1 := by rw [hst, List.length_cons]
    constructor
    · rintro ⟨grow, h1, h2, h3⟩
      cases grow with
      | zero =>
        -- the table that is left is not for `v`
        rw [htab] at h3
        omega
      | succ grow =>
        rw [htab, hbelow] at h3
        rw [List.length_cons] at h1
        rw [Nat.succ_mul] at h2
        refine ⟨grow, by omega, ?_, by rw [heq]; omega⟩
        rw [hroom]
        exact Nat.le_sub_of_add_le h2
    · rintro ⟨grow, h1, h2, h3⟩
      rw [hroom] at h2
      rw [heq] at h3
      refine ⟨grow + 1, ?_, ?_, ?_⟩
      · rw [List.length_cons]
        omega
      · rw [Nat.succ_mul]
        exact Nat.add_le_of_le_sub (Nat.le_sub_of_add_le' hr) h2
      · rw [htab, hbelow]
        omega

theorem Stuck.not_affords (hS : Stuck s v stack) : ¬ Affords s (stack.length + 1) (v :: pages) := by
  rintro ⟨grow, h1, h2, h3⟩
  have hone := hS.one
  have hpos : 1 ≤ newTables s (v :: pages) := newTables_pos hS.none
  rw [List.length_cons] at h1
  cases grow with
  | zero => omega
  | succ grow =>
    rcases hS.short with rfl | hr
    · rw [List.length_nil] at h1
      omega
    · omega

theorem affords_nil (h : 1 ≤ s.freePtsNum) : Affords s n [] :=
  ⟨0, Nat.zero_le _, by omega, h⟩

theorem newTables_le (s : State) (pages : List ℕ) : newTables s pages ≤ pages.length := by
  unfold newTables
  refine (Finset.card_filter_le _ _).trans ((List.toFinset_card_le _).trans ?_)
  rw [List.length_map]

theorem length_belowPages (grow sp : ℕ) : (belowPages grow sp).length = grow := by
  induction grow generalizing sp with
  | zero => rfl
  | succ grow ih => rw [belowPages, List.length_cons, ih]

theorem not_affords_of_lt (h : n < pages.length) : ¬ Affords s n pages := by
  rintro ⟨grow, h1, -, -⟩
  omega

/-- A page of the range is mapped, and the free pages are enough for the range up to it. -/
def ReachesMapped (s : State) (n : ℕ) (range : List ℕ) : Prop :=
  ∃ l v, l ++ [v] <+: range ∧ ptIsMap s v = true ∧ Affords s n (l ++ [v])

theorem ReachesMapped.exists (h : ReachesMapped s n pages) : ∃ v ∈ pages, target s v ≠ none := by
  obtain ⟨l, v, hl, hm, -⟩ := h
  rw [ptIsMap_eq] at hm
  exact ⟨v, hl.subset (by simp), Option.isSome_iff_ne_none.mp hm⟩

theorem ReachesMapped.nil (h : ReachesMapped s n []) : False := by
  obtain ⟨l, v, hl, -⟩ := h
  simp at hl

theorem ReachesMapped.empty (h : ReachesMapped s 0 pages) : False := by
  obtain ⟨l, v, -, -, ha⟩ := h
  exact not_affords_of_lt (by simp) ha

theorem Stuck.not_reachesMapped (hS : Stuck s v stack) :
    ¬ ReachesMapped s (stack.length + 1) (v :: pages) := by
  rintro ⟨l, w, hl, -, ha⟩
  cases l with
  | nil =>
    obtain ⟨rfl, -⟩ := List.cons_prefix_cons.mp hl
    exact hS.not_affords ha
  | cons u l =>
    obtain ⟨rfl, -⟩ := List.cons_prefix_cons.mp hl
    exact hS.not_affords ha

theorem reachesMapped_of_head (hn : 1 ≤ s.freePtsNum) (hm : ptIsMap s v = true) :
    ReachesMapped s (n + 1) (v :: pages) := by
  have hnot : ¬ Bare s (gibibyte v) := by
    intro (h0 : s.kernelVpt2s (i1 v) (i2 v) = 0)
    simp [ptIsMap, h0] at hm
  have htab : newTables s [v] = newTable s v + newTables s [] := newTables_cons (by simp)
  have hzero : newTables s [v] = 0 := by rw [htab, newTable_of_not_bare hnot, newTables_nil]
  have hbelow : newTables s (belowPages 0 s.ptPagesSp) = 0 := newTables_nil
  exact ⟨[], v, by simp, hm, 0, by simp, by omega, by rw [List.nil_append]; omega⟩

/-- After a page that is mapped now, what the range reaches its rest reaches. -/
theorem Spent.reachesMapped (hS : Spent s v stack stack' s') (hv : IsUser v)
    (hp : ∀ w ∈ pages, IsUser w) (hsp : s.ptPagesSp ≤ firstPtPageVAddr)
    (hnot : ptIsMap s v = false) (hsame : ∀ w ∈ pages, ptIsMap s' w = ptIsMap s w) :
    ReachesMapped s (stack.length + 1) (v :: pages) ↔ ReachesMapped s' stack'.length pages := by
  constructor
  · rintro ⟨l, w, hl, hm, ha⟩
    cases l with
    | nil =>
      obtain ⟨rfl, -⟩ := List.cons_prefix_cons.mp hl
      simp [hnot] at hm
    | cons u l =>
      obtain ⟨rfl, hl'⟩ := List.cons_prefix_cons.mp hl
      have hmem : ∀ x ∈ l ++ [w], x ∈ pages := fun x hx => hl'.subset hx
      refine ⟨l, w, hl', (hsame w (hmem w (by simp))).trans hm, ?_⟩
      exact (hS.affords hv (fun x hx => hp x (hmem x hx)) hsp).mp ha
  · rintro ⟨l, w, hl, hm, ha⟩
    have hmem : ∀ x ∈ l ++ [w], x ∈ pages := fun x hx => hl.subset hx
    refine ⟨v :: l, w, List.cons_prefix_cons.mpr ⟨rfl, hl⟩,
      (hsame w (hmem w (by simp))).symm.trans hm, ?_⟩
    exact (hS.affords hv (fun x hx => hp x (hmem x hx)) hsp).mpr ha

end MyosIo.Mm
