import MyosIo.Mm.Tables
import MyosIo.Lib.Except

/-! One specification for each operation of `pt_manage.c`: which entry it sets, what it keeps of
the counters, and that the invariants of the tables survive it. -/
namespace MyosIo.Mm

open Function

structure PtInv (L : Layout) (pool : List ℕ) (s : State) : Prop where
  tables : TableInv L pool s
  list : ListInv pool s
  counts : Counts pool s
  num : NumOk pool s

/-- The gibibyte a page lies in, by its two upper indices. -/
def gibibyte (v : ℕ) : ℕ × ℕ := (i1 v, i2 v)

/-- The gibibyte has no table. -/
def Bare (s : State) (g : ℕ × ℕ) : Prop := s.kernelVpt2s g.1 g.2 = 0

instance (s : State) : DecidablePred (Bare s) := fun g =>
  inferInstanceAs (Decidable (s.kernelVpt2s g.1 g.2 = 0))

/-- The number of tables that mapping `v` takes. -/
def newTable (s : State) (v : ℕ) : ℕ := if Bare s (gibibyte v) then 1 else 0

/-- The entry of `v` goes from empty to `ph`. -/
structure Mapped (L : Layout) (pool : List ℕ) (s s' : State) (v ph : ℕ) : Prop where
  inv : PtInv L pool s'
  was : lookup s v = 0
  sets : Sets s s' (i1 v) (i2 v) (i3 v) (pageEntry ph)
  slots : ∀ a b, ¬ (a = i1 v ∧ b = i2 v) → s'.kernelVpt2s a b = s.kernelVpt2s a b
  phAddr : s'.phAddr = s.phAddr
  sp : s'.ptPagesSp = s.ptPagesSp ∧ s'.ptPagesSpMin = s.ptPagesSpMin
  freePages : s'.freePages = s.freePages
  num : s'.freePtsNum + newTable s v = s.freePtsNum

variable {L : Layout} {pool : List ℕ} {s s' : State} {a b c t v w p ph q x : ℕ}

theorem lookup_eq (h : s.kernelVpt2s (i1 v) (i2 v) ≠ 0) :
    lookup s v = s.pageTables (s.kernelVpt2s (i1 v) (i2 v)) (i3 v) := entry_of_ne h

theorem newTable_of_bare (h : Bare s (gibibyte v)) : newTable s v = 1 := if_pos h

theorem newTable_of_not_bare (h : ¬ Bare s (gibibyte v)) : newTable s v = 0 := if_neg h

theorem newTable_le (s : State) (v : ℕ) : newTable s v ≤ 1 := by
  unfold newTable
  split <;> omega

/-- A page with an entry lies in a gibibyte with a table. -/
theorem Sets.not_bare (h : Sets s s' (i1 v) (i2 v) (i3 v) x) (hx : x ≠ 0) :
    ¬ Bare s' (gibibyte v) := by
  intro (h0 : s'.kernelVpt2s (i1 v) (i2 v) = 0)
  have he := h (i1 v) (i2 v) (i3 v) (i3_lt v)
  rw [if_pos ⟨rfl, rfl, rfl⟩, entry_of_zero h0] at he
  exact hx he.symm

/-- The gibibyte of a page that is mapped gets its table, the others stay as they are. -/
theorem bare_iff_of_slots (h : ¬ Bare s' (gibibyte v))
    (hs : ∀ a b, ¬ (a = i1 v ∧ b = i2 v) → s'.kernelVpt2s a b = s.kernelVpt2s a b)
    (g : ℕ × ℕ) : Bare s' g ↔ Bare s g ∧ g ≠ gibibyte v := by
  by_cases hg : g = gibibyte v
  · subst hg
    simp [h]
  · have hne : ¬ (g.1 = i1 v ∧ g.2 = i2 v) := fun he => hg (Prod.ext he.1 he.2)
    simp [Bare, hs _ _ hne, hg]

theorem Mapped.bare_iff (hM : Mapped L pool s s' v ph) (hph : ph % 0x200000 = 0) (g : ℕ × ℕ) :
    Bare s' g ↔ Bare s g ∧ g ≠ gibibyte v :=
  bare_iff_of_slots (hM.sets.not_bare (pageEntry_ne_zero hph)) hM.slots g

/-- The counter of another table does not move. -/
theorem counter_ne {t' : ℕ} {f : ℕ → ℕ → ℕ} {n : ℕ} (ht : t % 0x1000 = 0) (ht' : t' % 0x1000 = 0)
    (hne : t' ≠ t) :
    set2 f (align2m t) (tableId t) n (align2m t') (tableId t') = f (align2m t') (tableId t') :=
  set2_of_ne n fun h => hne (table_ext ht' ht h.1 h.2)

/-- An entry is written in the table that is there, or in a new one. -/
inductive Written (s : State) (ph v : ℕ) : State → Prop
  | old (h0 : s.kernelVpt2s (i1 v) (i2 v) ≠ 0)
      (he : s.pageTables (s.kernelVpt2s (i1 v) (i2 v)) (i3 v) = 0) :
      Written s ph v (setEntry (ptDecFreeEntrysNum s (s.kernelVpt2s (i1 v) (i2 v)))
        (s.kernelVpt2s (i1 v) (i2 v)) (i3 v) (pageEntry ph))
  | new {t : ℕ} {s₁ : State} (h0 : s.kernelVpt2s (i1 v) (i2 v) = 0)
      (h : newPt3 s (i1 v) (i2 v) = .ok (t, s₁)) :
      Written s ph v (setEntry s₁ t (i3 v) (pageEntry ph))

theorem ptMapAlwaysSuccess_ok (h : ptMapAlwaysSuccess s ph v = .ok s') : Written s ph v s' := by
  unfold ptMapAlwaysSuccess at h
  simp only at h
  split at h
  next h0 =>
    split at h
    · cases h
    next he =>
      cases h
      exact .old h0 (not_not.mp he)
  next h0 =>
    obtain ⟨⟨t, s₁⟩, hn, h⟩ := bind_ok.mp h
    cases h
    exact .new (not_not.mp h0) hn

/-- What `pt_try_map` does when it returns. -/
inductive Tried {σ : Type} (hook : σ → Option ℕ × σ) (parm : σ) (s : State) (ph v : ℕ)
    (isSoft : Bool) : ℤ → σ → State → Prop
  | already (hs : isSoft = true) (hl : lookup s v ≠ 0) :
      Tried hook parm s ph v isSoft 1 parm s
  | noRoom (h0 : Bare s (gibibyte v)) (h1 : s.freePtsNum = 1)
      (hr : s.ptPagesSp < s.ptPagesSpMin + 0x200000) :
      Tried hook parm s ph v isSoft (-1) parm s
  | noPage {parm' : σ} (hh : hook parm = (none, parm')) (h0 : Bare s (gibibyte v))
      (h1 : s.freePtsNum = 1) : Tried hook parm s ph v isSoft (-1) parm' s
  | written {s' : State} (hs : Written s ph v s')
      (h1 : Bare s (gibibyte v) → s.freePtsNum ≠ 1) : Tried hook parm s ph v isSoft 0 parm s'
  | grown {parm' : σ} {q w t : ℕ} {s₁ s₂ : State} (hh : hook parm = (some q, parm'))
      (h0 : Bare s (gibibyte v)) (h1 : s.freePtsNum = 1)
      (hr : s.ptPagesSpMin + 0x200000 ≤ s.ptPagesSp) (hw : s.ptPagesSp - 0x200000 = w)
      (ha : addPtPage { s with ptPagesSp := w } q w = .ok s₁)
      (ht : newPt3 s₁ (i1 v) (i2 v) = .ok (t, s₂)) :
      Tried hook parm s ph v isSoft 0 parm' (setEntry s₂ t (i3 v) (pageEntry ph))

theorem ptTryMap_ok {σ : Type} {hook : σ → Option ℕ × σ} {parm parm' : σ} {isSoft : Bool}
    {ret : ℤ} (h : ptTryMap hook parm s ph v isSoft = .ok (ret, parm', s')) :
    Tried hook parm s ph v isSoft ret parm' s' := by
  unfold ptTryMap at h
  simp only at h
  split at h
  next h0 =>
    split at h
    next he =>
      split at h
      next hs =>
        cases h
        exact .already hs (by rwa [lookup_eq h0])
      next => cases h
    next he =>
      cases h
      exact .written (.old h0 (not_not.mp he)) fun hb => absurd hb h0
  next h0 =>
    have h0 := not_not.mp h0
    split at h
    next h1 =>
      split at h
      next hr =>
        cases h
        exact .noRoom h0 h1 (by omega)
      next hr =>
        split at h
        next hh =>
          cases h
          exact .noPage hh h0 h1
        next hh =>
          obtain ⟨s₁, ha, h⟩ := bind_ok.mp h
          obtain ⟨⟨t, s₂⟩, ht, h⟩ := bind_ok.mp h
          cases h
          exact .grown hh h0 h1 (by omega) rfl ha ht
    next h1 =>
      obtain ⟨⟨t, s₁⟩, ht, h⟩ := bind_ok.mp h
      cases h
      exact .written (.new h0 ht) fun _ => h1

/-- An entry of a table that is in use is filled. -/
theorem PtInv.mapOld (hI : PtInv L pool s) (h0 : s.kernelVpt2s (i1 v) (i2 v) ≠ 0)
    (he : s.pageTables (s.kernelVpt2s (i1 v) (i2 v)) (i3 v) = 0) (hph : ph % 0x200000 = 0) :
    Mapped L pool s (setEntry (ptDecFreeEntrysNum s (s.kernelVpt2s (i1 v) (i2 v)))
      (s.kernelVpt2s (i1 v) (i2 v)) (i3 v) (pageEntry ph)) v ph := by
  have hwas : lookup s v = 0 := (lookup_eq h0).trans he
  have hd : TableInv L pool (ptDecFreeEntrysNum s (s.kernelVpt2s (i1 v) (i2 v))) :=
    hI.tables.congr rfl rfl rfl rfl rfl
  refine
    { inv := ⟨hd.setEntry h0 (Or.inr ⟨ph, hph, rfl⟩),
        ⟨hI.list.poolNodup, hI.list.nodup, hI.list.mem⟩, ?_, hI.num⟩
      was := hwas, sets := sets_setEntry hd h0, slots := fun _ _ _ => rfl
      phAddr := rfl, sp := ⟨rfl, rfl⟩, freePages := rfl
      num := congrArg (s.freePtsNum + ·) (newTable_of_not_bare h0) }
  intro t ht hf
  obtain ⟨hn, hle⟩ := hI.counts t ht hf
  by_cases hts : t = s.kernelVpt2s (i1 v) (i2 v)
  · have hz : zeros 512 (set2 s.pageTables t (i3 v) (pageEntry ph) t) + 1
        = zeros 512 (s.pageTables t) := by
      refine zeros_set (i3_lt v) (hts ▸ he) ?_ fun i hi => set2_of_ne _ fun h => hi h.2
      rw [set2_self]
      exact pageEntry_ne_zero hph
    have h16 := zeros_le 512 (s.pageTables t)
    unfold Counted
    rw [← hts]
    simp only [setEntry, ptDecFreeEntrysNum, set2_self, hn]
    omega
  · have hmod := hI.tables.slot_mod (i1 v) (i2 v)
    have hz : zeros 512 (set2 s.pageTables (s.kernelVpt2s (i1 v) (i2 v)) (i3 v)
        (pageEntry ph) t) = zeros 512 (s.pageTables t) :=
      zeros_congr fun i _ => set2_of_ne _ fun h => hts h.1
    unfold Counted
    simp only [setEntry, ptDecFreeEntrysNum, counter_ne hmod ht.mod hts]
    exact ⟨hn.trans hz.symm, hz.symm ▸ hle⟩

/-- A new table is taken and its first entry filled. -/
theorem PtInv.mapNew (hI : PtInv L pool s) (h : newPt3 s (i1 v) (i2 v) = .ok (t, s'))
    (h0 : s.kernelVpt2s (i1 v) (i2 v) = 0) (hv : v < 2 ^ 45) (hph : ph % 0x200000 = 0) :
    Mapped L pool s (setEntry s' t (i3 v) (pageEntry ph)) v ph := by
  have hT := hI.tables.newPt3 hI.list h h0 (i1_lt hv) (i2_lt v)
  obtain ⟨page, rest, id, ids, -, -, -, hs'⟩ := newPt3_ok h
  have hwas : lookup s v = 0 := entry_of_zero h0
  have ht0 : s'.kernelVpt2s (i1 v) (i2 v) ≠ 0 := hT.slot.symm ▸ hT.inv.ne_zero hT.table
  have hset : setEntry s' t (i3 v) (pageEntry ph)
      = setEntry s' (s'.kernelVpt2s (i1 v) (i2 v)) (i3 v) (pageEntry ph) := by rw [hT.slot]
  have hsum := hT.sum
  have hnum := hI.num
  refine
    { inv := ⟨?_, ⟨hT.list.poolNodup, hT.list.nodup, hT.list.mem⟩, ?_, ?_⟩
      was := hwas, sets := ?_, slots := ?_
      phAddr := hT.phAddr, sp := hT.sp, freePages := hT.freePages, num := ?_ }
  · rw [hset]
    exact hT.inv.setEntry ht0 (Or.inr ⟨ph, hph, rfl⟩)
  · intro t' ht' hf
    by_cases hts : t' = t
    · subst hts
      have hz0 : zeros 512 (s'.pageTables t') = 512 := by
        rw [zeros_eq_iff, hT.tables]
        exact hI.tables.zero t' ht' hT.free
      have hz : zeros 512 (set2 s'.pageTables t' (i3 v) (pageEntry ph) t') + 1
          = zeros 512 (s'.pageTables t') := by
        refine zeros_set (i3_lt v) ?_ ?_ fun i hi => set2_of_ne _ fun h => hi h.2
        · rw [hT.tables]
          exact hI.tables.zero t' ht' hT.free _ (i3_lt v)
        · rw [set2_self]
          exact pageEntry_ne_zero hph
      unfold Counted
      simp only [setEntry, hT.counter, set2_self]
      omega
    · have hf' : ¬ IsFree s t' := fun h' => hf ((hT.free_iff t' ht').mpr ⟨h', hts⟩)
      obtain ⟨hn, hle⟩ := hI.counts t' ht' hf'
      have hz : zeros 512 (set2 s'.pageTables t (i3 v) (pageEntry ph) t')
          = zeros 512 (s.pageTables t') :=
        zeros_congr fun i _ => by rw [set2_of_ne _ fun h => hts h.1, hT.tables]
      unfold Counted
      simp only [setEntry, hT.counter, counter_ne hT.table.mod ht'.mod hts]
      exact ⟨hn.trans hz.symm, hz.symm ▸ hle⟩
  · have hn := hT.num
    unfold NumOk at hnum ⊢
    simp only [setEntry]
    omega
  · intro a' b' c' hc'
    rw [hset, sets_setEntry hT.inv ht0 a' b' c' hc', hT.same a' b' c' hc']
  · intro a b hab
    simp only [setEntry, hs']
    exact set2_of_ne _ hab
  · have hn := hT.num
    have hone : newTable s v = 1 := newTable_of_bare h0
    unfold NumOk at hnum
    simp only [setEntry]
    omega

theorem PtInv.written (hI : PtInv L pool s) (h : Written s ph v s') (hv : v < 2 ^ 45)
    (hph : ph % 0x200000 = 0) : Mapped L pool s s' v ph := by
  cases h with
  | old h0 he => exact hI.mapOld h0 he hph
  | new h0 h => exact hI.mapNew h h0 hv hph

/-- A page joins the pool. -/
structure Grown (L : Layout) (pool : List ℕ) (s s' : State) (w ph : ℕ) : Prop where
  inv : PtInv L (w :: pool) s'
  was : lookup s w = 0
  sets : Sets s s' (i1 w) (i2 w) (i3 w) (pageEntry ph)
  slots : ∀ a b, ¬ (a = i1 w ∧ b = i2 w) → s'.kernelVpt2s a b = s.kernelVpt2s a b
  phAddr : s'.phAddr = update s.phAddr w ph
  sp : s'.ptPagesSp = s.ptPagesSp ∧ s'.ptPagesSpMin = s.ptPagesSpMin
  freePages : s'.freePages = s.freePages
  num : s'.freePtsNum + newTable s w = s.freePtsNum + 510

/-- A virtual address at which a page may join the pool. -/
structure Fresh (L : Layout) (pool : List ℕ) (s : State) (w : ℕ) : Prop where
  notMem : w ∉ pool
  mod : w % 0x200000 = 0
  pos : w ≠ 0
  lt : w < 2 ^ 45
  null : lookup s (align2m L.nullPt3) ≠ 0

theorem PtInv.addPtPage (hI : PtInv L pool s) (hw : Fresh L pool s w) (hph : ph % 0x200000 = 0)
    (h : addPtPage s ph w = .ok s') : Grown L pool s s' w ph := by
  obtain ⟨s₁, hm, h⟩ := bind_ok.mp h
  cases h
  have hM := hI.written (ptMapAlwaysSuccess_ok hm) hw.lt hph
  have hnull : w ≠ align2m L.nullPt3 := by
    rintro rfl
    exact hw.null hM.was
  have hJ := hM.inv.tables.joinPool hM.inv.list hw.notMem hw.mod hw.pos hph hnull
  have hnum := hM.inv.num
  have hsum := hJ.sum
  refine
    { inv := ⟨hJ.inv, hJ.list, ?_, ?_⟩, was := hM.was, sets := ?_, slots := hM.slots
      phAddr := ?_, sp := hM.sp, freePages := hM.freePages, num := ?_ }
  · intro t ht hf
    obtain ⟨ht', hf'⟩ := hJ.table_old t ht hf
    have hc := hM.inv.counts t ht' hf'
    rw [Counted, ← hJ.tables_old t ht'] at hc
    exact hc
  · have hj : NumOk (w :: pool) (joinPool s₁ w ph) := by
      rw [NumOk, hsum, ← hnum]
      rfl
    exact hj
  · intro a' b' c' hc'
    exact (hJ.same a' b' c').trans (hM.sets a' b' c' hc')
  · change update s₁.phAddr w ph = _
    rw [hM.phAddr]
  · have hn := hM.num
    change s₁.freePtsNum + 510 + newTable s w = _
    omega

theorem Grown.num_ge (hG : Grown L pool s s' w ph) (hn : 1 ≤ s.freePtsNum) :
    510 ≤ s'.freePtsNum := by
  have h := hG.num
  have hle := newTable_le s w
  omega

theorem Grown.bare_iff (hG : Grown L pool s s' w ph) (hph : ph % 0x200000 = 0) (g : ℕ × ℕ) :
    Bare s' g ↔ Bare s g ∧ g ≠ gibibyte w :=
  bare_iff_of_slots (hG.sets.not_bare (pageEntry_ne_zero hph)) hG.slots g

theorem PtInv.setSp (hI : PtInv L pool s) (x : ℕ) : PtInv L pool { s with ptPagesSp := x } where
  tables := hI.tables.congr rfl rfl rfl rfl rfl
  list := ⟨hI.list.poolNodup, hI.list.nodup, hI.list.mem⟩
  counts := hI.counts
  num := hI.num

theorem Fresh.setSp (hw : Fresh L pool s w) (x : ℕ) : Fresh L pool { s with ptPagesSp := x } w :=
  ⟨hw.notMem, hw.mod, hw.pos, hw.lt, hw.null⟩

/-- The ways `pt_try_map` can end, and what it leaves of the tables. -/
inductive TryMap {σ : Type} (L : Layout) (pool : List ℕ) (hook : σ → Option ℕ × σ) (parm : σ)
    (s : State) (ph v : ℕ) (isSoft : Bool) : ℤ → σ → State → Prop
  | already (hs : isSoft = true) (hl : lookup s v ≠ 0) :
      TryMap L pool hook parm s ph v isSoft 1 parm s
  | noRoom (h0 : Bare s (gibibyte v)) (h1 : s.freePtsNum = 1)
      (hr : s.ptPagesSp < s.ptPagesSpMin + 0x200000) :
      TryMap L pool hook parm s ph v isSoft (-1) parm s
  | noPage {parm' : σ} (hh : hook parm = (none, parm')) (h0 : Bare s (gibibyte v))
      (h1 : s.freePtsNum = 1) : TryMap L pool hook parm s ph v isSoft (-1) parm' s
  | mapped {s' : State} (hM : Mapped L pool s s' v ph) (hn : 1 ≤ s'.freePtsNum) :
      TryMap L pool hook parm s ph v isSoft 0 parm s'
  | grown {parm' : σ} {q w : ℕ} {s₁ s' : State} (hh : hook parm = (some q, parm'))
      (h0 : Bare s (gibibyte v)) (h1 : s.freePtsNum = 1)
      (hr : s.ptPagesSpMin + 0x200000 ≤ s.ptPagesSp) (hw : s.ptPagesSp - 0x200000 = w)
      (hG : Grown L pool { s with ptPagesSp := w } s₁ w q)
      (hM : Mapped L (w :: pool) s₁ s' v ph) (hn : 1 ≤ s'.freePtsNum) :
      TryMap L pool hook parm s ph v isSoft 0 parm' s'

theorem PtInv.tryMap {σ : Type} {hook : σ → Option ℕ × σ} {parm parm' : σ} {isSoft : Bool}
    {ret : ℤ} (hI : PtInv L pool s) (hn : 1 ≤ s.freePtsNum)
    (h : ptTryMap hook parm s ph v isSoft = .ok (ret, parm', s'))
    (hv : v < 2 ^ 45) (hph : ph % 0x200000 = 0)
    (hq : ∀ q parm', hook parm = (some q, parm') → q % 0x200000 = 0)
    (hw : ∀ w, s.ptPagesSpMin + 0x200000 ≤ s.ptPagesSp → s.ptPagesSp - 0x200000 = w →
      Fresh L pool s w ∧ ¬ (i1 v = i1 w ∧ i2 v = i2 w)) :
    TryMap L pool hook parm s ph v isSoft ret parm' s' := by
  cases ptTryMap_ok h with
  | already hs hl => exact .already hs hl
  | noRoom h0 h1 hr => exact .noRoom h0 h1 hr
  | noPage hh h0 h1 => exact .noPage hh h0 h1
  | written hs h1 =>
    have hM := hI.written hs hv hph
    refine .mapped hM ?_
    have heq := hM.num
    by_cases h0 : Bare s (gibibyte v)
    · have hne := h1 h0
      rw [newTable_of_bare h0] at heq
      omega
    · rw [newTable_of_not_bare h0] at heq
      omega
  | @grown _ q w t s₁ s₂ hh h0 h1 hr hsp ha ht =>
    obtain ⟨hf, hne⟩ := hw w hr hsp
    have hG := (hI.setSp w).addPtPage (hf.setSp w) (hq q _ hh) ha
    have hM := hG.inv.mapNew ht ((hG.slots _ _ hne).trans h0) hv hph
    have hle := newTable_le s₁ v
    have heq := hM.num
    have hge := hG.num_ge hn
    exact .grown hh h0 h1 hr hsp hG hM (by omega)

/-- The entry of `v` goes from `ph` to empty. -/
structure Unmapped (L : Layout) (pool : List ℕ) (s s' : State) (v ph : ℕ) : Prop where
  inv : PtInv L pool s'
  was : lookup s v = pageEntry ph
  mod : ph % 0x200000 = 0
  sets : Sets s s' (i1 v) (i2 v) (i3 v) 0
  phAddr : s'.phAddr = s.phAddr
  sp : s'.ptPagesSp = s.ptPagesSp ∧ s'.ptPagesSpMin = s.ptPagesSpMin
  freePages : s'.freePages = s.freePages
  num : s.freePtsNum ≤ s'.freePtsNum

theorem ptUnmap_ok (h : ptUnmap s v = .ok (ph, s')) :
    lookup s v ≠ 0 ∧ ph = align2m (lookup s v) ∧ s.kernelVpt2s (i1 v) (i2 v) ≠ 0 ∧
      ∃ n s₁, n = (s.freeEntrysNum (align2m (s.kernelVpt2s (i1 v) (i2 v)))
          (tableId (s.kernelVpt2s (i1 v) (i2 v))) + 1) % 0x10000 ∧
        s₁ = { setEntry s (s.kernelVpt2s (i1 v) (i2 v)) (i3 v) 0 with
          freeEntrysNum := set2 s.freeEntrysNum (align2m (s.kernelVpt2s (i1 v) (i2 v)))
            (tableId (s.kernelVpt2s (i1 v) (i2 v))) n } ∧
        ((n ≠ 512 ∧ s' = s₁) ∨
          (n = 512 ∧ s' = freePt s₁ (i1 v) (i2 v) (s.kernelVpt2s (i1 v) (i2 v)))) := by
  unfold ptUnmap at h
  simp only at h
  split at h
  · cases h
  · next h0 =>
    split at h
    · cases h
    · next he =>
      rw [lookup_eq h0]
      unfold ptIncFreeEntrysNumAndFreePt at h
      simp only at h
      split at h
      · next hn =>
        cases h
        exact ⟨he, rfl, h0, _, _, rfl, rfl, Or.inr ⟨hn, rfl⟩⟩
      · next hn =>
        cases h
        exact ⟨he, rfl, h0, _, _, rfl, rfl, Or.inl ⟨hn, rfl⟩⟩

theorem PtInv.unmap (hI : PtInv L pool s) (h : ptUnmap s v = .ok (ph, s')) (h8 : i1 v ≠ 0) :
    Unmapped L pool s s' v ph := by
  obtain ⟨hl, rfl, h0, n, s₁, hn, hs₁, hcase⟩ := ptUnmap_ok h
  obtain ⟨ph, hph, he⟩ := hI.tables.entries (i1 v) (i2 v) (i3 v) (i3_lt v) (fun h => h8 h.1) hl
  have he : lookup s v = pageEntry ph := he
  rw [he, align2m_pageEntry hph]
  have hab : ¬ (i1 v = 0 ∧ i2 v = 0) := fun h => h8 h.1
  obtain ⟨htab, hnf, -⟩ := hI.tables.used _ _ h0 hab
  obtain ⟨hcnt, hle⟩ := hI.counts _ htab hnf
  have hT : TableInv L pool s₁ := by
    rw [hs₁]
    exact (hI.tables.setEntry h0 (Or.inl rfl)).congr rfl rfl rfl rfl rfl
  have hL : ListInv pool s₁ := by
    rw [hs₁]
    exact ⟨hI.list.poolNodup, hI.list.nodup, hI.list.mem⟩
  have hS : Sets s s₁ (i1 v) (i2 v) (i3 v) 0 := by
    rw [hs₁]
    exact sets_setEntry hI.tables h0
  have hz : zeros 512 (s.pageTables (s.kernelVpt2s (i1 v) (i2 v))) + 1
      = zeros 512 (s₁.pageTables (s.kernelVpt2s (i1 v) (i2 v))) := by
    rw [hs₁]
    refine zeros_set (i3_lt v) (set2_self _ _ _ _) ?_ fun i hi =>
      (set2_of_ne _ fun h => hi h.2).symm
    rwa [← lookup_eq h0]
  have hC : ∀ t, IsTable pool t → t ≠ s.kernelVpt2s (i1 v) (i2 v) → ¬ IsFree s t →
      Counted s₁ t := by
    intro t ht hne hf
    have hmod := hI.tables.slot_mod (i1 v) (i2 v)
    have hzt : zeros 512 (s₁.pageTables t) = zeros 512 (s.pageTables t) := by
      rw [hs₁]
      exact zeros_congr fun i _ => set2_of_ne _ fun h => hne h.1
    obtain ⟨hc, hl'⟩ := hI.counts t ht hf
    refine ⟨?_, hzt.symm ▸ hl'⟩
    rw [hzt, ← hc, hs₁]
    exact counter_ne hmod ht.mod hne
  have hz' := zeros_le 512 (s₁.pageTables (s.kernelVpt2s (i1 v) (i2 v)))
  rcases hcase with ⟨hn', rfl⟩ | ⟨hn', rfl⟩
  · refine
      { inv := ⟨hT, hL, ?_, ?_⟩, was := he, mod := hph, sets := hS, phAddr := by rw [hs₁]; rfl
        sp := by rw [hs₁]; exact ⟨rfl, rfl⟩, freePages := by rw [hs₁]; rfl
        num := by rw [hs₁]; exact le_rfl }
    · intro t ht hf
      by_cases hts : t = s.kernelVpt2s (i1 v) (i2 v)
      · unfold Counted
        rw [hts, ← hz, ← hcnt]
        have hcs : s'.freeEntrysNum (align2m (s.kernelVpt2s (i1 v) (i2 v)))
            (tableId (s.kernelVpt2s (i1 v) (i2 v))) = n := by
          rw [hs₁]
          exact set2_self _ _ _ _
        rw [hcs]
        omega
      · refine hC t ht hts fun h => hf ?_
        rw [hs₁]
        exact h
    · have hnum := hI.num
      rw [hs₁]
      exact hnum
  · have hall : ∀ c < 512, s₁.pageTables (s.kernelVpt2s (i1 v) (i2 v)) c = 0 := by
      rw [← zeros_eq_iff]
      omega
    have hv₁ : s₁.kernelVpt2s (i1 v) (i2 v) = s.kernelVpt2s (i1 v) (i2 v) := by
      rw [hs₁]
      rfl
    have hR := hT.freePt hL hv₁ h0 hab hall
    refine
      { inv := ⟨hR.inv, hR.list, ?_, ?_⟩, was := he, mod := hph, sets := ?_
        phAddr := by rw [hs₁]; rfl, sp := by rw [hs₁]; exact ⟨rfl, rfl⟩
        freePages := by rw [hs₁]; rfl, num := by rw [hs₁]; exact Nat.le_succ _ }
    · intro t ht hf
      have hf' : ¬ (IsFree s₁ t ∨ t = s.kernelVpt2s (i1 v) (i2 v)) := fun h =>
        hf ((hR.free_iff t ht).mpr h)
      refine hC t ht (fun h => hf' (Or.inr h)) fun h => hf' (Or.inl ?_)
      rw [hs₁]
      exact h
    · have hnum := hI.num
      have hsum := hR.sum
      rw [NumOk, hsum, hs₁]
      exact congrArg (· + 1) hnum
    · intro a' b' c' hc'
      rw [hR.same a' b' c' hc']
      exact hS a' b' c' hc'

end MyosIo.Mm
