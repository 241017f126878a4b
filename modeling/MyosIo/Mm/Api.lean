import MyosIo.Mm.Calls

/-! What `mmap`, `mmap_soft`, `munmap` and `check_map` do to the books, to the stack and to the
targets of the pages of [4T, 32T). -/
namespace MyosIo.Mm

open Function

variable {L : Layout} {fixed : List (ℕ × ℕ)} {stack stack' mapped : List ℕ} {s s' t : State}
  {v w num addr length prot flags ret : ℕ} {offset ret' : ℤ} {isSoft ok : Bool}

theorem target_setFreePages (s : State) (x : List ℕ) :
    target { s with freePages := x } = target s := rfl

theorem held_setFreePages (x : List ℕ) :
    held fixed stack { s with freePages := x } = held fixed stack s := by
  unfold held
  rw [target_setFreePages]

theorem Books.setFreePages (hB : Books L fixed stack s) (x : List ℕ) :
    Books L fixed stack { s with freePages := x } where
  pt := ⟨hB.pt.tables.congr rfl rfl rfl rfl rfl,
    ⟨hB.pt.list.poolNodup, hB.pt.list.nodup, hB.pt.list.mem⟩, hB.pt.counts, hB.pt.num⟩
  num := hB.num
  spMod := hB.spMod
  spLe := hB.spLe
  stackMod := hB.stackMod
  nodup := by
    rw [held_setFreePages]
    exact hB.nodup
  window := hB.window
  low := hB.low
  fixedAt := hB.fixedAt
  null := hB.null

/-- The pages of a range whose length is given in bytes. -/
def pagesOf (addr length : ℕ) : List ℕ := rangePages (length / 0x200000) addr

/-- A range the checks admit, its length in bytes. -/
def Admitted (addr length : ℕ) : Prop :=
  length % 0x200000 = 0 ∧ UserRange addr (length / 0x200000)

theorem checkRange_ok (h : checkRange addr length = .ok ()) : Admitted addr length := by
  unfold checkRange at h
  split at h
  · cases h
  · next h1 =>
    split at h
    · cases h
    · next h2 =>
      split at h
      · cases h
      · next h3 =>
        split at h
        · cases h
        · next h4 => exact ⟨by omega, by omega, by omega, by omega⟩

theorem checkRange_error {e : Fault} (h : checkRange addr length = .error e) : e = .abort "" := by
  unfold checkRange at h
  split at h
  · cases h
    rfl
  split at h
  · cases h
    rfl
  split at h
  · cases h
    rfl
  split at h
  · cases h
    rfl
  · cases h

theorem checkRange_of_admitted (h : Admitted addr length) : checkRange addr length = .ok () := by
  obtain ⟨hl, hr⟩ := h
  have hm := hr.mod
  have hg := hr.ge
  have hle := hr.le
  unfold checkRange
  rw [if_neg (by omega), if_neg (by omega), if_neg (by omega), if_neg (by omega)]

/-- A call whose arguments pass the checks. -/
theorem mapRange_eq (hA : Admitted addr length) :
    mapRange isSoft s addr length protAll mapFlags 0 =
      if length / 0x200000 ≤ s.freePages.length then
        if length / 0x200000 = 0 then .ok (addr, s)
        else do
          let (ret, t) ← allocPageLockRoutine s addr (length / 0x200000) isSoft
          .ok (if ret = 0 then addr else mapFailed, t)
      else .ok (mapFailed, s) := by
  unfold mapRange
  rw [if_neg (by simp), if_neg (by simp), if_neg (by simp), checkRange_of_admitted hA, ok_bind]
  simp only [gt_iff_lt]
  by_cases hn : length / 0x200000 ≤ s.freePages.length
  · rw [if_neg (by omega), if_pos hn]
  · rw [if_pos (by omega), if_neg hn]

/-- A call stops at the checks, or its arguments are those of `mapRange_eq`. -/
theorem mapRange_checks (isSoft : Bool) (s : State) (addr length prot flags : ℕ) (offset : ℤ) :
    mapRange isSoft s addr length prot flags offset = .error (.abort "") ∨
      prot = protAll ∧ flags = mapFlags ∧ offset = 0 ∧ Admitted addr length := by
  unfold mapRange
  split
  · exact .inl rfl
  next hp =>
  split
  · exact .inl rfl
  next hf =>
  split
  · exact .inl rfl
  next ho =>
  cases hc : checkRange addr length with
  | error e =>
    obtain rfl := checkRange_error hc
    exact .inl rfl
  | ok u => exact .inr ⟨not_not.mp hp, not_not.mp hf, not_not.mp ho, checkRange_ok hc⟩

/-- What a call that maps a range leaves; `lost` are the pages it drops. -/
structure MapSpec (L : Layout) (fixed : List (ℕ × ℕ)) (pages : List ℕ) (s t : State)
    (lost : List ℕ) (ok : Bool) : Prop where
  books : Books L fixed t.freePages t
  sp : t.ptPagesSp ≤ s.ptPagesSp
  min : t.ptPagesSpMin = s.ptPagesSpMin
  perm : (lost ++ held fixed t.freePages t).Perm (held fixed s.freePages s)
  outside : ∀ w, IsUser w → w ∉ pages → target t w = target s w
  already : ∀ w, IsUser w → target s w ≠ none → target t w = target s w
  all : ok = true → ∀ v ∈ pages, target t v ≠ none
  failed : ok = false → ∀ w, IsUser w → target t w = target s w
  granted : ok = true ↔ Affords s s.freePages.length pages

theorem MapSpec.refl {pages : List ℕ} (hB : Books L fixed s.freePages s)
    (hok : ok = true → pages = []) (ha : ok = true ↔ Affords s s.freePages.length pages) :
    MapSpec L fixed pages s s [] ok where
  books := hB
  sp := le_rfl
  min := rfl
  perm := by rw [List.nil_append]
  outside _ _ _ := rfl
  already _ _ _ := rfl
  all h := by simp [hok h]
  failed _ _ _ := rfl
  granted := ha

theorem Books.allocPageLockRoutine (hB : Books L fixed s.freePages s) (hmin : 0 < s.ptPagesSpMin)
    (hr : UserRange addr num) (h : allocPageLockRoutine s addr num isSoft = .ok (ret', t)) :
    ∃ lost ok, MapSpec L fixed (rangePages num addr) s t lost ok ∧
      (isSoft = false → lost = []) ∧
      (lost ≠ [] ↔ ReachesMapped s s.freePages.length (rangePages num addr)) ∧
      ret' = if ok then 0 else -1 := by
  obtain ⟨⟨ok, stack₁, mapped, s₁⟩, h₁, h⟩ := bind_ok.mp h
  obtain ⟨new, lost, hnew, hA, hhard⟩ := hB.allocPages hmin hr h₁
  have hnew : mapped = new := by simpa using hnew
  subst hnew
  have huser : ∀ v ∈ mapped, IsUser v := fun v hv => hr.mem (hA.sub v hv).1
  cases ok with
  | true =>
    obtain ⟨rfl, rfl⟩ : 0 = ret' ∧ { s₁ with freePages := stack₁ } = t := by simpa using h
    refine ⟨lost, true,
      { books := hA.books.setFreePages _, sp := hA.sp, min := hA.min, perm := ?_, outside := ?_,
        already := ?_
        all := hA.all, failed := by simp
        granted := hA.granted }, hhard, hA.wasted, rfl⟩
    · rw [held_setFreePages]
      exact hA.perm
    · exact fun w hw hout => hA.same w hw fun hm => hout (hA.sub w hm).1
    · exact fun w hw hs => hA.same w hw fun hm => hs (hA.sub w hm).2.1
  | false =>
    obtain ⟨⟨stack₂, s₂⟩, h₂, h⟩ := bind_ok.mp h
    obtain ⟨rfl, rfl⟩ : -1 = ret' ∧ { s₂ with freePages := stack₂ } = t := by simpa using h
    have hF := hA.books.unmapPages hA.nodup huser h₂
    have hback : ∀ w, IsUser w → target s₂ w = target s w := by
      intro w hw
      by_cases hm : w ∈ mapped
      · rw [hF.gone w hm, (hA.sub w hm).2.1]
      · rw [hF.same w hw hm, hA.same w hw hm]
    refine ⟨lost, false,
      { books := hF.books.setFreePages _, sp := Nat.le_trans hF.sp hA.sp
        min := hF.min.trans hA.min, perm := ?_
        outside := fun w hw _ => hback w hw, already := fun w hw _ => hback w hw
        all := by simp, failed := fun _ => hback
        granted := hA.granted }, hhard, hA.wasted, rfl⟩
    rw [held_setFreePages]
    exact (hF.perm.append_left lost).trans hA.perm

/-- The call passes the check of the stack, and its range reaches a page that is mapped. -/
def Wasteful (s : State) (addr length : ℕ) : Prop :=
  length / 0x200000 ≤ s.freePages.length ∧
    ReachesMapped s s.freePages.length (pagesOf addr length)

theorem Books.mapRange (hB : Books L fixed s.freePages s) (hmin : 0 < s.ptPagesSpMin)
    (h : mapRange isSoft s addr length prot flags offset = .ok (ret, t)) :
    Admitted addr length ∧ ∃ lost ok, MapSpec L fixed (pagesOf addr length) s t lost ok ∧
      (isSoft = false → lost = []) ∧ (lost ≠ [] ↔ Wasteful s addr length) ∧
      ret = if ok then addr else mapFailed := by
  obtain he | ⟨rfl, rfl, rfl, hA⟩ := mapRange_checks isSoft s addr length prot flags offset
  · rw [he] at h
    cases h
  refine ⟨hA, ?_⟩
  rw [mapRange_eq hA] at h
  split at h
  next hnum =>
    split at h
    next h0 =>
      cases h
      have hno : pagesOf addr length = [] := by rw [pagesOf, h0]; rfl
      refine ⟨[], true, .refl hB (fun _ => hno) (iff_of_true rfl ?_), fun _ => rfl,
        iff_of_false (by simp) fun hw => ReachesMapped.nil (hno ▸ hw.2), rfl⟩
      rw [hno]
      exact affords_nil hB.num
    next =>
      obtain ⟨⟨ret', t'⟩, h₁, h⟩ := bind_ok.mp h
      obtain ⟨lost, ok, hM, hhard, hwaste, rfl⟩ := hB.allocPageLockRoutine hmin hA.2 h₁
      obtain ⟨hret, rfl⟩ : (if (if ok then (0 : ℤ) else -1) = 0 then addr else mapFailed) = ret ∧
          t' = t := by simpa using h
      refine ⟨lost, ok, hM, hhard, hwaste.trans ⟨fun hw => ⟨hnum, hw⟩, And.right⟩, ?_⟩
      rw [← hret]
      cases ok <;> simp
  next hnum =>
    cases h
    have hna : ¬ Affords s s.freePages.length (pagesOf addr length) :=
      not_affords_of_lt (by rw [pagesOf, length_rangePages]; omega)
    exact ⟨[], false, .refl hB (by simp) (iff_of_false (by simp) hna), fun _ => rfl,
      iff_of_false (by simp) fun hw => hnum hw.1, rfl⟩

/-- What `munmap` leaves. -/
structure UnmapSpec (L : Layout) (fixed : List (ℕ × ℕ)) (pages : List ℕ) (s t : State) : Prop where
  books : Books L fixed t.freePages t
  sp : t.ptPagesSp ≤ s.ptPagesSp
  min : t.ptPagesSpMin = s.ptPagesSpMin
  perm : (held fixed t.freePages t).Perm (held fixed s.freePages s)
  gone : ∀ v ∈ pages, target t v = none
  outside : ∀ w, IsUser w → w ∉ pages → target t w = target s w
  was : ∀ v ∈ pages, target s v ≠ none
  pushed : t.freePages = (pages.filterMap (target s)).reverse ++ s.freePages

theorem Books.munmap (hB : Books L fixed s.freePages s)
    (h : munmap s addr length = .ok (ret', t)) :
    Admitted addr length ∧ UnmapSpec L fixed (pagesOf addr length) s t := by
  obtain ⟨⟨⟩, hc, h⟩ := bind_ok.mp h
  have hA := checkRange_ok hc
  refine ⟨hA, ?_⟩
  simp only at h
  split at h
  · next h0 =>
    cases h
    have hno : pagesOf addr length = [] := by rw [pagesOf, h0]; rfl
    rw [hno]
    exact ⟨hB, le_rfl, rfl, .refl _, by simp, fun _ _ _ => rfl, by simp, by simp⟩
  · obtain ⟨⟨stack₁, s₁⟩, h₁, h⟩ := bind_ok.mp h
    cases h
    rw [freePagesLoop_eq] at h₁
    have hF := hB.unmapPages (rangePages_nodup _ _) (fun v hv => hA.2.mem hv) h₁
    refine ⟨hF.books.setFreePages _, hF.sp, hF.min, ?_, hF.gone, hF.same, hF.was, hF.pushed⟩
    rw [held_setFreePages]
    exact hF.perm

theorem checkMapLoop_eq {isMap : Bool} :
    checkMapLoop s isMap num v = true ↔ ∀ w ∈ rangePages num v, (target s w).isSome = isMap := by
  induction num generalizing v with
  | zero => simp [checkMapLoop, rangePages]
  | succ num ih => simp [checkMapLoop, rangePages, ptIsMap_eq, ih]

/-- Three values for three cases. -/
structure CheckSpec (pages : List ℕ) (s : State) (ret : ℤ) : Prop where
  allMapped : ret = mapAllMapped ↔ ∀ v ∈ pages, target s v ≠ none
  noMapped : ret = mapNoMapped ↔ ∀ v ∈ pages, target s v = none
  partMapped : ret = mapPartMapped ↔
    (∃ v ∈ pages, target s v ≠ none) ∧ ∃ v ∈ pages, target s v = none

theorem checkSpec_of {pages : List ℕ} (hv : v ∈ pages)
    (h : ret' = if ∀ w ∈ pages, (target s w).isSome = (target s v).isSome then
      (if (target s v).isSome then mapAllMapped else mapNoMapped) else mapPartMapped) :
    CheckSpec pages s ret' := by
  have hsome : ∀ w, (target s w).isSome = true ↔ target s w ≠ none := fun w =>
    Option.isSome_iff_ne_none
  have hnone : ∀ w, (target s w).isSome = false ↔ target s w = none := fun w =>
    Option.isSome_eq_false_iff.trans Option.isNone_iff_eq_none
  by_cases hall : ∀ w ∈ pages, (target s w).isSome = (target s v).isSome
  · rw [if_pos hall] at h
    cases hm : (target s v).isSome with
    | true =>
      have hmap : ∀ w ∈ pages, target s w ≠ none := fun w hw =>
        (hsome w).mp ((hall w hw).trans hm)
      obtain rfl : ret' = 1 := by simpa [hm, mapAllMapped] using h
      refine ⟨by simpa [mapAllMapped] using hmap, ?_, ?_⟩
      · simpa [mapNoMapped] using ⟨v, hv, hmap v hv⟩
      · simpa [mapPartMapped] using fun _ _ _ => hmap
    | false =>
      have hmap : ∀ w ∈ pages, target s w = none := fun w hw =>
        (hnone w).mp ((hall w hw).trans hm)
      obtain rfl : ret' = 0 := by simpa [hm, mapNoMapped] using h
      refine ⟨?_, by simpa [mapNoMapped] using hmap, ?_⟩
      · simpa [mapAllMapped] using ⟨v, hv, hmap v hv⟩
      · simpa [mapPartMapped] using fun w hw hn => absurd (hmap w hw) hn
  · rw [if_neg hall] at h
    obtain rfl : ret' = 2 := h
    push Not at hall
    obtain ⟨w, hw, hne⟩ := hall
    have hboth : (∃ u ∈ pages, target s u ≠ none) ∧ ∃ u ∈ pages, target s u = none := by
      cases hm : (target s v).isSome with
      | true => exact ⟨⟨v, hv, (hsome v).mp hm⟩, w, hw, by simpa [hm] using hne⟩
      | false => exact ⟨⟨w, hw, by simpa [hm] using hne⟩, v, hv, (hnone v).mp hm⟩
    obtain ⟨⟨a, ha, hsa⟩, b, hb, hnb⟩ := hboth
    refine ⟨?_, ?_, ?_⟩
    · simpa [mapAllMapped] using ⟨b, hb, hnb⟩
    · simpa [mapNoMapped] using ⟨a, ha, hsa⟩
    · simpa [mapPartMapped] using ⟨⟨a, ha, hsa⟩, b, hb, hnb⟩

theorem checkMap_spec (h : checkMap s addr length = .ok ret') :
    Admitted addr length ∧ CheckSpec (pagesOf addr length) s ret' := by
  obtain ⟨⟨⟩, hc, h⟩ := bind_ok.mp h
  have hA := checkRange_ok hc
  refine ⟨hA, ?_⟩
  simp only at h
  split at h
  · cases h
  · next h0 =>
    have hmem : addr ∈ pagesOf addr length := by
      unfold pagesOf
      rw [mem_rangePages hA.2.mod]
      exact ⟨hA.2.mod, le_rfl, by omega⟩
    refine checkSpec_of hmem ?_
    simp only [checkMapLoop_eq, ptIsMap_eq] at h
    unfold pagesOf
    split at h
    · next hall =>
      cases h
      rw [if_pos hall]
    · next hall =>
      cases h
      rw [if_neg hall]

end MyosIo.Mm
