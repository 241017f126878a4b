import MyosIo.Mm.Stack

/-! What the MMU finds through `kernel_pt1`, `kernel_pt2s` and a level-3 table: it knows physical
addresses only. The kernel image lies where it is mapped; a `PT_Page` lies where its `ph_addr`
says. With good books the walk and the software's directory agree. -/
namespace MyosIo.Mm

open Function

variable {L : Layout} {s : State} {v w q p a b : ℕ} {fixed : List (ℕ × ℕ)} {stack : List ℕ}

/-- Where physical address `a` is found among the level-3 tables. -/
def virtOf (s : State) (a : ℕ) : ℕ :=
  match (ptPages s.ptPagesSp).find? fun p => s.phAddr p = align2m a with
  | some p => p + a % 0x200000
  | none => a

/-- The 2 MiB page that `kernel_pt1` leads to; only 64 entries of `kernel_pt1` are present. -/
def walk (s : State) (v : ℕ) : Option ℕ :=
  if 64 ≤ i1 v then none
  else
    let e2 := s.kernelPt2s (i1 v) (i2 v)
    if e2 % 2 = 0 then none
    else
      let e3 := s.pageTables (virtOf s (e2 - e2 % 0x1000)) (i3 v)
      if e3 % 2 = 0 then none
      else if e3 / 2 ^ 7 % 2 = 0 then none
      else some (align2m e3)

/-- The physical page behind a `PT_Page` is behind no other one and behind no fixed mapping. -/
theorem Books.pool_nodup (hB : Books L fixed stack s) :
    ((ptPages s.ptPagesSp).map s.phAddr ++ fixed.map Prod.snd).Nodup := by
  have hn := hB.nodup
  unfold held at hn
  exact (List.nodup_append.mp (List.nodup_append.mp hn).2.1).2.1

theorem Books.pool_inj (hB : Books L fixed stack s) (hp : p ∈ ptPages s.ptPagesSp)
    (hq : q ∈ ptPages s.ptPagesSp) (h : s.phAddr p = s.phAddr q) : p = q :=
  List.inj_on_of_nodup_map (List.nodup_append.mp hB.pool_nodup).1 hp hq h

theorem Books.fixed_ne (hB : Books L fixed stack s) (hp : p ∈ ptPages s.ptPagesSp)
    (hq : (v, q) ∈ fixed) : s.phAddr p ≠ q :=
  (List.nodup_append.mp hB.pool_nodup).2.2 _ (List.mem_map_of_mem hp) _
    (List.mem_map_of_mem (f := Prod.snd) hq)

theorem virtOf_pool (hB : Books L fixed stack s) (hp : p ∈ ptPages s.ptPagesSp)
    (ha : align2m a = s.phAddr p) : virtOf s a = p + a % 0x200000 := by
  unfold virtOf
  cases hf : (ptPages s.ptPagesSp).find? fun p => s.phAddr p = align2m a with
  | none => exact absurd ha.symm (by simpa using List.find?_eq_none.mp hf p hp)
  | some p' =>
    have hp' := List.mem_of_find?_eq_some hf
    have he : s.phAddr p' = align2m a := by simpa using List.find?_some hf
    rw [hB.pool_inj hp' hp (he.trans ha)]

theorem virtOf_image (hB : Books L fixed stack s) (ha : (align2m a, align2m a) ∈ fixed) :
    virtOf s a = a := by
  unfold virtOf
  cases hf : (ptPages s.ptPagesSp).find? fun p => s.phAddr p = align2m a with
  | none => rfl
  | some p =>
    have he : s.phAddr p = align2m a := by simpa using List.find?_some hf
    exact absurd he (hB.fixed_ne (List.mem_of_find?_eq_some hf) ha)

/-- The table the MMU comes to is the table of the software's directory. -/
theorem Books.virtOf_slot (hB : Books L fixed stack s) (h0 : s.kernelVpt2s a b ≠ 0) :
    s.kernelPt2s a b % 2 = 1 ∧
      virtOf s (s.kernelPt2s a b - s.kernelPt2s a b % 0x1000) = s.kernelVpt2s a b := by
  have hT := hB.pt.tables
  by_cases hab : a = 0 ∧ b = 0
  · have hmod := L.nullPt3_mod
    rw [hab.1, hab.2, hT.null.1, hT.null.2]
    have hsub : L.nullPt3 + 3 - (L.nullPt3 + 3) % 0x1000 = L.nullPt3 := by omega
    rw [hsub]
    exact ⟨by omega, virtOf_image hB hB.null⟩
  · obtain ⟨ht, -, he⟩ := hT.used a b h0 hab
    generalize s.kernelVpt2s a b = t at ht he ⊢
    have hph := hT.phMod _ ht.page
    have hmod := ht.mod
    rw [phys] at he
    generalize hx : s.phAddr (align2m t) = x at he hph
    have hlt : t % 0x200000 < 0x200000 := Nat.mod_lt _ (by omega)
    have hsub : t % 0x200000 + x + 3 - (t % 0x200000 + x + 3) % 0x1000 = x + t % 0x200000 := by
      omega
    rw [he, hsub]
    refine ⟨by omega, ?_⟩
    rw [virtOf_pool hB ht.page ((align2m_add hph hlt).trans hx.symm), mod_add hph hlt]
    unfold align2m
    omega

theorem Books.walk_eq (hB : Books L fixed stack s) (hv : v % 0x200000 = 0) (hpos : 0 < v)
    (hlt : v < 2 ^ 48) : walk s v = target s v := by
  have hT := hB.pt.tables
  unfold walk
  by_cases h64 : 64 ≤ i1 v
  · rw [if_pos h64]
    symm
    rw [target_eq_none]
    refine entry_of_zero ?_
    by_contra h0
    have hab : ¬ (i1 v = 0 ∧ i2 v = 0) := fun h => by omega
    obtain ⟨ht, hf, -⟩ := hT.used _ _ h0 hab
    obtain ⟨a, b, ha, -, he⟩ := hT.owner _ ht hf
    have := (hT.inj _ _ a b h0 he).1
    omega
  · rw [if_neg h64]
    by_cases h0 : s.kernelVpt2s (i1 v) (i2 v) = 0
    · have hl : lookup s v = 0 := entry_of_zero h0
      rw [(hT.slot_iff _ _).mpr h0, target_eq_none.mpr hl]
      rfl
    · obtain ⟨hodd, hslot⟩ := hB.virtOf_slot h0
      have hl := lookup_eq h0
      simp only
      rw [if_neg (by omega), hslot, ← hl]
      by_cases he : lookup s v = 0
      · rw [he, target_eq_none.mpr he]
        rfl
      · have h000 : ¬ (i1 v = 0 ∧ i2 v = 0 ∧ i3 v = 0) := by
          unfold i1 i2 i3
          omega
        obtain ⟨ph, hph, hent⟩ := hT.entries _ _ _ (i3_lt v) h000 he
        have hent : lookup s v = pageEntry ph := hent
        rw [target_eq_some hent hph, hent, align2m_pageEntry hph, pageEntry_eq hph]
        rw [if_neg (by omega), if_neg (by omega)]

/-- Every 2 MiB page that is mapped, with the physical page behind it. -/
def mappedPairs (fixed : List (ℕ × ℕ)) (s : State) : List (ℕ × ℕ) :=
  userPages.filterMap (fun v => (target s v).map fun q => (v, q)) ++
    ((ptPages s.ptPagesSp).map (fun p => (p, s.phAddr p)) ++ fixed)

theorem held_eq (fixed : List (ℕ × ℕ)) (stack : List ℕ) (s : State) :
    held fixed stack s = stack ++ (mappedPairs fixed s).map Prod.snd := by
  unfold held mappedPairs
  rw [List.map_append, List.map_append, List.map_map, List.map_filterMap]
  simp only [Option.map_map]
  congr 2
  exact List.filterMap_congr fun v _ => by cases target s v <;> rfl

theorem Books.mem_mappedPairs (hB : Books L fixed stack s) (hv : v % 0x200000 = 0) (hpos : 0 < v)
    (hlt : v < 0x200000000000) (ht : target s v = some q) : (v, q) ∈ mappedPairs fixed s := by
  unfold mappedPairs
  by_cases hge : 0x40000000000 ≤ v
  · refine List.mem_append_left _ (List.mem_filterMap.mpr ⟨v, mem_userPages.mpr ⟨hv, hge, hlt⟩, ?_⟩)
    rw [ht]
    rfl
  · rcases hB.low v hv hpos (by omega) q ht with ⟨hp, rfl⟩ | hf
    · exact List.mem_append_right _ (List.mem_append_left _
        (List.mem_map_of_mem (f := fun p => (p, s.phAddr p)) hp))
    · exact List.mem_append_right _ (List.mem_append_right _ hf)

/-- Two 2 MiB pages never share a physical page. -/
theorem Books.target_inj (hB : Books L fixed stack s) (hv : v % 0x200000 = 0) (hv0 : 0 < v)
    (hv' : v < 0x200000000000) (hw : w % 0x200000 = 0) (hw0 : 0 < w) (hw' : w < 0x200000000000)
    (ht : target s v = some q) (ht' : target s w = some q) : v = w := by
  have hn := hB.nodup
  rw [held_eq] at hn
  have he := List.inj_on_of_nodup_map (List.nodup_append.mp hn).2.1
    (hB.mem_mappedPairs hv hv0 hv' ht) (hB.mem_mappedPairs hw hw0 hw' ht') rfl
  exact congrArg Prod.fst he

end MyosIo.Mm
