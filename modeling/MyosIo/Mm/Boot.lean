import MyosIo.Mm.Api
import MyosIo.Mm.Blocks
import MyosIo.Mm.Footprint
import Mathlib.Order.Interval.Finset.Nat

/-! The kernel image is mapped to itself through the first `PT_Page`, which `free_pts_num` does
not count until it is mapped too; from then on the books are kept. Filling the stack moves pages
from the iterator to the stack, to the array of the stack and to the pool. -/
namespace MyosIo.Mm

open Function

variable {L : Layout} {ram s s' : State} {first v w ph q t a b c n num : ℕ} {ident : List ℕ}
  {fixed : List (ℕ × ℕ)} {stack : List ℕ} {it it' : FreePagesIterator}

/-- `free_pts_num` as it is set after the first mappings. -/
def withNum (s : State) : State :=
  { s with freePtsNum := (s.freeIds firstPtPageVAddr).length }

/-- The static tables, with nothing on the list. -/
def bare (L : Layout) (ram : State) : State := { boot L ram with freePtPages := [] }

theorem bare_slot (hL : L.nullPt3 ≠ 0) :
    (bare L ram).kernelVpt2s a b ≠ 0 ↔ a = 0 ∧ b = 0 := by
  unfold bare boot set2
  by_cases h : a = 0 ∧ b = 0 <;> simp [h, hL]

theorem nullPt3_pos (hL : L.Loaded) : L.nullPt3 ≠ 0 := by
  have h1 := hL.low
  have h2 := L.kernel_le_nullPt3
  omega

theorem entry_bare (hL : L.Loaded) : entry (bare L ram) a b c =
    if a = 0 ∧ b = 0 then
      (if c = 0 then L.nullPt4 + 3 else if c < 8 then pageEntry (c * 0x200000) else 0)
    else 0 := by
  have hnull := nullPt3_pos hL
  unfold entry
  by_cases h : a = 0 ∧ b = 0
  · rw [if_neg ((bare_slot hnull).mpr h), if_pos h, h.1, h.2]
    simp [bare, boot]
  · rw [if_pos (not_not.mp fun hn => h ((bare_slot hnull).mp hn)), if_neg h]

theorem tableInv_bare (hL : L.Loaded) : TableInv L [] (bare L ram) where
  poolMod := by simp
  phMod := by simp
  nullPos := nullPt3_pos hL
  nullOut := by simp
  poolPos := by simp
  null := by simp [bare, boot]
  idsNodup := by simp
  idsLt := by simp
  used a b h0 hab := absurd ((bare_slot (nullPt3_pos hL)).mp h0) hab
  unused a b h0 := by
    have hab : ¬ (a = 0 ∧ b = 0) := fun h => (bare_slot (nullPt3_pos hL)).mpr h h0
    simp only [bare, boot]
    exact set2_of_ne _ hab
  inj a b a' b' h0 he := by
    obtain ⟨rfl, rfl⟩ := (bare_slot (nullPt3_pos hL)).mp h0
    exact (bare_slot (nullPt3_pos hL)).mp (he ▸ h0)
  owner t ht := by simpa using ht.page
  zero t ht := by simpa using ht.page
  entries a b c hc hn he := by
    rw [entry_bare hL] at he ⊢
    by_cases hab : a = 0 ∧ b = 0
    · rw [if_pos hab] at he ⊢
      have h0 : c ≠ 0 := fun h0 => hn ⟨hab.1, hab.2, h0⟩
      rw [if_neg h0] at he ⊢
      split at he
      · next h8 => exact ⟨c * 0x200000, Nat.mul_mod_left _ _, if_pos h8⟩
      · exact absurd rfl he
    · rw [if_neg hab] at he
      exact absurd rfl he

theorem listInv_bare : ListInv [] (bare L ram) :=
  ⟨List.nodup_nil, List.nodup_nil, fun p => by simp [bare]⟩

theorem withNum_init : withNum (initPtPage (boot L ram) firstPtPageVAddr first) =
    joinPool (bare L ram) firstPtPageVAddr first := by
  have hlen : ((initPtPage (boot L ram) firstPtPageVAddr first).freeIds firstPtPageVAddr).length =
      510 := by simp [initPtPage]
  unfold withNum
  rw [hlen]
  rfl

/-- While the first page fills: the pages in `ident` are mapped to themselves, nothing else is
mapped above page 0. -/
structure FirstInv (L : Layout) (first : ℕ) (ident : List ℕ) (s : State) : Prop where
  pt : PtInv L [firstPtPageVAddr] (withNum s)
  phAddr : s.phAddr firstPtPageVAddr = first
  nodup : ident.Nodup
  mod : ∀ v ∈ ident, v % 0x200000 = 0 ∧ 0 < v
  targets : ∀ v, v % 0x200000 = 0 → 0 < v → v < 2 ^ 45 →
    target s v = if v ∈ ident then some v else none
  sp : s.ptPagesSp = firstPtPageVAddr ∧ s.ptPagesSpMin = 0
  freePages : s.freePages = []

/-- The pages of `null_pt3` above the first. -/
def lowPages : List ℕ := rangePages 7 0x200000

theorem mem_lowPages : v ∈ lowPages ↔ v % 0x200000 = 0 ∧ 0x200000 ≤ v ∧ v < 0x1000000 :=
  mem_rangePages (by omega)

theorem target_withNum (s : State) : target (withNum s) = target s := rfl

theorem lookup_bare (hL : L.Loaded) (hv : v % 0x200000 = 0) (h0 : 0 < v) (hlt : v < 2 ^ 45) :
    lookup (bare L ram) v = if v ∈ lowPages then pageEntry v else 0 := by
  unfold lookup
  rw [entry_bare hL]
  by_cases hlow : v ∈ lowPages
  · obtain ⟨-, h1, h2⟩ := mem_lowPages.mp hlow
    have hi1 : i1 v = 0 := by unfold i1; omega
    have hi2 : i2 v = 0 := by unfold i2; omega
    have hi3 : i3 v = v / 2 ^ 21 := by unfold i3; omega
    rw [if_pos ⟨hi1, hi2⟩, hi3, if_neg (by omega), if_pos (by omega), if_pos hlow]
    congr 1
    omega
  · rw [if_neg hlow]
    rw [mem_lowPages] at hlow
    by_cases hab : i1 v = 0 ∧ i2 v = 0
    · have hi3 : i3 v = v / 2 ^ 21 := by
        unfold i1 i2 at hab
        unfold i3
        omega
      have hge : 8 ≤ v / 2 ^ 21 := by omega
      rw [if_pos hab, hi3, if_neg (by omega), if_neg (by omega)]
    · rw [if_neg hab]

theorem FirstInv.init (hL : L.Loaded) (hph : first % 0x200000 = 0)
    (hn : align2m L.nullPt3 ≠ firstPtPageVAddr) :
    FirstInv L first lowPages (initPtPage (boot L ram) firstPtPageVAddr first) := by
  have hJ : Joined L [] (bare L ram) (joinPool (bare L ram) firstPtPageVAddr first)
      firstPtPageVAddr := by
    refine (tableInv_bare hL).joinPool listInv_bare (by simp) ?_ ?_ hph (Ne.symm hn)
    · unfold firstPtPageVAddr
      omega
    · unfold firstPtPageVAddr
      omega
  refine
    { pt := ?_, phAddr := by simp [initPtPage], nodup := rangePages_nodup _ _
      mod := ?_, targets := ?_, sp := ⟨rfl, rfl⟩, freePages := rfl }
  rotate_left
  · intro v hv
    obtain ⟨h1, h2, -⟩ := mem_lowPages.mp hv
    exact ⟨h1, by omega⟩
  rotate_left
  · rw [withNum_init]
    refine ⟨hJ.inv, hJ.list, fun t ht hf => ?_, ?_⟩
    · have := (hJ.table_old t ht hf).1.page
      simp at this
    · have hsum := hJ.sum
      unfold NumOk
      rw [hsum]
      rfl
  · intro v hv h0 hlt
    rw [← target_withNum, withNum_init]
    unfold Mm.target
    have hsame : lookup (joinPool (bare L ram) firstPtPageVAddr first) v = lookup (bare L ram) v :=
      hJ.same _ _ _
    rw [hsame, lookup_bare hL hv h0 hlt]
    by_cases hlow : v ∈ lowPages
    · rw [if_pos hlow, if_pos hlow, if_neg (pageEntry_ne_zero hv), align2m_pageEntry hv]
    · rw [if_neg hlow, if_neg hlow, if_pos rfl]

/-- Before the switch of `cr3` the physical directory leads to the same tables. -/
theorem firstVirt_slot (hT : TableInv L [firstPtPageVAddr] s)
    (hph : s.phAddr firstPtPageVAddr = first)
    (hm : first % 0x200000 = 0) (hn : align2m L.nullPt3 ≠ first) (h0 : s.kernelVpt2s a b ≠ 0) :
    firstVirt first (s.kernelPt2s a b - s.kernelPt2s a b % 0x1000) = s.kernelVpt2s a b := by
  by_cases hab : a = 0 ∧ b = 0
  · have hmod := L.nullPt3_mod
    rw [hab.1, hab.2, hT.null.1, hT.null.2]
    have hsub : L.nullPt3 + 3 - (L.nullPt3 + 3) % 0x1000 = L.nullPt3 := by omega
    rw [hsub, firstVirt, if_neg hn]
  · obtain ⟨ht, -, he⟩ := hT.used a b h0 hab
    generalize s.kernelVpt2s a b = t at ht he ⊢
    have hpage : align2m t = firstPtPageVAddr := List.mem_singleton.mp ht.page
    have hmod := ht.mod
    rw [phys, hpage, hph] at he
    rw [he]
    have hsub : t % 0x200000 + first + 3 - (t % 0x200000 + first + 3) % 0x1000 =
        first + t % 0x200000 := by omega
    have hlt : t % 0x200000 < 0x200000 := Nat.mod_lt _ (by omega)
    rw [hsub, firstVirt, if_pos (align2m_add hm hlt), mod_add hm hlt, ← hpage]
    unfold align2m
    omega

theorem newPt3_withNum (hlist : s.freePtPages = [firstPtPageVAddr])
    (h : newPt3 s a b = .ok (t, s')) :
    newPt3 (withNum s) a b = .ok (t, withNum s') := by
  obtain ⟨page, rest, id, ids, hp, hi, rfl, rfl⟩ := newPt3_ok h
  obtain ⟨rfl, rfl⟩ : firstPtPageVAddr = page ∧ [] = rest := by simpa [hlist] using hp
  have hlen : ids.length = (id :: ids).length - 1 := rfl
  unfold newPt3
  simp only [withNum, hlist, hi, update_self, hlen]

/-- What `map_in_first_pt_page` does: it fills an entry of a table that is there, or takes a table
of the first page that is not the last one. -/
theorem FirstInv.mapIn_cases (hI : FirstInv L first ident s) (hm : first % 0x200000 = 0)
    (hn : align2m L.nullPt3 ≠ first) (h : mapInFirstPtPage first s ph v = .ok s') :
    (s.kernelVpt2s (i1 v) (i2 v) ≠ 0 ∧ s.pageTables (s.kernelVpt2s (i1 v) (i2 v)) (i3 v) = 0 ∧
      s' = setEntry (ptDecFreeEntrysNum s (s.kernelVpt2s (i1 v) (i2 v)))
        (s.kernelVpt2s (i1 v) (i2 v)) (i3 v) (pageEntry ph)) ∨
    (s.kernelVpt2s (i1 v) (i2 v) = 0 ∧ 1 < (s.freeIds firstPtPageVAddr).length ∧
      ∃ t s₁, newPt3 s (i1 v) (i2 v) = .ok (t, s₁) ∧ s' = setEntry s₁ t (i3 v) (pageEntry ph)) := by
  have hT := hI.pt.tables
  unfold mapInFirstPtPage at h
  split at h
  · next hk =>
    have h0 : (withNum s).kernelVpt2s (i1 v) (i2 v) ≠ 0 := fun h0 => hk (hT.unused _ _ h0)
    have hslot := firstVirt_slot hT hI.phAddr hm hn h0
    simp only at h
    rw [show firstVirt first (s.kernelPt2s (i1 v) (i2 v) - s.kernelPt2s (i1 v) (i2 v) % 0x1000) =
      s.kernelVpt2s (i1 v) (i2 v) from hslot] at h
    split at h
    · cases h
    · next he =>
      cases h
      exact Or.inl ⟨h0, not_not.mp he, rfl⟩
  · next hk =>
    have h0 : (withNum s).kernelVpt2s (i1 v) (i2 v) = 0 :=
      (hT.slot_iff _ _).mp (not_not.mp hk)
    split at h
    · cases h
    · next hl =>
      obtain ⟨⟨t, s₁⟩, h₁, h⟩ := bind_ok.mp h
      cases h
      exact Or.inr ⟨h0, by omega, t, s₁, h₁, rfl⟩

theorem FirstInv.mapIn (hI : FirstInv L first ident s) (hlist : s.freePtPages = [firstPtPageVAddr])
    (hm : first % 0x200000 = 0) (hn : align2m L.nullPt3 ≠ first) (hv : v < 2 ^ 45)
    (hph : ph % 0x200000 = 0) (h : mapInFirstPtPage first s ph v = .ok s') :
    Mapped L [firstPtPageVAddr] (withNum s) (withNum s') v ph ∧
      s'.freePtPages = [firstPtPageVAddr] := by
  rcases hI.mapIn_cases hm hn h with ⟨h0, he, rfl⟩ | ⟨h0, hl, t, s₁, h₁, rfl⟩
  · exact ⟨hI.pt.mapOld h0 he hph, hlist⟩
  · refine ⟨hI.pt.mapNew (newPt3_withNum hlist h₁) h0 hv hph, ?_⟩
    obtain ⟨page, rest, id, ids, hp, hi, rfl, rfl⟩ := newPt3_ok h₁
    obtain ⟨rfl, rfl⟩ : firstPtPageVAddr = page ∧ [] = rest := by simpa [hlist] using hp
    have hids : ids ≠ [] := by
      rintro rfl
      simp [hi] at hl
    simpa [setEntry, hids] using hlist

/-- A page of the kernel image is mapped to itself. -/
theorem FirstInv.step (hI : FirstInv L first ident s) (hw : v % 0x200000 = 0) (h0 : 0 < v)
    (hv : v < 2 ^ 45) (hM : Mapped L [firstPtPageVAddr] (withNum s) (withNum s') v v) :
    FirstInv L first (v :: ident) s' := by
  have hwas : target s v = none := target_eq_none.mpr hM.was
  have hnot : v ∉ ident := fun hm => by
    rw [hI.targets v hw h0 hv, if_pos hm] at hwas
    cases hwas
  refine
    { pt := hM.inv, phAddr := (congrFun hM.phAddr _).trans hI.phAddr
      nodup := List.nodup_cons.mpr ⟨hnot, hI.nodup⟩, mod := ?_, targets := ?_
      sp := ⟨hM.sp.1.trans hI.sp.1, hM.sp.2.trans hI.sp.2⟩
      freePages := hM.freePages.trans hI.freePages }
  · intro w hm
    rcases List.mem_cons.mp hm with rfl | hm
    · exact ⟨hw, h0⟩
    · exact hI.mod w hm
  · intro w hmod hpos hlt
    by_cases hwv : w = v
    · subst hwv
      rw [if_pos (by simp)]
      exact hM.sets.target_self hw
    · have hne : target s' w = target s w := hM.sets.target_ne hw hv hmod hlt hwv
      rw [hne, hI.targets w hmod hpos hlt]
      simp [hwv]

theorem FirstInv.mapKernel (hI : FirstInv L first ident s)
    (hlist : s.freePtPages = [firstPtPageVAddr]) (hm : first % 0x200000 = 0)
    (hn : align2m L.nullPt3 ≠ first) (hw : v % 0x200000 = 0) (h0 : 0 < v)
    (hv : v + num * 0x200000 ≤ 2 ^ 45) (h : mapKernel first num v s = .ok s') :
    FirstInv L first ((rangePages num v).reverse ++ ident) s' ∧
      s'.freePtPages = [firstPtPageVAddr] := by
  induction num generalizing v ident s with
  | zero =>
    cases h
    exact ⟨hI, hlist⟩
  | succ num ih =>
    obtain ⟨s₁, h₁, h⟩ := bind_ok.mp h
    obtain ⟨hM, hlist₁⟩ := hI.mapIn hlist hm hn (by omega) hw h₁
    have hI₁ := hI.step hw h0 (by omega) hM
    obtain ⟨hI', hlist'⟩ := ih hI₁ hlist₁ (by omega) (by omega) (by omega) h
    refine ⟨?_, hlist'⟩
    rw [rangePages, List.reverse_cons, List.append_assoc]
    exact hI'

theorem nullZeros_boot (L : Layout) (ram : State) : nullZeros L (boot L ram) = 504 := by
  have hz : ∀ i, (boot L ram).pageTables L.nullPt3 i = 0 ↔ 8 ≤ i := by
    intro i
    simp only [boot, if_true]
    by_cases h0 : i = 0
    · simp [h0]
    · by_cases h8 : i < 8
      · simp [h0, h8, pageEntry_ne_zero (Nat.mul_mod_left i 0x200000)]
      · exact iff_of_true (by simp [h0, h8]) (not_lt.mp h8)
  have hico : ((Finset.range 512).filter fun i => 8 ≤ i) = Finset.Ico 8 512 := by
    ext i
    simp [and_comm]
  unfold nullZeros zeros
  simp only [hz, hico]
  exact Nat.card_Ico 8 512

theorem image_boot (L : Layout) (ram : State) : Image L [] ram 504 (boot L ram) where
  freeEntrysNum _ _ _ _ := rfl
  freeIds _ _ := rfl
  phAddr _ _ := rfl
  pageTables t _ ht := by
    funext i
    exact if_neg ht
  spent := by
    rw [nullZeros_boot]
    rfl
  bound := (nullZeros_boot L ram).le
  still _ := rfl

theorem image_init (hn : align2m L.nullPt3 ≠ firstPtPageVAddr) :
    Image L [firstPtPageVAddr] ram 504
      (withNum (initPtPage (boot L ram) firstPtPageVAddr first)) := by
  have hl : Local [firstPtPageVAddr] (boot L ram)
      (initPtPage (boot L ram) firstPtPageVAddr first) :=
    local_initPtPage (by simp)
  exact (image_boot L ram).of_local
    ⟨hl.freeEntrysNum, hl.freeIds, hl.phAddr, hl.pageTables⟩ (by simp) (by simpa using hn)

theorem FirstInv.mapIn_image (hI : FirstInv L first ident s)
    (hlist : s.freePtPages = [firstPtPageVAddr]) (hm : first % 0x200000 = 0)
    (hn : align2m L.nullPt3 ≠ first) (hv : v < 2 ^ 45) (hph : ph % 0x200000 = 0)
    (hhigh : 0x40000000 ≤ L.kernelAlign2m → 0x40000000 ≤ v)
    (hi : Image L [firstPtPageVAddr] ram n (withNum s))
    (h : mapInFirstPtPage first s ph v = .ok s') :
    Image L [firstPtPageVAddr] ram n (withNum s') ∧
      (v < 0x40000000 → Image L [firstPtPageVAddr] ram (n - 1) (withNum s')) := by
  have hT := hI.pt.tables
  have hnull : v < 0x40000000 → i1 v = 0 ∧ i2 v = 0 := by
    unfold i1 i2
    omega
  rcases hI.mapIn_cases hm hn h with ⟨h0, he, rfl⟩ | ⟨h0, -, t, s₁, h₁, rfl⟩
  · refine ⟨hi.mapOld hI.pt h0 he hph hhigh hv, fun hlt => ?_⟩
    obtain ⟨ha, hb⟩ := hnull hlt
    have hslot : s.kernelVpt2s 0 0 = L.nullPt3 := hT.null.1
    rw [ha, hb, hslot] at he ⊢
    exact hi.mapNull (i3_lt v) (pageEntry_ne_zero hph) he (by omega)
  · refine ⟨?_, fun hlt => ?_⟩
    · exact hi.of_local (hI.pt.local_mapNew (newPt3_withNum hlist h₁)) (fun _ => id) hT.nullOut
    · obtain ⟨ha, hb⟩ := hnull hlt
      have hslot : s.kernelVpt2s 0 0 = L.nullPt3 := hT.null.1
      rw [ha, hb, hslot] at h0
      exact absurd h0 hT.nullPos

theorem FirstInv.mapKernel_image (hI : FirstInv L first ident s)
    (hlist : s.freePtPages = [firstPtPageVAddr]) (hm : first % 0x200000 = 0)
    (hn : align2m L.nullPt3 ≠ first) (hw : v % 0x200000 = 0) (h0 : 0 < v)
    (hv : v + num * 0x200000 ≤ 2 ^ 45) (hhigh : 0x40000000 ≤ L.kernelAlign2m → 0x40000000 ≤ v)
    (hi : Image L [firstPtPageVAddr] ram n (withNum s)) (h : Mm.mapKernel first num v s = .ok s') :
    Image L [firstPtPageVAddr] ram n (withNum s') ∧
      (0 < num → v < 0x40000000 → Image L [firstPtPageVAddr] ram (n - 1) (withNum s')) := by
  induction num generalizing v ident s n with
  | zero =>
    cases h
    exact ⟨hi, fun hpos => absurd hpos (lt_irrefl 0)⟩
  | succ num ih =>
    obtain ⟨s₁, h₁, h⟩ := bind_ok.mp h
    obtain ⟨hM, hlist₁⟩ := hI.mapIn hlist hm hn (by omega) hw h₁
    have hI₁ := hI.step hw h0 (by omega) hM
    obtain ⟨hi₁, hlow⟩ := hI.mapIn_image hlist hm hn (by omega) hw hhigh hi h₁
    have hhigh' : 0x40000000 ≤ L.kernelAlign2m → 0x40000000 ≤ v + 0x200000 := fun hh =>
      (hhigh hh).trans (Nat.le_add_right v _)
    refine ⟨(ih hI₁ hlist₁ (by omega) (by omega) (by omega) hhigh' hi₁ h).1, fun _ hlt => ?_⟩
    exact (ih hI₁ hlist₁ (by omega) (by omega) (by omega) hhigh' (hlow hlt) h).1

/-- The empty entries of `null_pt3` once the kernel image is mapped: through `null_pt3`, if the
image starts in the first gibibyte. -/
def emptyEntries (L : Layout) : ℕ := if L.kernelAlign2m < 0x40000000 then 503 else 504

theorem ptPages_first : ptPages firstPtPageVAddr = [firstPtPageVAddr] := by
  unfold ptPages
  rw [Nat.add_sub_cancel_left]
  simp

/-- The books are opened when the first `PT_Page` is mapped. -/
theorem FirstInv.books (hI : FirstInv L first ident s) (hlist : s'.freePtPages = [firstPtPageVAddr])
    (hM : Mapped L [firstPtPageVAddr] (withNum s) (withNum s') firstPtPageVAddr first)
    (hnull : align2m L.nullPt3 ∈ ident) (hlow : ∀ v ∈ ident, v < 0x200000000)
    (hmod : ∀ q ∈ first :: stack, q % 0x200000 = 0)
    (hnodup : (first :: stack ++ ident).Nodup) :
    Books L (ident.map fun v => (v, v)) stack (withNum s') ∧
      (∀ v, IsUser v → target (withNum s') v = none) := by
  have hfm : firstPtPageVAddr % 0x200000 = 0 := by unfold firstPtPageVAddr; omega
  have hflt : firstPtPageVAddr < 2 ^ 45 := by unfold firstPtPageVAddr; omega
  have hge : 0x200000000 ≤ firstPtPageVAddr := by unfold firstPtPageVAddr; omega
  have hfm' : first % 0x200000 = 0 := hmod first (by simp)
  have hsp : (withNum s').ptPagesSp = firstPtPageVAddr := hM.sp.1.trans hI.sp.1
  have hpa : (withNum s').phAddr firstPtPageVAddr = first :=
    (congrFun hM.phAddr _).trans hI.phAddr
  have hself : target (withNum s') firstPtPageVAddr = some first := hM.sets.target_self hfm'
  have hother : ∀ v, v % 0x200000 = 0 → 0 < v → v < 2 ^ 45 → v ≠ firstPtPageVAddr →
      target (withNum s') v = if v ∈ ident then some v else none := by
    intro v hv h0 hlt hne
    rw [hM.sets.target_ne hfm hflt hv hlt hne]
    exact hI.targets v hv h0 hlt
  have hnone : ∀ v, IsUser v → target (withNum s') v = none := by
    intro v hv
    have hge' := hv.ge
    have hne : v ≠ firstPtPageVAddr := by unfold firstPtPageVAddr; omega
    rw [hother v hv.mod (by omega) hv.lt45 hne, if_neg fun hm => ?_]
    have := hlow v hm
    omega
  have huser : userPages.filterMap (target (withNum s')) = [] :=
    List.filterMap_eq_nil_iff.mpr fun v hv => hnone v (mem_userPages.mp hv)
  have hids : ident.map (Prod.snd ∘ fun v => (v, v)) = ident := List.map_id _
  have hmem := (hM.inv.list.mem firstPtPageVAddr).mp (by simp [withNum, hlist])
  refine ⟨?_, hnone⟩
  refine
    { pt := by rw [hsp, ptPages_first]; exact hM.inv, num := List.length_pos_of_ne_nil hmem.2
      spMod := by rw [hsp]; exact hfm, spLe := hsp.le
      stackMod := fun q hq => hmod q (List.mem_cons_of_mem _ hq), nodup := ?_, window := ?_
      low := ?_, fixedAt := ?_, null := List.mem_map_of_mem hnull }
  · unfold held
    rw [huser, hsp, ptPages_first, List.map_singleton, hpa, List.map_map, hids, List.nil_append]
    exact List.perm_middle.nodup_iff.mpr hnodup
  · intro p hp
    rw [hsp, ptPages_first] at hp
    obtain rfl := List.mem_singleton.mp hp
    rw [hself, hpa]
  · intro v hv h0 hlt q ht
    by_cases hne : v = firstPtPageVAddr
    · subst hne
      rw [hsp, ptPages_first, hpa]
      exact Or.inl ⟨by simp, by simpa [hself] using ht.symm⟩
    · rw [hother v hv h0 (by omega) hne] at ht
      split at ht
      · next hm =>
        obtain rfl : v = q := by simpa using ht
        exact Or.inr (List.mem_map_of_mem (f := fun v => (v, v)) hm)
      · cases ht
  · intro v q hq
    obtain ⟨w, hw, he⟩ := List.mem_map.mp hq
    obtain ⟨rfl, rfl⟩ : w = v ∧ w = q := by simpa using he
    have hlt := hlow w hw
    obtain ⟨hmw, h0⟩ := hI.mod w hw
    have hne : w ≠ firstPtPageVAddr := by omega
    exact ⟨hmw, by omega, (hother w hmw h0 (by omega) hne).trans (if_pos hw)⟩

/-- The pages the loop over the kernel image maps. -/
theorem mem_kernelPages :
    v ∈ rangePages ((L.ekernel - L.kernelAlign2m + 0x1fffff) / 0x200000) L.kernelAlign2m ↔
      v % 0x200000 = 0 ∧ L.kernelAlign2m ≤ v ∧ v < L.ekernel := by
  have hm := kernelAlign2m_mod L
  rw [mem_rangePages hm]
  omega

theorem ekernel_le (L : Layout) :
    L.ekernel ≤ L.ekernelAlign8 ∧ L.ekernelAlign8 ≤ L.ekernelAlign2m := by
  unfold Layout.ekernelAlign2m Layout.ekernelAlign8
  omega

/-- `null_pt3` lies in the kernel image. -/
theorem nullPt3_in (L : Layout) :
    L.kernelAlign2m ≤ align2m L.nullPt3 ∧ align2m L.nullPt3 < L.ekernel := by
  have h1 := L.kernel_le_nullPt3
  have h2 := L.nullPt3_lt
  have h3 := align2m_le L.nullPt3
  refine ⟨?_, by omega⟩
  unfold Layout.kernelAlign2m align2m
  omega

theorem FreePage.ne_null (h : FreePage L q) : align2m L.nullPt3 ≠ q := by
  have h1 := nullPt3_in L
  have h2 := ekernel_le L
  have h3 := h.out
  omega

theorem mapFirst_books (hL : L.Loaded) (hpages : ∀ q ∈ first :: stack, FreePage L q)
    (hn : (first :: stack).Nodup) (h : mapFirst L ram first = .ok s) :
    ∃ fixed, Books L fixed stack s ∧ (∀ v, IsUser v → target s v = none) ∧
      (s.ptPagesSp = firstPtPageVAddr ∧ s.ptPagesSpMin = 0 ∧ s.freePages = []) ∧
      (∀ v, v % 0x200000 = 0 → L.kernelAlign2m ≤ v → v < L.ekernel → ∃ q, (v, q) ∈ fixed) ∧
      (∀ v q, (v, q) ∈ fixed → v < L.ekernel) ∧
      Image L (ptPages s.ptPagesSp) ram (emptyEntries L) s := by
  have hfirst := hpages first (by simp)
  have hka := hL.le_kernelAlign2m
  have hhigh := hL.high
  have hek := ekernel_le L
  have hnull := nullPt3_in L
  have hne : align2m L.nullPt3 ≠ firstPtPageVAddr := by unfold firstPtPageVAddr; omega
  obtain ⟨s₁, h₁, h⟩ := bind_ok.mp h
  obtain ⟨s₂, h₂, h⟩ := bind_ok.mp h
  obtain rfl : withNum s₂ = s := by simpa [withNum] using h
  obtain ⟨hI, hlist⟩ := (FirstInv.init hL hfirst.mod hne).mapKernel rfl hfirst.mod
    hfirst.ne_null (kernelAlign2m_mod L) (by omega) (by omega) h₁
  obtain ⟨hM, hlist'⟩ := hI.mapIn hlist hfirst.mod hfirst.ne_null
    (by unfold firstPtPageVAddr; omega) hfirst.mod h₂
  have hident : ∀ v, v ∈ (rangePages ((L.ekernel - L.kernelAlign2m + 0x1fffff) / 0x200000)
      L.kernelAlign2m).reverse ++ lowPages ↔
      v % 0x200000 = 0 ∧ (L.kernelAlign2m ≤ v ∧ v < L.ekernel ∨ 0x200000 ≤ v ∧ v < 0x1000000) := by
    intro v
    rw [List.mem_append, List.mem_reverse, mem_kernelPages, mem_lowPages]
    omega
  have himg : Image L [firstPtPageVAddr] ram (emptyEntries L) (withNum s₁) := by
    obtain ⟨hi, hlow⟩ := (FirstInv.init hL hfirst.mod hne).mapKernel_image rfl hfirst.mod
      hfirst.ne_null (kernelAlign2m_mod L) (by omega) (by omega) id (image_init hne) h₁
    unfold emptyEntries
    split
    · next hlt => exact hlow (by omega) hlt
    · exact hi
  have hfv : firstPtPageVAddr < 2 ^ 45 := by unfold firstPtPageVAddr; omega
  have hhigh' : 0x40000000 ≤ L.kernelAlign2m → 0x40000000 ≤ firstPtPageVAddr := fun _ => by
    unfold firstPtPageVAddr
    omega
  generalize (rangePages _ L.kernelAlign2m).reverse ++ lowPages = ident at hI hident
  obtain ⟨hB, hnone⟩ := hI.books hlist' hM ((hident _).mpr ⟨align2m_mod _, Or.inl hnull⟩)
    (fun v hv => by have := (hident v).mp hv; omega) (fun q hq => (hpages q hq).mod)
    (hn.append hI.nodup fun q hq hi => by
      have h1 := (hpages q hq).ge
      have h2 := (hpages q hq).out
      have h3 := (hident q).mp hi
      omega)
  have hsp : (withNum s₂).ptPagesSp = firstPtPageVAddr := hM.sp.1.trans hI.sp.1
  refine ⟨_, hB, hnone, ⟨hsp, hM.sp.2.trans hI.sp.2, hM.freePages.trans hI.freePages⟩,
    fun v hv h1 h2 => ⟨v, ?_⟩, fun v q hq => ?_, ?_⟩
  · exact List.mem_map_of_mem (f := fun v => (v, v)) ((hident v).mpr ⟨hv, Or.inl ⟨h1, h2⟩⟩)
  · obtain ⟨w, hw, he⟩ := List.mem_map.mp hq
    obtain ⟨rfl, rfl⟩ : w = v ∧ w = q := by simpa using he
    have hlow := hL.low
    have hin := (hident w).mp hw
    have h1 := L.kernel_le_nullPt3
    have h2 := L.nullPt3_lt
    omega
  · rw [hsp, ptPages_first]
    exact (hI.mapIn_image hlist hfirst.mod hfirst.ne_null hfv hfirst.mod hhigh' himg h₂).1

end MyosIo.Mm
