import MyosIo.Mm.Steady
import Mathlib.Order.CompletePartialOrder
import Mathlib.Order.Interval.Set.Basic

/-! The window of the `PT_Page`s grows down from 4T, the array of the stack grows up from the end
of the kernel image, and neither reaches the other or the image. So the kernel never maps a page
for itself that is mapped already. -/
namespace MyosIo.Mm

open Function

variable {L : Layout} {ram s₀ s s₁ t : State} {es : List E820Entry} {fixed : List (ℕ × ℕ)}
  {cs : List Call} {num addr length prot flags : ℕ} {offset : ℤ} {stack mapped : List ℕ}
  {it : FreePagesIterator}

/-- The end of the pages of `free_pages`: of the part in use while the array is built, and of all
of it from then on. -/
def arrayEnd (L : Layout) (s : State) : ℕ := roundup (max (slot L s) s.ptPagesSpMin)

/-- The window of the `PT_Page`s is [pt_pages_sp, 4T), and the page below it is free. -/
structure Separate (L : Layout) (s : State) : Prop where
  image_array : Disjoint (Set.Ico L.kernel L.ekernel) (Set.Ico L.ekernelAlign8 (arrayEnd L s))
  image_window : Disjoint (Set.Ico L.kernel L.ekernel) (Set.Ico s.ptPagesSp 0x40000000000)
  array_window : Disjoint (Set.Ico L.ekernelAlign8 (arrayEnd L s))
    (Set.Ico s.ptPagesSp 0x40000000000)
  array_le : arrayEnd L s ≤ freePagesVAddrMax
  mapped : ∀ i < s.freePages.length, target s (align2m (L.ekernelAlign8 + 8 * i)) ≠ none
  window_free : s.ptPagesSpMin + 0x200000 ≤ s.ptPagesSp → target s (s.ptPagesSp - 0x200000) = none

theorem ico_disjoint {a b c d : ℕ} (h : b ≤ c) : Disjoint (Set.Ico a b) (Set.Ico c d) :=
  Set.disjoint_left.mpr fun _ hx hy => absurd (hx.2.trans_le (h.trans hy.1)) (lt_irrefl _)

theorem separate_of {n : ℕ} (hend : arrayEnd L s = roundup n) (hn : n ≤ freePagesVAddrMax)
    (hek : L.ekernelAlign8 ≤ n) (hsp : roundup n ≤ s.ptPagesSp)
    (hm : ∀ i < s.freePages.length, target s (align2m (L.ekernelAlign8 + 8 * i)) ≠ none)
    (hf : s.ptPagesSpMin + 0x200000 ≤ s.ptPagesSp → target s (s.ptPagesSp - 0x200000) = none) :
    Separate L s where
  image_array := ico_disjoint (ekernel_le L).1
  image_window := ico_disjoint (((ekernel_le L).1.trans hek).trans ((le_roundup n).trans hsp))
  array_window := ico_disjoint (by rwa [hend])
  array_le := by
    rw [hend]
    exact roundup_le hn (by decide)
  mapped := hm
  window_free := hf

theorem ArrayMapped.target {n i : ℕ} (h : ArrayMapped L fixed n) (hB : Books L fixed stack s)
    (hi : i < n) : target s (align2m (L.ekernelAlign8 + 8 * i)) ≠ none := by
  obtain ⟨q, hq⟩ := h i hi
  simp [(hB.fixedAt _ _ hq).2.2]

/-- At the head of a round the page the array needs next is free. -/
theorem Ended.separate (h : Ended L ram fixed s) :
    Separate L s ∧ (slot L s % 0x200000 = 0 → target s (slot L s) = none) := by
  have hle := h.slot_le
  have hsp := h.sp_ge
  have hek : L.ekernelAlign8 ≤ slot L s := Nat.le_add_right _ _
  have hround := roundup_le hle (by decide)
  have hmod := h.books.spMod
  have hpos : 0 < slot L s := by
    have h1 := nullPt3_in L
    have h2 := ekernel_le L
    omega
  unfold freePagesVAddrMax at hle hround
  refine ⟨separate_of ?_ h.slot_le hek (by omega) (fun i hi => h.array.target h.books hi)
    fun _ => ?_, fun hs => ?_⟩
  · rw [arrayEnd, h.min, max_eq_left (Nat.zero_le _)]
  · exact h.books.free_above h.bounded (by omega) (by omega) (by omega) (by omega)
  · have hb := h.bounded
    rw [roundup_self hs] at hb
    exact h.books.free_above hb hs hpos le_rfl (by omega)

theorem ptUnmap_error {v : ℕ} {e : Fault} (h : ptUnmap s v = .error e) :
    e ≠ .abort "remap a page!\n" := by
  unfold ptUnmap at h
  simp only at h
  split at h
  · cases h
    simp
  split at h
  · cases h
    simp
  · cases h

theorem unmapPages_error {e : Fault} (h : unmapPages mapped stack s = .error e) :
    e ≠ .abort "remap a page!\n" := by
  induction mapped generalizing stack s with
  | nil => cases h
  | cons v mapped ih =>
    unfold unmapPages at h
    cases h₁ : ptUnmap s v with
    | error e' =>
      rw [h₁] at h
      cases h
      exact ptUnmap_error h₁
    | ok r =>
      rw [h₁] at h
      exact ih h

/-- No call remaps a page of the kernel's own: `mmap_soft` fails in its checks only, and `mmap`
there or at a page of its range that was mapped before. -/
structure NoOwnRemap (s : State) : Prop where
  soft : ∀ {addr length prot flags offset e},
    mmapSoft s addr length prot flags offset = .error e → e = .abort ""
  hard : ∀ {addr length prot flags offset e},
    mmap s addr length prot flags offset = .error e →
      e = .abort "" ∨ Wasteful s addr length
  munmap : ∀ {addr length e}, munmap s addr length = .error e → e ≠ .abort "remap a page!\n"

theorem Steady.noOwnRemap (hS : Steady L ram fixed s) (hB : Books L fixed s.freePages s) :
    NoOwnRemap s where
  soft h := (hS.mapRange_error hB h).resolve_right fun hs => by cases hs.1
  hard h := (hS.mapRange_error hB h).imp_right And.right
  munmap {addr length e} h := by
    unfold Mm.munmap at h
    cases hc : checkRange addr length with
    | error e' =>
      rw [hc] at h
      cases h
      rw [checkRange_error hc]
      simp
    | ok u =>
      rw [hc] at h
      change (if length / 0x200000 = 0 then _ else
        (freePagesLoop (length / 0x200000) addr s.freePages s >>= _)) = _ at h
      split at h
      · cases h
      · cases ha : freePagesLoop (length / 0x200000) addr s.freePages s with
        | error e' =>
          rw [ha] at h
          cases h
          rw [freePagesLoop_eq] at ha
          exact unmapPages_error ha
        | ok r =>
          rw [ha] at h
          cases h

theorem Ended.run (h : Ended L ram fixed s₁)
    (hr : Run Step { s₁ with ptPagesSpMin := slot L s₁ } cs s) : Separate L s ∧ NoOwnRemap s := by
  have hF := h.toFilled.setSpMin (slot L s₁)
  have hpos : 0 < slot L s₁ := h.steady.pos
  have hg := hF.good hpos
  have hgs := (run_pages hg hr).1
  have hS := run_steady hg h.steady hr
  have hlen := run_length hF hpos hr
  have hmin : s.ptPagesSpMin = slot L s₁ := run_min hg hr
  have hslot : slot L s ≤ s.ptPagesSpMin := by
    rw [hmin]
    exact Nat.add_le_add_left (Nat.mul_le_mul_left 8 hlen) _
  refine ⟨separate_of ?_ (hmin ▸ h.slot_le) hS.min hS.sp (fun i hi => ?_)
    fun hr => hS.free hgs.books hr rfl, hS.noOwnRemap hgs.books⟩
  · rw [arrayEnd, max_eq_right hslot]
  · exact hF.array.target hgs.books (Nat.lt_of_lt_of_le hi hlen)

/-- The rounds of the loop end in `buildStack L k`; all of them keep the mappings apart, and so do
all calls afterwards. -/
theorem internal_mappings_separate (hm : MemoryMap L es)
    (h : beforeStack L ram es = .ok (it, s₁)) :
    (∀ k ≤ stackRoom L, ∃ s, buildStack L k it s₁ = .ok s ∧ Separate L s ∧
      (slot L s % 0x200000 = 0 → target s (slot L s) = none)) ∧
    ∃ s₀, kernelInitPart2 L ram es = .ok s₀ ∧
      ∀ cs s, Run Step s₀ cs s → Separate L s ∧ NoOwnRemap s := by
  obtain ⟨hL, hfree, fixed, hF, hLaid⟩ := beforeStack_filling hm h
  have hroom := stackRoom_le hL hfree
  refine ⟨fun k hk => ?_, ?_⟩
  · obtain ⟨s, fixed', hs, hE⟩ := hF.buildStack hLaid
      (Nat.le_trans (Nat.add_le_add_left (Nat.mul_le_mul_left 8 hk) _) hroom)
    exact ⟨s, hs, hE.separate⟩
  · obtain ⟨s, fixed', hs, hE⟩ := hF.buildStack hLaid hroom
    refine ⟨{ s with ptPagesSpMin := slot L s }, ?_, fun cs t hr => hE.run hr⟩
    rw [kernelInitPart2_eq, h]
    exact bind_ok.mpr ⟨(it, s₁), rfl, bind_ok.mpr ⟨s, hs, rfl⟩⟩

theorem internal_mappings_separate_sample : ∃ it s₁ s,
    beforeStack sampleLayout zeroRam sampleMap = .ok (it, s₁) ∧
    buildStack sampleLayout 1 it s₁ = .ok s ∧ Separate sampleLayout s := by
  obtain ⟨s₀, -, -, h₀, -⟩ := sample_run
  rw [kernelInitPart2_eq] at h₀
  obtain ⟨⟨it, s₁⟩, h₁, -⟩ := bind_ok.mp h₀
  obtain ⟨s, hs, hsep, -⟩ := (internal_mappings_separate sampleMap_ok h₁).1 1 (by decide +kernel)
  exact ⟨it, s₁, s, h₁, hs, hsep⟩

end MyosIo.Mm
