import MyosIo.Boot.Main
import MyosIo.Mm.Origin

/-! The kernel lies where the boot loader put it and finds its pages in the map that the boot
loader trimmed. Whatever it maps and unmaps, all its pages come from memory that the BIOS says is
usable. -/
namespace MyosIo.Boot

open E820 Mm

variable {map es : List E820Entry} {kernelSize pos q x : ℕ} {L : Layout} {ram s₀ s : State}
  {cs : List Call}

/-- The symbols of `kernel.ld` in a kernel of `kernelSize` bytes that is loaded to `pos`. -/
structure Linked (L : Layout) (pos kernelSize : ℕ) : Prop where
  kernel : L.kernel = pos
  ekernel : L.ekernel = pos + kernelSize

theorem Linked.kernelAlign2m (h : Linked L pos kernelSize) (hp : pos % 0x200000 = 0) :
    L.kernelAlign2m = pos := by
  rw [Layout.kernelAlign2m, h.kernel, align2m_of_mod hp]

theorem Linked.ekernelAlign2m (h : Linked L pos kernelSize) (hp : pos % 0x200000 = 0) :
    L.ekernelAlign2m = pos + kernelSizeAlign2m kernelSize := by
  unfold Layout.ekernelAlign2m Layout.ekernelAlign8 kernelSizeAlign2m
  rw [h.ekernel]
  omega

/-- The trimmed map is as the kernel wants it. -/
theorem Linked.memoryMap (h : Linked L pos kernelSize) (hk : 0 < kernelSize)
    (ht : Trimmed map es) (hp : KernelPlace map (kernelSizeAlign2m kernelSize) pos) :
    MemoryMap L es := by
  obtain ⟨type, extend, rfl⟩ | hsize := ht.form
  · exact .super rfl
  · have hspan : ∀ e ∈ es, span e = e.size := fun e he => span_of_pos (hsize e he).1
    have hpos : 0 < kernelSizeAlign2m kernelSize := by
      unfold kernelSizeAlign2m
      omega
    obtain ⟨e, he, hu, hroom⟩ := (canLoad_iff ht hpos).mpr hp
    have hstop := hroom.stop
    rw [hspan e he] at hstop
    refine .sorted ?_ (fun e he => (hsize e he).2) ⟨e, he, hu.1, hu.2, ?_, ?_⟩
    · exact ht.sorted.imp_of_mem fun ha _ hle => hspan _ ha ▸ hle
    · rw [h.kernelAlign2m hp.aligned]
      exact hroom.start
    · rwa [h.ekernelAlign2m hp.aligned]

/-- What is usable in the trimmed map is usable in the map. -/
theorem usableAt_of_inUsable {lo hi : ℕ} (ht : Trimmed map es) (h : InUsable es lo hi)
    (hlo : lo ≤ x) (hhi : x < hi) (hx : x < 2 ^ 64) : UsableAt map x := by
  obtain ⟨e, he, hu, hcase⟩ := h
  refine (usableAt_iff ht hx he ?_).mpr hu
  obtain ⟨rfl, hzero⟩ | ⟨h₁, h₂⟩ := hcase
  · obtain ⟨type, extend, heq⟩ | hsize := ht.form
    · obtain rfl := List.singleton_inj.mp heq
      exact ⟨Nat.zero_le _, (Nat.zero_add _).symm ▸ hx⟩
    · have := (hsize e he).1
      omega
  · refine ⟨Nat.le_trans h₁ hlo, ?_⟩
    have hpos : 0 < e.size := by omega
    rw [span_of_pos hpos]
    omega

/-- In a kernel at the place that the boot loader found, with the map that it trimmed, no page is
used twice along any run of the memory manager, and every page on the stack, mapped in [4T, 32T) or
behind a `PT_Page` is a page above 16M, outside the kernel, that the BIOS reported as usable. -/
theorem pages_usable (hL : Linked L pos kernelSize) (hk : 0 < kernelSize) (ht : Trimmed map es)
    (hp : KernelPlace map (kernelSizeAlign2m kernelSize) pos)
    (h₀ : kernelInitPart2 L ram es = .ok s₀) (h : Run Step s₀ cs s) :
    (pages s).Nodup ∧ ∀ q ∈ pages s, q % 0x200000 = 0 ∧ 0x1000000 ≤ q ∧
      (q + 0x200000 ≤ pos ∨ pos + kernelSize ≤ q) ∧
      ∀ x, q ≤ x → x < q + 0x200000 → UsableAt map x := by
  have hm := hL.memoryMap hk ht hp
  obtain ⟨fixed, hF, hmin⟩ := kernelInitPart2_filled hm h₀
  obtain ⟨hg, -, -⟩ := run_pages (hF.good hmin) h
  refine ⟨hg.pages_nodup, fun q hq => ?_⟩
  have ho := run_original hm h₀ h hq
  have hout := ho.out
  have hle := ho.le
  have hmod := ho.mod
  have haligned := hp.aligned
  rw [hL.kernelAlign2m haligned, hL.ekernelAlign2m haligned] at hout
  refine ⟨hmod, ho.ge, ?_, fun x h₁ h₂ => usableAt_of_inUsable ht ho.usable h₁ h₂ (by omega)⟩
  have hsize : kernelSize ≤ kernelSizeAlign2m kernelSize := by
    unfold kernelSizeAlign2m
    omega
  omega

theorem sampleMap_trimmed : Trimmed sampleMap sampleMap where
  form := .inr (by decide)
  sorted := List.pairwise_singleton _ _
  maximal := List.isChain_singleton _
  covered _ _ := Iff.rfl
  attributes x _ o ho _ := .inl fun e he _ => by
    rw [List.mem_singleton.mp ho, List.mem_singleton.mp he]
    exact ⟨rfl, rfl⟩

theorem pages_usable_sample : ∃ s₀ s, Run Step s₀
    [.mmap 0x40000000000 0x200000 protAll mapFlags 0 0x40000000000] s ∧
    ∀ q ∈ pages s, q + 0x200000 ≤ 0x1000000 ∨ 0x1411000 ≤ q := by
  obtain ⟨s₀, s₁, -, h₀, h₁, -⟩ := sample_run
  have hr := Run.refl.step (Step.mmap h₁)
  have hsize : kernelSizeAlign2m 0x411000 = 0x600000 := rfl
  have hspan : span ⟨0x1000000, 0x1000000, 1, 1⟩ = 0x1000000 := rfl
  have hp : KernelPlace sampleMap (kernelSizeAlign2m 0x411000) 0x1000000 := by
    refine ⟨by decide, by decide, by decide, fun x h₁ h₂ =>
      ⟨⟨_, .head _, h₁, ?_⟩, fun e he _ => ?_⟩⟩
    · rw [hsize] at h₂
      rw [hspan]
      dsimp only
      omega
    · rw [List.mem_singleton.mp he]
      exact ⟨rfl, rfl⟩
  have h := @pages_usable sampleMap sampleMap 0x411000 0x1000000 sampleLayout _ _ _ _ ⟨rfl, rfl⟩
    (by decide) sampleMap_trimmed hp h₀ hr
  exact ⟨s₀, s₁, hr, fun q hq => (h.2 q hq).2.2.1⟩

end MyosIo.Boot
