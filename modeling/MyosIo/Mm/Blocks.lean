import MyosIo.Mm.Calls
import Mathlib.Data.List.Pairwise

/-! The blocks made of the E820 array are page aligned, lie above 16M in increasing order and
leave the kernel image out, so the pages the iterator hands out are distinct. -/
namespace MyosIo.Mm

open Function

variable {addr size : ℕ} {L : Layout} {es : List E820Entry} {e : E820Entry}
  {blocks blocks' rest : List FreeMemoryBlock}
  {b : FreeMemoryBlock} {it it' : FreePagesIterator} {q v lo : ℕ}

/-- The checks at the start of `kernel_init_part2`. -/
structure Layout.Loaded (L : Layout) : Prop where
  low : 0x1000000 ≤ L.kernel
  high : L.ekernel ≤ 0x100000000

namespace Layout.Loaded

variable (hL : L.Loaded)

include hL

theorem le_kernelAlign2m : 0x1000000 ≤ L.kernelAlign2m := by
  have h := hL.low
  unfold Layout.kernelAlign2m align2m
  omega

theorem ekernelAlign2m_le : L.ekernelAlign2m ≤ 0x100000000 := by
  have h := hL.high
  unfold Layout.ekernelAlign2m Layout.ekernelAlign8
  omega

end Layout.Loaded

theorem sampleLayout_loaded : sampleLayout.Loaded := ⟨by decide, by decide⟩

theorem kernel_in (L : Layout) : L.kernelAlign2m ≤ L.kernel ∧ L.kernel < L.ekernelAlign2m := by
  have h1 := L.kernel_le_nullPt3
  have h2 := L.nullPt3_lt
  unfold Layout.kernelAlign2m Layout.ekernelAlign2m Layout.ekernelAlign8 align2m
  omega

theorem kernelAlign2m_lt (L : Layout) : L.kernelAlign2m < L.ekernelAlign2m :=
  (kernel_in L).1.trans_lt (kernel_in L).2

theorem kernelAlign2m_mod (L : Layout) : L.kernelAlign2m % 0x200000 = 0 := align2m_mod _

theorem ekernelAlign2m_mod (L : Layout) : L.ekernelAlign2m % 0x200000 = 0 := Nat.mul_mod_left _ _

/-- A block of free pages. -/
structure Free (L : Layout) (b : FreeMemoryBlock) : Prop where
  mod : b.addr % 0x200000 = 0
  sizeMod : b.size % 0x200000 = 0
  pos : 0 < b.size
  ge : 0x1000000 ≤ b.addr
  le : b.addr + b.size ≤ 2 ^ 64
  out : b.addr + b.size ≤ L.kernelAlign2m ∨ L.ekernelAlign2m ≤ b.addr

/-- Free blocks in increasing order that end below `lo`. -/
structure Sorted (L : Layout) (lo : ℕ) (blocks : List FreeMemoryBlock) : Prop where
  free : ∀ b ∈ blocks, Free L b
  order : blocks.Pairwise fun a b => a.addr + a.size ≤ b.addr
  below : ∀ b ∈ blocks, b.addr + b.size ≤ lo

theorem Sorted.nil (L : Layout) (lo : ℕ) : Sorted L lo [] := ⟨by simp, List.Pairwise.nil, by simp⟩

theorem Sorted.mono {lo' : ℕ} (h : Sorted L lo blocks) (hle : lo ≤ lo') : Sorted L lo' blocks :=
  ⟨h.free, h.order, fun b hb => (h.below b hb).trans hle⟩

theorem Sorted.add {addr size : ℕ} (h : Sorted L lo blocks) (hb : Free L ⟨addr, size⟩)
    (hlo : lo ≤ addr) (ha : addBlock blocks addr size = .ok blocks') :
    Sorted L (addr + size) blocks' := by
  unfold addBlock at ha
  split at ha
  · cases ha
  cases ha
  refine ⟨?_, ?_, ?_⟩
  · intro b hm
    rcases List.mem_append.mp hm with hm | hm
    · exact h.free b hm
    · exact List.mem_singleton.mp hm ▸ hb
  · refine List.pairwise_append.mpr ⟨h.order, List.pairwise_singleton _ _, ?_⟩
    intro b hm c hc
    obtain rfl := List.mem_singleton.mp hc
    exact (h.below b hm).trans hlo
  · intro b hm
    rcases List.mem_append.mp hm with hm | hm
    · exact (h.below b hm).trans (hlo.trans (Nat.le_add_right _ _))
    · exact List.mem_singleton.mp hm ▸ le_rfl

/-- The kernel image lies inside the entry or outside it. -/
inductive Placed (L : Layout) (e : E820Entry) : Prop
  | inside (h₁ : e.addr ≤ L.kernelAlign2m) (h₂ : L.ekernelAlign2m ≤ e.addr + e.size)
  | below (h : e.addr + e.size ≤ L.kernelAlign2m)
  | above (h : L.ekernelAlign2m ≤ e.addr)

/-- The whole pages of an entry from 16M on, but for the first one when the entry starts above
16M. -/
structure Span (e : E820Entry) (addr size : ℕ) : Prop where
  mod : addr % 0x200000 = 0
  sizeMod : size % 0x200000 = 0
  pos : 0 < size
  ge : 0x1000000 ≤ addr
  lo : e.addr ≤ addr
  hi : addr + size = align2m (e.addr + e.size)
  first : addr = 0x1000000 ∨ addr ≤ align2m e.addr + 0x200000

theorem pad_mod (e : E820Entry) : (e.addr + pad e) % 0x200000 = 0 := by
  unfold pad
  split <;> omega

theorem pad_ge (e : E820Entry) : 0x1000000 ≤ e.addr + pad e := by
  unfold pad
  split <;> omega

theorem pad_first (e : E820Entry) :
    e.addr + pad e = 0x1000000 ∨ e.addr + pad e ≤ align2m e.addr + 0x200000 := by
  unfold pad align2m
  split <;> omega

theorem pad_hi (hp : pad e < e.size) :
    e.addr + pad e + align2m (e.size - pad e) = align2m (e.addr + e.size) := by
  have h := pad_mod e
  unfold align2m
  omega

theorem span_pad (hp : pad e < e.size) (h : align2m (e.size - pad e) ≠ 0) :
    Span e (e.addr + pad e) (align2m (e.size - pad e)) :=
  ⟨pad_mod e, align2m_mod _, Nat.pos_of_ne_zero h, pad_ge e, Nat.le_add_right _ _, pad_hi hp,
    pad_first e⟩

/-- The pages of the entry become one block, or the two on both sides of the kernel image. -/
def Adds (L : Layout) (e : E820Entry) (addr size : ℕ) (blocks blocks' : List FreeMemoryBlock) :
    Prop :=
  (e.addr ≤ L.kernel ∧ sub64 L.ekernelAlign2m addr ≤ size ∧ ∃ blocks₁,
    (if L.kernelAlign2m > addr then addBlock blocks addr (L.kernelAlign2m - addr)
      else .ok blocks) = .ok blocks₁ ∧
    (if sub64 L.ekernelAlign2m addr ≠ size then
      addBlock blocks₁ L.ekernelAlign2m (size - sub64 L.ekernelAlign2m addr)
      else .ok blocks₁) = .ok blocks') ∨
  (¬ (e.addr ≤ L.kernel ∧ sub64 L.ekernelAlign2m addr ≤ size) ∧
    addBlock blocks addr size = .ok blocks')

/-- The entry has whole pages from its padding on. -/
theorem addEntry_span (he : e.addr + e.size ≤ 2 ^ 64) (hu : e.type = 1 ∧ e.extend = 1)
    (hp : pad e < e.size) (hz : align2m (e.size - pad e) ≠ 0)
    (h : addEntry L blocks e = .ok blocks') : ∃ addr size, addr = e.addr + pad e ∧
      Span e addr size ∧ Adds L e addr size blocks blocks' := by
  unfold addEntry at h
  rw [if_neg (by omega), if_neg (by omega)] at h
  simp only at h
  rw [if_neg hz, Nat.mod_eq_of_lt (show e.addr + pad e < 2 ^ 64 by omega)] at h
  have hs := span_pad hp hz
  generalize haddr : e.addr + pad e = addr at h hs
  generalize align2m (e.size - pad e) = size at h hs
  refine ⟨addr, size, rfl, hs, ?_⟩
  split at h
  · next hc =>
    refine Or.inl ⟨hc.1, hc.2, ?_⟩
    split at h
    · next hk =>
      obtain ⟨blocks₁, h₁, h⟩ := bind_ok.mp h
      exact ⟨blocks₁, (if_pos hk).trans h₁, h⟩
    · next hk =>
      obtain ⟨blocks₁, h₁, h⟩ := bind_ok.mp h
      exact ⟨blocks₁, (if_neg hk).trans h₁, h⟩
  · next hc => exact Or.inr ⟨hc, h⟩

theorem addEntry_ok (he : e.addr + e.size ≤ 2 ^ 64) (h : addEntry L blocks e = .ok blocks') :
    blocks' = blocks ∨ (e.type = 1 ∧ e.extend = 1) ∧ ∃ addr size, addr = e.addr + pad e ∧
      Span e addr size ∧ Adds L e addr size blocks blocks' := by
  have hspan := addEntry_span he (h := h)
  unfold addEntry at h
  split at h
  · cases h
    exact Or.inl rfl
  next htype =>
  split at h
  · cases h
    exact Or.inl rfl
  next hpad =>
  simp only at h
  split at h
  · cases h
    exact Or.inl rfl
  next hsize =>
  have hu : e.type = 1 ∧ e.extend = 1 := by omega
  exact Or.inr ⟨hu, hspan hu (not_le.mp hpad) hsize⟩

theorem sub64_eq {a c : ℕ} (h : c ≤ a) (ha : a < 2 ^ 64) : sub64 a c = a - c := by
  unfold sub64
  omega

theorem sub_mod {a c : ℕ} (ha : a % 0x200000 = 0) (hc : c % 0x200000 = 0) :
    (a - c) % 0x200000 = 0 := by
  omega

theorem Span.le (h : Span e addr size) : addr + size ≤ e.addr + e.size := h.hi ▸ align2m_le _

/-- The entry with the kernel image reaches to its end. -/
theorem Span.reach (h : Span e addr size) (h₁ : e.addr ≤ L.kernelAlign2m)
    (h₂ : L.ekernelAlign2m ≤ e.addr + e.size) (hL : L.Loaded) :
    addr ≤ L.ekernelAlign2m ∧ L.ekernelAlign2m ≤ addr + size := by
  have hka := hL.le_kernelAlign2m
  have hlt := kernelAlign2m_lt L
  have hkm := kernelAlign2m_mod L
  have hem := ekernelAlign2m_mod L
  constructor
  · rcases h.first with hf | hf
    · omega
    · unfold align2m at hf
      omega
  · rw [h.hi]
    unfold align2m
    omega

/-- The test of `kernel_init_part2` finds the entry with the kernel image. -/
theorem Span.inside_iff (h : Span e addr size) (hL : L.Loaded) (hp : Placed L e) :
    (e.addr ≤ L.kernel ∧ sub64 L.ekernelAlign2m addr ≤ size) ↔
      e.addr ≤ L.kernelAlign2m ∧ L.ekernelAlign2m ≤ e.addr + e.size := by
  have hle := h.le
  have hpos := h.pos
  have hin := kernel_in L
  have hek := hL.ekernelAlign2m_le
  cases hp with
  | inside h₁ h₂ =>
    obtain ⟨h3, h4⟩ := h.reach h₁ h₂ hL
    rw [sub64_eq h3 (by omega)]
    exact iff_of_true ⟨h₁.trans hin.1, by omega⟩ ⟨h₁, h₂⟩
  | below hb =>
    have hlo := h.lo
    rw [sub64_eq (by omega) (by omega)]
    exact iff_of_false (fun hc => by omega) fun hc => by omega
  | above hb => exact iff_of_false (fun hc => by omega) fun hc => by omega

/-- The part of the entry below the kernel image. -/
theorem Sorted.before (hL : L.Loaded) (h : Sorted L e.addr blocks) (hs : Span e addr size)
    (h₁ : e.addr ≤ L.kernelAlign2m)
    (ha : (if L.kernelAlign2m > addr then addBlock blocks addr (L.kernelAlign2m - addr)
      else .ok blocks) = .ok blocks') : Sorted L L.ekernelAlign2m blocks' := by
  have hlt := kernelAlign2m_lt L
  have hek := hL.ekernelAlign2m_le
  have hkm := kernelAlign2m_mod L
  have hm := hs.mod
  split at ha
  · next hk =>
    have hend : addr + (L.kernelAlign2m - addr) = L.kernelAlign2m := by omega
    refine (h.add ⟨hm, ?_, Nat.sub_pos_of_lt hk, hs.ge, ?_, Or.inl hend.le⟩ hs.lo ha).mono ?_
    · exact sub_mod hkm hm
    · exact hend.le.trans (by omega)
    · exact hend.le.trans hlt.le
  · cases ha
    exact h.mono (h₁.trans hlt.le)

/-- The part above it. -/
theorem Sorted.after (hL : L.Loaded) (h : Sorted L L.ekernelAlign2m blocks) (hs : Span e addr size)
    (hr₁ : addr ≤ L.ekernelAlign2m) (hr₂ : L.ekernelAlign2m ≤ addr + size)
    (he : e.addr + e.size ≤ 2 ^ 64)
    (ha : (if L.ekernelAlign2m - addr ≠ size then
      addBlock blocks L.ekernelAlign2m (size - (L.ekernelAlign2m - addr)) else .ok blocks) =
        .ok blocks') : Sorted L (addr + size) blocks' := by
  have hge := hL.le_kernelAlign2m
  have hlt := kernelAlign2m_lt L
  have hem := ekernelAlign2m_mod L
  have hend := hs.le
  split at ha
  · next hne =>
    have hsum : L.ekernelAlign2m + (size - (L.ekernelAlign2m - addr)) = addr + size := by omega
    refine (h.add ⟨hem, sub_mod hs.sizeMod (sub_mod hem hs.mod), Nat.sub_pos_of_lt (by omega),
      hge.trans hlt.le, ?_, Or.inr le_rfl⟩ le_rfl ha).mono hsum.le
    exact hsum.le.trans (hend.trans he)
  · cases ha
    exact h.mono hr₂

theorem Sorted.addEntry (hL : L.Loaded) (h : Sorted L e.addr blocks) (he : e.addr + e.size ≤ 2 ^ 64)
    (hp : Placed L e) (ha : addEntry L blocks e = .ok blocks') :
    Sorted L (e.addr + e.size) blocks' := by
  rcases addEntry_ok he ha with rfl | ⟨-, addr, size, -, hs, hcase⟩
  · exact h.mono (Nat.le_add_right _ _)
  have hend := hs.le
  have hiff := hs.inside_iff hL hp
  rcases hcase with ⟨hk, hsub, blocks₁, h₁, h₂⟩ | ⟨hno, h₁⟩
  · obtain ⟨hi₁, hi₂⟩ := hiff.mp ⟨hk, hsub⟩
    obtain ⟨hr₁, hr₂⟩ := hs.reach hi₁ hi₂ hL
    rw [sub64_eq hr₁ (by have := hL.ekernelAlign2m_le; omega)] at h₂
    exact ((h.before hL hs hi₁ h₁).after hL hs hr₁ hr₂ he h₂).mono hend
  · have hout : addr + size ≤ L.kernelAlign2m ∨ L.ekernelAlign2m ≤ addr := by
      cases hp with
      | below hb => exact Or.inl (hend.trans hb)
      | above hb => exact Or.inr (hb.trans hs.lo)
      | inside h₁ h₂ => exact absurd (hiff.mpr ⟨h₁, h₂⟩) hno
    exact (h.add ⟨hs.mod, hs.sizeMod, hs.pos, hs.ge, hend.trans he, hout⟩ hs.lo h₁).mono hend

/-- The block lies in the entry. -/
def Within (e : E820Entry) (b : FreeMemoryBlock) : Prop :=
  (e.type = 1 ∧ e.extend = 1) ∧ e.addr ≤ b.addr ∧ b.addr + b.size ≤ e.addr + e.size

theorem addBlock_mem (h : addBlock blocks addr size = .ok blocks') :
    b ∈ blocks' ↔ b ∈ blocks ∨ b = ⟨addr, size⟩ := by
  unfold addBlock at h
  split at h
  · cases h
  · cases h
    simp

/-- The new blocks lie in the entry, behind its padding. -/
theorem addEntry_within (hL : L.Loaded) (he : e.addr + e.size ≤ 2 ^ 64) (hp : Placed L e)
    (ha : addEntry L blocks e = .ok blocks') (hb : b ∈ blocks') :
    b ∈ blocks ∨ Within e b ∧ e.addr + pad e ≤ b.addr := by
  rcases addEntry_ok he ha with rfl | ⟨hu, addr, size, rfl, hs, hcase⟩
  · exact Or.inl hb
  have hend := hs.le
  have hlo := hs.lo
  have hlt := kernelAlign2m_lt L
  have hiff := hs.inside_iff hL hp
  rcases hcase with ⟨hk, hsub, blocks₁, h₁, h₂⟩ | ⟨-, h₁⟩
  · obtain ⟨hi₁, hi₂⟩ := hiff.mp ⟨hk, hsub⟩
    obtain ⟨hr₁, hr₂⟩ := hs.reach hi₁ hi₂ hL
    rw [sub64_eq hr₁ (by have := hL.ekernelAlign2m_le; omega)] at h₂
    have hb₁ : b ∈ blocks₁ ∨ Within e b ∧ e.addr + pad e ≤ b.addr := by
      split at h₂
      · refine ((addBlock_mem h₂).mp hb).imp_right ?_
        rintro rfl
        exact ⟨⟨hu, by simp only; omega, by simp only; omega⟩, hr₁⟩
      · cases h₂
        exact Or.inl hb
    rcases hb₁ with hb₁ | hw
    · split at h₁
      · refine ((addBlock_mem h₁).mp hb₁).imp_right ?_
        rintro rfl
        exact ⟨⟨hu, hlo, by simp only; omega⟩, Nat.le_refl _⟩
      · cases h₁
        exact Or.inl hb₁
    · exact Or.inr hw
  · refine ((addBlock_mem h₁).mp hb).imp_right ?_
    rintro rfl
    exact ⟨⟨hu, hlo, hend⟩, Nat.le_refl _⟩

theorem addEntries_within (hL : L.Loaded) (he : ∀ e ∈ es, e.addr + e.size ≤ 2 ^ 64)
    (hp : ∀ e ∈ es, Placed L e) (ha : addEntries L blocks es = .ok blocks') (hb : b ∈ blocks') :
    b ∈ blocks ∨ ∃ e ∈ es, Within e b ∧ e.addr + pad e ≤ b.addr := by
  induction es generalizing blocks with
  | nil =>
    cases ha
    exact Or.inl hb
  | cons e es ih =>
    obtain ⟨blocks₁, h₁, ha⟩ := bind_ok.mp ha
    rcases ih (fun e he' => he e (List.mem_cons_of_mem _ he'))
      (fun e he' => hp e (List.mem_cons_of_mem _ he')) ha with h | ⟨e', he', hw⟩
    · rcases addEntry_within hL (he e (by simp)) (hp e (by simp)) h₁ h with h | hw
      · exact Or.inl h
      · exact Or.inr ⟨e, by simp, hw⟩
    · exact Or.inr ⟨e', List.mem_cons_of_mem _ he', hw⟩

theorem Sorted.addEntries (hL : L.Loaded) (hs : es.Pairwise fun a b => a.addr + a.size ≤ b.addr)
    (hb : ∀ e ∈ es, e.addr + e.size ≤ 2 ^ 64) (hp : ∀ e ∈ es, Placed L e)
    (h : Sorted L lo blocks) (hlo : ∀ e ∈ es, lo ≤ e.addr)
    (ha : addEntries L blocks es = .ok blocks') : ∃ lo, Sorted L lo blocks' := by
  induction es generalizing blocks lo with
  | nil =>
    cases ha
    exact ⟨lo, h⟩
  | cons e es ih =>
    obtain ⟨blocks₁, h₁, ha⟩ := bind_ok.mp ha
    obtain ⟨hs₁, hs⟩ := List.pairwise_cons.mp hs
    have hS := (h.mono (hlo e (by simp))).addEntry hL (hb e (by simp)) (hp e (by simp)) h₁
    exact ih hs (fun e he => hb e (List.mem_cons_of_mem _ he))
      (fun e he => hp e (List.mem_cons_of_mem _ he)) hS hs₁ ha

/-- The entries of the array other than the one with the kernel image do not touch it. -/
theorem placed_of_mem {k : E820Entry} (hs : es.Pairwise fun a b => a.addr + a.size ≤ b.addr)
    (hk : k ∈ es) (h₁ : k.addr ≤ L.kernelAlign2m) (h₂ : L.ekernelAlign2m ≤ k.addr + k.size)
    (he : e ∈ es) : Placed L e := by
  by_cases hek : e = k
  · subst hek
    exact .inside h₁ h₂
  · rcases (pairwise_cases hs he hk).resolve_left hek with h | h
    · exact .below (h.trans h₁)
    · exact .above (h₂.trans h)

theorem superBlocks_sorted (hL : L.Loaded) (h : superBlocks L e = .ok blocks) :
    ∃ lo, Sorted L lo blocks := by
  have hka := hL.le_kernelAlign2m
  have hlt := kernelAlign2m_lt L
  have hek := hL.ekernelAlign2m_le
  have hkm := kernelAlign2m_mod L
  have hem := ekernelAlign2m_mod L
  have hsub : L.ekernelAlign2m + (2 ^ 64 - 1 - L.ekernelAlign2m + 1) = 2 ^ 64 := by omega
  have hsize : (2 ^ 64 - 1 - L.ekernelAlign2m + 1) % 0x200000 = 0 := by omega
  unfold superBlocks at h
  split at h
  · cases h
  have hS : ∀ blocks₁, (if L.kernelAlign2m ≠ 0x1000000 then
      addBlock [] 0x1000000 (L.kernelAlign2m - 0x1000000) else .ok []) = .ok blocks₁ →
      Sorted L L.kernelAlign2m blocks₁ := by
    intro blocks₁ h₁
    split at h₁
    · next hne =>
      have hend : 0x1000000 + (L.kernelAlign2m - 0x1000000) = L.kernelAlign2m := by omega
      have hf : Free L ⟨0x1000000, L.kernelAlign2m - 0x1000000⟩ :=
        { mod := by simp only, sizeMod := sub_mod hkm (by decide)
          pos := Nat.sub_pos_of_lt (by omega), ge := Nat.le_refl _
          le := hend.le.trans (by omega), out := Or.inl hend.le }
      exact ((Sorted.nil L 0).add hf (Nat.zero_le _) h₁).mono hend.le
    · cases h₁
      exact .nil L _
  have hf : Free L ⟨L.ekernelAlign2m, 2 ^ 64 - 1 - L.ekernelAlign2m + 1⟩ :=
    { mod := hem, sizeMod := hsize, pos := Nat.succ_pos _, ge := hka.trans hlt.le, le := hsub.le
      out := Or.inr (Nat.le_refl _) }
  have hlast : ∀ blocks₁, Sorted L L.kernelAlign2m blocks₁ →
      addBlock blocks₁ L.ekernelAlign2m (2 ^ 64 - 1 - L.ekernelAlign2m + 1) = .ok blocks →
      ∃ lo, Sorted L lo blocks := fun blocks₁ hS h₂ =>
    ⟨_, hS.add hf hlt.le h₂⟩
  split at h
  · next hne =>
    obtain ⟨blocks₁, h₁, h₂⟩ := bind_ok.mp h
    exact hlast blocks₁ (hS blocks₁ ((if_pos hne).trans h₁)) h₂
  · next hne =>
    obtain ⟨blocks₁, h₁, h₂⟩ := bind_ok.mp h
    exact hlast blocks₁ (hS blocks₁ ((if_neg hne).trans h₁)) h₂

theorem addEntries_of_sorted {k : E820Entry} (h : freeBlocks L es = .ok blocks) (hk : k ∈ es)
    (h₁ : k.addr ≤ L.kernelAlign2m) (h₂ : L.ekernelAlign2m ≤ k.addr + k.size) :
    Mm.addEntries L [] es = .ok blocks := by
  unfold freeBlocks at h
  split at h
  · next e =>
    obtain rfl := List.mem_singleton.mp hk
    have hlt := kernelAlign2m_lt L
    rwa [if_neg (by omega)] at h
  · exact h

theorem freeBlocks_sorted (hL : L.Loaded) (hm : MemoryMap L es)
    (h : freeBlocks L es = .ok blocks) :
    ∃ lo, Sorted L lo blocks := by
  cases hm with
  | @super e h0 =>
    rw [freeBlocks, if_pos h0] at h
    exact superBlocks_sorted hL h
  | sorted hs hb hk =>
    obtain ⟨k, hk, -, -, h₁, h₂⟩ := hk
    have ha := addEntries_of_sorted h hk h₁ h₂
    exact Sorted.addEntries hL hs hb
      (fun e he => placed_of_mem hs hk h₁ h₂ he) (.nil L 0) (fun _ _ => Nat.zero_le _) ha

def blockPages (b : FreeMemoryBlock) : List ℕ := rangePages (b.size / 0x200000) b.addr

theorem Free.mem_pages (h : Free L b) :
    q ∈ blockPages b ↔ q % 0x200000 = 0 ∧ b.addr ≤ q ∧ q < b.addr + b.size := by
  have hs := h.sizeMod
  rw [blockPages, mem_rangePages h.mod]
  have hsize : b.size / 0x200000 * 0x200000 = b.size := by omega
  rw [hsize]

theorem page_end {x y : ℕ} (hq : q % 0x200000 = 0) (hx : x % 0x200000 = 0)
    (hy : y % 0x200000 = 0) (h : q < x + y) : q + 0x200000 ≤ x + y := by
  omega

/-- What every free page is like. -/
structure FreePage (L : Layout) (q : ℕ) : Prop where
  mod : q % 0x200000 = 0
  ge : 0x1000000 ≤ q
  le : q + 0x200000 ≤ 2 ^ 64
  out : q < L.kernelAlign2m ∨ L.ekernelAlign2m ≤ q

theorem Free.page (h : Free L b) (hq : q ∈ blockPages b) : FreePage L q := by
  obtain ⟨hm, h1, h2⟩ := h.mem_pages.mp hq
  exact ⟨hm, h.ge.trans h1, (page_end hm h.mod h.sizeMod h2).trans h.le,
    h.out.imp h2.trans_le fun ho => ho.trans h1⟩

theorem Sorted.page (h : Sorted L lo blocks) (hq : q ∈ blocks.flatMap blockPages) :
    FreePage L q := by
  obtain ⟨b, hb, hq⟩ := List.mem_flatMap.mp hq
  exact (h.free b hb).page hq

theorem Sorted.nodup (h : Sorted L lo blocks) : (blocks.flatMap blockPages).Nodup := by
  refine List.nodup_flatMap.mpr ⟨fun b _ => rangePages_nodup _ _, ?_⟩
  refine h.order.imp_of_mem fun {a c} ha hc hac q hqa hqc => ?_
  have h1 := ((h.free a ha).mem_pages.mp hqa).2.2
  have h2 := ((h.free c hc).mem_pages.mp hqc).2.1
  omega

/-- The blocks without the page that becomes the first `PT_Page`. -/
def afterFirst (block : FreeMemoryBlock) (rest : List FreeMemoryBlock) : List FreeMemoryBlock :=
  if block.size = 0x200000 then rest else ⟨block.addr + 0x200000, block.size - 0x200000⟩ :: rest

theorem Free.tail {block : FreeMemoryBlock} (h : Free L block) (hs : block.size ≠ 0x200000) :
    Free L ⟨block.addr + 0x200000, block.size - 0x200000⟩ := by
  obtain ⟨h1, h2, h3, h4, h5, h6⟩ := h
  have hsum : block.addr + 0x200000 + (block.size - 0x200000) = block.addr + block.size := by omega
  exact
    { mod := by simp only; omega, sizeMod := by simp only; omega, pos := by simp only; omega
      ge := by simp only; omega, le := hsum.le.trans h5
      out := h6.imp hsum.le.trans fun h => h.trans (Nat.le_add_right _ _) }

theorem free_afterFirst {block : FreeMemoryBlock} {rest : List FreeMemoryBlock}
    (h : ∀ b ∈ block :: rest, Free L b) : ∀ b ∈ afterFirst block rest, Free L b := by
  unfold afterFirst
  split
  · exact fun b hb => h b (List.mem_cons_of_mem _ hb)
  · next hs =>
    intro b hb
    rcases List.mem_cons.mp hb with rfl | hb
    · exact (h block (by simp)).tail hs
    · exact h b (List.mem_cons_of_mem _ hb)

theorem flatMap_afterFirst {block : FreeMemoryBlock} (h : Free L block)
    (rest : List FreeMemoryBlock) : (block :: rest).flatMap blockPages =
      block.addr :: (afterFirst block rest).flatMap blockPages := by
  have hm := h.sizeMod
  have hpos := h.pos
  have hn : block.size / 0x200000 = (block.size - 0x200000) / 0x200000 + 1 := by omega
  rw [List.flatMap_cons, blockPages, hn, rangePages, List.cons_append]
  unfold afterFirst
  split
  · next hs => rw [hs, Nat.sub_self, Nat.zero_div, rangePages, List.nil_append]
  · rw [List.flatMap_cons, blockPages]

/-- The pages an iterator still has to hand out. -/
def left (it : FreePagesIterator) : List ℕ :=
  match it.blocks with
  | [] => []
  | b :: rest =>
    rangePages ((b.addr + b.size - it.addr) / 0x200000) it.addr ++ rest.flatMap blockPages

/-- The iterator stands inside its current block. -/
def Inside (L : Layout) (it : FreePagesIterator) : Prop :=
  match it.blocks with
  | [] => True
  | b :: rest => Free L b ∧ (∀ c ∈ rest, Free L c) ∧ it.addr % 0x200000 = 0 ∧
      b.addr ≤ it.addr ∧ it.addr < b.addr + b.size ∧ it.addrMax = (b.addr + b.size) % 2 ^ 64

theorem inside_init (h : ∀ b ∈ blocks, Free L b) : Inside L (initFreePagesIterator blocks) := by
  cases blocks with
  | nil => trivial
  | cons b rest =>
    have hb := h b (by simp)
    exact ⟨hb, fun c hc => h c (List.mem_cons_of_mem b hc), hb.mod, le_rfl,
      Nat.lt_add_of_pos_right hb.pos, rfl⟩

theorem left_init : left (initFreePagesIterator blocks) = blocks.flatMap blockPages := by
  cases blocks with
  | nil => rfl
  | cons b rest =>
    simp only [left, initFreePagesIterator, List.flatMap_cons, blockPages]
    rw [Nat.add_sub_cancel_left]

/-- The ends of a block are equal as words only if they are equal. -/
theorem word_inj {a c : ℕ} (ha : 0 < a) (ha' : a ≤ 2 ^ 64) (hc : 0 < c) (hc' : c ≤ 2 ^ 64)
    (h : a % 2 ^ 64 = c % 2 ^ 64) : a = c := by
  omega

theorem rangePages_cons (hmod : (v - q) % 0x200000 = 0) (hlt : q < v) :
    rangePages ((v - q) / 0x200000) q =
      q :: rangePages ((v - (q + 0x200000)) / 0x200000) (q + 0x200000) := by
  have h : (v - q) / 0x200000 = (v - (q + 0x200000)) / 0x200000 + 1 := by omega
  rw [h, rangePages]

theorem next_spec (h : Inside L it) (hb : it.blocks = b :: rest) :
    ∃ it', getFreePageInInit it = (some it.addr, it') ∧ left it = it.addr :: left it' ∧
      Inside L it' := by
  obtain ⟨bs, addr, addrMax⟩ := it
  obtain rfl : bs = b :: rest := hb
  obtain ⟨hf, hrest, (hmod : addr % 0x200000 = 0), (hge : b.addr ≤ addr),
    (hlt : addr < b.addr + b.size), rfl⟩ := h
  have hm := hf.mod
  have hs := hf.sizeMod
  have hle := hf.le
  have hnext : addr + 0x200000 ≤ b.addr + b.size := by omega
  have hleft : left ⟨b :: rest, addr, (b.addr + b.size) % 2 ^ 64⟩ =
      addr :: (rangePages ((b.addr + b.size - (addr + 0x200000)) / 0x200000) (addr + 0x200000) ++
        rest.flatMap blockPages) := by
    simp only [left]
    rw [rangePages_cons (by omega) hlt, List.cons_append]
  by_cases heq : addr + 0x200000 = b.addr + b.size
  · refine ⟨initFreePagesIterator rest, ?_, ?_, inside_init hrest⟩
    · simp only [getFreePageInInit, heq, if_true]
    · rw [hleft, left_init, heq, Nat.sub_self]
      rfl
  · have hlt' : addr + 0x200000 < b.addr + b.size := by omega
    have hne : (addr + 0x200000) % 2 ^ 64 ≠ (b.addr + b.size) % 2 ^ 64 := fun hw =>
      heq (word_inj (Nat.succ_pos _) (hnext.trans hle) (by omega) hle hw)
    have hmod' : (addr + 0x200000) % 0x200000 = 0 := by omega
    refine ⟨⟨b :: rest, addr + 0x200000, (b.addr + b.size) % 2 ^ 64⟩, ?_, hleft,
      hf, hrest, hmod', Nat.le_add_right_of_le hge, hlt', rfl⟩
    simp only [getFreePageInInit, if_neg hne]
    rw [Nat.mod_eq_of_lt (hlt'.trans_le hle)]

theorem next_nil (hb : it.blocks = []) : getFreePageInInit it = (none, it) ∧ left it = [] := by
  unfold getFreePageInInit left
  rw [hb]
  exact ⟨rfl, rfl⟩

/-- The iterator as the source of new `PT_Page`s, with the pages that are kept for the stack. -/
theorem source_init (h : Inside L it) (stack : List ℕ) :
    Source getFreePageInInit (fun it => left it ++ stack) it where
  some q it' he := by
    cases hb : it.blocks with
    | nil => simp [(next_nil hb).1] at he
    | cons b rest =>
      obtain ⟨it₁, hn, hl, -⟩ := next_spec h hb
      obtain ⟨rfl, rfl⟩ : it.addr = q ∧ it₁ = it' := by simpa [hn] using he
      simp [hl]
  none it' he := by
    cases hb : it.blocks with
    | nil =>
      obtain rfl : it = it' := by simpa [(next_nil hb).1] using he
      rfl
    | cons b rest =>
      obtain ⟨it₁, hn, -, -⟩ := next_spec h hb
      simp [hn] at he

theorem Inside.next (h : Inside L it) : Inside L (getFreePageInInit it).2 := by
  cases hb : it.blocks with
  | nil => rwa [(next_nil hb).1]
  | cons b rest =>
    obtain ⟨it', hn, -, hi⟩ := next_spec h hb
    rwa [hn]

/-- The `k`-th page the iterator yields. -/
def nthPage (it : FreePagesIterator) (k : ℕ) : Option ℕ :=
  (getFreePageInInit ((fun it => (getFreePageInInit it).2)^[k] it)).1

theorem nthPage_eq (h : Inside L it) (k : ℕ) : nthPage it k = (left it)[k]? := by
  induction k generalizing it with
  | zero =>
    cases hb : it.blocks with
    | nil => simp [nthPage, next_nil hb]
    | cons b rest =>
      obtain ⟨it', hn, hl, -⟩ := next_spec h hb
      simp [nthPage, hn, hl]
  | succ k ih =>
    have hstep : nthPage it (k + 1) = nthPage (getFreePageInInit it).2 k := rfl
    rw [hstep, ih h.next]
    cases hb : it.blocks with
    | nil => simp [next_nil hb]
    | cons b rest =>
      obtain ⟨it', hn, hl, -⟩ := next_spec h hb
      simp [hn, hl]

/-- A range inside a usable entry; the superblock holds every address. -/
def InUsable (es : List E820Entry) (lo hi : ℕ) : Prop :=
  ∃ e ∈ es, (e.type = 1 ∧ e.extend = 1) ∧
    (es = [e] ∧ e.size = 0 ∨ e.addr ≤ lo ∧ hi ≤ e.addr + e.size)

theorem freeBlocks_usable (hL : L.Loaded) (hm : MemoryMap L es) (h : freeBlocks L es = .ok blocks)
    (hb : b ∈ blocks) : InUsable es b.addr (b.addr + b.size) := by
  cases hm with
  | @super e h0 =>
    rw [freeBlocks, if_pos h0] at h
    unfold superBlocks at h
    split at h
    · cases h
    · next hu => exact ⟨e, by simp, by omega, Or.inl ⟨rfl, h0⟩⟩
  | sorted hs hend hk =>
    obtain ⟨k, hk, -, -, h₁, h₂⟩ := hk
    have ha := addEntries_of_sorted h hk h₁ h₂
    rcases addEntries_within hL hend (fun e he => placed_of_mem hs hk h₁ h₂ he) ha hb with
      hno | ⟨e, he, ⟨hu, hw⟩, -⟩
    · cases hno
    · exact ⟨e, he, hu, Or.inr hw⟩

/-- The blocks are free memory, and the pages the iterator yields from them, until it yields none,
are distinct free pages. -/
theorem no_forbidden_page (hL : L.Loaded) (hm : MemoryMap L es)
    (h : freeBlocks L es = .ok blocks) :
    (∀ b ∈ blocks, Free L b ∧ InUsable es b.addr (b.addr + b.size)) ∧
    blocks.Pairwise (fun a b => a.addr + a.size ≤ b.addr) ∧
    ∀ block rest, blocks = block :: rest → ∃ pages, (block.addr :: pages).Nodup ∧
      (∀ q ∈ block.addr :: pages, FreePage L q ∧ InUsable es q (q + 0x200000)) ∧
      ∀ k, nthPage (initFreePagesIterator (afterFirst block rest)) k = pages[k]? := by
  obtain ⟨lo, hS⟩ := freeBlocks_sorted hL hm h
  refine ⟨fun b hb => ⟨hS.free b hb, freeBlocks_usable hL hm h hb⟩, hS.order, ?_⟩
  rintro block rest rfl
  have hflat := flatMap_afterFirst (hS.free block (by simp)) rest
  refine ⟨(afterFirst block rest).flatMap blockPages, hflat ▸ hS.nodup, fun q hq => ?_, fun k => ?_⟩
  · rw [← hflat] at hq
    refine ⟨hS.page hq, ?_⟩
    obtain ⟨b, hb, hq⟩ := List.mem_flatMap.mp hq
    have hf := hS.free b hb
    obtain ⟨hqm, h1, h2⟩ := hf.mem_pages.mp hq
    have hend : q + 0x200000 ≤ b.addr + b.size := page_end hqm hf.mod hf.sizeMod h2
    obtain ⟨e, he, hu, hcase⟩ := freeBlocks_usable hL hm h hb
    exact ⟨e, he, hu, hcase.imp_right fun hc => ⟨hc.1.trans h1, hend.trans hc.2⟩⟩
  · rw [nthPage_eq (inside_init (free_afterFirst hS.free)), left_init]

theorem sampleMap_blocks : freeBlocks sampleLayout sampleMap = .ok [⟨0x1600000, 0xa00000⟩] := rfl

theorem no_forbidden_page_sample : Free sampleLayout ⟨0x1600000, 0xa00000⟩ :=
  ((no_forbidden_page sampleLayout_loaded sampleMap_ok sampleMap_blocks).1 _ (by simp)).1

end MyosIo.Mm
