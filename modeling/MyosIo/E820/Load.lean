import MyosIo.Lib.Lists
import MyosIo.E820.Correct

/-! `find_kernel_load_pos` of the boot loader takes the first entry with room for the kernel. -/
namespace MyosIo.E820

open Mm (E820Entry Fault)

/-- `KERNEL_SIZE_ALIGN2M`. -/
def kernelSizeAlign2m (kernelSize : ℕ) : ℕ := (kernelSize + 0x1fffff) / 0x200000 * 0x200000

/-- `bootloader_error`. -/
def notFound : Except Fault ℕ := .error (.abort "failed to find kernel load place!")

/-- `padsize`; an entry above the last place for a kernel of size `k` has none. -/
def padsize (k : ℕ) (e : E820Entry) : Option ℕ :=
  if e.addr ≤ 0x1000000 then some (0x1000000 - e.addr)
  else if e.addr ≤ 0x100000000 - k then
    if e.addr % 0x200000 = 0 then some 0 else some (0x200000 - e.addr % 0x200000)
  else none

/-- The loop over the entries. -/
def findFrom (k : ℕ) : List E820Entry → Except Fault ℕ
  | [] => notFound
  | e :: es =>
    match padsize k e with
    | none => notFound
    | some padsize =>
      if e.size > padsize ∧ e.size - padsize ≥ k then .ok ((e.addr + padsize) % 2 ^ 32)
      else findFrom k es

def findKernelLoadPos (k : ℕ) : List E820Entry → Except Fault ℕ
  | [e] =>
    if e.size = 0 then
      if e.type = 1 ∧ e.extend = 1 then .ok 0x1000000 else notFound
    else findFrom k [e]
  | es => findFrom k es

def Usable (e : E820Entry) : Prop := e.type = 1 ∧ e.extend = 1

/-- A kernel of size `k` fits into the entry at `p`, inside the first 4 GiB and above 16 MiB. -/
structure Room (k : ℕ) (e : E820Entry) (p : ℕ) : Prop where
  aligned : p % 0x200000 = 0
  low : 0x1000000 ≤ p
  high : p + k ≤ 2 ^ 32
  start : e.addr ≤ p
  stop : p + k ≤ e.addr + span e

def CanLoad (k : ℕ) (es : List E820Entry) (p : ℕ) : Prop := ∃ e ∈ es, Usable e ∧ Room k e p

/-- The lowest place for the kernel, or an error when there is none. -/
def LowestPlace (k : ℕ) (es : List E820Entry) : Except Fault ℕ → Prop
  | .ok p => CanLoad k es p ∧ ∀ p', CanLoad k es p' → p ≤ p'
  | .error _ => ∀ p, ¬ CanLoad k es p

/-- An array `trim_e820_entrys` has written. -/
def Produced (es : List E820Entry) : Prop :=
  ∃ qsort stack ins, Sorts qsort ∧ Reported ins ∧ es = trimE820Entrys qsort stack ins

/-- Every other entry with room for the kernel has a usable one with room for it below it. -/
def UsableFirst (k : ℕ) (es : List E820Entry) : Prop :=
  ∀ e ∈ es, 0 < e.size → ¬ Usable e → (∃ p, Room k e p) →
    ∃ e' ∈ es, e'.addr < e.addr ∧ Usable e' ∧ ∃ p, Room k e' p

variable {k p kernelSize : ℕ} {e e' : E820Entry} {es : List E820Entry}

theorem Room.unique (hs : es.Pairwise fun a b => a.addr + span a ≤ b.addr) (hk : 0 < k)
    (he : e ∈ es) (he' : e' ∈ es) (h : Room k e p) (h' : Room k e' p) : e = e' := by
  have := h.start
  have := h.stop
  have := h'.start
  have := h'.stop
  rcases pairwise_cases hs he he' with h | h | h
  · exact h
  all_goals omega

/-- What one round of the loop decides. -/
theorem padsize_spec (hk : 0 < k) (hk' : k ≤ 0xff000000) (hm : k % 0x200000 = 0)
    (hsize : 0 < e.size) :
    match padsize k e with
    | none => 0x100000000 - k < e.addr ∧ ∀ p, ¬ Room k e p
    | some pad =>
      if e.size > pad ∧ e.size - pad ≥ k then
        Room k e ((e.addr + pad) % 2 ^ 32) ∧ ∀ p, Room k e p → (e.addr + pad) % 2 ^ 32 ≤ p
      else ∀ p, ¬ Room k e p := by
  have hspan := span_of_pos hsize
  unfold padsize
  split_ifs with h₁ h₂ h₃
  all_goals dsimp only
  · split_ifs with hroom
    · exact ⟨⟨by omega, by omega, by omega, by omega, by omega⟩, fun p hp => by
        have := hp.low
        omega⟩
    · intro p hp
      have := hp.low
      have := hp.stop
      omega
  · split_ifs with hroom
    · exact ⟨⟨by omega, by omega, by omega, by omega, by omega⟩, fun p hp => by
        have := hp.start
        omega⟩
    · intro p hp
      have := hp.start
      have := hp.stop
      omega
  · split_ifs with hroom
    · exact ⟨⟨by omega, by omega, by omega, by omega, by omega⟩, fun p hp => by
        have := hp.start
        have := hp.aligned
        omega⟩
    · intro p hp
      have := hp.start
      have := hp.stop
      have := hp.aligned
      omega
  · refine ⟨by omega, fun p hp => ?_⟩
    have := hp.start
    have := hp.high
    omega

/-- The loop finds the lowest room there is, in whatever entry. -/
theorem findFrom_spec (hk : 0 < k) (hk' : k ≤ 0xff000000) (hm : k % 0x200000 = 0)
    (hs : es.Pairwise fun a b => a.addr + span a ≤ b.addr) (hsize : ∀ e ∈ es, 0 < e.size) :
    (∃ e ∈ es, ∃ p, findFrom k es = .ok p ∧ Room k e p ∧
      ∀ e' ∈ es, ∀ p', Room k e' p' → p ≤ p') ∨
    (findFrom k es = notFound ∧ ∀ e ∈ es, ∀ p, ¬ Room k e p) := by
  induction hs with
  | nil => exact .inr ⟨rfl, nofun⟩
  | @cons e es hfirst _ ih =>
    have hspec := padsize_spec (k := k) hk hk' hm (hsize e List.mem_cons_self)
    rw [findFrom]
    cases hpad : padsize k e with
    | none =>
      rw [hpad] at hspec
      refine .inr ⟨rfl, fun e' he' p hp => ?_⟩
      rcases List.mem_cons.mp he' with rfl | he'
      · exact hspec.2 p hp
      · have := hfirst e' he'
        have := hp.start
        have := hp.high
        omega
    | some pad =>
      rw [hpad] at hspec
      dsimp only at hspec ⊢
      split at hspec
      next hroom =>
        rw [if_pos hroom]
        refine .inl ⟨e, List.mem_cons_self, _, rfl, hspec.1, fun e' he' p' hp' => ?_⟩
        rcases List.mem_cons.mp he' with rfl | he'
        · exact hspec.2 p' hp'
        · have := hfirst e' he'
          have := hp'.start
          have := hspec.1.stop
          omega
      next hroom =>
        rw [if_neg hroom]
        rcases ih fun e he => hsize e (List.mem_cons_of_mem _ he) with
          ⟨e', he', p, hp, hr, hmin⟩ | ⟨hn, hno⟩
        · refine .inl ⟨e', List.mem_cons_of_mem _ he', p, hp, hr, fun e₁ he₁ p₁ hp₁ => ?_⟩
          rcases List.mem_cons.mp he₁ with rfl | he₁
          · exact absurd hp₁ (hspec p₁)
          · exact hmin e₁ he₁ p₁ hp₁
        · refine .inr ⟨hn, fun e₁ he₁ p₁ => ?_⟩
          rcases List.mem_cons.mp he₁ with rfl | he₁
          · exact hspec p₁
          · exact hno e₁ he₁ p₁

theorem findKernelLoadPos_eq (hsize : ∀ e ∈ es, 0 < e.size) :
    findKernelLoadPos k es = findFrom k es := by
  unfold findKernelLoadPos
  split
  next e => rw [if_neg (by have := hsize e List.mem_cons_self; omega)]
  next => rfl

theorem lowestPlace_iff_of_sized (hk : 0 < k) (hk' : k ≤ 0xff000000) (hm : k % 0x200000 = 0)
    (hs : es.Pairwise fun a b => a.addr + span a ≤ b.addr) (hsize : ∀ e ∈ es, 0 < e.size) :
    LowestPlace k es (findKernelLoadPos k es) ↔ UsableFirst k es := by
  rw [findKernelLoadPos_eq hsize]
  rcases findFrom_spec hk hk' hm hs hsize with ⟨e, he, p, hp, hr, hmin⟩ | ⟨hn, hno⟩
  · rw [hp]
    have hbelow : ∀ e' ∈ es, e'.addr < e.addr → ∀ p', ¬ Room k e' p' := by
      intro e' he' hlt p' hr'
      have := hmin e' he' p' hr'
      have := hr.start
      have := hr'.stop
      have := hr'.start
      rcases pairwise_cases hs he' he with rfl | h | h <;> omega
    constructor
    · rintro ⟨⟨e₁, he₁, hu, hr₁⟩, -⟩ e' he' - hu' ⟨p', hr'⟩
      obtain rfl := Room.unique hs hk he he₁ hr hr₁
      refine ⟨e, he, ?_, hu, p, hr⟩
      have hne : e' ≠ e := fun h => hu' (h ▸ hu)
      have hpos := hsize e he
      have := hr.stop
      have := hr'.start
      rcases Nat.lt_or_ge e'.addr e.addr with hlt | hge
      · exact absurd hr' (hbelow e' he' hlt p')
      · rcases pairwise_cases hs he' he with h | h | h
        · exact absurd h hne
        · have := hr'.stop
          omega
        · rw [span_of_pos hpos] at h
          omega
    · intro hfirst
      refine ⟨⟨e, he, ?_, hr⟩, fun p' ⟨e', he', _, hr'⟩ => hmin e' he' p' hr'⟩
      by_contra hu
      obtain ⟨e', he', hlt, -, p', hr'⟩ := hfirst e he (hsize e he) hu ⟨p, hr⟩
      exact hbelow e' he' hlt p' hr'
  · rw [hn]
    constructor
    · rintro - e he - - ⟨p, hp⟩
      exact absurd hp (hno e he p)
    · rintro - p ⟨e, he, -, hp⟩
      exact hno e he p hp

theorem lowestPlace_iff_of_super {type extend : ℕ} (hk : 0 < k) (hk' : k ≤ 0xff000000) :
    LowestPlace k [⟨0, 0, type, extend⟩] (findKernelLoadPos k [⟨0, 0, type, extend⟩]) ↔
      UsableFirst k [⟨0, 0, type, extend⟩] := by
  have hspan : span ⟨0, 0, type, extend⟩ = 2 ^ 64 := rfl
  have hright : UsableFirst k [⟨0, 0, type, extend⟩] := by
    intro e he hpos
    obtain rfl := List.mem_singleton.mp he
    exact absurd hpos (Nat.lt_irrefl 0)
  refine iff_of_true ?_ hright
  unfold findKernelLoadPos
  dsimp only
  rw [if_pos rfl]
  split
  next hu =>
    refine ⟨⟨_, List.mem_cons_self, hu, ⟨by omega, by omega, by omega, Nat.zero_le _, ?_⟩⟩, ?_⟩
    · rw [hspan]
      omega
    · rintro p' ⟨e', he', -, hr'⟩
      exact hr'.low
  next hu =>
    rintro p ⟨e, he, hu', -⟩
    obtain rfl := List.mem_singleton.mp he
    exact hu hu'

/-- `find_kernel_load_pos` finds the lowest place in usable memory if and only if no other entry
with room for the kernel comes first. The bound is the `static_assert` on `KERNEL_SIZE`. -/
theorem kernel_in_usable_memory (hk : 0 < kernelSize)
    (hk' : kernelSize ≤ 0x100000000 - 0x1000000) (he : Produced es) :
    LowestPlace (kernelSizeAlign2m kernelSize) es
        (findKernelLoadPos (kernelSizeAlign2m kernelSize) es) ↔
      UsableFirst (kernelSizeAlign2m kernelSize) es := by
  obtain ⟨qsort, stack, ins, hq, hr, rfl⟩ := he
  have ht := trimmed_trim hq stack hr
  have hpos : 0 < kernelSizeAlign2m kernelSize := by
    unfold kernelSizeAlign2m
    omega
  have hle : kernelSizeAlign2m kernelSize ≤ 0xff000000 := by
    unfold kernelSizeAlign2m
    omega
  have hmod : kernelSizeAlign2m kernelSize % 0x200000 = 0 := Nat.mul_mod_left _ _
  rcases ht.form with ⟨type, extend, heq⟩ | hsize
  · rw [heq]
    exact lowestPlace_iff_of_super hpos hle
  · exact lowestPlace_iff_of_sized hpos hle hmod ht.sorted fun e he => (hsize e he).1

/-- A reserved range above 16 MiB, and usable memory above it. -/
def reservedMap : List E820Entry := [⟨0x1000000, 0x800000, 2, 1⟩, ⟨0x2000000, 0x800000, 1, 1⟩]

theorem produced_reservedMap : Produced reservedMap :=
  ⟨_, fun _ => ⟨0, 0, 0, false⟩, reservedMap, sorts_insertionSort, by
    simp [Reported, reservedMap], rfl⟩

/-- The kernel is loaded into the reserved range. -/
theorem kernel_in_reserved_memory : Produced reservedMap ∧
    findKernelLoadPos (kernelSizeAlign2m 0x1000) reservedMap = .ok 0x1000000 ∧
      ¬ LowestPlace (kernelSizeAlign2m 0x1000) reservedMap
        (findKernelLoadPos (kernelSizeAlign2m 0x1000) reservedMap) := by
  refine ⟨produced_reservedMap, rfl, ?_⟩
  rintro ⟨⟨e, he, hu, hr⟩, -⟩
  have hle : e.addr ≤ 0x1000000 := hr.start
  simp only [reservedMap, List.mem_cons, List.not_mem_nil, or_false] at he
  rcases he with rfl | rfl
  · exact absurd hu.1 (by decide)
  · exact absurd hle (by decide)

/-- A reserved range below 16 MiB, and usable memory above it. -/
def usableMap : List E820Entry := [⟨0x100000, 0x700000, 2, 1⟩, ⟨0x1000000, 0x800000, 1, 1⟩]

theorem kernel_in_usable_memory_sample :
    LowestPlace (kernelSizeAlign2m 0x1000) usableMap
      (findKernelLoadPos (kernelSizeAlign2m 0x1000) usableMap) := by
  have hp : Produced usableMap :=
    ⟨_, fun _ => ⟨0, 0, 0, false⟩, usableMap, sorts_insertionSort, by simp [Reported, usableMap],
      rfl⟩
  refine (kernel_in_usable_memory (by decide) (by decide) hp).mpr ?_
  rintro e he - hu ⟨p, hr⟩
  simp only [usableMap, List.mem_cons, List.not_mem_nil, or_false] at he
  rcases he with rfl | rfl
  · have := hr.low
    have hstop := hr.stop
    rw [span_of_pos (by decide)] at hstop
    dsimp only at hstop
    omega
  · exact absurd ⟨rfl, rfl⟩ hu

end MyosIo.E820
