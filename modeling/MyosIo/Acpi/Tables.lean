import MyosIo.Acpi.Madt
import MyosIo.Lib.Only

/-! `find_RSDP` and `get_madt` of the boot loader accept a table only if there is no second one. A
pointer is a 32-bit address, and no table goes on past the last one. -/
namespace MyosIo.Acpi

abbrev Memory := ℕ → UInt8

/-- The bytes from an address on. -/
def view (mem : Memory) (ptr : ℕ) : ℕ → UInt8 := fun i => mem (ptr + i)

/-- A little-endian number of `n` bytes. -/
def number (mem : Memory) (ptr : ℕ) : ℕ → ℕ
  | 0 => 0
  | n + 1 => (mem ptr).toNat + 256 * number mem (ptr + 1) n

/-- `strncmp`. -/
def strncmp (l r : ℕ → UInt8) : ℕ → ℤ
  | 0 => 0
  | 1 => (l 0).toNat - (r 0).toNat
  | n + 2 =>
    if l 0 ≠ 0 ∧ r 0 ≠ 0 ∧ l 0 = r 0 then strncmp (fun i => l (i + 1)) (fun i => r (i + 1)) (n + 1)
    else (l 0).toNat - (r 0).toNat

/-- The bytes of a text. -/
def text (s : List UInt8) : ℕ → UInt8 := fun i => s.getD i 0

/-- `temp` in `find_RSDP`. -/
def rsdpSignature : List UInt8 := [0x52, 0x53, 0x44, 0x20, 0x50, 0x54, 0x52, 0x20]

/-- `temp` in `get_keyboard_ioapic_base_and_index`. -/
def xsdtSignature : List UInt8 := [0x58, 0x53, 0x44, 0x54]

/-- `temp` in `get_madt`. -/
def madtSignature : List UInt8 := [0x41, 0x50, 0x49, 0x43]

/-- `firstPart.Revision`. -/
def revision (mem : Memory) (ptr : ℕ) : ℕ := (mem (ptr + 15)).toNat

/-- `valid_RSDP`. -/
def validRSDP (mem : Memory) (ptr : ℕ) : Bool :=
  ((List.range 20).map (view mem ptr)).sum = 0 ∧
    (revision mem ptr ≥ 2 → ((List.range' 20 16).map (view mem ptr)).sum = 0)

/-- The test of the two loops. -/
def isRSDP (mem : Memory) (ptr : ℕ) : Bool :=
  strncmp (view mem ptr) (text rsdpSignature) 8 = 0 ∧ validRSDP mem ptr

/-- A loop of `find_RSDP`, from `ptr` up to `last`. -/
def findLoop (mem : Memory) (last ptr : ℕ) (found : Only ℕ) : Only ℕ :=
  let found := if isRSDP mem ptr then found.add ptr else found
  if found = .several then .several
  else if ptr + 16 ≤ last then findLoop mem last (ptr + 16) found
  else found
termination_by last - ptr

/-- The status, and `RSDP_ptr` when it is 0. -/
def findRSDP (mem : Memory) : Except ℤ ℕ :=
  let ptr := number mem 0x40e 2 * 16
  if ptr < 0x80000 ∨ ptr > 0x9ffff then .error (-5)
  else
    match findLoop mem 0xfffff 0xe0000 (findLoop mem 0x9ffff ptr .none) with
    | .none => .error (-1)
    | .several => .error (-2)
    | .one ptr =>
      if revision mem ptr = 2 then if number mem (ptr + 20) 4 ≠ 36 then .error (-4) else .ok ptr
      else if revision mem ptr ≠ 0 then .error (-3)
      else if number mem (ptr + 20) 4 ≠ 20 then .error (-4)
      else .ok ptr

/-- `PointerToOtherSDT[i]` as a pointer. -/
def pointerToOtherSDT (mem : Memory) (xsdt i : ℕ) : ℕ := number mem (xsdt + 36 + 8 * i) 8 % 2 ^ 32

/-- `sum`; a `Length` below the size of the header wraps. -/
def sdtNum (mem : Memory) (xsdt : ℕ) : ℕ := (length (view mem xsdt) + 2 ^ 32 - 36) % 2 ^ 32 / 8

def isTable (mem : Memory) (signature : List UInt8) (ptr : ℕ) : Bool :=
  validACPISDT (view mem ptr) ∧ strncmp (view mem ptr) (text signature) 4 = 0

/-- The tables a XSDT points to. -/
def sdts (mem : Memory) (xsdt : ℕ) : List ℕ :=
  (List.range (sdtNum mem xsdt)).map (pointerToOtherSDT mem xsdt)

/-- The status of a search, and what it has found when it is 0. -/
def statusOf : Only ℕ → Except ℤ ℕ
  | .none => .error (-1)
  | .one ptr => .ok ptr
  | .several => .error (-2)

/-- `get_madt`. -/
def getMadt (mem : Memory) (xsdt : ℕ) : Except ℤ ℕ :=
  statusOf (Only.search (isTable mem madtSignature) .none (sdts mem xsdt))

/-- Every 16th address between two. -/
def every16 (ptr last : ℕ) : List ℕ := List.range' ptr ((last - ptr) / 16 + 1) 16

/-- Where an RSDP may be. -/
def rsdpPlaces (mem : Memory) : List ℕ :=
  every16 (number mem 0x40e 2 * 16) 0x9ffff ++ every16 0xe0000 0xfffff

variable {mem : Memory} {ptr last : ℕ} {found : Only ℕ}

theorem findLoop_eq (h : ptr ≤ last) (hs : found ≠ .several) :
    findLoop mem last ptr found = Only.search (isRSDP mem) found (every16 ptr last) := by
  obtain ⟨d, hd⟩ : ∃ d, d = last - ptr := ⟨_, rfl⟩
  induction d using Nat.strong_induction_on generalizing ptr found with
  | _ d ih =>
    have hrest (found' : Only ℕ) (hs' : found' ≠ .several) :
        (if ptr + 16 ≤ last then findLoop mem last (ptr + 16) found' else found') =
          Only.search (isRSDP mem) found' (List.range' (ptr + 16) ((last - ptr) / 16) 16) := by
      split_ifs with hmore
      · rw [ih (last - (ptr + 16)) (by omega) hmore hs' rfl, every16,
          show (last - (ptr + 16)) / 16 + 1 = (last - ptr) / 16 by omega]
      · rw [show (last - ptr) / 16 = 0 by omega]
        rfl
    rw [findLoop, every16, List.range'_succ, Only.search]
    by_cases hit : isRSDP mem ptr
    · rw [if_pos hit, if_pos hit]
      cases hadd : found.add ptr with
      | several => rw [if_pos rfl]
      | none => cases found <;> cases hadd
      | one a =>
        rw [if_neg (by simp)]
        exact hrest _ (by simp)
    · rw [if_neg hit, if_neg hit, if_neg hs]
      exact hrest _ hs

theorem findLoop_several : findLoop mem last ptr .several = .several := by
  rw [findLoop]
  split_ifs <;> simp_all [Only.add]

/-- Both loops together search all places. -/
theorem find_places (h : number mem 0x40e 2 * 16 ≤ 0x9ffff) :
    findLoop mem 0xfffff 0xe0000 (findLoop mem 0x9ffff (number mem 0x40e 2 * 16) .none) =
      Only.ofList ((rsdpPlaces mem).filter (isRSDP mem)) := by
  rw [← Only.search_none, rsdpPlaces, Only.search_append, findLoop_eq h (by simp)]
  generalize Only.search (isRSDP mem) .none (every16 (number mem 0x40e 2 * 16) 0x9ffff) = found
  by_cases hs : found = .several
  · rw [hs, findLoop_several, Only.search_several]
  · exact findLoop_eq (by decide) hs

/-- What `find_RSDP` accepts: the only RSDP there is, if it is as long as its revision says. -/
structure TheRSDP (mem : Memory) (rsdp : ℕ) : Prop where
  low : 0x80000 ≤ number mem 0x40e 2 * 16
  high : number mem 0x40e 2 * 16 ≤ 0x9ffff
  only : (rsdpPlaces mem).filter (isRSDP mem) = [rsdp]
  size : revision mem rsdp = 2 ∧ number mem (rsdp + 20) 4 = 36 ∨
    revision mem rsdp = 0 ∧ number mem (rsdp + 20) 4 = 20

theorem findRSDP_eq_ok {rsdp : ℕ} : findRSDP mem = .ok rsdp ↔ TheRSDP mem rsdp := by
  unfold findRSDP
  dsimp only
  by_cases hentry : number mem 0x40e 2 * 16 < 0x80000 ∨ number mem 0x40e 2 * 16 > 0x9ffff
  · rw [if_pos hentry]
    refine ⟨fun h => (by cases h), fun h => ?_⟩
    have := h.low
    have := h.high
    omega
  rw [if_neg hentry, find_places (by omega)]
  cases hfound : Only.ofList ((rsdpPlaces mem).filter (isRSDP mem)) with
  | none =>
    refine ⟨fun h => (by cases h), fun h => ?_⟩
    rw [h.only] at hfound
    cases hfound
  | several =>
    refine ⟨fun h => (by cases h), fun h => ?_⟩
    rw [h.only] at hfound
    cases hfound
  | one ptr =>
    have honly := Only.ofList_eq_one.mp hfound
    dsimp only
    constructor
    · intro h
      split_ifs at h with h₁ h₂ h₃ h₄
      · obtain rfl := Except.ok.inj h
        exact ⟨by omega, by omega, honly, .inl ⟨h₁, not_not.mp h₂⟩⟩
      · obtain rfl := Except.ok.inj h
        exact ⟨by omega, by omega, honly, .inr ⟨not_not.mp h₃, not_not.mp h₄⟩⟩
    · rintro ⟨-, -, hone, hsize⟩
      obtain rfl : ptr = rsdp := List.head_eq_of_cons_eq (honly.symm.trans hone)
      obtain ⟨hrev, hlen⟩ | ⟨hrev, hlen⟩ := hsize
      · rw [if_pos hrev, if_neg (not_not.mpr hlen)]
      · rw [if_neg (by omega), if_neg (not_not.mpr hrev), if_neg (not_not.mpr hlen)]

theorem statusOf_eq_ok {found : Only ℕ} : statusOf found = .ok ptr ↔ found = .one ptr := by
  cases found <;> simp [statusOf]

theorem getMadt_eq_ok {xsdt madt : ℕ} :
    getMadt mem xsdt = .ok madt ↔ (sdts mem xsdt).filter (isTable mem madtSignature) = [madt] := by
  rw [getMadt, statusOf_eq_ok, Only.search_none, Only.ofList_eq_one]

end MyosIo.Acpi
