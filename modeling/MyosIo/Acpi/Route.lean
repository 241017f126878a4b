import Mathlib.Data.Nat.Bitwise
import MyosIo.Acpi.Keyboard

/-! The tables name one I/O APIC and one of its entries, or the boot loader changes none of them. -/
namespace MyosIo.Acpi

open Function

variable {mem : Memory} {madt : ℕ → UInt8} {d d' : Devices} {es es' xs : List ℕ} {gsi o : ℕ}
  {found : Only ℕ} {w : Walk} {status : ℤ} {route : Route}

/-- The entries that `parse_madt` accepts: the last one may end behind the table. -/
structure Accepted (madt : ℕ → UInt8) (es : List ℕ) : Prop where
  entries : ∃ stop, Entries madt 0x2c es stop ∧ length madt ≤ stop
  starts : ∀ e ∈ es, e < length madt
  fits : Fits madt 512 512 es

/-- The I/O APIC at an entry redirects the interrupt. -/
def Covers (madt : ℕ → UInt8) (d : Devices) (gsi o : ℕ) : Prop :=
  gsiBase madt o ≤ gsi ∧
    gsi ≤ (maxEntry ((d (address madt o)).regs 1) + gsiBase madt o) % 2 ^ 32

instance (madt : ℕ → UInt8) (d : Devices) (gsi : ℕ) : DecidablePred (Covers madt d gsi) :=
  fun _ => inferInstanceAs (Decidable (_ ∧ _))

/-- The overrides of an interrupt of the ISA bus. -/
def overrides (madt : ℕ → UInt8) (irq : ℕ) (es : List ℕ) : List ℕ :=
  (ofType madt 2 es).filter fun o => overrideIrq madt o = irq

/-- The number under which the I/O APICs know the interrupt. -/
def GsiOf (madt : ℕ → UInt8) (irq : ℕ) (es : List ℕ) (gsi : ℕ) : Prop :=
  overrides madt irq es = [] ∧ gsi = irq ∨
    ∃ o, overrides madt irq es = [o] ∧ gsi = overrideGsi madt o

/-- The tables name one I/O APIC for interrupt 1. -/
structure Named (madt : ℕ → UInt8) (d : Devices) (route : Route) : Prop where
  names : ∃ es gsi o, Accepted madt es ∧ GsiOf madt 1 es gsi ∧
    (ofType madt 1 es).filter (Covers madt d gsi) = [o] ∧ route.base = address madt o ∧
    route.index = gsi - gsiBase madt o ∧ route.coresNum = (ofType madt 0 es).length

/-- The way from the RSDP to the MADT: no table has a second one beside it. -/
structure TheMadt (mem : Memory) (madt : ℕ) : Prop where
  chain : ∃ rsdp xsdt, TheRSDP mem rsdp ∧ revision mem rsdp = 2 ∧
    xsdt = number mem (rsdp + 24) 8 % 2 ^ 32 ∧ isTable mem xsdtSignature xsdt ∧
    (sdts mem xsdt).filter (isTable mem madtSignature) = [madt]

/-- No register changes; another one may be selected. -/
def SameRegs (d d' : Devices) : Prop := ∀ base, (d' base).regs = (d base).regs

theorem findMadt_eq_ok {ptr : ℕ} : findMadt mem = .ok ptr ↔ TheMadt mem ptr := by
  unfold findMadt
  cases hfind : findRSDP mem with
  | error _ =>
    refine ⟨fun h => (by cases h), fun h => ?_⟩
    obtain ⟨rsdp, -, hrsdp, -⟩ := h.chain
    rw [findRSDP_eq_ok.mpr hrsdp] at hfind
    cases hfind
  | ok rsdp =>
    have hrsdp := findRSDP_eq_ok.mp hfind
    have hunique {rsdp' : ℕ} (h : TheRSDP mem rsdp') : rsdp' = rsdp :=
      List.head_eq_of_cons_eq (h.only.symm.trans hrsdp.only)
    dsimp only
    generalize hxsdt : number mem (rsdp + 24) 8 % 2 ^ 32 = xsdt
    constructor
    · intro h
      split_ifs at h with h₁ h₂ h₃
      cases hmadt : getMadt mem xsdt with
      | error _ =>
        rw [hmadt] at h
        cases h
      | ok found =>
        rw [hmadt] at h
        obtain rfl := Except.ok.inj h
        have htable : isTable mem xsdtSignature xsdt := by
          simpa [isTable] using And.intro (Bool.eq_true_of_not_eq_false h₂) (not_not.mp h₃)
        exact ⟨rsdp, xsdt, hrsdp, not_not.mp h₁, hxsdt.symm, htable, getMadt_eq_ok.mp hmadt⟩
    · intro h
      obtain ⟨rsdp', xsdt', hrsdp', hrev, rfl, htable, hmadt⟩ := h.chain
      obtain rfl := hunique hrsdp'
      rw [hxsdt] at htable hmadt
      have htable : validACPISDT (view mem xsdt) = true ∧
          strncmp (view mem xsdt) (text xsdtSignature) 4 = 0 := by
        simpa [isTable] using htable
      rw [if_neg (not_not.mpr hrev), if_neg (by simp [htable.1]), if_neg (not_not.mpr htable.2),
        getMadt_eq_ok.mpr hmadt]

/-- The accepted entries are determined by the table. -/
theorem Returned.accepted (h : Returned madt 512 512 es status w) :
    Accepted madt es' ↔ status = 0 ∧ es' = es := by
  constructor
  · rintro ⟨⟨stop, hentries, hend⟩, hstarts, hfits⟩
    obtain hlt | hle := Nat.lt_or_ge w.tempPtr stop
    · obtain ⟨rest, rfl, hrest⟩ := h.entries.continues hentries hlt.le
      cases rest with
      | nil =>
        have := hrest.of_nil
        omega
      | cons x rest =>
        obtain ⟨rfl, n, hentry, -⟩ := hrest.of_cons
        have := hstarts w.tempPtr (by simp)
        rw [List.append_cons] at hfits
        have := (h.stops.of_entry hentry hfits.of_append).1
        omega
    · obtain ⟨rest, rfl, hrest⟩ := hentries.continues h.entries hle
      cases rest with
      | nil =>
        have := hrest.of_nil
        exact ⟨h.stops.status_eq_zero.mpr (by omega), (List.append_nil _).symm⟩
      | cons x rest =>
        obtain ⟨rfl, -⟩ := hrest.of_cons
        have := h.starts x (by simp)
        omega
  · rintro ⟨hstatus, rfl⟩
    exact ⟨⟨w.tempPtr, h.entries, h.stops.status_eq_zero.mp hstatus⟩, h.starts, h.fits⟩

theorem irq2gsi_eq_some {irq : ℕ} :
    irq2gsi madt irq (ofType madt 2 es) = some gsi ↔ GsiOf madt irq es gsi := by
  rw [irq2gsi, Only.search_none, GsiOf, overrides]
  cases hfilter : (ofType madt 2 es).filter fun o => overrideIrq madt o = irq with
  | nil => simp [Only.ofList, eq_comm]
  | cons x xs =>
    cases xs with
    | nil => simp [Only.ofList, eq_comm]
    | cons y xs => simp [Only.ofList]

theorem SameRegs.refl (d : Devices) : SameRegs d d := fun _ => rfl

theorem readIoapicRegister_same (base offset : ℕ) :
    ∃ d', readIoapicRegister base offset d = ((d base).regs offset, d') ∧ SameRegs d d' := by
  refine ⟨_, rfl, fun b => ?_⟩
  by_cases hb : b = base
  · rw [hb, update_self]
  · rw [update_of_ne hb]

theorem covers_congr (h : SameRegs d d') : Covers madt d' gsi o ↔ Covers madt d gsi o := by
  rw [Covers, Covers, h]

/-- The loop searches for the I/O APICs that cover the interrupt, and only reads. -/
theorem correspondFrom_spec (hs : found ≠ .several) :
    ∃ d', correspondFrom madt gsi found xs d = (Only.search (Covers madt d gsi) found xs, d') ∧
      SameRegs d d' := by
  induction xs generalizing d found with
  | nil => exact ⟨d, rfl, .refl d⟩
  | cons o xs ih =>
    rw [correspondFrom]
    by_cases hbase : gsiBase madt o ≤ gsi
    · obtain ⟨d₁, hread, hsame⟩ := readIoapicRegister_same (d := d) (address madt o) 1
      have hcongr : (fun x => decide (Covers madt d₁ gsi x)) =
          fun x => decide (Covers madt d gsi x) := by
        funext x
        rw [decide_eq_decide]
        exact covers_congr hsame
      have hnext (found' : Only ℕ) (hs' : found' ≠ .several) :
          ∃ d', correspondFrom madt gsi found' xs d₁ =
            (Only.search (Covers madt d gsi) found' xs, d') ∧ SameRegs d d' := by
        obtain ⟨d₂, hrun, hsame'⟩ := ih (d := d₁) hs'
        rw [hcongr] at hrun
        exact ⟨d₂, hrun, fun b => (hsame' b).trans (hsame b)⟩
      rw [if_pos hbase]
      simp only [bind, StateT.bind, hread]
      by_cases hcover : Covers madt d gsi o
      · rw [if_pos hcover.2, Only.search, if_pos (decide_eq_true hcover)]
        cases hadd : found.add o with
        | several => exact ⟨d₁, rfl, hsame⟩
        | none => cases found <;> cases hadd
        | one a =>
          rw [if_neg (by simp)]
          exact hnext _ (by simp)
      · rw [if_neg (fun h => hcover ⟨hbase, h⟩), Only.search,
          if_neg (by simpa using hcover)]
        exact hnext _ hs
    · rw [if_neg hbase, Only.search, if_neg (by simp [Covers, hbase])]
      exact ih hs

/-- The index is the distance from the first interrupt of the I/O APIC. -/
theorem index_eq (h : Covers madt d gsi o) :
    (gsi + 2 ^ 32 - gsiBase madt o) % 2 ^ 32 % 2 ^ 8 = gsi - gsiBase madt o := by
  obtain ⟨hbase, hmax⟩ := h
  have hle := Nat.mod_le (maxEntry ((d (address madt o)).regs 1) + gsiBase madt o) (2 ^ 32)
  have hentry : maxEntry ((d (address madt o)).regs 1) < 2 ^ 8 := Nat.mod_lt _ (by decide)
  have hlt : gsi - gsiBase madt o < 2 ^ 8 := by omega
  rw [show gsi + 2 ^ 32 - gsiBase madt o = gsi - gsiBase madt o + 2 ^ 32 by omega,
    Nat.add_mod_right, Nat.mod_mod_of_dvd _ (by decide), Nat.mod_eq_of_lt hlt]

/-- The MADT names the route that is returned, or there is none. -/
theorem getRoute_spec (madt : ℕ → UInt8) (d : Devices) :
    ∃ d', SameRegs d d' ∧
      ((∃ route, Named madt d route ∧ getRoute madt d = (.ok route, d')) ∨
        (∀ route, ¬ Named madt d route) ∧ ∃ e, getRoute madt d = (.error e, d')) := by
  obtain ⟨es, status, w, hrun, hreturned⟩ := parse_returns madt 512 512
  have hparsed : parsed madt = (status, w) := by rw [parsed, hrun _ (Nat.lt_succ_self _)]; rfl
  have hnames {route : Route} (h : Named madt d route) : status = 0 ∧ ∃ gsi o, GsiOf madt 1 es gsi ∧
      (ofType madt 1 es).filter (Covers madt d gsi) = [o] ∧ route.base = address madt o ∧
      route.index = gsi - gsiBase madt o ∧ route.coresNum = (ofType madt 0 es).length := by
    obtain ⟨es', gsi, o, haccepted, hrest⟩ := h.names
    obtain ⟨hstatus, rfl⟩ := hreturned.accepted.mp haccepted
    exact ⟨hstatus, gsi, o, hrest⟩
  have hret := hreturned.ret
  unfold getRoute
  rw [hparsed]
  dsimp only
  rw [hret]
  by_cases hstatus : status = 0
  case neg =>
    rw [if_pos hstatus]
    exact ⟨d, .refl d, .inr ⟨fun route h => hstatus (hnames h).1, _, rfl⟩⟩
  rw [if_neg (not_not.mpr hstatus)]
  by_cases hempty : (retOf madt es).ioApicPtrList = []
  · rw [if_pos hempty]
    have hempty : ofType madt 1 es = [] := hempty
    refine ⟨d, .refl d, .inr ⟨fun route h => ?_, _, rfl⟩⟩
    obtain ⟨-, gsi, o, -, hone, -⟩ := hnames h
    rw [hempty] at hone
    cases hone
  rw [if_neg hempty]
  dsimp only [retOf]
  cases hirq : irq2gsi madt 1 (ofType madt 2 es) with
  | none =>
    refine ⟨d, .refl d, .inr ⟨fun route h => ?_, _, rfl⟩⟩
    obtain ⟨-, gsi, o, hgsi, -⟩ := hnames h
    rw [irq2gsi_eq_some.mpr hgsi] at hirq
    cases hirq
  | some gsi =>
    have hgsi := irq2gsi_eq_some.mp hirq
    obtain ⟨d', hsearch, hsame⟩ := @correspondFrom_spec madt d
      (ofType madt 1 es) gsi .none (by simp)
    refine ⟨d', hsame, ?_⟩
    have heq : (routeOf madt gsi (ofType madt 0 es).length <$>
        correspondFrom madt gsi .none (ofType madt 1 es)) d =
        (routeOf madt gsi (ofType madt 0 es).length (Only.ofList
          ((ofType madt 1 es).filter (Covers madt d gsi))), d') := by
      rw [Only.search_none] at hsearch
      simp only [Functor.map, StateT.map, hsearch]
      rfl
    dsimp only
    rw [heq]
    have hunique {gsi' : ℕ} (h : GsiOf madt 1 es gsi') : gsi' = gsi :=
      Option.some.inj ((irq2gsi_eq_some.mpr h).symm.trans hirq)
    cases hfound : Only.ofList ((ofType madt 1 es).filter (Covers madt d gsi)) with
    | one o =>
      have hone := Only.ofList_eq_one.mp hfound
      have hcovers : Covers madt d gsi o := by
        have hmem : o ∈ (ofType madt 1 es).filter (Covers madt d gsi) := by simp [hone]
        exact of_decide_eq_true (List.mem_filter.mp hmem).2
      exact .inl ⟨_, ⟨es, gsi, o, hreturned.accepted.mpr ⟨hstatus, rfl⟩, hgsi, hone, rfl,
        index_eq hcovers, rfl⟩, rfl⟩
    | none =>
      refine .inr ⟨fun route h => ?_, _, rfl⟩
      obtain ⟨-, gsi', o, hgsi', hone, -⟩ := hnames h
      rw [hunique hgsi'] at hone
      rw [hone] at hfound
      cases hfound
    | several =>
      refine .inr ⟨fun route h => ?_, _, rfl⟩
      obtain ⟨-, gsi', o, hgsi', hone, -⟩ := hnames h
      rw [hunique hgsi'] at hone
      rw [hone] at hfound
      cases hfound

/-- The two registers of an entry, before and after: the vector and the destination are those asked
for, the interrupt is fixed, physical, active high, edge triggered and not masked, and what the
controller itself sets or does not define is kept. -/
structure Redirects (apicId vector : BitVec 8) (low high low' high' : BitVec 32) : Prop where
  vector : ∀ i < 8, low'.getLsbD i = vector.getLsbD i
  clear : ∀ i ∈ [8, 9, 10, 11, 13, 15, 16], low'.getLsbD i = false
  kept : ∀ i, i = 12 ∨ i = 14 ∨ 16 < i → low'.getLsbD i = low.getLsbD i
  destination : ∀ i < 8, high'.getLsbD (24 + i) = apicId.getLsbD i
  reserved : ∀ i < 24, high'.getLsbD i = high.getLsbD i

theorem redirects (apicId vector : BitVec 8) (low high : BitVec 32) :
    Redirects apicId vector low high (low &&& 0xFFFE5000#32 ||| vector.setWidth 32)
      (high &&& 0x00ffffff#32 ||| apicId.setWidth 32 <<< 24) where
  vector i hi := by
    have hmask : ∀ i < 8, (0xFFFE5000#32).getLsbD i = false := by decide
    rw [BitVec.getLsbD_or, BitVec.getLsbD_and, BitVec.getLsbD_setWidth, hmask i hi]
    simp [show i < 32 by omega]
  clear i hi := by
    have hmask : (0xFFFE5000#32).getLsbD i = false ∧ 8 ≤ i := by
      simp only [List.mem_cons, List.not_mem_nil, or_false] at hi
      rcases hi with rfl | rfl | rfl | rfl | rfl | rfl | rfl <;> decide
    rw [BitVec.getLsbD_or, BitVec.getLsbD_and, BitVec.getLsbD_setWidth, hmask.1,
      BitVec.getLsbD_of_ge vector i hmask.2]
    simp
  kept i hi := by
    rw [BitVec.getLsbD_or, BitVec.getLsbD_and, BitVec.getLsbD_setWidth,
      BitVec.getLsbD_of_ge vector i (by omega)]
    have hmask : ∀ i < 32, (i = 12 ∨ i = 14 ∨ 16 < i) → (0xFFFE5000#32).getLsbD i = true := by
      decide
    by_cases hlt : i < 32
    · rw [hmask i hlt hi]
      simp
    · simp [BitVec.getLsbD_of_ge low i (by omega)]
  destination i hi := by
    have hmask : ∀ i < 8, (0x00ffffff#32).getLsbD (24 + i) = false := by decide
    rw [BitVec.getLsbD_or, BitVec.getLsbD_and, hmask i hi, BitVec.getLsbD_shiftLeft,
      BitVec.getLsbD_setWidth]
    simp [show 24 + i < 32 by omega, show i < 32 by omega]
  reserved i hi := by
    have hmask : ∀ i < 24, (0x00ffffff#32).getLsbD i = true := by decide
    rw [BitVec.getLsbD_or, BitVec.getLsbD_and, hmask i hi, BitVec.getLsbD_shiftLeft]
    simp [hi]

/-- The registers after the interrupt was routed. -/
structure Routed (d d' : Devices) (route : Route) (apicId vector : BitVec 8) : Prop where
  entry : Redirects apicId vector
    ((d route.base).regs (0x10 + route.index * 2))
    ((d route.base).regs (0x10 + route.index * 2 + 1))
    ((d' route.base).regs (0x10 + route.index * 2))
    ((d' route.base).regs (0x10 + route.index * 2 + 1))
  others : ∀ base r, ¬ (base = route.base ∧
    (r = 0x10 + route.index * 2 ∨ r = 0x10 + route.index * 2 + 1)) →
    (d' base).regs r = (d base).regs r

theorem writeIoapicRegister_spec (base offset : ℕ) (val : BitVec 32) :
    ∃ d', writeIoapicRegister base offset val d = ((), d') ∧
      (d' base).regs offset = val ∧
      ∀ b r, ¬ (b = base ∧ r = offset) → (d' b).regs r = (d b).regs r := by
  refine ⟨_, rfl, ?_, fun b r hne => ?_⟩
  · rw [update_self]
    exact update_self ..
  · by_cases hb : b = base
    · subst hb
      rw [update_self]
      exact update_of_ne (fun hr => hne ⟨rfl, hr⟩) ..
    · rw [update_of_ne hb]

theorem redirect_spec (route : Route) (apicId vector : BitVec 8) :
    ∃ d', redirect route apicId vector d = ((), d') ∧ Routed d d' route apicId vector := by
  obtain ⟨d₁, h₁, hs₁⟩ := readIoapicRegister_same (d := d) route.base (0x10 + route.index * 2)
  obtain ⟨d₂, h₂, hs₂⟩ := readIoapicRegister_same (d := d₁) route.base (0x10 + route.index * 2 + 1)
  rw [hs₁] at h₂
  have hs (b : ℕ) : (d₂ b).regs = (d b).regs := (hs₂ b).trans (hs₁ b)
  obtain ⟨d₃, h₃, hlow, hothers₃⟩ := writeIoapicRegister_spec (d := d₂) route.base
    (0x10 + route.index * 2)
    ((d route.base).regs (0x10 + route.index * 2) &&& 0xFFFE5000#32 ||| vector.setWidth 32)
  obtain ⟨d₄, h₄, hhigh, hothers₄⟩ := writeIoapicRegister_spec (d := d₃) route.base
    (0x10 + route.index * 2 + 1)
    ((d route.base).regs (0x10 + route.index * 2 + 1) &&& 0x00ffffff#32 |||
      apicId.setWidth 32 <<< 24)
  refine ⟨d₄, ?_, ⟨?_, fun b r hne => ?_⟩⟩
  · simp only [redirect, bind, StateT.bind, h₁, h₂, h₃, h₄]
  · rw [hhigh, hothers₄ _ _ (by omega), hlow]
    exact redirects ..
  · rw [hothers₄ b r (by omega), hothers₃ b r (by omega), hs]

/-- `map_keyboard_interrupt_to_vector` returns 0 if and only if the tables name one I/O APIC and one
number for interrupt 1. Then it changes the redirection entry of that number and nothing else, and
counts the cores; otherwise it changes no register. -/
theorem keyboard_routed (mem : Memory) (d : Devices) (apicId vector : BitVec 8) :
    (∃ madt route, TheMadt mem madt ∧ Named (view mem madt) d route ∧
      (mapKeyboardInterruptToVector mem apicId vector d).1 = some route.coresNum ∧
      Routed d (mapKeyboardInterruptToVector mem apicId vector d).2 route apicId vector) ∨
    (¬ ∃ madt route, TheMadt mem madt ∧ Named (view mem madt) d route) ∧
      (mapKeyboardInterruptToVector mem apicId vector d).1 = none ∧
      SameRegs d (mapKeyboardInterruptToVector mem apicId vector d).2 := by
  unfold mapKeyboardInterruptToVector getKeyboardIoapicBaseAndIndex
  cases hmadt : findMadt mem with
  | error status =>
    refine .inr ⟨?_, rfl, .refl d⟩
    rintro ⟨madt, route, h, -⟩
    rw [findMadt_eq_ok.mpr h] at hmadt
    cases hmadt
  | ok madt =>
    have hthe := findMadt_eq_ok.mp hmadt
    obtain ⟨d₁, hsame, ⟨route, hnamed, hget⟩ | ⟨hnone, e, hget⟩⟩ := getRoute_spec (view mem madt) d
    · obtain ⟨d₂, hredirect, hrouted⟩ := redirect_spec (d := d₁) route apicId vector
      simp only [bind, StateT.bind, hget, hredirect]
      refine .inl ⟨madt, route, hthe, hnamed, rfl, ?_⟩
      obtain ⟨hentry, hothers⟩ := hrouted
      rw [hsame] at hentry
      exact ⟨hentry, fun b r hne => (hothers b r hne).trans (congrFun (hsame b) r)⟩
    · simp only [bind, StateT.bind, hget]
      refine .inr ⟨?_, rfl, hsame⟩
      rintro ⟨madt', route, h, hnamed⟩
      obtain rfl : madt' = madt := Except.ok.inj ((findMadt_eq_ok.mpr h).symm.trans hmadt)
      exact hnone route hnamed

end MyosIo.Acpi
