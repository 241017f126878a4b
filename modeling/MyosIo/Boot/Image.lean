import MyosIo.Boot.Disk
import MyosIo.Lib.Except

/-! Both loops read the image in pieces of at most 127 sectors, one after the other. -/
namespace MyosIo.Boot

open Mm (Fault)

variable {disk : Disk} {bios : Bios} {message : String} {l : LDAP} {m m' m'' : Machine}
  {mem : ℕ → UInt8} {first pos secs secs' buffer stop address secId kernelSize : ℕ}

theorem Holds.append (h : Holds disk mem first pos secs)
    (h' : Holds disk mem (first + secs) (pos + 512 * secs) secs') :
    Holds disk mem first pos (secs + secs') := by
  intro i hi
  by_cases hlt : i < 512 * secs
  · exact h i hlt
  · have hrest := h' (i - 512 * secs) (by omega)
    rw [show pos + 512 * secs + (i - 512 * secs) = pos + i by omega] at hrest
    rw [hrest, show first + secs + (i - 512 * secs) / 512 = first + i / 512 by omega,
      show (i - 512 * secs) % 512 = i % 512 by omega]

/-- Bytes that do not change keep holding the sectors. -/
theorem Holds.congr {mem' : ℕ → UInt8} (h : Holds disk mem first pos secs)
    (heq : ∀ a, pos ≤ a → a < pos + 512 * secs → mem' a = mem a) :
    Holds disk mem' first pos secs := fun i hi => by
  rw [heq _ (by omega) (by omega)]
  exact h i hi

theorem ReadOnce.refl (first : ℕ) (m : Machine) : ReadOnce first 0 m m :=
  ⟨[], (List.append_nil _).symm, rfl, by simp⟩

theorem ReadOnce.trans (h : ReadOnce first secs m m') (h' : ReadOnce (first + secs) secs' m' m'') :
    ReadOnce first (secs + secs') m m'' := by
  obtain ⟨rs, heq, hsectors, hle⟩ := h
  obtain ⟨rs', heq', hsectors', hle'⟩ := h'
  refine ⟨rs ++ rs', by rw [heq', heq, List.append_assoc], ?_, fun l hl => ?_⟩
  · rw [List.flatMap_append, hsectors, hsectors', List.range'_append_1]
  · obtain hl | hl := List.mem_append.mp hl
    · exact hle l hl
    · exact hle' l hl

/-- The machine after a request that succeeds. -/
def Machine.fulfil (disk : Disk) (l : LDAP) (m : Machine) : Machine :=
  { m with mem := readSectors disk l m.mem, requests := m.requests ++ [l] }

theorem int13_ok (hb : bios.Serves disk) (h : ¬ (bios.answer m.requests.length).failed) :
    int13 bios message l m = .ok (m.fulfil disk l) := by
  rw [int13, if_neg h, hb _ _ _ h]
  rfl

theorem int13_error (h : (bios.answer m.requests.length).failed) :
    int13 bios message l m = .error (.abort message) := if_pos h

theorem holds_fulfil (h : l.segment * 16 + l.offset = pos) :
    Holds disk (m.fulfil disk l).mem l.secId pos l.secsNum := by
  intro i hi
  unfold Machine.fulfil readSectors
  dsimp only
  rw [h, if_pos (by omega), Nat.add_sub_cancel_left]

theorem fulfil_frame (h : l.segment * 16 + l.offset = pos) {a : ℕ}
    (ha : ¬ (pos ≤ a ∧ a < pos + 512 * l.secsNum)) : (m.fulfil disk l).mem a = m.mem a := by
  unfold Machine.fulfil readSectors
  dsimp only
  rw [h, if_neg ha]

theorem readOnce_fulfil (disk : Disk) (h : l.secsNum ≤ 127) :
    ReadOnce l.secId l.secsNum m (m.fulfil disk l) :=
  ⟨[l], rfl, List.flatMap_singleton .., by simpa using h⟩

/-- The calls for so many sectors. -/
def calls (secs : ℕ) : ℕ := (secs + 126) / 127

/-- The next `n` calls of the BIOS succeed. -/
def Succeeds (bios : Bios) (n : ℕ) (m : Machine) : Prop :=
  ∀ k, m.requests.length ≤ k → k < m.requests.length + n → ¬ (bios.answer k).failed

/-- Code that makes `n` calls and stops with an error at the first one that fails. -/
structure Reads (bios : Bios) (message : String) (n : ℕ) (m : Machine)
    (r : Except Fault Machine) (P : Machine → Prop) : Prop where
  ok : Succeeds bios n m →
    ∃ m', r = .ok m' ∧ m'.requests.length = m.requests.length + n ∧ P m'
  error : ¬ Succeeds bios n m → r = .error (.abort message)

variable {n n' : ℕ} {r : Except Fault Machine} {f : Machine → Except Fault Machine}
  {P Q : Machine → Prop}

theorem Succeeds.split (hc : m'.requests.length = m.requests.length + n) :
    Succeeds bios (n + n') m ↔ Succeeds bios n m ∧ Succeeds bios n' m' := by
  constructor
  · exact fun h => ⟨fun k h₁ h₂ => h k h₁ (by omega), fun k h₁ h₂ => h k (by omega) (by omega)⟩
  · rintro ⟨h, h'⟩ k h₁ h₂
    by_cases hk : k < m.requests.length + n
    · exact h k h₁ hk
    · exact h' k (by omega) (by omega)

theorem Reads.bind (h : Reads bios message n m r P)
    (h' : ∀ m', P m' → Reads bios message n' m' (f m') Q) :
    Reads bios message (n + n') m (r >>= f) Q where
  ok hs := by
    obtain ⟨m', rfl, hc, hm⟩ := h.ok fun k h₁ h₂ => hs k h₁ (by omega)
    obtain ⟨m'', hrun, hc', hm'⟩ := (h' m' hm).ok ((Succeeds.split hc).mp hs).2
    exact ⟨m'', hrun, by omega, hm'⟩
  error hs := by
    by_cases hn : Succeeds bios n m
    · obtain ⟨m', rfl, hc, hm⟩ := h.ok hn
      exact (h' m' hm).error fun hn' => hs ((Succeeds.split hc).mpr ⟨hn, hn'⟩)
    · rw [h.error hn, error_bind]

theorem Reads.imp (h : Reads bios message n m r P) (hP : ∀ m', P m' → Q m') :
    Reads bios message n m r Q where
  ok hs := by
    obtain ⟨m', hrun, hc, hm⟩ := h.ok hs
    exact ⟨m', hrun, hc, hP m' hm⟩
  error := h.error

theorem Reads.of_requests (h : Reads bios message n m' r P) (heq : m'.requests = m.requests) :
    Reads bios message n m r P := by
  have hiff : Succeeds bios n m' ↔ Succeeds bios n m := by rw [Succeeds, Succeeds, heq]
  exact ⟨fun hs => heq ▸ h.ok (hiff.mpr hs), fun hs => h.error fun hs' => hs (hiff.mp hs')⟩

theorem Reads.pure (h : P m) : Reads bios message 0 m (.ok m) P where
  ok _ := ⟨m, rfl, rfl, h⟩
  error hs := absurd (fun k h₁ h₂ => by omega) hs

theorem int13_reads (hb : bios.Serves disk) (k : ℕ) : Reads bios message 1 m
    (int13 bios message l { m with nextLoadSecId := k })
    (· = ({ m with nextLoadSecId := k } : Machine).fulfil disk l) where
  ok hs := ⟨_, int13_ok hb (hs _ (Nat.le_refl _) (Nat.lt_succ_self _)), by
    rw [Machine.fulfil, List.length_append, List.length_singleton], rfl⟩
  error hs := by
    refine int13_error ?_
    by_contra hok
    exact hs fun k h₁ h₂ => by rwa [show k = m.requests.length by omega]

/-- What a part of the loader does when no call fails. -/
structure Loads (disk : Disk) (first pos secs : ℕ) (m m' : Machine) : Prop where
  holds : Holds disk m'.mem first pos secs
  frame : ∀ a, ¬ (pos ≤ a ∧ a < pos + 512 * secs) → m'.mem a = m.mem a
  next : m'.nextLoadSecId = first + secs
  once : ReadOnce first secs m m'

theorem Loads.append {first' pos' total : ℕ} (h : Loads disk first pos secs m m')
    (h' : Loads disk first' pos' secs' m' m'') (hfirst : first' = first + secs)
    (hpos : pos' = pos + 512 * secs) (htotal : total = secs + secs') :
    Loads disk first pos total m m'' := by
  subst hfirst hpos htotal
  exact {
    holds := (h.holds.congr fun a h₁ h₂ => h'.frame a (by omega)).append h'.holds
    frame := fun a ha => by rw [h'.frame a (by omega), h.frame a (by omega)]
    next := by rw [h'.next, Nat.add_assoc]
    once := h.once.trans h'.once }

/-- A request for consecutive sectors that also moves `next_load_sec_id`. -/
theorem int13_loads (hb : bios.Serves disk) {k : ℕ} (hsize : l.secsNum = secs)
    (hid : l.secId = first) (hplace : l.segment * 16 + l.offset = pos) (hle : secs ≤ 127)
    (hk : k = first + secs) :
    Reads bios message 1 m (int13 bios message l { m with nextLoadSecId := k })
      (Loads disk first pos secs m) := by
  subst hsize hid
  refine (int13_reads hb k).imp ?_
  rintro _ rfl
  exact ⟨holds_fulfil hplace, fun a ha => fulfil_frame hplace ha, hk, readOnce_fulfil disk hle⟩

theorem loadLast_reads (hb : bios.Serves disk) {size : ℕ} (hle : size ≤ 65024)
    (haddr : address % 16 = 0) (haddr' : address < 2 ^ 20) (hid : secId + size / 512 < 2 ^ 32) :
    Reads bios bootSectorError 1 m (loadLast bios size address secId m)
      (Loads disk secId address (size / 512) m) := by
  refine int13_loads hb ?_ rfl ?_ ?_ ?_
  · show size / 512 % 2 ^ 16 = size / 512
    omega
  · show address / 16 % 2 ^ 16 * 16 + 0 = address
    omega
  all_goals omega

/-- The loop loads everything up to `_ebootloader_align512`. -/
theorem loadRest_reads (hb : bios.Serves disk) (hstop : stop % 512 = 0) (hend : stop ≤ 2 ^ 20)
    (haddr : address % 512 = 0) (hlarge : 65024 < stop - address)
    (hid : secId + (stop - address) / 512 < 2 ^ 32) :
    Reads bios bootSectorError (calls ((stop - address) / 512)) m
      (loadRest bios stop address secId m)
      (Loads disk secId address ((stop - address) / 512) m) := by
  obtain ⟨d, hd⟩ : ∃ d, d = stop - address := ⟨_, rfl⟩
  induction d using Nat.strong_induction_on generalizing address secId m with
  | _ d ih =>
    have hsum : (stop - address) / 512 = 127 + (stop - address - 65024) / 512 := by omega
    have hcalls : calls ((stop - address) / 512) =
        1 + calls ((stop - address - 65024) / 512) := by
      unfold calls
      omega
    rw [loadRest, hcalls]
    refine Reads.bind (P := Loads disk secId address 127 m)
      (int13_loads hb rfl rfl (by dsimp only; omega) (Nat.le_refl _) (by omega)) fun m₁ hfirst => ?_
    rw [hfirst.next]
    split_ifs with hlast
    · have hone : calls ((stop - address - 65024) / 512) = 1 := by
        unfold calls
        omega
      rw [hone]
      refine (loadLast_reads hb (by omega) (by omega) (by omega) (by omega)).imp fun m₂ hrest => ?_
      exact hfirst.append hrest rfl (by omega) hsum
    · have heq : stop - (address + 65024) = stop - address - 65024 := by omega
      rw [← heq] at hsum ⊢
      refine (ih (stop - (address + 65024)) (by omega) (by omega) (by omega) (by omega) rfl).imp
        fun m₂ hrest => ?_
      exact hfirst.append hrest rfl (by omega) hsum

theorem loadPart1_reads (hb : bios.Serves disk) (hstop : stop % 512 = 0) (hlarge : 0x7e00 < stop) :
    Reads bios bootSectorError 1 m (loadPart1 bios stop m)
      (Loads disk 1 0x7e00 ((min stop 0x10000 - 0x7e00) / 512) m) := by
  obtain ⟨secs, hsecs⟩ : ∃ secs, secs = (min stop 0x10000 - 0x7e00) / 512 := ⟨_, rfl⟩
  have hplace : 0x7e0 * 16 + 0 = 0x7e00 := by decide
  unfold loadPart1
  rw [← hsecs]
  split_ifs with hfull
  · refine int13_loads hb ?_ rfl hplace ?_ ?_
    · show 0x41 = secs
      omega
    all_goals omega
  · refine int13_loads hb ?_ rfl hplace ?_ ?_
    · show ((stop / 512 + 2 ^ 16 - 0x3e) % 2 ^ 16 + 2 ^ 16 - 1) % 2 ^ 16 = secs
      omega
    all_goals omega

theorem loadPart2_reads (hb : bios.Serves disk) (hstop : stop % 512 = 0)
    (hlarge : 0x10000 ≤ stop) (hend : stop ≤ 0x60000) (hnext : m.nextLoadSecId = 0x42) :
    Reads bios bootSectorError (calls ((stop - 0x10000) / 512)) m (loadPart2 bios stop m)
      (Loads disk 0x42 0x10000 ((stop - 0x10000) / 512) m) := by
  unfold loadPart2
  split_ifs with hdone hsmall
  · obtain rfl : stop = 0x10000 := by omega
    exact .pure ⟨fun i hi => by omega, fun _ _ => rfl, hnext, .refl ..⟩
  · have hone : calls ((stop - 0x10000) / 512) = 1 := by
      unfold calls
      omega
    rw [hone]
    exact loadLast_reads hb (by omega) (by decide) (by decide) (by omega)
  · exact loadRest_reads hb hstop (by omega) (by decide) (by omega) (by omega)

/-- The calls of the BIOS until the boot loader is in memory. -/
def loaderCalls (stop : ℕ) : ℕ := 1 + calls ((stop - 0x10000) / 512)

/-- The boot loader loads all of itself, behind its first sector. -/
theorem loader_reads (hb : bios.Serves disk) (hstop : stop % 512 = 0) (hlarge : 0x7e00 < stop)
    (hend : stop ≤ 0x60000) :
    Reads bios bootSectorError (loaderCalls stop) m
      (loadPart1 bios stop m >>= loadPart2 bios stop)
      (Loads disk 1 0x7e00 ((stop - 0x7e00) / 512) m) := by
  refine (loadPart1_reads hb hstop hlarge).bind fun m₁ hfirst => ?_
  have hnext := hfirst.next
  by_cases hall : stop < 0x10000
  · have hnone : calls ((stop - 0x10000) / 512) = 0 := by
      unfold calls
      omega
    rw [loadPart2, if_pos (by omega), hnone,
      show (stop - 0x7e00) / 512 = (min stop 0x10000 - 0x7e00) / 512 by omega]
    exact .pure hfirst
  · refine (loadPart2_reads hb hstop (by omega) hend (by omega)).imp fun m₂ hrest => ?_
    exact hfirst.append hrest (by omega) (by omega) (by omega)

/-- What `load_kernel` does when no call fails. -/
structure LoadsKernel (disk : Disk) (buffer first pos secs : ℕ) (m m' : Machine) : Prop where
  holds : Holds disk m'.mem first pos secs
  frame : ∀ a, ¬ (pos ≤ a ∧ a < pos + 512 * secs) → ¬ (buffer ≤ a ∧ a < buffer + 65024) →
    m'.mem a = m.mem a
  once : ReadOnce first secs m m'

theorem holds_memcpy (h : Holds disk mem first buffer secs) :
    Holds disk (memcpy pos buffer (secs * 512) mem) first pos secs := by
  intro i hi
  rw [memcpy, if_pos (by omega), Nat.add_sub_cancel_left]
  exact h i hi

/-- A piece is read into the buffer and copied. -/
theorem piece_reads (hb : bios.Serves disk) (pos secs k : ℕ) (hsize : l.secsNum = secs)
    (hid : l.secId = m.nextLoadSecId) (hplace : l.segment * 16 + l.offset = buffer)
    (hle : secs ≤ 127) :
    Reads bios message 1 m (int13 bios message l m) fun m₁ =>
      m₁.nextLoadSecId = m.nextLoadSecId ∧ LoadsKernel disk buffer m.nextLoadSecId pos secs m
        { m₁ with mem := memcpy pos buffer (secs * 512) m₁.mem, nextLoadSecId := k } := by
  subst hsize
  refine (int13_reads hb m.nextLoadSecId).imp ?_
  rintro _ rfl
  have hholds : Holds disk (m.fulfil disk l).mem l.secId buffer l.secsNum := holds_fulfil hplace
  rw [hid] at hholds
  refine ⟨rfl, holds_memcpy hholds, fun a h₁ h₂ => ?_, hid ▸ readOnce_fulfil disk hle⟩
  show memcpy pos buffer (l.secsNum * 512) (m.fulfil disk l).mem a = m.mem a
  rw [memcpy, if_neg (by omega)]
  exact fulfil_frame hplace (by omega)

theorem LoadsKernel.append {first' pos' total : ℕ} (h : LoadsKernel disk buffer first pos secs m m')
    (h' : LoadsKernel disk buffer first' pos' secs' m' m'') (hfirst : first' = first + secs)
    (hpos : pos' = pos + 512 * secs) (htotal : total = secs + secs')
    (hbuf : buffer + 65024 ≤ pos) : LoadsKernel disk buffer first pos total m m'' := by
  subst hfirst hpos htotal
  exact {
    holds := (h.holds.congr fun a h₁ h₂ => h'.frame a (by omega) (by omega)).append h'.holds
    frame := fun a h₁ h₂ => by rw [h'.frame a (by omega) h₂, h.frame a (by omega) h₂]
    once := h.once.trans h'.once }

/-- The loop of `load_kernel` copies the kernel piece by piece. -/
theorem loadKernelFrom_reads (hb : bios.Serves disk) (hbuf : buffer % 16 = 0)
    (hbuf' : buffer < 2 ^ 20) (hsecs : 0 < secs) (hpos : buffer + 65024 ≤ pos)
    (hend : pos + 512 * secs ≤ 2 ^ 32) (hid : m.nextLoadSecId + secs ≤ 2 ^ 32) :
    Reads bios loadKernelError (calls secs) m (loadKernelFrom bios buffer secs pos m)
      (LoadsKernel disk buffer m.nextLoadSecId pos secs m) := by
  have hplace : buffer / 16 % 2 ^ 16 * 16 + 0 = buffer := by omega
  induction secs using Nat.strong_induction_on generalizing pos m with
  | _ secs ih =>
    rw [loadKernelFrom]
    split_ifs with hmore
    · have hcalls : calls secs = 1 + calls (secs - 127) := by
        unfold calls
        omega
      rw [hcalls]
      refine Reads.bind (piece_reads hb pos 127 ((m.nextLoadSecId + 127) % 2 ^ 32) rfl rfl hplace
        (Nat.le_refl _)) fun m₁ hm => ?_
      obtain ⟨hnext, hfirst⟩ := hm
      have hpos' : (pos + 127 * 512) % 2 ^ 32 = pos + 512 * 127 := by omega
      rw [hpos', hnext]
      generalize hm₂ : ({ m₁ with
        mem := memcpy pos buffer (127 * 512) m₁.mem
        nextLoadSecId := (m.nextLoadSecId + 127) % 2 ^ 32 } : Machine) = m₂ at hfirst
      have hnext₂ : m₂.nextLoadSecId = m.nextLoadSecId + 127 := by
        rw [← hm₂]
        dsimp only
        omega
      refine ((ih (secs - 127) (by omega) (by omega) (by omega) (by omega)
        (by omega)).imp fun m₃ hrest => ?_).of_requests (by rw [← hm₂])
      exact hfirst.append hrest hnext₂ rfl (by omega) hpos
    · have hcalls : calls secs = 1 + 0 := by
        unfold calls
        omega
      rw [hcalls, Nat.mod_eq_of_lt (by omega : secs < 2 ^ 16)]
      have hle : secs ≤ 127 := by omega
      refine Reads.bind (piece_reads hb pos secs m.nextLoadSecId rfl rfl hplace hle)
        fun m₁ hm => ?_
      obtain ⟨hnext, hlast⟩ := hm
      exact (Reads.pure (hnext ▸ hlast)).of_requests rfl

/-- The whole way from the first sector to the kernel. -/
def loadAll (bios : Bios) (stop buffer kernelSize pos : ℕ) (m : Machine) :
    Except Fault Machine := do
  let m ← loadPart1 bios stop m
  let m ← loadPart2 bios stop m
  loadKernel bios buffer kernelSize pos m

/-- The sectors of the boot loader with its first one, and those of the kernel. -/
def loaderSecs (stop : ℕ) : ℕ := (stop - 0x7c00) / 512

def kernelSecs (kernelSize : ℕ) : ℕ := kernelSizeAlign512 kernelSize / 512

/-- The boot loader is at `0x7c00` up to the buffer, the kernel at `pos`, and each sector of the
image was read once. Nothing else has changed, but for what is behind the boot loader. -/
structure ImageLoaded (disk : Disk) (stop buffer kernelSize pos : ℕ) (m m' : Machine) : Prop where
  loader : ∀ a, 0x7c00 ≤ a → a < buffer → m'.mem a = disk ((a - 0x7c00) / 512) ((a - 0x7c00) % 512)
  kernel : Holds disk m'.mem (loaderSecs stop) pos (kernelSecs kernelSize)
  frame : ∀ a, ¬ (0x7e00 ≤ a ∧ a < buffer + 65024) →
    ¬ (pos ≤ a ∧ a < pos + 512 * kernelSecs kernelSize) → m'.mem a = m.mem a
  once : ReadOnce 1 (loaderSecs stop - 1 + kernelSecs kernelSize) m m'

theorem kernelSecs_spec (hk : 0 < kernelSize) :
    512 * kernelSecs kernelSize = kernelSizeAlign512 kernelSize ∧ 0 < kernelSecs kernelSize := by
  unfold kernelSecs kernelSizeAlign512
  omega

/-- What `load_kernel` adds to a machine with the boot loader. -/
theorem kernel_reads (hb : bios.Serves disk) (hstop : stop % 512 = 0) (hlarge : 0x7e00 < stop)
    (hend : stop ≤ 0x60000) (hbuf : buffer % 16 = 0) (hbuf' : buffer ≤ stop ∧ stop < buffer + 512)
    (hk : 0 < kernelSize) (hpos : 0x1000000 ≤ pos)
    (hroom : pos + kernelSizeAlign512 kernelSize ≤ 2 ^ 32) (hfirst : Holds disk m.mem 0 0x7c00 1)
    (h : Loads disk 1 0x7e00 ((stop - 0x7e00) / 512) m m') :
    Reads bios loadKernelError (calls (kernelSecs kernelSize)) m'
      (loadKernel bios buffer kernelSize pos m')
      (ImageLoaded disk stop buffer kernelSize pos m) := by
  obtain ⟨hsecs, hpositive⟩ := kernelSecs_spec hk
  have hcount : loaderSecs stop = 1 + (stop - 0x7e00) / 512 := by
    unfold loaderSecs
    omega
  have hnext := h.next
  rw [← hcount] at hnext
  refine (loadKernelFrom_reads hb hbuf (by omega) hpositive (by omega) (by omega) (by omega)).imp
    fun m₂ hl => ?_
  rw [hnext] at hl
  refine ⟨fun a h₁ h₂ => ?_, hl.holds, fun a h₁ h₂ => ?_, ?_⟩
  · rw [hl.frame a (by omega) (by omega)]
    by_cases ha : a < 0x7e00
    · have hheld := hfirst (a - 0x7c00) (by omega)
      rw [show 0x7c00 + (a - 0x7c00) = a by omega, Nat.zero_add] at hheld
      rw [h.frame a (by omega), hheld]
    · have hheld := h.holds (a - 0x7e00) (by omega)
      rw [show 0x7e00 + (a - 0x7e00) = a by omega] at hheld
      rw [hheld, show (a - 0x7c00) / 512 = 1 + (a - 0x7e00) / 512 by omega,
        show (a - 0x7c00) % 512 = (a - 0x7e00) % 512 by omega]
  · rw [hl.frame a h₂ (by omega), h.frame a (by omega)]
  · rw [hcount, Nat.add_sub_cancel_left]
    exact h.once.trans (hcount ▸ hl.once)

theorem loadAll_spec (hb : bios.Serves disk) (hstop : stop % 512 = 0) (hlarge : 0x7e00 < stop)
    (hend : stop ≤ 0x60000) (hbuf : buffer % 16 = 0) (hbuf' : buffer ≤ stop ∧ stop < buffer + 512)
    (hk : 0 < kernelSize) (hpos : 0x1000000 ≤ pos)
    (hroom : pos + kernelSizeAlign512 kernelSize ≤ 2 ^ 32) (hfirst : Holds disk m.mem 0 0x7c00 1) :
    (Succeeds bios (loaderCalls stop + calls (kernelSecs kernelSize)) m →
      ∃ m', loadAll bios stop buffer kernelSize pos m = .ok m' ∧
        ImageLoaded disk stop buffer kernelSize pos m m') ∧
    (¬ Succeeds bios (loaderCalls stop + calls (kernelSecs kernelSize)) m →
      loadAll bios stop buffer kernelSize pos m = .error (.abort bootSectorError) ∨
      loadAll bios stop buffer kernelSize pos m = .error (.abort loadKernelError)) := by
  have hloader : Reads bios bootSectorError (loaderCalls stop) m
      (loadPart1 bios stop m >>= loadPart2 bios stop)
      (Loads disk 1 0x7e00 ((stop - 0x7e00) / 512) m) := loader_reads hb hstop hlarge hend
  have hkernel (m₁ : Machine) (h : Loads disk 1 0x7e00 ((stop - 0x7e00) / 512) m m₁) :
      Reads bios loadKernelError (calls (kernelSecs kernelSize)) m₁
        (loadKernel bios buffer kernelSize pos m₁)
        (ImageLoaded disk stop buffer kernelSize pos m) :=
    kernel_reads hb hstop hlarge hend hbuf hbuf' hk hpos hroom hfirst h
  have hassoc : loadAll bios stop buffer kernelSize pos m =
      (loadPart1 bios stop m >>= loadPart2 bios stop) >>=
        loadKernel bios buffer kernelSize pos := by
    unfold loadAll
    cases loadPart1 bios stop m <;> rfl
  rw [hassoc]
  by_cases hs : Succeeds bios (loaderCalls stop) m
  · obtain ⟨m₁, hrun, hc, hm₁⟩ := hloader.ok hs
    rw [hrun, ok_bind, Succeeds.split hc]
    constructor
    · rintro ⟨-, hs'⟩
      obtain ⟨m₂, hrun', -, himage⟩ := (hkernel m₁ hm₁).ok hs'
      exact ⟨m₂, hrun', himage⟩
    · exact fun hs' => .inr ((hkernel m₁ hm₁).error fun h => hs' ⟨hs, h⟩)
  · rw [hloader.error hs]
    exact ⟨fun h => absurd (fun k h₁ h₂ => h k h₁ (by omega)) hs, fun _ => .inl rfl⟩

/-- The whole disk image is loaded, the kernel to wherever it is to be, if and only if no call of
the BIOS fails. The bounds on `_ebootloader_align512` are those of `bootloader.ld`. -/
theorem image_loaded (hb : bios.Serves disk) (hstop : stop % 512 = 0) (hlarge : 0x7e00 < stop)
    (hend : stop ≤ 0x60000) (hbuf : buffer % 16 = 0) (hbuf' : buffer ≤ stop ∧ stop < buffer + 512)
    (hk : 0 < kernelSize) (hpos : 0x1000000 ≤ pos)
    (hroom : pos + kernelSizeAlign512 kernelSize ≤ 2 ^ 32) (hfirst : Holds disk m.mem 0 0x7c00 1) :
    (∃ m', loadAll bios stop buffer kernelSize pos m = .ok m' ∧
        ImageLoaded disk stop buffer kernelSize pos m m') ↔
      Succeeds bios (loaderCalls stop + calls (kernelSecs kernelSize)) m := by
  obtain ⟨hok, herror⟩ := loadAll_spec hb hstop hlarge hend hbuf hbuf' hk hpos hroom hfirst
  refine ⟨fun h => ?_, hok⟩
  obtain ⟨m', hrun, -⟩ := h
  by_contra hs
  obtain he | he := herror hs
  all_goals
    rw [hrun] at he
    cases he

/-- Every sector holds its number. -/
def numbered : Disk := fun sec _ => UInt8.ofNat sec

/-- A BIOS that never fails. -/
def Bios.sound (disk : Disk) : Bios := ⟨fun _ => ⟨false, 0⟩, fun _ => readSectors disk⟩

theorem Bios.sound_serves (disk : Disk) : (sound disk).Serves disk := fun _ _ _ _ => rfl

/-- A boot loader of 201 sectors, with a kernel of 200 behind it. -/
theorem image_loaded_sample :
    ∃ m', loadAll (.sound numbered) 0x20e00 0x20d10 0x18f42 0x1000000 ⟨fun _ => 0, 0x42, []⟩ =
        .ok m' ∧ m'.mem 0x1000200 = 202 ∧ m'.mem 0x20c00 = 200 := by
  obtain ⟨m', hrun, himage⟩ := (@image_loaded numbered (.sound numbered)
    ⟨fun _ => 0, 0x42, []⟩ 0x1000000 0x20d10 0x20e00 0x18f42 (Bios.sound_serves numbered)
    (by decide) (by decide) (by decide) (by decide) (by decide) (by decide) (by decide) (by decide)
    fun i hi => by
      rw [show 0 + i / 512 = 0 by omega]
      rfl).mpr fun _ _ _ => by simp [Bios.sound, Answer.failed]
  refine ⟨m', hrun, ?_, ?_⟩
  · exact himage.kernel 0x200 (by decide)
  · exact himage.loader 0x20c00 (by decide) (by decide)

end MyosIo.Boot
