import MyosIo.Boot.Image
import MyosIo.E820.Detect
import MyosIo.E820.Load
import MyosIo.E820.Sort

/-! `bootloader_main` up to the keyboard: the map is read, trimmed in its own array with the
`qsort` of the boot loader, and the kernel is loaded into it. The array of the map is kept apart
from the memory. -/
namespace MyosIo.Boot

open E820
open Mm (E820Entry Fault)

/-- What the kernel is entered with. -/
structure Handover where
  pos : ℕ
  num : ℕ
  entrys : ℕ → E820Entry
  machine : Machine

/-- `bootloader_main`; none when a function does not return. -/
def bootloaderMain (bios : Bios) (base buffer kernelSize : ℕ)
    (rs : List Response) (cells : ℕ → E820Entry) (stack : ℕ → Block) (m : Machine) :
    Option (Except Fault Handover) :=
  match detectMemoryE820 base e820EntryMax cells rs with
  | .outside _ => none
  | .error => some (.error (.abort "error in running E820!\n"))
  | .returns num cells =>
    (Qsort.qsortList blocksCmp (fillBlocks stack (boundaries ((List.range num).map cells)))).map
      fun blocks => do
        let (num, array) := InPlace.trimE820Entrys (fun _ => blocks) stack num ⟨cells, []⟩
        let pos ← findKernelLoadPos (kernelSizeAlign2m kernelSize)
          ((List.range num).map array.cells)
        let m ← loadKernel bios buffer kernelSize pos m
        .ok ⟨pos, num, array.cells, m⟩

/-- The boot loader from its first sector on. -/
def boot (bios : Bios) (stop base buffer kernelSize : ℕ) (rs : List Response)
    (cells : ℕ → E820Entry) (stack : ℕ → Block) (m : Machine) : Option (Except Fault Handover) :=
  match loadPart1 bios stop m >>= loadPart2 bios stop with
  | .error e => some (.error e)
  | .ok m => bootloaderMain bios base buffer kernelSize rs cells stack m

/-- The entries that cover an address all say that it is usable. -/
def UsableAt (entrys : List E820Entry) (x : ℕ) : Prop :=
  (∃ e ∈ entrys, Has e x) ∧ ∀ e ∈ entrys, Has e x → Usable e

structure KernelPlace (entrys : List E820Entry) (k p : ℕ) : Prop where
  aligned : p % 0x200000 = 0
  low : 0x1000000 ≤ p
  high : p + k ≤ 2 ^ 32
  usable : ∀ x, p ≤ x → x < p + k → UsableAt entrys x

variable {entrys outs : List E820Entry} {k p x : ℕ} {o o' : E820Entry}

/-- The ranges of the trimmed map are usable where the map is. -/
theorem usableAt_iff (ht : Trimmed entrys outs) (hx : x < 2 ^ 64) (ho : o ∈ outs) (hox : Has o x) :
    UsableAt entrys x ↔ Usable o := by
  have hcovered := (ht.covered x hx).mp ⟨o, ho, hox⟩
  have hcommon := ht.attributes x hx o ho hox
  constructor
  · rintro ⟨⟨e, he, hex⟩, hall⟩
    obtain hsame | ⟨-, -, e₁, h₁, e₂, h₂, hx₁, hx₂, hne⟩ := hcommon
    · obtain ⟨htype, hextend⟩ := hsame e he hex
      have hu := hall e he hex
      exact ⟨htype ▸ hu.1, hextend ▸ hu.2⟩
    · have hu₁ := hall e₁ h₁ hx₁
      have hu₂ := hall e₂ h₂ hx₂
      obtain hne | hne := hne
      · exact absurd (hu₁.1.trans hu₂.1.symm) hne
      · exact absurd (hu₁.2.trans hu₂.2.symm) hne
  · rintro ⟨htype, hextend⟩
    refine ⟨hcovered, fun e he hex => ?_⟩
    obtain hsame | ⟨htwo, -⟩ := hcommon
    · obtain ⟨h₁, h₂⟩ := hsame e he hex
      exact ⟨h₁.trans htype, h₂.trans hextend⟩
    · rw [htype] at htwo
      cases htwo

/-- A range that starts where another one of the trimmed map ends is the next one. -/
theorem differs_of_touch (hpos : ∀ o ∈ outs, 0 < span o)
    (hs : outs.Pairwise fun a b => a.addr + span a ≤ b.addr)
    (hm : outs.IsChain fun a b => a.addr + span a = b.addr → a.type ≠ b.type ∨ a.extend ≠ b.extend)
    (ho : o ∈ outs) (ho' : o' ∈ outs) (htouch : o.addr + span o = o'.addr) :
    o.type ≠ o'.type ∨ o.extend ≠ o'.extend := by
  induction outs with
  | nil => cases ho
  | cons first outs ih =>
    obtain ⟨hfirst, hs'⟩ := List.pairwise_cons.mp hs
    obtain ⟨hhead, hm'⟩ := List.isChain_cons.mp hm
    have hrest : ∀ o ∈ outs, 0 < span o := fun o h => hpos o (List.mem_cons_of_mem _ h)
    obtain rfl | hin := List.mem_cons.mp ho
    · obtain rfl | hin' := List.mem_cons.mp ho'
      · have := hpos _ ho
        omega
      · cases outs with
        | nil => cases hin'
        | cons second outs =>
          obtain rfl | hlater := List.mem_cons.mp hin'
          · exact hhead _ rfl htouch
          · have := hfirst second List.mem_cons_self
            have := hrest second List.mem_cons_self
            have := (List.pairwise_cons.mp hs').1 o' hlater
            omega
    · obtain rfl | hin' := List.mem_cons.mp ho'
      · have := hfirst o hin
        have := hrest o hin
        omega
      · exact ih hrest hs' hm' hin hin'

theorem span_pos (ht : Trimmed entrys outs) (ho : o ∈ outs) : 0 < span o := by
  obtain ⟨type, extend, rfl⟩ | hsize := ht.form
  · obtain rfl := List.mem_singleton.mp ho
    exact Nat.two_pow_pos 64
  · rw [span_of_pos (hsize o ho).1]
    exact (hsize o ho).1

theorem span_le (ht : Trimmed entrys outs) (ho : o ∈ outs) : o.addr + span o ≤ 2 ^ 64 := by
  obtain ⟨type, extend, rfl⟩ | hsize := ht.form
  · obtain rfl := List.mem_singleton.mp ho
    exact Nat.le_of_eq (Nat.zero_add _)
  · rw [span_of_pos (hsize o ho).1]
    exact (hsize o ho).2

/-- The trimmed map has room for the kernel exactly where the map of the BIOS has. -/
theorem canLoad_iff (ht : Trimmed entrys outs) (hk : 0 < k) :
    CanLoad k outs p ↔ KernelPlace entrys k p := by
  constructor
  · rintro ⟨o, ho, hu, hr⟩
    have hend := span_le ht ho
    refine ⟨hr.aligned, hr.low, hr.high, fun x h₁ h₂ => ?_⟩
    have := hr.start
    have := hr.stop
    exact (usableAt_iff ht (by omega) ho ⟨by omega, by omega⟩).mpr hu
  · intro h
    have hhigh := h.high
    have hstart := h.usable p (Nat.le_refl _) (by omega)
    obtain ⟨o, ho, hop⟩ := (ht.covered p (by omega)).mpr hstart.1
    have hu := (usableAt_iff ht (by omega) ho hop).mp hstart
    refine ⟨o, ho, hu, h.aligned, h.low, h.high, hop.1, ?_⟩
    by_contra hshort
    -- the byte behind the range is usable too, so the range would go on
    have hlt := hop.2
    have hbehind := h.usable (o.addr + span o) (by omega) (by omega)
    obtain ⟨o', ho', hin⟩ := (ht.covered (o.addr + span o) (by omega)).mpr hbehind.1
    have hu' := (usableAt_iff ht (by omega) ho' hin).mp hbehind
    have htouch : o.addr + span o = o'.addr := by
      have h₁ := hin.1
      have h₂ := hin.2
      have hpos := span_pos ht ho
      rcases pairwise_cases ht.sorted ho ho' with heq | hle | hle
      · subst heq
        omega
      · omega
      · omega
    obtain hne | hne := differs_of_touch (fun o ho => span_pos ht ho) ht.sorted ht.maximal ho ho'
      htouch
    · exact hne (hu.1.trans hu'.1.symm)
    · exact hne (hu.2.trans hu'.2.symm)

variable {disk : Disk} {bios : Bios} {stop base buffer kernelSize : ℕ} {rs : List Response}
  {cells : ℕ → E820Entry} {stack : ℕ → Block} {m : Machine} {r : Except Fault Handover}

theorem length_le_calls (h : Script rs) : rs.length ≤ E820.calls rs := by
  induction rs with
  | nil => exact Nat.zero_le _
  | cons r rs ih =>
    obtain ⟨-, -, hlast, hrest⟩ := h
    rw [E820.calls]
    split_ifs with hebx
    · rw [hlast hebx]
      exact Nat.le_refl 1
    · exact Nat.succ_le_succ (ih hrest)

/-- The map is recorded and trimmed, and the loader looks for a place in the result. -/
theorem bootloaderMain_eq (hbase : base + 24 * e820EntryMax ≤ 0x60000) (hscript : Script rs)
    (hstep : InStep rs) (hcalls : E820.calls rs ≤ e820EntryMax) (hsome : recorded rs ≠ [])
    (hr : Reported (recorded rs)) :
    ∃ outs array, trimSorting stack (recorded rs) = some outs ∧ Trimmed (recorded rs) outs ∧
      outs.length = ranges (recorded rs) ∧ (List.range outs.length).map array = outs ∧
      ∀ m, bootloaderMain bios base buffer kernelSize rs cells stack m = some (do
        let pos ← findKernelLoadPos (kernelSizeAlign2m kernelSize) outs
        let m ← loadKernel bios buffer kernelSize pos m
        .ok ⟨pos, outs.length, array, m⟩) := by
  have hexact := (exact_start cells hbase hscript).1 hstep hcalls
  unfold bootloaderMain
  cases hdetect : detectMemoryE820 base e820EntryMax cells rs with
  | error =>
    rw [hdetect] at hexact
    exact absurd hexact hsome
  | outside _ =>
    rw [hdetect] at hexact
    exact hexact.elim
  | returns num found =>
    rw [hdetect] at hexact
    have hentrys : (List.range num).map found = recorded rs := hexact
    have hlen : (recorded rs).length < 2 ^ 30 := by
      have hle : (recorded rs).length ≤ rs.length := by
        rw [recorded, List.length_map]
        exact List.length_filter_le ..
      have := length_le_calls hscript
      unfold e820EntryMax at hcalls
      omega
    obtain ⟨qsort, hq, htrim⟩ := trimSorting_spec stack hlen
    obtain ⟨blocks, hblocks, hsame⟩ := Option.map_eq_some_iff.mp htrim
    obtain ⟨log, hrun, -⟩ := trim_in_place (fun _ => blocks) stack found num
    have hlength := length_trim hq stack hr
    have htrimmed := trimmed_trim hq stack hr
    rw [hentrys, hsame] at hrun
    generalize trimE820Entrys qsort stack (recorded rs) = outs at htrim hrun hlength htrimmed
    have hmap : (List.range outs.length).map (overwrite found 0 outs) = outs := by
      rw [List.range_eq_range', map_overwrite]
    refine ⟨outs, _, htrim, htrimmed, hlength, hmap, fun m => ?_⟩
    dsimp only
    rw [hentrys, hblocks, Option.map_some, hrun]
    dsimp only
    rw [hmap]

/-- The kernel is loaded to the lowest place that the map of the BIOS has for it, or there is none
and the boot loader stops. -/
structure Booted (disk : Disk) (stop buffer kernelSize : ℕ) (map : List E820Entry) (m : Machine)
    (h : Handover) : Prop where
  place : KernelPlace map (kernelSizeAlign2m kernelSize) h.pos
  lowest : ∀ p, KernelPlace map (kernelSizeAlign2m kernelSize) p → h.pos ≤ p
  image : ImageLoaded disk stop buffer kernelSize h.pos m h.machine
  map : Trimmed map ((List.range h.num).map h.entrys)

theorem kernelSizeAlign_le (k : ℕ) : kernelSizeAlign512 k ≤ kernelSizeAlign2m k := by
  unfold kernelSizeAlign512 kernelSizeAlign2m
  omega

theorem findFrom_error {e : Fault} (es : List E820Entry) (h : findFrom k es = .error e) :
    findFrom k es = notFound := by
  induction es with
  | nil => rfl
  | cons o es ih =>
    rw [findFrom] at h ⊢
    cases hpad : padsize k o with
    | none => rfl
    | some pad =>
      rw [hpad] at h
      dsimp only at h ⊢
      split_ifs at h ⊢ with hroom
      exact ih h

theorem findKernelLoadPos_error {e : Fault} (es : List E820Entry)
    (h : findKernelLoadPos k es = .error e) : findKernelLoadPos k es = notFound := by
  unfold findKernelLoadPos at h ⊢
  split at h
  · split_ifs at h ⊢
    · rfl
    · exact findFrom_error _ h
  · exact findFrom_error _ h

theorem findKernelLoadPos_spec (ht : Trimmed entrys outs) (hk : 0 < k) (hk' : k ≤ 0xff000000)
    (hm : k % 0x200000 = 0) (hfirst : UsableFirst k outs) :
    (∃ p, findKernelLoadPos k outs = .ok p ∧ KernelPlace entrys k p ∧
      ∀ p', KernelPlace entrys k p' → p ≤ p') ∨
    (findKernelLoadPos k outs = notFound ∧ ∀ p, ¬ KernelPlace entrys k p) := by
  have hlowest : LowestPlace k outs (findKernelLoadPos k outs) := by
    obtain ⟨type, extend, rfl⟩ | hsize := ht.form
    · exact (lowestPlace_iff_of_super hk hk').mpr hfirst
    · exact (lowestPlace_iff_of_sized hk hk' hm ht.sorted fun o ho => (hsize o ho).1).mpr hfirst
  simp only [← canLoad_iff ht hk]
  cases hfind : findKernelLoadPos k outs with
  | ok p =>
    rw [hfind] at hlowest
    exact .inl ⟨p, rfl, hlowest⟩
  | error e =>
    rw [hfind] at hlowest
    exact .inr ⟨hfind ▸ findKernelLoadPos_error outs hfind, hlowest⟩

theorem recorded_reported (h : ∀ r ∈ rs, r.entry.addr < 2 ^ 64 ∧ r.entry.size < 2 ^ 64) :
    Reported (recorded rs) := by
  intro e he
  obtain ⟨r, hr, rfl⟩ := List.mem_map.mp he
  obtain ⟨hmem, hkept⟩ := List.mem_filter.mp hr
  obtain ⟨haddr, hsize⟩ := h r hmem
  have hne : r.entry.size ≠ 0 := by
    unfold Response.kept at hkept
    exact (of_decide_eq_true hkept).1
  unfold Response.recorded
  split_ifs
  · exact ⟨haddr, by dsimp only; omega, hsize⟩
  · exact ⟨haddr, by omega, hsize⟩

/-- From the first sector on, the boot loader loads the kernel to the lowest place that the map of
the BIOS has for it, with the whole image and the trimmed map, and it stops if there is none. The
trimmed map fits into its array, and no reserved range with room for the kernel comes first. -/
theorem boot_loads_kernel (hb : bios.Serves disk) (hstop : stop % 512 = 0)
    (hlarge : 0x7e00 < stop) (hend : stop ≤ 0x60000) (hbuf : buffer % 16 = 0)
    (hbuf' : buffer ≤ stop ∧ stop < buffer + 512) (hbase : base + 24 * e820EntryMax ≤ stop)
    (hk : 0 < kernelSize) (hk' : kernelSize ≤ 0x100000000 - 0x1000000)
    (hsector : Holds disk m.mem 0 0x7c00 1) (hread : ∀ n, ¬ (bios.answer n).failed)
    (hscript : Script rs) (hstep : InStep rs) (hcalls : E820.calls rs ≤ e820EntryMax)
    (hsome : recorded rs ≠ []) (hwords : ∀ r ∈ rs, r.entry.addr < 2 ^ 64 ∧ r.entry.size < 2 ^ 64)
    (hfit : ranges (recorded rs) ≤ e820EntryMax)
    (hfirst : ∀ outs, trimSorting stack (recorded rs) = some outs →
      UsableFirst (kernelSizeAlign2m kernelSize) outs) :
    (∃ h, boot bios stop base buffer kernelSize rs cells stack m = some (.ok h) ∧
      h.num ≤ e820EntryMax ∧ Booted disk stop buffer kernelSize (recorded rs) m h) ∨
    (boot bios stop base buffer kernelSize rs cells stack m =
        some (.error (.abort "failed to find kernel load place!")) ∧
      ∀ p, ¬ KernelPlace (recorded rs) (kernelSizeAlign2m kernelSize) p) := by
  have hsucceeds (n : ℕ) (m : Machine) : Succeeds bios n m := fun k _ _ => hread k
  obtain ⟨m₁, hload, -, hloads⟩ :=
    (@loader_reads disk bios m stop hb hstop hlarge hend).ok (hsucceeds _ _)
  obtain ⟨outs, array, htrim, ht, hlength, hmap, hmain⟩ :=
    @bootloaderMain_eq bios base buffer kernelSize rs cells stack
    (Nat.le_trans hbase hend) hscript hstep hcalls hsome (recorded_reported hwords)
  have hsize : 0 < kernelSizeAlign2m kernelSize ∧ kernelSizeAlign2m kernelSize ≤ 0xff000000 ∧
      kernelSizeAlign2m kernelSize % 0x200000 = 0 := by
    unfold kernelSizeAlign2m
    omega
  unfold boot
  rw [hload]
  dsimp only
  rw [hmain]
  obtain ⟨p, hfind, hplace, hlowest⟩ | ⟨hfind, hnone⟩ :=
    findKernelLoadPos_spec ht hsize.1 hsize.2.1 hsize.2.2 (hfirst outs htrim)
  · have hle := kernelSizeAlign_le kernelSize
    have hhigh := hplace.high
    obtain ⟨m₂, hkernel, -, himage⟩ := (kernel_reads hb hstop hlarge hend hbuf hbuf' hk
      hplace.low (by omega) hsector hloads).ok (hsucceeds _ _)
    refine .inl ⟨⟨p, outs.length, array, m₂⟩, ?_, hlength ▸ hfit, hplace, hlowest, himage, ?_⟩
    · rw [hfind, ok_bind, hkernel, ok_bind]
    · dsimp only
      rwa [hmap]
  · refine .inr ⟨?_, hnone⟩
    rw [hfind]
    rfl

/-- Nothing reserved comes first in a map that is usable. -/
theorem usableFirst_of_usable (ht : Trimmed entrys outs) (h : ∀ e ∈ entrys, Usable e) :
    UsableFirst k outs := by
  intro o ho _ hreserved
  have hin : Has o o.addr := ⟨Nat.le_refl _, Nat.lt_add_of_pos_right (span_pos ht ho)⟩
  have hle := span_le ht ho
  have hpos := span_pos ht ho
  have hlt : o.addr < 2 ^ 64 := by omega
  have hcovered := (ht.covered o.addr hlt).mp ⟨o, ho, hin⟩
  exact absurd ((usableAt_iff ht hlt ho hin).mp ⟨hcovered, fun e he _ => h e he⟩) hreserved

/-- The map of two usable ranges. -/
theorem boot_loads_kernel_sample :
    ∃ h, boot (.sound numbered) 0x20e00 0x10000 0x20d10 0x18f42 sampleScript
        (fun _ => ⟨0, 0, 0, 0⟩) (fun _ => ⟨0, 0, 0, true⟩) ⟨fun _ => 0, 0x42, []⟩ = some (.ok h) ∧
      h.pos = 0x1000000 ∧ h.machine.mem 0x1000200 = 202 := by
  have hmap : recorded sampleScript = [⟨0, 0x9fc00, 1, 1⟩, ⟨0x100000, 0x1f00000, 1, 1⟩] := rfl
  have husable : ∀ e ∈ recorded sampleScript, Usable e := by
    simp [hmap, Usable]
  have hwords : ∀ r ∈ sampleScript, r.entry.addr < 2 ^ 64 ∧ r.entry.size < 2 ^ 64 := by
    simp [sampleScript]
  have hreported := recorded_reported hwords
  have hscript : Script sampleScript :=
    ⟨rfl, .inl rfl, by simp, rfl, .inr rfl, by simp, rfl, .inl rfl, fun _ => rfl, trivial⟩
  have hstep : InStep sampleScript := by
    intro x rest hx
    obtain ⟨-, rfl⟩ : _ ∧ [] = rest := List.cons.inj hx
    simp
  have hfirst : ∀ outs, trimSorting (fun _ => ⟨0, 0, 0, true⟩) (recorded sampleScript) = some outs →
      UsableFirst (kernelSizeAlign2m 0x18f42) outs := by
    intro outs htrim
    obtain ⟨qsort, hq, heq⟩ := trimSorting_spec (fun _ => ⟨0, 0, 0, true⟩)
      (show (recorded sampleScript).length < 2 ^ 30 by decide)
    obtain rfl := Option.some.inj (heq.symm.trans htrim)
    exact usableFirst_of_usable (trimmed_trim hq _ hreported) husable
  have hplace : KernelPlace (recorded sampleScript) (kernelSizeAlign2m 0x18f42) 0x1000000 := by
    refine ⟨by decide, by decide, by decide, fun x h₁ h₂ => ⟨?_, fun e he _ => husable e he⟩⟩
    have hsize : kernelSizeAlign2m 0x18f42 = 0x200000 := rfl
    have hspan : span ⟨0x100000, 0x1f00000, 1, 1⟩ = 0x1f00000 := rfl
    rw [hmap]
    exact ⟨_, .tail _ (.head _), by dsimp only; omega, by rw [hspan]; dsimp only; omega⟩
  obtain ⟨h, hrun, -, hbooted⟩ | ⟨-, hnone⟩ := @boot_loads_kernel numbered (.sound numbered)
    0x20e00 0x10000 0x20d10 0x18f42 sampleScript (fun _ => ⟨0, 0, 0, 0⟩)
    (fun _ => ⟨0, 0, 0, true⟩) ⟨fun _ => 0, 0x42, []⟩ (Bios.sound_serves numbered) (by decide)
    (by decide) (by decide) (by decide) (by decide) (by decide) (by decide) (by decide)
    (fun i hi => by
      rw [show 0 + i / 512 = 0 by omega]
      rfl) (fun _ => by simp [Bios.sound, Answer.failed])
    hscript hstep
    (by decide) (by simp [hmap]) hwords
    (Nat.le_trans (ranges_le hreported) (by decide)) hfirst
  · have hpos : h.pos = 0x1000000 :=
      Nat.le_antisymm (hbooted.lowest _ hplace) hbooted.place.low
    refine ⟨h, hrun, hpos, ?_⟩
    have hheld := hbooted.image.kernel 0x200 (by decide)
    rw [hpos] at hheld
    exact hheld
  · exact absurd hplace (hnone _)

end MyosIo.Boot
