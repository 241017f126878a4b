import Mathlib.Data.List.Basic
import Mathlib.Data.UInt
import Mathlib.Tactic.Linarith

/-! `parse_madt` of the boot loader. A pointer into the table is its offset. What lies behind the
table is memory too, and the offsets that are read are kept. -/
namespace MyosIo.Acpi

/-- `SIZE_MAX`; the boot loader is compiled with `-m32`. -/
def sizeMax : ℕ := 2 ^ 32 - 1

/-- `h.Length`. -/
def length (madt : ℕ → UInt8) : ℕ :=
  (madt 4).toNat + 2 ^ 8 * (madt 5).toNat + 2 ^ 16 * (madt 6).toNat + 2 ^ 24 * (madt 7).toNat

/-- `valid_ACPISDT`, which every table passes before it is parsed. -/
def validACPISDT (ptr : ℕ → UInt8) : Bool :=
  length ptr ≠ 0 ∧ ((List.range (length ptr)).map ptr).sum = 0

def entryType (madt : ℕ → UInt8) (o : ℕ) : ℕ := (madt o).toNat

def entryLength (madt : ℕ → UInt8) (o : ℕ) : ℕ := (madt (o + 1)).toNat

/-- The length each known type is compared with. -/
def fixedLength : ℕ → Option ℕ
  | 0 => some 8
  | 1 => some 12
  | 2 => some 10
  | 3 => some 10
  | 4 => some 6
  | 5 => some 12
  | 9 => some 16
  | _ => none

/-- The fields of `ret` but `status`; a list stands for its array and its size. -/
structure Ret where
  ioApicPtrList : List ℕ
  interruptSourceOverridePtrList : List ℕ
  coresNum : ℕ
  deriving DecidableEq

structure Walk where
  tempPtr : ℕ
  ret : Ret
  reads : List ℕ

def Walk.read (w : Walk) (offsets : List ℕ) : Walk := { w with reads := w.reads ++ offsets }

/-- What the branch of a type does after the check of the length, or the status it returns. -/
def Ret.take (maxIo maxIso type temp : ℕ) (ret : Ret) : Except ℤ Ret :=
  if type = 0 then
    if ret.coresNum = sizeMax then .error (-1)
    else .ok { ret with coresNum := ret.coresNum + 1 }
  else if type = 1 then
    if ret.ioApicPtrList.length = maxIo then .error (-3)
    else .ok { ret with ioApicPtrList := ret.ioApicPtrList ++ [temp] }
  else if type = 2 then
    if ret.interruptSourceOverridePtrList.length = maxIso then .error (-3)
    else .ok
      { ret with interruptSourceOverridePtrList := ret.interruptSourceOverridePtrList ++ [temp] }
  else .ok ret

inductive Turn
  | next (w : Walk)
  | returns (status : ℤ) (w : Walk)

/-- A turn of the loop; its condition reads `Length` each time. -/
def turn (madt : ℕ → UInt8) (maxIo maxIso : ℕ) (w : Walk) : Turn :=
  let w := w.read [4, 5, 6, 7]
  let o := w.tempPtr
  if o < length madt then
    let w := w.read [o]
    match fixedLength (entryType madt o) with
    | none => .returns (-1) w
    | some n =>
      let w := w.read [o + 1]
      if entryLength madt o ≠ n then .returns (-2) w
      else
        match w.ret.take maxIo maxIso (entryType madt o) o with
        | .error status => .returns status w
        | .ok ret => .next { w with tempPtr := o + entryLength madt o, ret }
  else .returns 0 w

def turns (madt : ℕ → UInt8) (maxIo maxIso : ℕ) : ℕ → Walk → Option (ℤ × Walk)
  | 0, _ => none
  | fuel + 1, w =>
    match turn madt maxIo maxIso w with
    | .returns status w => some (status, w)
    | .next w => turns madt maxIo maxIso fuel w

/-- `parse_madt`, if it returns within so many turns. -/
def parseMadt (madt : ℕ → UInt8) (maxIo maxIso fuel : ℕ) : Option (ℤ × Walk) :=
  turns madt maxIo maxIso fuel ⟨0x2c, ⟨[], [], 0⟩, []⟩

def Entry (madt : ℕ → UInt8) (o n : ℕ) : Prop :=
  fixedLength (entryType madt o) = some n ∧ entryLength madt o = n

/-- Entries from one offset up to another, at the listed offsets. -/
inductive Entries (madt : ℕ → UInt8) : ℕ → List ℕ → ℕ → Prop
  | nil (o : ℕ) : Entries madt o [] o
  | cons {o n stop : ℕ} {es : List ℕ} (h : Entry madt o n) (hs : Entries madt (o + n) es stop) :
      Entries madt o (o :: es) stop

/-- The bytes from the end of the header up to `Length`, if there are any, are entries. -/
def Tiled (madt : ℕ → UInt8) (es : List ℕ) : Prop := Entries madt 0x2c es (max 0x2c (length madt))

def ofType (madt : ℕ → UInt8) (type : ℕ) (es : List ℕ) : List ℕ :=
  es.filter fun o => entryType madt o = type

def Fits (madt : ℕ → UInt8) (maxIo maxIso : ℕ) (es : List ℕ) : Prop :=
  (ofType madt 1 es).length ≤ maxIo ∧ (ofType madt 2 es).length ≤ maxIso

/-- What is returned for the entries. -/
def retOf (madt : ℕ → UInt8) (es : List ℕ) : Ret :=
  ⟨ofType madt 1 es, ofType madt 2 es, (ofType madt 0 es).length⟩

/-- Well-formed tables and no others are accepted, and nothing behind the table is read. -/
structure Exact (madt : ℕ → UInt8) (maxIo maxIso : ℕ) (status : ℤ) (w : Walk) : Prop where
  accepts : status = 0 ↔ ∃ es, Tiled madt es ∧ Fits madt maxIo maxIso es
  lists : status = 0 → ∀ es, Tiled madt es → w.ret = retOf madt es
  inside : ∀ r ∈ w.reads, r < length madt

/-- After well-formed entries that fit, an entry of a known type is at the last byte of the
table, or it is itself well formed and fits, but goes on behind the table. -/
def Crosses (madt : ℕ → UInt8) (maxIo maxIso : ℕ) : Prop :=
  ∃ es o n, Entries madt 0x2c es o ∧ Fits madt maxIo maxIso es ∧ o < length madt ∧
    fixedLength (entryType madt o) = some n ∧
    (o + 1 = length madt ∨
      entryLength madt o = n ∧ Fits madt maxIo maxIso (es ++ [o]) ∧ length madt < o + n)

variable {madt : ℕ → UInt8} {maxIo maxIso o n stop stop' : ℕ} {es es' : List ℕ}

theorem length_lt (madt : ℕ → UInt8) : length madt < 2 ^ 32 := by
  have h₄ := (madt 4).toNat_lt
  have h₅ := (madt 5).toNat_lt
  have h₆ := (madt 6).toNat_lt
  have h₇ := (madt 7).toNat_lt
  unfold length
  omega

theorem fixedLength_pos {type : ℕ} (h : fixedLength type = some n) : 6 ≤ n := by
  unfold fixedLength at h
  split at h <;> simp at h <;> omega

theorem Entries.le (h : Entries madt o es stop) : o + 6 * es.length ≤ stop := by
  induction h with
  | nil o => exact Nat.le_refl _
  | cons h hs ih =>
    have := fixedLength_pos h.1
    rw [List.length_cons]
    omega

theorem Entries.of_nil (h : Entries madt o [] stop) : o = stop := by
  cases h
  rfl

theorem Entries.of_cons {x : ℕ} (h : Entries madt o (x :: es) stop) :
    x = o ∧ ∃ n, Entry madt o n ∧ Entries madt (o + n) es stop := by
  cases h with
  | cons h hs => exact ⟨rfl, _, h, hs⟩

theorem Entries.append (h : Entries madt o es stop) (h' : Entries madt stop es' stop') :
    Entries madt o (es ++ es') stop' := by
  induction h with
  | nil o => exact h'
  | cons h hs ih => exact .cons h (ih h')

theorem Entries.split {a : List ℕ} (h : Entries madt o (a ++ es) stop) :
    ∃ mid, Entries madt o a mid ∧ Entries madt mid es stop := by
  induction a generalizing o with
  | nil => exact ⟨o, .nil o, h⟩
  | cons x a ih =>
    cases h with
    | cons h hs =>
      obtain ⟨mid, ha, hes⟩ := ih hs
      exact ⟨mid, .cons h ha, hes⟩

/-- Entries from one offset on are determined as far as they go. -/
theorem Entries.continues (h : Entries madt o es stop) (h' : Entries madt o es' stop')
    (hle : stop ≤ stop') : ∃ rest, es' = es ++ rest ∧ Entries madt stop rest stop' := by
  induction h generalizing es' with
  | nil o => exact ⟨es', rfl, h'⟩
  | cons h hs ih =>
    cases h' with
    | nil =>
      have := hs.le
      have := fixedLength_pos h.1
      omega
    | cons h' hs' =>
      obtain rfl := Option.some.inj (h.1.symm.trans h'.1)
      obtain ⟨rest, rfl, hrest⟩ := ih hs' hle
      exact ⟨rest, rfl, hrest⟩

variable {w : Walk}

/-- The loop has passed the entries `es`. -/
structure Passed (madt : ℕ → UInt8) (maxIo maxIso : ℕ) (es : List ℕ) (w : Walk) : Prop where
  entries : Entries madt 0x2c es w.tempPtr
  starts : ∀ e ∈ es, e < length madt
  ret : w.ret = retOf madt es
  fits : Fits madt maxIo maxIso es
  reads : ∀ r ∈ w.reads, r < 8 ∨ ∃ e ∈ es, r = e ∨ r = e + 1
  read : ∀ e ∈ es, e + 1 ∈ w.reads

/-- Why the loop stops at an offset after `es`, and with which status. -/
inductive Stops (madt : ℕ → UInt8) (maxIo maxIso : ℕ) (es : List ℕ) (o : ℕ) : ℤ → Prop
  | finished (h : length madt ≤ o) : Stops madt maxIo maxIso es o 0
  | unknown (h : o < length madt) (hf : fixedLength (entryType madt o) = none) :
      Stops madt maxIo maxIso es o (-1)
  | mismatch {n : ℕ} (h : o < length madt) (hf : fixedLength (entryType madt o) = some n)
      (hne : entryLength madt o ≠ n) : Stops madt maxIo maxIso es o (-2)
  | full {n : ℕ} (h : o < length madt) (he : Entry madt o n)
      (hfull : ¬ Fits madt maxIo maxIso (es ++ [o])) : Stops madt maxIo maxIso es o (-3)

/-- The loop has returned after the entries `es`. -/
structure Returned (madt : ℕ → UInt8) (maxIo maxIso : ℕ) (es : List ℕ) (status : ℤ) (w : Walk) :
    Prop where
  entries : Entries madt 0x2c es w.tempPtr
  starts : ∀ e ∈ es, e < length madt
  ret : w.ret = retOf madt es
  fits : Fits madt maxIo maxIso es
  stops : Stops madt maxIo maxIso es w.tempPtr status
  header : 7 ∈ w.reads
  read : ∀ e ∈ es, e + 1 ∈ w.reads
  last : w.tempPtr < length madt → fixedLength (entryType madt w.tempPtr) ≠ none →
    w.tempPtr + 1 ∈ w.reads
  reads : ∀ r ∈ w.reads, r < 8 ∨ (∃ e ∈ es, r = e ∨ r = e + 1) ∨
    w.tempPtr < length madt ∧ (r = w.tempPtr ∨
      r = w.tempPtr + 1 ∧ fixedLength (entryType madt w.tempPtr) ≠ none)

theorem ofType_append {type : ℕ} (es : List ℕ) (o : ℕ) :
    ofType madt type (es ++ [o]) =
      ofType madt type es ++ if entryType madt o = type then [o] else [] := by
  rw [ofType, List.filter_append, ofType, List.filter_singleton]
  congr 1
  by_cases h : entryType madt o = type
  · simp [h]
  · simp [h]

/-- The counter never reaches `SIZE_MAX`: the table is too short. -/
theorem cores_lt (h : Entries madt 0x2c es o) (ho : o < length madt) :
    (ofType madt 0 es).length < sizeMax := by
  have := h.le
  have := length_lt madt
  have : (ofType madt 0 es).length ≤ es.length := List.length_filter_le ..
  unfold sizeMax
  omega

theorem take_spec (h : Entries madt 0x2c es o) (ho : o < length madt)
    (hf : Fits madt maxIo maxIso es) :
    (retOf madt es).take maxIo maxIso (entryType madt o) o = .ok (retOf madt (es ++ [o])) ∧
        Fits madt maxIo maxIso (es ++ [o]) ∨
      (retOf madt es).take maxIo maxIso (entryType madt o) o = .error (-3) ∧
        ¬ Fits madt maxIo maxIso (es ++ [o]) := by
  obtain ⟨hio, hiso⟩ := hf
  have hcores := cores_lt h ho
  unfold Ret.take Fits retOf
  simp only [ofType_append]
  by_cases h₀ : entryType madt o = 0
  · left
    simp [h₀, hio, hiso, Nat.ne_of_lt hcores]
  by_cases h₁ : entryType madt o = 1
  · by_cases hfull : (ofType madt 1 es).length = maxIo
    · right
      simp [h₁, hfull]
    · left
      have : (ofType madt 1 es).length + 1 ≤ maxIo := by omega
      simp [h₁, hfull, hiso, this]
  by_cases h₂ : entryType madt o = 2
  · by_cases hfull : (ofType madt 2 es).length = maxIso
    · right
      simp [h₂, hfull]
    · left
      have : (ofType madt 2 es).length + 1 ≤ maxIso := by omega
      simp [h₂, hfull, hio, this]
  · left
    simp [h₀, h₁, h₂, hio, hiso]

/-- A turn passes one more entry or returns. -/
theorem turn_spec (h : Passed madt maxIo maxIso es w) :
    (∃ w', turn madt maxIo maxIso w = .next w' ∧ w.tempPtr < length madt ∧
      w.tempPtr < w'.tempPtr ∧ Passed madt maxIo maxIso (es ++ [w.tempPtr]) w') ∨
    ∃ status w', turn madt maxIo maxIso w = .returns status w' ∧
      Returned madt maxIo maxIso es status w' := by
  obtain ⟨o, ret, reads⟩ := w
  obtain ⟨hentries, hstarts, rfl, hfits, hreads, hread⟩ := h
  dsimp only at hentries hreads hread ⊢
  unfold turn Walk.read
  dsimp only
  have hpast : ∀ r ∈ reads ++ [4, 5, 6, 7], r < 8 ∨ ∃ e ∈ es, r = e ∨ r = e + 1 := by
    intro r hr
    obtain hr | hr := List.mem_append.mp hr
    · exact hreads r hr
    · left
      simp only [List.mem_cons, List.not_mem_nil, or_false] at hr
      omega
  by_cases ho : o < length madt
  case neg =>
    right
    exact ⟨0, _, if_neg ho, hentries, hstarts, rfl, hfits, .finished (Nat.le_of_not_lt ho),
      by simp, fun e he => List.mem_append_left _ (hread e he), fun h => absurd h ho,
      fun r hr => (hpast r hr).imp_right .inl⟩
  rw [if_pos ho]
  cases hfixed : fixedLength (entryType madt o) with
  | none =>
    right
    refine ⟨-1, _, rfl, hentries, hstarts, rfl, hfits, .unknown ho hfixed, by simp,
      fun e he => by simp [hread e he], fun _ h => absurd hfixed h, fun r hr => ?_⟩
    obtain hr | hr := List.mem_append.mp hr
    · exact (hpast r hr).imp_right .inl
    · exact .inr (.inr ⟨ho, .inl (List.mem_singleton.mp hr)⟩)
  | some n =>
    dsimp only
    have hknown : fixedLength (entryType madt o) ≠ none := by simp [hfixed]
    have hboth : ∀ r ∈ reads ++ [4, 5, 6, 7] ++ [o] ++ [o + 1],
        (r < 8 ∨ ∃ e ∈ es, r = e ∨ r = e + 1) ∨ r = o ∨ r = o + 1 := by
      intro r hr
      rw [List.append_assoc] at hr
      obtain hr | hr := List.mem_append.mp hr
      · exact .inl (hpast r hr)
      · exact .inr (by simpa using hr)
    by_cases hlen : entryLength madt o = n
    case neg =>
      right
      refine ⟨-2, _, if_pos hlen, hentries, hstarts, rfl, hfits, .mismatch ho hfixed hlen, by simp,
        fun e he => by simp [hread e he], fun _ _ => by simp, fun r hr => ?_⟩
      obtain hr | hr := hboth r hr
      · exact hr.imp_right .inl
      · exact .inr (.inr ⟨ho, hr.imp_right fun hr => ⟨hr, hknown⟩⟩)
    rw [if_neg (not_not.mpr hlen)]
    obtain ⟨htake, hfits'⟩ | ⟨htake, hfull⟩ := take_spec hentries ho hfits
    · left
      rw [htake]
      refine ⟨_, rfl, ho, ?_, hentries.append (.cons ⟨hfixed, hlen⟩ (hlen ▸ .nil _)), ?_, rfl,
        hfits', fun r hr => ?_, ?_⟩
      · have := fixedLength_pos hfixed
        dsimp only
        omega
      · simpa [or_imp, forall_and] using ⟨hstarts, ho⟩
      · obtain (hr | ⟨e, he, hr⟩) | hr := hboth r hr
        · exact .inl hr
        · exact .inr ⟨e, List.mem_append_left _ he, hr⟩
        · exact .inr ⟨o, by simp, hr⟩
      · intro e he
        obtain he | he := List.mem_append.mp he
        · simp [hread e he]
        · simp [List.mem_singleton.mp he]
    · right
      rw [htake]
      refine ⟨-3, _, rfl, hentries, hstarts, rfl, hfits, .full ho ⟨hfixed, hlen⟩ hfull, by simp,
        fun e he => by simp [hread e he], fun _ _ => by simp, fun r hr => ?_⟩
      obtain hr | hr := hboth r hr
      · exact hr.imp_right .inl
      · exact .inr (.inr ⟨ho, hr.imp_right fun hr => ⟨hr, hknown⟩⟩)

/-- A turn that passes an entry leaves less of the table. -/
theorem turns_spec (fuel : ℕ) (h : Passed madt maxIo maxIso es w)
    (hfuel : length madt - w.tempPtr < fuel) :
    ∃ es' status w', turns madt maxIo maxIso fuel w = some (status, w') ∧
      Returned madt maxIo maxIso es' status w' := by
  induction fuel generalizing es w with
  | zero => omega
  | succ fuel ih =>
    rw [turns]
    obtain ⟨w', hturn, hlt, hmore, hpassed⟩ | ⟨status, w', hturn, hreturned⟩ := turn_spec h
    · rw [hturn]
      exact ih hpassed (by omega)
    · rw [hturn]
      exact ⟨es, status, w', rfl, hreturned⟩

theorem turns_more {fuel fuel' : ℕ} {r : ℤ × Walk} (hle : fuel ≤ fuel')
    (h : turns madt maxIo maxIso fuel w = some r) : turns madt maxIo maxIso fuel' w = some r := by
  induction fuel generalizing fuel' w with
  | zero => cases h
  | succ fuel ih =>
    obtain ⟨fuel', rfl⟩ : ∃ k, fuel' = k + 1 := ⟨fuel' - 1, by omega⟩
    rw [turns] at h ⊢
    cases hturn : turn madt maxIo maxIso w with
    | returns status w' =>
      rw [hturn] at h
      exact h
    | next w' =>
      rw [hturn] at h
      exact ih (by omega) h

/-- `parse_madt` returns, whatever the table holds. -/
theorem parse_returns (madt : ℕ → UInt8) (maxIo maxIso : ℕ) : ∃ es status w,
    (∀ fuel, length madt < fuel → parseMadt madt maxIo maxIso fuel = some (status, w)) ∧
      Returned madt maxIo maxIso es status w := by
  have hstart : Passed madt maxIo maxIso [] ⟨0x2c, ⟨[], [], 0⟩, []⟩ :=
    ⟨.nil _, nofun, rfl, ⟨Nat.zero_le _, Nat.zero_le _⟩, nofun, nofun⟩
  obtain ⟨es, status, w, hrun, hreturned⟩ :=
    turns_spec (length madt + 1) hstart (by dsimp only; omega)
  exact ⟨es, status, w, fun fuel hfuel => turns_more hfuel hrun, hreturned⟩

variable {status : ℤ}

theorem Fits.of_append (h : Fits madt maxIo maxIso (es ++ es')) : Fits madt maxIo maxIso es := by
  unfold Fits ofType at h ⊢
  simp only [List.filter_append, List.length_append] at h
  omega

theorem Entries.eq_of_same (h : Entries madt o es stop) (h' : Entries madt o es' stop) :
    es' = es := by
  obtain ⟨rest, rfl, hrest⟩ := h.continues h' (Nat.le_refl _)
  have hlen := hrest.le
  have : rest = [] := List.length_eq_zero_iff.mp (by omega)
  rw [this, List.append_nil]

/-- The last of some entries, with those before it. -/
theorem Entries.uncons_at {a rest : List ℕ} {e : ℕ} (h : Entries madt o (a ++ e :: rest) stop) :
    Entries madt o a e ∧ ∃ n, Entry madt e n ∧ Entries madt (e + n) rest stop := by
  obtain ⟨mid, ha, he⟩ := h.split
  cases he with
  | cons hentry hrest => exact ⟨ha, _, hentry, hrest⟩

/-- The loop stops at a well-formed entry that fits only if it is behind the table. -/
theorem Stops.of_entry (h : Stops madt maxIo maxIso es o status) (he : Entry madt o n)
    (hf : Fits madt maxIo maxIso (es ++ [o])) : length madt ≤ o ∧ status = 0 := by
  cases h with
  | finished h => exact ⟨h, rfl⟩
  | unknown _ hnone => simp [he.1] at hnone
  | mismatch _ hfixed hne =>
    obtain rfl := Option.some.inj (he.1.symm.trans hfixed)
    exact absurd he.2 hne
  | full _ _ hfull => exact absurd hf hfull

theorem Stops.status_eq_zero (h : Stops madt maxIo maxIso es o status) :
    status = 0 ↔ length madt ≤ o := by
  cases h with
  | finished h => exact ⟨fun _ => h, fun _ => rfl⟩
  | unknown h => exact ⟨nofun, fun _ => by omega⟩
  | mismatch h => exact ⟨nofun, fun _ => by omega⟩
  | full h => exact ⟨nofun, fun _ => by omega⟩

/-- Well-formed entries that fit are passed, as far as they begin inside the table. -/
theorem Returned.visits (h : Returned madt maxIo maxIso es status w) {a : List ℕ}
    (ha : Entries madt 0x2c a o) (ho : o < length madt) (hf : Fits madt maxIo maxIso a) :
    a = es ∧ o = w.tempPtr ∨ ∃ rest, es = a ++ o :: rest := by
  obtain hlt | hle := Nat.lt_or_ge w.tempPtr o
  · obtain ⟨rest, rfl, hrest⟩ := h.entries.continues ha hlt.le
    cases rest with
    | nil =>
      have := hrest.of_nil
      omega
    | cons x rest =>
      obtain ⟨rfl, n, hentry, -⟩ := hrest.of_cons
      rw [List.append_cons] at hf
      have := (h.stops.of_entry hentry hf.of_append).1
      omega
  · obtain ⟨rest, rfl, hrest⟩ := ha.continues h.entries hle
    cases rest with
    | nil => exact .inl ⟨(List.append_nil _).symm, hrest.of_nil⟩
    | cons x rest =>
      obtain ⟨rfl, -⟩ := hrest.of_cons
      exact .inr ⟨rest, rfl⟩

theorem Returned.not_exact (h : Returned madt maxIo maxIso es status w)
    (hc : Crosses madt maxIo maxIso) : ¬ Exact madt maxIo maxIso status w := by
  intro hexact
  obtain ⟨a, o, n, ha, hfits, ho, hfixed, hcross⟩ := hc
  obtain ⟨rfl, rfl⟩ | ⟨rest, rfl⟩ := h.visits ha ho hfits
  · obtain hlast | ⟨hlen, hfits', -⟩ := hcross
    · have := hexact.inside _ (h.last ho (by simp [hfixed]))
      omega
    · have := (h.stops.of_entry ⟨hfixed, hlen⟩ hfits').1
      omega
  · obtain hlast | ⟨hlen, -, hover⟩ := hcross
    · have := hexact.inside _ (h.read o (by simp))
      omega
    · obtain ⟨-, n', hentry, hrest⟩ := h.entries.uncons_at
      obtain rfl := Option.some.inj (hfixed.symm.trans hentry.1)
      have hbehind := hrest.le
      have hstart := ha.le
      obtain ⟨es', htiled, -⟩ := hexact.accepts.mp (h.stops.status_eq_zero.mpr (by omega))
      rw [Tiled, Nat.max_eq_right (by omega)] at htiled
      -- an entry would start at the end of the table
      obtain ⟨rest', heq, hrest'⟩ := htiled.continues h.entries (by omega)
      cases rest' with
      | nil =>
        have := hrest'.of_nil
        omega
      | cons x rest' =>
        obtain ⟨rfl, -⟩ := hrest'.of_cons
        have := h.starts (length madt) (by simp [heq])
        omega

theorem Returned.tiled (h : Returned madt maxIo maxIso es status w)
    (hc : ¬ Crosses madt maxIo maxIso) (hstatus : status = 0) : Tiled madt es := by
  have hend := h.stops.status_eq_zero.mp hstatus
  have hentries := h.entries
  obtain rfl | ⟨a, e, rfl⟩ := List.eq_nil_or_concat es
  · have hstop := hentries.of_nil
    rw [Tiled, Nat.max_eq_left (by omega)]
    exact .nil _
  · rw [List.concat_eq_append] at h hentries ⊢
    obtain ⟨ha, n, hentry, hstop⟩ := hentries.uncons_at
    have he := h.starts e (by simp)
    have hstart := ha.le
    have hle : w.tempPtr ≤ length madt := by
      by_contra hover
      have := hstop.of_nil
      exact hc ⟨a, e, n, ha, h.fits.of_append, he, hentry.1,
        .inr ⟨hentry.2, h.fits, by omega⟩⟩
    rw [Tiled, Nat.max_eq_right (by omega), ← Nat.le_antisymm hle hend]
    exact h.entries

theorem Returned.exact (h : Returned madt maxIo maxIso es status w) (hlen : 8 ≤ length madt)
    (hc : ¬ Crosses madt maxIo maxIso) : Exact madt maxIo maxIso status w where
  accepts := by
    constructor
    · intro hstatus
      exact ⟨es, h.tiled hc hstatus, h.fits⟩
    · rintro ⟨es', htiled, hfits⟩
      rw [h.stops.status_eq_zero]
      by_contra hlt
      obtain ⟨rest, rfl, hrest⟩ := h.entries.continues htiled (by omega)
      cases rest with
      | nil =>
        have := hrest.of_nil
        omega
      | cons x rest =>
        obtain ⟨rfl, n, hentry, -⟩ := hrest.of_cons
        rw [List.append_cons] at hfits
        exact hlt (h.stops.of_entry hentry hfits.of_append).1
  lists hstatus es' htiled := by
    rw [h.ret, (h.tiled hc hstatus).eq_of_same htiled]
  inside r hr := by
    obtain hheader | ⟨e, he, rfl | rfl⟩ | ⟨ho, rfl | ⟨rfl, hknown⟩⟩ := h.reads r hr
    · omega
    · exact h.starts _ he
    · have hstart := h.starts e he
      obtain ⟨a, rest, rfl⟩ := List.append_of_mem he
      obtain ⟨ha, n, hentry, -⟩ := h.entries.uncons_at
      by_contra hlast
      exact hc ⟨a, e, n, ha, h.fits.of_append, hstart, hentry.1, .inl (by omega)⟩
    · exact ho
    · obtain ⟨n, hn⟩ := Option.ne_none_iff_exists'.mp hknown
      by_contra hlast
      exact hc ⟨es, _, n, h.entries, h.fits, ho, hn, .inl (by omega)⟩

/-- `parse_madt` returns, it accepts exactly the well-formed tables and reads nothing behind the
table, if and only if the table holds its own length and no entry crosses its end. -/
theorem parse_madt_iff (madt : ℕ → UInt8) (maxIo maxIso : ℕ) :
    (∃ status w,
      (∀ fuel, length madt < fuel → parseMadt madt maxIo maxIso fuel = some (status, w)) ∧
      Exact madt maxIo maxIso status w) ↔
    8 ≤ length madt ∧ ¬ Crosses madt maxIo maxIso := by
  obtain ⟨es, status, w, hrun, hreturned⟩ := parse_returns madt maxIo maxIso
  constructor
  · rintro ⟨status', w', hrun', hexact⟩
    have heq := (hrun _ (Nat.lt_succ_self _)).symm.trans (hrun' _ (Nat.lt_succ_self _))
    obtain ⟨rfl, rfl⟩ := Prod.mk.inj (Option.some.inj heq)
    exact ⟨hexact.inside 7 hreturned.header, fun hc => hreturned.not_exact hc hexact⟩
  · rintro ⟨hlen, hc⟩
    exact ⟨status, w, hrun, hreturned.exact hlen hc⟩

/-- A table whose last byte is the type of an entry, with 8 in the byte behind it. -/
def truncated (o : ℕ) : UInt8 :=
  ([0x41, 0x50, 0x49, 0x43, 0x2d, 0, 0, 0, 0, 0xb6] ++ List.replicate 35 0 ++ [8])[o]?.getD 0

/-- It is accepted, after a read behind its end. -/
theorem truncated_accepted : validACPISDT truncated = true ∧ length truncated = 0x2d ∧
    (∃ w, parseMadt truncated 512 512 2 = some (0, w) ∧ 0x2d ∈ w.reads) ∧
    ¬ ∃ es, Tiled truncated es := by
  refine ⟨by decide, rfl, ⟨_, rfl, by decide⟩, ?_⟩
  rintro ⟨es, h⟩
  rw [Tiled, show length truncated = 0x2d from rfl] at h
  cases es with
  | nil => exact absurd h.of_nil (by decide)
  | cons x es =>
    obtain ⟨rfl, n, hentry, hrest⟩ := h.of_cons
    have := fixedLength_pos hentry.1
    have := hrest.le
    omega

end MyosIo.Acpi
