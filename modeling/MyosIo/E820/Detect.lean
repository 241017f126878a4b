import MyosIo.Mm.Init

/-! `detect_memory_e820` of the boot loader. Every call of the BIOS names a position in the array,
which moves on whether or not the entry before was recorded. -/
namespace MyosIo.E820

open Function
open Mm (E820Entry)

/-- The registers after a call that does not set the carry flag, and the entry it writes. -/
structure Response where
  eax : ℕ
  ebx : ℕ
  cl : ℕ
  entry : E820Entry

/-- `"SMAP"`. -/
def smap : ℕ := 0x534D4150

/-- `E820_ENRTY_MAX`. -/
def e820EntryMax : ℕ := 512

/-- A response of 20 bytes leaves `extend` as it is in memory. -/
def Response.store (r : Response) (old : E820Entry) : E820Entry :=
  if r.cl = 24 then r.entry else { r.entry with extend := old.extend }

/-- What memory holds after a call that names a position outside the array is not followed. -/
inductive Detected
  | returns (num : ℕ) (entrys : ℕ → E820Entry)
  | error
  | outside (position : ℕ)

/-- `es:di`. -/
def position (base di : ℕ) : ℕ := base / 16 % 2 ^ 16 * 16 + di

/-- The code after a call, at `e820_entrys[e820_entrys_num]`; none for a length it does not know. -/
def readEntry (cl num : ℕ) (entrys : ℕ → E820Entry) : Option (ℕ × (ℕ → E820Entry)) :=
  if cl = 20 then
    if (entrys num).size = 0 then some (num, entrys)
    else some (num + 1, update entrys num { entrys num with extend := 1 })
  else if cl = 24 then
    if (entrys num).extend % 2 = 0 ∨ (entrys num).size = 0 then some (num, entrys)
    else some (num + 1, entrys)
  else none

def finish (num : ℕ) (entrys : ℕ → E820Entry) : Detected :=
  if num = 0 then .error else .returns num entrys

/-- The loop; the carry flag is set when there are no responses left. -/
def detectFrom (base limit : ℕ) : List Response → ℕ → ℕ → (ℕ → E820Entry) → Detected
  | [], di, num, entrys =>
    if position base di < base ∨ base + 24 * limit < position base di + 24 then
      .outside (position base di)
    else finish num entrys
  | r :: rs, di, num, entrys =>
    if position base di < base ∨ base + 24 * limit < position base di + 24 then
      .outside (position base di)
    else if r.eax ≠ smap then .error
    else
      let slot := (position base di - base) / 24
      match readEntry r.cl num (update entrys slot (r.store (entrys slot))) with
      | none => .error
      | some (num, entrys) =>
        if r.ebx = 0 then finish num entrys
        else if num ≥ limit then .error
        else detectFrom base limit rs ((di + 24) % 2 ^ 16) num entrys

/-- `detect_memory_e820` with the array at `base`. -/
def detectMemoryE820 (base limit : ℕ) (entrys : ℕ → E820Entry) (rs : List Response) : Detected :=
  detectFrom base limit rs (base % 16) 0 entrys

def Response.kept (r : Response) : Bool := r.entry.size ≠ 0 ∧ (r.cl = 24 → r.entry.extend % 2 = 1)

def Response.recorded (r : Response) : E820Entry :=
  if r.cl = 20 then { r.entry with extend := 1 } else r.entry

def recorded (rs : List Response) : List E820Entry :=
  (rs.filter Response.kept).map Response.recorded

/-- Successful responses; only the last one may end the map. -/
def Script : List Response → Prop
  | [] => True
  | r :: rs => r.eax = smap ∧ (r.cl = 20 ∨ r.cl = 24) ∧ (r.ebx = 0 → rs = []) ∧ Script rs

/-- How often the BIOS is called; the last call may only set the carry flag. -/
def calls : List Response → ℕ
  | [] => 1
  | r :: rs => if r.ebx = 0 then 1 else calls rs + 1

/-- The array holds the entries to be recorded; without one there is an error. -/
def Detected.exact (entrys : List E820Entry) : Detected → Prop
  | .returns num a => (List.range num).map a = entrys
  | .error => entrys = []
  | .outside _ => False

/-- Nothing is to be recorded after the first response that is skipped, and no response of 20
bytes comes after it unless it is of size 0. -/
def InStep (rs : List Response) : Prop :=
  ∀ x rest, rs.dropWhile Response.kept = x :: rest →
    ∀ r ∈ rest, r.kept = false ∧ (x.entry.size ≠ 0 → r.cl = 24)

variable {base limit i j num : ℕ} {entrys : ℕ → E820Entry} {rs : List Response} {r x : Response}
  {pre : List E820Entry} {d : Detected}

theorem position_eq (hb : base < 2 ^ 20) : position base (base % 16 + 24 * i) = base + 24 * i := by
  unfold position
  omega

theorem di_succ (hl : 24 * limit + 40 ≤ 2 ^ 16) (hi : i < limit) :
    (base % 16 + 24 * i + 24) % 2 ^ 16 = base % 16 + 24 * (i + 1) := by
  omega

/-- One call with the position at slot `i`. -/
theorem detectFrom_cons (hb : base < 2 ^ 20) (hl : 24 * limit + 40 ≤ 2 ^ 16) (hi : i < limit)
    (hr : r.eax = smap) :
    detectFrom base limit (r :: rs) (base % 16 + 24 * i) num entrys =
      match readEntry r.cl num (update entrys i (r.store (entrys i))) with
      | none => .error
      | some (num, entrys) =>
        if r.ebx = 0 then finish num entrys
        else if num ≥ limit then .error
        else detectFrom base limit rs (base % 16 + 24 * (i + 1)) num entrys := by
  have hpos := position_eq (i := i) hb
  rw [detectFrom, hpos, if_neg (by omega), if_neg (by simp [hr])]
  have hslot : (base + 24 * i - base) / 24 = i := by omega
  simp only [hslot, di_succ hl hi]

theorem detectFrom_outside (rs : List Response) (num : ℕ) (entrys : ℕ → E820Entry)
    (hb : base < 2 ^ 20) (hi : limit ≤ i) :
    ∃ p, detectFrom base limit rs (base % 16 + 24 * i) num entrys = .outside p := by
  have hpos := position_eq (i := i) hb
  cases rs with
  | nil => exact ⟨_, by rw [detectFrom, hpos, if_pos (by omega)]⟩
  | cons r rs => exact ⟨_, by rw [detectFrom, hpos, if_pos (by omega)]⟩

theorem detectFrom_nil (hb : base < 2 ^ 20) (hi : i < limit) :
    detectFrom base limit [] (base % 16 + 24 * i) num entrys = finish num entrys := by
  have hpos := position_eq (i := i) hb
  rw [detectFrom, hpos, if_neg (by omega)]

theorem calls_le (rs : List Response) : calls rs ≤ rs.length + 1 := by
  induction rs with
  | nil => exact Nat.le_refl _
  | cons r rs ih =>
    rw [calls, List.length_cons]
    split
    · omega
    · omega

theorem calls_pos (rs : List Response) : 0 < calls rs := by
  cases rs with
  | nil => exact Nat.one_pos
  | cons r rs =>
    rw [calls]
    split <;> omega

/-- The code skips an entry that it has been told to be of length `cl`. -/
def skips (cl : ℕ) (e : E820Entry) : Prop := e.size = 0 ∨ cl = 24 ∧ e.extend % 2 = 0

theorem readEntry_skip {cl : ℕ} (hcl : cl = 20 ∨ cl = 24) (h : skips cl (entrys num)) :
    readEntry cl num entrys = some (num, entrys) := by
  unfold readEntry
  rcases hcl with rfl | rfl <;> simp_all [skips, or_comm]

theorem readEntry_record {cl : ℕ} (hcl : cl = 20 ∨ cl = 24) (h : ¬ skips cl (entrys num)) :
    readEntry cl num entrys = some (num + 1, update entrys num
      (if cl = 20 then { entrys num with extend := 1 } else entrys num)) := by
  unfold readEntry
  rcases hcl with rfl | rfl <;> simp_all [skips]

/-- Once the position is ahead of the index, the code looks at what an earlier call has written. -/
theorem lagging (entrys : ℕ → E820Entry) (hb : base < 2 ^ 20) (hl : 24 * limit + 40 ≤ 2 ^ 16)
    (hs : Script rs)
    (hlt : num < i) :
    (∃ p, detectFrom base limit rs (base % 16 + 24 * i) num entrys = .outside p) ∨
    ∃ n a, detectFrom base limit rs (base % 16 + 24 * i) num entrys = finish n a ∧ num ≤ n ∧
      (∀ k < num, a k = entrys k) ∧ (num < n → (a num).addr = (entrys num).addr) ∧
      i + calls rs ≤ limit ∧ (n = num → ∀ r ∈ rs, skips r.cl (entrys num)) := by
  induction rs generalizing i num entrys with
  | nil =>
    rcases Nat.lt_or_ge i limit with hi | hi
    · refine .inr ⟨num, entrys, detectFrom_nil hb hi, Nat.le_refl _, fun _ _ => rfl, ?_, hi, nofun⟩
      exact fun h => absurd h (Nat.lt_irrefl _)
    · exact .inl (detectFrom_outside _ _ _ hb hi)
  | cons r rs ih =>
    obtain ⟨heax, hcl, hlast, hs⟩ := hs
    rcases Nat.lt_or_ge i limit with hi | hi
    · rw [detectFrom_cons hb hl hi heax]
      have hnum : update entrys i (r.store (entrys i)) num = entrys num :=
        update_of_ne (Nat.ne_of_lt hlt) ..
      have hbelow : ∀ k < num, update entrys i (r.store (entrys i)) k = entrys k :=
        fun k hk => update_of_ne (by omega) ..
      generalize update entrys i (r.store (entrys i)) = b at hnum hbelow
      rw [calls]
      by_cases hsk : skips r.cl (b num)
      · rw [readEntry_skip hcl hsk]
        rw [hnum] at hsk
        dsimp only
        by_cases hebx : r.ebx = 0
        · rw [if_pos hebx, if_pos hebx, hlast hebx]
          refine .inr ⟨num, b, rfl, Nat.le_refl _, hbelow, ?_, hi, fun _ r' hr' => ?_⟩
          · exact fun h => absurd h (Nat.lt_irrefl _)
          · rwa [List.mem_singleton.mp hr']
        · rw [if_neg hebx, if_neg hebx, if_neg (by omega)]
          rcases @ih (i + 1) num b hs (Nat.lt_succ_of_lt hlt) with
            h | ⟨n, a, ha, hn, hk, haddr, hcalls, hall⟩
          · exact .inl h
          · refine .inr ⟨n, a, ha, hn, fun k hk' => (hk k hk').trans (hbelow k hk'), ?_, ?_, ?_⟩
            · intro h
              rw [haddr h, hnum]
            · omega
            · intro h r' hr'
              rcases List.mem_cons.mp hr' with rfl | hr'
              · exact hsk
              · exact hnum ▸ hall h r' hr'
      · rw [readEntry_record hcl hsk]
        dsimp only
        generalize he : (if r.cl = 20 then { b num with extend := 1 } else b num) = e
        have haddr : e.addr = (entrys num).addr := by
          rw [← he, ← hnum]
          split <;> rfl
        by_cases hebx : r.ebx = 0
        · rw [if_pos hebx, if_pos hebx]
          refine .inr ⟨num + 1, _, rfl, Nat.le_succ _, fun k hk => ?_, fun _ => ?_, hi, ?_⟩
          · rw [update_of_ne (Nat.ne_of_lt hk), hbelow k hk]
          · rw [update_self, haddr]
          · intro h
            omega
        · rw [if_neg hebx, if_neg hebx]
          have hstep : ¬ limit ≤ num + 1 := by omega
          rw [if_neg hstep]
          rcases @ih (i + 1) (num + 1) (update b num e) hs (Nat.succ_lt_succ hlt) with
            h | ⟨n, a, ha, hn, hk, -, hcalls, -⟩
          · exact .inl h
          · refine .inr ⟨n, a, ha, by omega, fun k hk' => ?_, fun _ => ?_, by omega, ?_⟩
            · rw [hk k (by omega), update_of_ne (Nat.ne_of_lt hk'), hbelow k hk']
            · rw [hk num (Nat.lt_succ_self _), update_self, haddr]
            · intro h
              omega
    · exact .inl (detectFrom_outside _ _ _ hb hi)

/-- While every call is skipped, nothing more is recorded. -/
theorem all_skipped (hb : base < 2 ^ 20) (hl : 24 * limit + 40 ≤ 2 ^ 16)
    (hs : Script rs)
    (hlt : num < i) (hi : i + calls rs ≤ limit) (hall : ∀ r ∈ rs, skips r.cl (entrys num)) :
    ∃ a, detectFrom base limit rs (base % 16 + 24 * i) num entrys = finish num a ∧
      ∀ k < num, a k = entrys k := by
  have hpos := calls_pos rs
  induction rs generalizing i entrys with
  | nil => exact ⟨entrys, detectFrom_nil hb (by omega), fun _ _ => rfl⟩
  | cons r rs ih =>
    obtain ⟨heax, hcl, hlast, hs⟩ := hs
    rw [detectFrom_cons hb hl (by omega) heax]
    have hnum : update entrys i (r.store (entrys i)) num = entrys num :=
      update_of_ne (Nat.ne_of_lt hlt) ..
    have hbelow : ∀ k < num, update entrys i (r.store (entrys i)) k = entrys k :=
      fun k hk => update_of_ne (by omega) ..
    generalize update entrys i (r.store (entrys i)) = b at hnum hbelow
    rw [readEntry_skip hcl (hnum ▸ hall r List.mem_cons_self)]
    dsimp only
    by_cases hebx : r.ebx = 0
    · rw [if_pos hebx]
      exact ⟨b, rfl, hbelow⟩
    · rw [calls, if_neg hebx] at hi
      rw [if_neg hebx, if_neg (by omega)]
      obtain ⟨a, ha, hk⟩ := @ih (i + 1) b hs (Nat.lt_succ_of_lt hlt) (by omega)
        (fun r' hr' => hnum ▸ hall r' (List.mem_cons_of_mem _ hr')) (calls_pos rs)
      exact ⟨a, ha, fun k hk' => (hk k hk').trans (hbelow k hk')⟩

theorem exact_finish (hpre : pre.length = num) (h : (List.range num).map entrys = pre) :
    (finish num entrys).exact pre := by
  unfold finish
  split
  next h0 =>
    rw [h0] at hpre
    exact List.length_eq_zero_iff.mp hpre
  next => exact h

/-- What is recorded so far is right, and says how many there are. -/
theorem exact_of_finish (h : (finish num entrys).exact pre) :
    (List.range num).map entrys = pre := by
  unfold finish at h
  split at h
  next h0 =>
    rw [h0]
    exact Eq.symm h
  next => exact h

theorem range_map_congr {a b : ℕ → E820Entry} (h : ∀ k < num, a k = b k) :
    (List.range num).map a = (List.range num).map b :=
  List.map_congr_left fun k hk => h k (List.mem_range.mp hk)

theorem store_skips (hcl : r.cl = 20 ∨ r.cl = 24) {old : E820Entry} :
    skips r.cl (r.store old) ↔ r.kept = false := by
  rcases hcl with h | h
  · simp [skips, Response.store, Response.kept, h]
  · simp [skips, Response.store, Response.kept, h]
    omega

theorem store_recorded (hcl : r.cl = 20 ∨ r.cl = 24) {old : E820Entry} :
    (if r.cl = 20 then { r.store old with extend := 1 } else r.store old) = r.recorded := by
  rcases hcl with h | h <;> simp [Response.store, Response.recorded, h]

theorem store_addr_size (r : Response) (old : E820Entry) :
    (r.store old).addr = r.entry.addr ∧ (r.store old).size = r.entry.size := by
  unfold Response.store
  split <;> exact ⟨rfl, rfl⟩

@[simp] theorem recorded_nil : recorded [] = [] := rfl

theorem recorded_eq_nil (h : ∀ r ∈ rs, r.kept = false) : recorded rs = [] := by
  unfold recorded
  rw [List.filter_eq_nil_iff.mpr fun r hr => by simp [h r hr], List.map_nil]

theorem addr_of_mem_recorded {e : E820Entry} (h : e ∈ recorded rs) :
    ∃ r ∈ rs, e.addr = r.entry.addr := by
  obtain ⟨r, hr, rfl⟩ := List.mem_map.mp h
  refine ⟨r, (List.mem_filter.mp hr).1, ?_⟩
  unfold Response.recorded
  split <;> rfl

/-- After the first skipped response `x` everything has to be skipped. -/
theorem exact_of_all_skipped (hb : base < 2 ^ 20) (hl : 24 * limit + 40 ≤ 2 ^ 16)
    (hs : Script rs)
    (hpre : (List.range num).map entrys = pre)
    (hx : (entrys num).size = 0 ∨ (entrys num).extend % 2 = 0)
    (hrest : ∀ r ∈ rs, r.kept = false ∧ ((entrys num).size ≠ 0 → r.cl = 24))
    (hi : num + 1 + calls rs ≤ limit) :
    (detectFrom base limit rs (base % 16 + 24 * (num + 1)) num entrys).exact
      (pre ++ recorded rs) := by
  have hall : ∀ r ∈ rs, skips r.cl (entrys num) := by
    intro r hr
    by_cases h0 : (entrys num).size = 0
    · exact .inl h0
    · exact .inr ⟨(hrest r hr).2 h0, hx.resolve_left h0⟩
  obtain ⟨a, ha, hk⟩ := all_skipped hb hl hs (Nat.lt_succ_self num) hi hall
  have hlen : pre.length = num := by simp [← hpre]
  rw [ha, recorded_eq_nil fun r hr => (hrest r hr).1, List.append_nil]
  exact exact_finish hlen ((range_map_congr hk).trans hpre)

theorem all_skipped_of_exact (hb : base < 2 ^ 20) (hl : 24 * limit + 40 ≤ 2 ^ 16)
    (hs : Script rs)
    (hpre : (List.range num).map entrys = pre)
    (haddr : ∀ r ∈ rs, r.entry.addr ≠ (entrys num).addr)
    (h : (detectFrom base limit rs (base % 16 + 24 * (num + 1)) num entrys).exact
      (pre ++ recorded rs)) :
    (∀ r ∈ rs, r.kept = false ∧ ((entrys num).size ≠ 0 → r.cl = 24)) ∧
      num + 1 + calls rs ≤ limit := by
  have hlen : pre.length = num := by simp [← hpre]
  rcases lagging entrys hb hl hs (Nat.lt_succ_self num) with
    ⟨p, hp⟩ | ⟨n, a, ha, hn, -, hnum, hcalls, hall⟩
  · rw [hp] at h
    exact h.elim
  rw [ha] at h
  have hlist := exact_of_finish h
  have hcount : n = num + (recorded rs).length := by
    have := congrArg List.length hlist
    simpa [hlen] using this
  have hnil : recorded rs = [] := by
    by_contra hne
    have hpos := List.length_pos_iff.mpr hne
    -- what is recorded first has been written by the response that was skipped
    have hget : (recorded rs)[0] = a num := by
      have := List.getElem_of_eq hlist (i := num) (by simp; omega)
      simpa [hlen, List.getElem_append_right] using this.symm
    obtain ⟨r, hr, hra⟩ := addr_of_mem_recorded (List.getElem_mem hpos)
    rw [hget, hnum (by omega)] at hra
    exact haddr r hr hra.symm
  refine ⟨fun r hr => ⟨?_, fun h0 => ?_⟩, hcalls⟩
  · unfold recorded at hnil
    have := List.filter_eq_nil_iff.mp (List.map_eq_nil_iff.mp hnil) r hr
    simpa using this
  · rw [hnil, List.length_nil] at hcount
    exact ((hall hcount r hr).resolve_left h0).1

theorem inStep_cons_kept (hr : r.kept = true) : InStep (r :: rs) ↔ InStep rs := by
  simp [InStep, hr]

theorem inStep_of_kept (h : ∀ r ∈ rs, r.kept = true) : InStep rs := by
  induction rs with
  | nil => simp [InStep]
  | cons r rs ih =>
    obtain ⟨hr, h⟩ := List.forall_mem_cons.mp h
    exact (inStep_cons_kept hr).mpr (ih h)

theorem inStep_cons_skipped (hr : r.kept = false) :
    InStep (r :: rs) ↔ ∀ r' ∈ rs, r'.kept = false ∧ (r.entry.size ≠ 0 → r'.cl = 24) := by
  simp [InStep, hr]

theorem lt_of_exact (hb : base < 2 ^ 20)
    (h : (detectFrom base limit rs (base % 16 + 24 * i) num entrys).exact pre) : i < limit := by
  by_contra hi
  obtain ⟨p, hp⟩ := detectFrom_outside rs num entrys hb (Nat.le_of_not_lt hi)
  rw [hp] at h
  exact h

/-- The runs that start with the position at the index. -/
theorem exact_from (entrys : ℕ → E820Entry) (hb : base < 2 ^ 20) (hl : 24 * limit + 40 ≤ 2 ^ 16)
    (hs : Script rs)
    (hpre : (List.range i).map entrys = pre) :
    (InStep rs → i + calls rs ≤ limit →
      (detectFrom base limit rs (base % 16 + 24 * i) i entrys).exact (pre ++ recorded rs)) ∧
    ((rs.map fun r => r.entry.addr).Nodup →
      (detectFrom base limit rs (base % 16 + 24 * i) i entrys).exact (pre ++ recorded rs) →
        InStep rs ∧ i + calls rs ≤ limit) := by
  induction rs generalizing i entrys pre with
  | nil =>
    have hlen : pre.length = i := by simp [← hpre]
    refine ⟨fun _ hi => ?_, fun _ h => ⟨by simp [InStep], lt_of_exact hb h⟩⟩
    rw [detectFrom_nil hb hi, recorded_nil, List.append_nil]
    exact exact_finish hlen hpre
  | cons r rs ih =>
    obtain ⟨heax, hcl, hlast, hs⟩ := hs
    have hlen : pre.length = i := by simp [← hpre]
    by_cases hi : i < limit
    case neg =>
      have := calls_pos (r :: rs)
      exact ⟨fun _ h => by omega, fun _ h => absurd (lt_of_exact hb h) hi⟩
    rw [detectFrom_cons hb hl hi heax]
    have hbelow : ∀ k < i, update entrys i (r.store (entrys i)) k = entrys k :=
      fun k hk => update_of_ne (Nat.ne_of_lt hk) ..
    have hnum : update entrys i (r.store (entrys i)) i = r.store (entrys i) := update_self ..
    generalize update entrys i (r.store (entrys i)) = b at hnum hbelow
    have hb' : (List.range i).map b = pre := (range_map_congr hbelow).trans hpre
    obtain ⟨haddr, hsize⟩ := store_addr_size r (entrys i)
    cases hk : r.kept with
    | true =>
      have hsk : ¬ skips r.cl (b i) := by
        rw [hnum, store_skips hcl, hk]
        simp
      have hrec : recorded (r :: rs) = r.recorded :: recorded rs := by simp [recorded, hk]
      have hnext : (List.range (i + 1)).map (update b i r.recorded) = pre ++ [r.recorded] := by
        rw [List.range_succ, List.map_append, List.map_singleton, update_self,
          range_map_congr fun k hk => update_of_ne (Nat.ne_of_lt hk) .., hb']
      rw [readEntry_record hcl hsk, hnum, store_recorded hcl, hrec, inStep_cons_kept hk]
      dsimp only
      by_cases hebx : r.ebx = 0
      · obtain rfl := hlast hebx
        rw [if_pos hebx, calls, if_pos hebx]
        refine ⟨fun _ _ => ?_, fun _ _ => ⟨by simp [InStep], hi⟩⟩
        exact exact_finish (by simp [hlen]) hnext
      · rw [if_neg hebx, calls, if_neg hebx]
        have hpos := calls_pos rs
        by_cases hfull : i + 1 ≥ limit
        · rw [if_pos hfull]
          refine ⟨fun _ h => by omega, fun _ h => ?_⟩
          simp [Detected.exact] at h
        · obtain ⟨h₁, h₂⟩ := ih _ hs hnext
          rw [if_neg hfull, List.append_cons]
          refine ⟨fun hin hc => h₁ hin (by omega), fun hnd h => ?_⟩
          obtain ⟨hin, hc⟩ := h₂ (List.nodup_cons.mp hnd).2 h
          exact ⟨hin, by omega⟩
    | false =>
      have hsk : skips r.cl (b i) := by rw [hnum, store_skips hcl, hk]
      have hrec : recorded (r :: rs) = recorded rs := by simp [recorded, hk]
      rw [readEntry_skip hcl hsk, hrec, inStep_cons_skipped hk]
      dsimp only
      by_cases hebx : r.ebx = 0
      · obtain rfl := hlast hebx
        rw [if_pos hebx, calls, if_pos hebx]
        refine ⟨fun _ _ => ?_, fun _ _ => ⟨nofun, hi⟩⟩
        rw [recorded_nil, List.append_nil]
        exact exact_finish hlen hb'
      · rw [if_neg hebx, if_neg (by omega), calls, if_neg hebx, ← hsize, ← hnum]
        constructor
        · intro hin hc
          exact exact_of_all_skipped hb hl hs hb' (hsk.imp id And.right) hin (by omega)
        · intro hnd h
          have hne : ∀ r' ∈ rs, r'.entry.addr ≠ (b i).addr := by
            rw [hnum, haddr]
            intro r' hr' heq
            rw [List.map_cons, List.nodup_cons] at hnd
            exact hnd.1 (List.mem_map.mpr ⟨r', hr', heq⟩)
          obtain ⟨h₁, h₂⟩ := all_skipped_of_exact hb hl hs hb' hne h
          exact ⟨h₁, by omega⟩

/-- The runs of `detect_memory_e820` from its first call on. -/
theorem exact_start (entrys : ℕ → E820Entry) (hb : base + 24 * e820EntryMax ≤ 0x60000)
    (hs : Script rs) :
    (InStep rs → calls rs ≤ e820EntryMax →
      (detectMemoryE820 base e820EntryMax entrys rs).exact (recorded rs)) ∧
    ((rs.map fun r => r.entry.addr).Nodup →
      (detectMemoryE820 base e820EntryMax entrys rs).exact (recorded rs) →
        InStep rs ∧ calls rs ≤ e820EntryMax) := by
  have hbase : base < 2 ^ 20 := by omega
  have h := exact_from (i := 0) entrys hbase
    (show 24 * e820EntryMax + 40 ≤ 2 ^ 16 by decide) hs rfl
  rwa [Nat.mul_zero, Nat.add_zero, Nat.zero_add, List.range_zero, List.map_nil,
    List.nil_append] at h

theorem exact_of_kept (entrys : ℕ → E820Entry) (hb : base + 24 * e820EntryMax ≤ 0x60000)
    (hs : Script rs) (h : ∀ r ∈ rs, r.kept = true) (hlen : rs.length < e820EntryMax) :
    (detectMemoryE820 base e820EntryMax entrys rs).exact (recorded rs) :=
  (exact_start entrys hb hs).1 (inStep_of_kept h) (Nat.le_trans (calls_le rs) hlen)

/-- `detect_memory_e820` records what the BIOS has reported if the skipped responses come last, they
are all skipped for what the first one holds, and the array has room for every call; and for
responses of different addresses only if. The array is below `0x60000` (`ASSERT` in
`bootloader.ld`). -/
theorem reported_iff (entrys : ℕ → E820Entry) (hb : base + 24 * e820EntryMax ≤ 0x60000)
    (hs : Script rs) :
    (InStep rs ∧ calls rs ≤ e820EntryMax →
      (detectMemoryE820 base e820EntryMax entrys rs).exact (recorded rs)) ∧
    ((rs.map fun r => r.entry.addr).Nodup →
      (detectMemoryE820 base e820EntryMax entrys rs).exact (recorded rs) →
        InStep rs ∧ calls rs ≤ e820EntryMax) := by
  obtain ⟨hif, honly⟩ := exact_start entrys hb hs
  exact ⟨fun h => hif h.1 h.2, honly⟩

/-- Two usable ranges and a last response of size 0. -/
def sampleScript : List Response :=
  [⟨smap, 1, 20, ⟨0, 0x9fc00, 1, 0⟩⟩, ⟨smap, 2, 24, ⟨0x100000, 0x1f00000, 1, 1⟩⟩,
    ⟨smap, 0, 20, ⟨0, 0, 1, 0⟩⟩]

theorem reported_iff_sample :
    (detectMemoryE820 0x10000 e820EntryMax (fun _ => ⟨0, 0, 0, 0⟩) sampleScript).exact
      [⟨0, 0x9fc00, 1, 1⟩, ⟨0x100000, 0x1f00000, 1, 1⟩] := by
  have hs : Script sampleScript :=
    ⟨rfl, .inl rfl, nofun, rfl, .inr rfl, nofun, rfl, .inl rfl, fun _ => rfl, trivial⟩
  refine (reported_iff _ (by decide) hs).1 ⟨?_, by decide⟩
  intro x rest hx
  obtain ⟨-, rfl⟩ : _ ∧ [] = rest := List.cons.inj hx
  nofun

/-- Two usable ranges and an empty one between them. -/
def skippingScript : List Response :=
  [⟨smap, 1, 20, ⟨0, 0x9fc00, 1, 0⟩⟩, ⟨smap, 2, 20, ⟨0xa0000, 0, 2, 0⟩⟩,
    ⟨smap, 0, 20, ⟨0x100000, 0x1f00000, 1, 0⟩⟩]

/-- The code stays at the slot it has skipped, and the second usable range is lost. -/
theorem skipped_entry_hides : Script skippingScript ∧
    (recorded skippingScript).length = 2 ∧
    ¬ (detectMemoryE820 0x10000 e820EntryMax (fun _ => ⟨0, 0, 0, 0⟩) skippingScript).exact
      (recorded skippingScript) := by
  refine ⟨⟨rfl, .inl rfl, nofun, rfl, .inl rfl, nofun, rfl, .inl rfl, fun _ => rfl, trivial⟩,
    rfl, ?_⟩
  intro h
  have := congrArg List.length h
  revert this
  decide

end MyosIo.E820
