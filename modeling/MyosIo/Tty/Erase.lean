import MyosIo.Tty.Cells

/-! `keyboard_thread` takes a character off the screen with `"\b \b"`. Each erased character goes
through the wrap at the end of a row again. -/
namespace MyosIo.Tty

open Function

/-- Whether `__putcharx` gets to `scroll`. -/
def Screen.scrolls (s : Screen) (c : UInt8) : Bool :=
  c ≠ 0 ∧ c ≠ 8 ∧ (c = newline ∨ s.x + 1 ≥ cols) ∧ s.y + 1 ≥ rows

/-- How often the bytes scroll the screen. -/
def Screen.scrollCount : Screen → List UInt8 → ℕ
  | _, [] => 0
  | s, c :: bytes =>
    (if s.scrolls c then 1 else 0) + (s.putcharx c).elim 0 fun t => t.scrollCount bytes

/-- How often `tty_write` does; it does not look at more than `SSIZE_MAX` bytes. -/
def Screen.writeScrolls (s : Screen) (buf : List UInt8) : ℕ :=
  s.scrollCount (buf.take (if buf.length > ssizeMax then ssizeMax else buf.length))

/-- A character that takes a cell. -/
def Shown (c : UInt8) : Prop := c ≠ 0 ∧ c ≠ 8 ∧ c ≠ newline

variable {s t : Screen} {c : UInt8} {bytes : List UInt8}

theorem scrollCount_cons (h : s.putcharx c = some t) (bytes : List UInt8) :
    s.scrollCount (c :: bytes) = (if s.scrolls c then 1 else 0) + t.scrollCount bytes := by
  rw [Screen.scrollCount, h]
  rfl

theorem scrollCount_le_length (s : Screen) (bytes : List UInt8) :
    s.scrollCount bytes ≤ bytes.length := by
  induction bytes generalizing s with
  | nil => exact Nat.le_refl _
  | cons c bytes ih =>
    have hone : (if s.scrolls c then 1 else 0) ≤ 1 := by split <;> omega
    have hrest : (s.putcharx c).elim 0 (fun t => t.scrollCount bytes) ≤ bytes.length := by
      cases s.putcharx c with
      | none => exact Nat.zero_le _
      | some t => exact ih t
    rw [Screen.scrollCount, List.length_cons]
    omega

theorem putAll_cons (h : s.putcharx c = some t) (bytes : List UInt8) :
    s.putAll (c :: bytes) = t.putAll bytes := by
  rw [Screen.putAll, List.foldlM_cons, h]
  rfl

namespace Screen

theorem OnScreen.cell_lt (h : s.OnScreen) : s.cell < rows * cols := by
  have hx := h.x
  have hy := h.y
  unfold cell rows cols at *
  omega

/-- A character before the last cell. -/
theorem OnScreen.put_before (h : s.OnScreen) (hc : Shown c) (hlt : s.cell + 1 < rows * cols) :
    s.scrolls c = false ∧ ∃ t, s.putcharx c = some t ∧ t.OnScreen ∧ t.cell = s.cell + 1 ∧
      t.vidmem = putCells s.vidmem s.cell [c] := by
  obtain ⟨hx, hy⟩ := h
  obtain ⟨h₀, h₈, hn⟩ := hc
  have hindex := OnScreen.index ⟨hx, hy⟩
  unfold cell at *
  have hrow : s.x + 1 ≥ cols → ¬ s.y + 1 ≥ rows := by
    unfold rows cols at *
    omega
  constructor
  · exact decide_eq_false fun hs => hrow (hs.2.2.1.resolve_left hn) hs.2.2.2
  · rw [Screen.putcharx, if_neg h₀, if_neg h₈, if_neg hn, poke, if_pos hindex, putCells_singleton,
      Nat.mul_comm (s.x + cols * s.y)]
    dsimp only [Option.bind_eq_bind, Option.bind_some]
    split
    next hwrap =>
      refine ⟨⟨_, 0, s.y + 1, s.cursor⟩, if_neg (hrow hwrap), ⟨Nat.zero_lt_succ _, ?_⟩, ?_, rfl⟩
      · exact Nat.not_le.mp (hrow hwrap)
      · unfold rows cols at *
        dsimp only
        omega
    next hstay =>
      refine ⟨_, rfl, ⟨?_, hy⟩, ?_, rfl⟩
      · exact Nat.not_le.mp hstay
      · dsimp only
        omega

/-- A character in the last cell. -/
theorem OnScreen.put_last (h : s.OnScreen) (hc : Shown c) (hlast : s.cell + 1 = rows * cols) :
    s.scrolls c = true ∧ ∃ t, s.putcharx c = some t ∧ t.OnScreen ∧ t.cell + cols = s.cell + 1 ∧
      t.vidmem = scrolled (putCells s.vidmem s.cell [c]) := by
  obtain ⟨hx, hy⟩ := h
  obtain ⟨h₀, h₈, hn⟩ := hc
  have hindex := OnScreen.index ⟨hx, hy⟩
  unfold cell at *
  have hwrap : s.x + 1 ≥ cols ∧ s.y + 1 ≥ rows := by
    unfold rows cols at *
    omega
  constructor
  · exact decide_eq_true ⟨h₀, h₈, .inr hwrap.1, hwrap.2⟩
  · rw [Screen.putcharx, if_neg h₀, if_neg h₈, if_neg hn, poke, if_pos hindex, putCells_singleton,
      Nat.mul_comm (s.x + cols * s.y)]
    dsimp only [Option.bind_eq_bind, Option.bind_some]
    rw [if_pos hwrap.1, Screen.nextLine]
    dsimp only
    rw [if_pos hwrap.2, scroll_eq]
    refine ⟨_, rfl, ⟨Nat.zero_lt_succ _, hy⟩, ?_, rfl⟩
    unfold rows cols at *
    dsimp only
    omega

/-- What writing a string leaves behind, as long as its first character stays on the screen. -/
theorem OnScreen.putAll_shown (h : s.OnScreen) (hb : ∀ c ∈ bytes, Shown c)
    (hk : cols * s.scrollCount bytes ≤ s.cell) :
    ∃ t, s.putAll bytes = some t ∧ t.OnScreen ∧
      t.cell + cols * s.scrollCount bytes = s.cell + bytes.length ∧
      t.vidmem = putCells (scrolled^[s.scrollCount bytes] s.vidmem)
        (s.cell - cols * s.scrollCount bytes) bytes := by
  induction bytes generalizing s with
  | nil => exact ⟨s, rfl, h, rfl, (putCells_nil _ _).symm⟩
  | cons c bytes ih =>
    obtain ⟨hc, hb⟩ := List.forall_mem_cons.mp hb
    have hcell := h.cell_lt
    obtain hlt | hlast : s.cell + 1 < rows * cols ∨ s.cell + 1 = rows * cols := by omega
    · obtain ⟨hstay, u, hu, hon, hucell, huvid⟩ := h.put_before hc hlt
      have hcount : s.scrollCount (c :: bytes) = u.scrollCount bytes := by
        rw [scrollCount_cons hu, hstay]
        simp
      rw [hcount] at hk ⊢
      obtain ⟨t, ht, hton, htcell, htvid⟩ := ih hon hb (by omega)
      refine ⟨t, (putAll_cons hu bytes).trans ht, hton, ?_, ?_⟩
      · rw [List.length_cons]
        omega
      · rw [htvid, huvid, hucell, scrolled_iterate_putCells _ _ hk
          (by rw [List.length_singleton]; omega), Nat.sub_add_comm hk, putCells_cons]
    · obtain ⟨hscroll, u, hu, hon, hucell, huvid⟩ := h.put_last hc hlast
      have hcount : s.scrollCount (c :: bytes) = u.scrollCount bytes + 1 := by
        rw [scrollCount_cons hu, hscroll, if_pos rfl, Nat.add_comm]
      rw [hcount] at hk ⊢
      have hpos : cols ≤ s.cell := by rw [Nat.mul_succ] at hk; omega
      have hk' : cols * u.scrollCount bytes ≤ s.cell - cols := by rw [Nat.mul_succ] at hk; omega
      obtain ⟨t, ht, hton, htcell, htvid⟩ := ih hon hb (by omega)
      refine ⟨t, (putAll_cons hu bytes).trans ht, hton, ?_, ?_⟩
      · rw [List.length_cons, Nat.mul_succ]
        omega
      · have hstart : u.cell - cols * u.scrollCount bytes =
            s.cell - cols - cols * u.scrollCount bytes + 1 := by omega
        rw [htvid, huvid, scrolled_putCells _ hpos (by rw [List.length_singleton]; omega),
          scrolled_iterate_putCells _ _ hk' (by rw [List.length_singleton]; omega), hstart,
          putCells_cons, ← iterate_succ_apply, Nat.mul_succ, Nat.sub_sub, Nat.add_comm cols]

/-- `'\b'` behind the first cell. -/
theorem OnScreen.put_back (h : s.OnScreen) (hpos : 0 < s.cell) :
    s.scrolls 8 = false ∧ ∃ t, s.putcharx 8 = some t ∧ t.OnScreen ∧ t.cell + 1 = s.cell ∧
      t.vidmem = s.vidmem := by
  refine ⟨by simp [scrolls], ?_⟩
  obtain ⟨hx, hy⟩ := h
  rw [Screen.putcharx, if_neg (by decide), if_pos rfl]
  unfold cell at *
  split
  next hx' =>
    refine ⟨_, rfl, ⟨?_, hy⟩, ?_, rfl⟩
    · dsimp only
      omega
    · dsimp only
      omega
  next hx' =>
    have hy' : s.y ≠ 0 := by
      intro hzero
      rw [hzero] at hpos
      omega
    rw [if_pos hy']
    refine ⟨_, rfl, ⟨Nat.sub_lt (Nat.zero_lt_succ _) Nat.one_pos, ?_⟩, ?_, rfl⟩
    · dsimp only
      omega
    · unfold cols
      dsimp only
      omega

/-- `"\b \b"` blanks the cell before the cursor and goes back to it. -/
theorem OnScreen.put_erase (h : s.OnScreen) (hpos : 0 < s.cell) (bytes : List UInt8) :
    ∃ t : Screen, s.putAll (8 :: 32 :: 8 :: bytes) = t.putAll bytes ∧
      s.scrollCount (8 :: 32 :: 8 :: bytes) = t.scrollCount bytes ∧
      t.OnScreen ∧ t.cell + 1 = s.cell ∧ t.vidmem = putCells s.vidmem t.cell [32] := by
  have hcell := h.cell_lt
  obtain ⟨hno, u, hu, hon, hucell, huvid⟩ := h.put_back hpos
  obtain ⟨hno', v, hv, hon', hvcell, hvvid⟩ :=
    hon.put_before (c := 32) ⟨by decide, by decide, by decide⟩ (by omega)
  obtain ⟨hno'', t, ht, hton, htcell, htvid⟩ := hon'.put_back (by omega)
  refine ⟨t, ?_, ?_, hton, by omega, ?_⟩
  · rw [putAll_cons hu, putAll_cons hv, putAll_cons ht]
  · rw [scrollCount_cons hu, scrollCount_cons hv, scrollCount_cons ht, hno, hno', hno'']
    simp
  · rw [htvid, hvvid, huvid, show t.cell = u.cell by omega]

theorem OnScreen.putAll_erasing {n : ℕ} (h : s.OnScreen) (hn : n ≤ s.cell) :
    ∃ t, s.putAll (erasing n) = some t ∧ s.scrollCount (erasing n) = 0 ∧ t.OnScreen ∧
      t.cell + n = s.cell ∧ t.vidmem = putCells s.vidmem t.cell (List.replicate n 32) := by
  induction n generalizing s with
  | zero => exact ⟨s, rfl, rfl, h, rfl, (putCells_nil _ _).symm⟩
  | succ n ih =>
    obtain ⟨u, hu, hcount, hon, hucell, huvid⟩ := h.put_erase (by omega) (erasing n)
    obtain ⟨t, ht, hno, hton, htcell, htvid⟩ := ih hon (by omega)
    refine ⟨t, hu.trans ht, hcount.trans hno, hton, by omega, ?_⟩
    have hlen : u.cell = t.cell + (List.replicate n (32 : UInt8)).length := by
      rw [List.length_replicate, htcell]
    rw [htvid, huvid, hlen, putCells_snoc, List.replicate_succ']

end Screen

/-- A buffer that is not cut off is put character by character. -/
theorem ttyWrite_fst {buf : List UInt8} (hlen : buf.length ≤ ssizeMax) {t : Screen}
    (h : s.putAll buf = some t) : ∃ u, (s.ttyWrite buf).map Prod.fst = some u ∧
      u.vidmem = t.vidmem ∧ u.x = t.x ∧ u.y = t.y := by
  unfold Screen.ttyWrite
  split
  next hnil =>
    obtain rfl := List.eq_nil_of_length_eq_zero hnil
    obtain rfl := Option.some.inj h
    exact ⟨s, rfl, rfl, rfl, rfl⟩
  next =>
    dsimp only
    rw [if_neg (Nat.not_lt.mpr hlen), List.take_length, h]
    exact ⟨_, rfl, rfl, rfl, rfl⟩

theorem writeScrolls_eq {buf : List UInt8} (hlen : buf.length ≤ ssizeMax) :
    s.writeScrolls buf = s.scrollCount buf := by
  rw [Screen.writeScrolls, if_neg (Nat.not_lt.mpr hlen), List.take_length]

theorem writeScrolls_le_length (s : Screen) (buf : List UInt8) :
    s.writeScrolls buf ≤ buf.length :=
  (scrollCount_le_length s _).trans (List.length_take_le' ..)

/-- A string that does not scroll its first character away is short. -/
theorem length_le_of_scrolls (h : s.OnScreen) (hp : ∀ c ∈ bytes, Shown c)
    (hk : s.scrollCount bytes ≤ s.y) : bytes.length < 2 * rows * cols := by
  have hcell := h.cell_lt
  have hle : cols * s.scrollCount bytes ≤ s.cell :=
    (Nat.mul_le_mul_left cols hk).trans (Nat.le_add_left ..)
  obtain ⟨t, -, hon, htcell, -⟩ := h.putAll_shown hp hle
  have := hon.cell_lt
  rw [Nat.mul_assoc]
  omega

theorem length_erasing (n : ℕ) : (erasing n).length = 3 * n := by
  simp [erasing, Nat.mul_comm]

/-- Erasing a string that was echoed leaves the screen as it was, scrolled as far as the echo has
scrolled it, with as many blanks from the cursor on as there were characters. -/
theorem erase_undoes_echo {p : List UInt8} (h : s.OnScreen) (hp : ∀ c ∈ p, Shown c)
    (hk : s.writeScrolls p ≤ s.y) :
    ∃ t u, (s.ttyWrite p).map Prod.fst = some t ∧
      (t.ttyWrite (erasing p.length)).map Prod.fst = some u ∧
      t.writeScrolls (erasing p.length) = 0 ∧
      u.x = s.x ∧ u.y + s.writeScrolls p = s.y ∧
      ∀ i, u.vidmem i =
        if i % 2 = 0 ∧ u.cell ≤ i / 2 ∧ i / 2 < u.cell + p.length then 32
        else scrolled^[s.writeScrolls p] s.vidmem i := by
  have hmax : 3 * (2 * rows * cols) ≤ ssizeMax := by decide
  have hlen : p.length ≤ ssizeMax := by
    by_contra hlong
    rw [Screen.writeScrolls, if_pos (Nat.not_le.mp hlong)] at hk
    have := length_le_of_scrolls h (fun c hc => hp c (List.mem_of_mem_take hc)) hk
    rw [List.length_take] at this
    omega
  rw [writeScrolls_eq hlen] at hk ⊢
  have hshort := length_le_of_scrolls h hp hk
  have herase : (erasing p.length).length ≤ ssizeMax := by
    rw [length_erasing]
    omega
  have hle : cols * s.scrollCount p ≤ s.cell :=
    (Nat.mul_le_mul_left cols hk).trans (Nat.le_add_left ..)
  obtain ⟨t₀, hput, hon₀, htcell, htvid⟩ := h.putAll_shown hp hle
  obtain ⟨t, ht, htmem, htx, hty⟩ := ttyWrite_fst hlen hput
  have hon : t.OnScreen := ⟨htx ▸ hon₀.x, hty ▸ hon₀.y⟩
  have hcell : t.cell = t₀.cell := by rw [Screen.cell, Screen.cell, htx, hty]
  obtain ⟨u₀, hput', hno, huon, hucell, huvid⟩ := hon.putAll_erasing (n := p.length) (by omega)
  obtain ⟨u, hu, humem, hux, huy⟩ := ttyWrite_fst herase hput'
  have hback : u₀.cell + cols * s.scrollCount p = s.cell := by omega
  refine ⟨t, u, ht, hu, (writeScrolls_eq herase).trans hno, ?_, ?_, fun i => ?_⟩
  · rw [hux]
    have := huon.x
    have := h.x
    unfold Screen.cell cols at *
    omega
  · rw [huy]
    have := huon.x
    have := h.x
    unfold Screen.cell cols at *
    omega
  · have hstart : s.cell - cols * s.scrollCount p = u₀.cell := by omega
    have hcell' : u.cell = u₀.cell := by rw [Screen.cell, Screen.cell, hux, huy]
    rw [humem, huvid, htmem, htvid, hstart,
      putCells_twice _ _ (by rw [List.length_replicate]), hcell', putCells, List.length_replicate]
    split
    next hin =>
      rw [List.getD_eq_getElem?_getD, List.getElem?_replicate_of_lt (by omega)]
      rfl
    next => rfl

/-- Two characters at the end of the screen. -/
theorem erase_undoes_echo_sample :
    let s : Screen := ⟨fun _ => 0, 79, 24, 0, 0⟩
    ∃ t u, (s.ttyWrite [97, 98]).map Prod.fst = some t ∧
      (t.ttyWrite (erasing 2)).map Prod.fst = some u ∧
      t.writeScrolls (erasing 2) = 0 ∧
      u.x = 79 ∧ u.y + s.writeScrolls [97, 98] = 24 ∧
      ∀ i, u.vidmem i =
        if i % 2 = 0 ∧ u.cell ≤ i / 2 ∧ i / 2 < u.cell + 2 then 32
        else scrolled^[s.writeScrolls [97, 98]] s.vidmem i :=
  erase_undoes_echo ⟨by decide, by decide⟩ (by simp [Shown, newline])
    ((writeScrolls_le_length _ _).trans (by decide))

end MyosIo.Tty
