import MyosIo.Tty.Model

/-! `tty_write`, `tty_writev` and `kernel_init_part0` over video memory. An access outside video
memory has no result. -/
namespace MyosIo.Tty

open Function

/-- `ROWS`. -/
def rows : ℕ := 25

/-- `COLS`. -/
def cols : ℕ := 80

/-- `CHAR_ATTR`. -/
def charAttr : UInt8 := 0b00001111

/-- `cursor` holds the registers 14 and 15 of the video controller. -/
structure Screen where
  vidmem : ℕ → UInt8
  x : ℕ
  y : ℕ
  cursor : UInt8 × UInt8

/-- `VIDMEM[i] = c`. -/
def poke (vidmem : ℕ → UInt8) (i : ℕ) (c : UInt8) : Option (ℕ → UInt8) :=
  if i < rows * cols * 2 then some (update vidmem i c) else none

/-- `memmove(VIDMEM + dst, VIDMEM + src, n)`. -/
def memmove (vidmem : ℕ → UInt8) (dst src n : ℕ) : Option (ℕ → UInt8) :=
  if dst + n ≤ rows * cols * 2 ∧ src + n ≤ rows * cols * 2 then
    some fun i => if dst ≤ i ∧ i < dst + n then vidmem (src + (i - dst)) else vidmem i
  else none

/-- `for (i = a; i < b; i += 2)`. -/
def evens (a b : ℕ) : List ℕ := List.range' a ((b - a + 1) / 2) 2

def scroll (vidmem : ℕ → UInt8) : Option (ℕ → UInt8) := do
  let vidmem ← memmove vidmem 0 (cols * 2) ((rows - 1) * cols * 2)
  (evens ((rows - 1) * cols * 2) (rows * cols * 2)).foldlM (fun m i => poke m i 0) vidmem

namespace Screen

/-- `update_cursor`. -/
def updateCursor (s : Screen) : Screen :=
  let pos := (s.x + cols * s.y) * 2
  { s with cursor := (UInt8.ofNat (pos >>> 9), UInt8.ofNat (pos >>> 1)) }

/-- The same text after a newline and after the last column. -/
def nextLine (s : Screen) : Option Screen :=
  if s.y + 1 ≥ rows then (scroll s.vidmem).map fun m => { s with vidmem := m, x := 0 }
  else some { s with x := 0, y := s.y + 1 }

/-- `__putcharx`. -/
def putcharx (s : Screen) (c : UInt8) : Option Screen :=
  if c = 0 then some s
  else if c = 8 then
    if s.x ≠ 0 then some { s with x := s.x - 1 }
    else if s.y ≠ 0 then some { s with y := s.y - 1, x := cols - 1 }
    else some s
  else if c = newline then s.nextLine
  else do
    let m ← poke s.vidmem ((s.x + cols * s.y) * 2) c
    if s.x + 1 ≥ cols then nextLine { s with vidmem := m }
    else some { s with vidmem := m, x := s.x + 1 }

/-- The bytes one after another. -/
def putAll (s : Screen) (bytes : List UInt8) : Option Screen := bytes.foldlM putcharx s

def ttyWrite (s : Screen) (buf : List UInt8) : Option (Screen × ℤ) :=
  if buf.length = 0 then some (s, 0)
  else
    let size := if buf.length > ssizeMax then ssizeMax else buf.length
    (s.putAll (buf.take size)).map fun t => (t.updateCursor, (size : ℤ))

/-- The loop of `tty_writev`. -/
def writevLoop : Screen → ℕ → List (List UInt8) → Option (Screen × ℕ)
  | s, ret, [] => some (s, ret)
  | s, ret, buf :: iov => do
    let size := if buf.length > ssizeMax - ret then ssizeMax - ret else buf.length
    let t ← s.putAll (buf.take size)
    if ret + size = ssizeMax then some (t, ret + size) else writevLoop t (ret + size) iov

def ttyWritev (s : Screen) (iov : List (List UInt8)) (iovcnt : ℤ) : Option (Screen × ℤ) :=
  if iovcnt < 0 then some (s, -1)
  else
    match (iov.take iovcnt.toNat).dropWhile (·.length = 0) with
    | [] => some (s, 0)
    | buf :: iov =>
      (writevLoop s 0 (buf :: iov)).map fun (t, ret) => (t.updateCursor, (ret : ℤ))

/-- `kernel_init_part0`. -/
def kernelInitPart0 (s : Screen) : Option Screen := do
  let pos := s.cursor.2.toNat ||| s.cursor.1.toNat <<< 8
  let pos := if pos ≥ cols * rows then 0 else pos <<< 1
  let m ← (evens 0 pos).foldlM (fun m i => poke m (i + 1) charAttr) s.vidmem
  let m ← (evens pos (rows * cols)).foldlM
    (fun m i => do
      let m ← poke m i 0
      poke m (i + 1) charAttr) m
  some { s with vidmem := m, x := (pos >>> 1) % 80, y := (pos >>> 1) / 80 }

end Screen

/-- The two calls. -/
inductive Output
  | write (buf : List UInt8)
  | writev (iov : List (List UInt8)) (iovcnt : ℤ)

def Output.perform (s : Screen) : Output → Option Screen
  | .write buf => (s.ttyWrite buf).map Prod.fst
  | .writev iov iovcnt => (s.ttyWritev iov iovcnt).map Prod.fst

/-- The cursor is on the screen. -/
structure Screen.OnScreen (s : Screen) : Prop where
  x : s.x < cols
  y : s.y < rows

variable {s t : Screen}

theorem mem_evens {a b i : ℕ} (h : i ∈ evens a b) : i < b := by
  unfold evens at h
  obtain ⟨j, hj, rfl⟩ := List.mem_range'.mp h
  omega

theorem poke_some {i : ℕ} (vidmem : ℕ → UInt8) (c : UInt8) (h : i < rows * cols * 2) :
    ∃ m, poke vidmem i c = some m := ⟨_, if_pos h⟩

/-- A loop whose body always has a result has one. -/
theorem foldlM_some {σ β : Type*} (f : σ → β → Option σ) (xs : List β)
    (h : ∀ m, ∀ i ∈ xs, ∃ m', f m i = some m') (m : σ) : ∃ m', xs.foldlM f m = some m' := by
  induction xs generalizing m with
  | nil => exact ⟨m, rfl⟩
  | cons i xs ih =>
    obtain ⟨m', hm'⟩ := h m i List.mem_cons_self
    obtain ⟨m'', hm''⟩ := ih (fun m j hj => h m j (List.mem_cons_of_mem i hj)) m'
    exact ⟨m'', by rw [List.foldlM_cons, hm']; exact hm''⟩

theorem memmove_some {dst src n : ℕ} (vidmem : ℕ → UInt8) (hd : dst + n ≤ rows * cols * 2)
    (hs : src + n ≤ rows * cols * 2) : ∃ m, memmove vidmem dst src n = some m :=
  ⟨_, if_pos ⟨hd, hs⟩⟩

theorem scroll_some (vidmem : ℕ → UInt8) : ∃ m, scroll vidmem = some m := by
  obtain ⟨m, hm⟩ : ∃ m, memmove vidmem 0 (cols * 2) ((rows - 1) * cols * 2) = some m :=
    memmove_some vidmem (by decide) (by decide)
  obtain ⟨m', hm'⟩ := foldlM_some (fun m i => poke m i 0)
    (evens ((rows - 1) * cols * 2) (rows * cols * 2))
    (fun m i hi => poke_some m 0 (mem_evens hi)) m
  exact ⟨m', by rw [scroll, hm, Option.bind_eq_bind, Option.bind_some, hm']⟩

namespace Screen

theorem OnScreen.index (h : s.OnScreen) : (s.x + cols * s.y) * 2 < rows * cols * 2 := by
  have hx := h.x
  have hy := h.y
  unfold rows cols at *
  omega

theorem OnScreen.nextLine (h : s.OnScreen) : ∃ t, s.nextLine = some t ∧ t.OnScreen := by
  have hpos : 0 < cols := by decide
  unfold Screen.nextLine
  split
  next =>
    obtain ⟨m, hm⟩ := scroll_some s.vidmem
    rw [hm]
    exact ⟨_, rfl, hpos, h.y⟩
  next hlt => exact ⟨_, rfl, hpos, Nat.not_le.mp hlt⟩

/-- One character stays on the screen. -/
theorem OnScreen.putcharx (h : s.OnScreen) (c : UInt8) :
    ∃ t, s.putcharx c = some t ∧ t.OnScreen := by
  have hx := h.x
  have hy := h.y
  unfold Screen.putcharx
  split
  · exact ⟨s, rfl, h⟩
  split
  · split
    · exact ⟨_, rfl, Nat.lt_of_le_of_lt (Nat.sub_le _ _) hx, hy⟩
    · split
      · exact ⟨_, rfl, Nat.sub_lt (by decide) Nat.one_pos,
          Nat.lt_of_le_of_lt (Nat.sub_le _ _) hy⟩
      · exact ⟨s, rfl, h⟩
  split
  · exact h.nextLine
  · obtain ⟨m, hm⟩ := poke_some s.vidmem c h.index
    rw [hm]
    change ∃ t, (if s.x + 1 ≥ cols then Screen.nextLine { s with vidmem := m } else _) = _ ∧ _
    split
    · exact OnScreen.nextLine ⟨hx, hy⟩
    next hlt => exact ⟨_, rfl, Nat.not_le.mp hlt, hy⟩

theorem OnScreen.putAll (h : s.OnScreen) (bytes : List UInt8) :
    ∃ t, s.putAll bytes = some t ∧ t.OnScreen := by
  induction bytes generalizing s with
  | nil => exact ⟨s, rfl, h⟩
  | cons c bytes ih =>
    obtain ⟨u, hu, hu'⟩ := h.putcharx c
    obtain ⟨t, ht, ht'⟩ := ih hu'
    exact ⟨t, by rw [Screen.putAll, List.foldlM_cons, hu]; exact ht, ht'⟩

theorem putAll_append (s : Screen) (xs ys : List UInt8) :
    s.putAll (xs ++ ys) = (s.putAll xs).bind fun t => t.putAll ys :=
  List.foldlM_append

/-- The loop puts the concatenation, as far as `SSIZE_MAX` allows. -/
theorem writevLoop_eq (s : Screen) {ret : ℕ} (hr : ret ≤ ssizeMax) (iov : List (List UInt8)) :
    writevLoop s ret iov =
      (s.putAll (iov.flatten.take (ssizeMax - ret))).map fun t =>
        (t, ret + min iov.flatten.length (ssizeMax - ret)) := by
  induction iov generalizing s ret with
  | nil =>
    rw [List.flatten_nil, List.take_nil, List.length_nil, Nat.zero_min]
    rfl
  | cons buf iov ih =>
    unfold writevLoop
    rw [List.flatten_cons, List.length_append]
    dsimp only
    split
    next hgt =>
      have hsize : ret + (ssizeMax - ret) = ssizeMax := Nat.add_sub_cancel' hr
      have hmin : min (buf.length + iov.flatten.length) (ssizeMax - ret) = ssizeMax - ret := by
        omega
      rw [List.take_append_of_le_length (Nat.le_of_lt hgt), hmin]
      cases s.putAll (buf.take (ssizeMax - ret)) with
      | none => rfl
      | some t => exact if_pos hsize
    next hle =>
      rw [List.take_append, List.take_of_length_le (Nat.not_lt.mp hle), List.take_length,
        putAll_append]
      cases s.putAll buf with
      | none => rfl
      | some t =>
        change (if ret + buf.length = ssizeMax then _ else _) = Option.map _ (t.putAll _)
        split
        next heq =>
          have hzero : ssizeMax - ret - buf.length = 0 := by omega
          have hmin : min (buf.length + iov.flatten.length) (ssizeMax - ret) = buf.length := by
            omega
          rw [hzero, List.take_zero, hmin]
          rfl
        next =>
          have hmin : buf.length + min iov.flatten.length (ssizeMax - (ret + buf.length)) =
              min (buf.length + iov.flatten.length) (ssizeMax - ret) := by omega
          rw [ih t (by omega), Nat.add_assoc, hmin, Nat.sub_sub]

/-- Empty buffers at the front hold nothing. -/
theorem flatten_dropWhile (iov : List (List UInt8)) :
    (iov.dropWhile (·.length = 0)).flatten = iov.flatten := by
  induction iov with
  | nil => rfl
  | cons buf iov ih =>
    rw [List.dropWhile_cons]
    split
    next h =>
      have hnil : buf = [] := List.eq_nil_of_length_eq_zero (by simpa using h)
      rw [ih, hnil]
      rfl
    next => rfl

theorem ttyWritev_eq (s : Screen) (iov : List (List UInt8)) :
    s.ttyWritev iov iov.length = s.ttyWrite iov.flatten := by
  unfold ttyWritev ttyWrite
  rw [if_neg (by omega), Int.toNat_natCast, List.take_length, ← flatten_dropWhile iov]
  have hfront := List.head?_dropWhile_not (fun buf : List UInt8 => buf.length = 0) iov
  generalize iov.dropWhile (·.length = 0) = rest at hfront ⊢
  cases rest with
  | nil => rfl
  | cons buf iov =>
    have hbuf : buf.length ≠ 0 := by simpa using hfront
    have hne : ((buf :: iov).flatten).length ≠ 0 := by
      rw [List.flatten_cons, List.length_append]
      omega
    change Option.map _ (writevLoop s 0 (buf :: iov)) = _
    rw [if_neg hne, writevLoop_eq s (Nat.zero_le _), Option.map_map, Nat.sub_zero]
    generalize (buf :: iov).flatten = bytes
    dsimp only
    split
    next hgt =>
      have hmin : min bytes.length ssizeMax = ssizeMax := by omega
      rw [hmin]
      simp [Function.comp_def]
    next hle =>
      have hmin : min bytes.length ssizeMax = bytes.length := by omega
      rw [hmin, List.take_length, List.take_of_length_le (Nat.not_lt.mp hle)]
      simp [Function.comp_def]

theorem OnScreen.ttyWrite (h : s.OnScreen) (buf : List UInt8) :
    ∃ t ret, s.ttyWrite buf = some (t, ret) ∧ t.OnScreen := by
  unfold Screen.ttyWrite
  split
  · exact ⟨s, 0, rfl, h⟩
  · obtain ⟨t, ht, hon⟩ := h.putAll
      (buf.take (if buf.length > ssizeMax then ssizeMax else buf.length))
    dsimp only
    rw [ht]
    exact ⟨_, _, rfl, hon.x, hon.y⟩

theorem OnScreen.ttyWritev (h : s.OnScreen) (iov : List (List UInt8)) (iovcnt : ℤ) :
    ∃ t ret, s.ttyWritev iov iovcnt = some (t, ret) ∧ t.OnScreen := by
  by_cases hneg : iovcnt < 0
  · exact ⟨s, -1, if_pos hneg, h⟩
  · have hcut : s.ttyWritev iov iovcnt =
        s.ttyWritev (iov.take iovcnt.toNat) (iov.take iovcnt.toNat).length := by
      unfold Screen.ttyWritev
      rw [if_neg hneg, if_neg (by omega), Int.toNat_natCast, List.take_length]
    rw [hcut, ttyWritev_eq]
    exact h.ttyWrite _

theorem clearing_some (xs : List ℕ) (h : ∀ i ∈ xs, i + 1 < rows * cols * 2) (m : ℕ → UInt8) :
    ∃ m', xs.foldlM (fun m i => do
      let m ← poke m i 0
      poke m (i + 1) charAttr) m = some m' := by
  refine foldlM_some _ xs (fun m i hi => ?_) m
  obtain ⟨m₁, hm₁⟩ := poke_some m 0 (Nat.lt_of_succ_lt (h i hi))
  rw [hm₁]
  exact poke_some m₁ charAttr (h i hi)

/-- Where the cursor is at the start. -/
theorem kernelInitPart0_onScreen (s : Screen) : ∃ t, s.kernelInitPart0 = some t ∧ t.OnScreen := by
  unfold kernelInitPart0
  dsimp only
  have hpos : (if s.cursor.2.toNat ||| s.cursor.1.toNat <<< 8 ≥ cols * rows then 0
      else (s.cursor.2.toNat ||| s.cursor.1.toNat <<< 8) <<< 1) < rows * cols * 2 := by
    split
    next => decide
    next hlt =>
      rw [Nat.shiftLeft_eq]
      unfold rows cols at *
      omega
  generalize (if s.cursor.2.toNat ||| s.cursor.1.toNat <<< 8 ≥ cols * rows then 0
      else _) = pos at hpos ⊢
  obtain ⟨m, hm⟩ := foldlM_some (fun m i => poke m (i + 1) charAttr) (evens 0 pos)
    (fun m i hi => poke_some m charAttr (by have := mem_evens hi; omega)) s.vidmem
  obtain ⟨m', hm'⟩ := clearing_some (evens pos (rows * cols)) (fun i hi => by
    have hlt := mem_evens hi
    unfold rows cols at *
    omega) m
  rw [hm, Option.bind_eq_bind, Option.bind_some, hm']
  refine ⟨_, rfl, ?_, ?_⟩
  · exact Nat.mod_lt (pos >>> 1) (by decide : 0 < 80)
  · change pos >>> 1 / 80 < rows
    rw [Nat.shiftRight_eq_div_pow]
    unfold rows cols at *
    omega

end Screen

/-- From a cursor on the screen, where `kernel_init_part0` puts it, every sequence of writes keeps
it there and within video memory, and a vectored write is a write of the concatenation. -/
theorem output_on_screen :
    (∀ s : Screen, ∃ t, s.kernelInitPart0 = some t ∧ t.OnScreen) ∧
    (∀ s : Screen, s.OnScreen → ∀ calls : List Output,
      ∃ t, calls.foldlM Output.perform s = some t ∧ t.OnScreen) ∧
    ∀ (s : Screen) (iov : List (List UInt8)),
      s.ttyWritev iov iov.length = s.ttyWrite iov.flatten := by
  refine ⟨Screen.kernelInitPart0_onScreen, ?_, Screen.ttyWritev_eq⟩
  intro s h calls
  induction calls generalizing s with
  | nil => exact ⟨s, rfl, h⟩
  | cons call calls ih =>
    obtain ⟨u, hu, hon⟩ : ∃ u, call.perform s = some u ∧ u.OnScreen := by
      cases call with
      | write buf =>
        obtain ⟨u, ret, hu, hon⟩ := h.ttyWrite buf
        exact ⟨u, by rw [Output.perform, hu]; rfl, hon⟩
      | writev iov iovcnt =>
        obtain ⟨u, ret, hu, hon⟩ := h.ttyWritev iov iovcnt
        exact ⟨u, by rw [Output.perform, hu]; rfl, hon⟩
    obtain ⟨t, ht, hon'⟩ := ih u hon
    exact ⟨t, by rw [List.foldlM_cons, hu]; exact ht, hon'⟩

/-- The cursor starts two cells before the end of the screen: `"ab"` scrolls, and so does the
newline of a vectored write. -/
theorem output_on_screen_sample : ∃ s t,
    Screen.kernelInitPart0 ⟨fun _ => 0, 0, 0, 0x7, 0xce⟩ = some s ∧ s.x = 78 ∧ s.y = 24 ∧
      [Output.write [97, 98, 99], .writev [[33], [10]] 2].foldlM Output.perform s = some t ∧
      t.OnScreen ∧ [(78, 22), (79, 22), (0, 23), (1, 23)].map
        (fun (x, y) => t.vidmem ((x + cols * y) * 2)) = [97, 98, 99, 33] := by
  obtain ⟨hinit, hrun, -⟩ := output_on_screen
  obtain ⟨s, hs, hon⟩ := hinit ⟨fun _ => 0, 0, 0, 0x7, 0xce⟩
  obtain ⟨t, ht, hon'⟩ := hrun s hon [.write [97, 98, 99], .writev [[33], [10]] 2]
  have hvalue : ((Screen.kernelInitPart0 ⟨fun _ => 0, 0, 0, 0x7, 0xce⟩).bind fun s =>
      ([Output.write [97, 98, 99], .writev [[33], [10]] 2].foldlM Output.perform s).map fun t =>
        (s.x, s.y, [(78, 22), (79, 22), (0, 23), (1, 23)].map
          fun (x, y) => t.vidmem ((x + cols * y) * 2))) = some (78, 24, [97, 98, 99, 33]) := by
    decide +kernel
  rw [hs, Option.bind_some, ht] at hvalue
  obtain ⟨hx, hrest⟩ := Prod.mk.inj (Option.some.inj hvalue)
  obtain ⟨hy, hcells⟩ := Prod.mk.inj hrest
  exact ⟨s, t, hs, hx, hy, ht, hon', hcells⟩

end MyosIo.Tty
