import MyosIo.Keyboard.Ring

/-! The ring is a lossless queue as long as the two slots agree, whatever the width of the index
is; with `const uint16_t temp_i` that is for the first 65536 stores of a run, and no longer. -/
namespace MyosIo.Keyboard

open Function

variable {s t : State} {e : Event} {xs : List Event} {acc tk q : List Code} {st : List ℕ}
  {k n : ℕ} {c : Code}

theorem Inv.silent (hI : Inv acc tk st q t) :
    ∃ q', Inv (acc ++ accepted [.silent]) (tk ++ taken [.silent]) (st ++ stored [.silent]) q' t :=
  ⟨q, by simpa [accepted, taken, stored] using hI⟩

theorem Inv.step (hI : Inv acc tk st q s) (hx : Indexed st s) (hs : Step s e t)
    (ha : ∀ k < (st ++ stored [e]).length, isrSlot k = threadSlot k) :
    ∃ q', Inv (acc ++ accepted [e]) (tk ++ taken [e]) (st ++ stored [e]) q' t := by
  have hand := hI.hand
  cases hs with
  | load hp | full hp | reserveFail hp | wakeAwake hp | wakeAsleep hp | rouseBusy hp
  | rouseIdle hp | rouseWild hp | inbAbort hp | index hp | switchTo hp =>
    exact Inv.silent <| hI.move rfl rfl rfl (by simp [hp, inFlight])
      (by simp [hp, reserved]) rfl hand
  | reserve hp hn hc =>
    exact Inv.silent <| hI.reserve hp hn hc
  | @inb d c hp hc =>
    refine ⟨q, ?_⟩
    simpa [accepted, taken, stored] using hI.inb hp hc
  | @store i c d hp =>
    refine ⟨q ++ [c], ?_⟩
    have hi := hx.next i c d hp
    rw [ha _ (by simp [stored])] at hi
    simpa [accepted, taken, stored] using hI.store hp hi
  | dispatch hp =>
    exact Inv.silent <| hI.move rfl rfl rfl rfl rfl rfl hand
  | sleepOk hr ht | sleepFail hr ht | clear hr ht | nextEmpty hr ht =>
    exact Inv.silent <| hI.move rfl rfl rfl rfl rfl (by simp [ht, taking])
      (by simp [inHand])
  | first hr ht hb =>
    have hq := hI.read (by simp [ht, taking]) hb
    exact Inv.silent <| hI.move rfl rfl rfl rfl rfl (by simp [ht, taking])
      (by simp [inHand, hq])
  | @next num hr ht hb =>
    have hq := hI.read (by simp [ht, taking]) hb
    have h0 : taking (if s.lastUsed = 1 then .nextClear num (s.buf s.oi)
        else .nextZero num (s.buf s.oi)) = 0 := by
      split <;> rfl
    have h1 : inHand (if s.lastUsed = 1 then .nextClear num (s.buf s.oi)
        else .nextZero num (s.buf s.oi)) = some (s.buf s.oi) := by
      split <;> rfl
    exact Inv.silent <| hI.move rfl rfl rfl rfl rfl
      (h0.trans (by rw [ht]; rfl)) (by simp [h1, hq])
  | @nextClear num c hr ht =>
    have hq := hand c (by simp [ht, inHand])
    exact Inv.silent <| hI.move rfl rfl rfl rfl rfl (by simp [ht, taking])
      (by simp [inHand, hq])
  | firstZero hr ht | nextZero hr ht =>
    simpa [accepted, taken, stored] using hI.take (by simp [ht, inHand]) (by simp [ht, taking])
      rfl rfl
  | firstSub hr ht =>
    exact Inv.silent <| hI.sub (by simp [ht, taking]) rfl rfl
  | @nextSub num hr ht =>
    exact Inv.silent <| hI.sub (by simp [ht, taking])
      (by split <;> rfl) (by split <;> rfl)
  | translate hr ht =>
    have h0 : taking (if s.lastUsed = 1 then .sleep else .first) = 0 := by split <;> rfl
    have h1 : inHand (if s.lastUsed = 1 then .sleep else .first) = none := by split <;> rfl
    exact Inv.silent <| hI.move rfl rfl rfl rfl rfl (h0.trans (by rw [ht]; rfl))
      (by simp [h1])

theorem run_indexed (h : Run Step initial xs s) : Indexed (stored xs) s := by
  induction h with
  | refl => exact indexed_initial
  | step _ hs ih => simpa using ih.step hs

/-- Every run is a run of the ring for as long as the two slots agree. -/
theorem run_inv (h : Run Step initial xs s)
    (ha : ∀ k < (stored xs).length, isrSlot k = threadSlot k) :
    ∃ q, Inv (accepted xs) (taken xs) (stored xs) q s := by
  induction h with
  | refl => exact ⟨[], inv_initial⟩
  | @step xs s t e hr hs ih =>
    rw [stored_snoc] at ha
    obtain ⟨q, hI⟩ := ih fun k hk => ha k (by rw [List.length_append]; omega)
    obtain ⟨q', hI'⟩ := hI.step (run_indexed hr) hs ha
    exact ⟨q', by simpa using hI'⟩

theorem lossless_of_agree (h : Run Step initial xs s)
    (ha : ∀ k < (stored xs).length, isrSlot k = threadSlot k) : Lossless xs s := by
  obtain ⟨q, hI⟩ := run_inv h ha
  refine ⟨?_, ?_, ?_⟩
  · rw [hI.acc, List.append_assoc]
    exact List.prefix_append _ _
  · intro k hk hlt
    rw [hI.stores] at hlt
    have hj : k - (taken xs).length < q.length := by omega
    have hget := hI.window.get hj
    rw [Nat.add_sub_cancel' hk, ← threadSlot_eq] at hget
    rw [hget, hI.acc, List.append_assoc, List.getElem?_append_right hk,
      List.getElem?_append_left hj, List.getElem?_eq_getElem hj]
  · intro k hk
    rw [(run_indexed h).slots k hk, ha k hk]

theorem not_lossless (h : Run Step initial xs s) (hl : 65536 < (stored xs).length) :
    ¬ Lossless xs s := fun hL => slots_differ <| by
  rw [← (run_indexed h).slots 65536 hl, hL.slots 65536 hl]

/-- The ring is lossless exactly as long as at most 65536 key codes have been stored. -/
theorem lossless_iff (h : Run Step initial xs s) :
    Lossless xs s ↔ (stored xs).length ≤ 65536 := by
  refine ⟨fun hL => not_lt.mp fun hl => not_lossless h hl hL, fun hl => ?_⟩
  exact lossless_of_agree h fun k hk => slots_agree (by omega)

/-- The thread sleeps and is woken, two events are stored, and the first one is taken out. -/
theorem lossless_iff_sample : ∃ (xs : List Event) (s : State), Run Step initial xs s ∧
    accepted xs = [60, 61] ∧ stored xs = [0, 1] ∧ taken xs = [60] ∧ Lossless xs s := by
  have h : Run Step initial [] initial := .refl
  have h := (h.step (.sleepOk rfl rfl rfl)).step (.load rfl)
  have h := (h.step (.reserve rfl (by decide) rfl)).step (.wakeAsleep rfl (by decide))
  have h := h.step (.rouseBusy rfl rfl)
  have h := ((h.step (@Step.inb _ _ 60 rfl (by decide))).step (.index rfl)).step (.store rfl)
  have h := (h.step (.load rfl)).step (.reserve rfl (by decide) rfl)
  have h := ((h.step (@Step.inb _ _ 61 rfl (by decide))).step (.index rfl)).step (.store rfl)
  have h := (h.step (.dispatch rfl)).step (.clear rfl rfl)
  have h := (h.step (.first rfl rfl (by decide))).step (.firstZero rfl rfl)
  exact ⟨_, _, h, rfl, rfl, rfl, (lossless_iff h).mpr (by decide)⟩

theorem run_reserve (h : Run Step initial xs s) (hp : s.isr = .idle) (hu : s.used = n)
    (hn : n < bufSize) (hs : n = 0 → s.sleeping = .null) :
    ∃ xs' s', Run Step initial xs' s' ∧ s'.isr = .inb false ∧ s'.used = n + 1 ∧
      s'.buf = s.buf ∧ accepted xs' = accepted xs ∧ taken xs' = taken xs ∧
      stored xs' = stored xs := by
  have hmod : (n + 1) % 2 ^ 32 = n + 1 := Nat.mod_eq_of_lt (by rw [bufSize] at hn; omega)
  have hr := (h.step (.load hp)).step (@Step.reserve _ n (by simp [hu]) (by omega) hu)
  by_cases h0 : n = 0
  · have hr' := hr.step (.wakeAwake (by simp [afterReserve, h0]) (hs h0))
    exact ⟨_, _, hr', rfl, hmod, rfl, by simp [accepted], by simp [taken], by simp [stored]⟩
  · exact ⟨_, _, hr, by simp [afterReserve, h0], hmod, rfl, by simp [accepted],
      by simp [taken], by simp [stored]⟩

/-- The ISR alone can store any `n ≤ bufSize` codes. -/
theorem run_stores (codes : ℕ → Code) (hc : ∀ k, codes k ≠ 0) (n : ℕ) (hn : n ≤ bufSize) :
    ∃ xs s, Run Step initial xs s ∧ s.isr = .idle ∧ s.used = n ∧
      (n = 0 → s.sleeping = .null) ∧ accepted xs = (List.range n).map codes ∧ taken xs = [] ∧
      (stored xs).length = n ∧ ∀ k, n = k + 1 → s.buf (isrSlot k) = codes k := by
  induction n with
  | zero => exact ⟨[], initial, .refl, rfl, rfl, fun _ => rfl, rfl, rfl, rfl, by simp⟩
  | succ n ih =>
    obtain ⟨xs, s, hr, hp, hu, hs, hacc, htk, hst, -⟩ := ih (by omega)
    obtain ⟨xs', s', hr', hp', hu', -, hacc', htk', hst'⟩ := run_reserve hr hp hu (by omega) hs
    have hr₂ := (hr'.step (.inb hp' (hc n))).step (.index rfl)
    have hi := (run_indexed hr₂).next _ _ _ rfl
    have hlen : (stored (xs' ++ [Event.accept (codes n)] ++ [Event.silent])).length = n := by
      rw [stored_snoc, stored_snoc, hst']
      simpa [stored] using hst
    refine ⟨_, _, hr₂.step (.store rfl), rfl, hu', by simp, ?_, ?_, ?_, ?_⟩
    · rw [accepted_snoc, accepted_snoc, accepted_snoc, hacc', hacc, List.range_succ]
      simp [accepted]
    · rw [taken_snoc, taken_snoc, taken_snoc, htk', htk]
      rfl
    · rw [stored_snoc, List.length_append, hlen]
      rfl
    · rintro k hk
      obtain rfl : n = k := by omega
      rw [hlen] at hi
      simp [hi]

/-- The 65537th key code overwrites the first one, which nobody has taken. -/
theorem not_always_lossless : ∃ xs s, Run Step initial xs s ∧ ¬ Lossless xs s ∧
    taken xs = [] ∧ (accepted xs)[0]? = some 60 ∧ s.buf (threadSlot 0) = 61 := by
  let codes : ℕ → Code := fun k => if k = 65536 then 61 else 60
  have hc : ∀ k, codes k ≠ 0 := by
    intro k
    by_cases hk : k = 65536 <;> simp [codes, hk]
  obtain ⟨xs, s, hr, -, -, -, hacc, htk, hst, hbuf⟩ :=
    run_stores codes hc 65537 (by decide)
  refine ⟨xs, s, hr, not_lossless hr (by omega), htk, ?_, ?_⟩
  · simp [hacc, codes]
  · have h0 : isrSlot 65536 = threadSlot 0 := by
      rw [isrSlot_eq, threadSlot_eq]
      rfl
    rw [← h0, hbuf 65536 rfl]
    rfl

end MyosIo.Keyboard
