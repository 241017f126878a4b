import MyosIo.Tty.Typing

/-! A batch is worth its keys pressed one after another unless a backspace in it takes back a
character that would have been readable by then. -/
namespace MyosIo.Tty

open Function
open Keyboard (Code threadBufSize)

/-- What the codes come to, one after another. -/
def Keys.presses : Keys → List Code → List Press
  | _, [] => []
  | k, code :: codes => (k.turn code).2 :: Keys.presses (k.turn code).1 codes

/-- The keys after the codes. -/
def Keys.after : Keys → List Code → Keys
  | k, [] => k
  | k, code :: codes => Keys.after (k.turn code).1 codes

/-- Every character is taken back by a backspace that follows it. -/
inductive Balanced : List Press → Prop
  | nil : Balanced []
  | nothing {vs : List Press} : Balanced vs → Balanced (vs ++ [Press.nothing])
  | erased {us vs : List Press} {b : UInt8} :
      Balanced us → Balanced vs → Balanced (us ++ Press.char b :: (vs ++ [Press.back]))

/-- After `xs` the code `x` types `b`, which the backspace `y` takes back when one batch holds
both. -/
structure TakenBack (k : Keys) (xs : List Code) (x : Code) (ys : List Code) (y : Code)
    (b : UInt8) : Prop where
  typed : ((k.after xs).turn x).2 = .char b
  balanced : Balanced ((k.after (xs ++ [x])).presses ys)
  back : ((k.after (xs ++ x :: ys)).turn y).2 = .back
  near : ys.length + 2 ≤ threadBufSize

/-- A buffer in which `b` would stay pending, or would be lost with nothing pending. -/
def Erasable (s : TTY) (b : UInt8) : Prop :=
  b ≠ newline ∧ s.used + 1 < readBufVisibleThreshold ∨
    s.used = readBufSize ∧ s.visible = s.used

/-- The codes drained one at a time. -/
def Typing.handleEach (t : Typing) (codes : List Code) : Typing := t.handleAll (codes.map ([·]))

variable {l : Line} {s t : TTY} {k : Keys} {p : Batch} {us vs ws : List Press} {b : UInt8}

/-- One key handled alone. -/
def Line.press (l : Line) : Press → Line
  | .nothing => l
  | .back => ⟨l.readable, l.pending.dropLast⟩
  | .char b => l.batch 0 [b]

/-- The keys of `vs` handled one at a time. -/
def Line.presses (l : Line) (vs : List Press) : Line := vs.foldl Line.press l

/-- What the translating loop makes of the keys of a batch. -/
def reduce (vs : List Press) : Batch := vs.foldl Batch.add ⟨0, []⟩

@[simp] theorem Line.presses_nil : l.presses [] = l := rfl

@[simp] theorem Line.presses_append : l.presses (us ++ vs) = (l.presses us).presses vs :=
  List.foldl_append

@[simp] theorem Line.presses_cons {a : Press} : l.presses (a :: vs) = (l.press a).presses vs := rfl

theorem reduce_snoc (vs : List Press) (a : Press) : reduce (vs ++ [a]) = (reduce vs).add a := by
  simp [reduce]

/-- Lines with the same readable part and the same contents are the same. -/
theorem Line.eq_of_contents {l l' : Line} (hr : l.readable = l'.readable)
    (hc : l.readable ++ l.pending = l'.readable ++ l'.pending) : l = l' := by
  obtain ⟨r, p⟩ := l
  obtain ⟨r', p'⟩ := l'
  obtain rfl : r = r' := hr
  obtain rfl : p = p' := List.append_cancel_left hc
  rfl

namespace Line

variable (l : Line) (n : ℕ) (c : List UInt8) (b : UInt8)

@[simp] theorem kept_zero : l.kept 0 = l.pending := by simp [kept]

theorem fitting_snoc :
    l.fitting n (c ++ [b]) = l.fitting n c ++ (l.batch n c).fitting 0 [b] := by
  have hlen := congrArg List.length (l.batch_contents n c)
  unfold fitting at hlen ⊢
  rw [kept_zero, hlen, List.take_append]
  congr 2
  simp only [List.length_append, List.length_take]
  omega

theorem fitting_singleton : l.fitting n [b] = [] ∨ l.fitting n [b] = [b] := by
  unfold fitting
  cases readBufSize - (l.readable ++ l.kept n).length with
  | zero => exact .inl (List.take_zero ..)
  | succ m => exact .inr (by simp)

/-- What a batch makes readable and what it leaves pending. -/
theorem ready_pending : l.ready n c ++ (l.batch n c).pending = l.kept n ++ l.fitting n c := by
  have := l.batch_contents n c
  change l.readable ++ l.ready n c ++ _ = _ at this
  rw [List.append_assoc, List.append_assoc] at this
  exact List.append_cancel_left this

theorem ready_full (hn : l.fitting n c ≠ [])
    (ht : readBufVisibleThreshold ≤ (l.readable ++ l.kept n ++ l.fitting n c).length) :
    l.ready n c = l.kept n ++ l.fitting n c :=
  if_pos ⟨hn, ht⟩

theorem ready_lines
    (ht : ¬readBufVisibleThreshold ≤ (l.readable ++ l.kept n ++ l.fitting n c).length) :
    l.ready n c = if newline ∈ l.fitting n c then
      l.kept n ++ (l.fitting n c).rdropWhile (· ≠ newline) else [] :=
  if_neg fun h => ht h.2

theorem ready_snoc :
    l.ready n (c ++ [b]) = l.ready n c ++ (l.batch n c).ready 0 [b] := by
  have hfit := l.fitting_snoc n c b
  have hpending := l.ready_pending n c
  have hcontents := l.batch_contents n c
  rcases (l.batch n c).fitting_singleton 0 b with hnone | hone
  · have hnil : (l.batch n c).ready 0 [b] = [] := by simp [ready, hnone]
    rw [hnone, List.append_nil] at hfit
    rw [hnil, List.append_nil, ready, ready, hfit]
  · have hsum : l.readable ++ l.kept n ++ l.fitting n (c ++ [b]) =
        (l.batch n c).readable ++ (l.batch n c).kept 0 ++ (l.batch n c).fitting 0 [b] := by
      rw [hfit, kept_zero, hcontents, List.append_assoc _ (l.fitting n c)]
    by_cases ht : readBufVisibleThreshold ≤
        (l.readable ++ l.kept n ++ l.fitting n (c ++ [b])).length
    · rw [l.ready_full n (c ++ [b]) (by simp [hfit, hone]) ht,
        (l.batch n c).ready_full 0 [b] (by simp [hone]) (hsum ▸ ht), kept_zero,
        ← List.append_assoc, hpending, hfit, List.append_assoc]
    · have hlt : ¬readBufVisibleThreshold ≤
          (l.readable ++ l.kept n ++ l.fitting n c).length := by
        rw [hfit, ← List.append_assoc, List.length_append] at ht
        omega
      rw [l.ready_lines n (c ++ [b]) ht, (l.batch n c).ready_lines 0 [b] (hsum ▸ ht), hfit, hone,
        kept_zero]
      by_cases hb : b = newline
      · have hline : [newline].rdropWhile (· ≠ newline) = [newline] := by decide
        rw [hb, hline, if_pos (by simp), if_pos (by simp), ← List.append_assoc, hpending,
          List.append_assoc]
        simp
      · rw [l.ready_lines n c hlt]
        simp [hb, Ne.symm hb]

theorem batch_snoc : l.batch n (c ++ [b]) = (l.batch n c).batch 0 [b] := by
  have hr : (l.batch n (c ++ [b])).readable = ((l.batch n c).batch 0 [b]).readable := by
    change l.readable ++ l.ready n (c ++ [b]) = l.readable ++ l.ready n c ++ _
    rw [ready_snoc, List.append_assoc]
  refine eq_of_contents hr ?_
  rw [batch_contents, batch_contents, fitting_snoc, kept_zero, batch_contents]
  simp only [List.append_assoc]

@[simp] theorem batch_nil : l.batch n [] = ⟨l.readable, l.kept n⟩ := by
  have hfit : l.fitting n [] = [] := List.take_nil
  have hready : l.ready n [] = [] := by simp [ready, hfit]
  rw [batch, hready, hfit]
  simp

/-- A backspace more. -/
theorem batch_back : l.batch (n + 1) [] = (l.batch n []).press .back := by
  have hkept : l.kept (n + 1) = (l.kept n).dropLast := by
    unfold kept List.rdrop
    rw [List.dropLast_eq_take, List.take_take, List.length_take]
    congr 1
    omega
  rw [batch_nil, batch_nil, hkept]
  rfl

theorem presses_singleton (a : Press) :
    l.batch (reduce [a]).backNum (reduce [a]).c = l.press a := by
  cases a with
  | nothing =>
    change l.batch 0 [] = l
    simp
  | back =>
    change l.batch 1 [] = l.press .back
    simp [batch_back l 0]
  | char b => rfl

/-- The bytes the buffer holds. -/
def size : ℕ := (l.readable ++ l.pending).length

/-- `b` would stay pending, or would be lost with nothing pending. -/
def Erasable : Prop :=
  b ≠ newline ∧ l.size + 1 < readBufVisibleThreshold ∨ l.size = readBufSize ∧ l.pending = []

variable {l b}

theorem fitting_room (h : l.size < readBufSize) : l.fitting 0 [b] = [b] := by
  refine List.take_of_length_le ?_
  rw [kept_zero, List.length_singleton]
  exact Nat.le_sub_of_add_le' h

/-- What finds the buffer full is lost. -/
theorem batch_full (h : l.size = readBufSize) (c : List UInt8) : l.batch 0 c = l := by
  have hfit : l.fitting 0 c = [] := by
    unfold fitting
    rw [kept_zero, ← size, h, Nat.sub_self, List.take_zero]
  have hready : l.ready 0 c = [] := by simp [ready, hfit]
  rw [batch, hready, hfit]
  simp

theorem press_pending (hb : b ≠ newline) (h : l.size + 1 < readBufVisibleThreshold) :
    l.press (.char b) = ⟨l.readable, l.pending ++ [b]⟩ := by
  have hle : readBufVisibleThreshold ≤ readBufSize := by decide
  have hfit : l.fitting 0 [b] = [b] := fitting_room (by omega)
  have hready : l.ready 0 [b] = [] := by
    rw [l.ready_lines 0 [b] (by rw [hfit, kept_zero, List.length_append]; exact Nat.not_le.mpr h),
      hfit]
    simp [Ne.symm hb]
  rw [press, batch, hready, hfit]
  simp

theorem press_ready (h : l.size < readBufSize)
    (hb : b = newline ∨ readBufVisibleThreshold ≤ l.size + 1) :
    (l.press (.char b)).readable = l.readable ++ l.pending ++ [b] := by
  have hfit : l.fitting 0 [b] = [b] := fitting_room h
  have hready : l.ready 0 [b] = l.pending ++ [b] := by
    by_cases ht : readBufVisibleThreshold ≤ (l.readable ++ l.kept 0 ++ l.fitting 0 [b]).length
    · rw [l.ready_full 0 [b] (by simp [hfit]) ht, kept_zero, hfit]
    · have hline : [newline].rdropWhile (· ≠ newline) = [newline] := by decide
      rw [l.ready_lines 0 [b] ht, hfit, kept_zero]
      rw [hfit, kept_zero, List.length_append] at ht
      rw [hb.resolve_right ht, hline, if_pos (by simp)]
  rw [press, batch, hready, List.append_assoc]

theorem Erasable.cancel (h : l.Erasable b) : (l.press (.char b)).press .back = l := by
  rcases h with ⟨hb, ht⟩ | ⟨hfull, hnil⟩
  · rw [press_pending hb ht, press, List.dropLast_concat]
  · change (l.batch 0 [b]).press .back = l
    rw [batch_full hfull, press, hnil, List.dropLast_nil, ← hnil]

theorem readable_press (a : Press) : l.readable.length ≤ (l.press a).readable.length := by
  cases a with
  | nothing => exact Nat.le_refl _
  | back => exact Nat.le_refl _
  | char b =>
    change _ ≤ (l.readable ++ l.ready 0 [b]).length
    rw [List.length_append]
    exact Nat.le_add_right _ _

/-- Nothing readable is ever taken back. -/
theorem readable_presses (vs : List Press) :
    l.readable.length ≤ (l.presses vs).readable.length := by
  induction vs generalizing l with
  | nil => exact Nat.le_refl _
  | cons a vs ih => exact (readable_press a).trans ih

end Line

theorem Batch.add_balanced (h : Balanced vs) (p : Batch) : vs.foldl Batch.add p = p := by
  induction h generalizing p with
  | nil => rfl
  | nothing _ ih => rw [List.foldl_append, ih]; rfl
  | erased _ _ ihu ihv =>
    rw [List.foldl_append, ihu, List.foldl_cons, List.foldl_append, ihv]
    simp [add]

/-- The last character of the reduced string is one that no backspace after it took back. -/
theorem reduce_last {c : List UInt8} (h : (reduce vs).c = c ++ [b]) :
    ∃ us ws, vs = us ++ Press.char b :: ws ∧ Balanced ws ∧
      reduce us = ⟨(reduce vs).backNum, c⟩ := by
  induction hn : vs.length using Nat.strong_induction_on generalizing vs b c with
  | _ n ih =>
    rcases List.eq_nil_or_concat' vs with rfl | ⟨vs, a, rfl⟩
    · simp [reduce] at h
    rw [List.length_append, List.length_singleton] at hn
    rw [reduce_snoc] at h ⊢
    cases a with
    | nothing =>
      obtain ⟨us, ws, rfl, hbal, hus⟩ := ih _ (by omega) h rfl
      exact ⟨us, ws ++ [Press.nothing], by simp, hbal.nothing, hus⟩
    | char b' =>
      obtain ⟨hc, hb⟩ := List.append_inj' h rfl
      cases hb
      exact ⟨vs, [], rfl, .nil, by rw [← hc]; rfl⟩
    | back =>
      rcases List.eq_nil_or_concat' (reduce vs).c with hnil | ⟨c', b', hlast⟩
      · simp [Batch.add, hnil] at h
      have hadd : (reduce vs).add .back = ⟨(reduce vs).backNum, c'⟩ := by simp [Batch.add, hlast]
      rw [hadd] at h ⊢
      obtain rfl : c' = c ++ [b] := h
      obtain ⟨us', ws', rfl, hbal', hus'⟩ := ih _ (by omega) hlast rfl
      rw [List.length_append] at hn
      obtain ⟨us, ws, rfl, hbal, hus⟩ := ih us'.length (by omega) (by rw [hus']) rfl
      refine ⟨us, ws ++ Press.char b' :: (ws' ++ [Press.back]), by simp, hbal.erased hbal', ?_⟩
      rw [hus, hus']

/-- A batch does what its keys do one after another, when every character that a backspace of
the batch takes back can still be taken back then. -/
theorem Line.batch_reduce
    (hsafe : ∀ us b ws zs, vs = us ++ Press.char b :: (ws ++ Press.back :: zs) →
      Balanced ws → (l.presses us).Erasable b) :
    l.batch (reduce vs).backNum (reduce vs).c = l.presses vs := by
  induction hn : vs.length using Nat.strong_induction_on generalizing vs with
  | _ n ih =>
    rcases List.eq_nil_or_concat' vs with rfl | ⟨vs, a, rfl⟩
    · simp [reduce]
    rw [List.length_append, List.length_singleton] at hn
    have hvs := @ih vs.length (by omega) vs
      (fun us b ws zs he => hsafe us b ws (zs ++ [a]) (by simp [he])) rfl
    rw [reduce_snoc, presses_append, ← hvs]
    cases a with
    | nothing => rfl
    | char b => exact batch_snoc ..
    | back =>
      rcases List.eq_nil_or_concat' (reduce vs).c with hnil | ⟨c, b, hlast⟩
      · simp only [Batch.add, hnil]
        exact batch_back ..
      obtain ⟨us, ws, rfl, hbal, hus⟩ := reduce_last hlast
      have herase := hsafe us b ws [] (by simp) hbal
      rw [List.length_append] at hn
      have hfirst := @ih us.length (by omega) us
        (fun us' b' ws' zs' he => hsafe us' b' ws' (zs' ++ Press.char b :: (ws ++ [Press.back]))
          (by simp [he])) rfl
      rw [hus] at hfirst
      simp only at hfirst
      have hadd : (reduce (us ++ Press.char b :: ws)).add .back =
          ⟨(reduce (us ++ Press.char b :: ws)).backNum, c⟩ := by simp [Batch.add, hlast]
      rw [hadd, hlast, batch_snoc, hfirst]
      exact herase.cancel.symm

theorem Batch.add_chars (h : Press.back ∉ vs) (p : Batch) :
    (vs.foldl Batch.add p).backNum = p.backNum ∧
      p.c.length ≤ (vs.foldl Batch.add p).c.length := by
  induction vs generalizing p with
  | nil => exact ⟨rfl, Nat.le_refl _⟩
  | cons a vs ih =>
    rw [List.mem_cons, not_or] at h
    obtain ⟨hback, hlen⟩ := ih h.2 (p.add a)
    cases a with
    | nothing => exact ⟨hback, hlen⟩
    | back => exact absurd rfl h.1
    | char b => exact ⟨hback, (by simp [add] : p.c.length ≤ (p.add (.char b)).c.length).trans hlen⟩

theorem Line.presses_full (h : l.size = readBufSize) (hb : Press.back ∉ vs) :
    l.presses vs = l := by
  induction vs with
  | nil => rfl
  | cons a vs ih =>
    rw [List.mem_cons, not_or] at hb
    have hpress : l.press a = l := by
      cases a with
      | nothing => rfl
      | back => exact absurd rfl hb.1
      | char b => exact batch_full h [b]
    rw [presses_cons, hpress, ih hb.2]

/-- If drained together and one by one the keys do the same at every moment, then the character
could be taken back. -/
theorem Line.erasable_of_agree (hsize : l.size ≤ readBufSize) (hbal : Balanced ws)
    (h : ∀ vs, vs <+: Press.char b :: (ws ++ [Press.back]) →
      l.batch (reduce vs).backNum (reduce vs).c = l.presses vs) : l.Erasable b := by
  by_contra hne
  rw [Erasable, not_or, not_and, not_and] at hne
  rcases Nat.lt_or_eq_of_le hsize with hroom | hfull
  · have hnone : reduce (Press.char b :: (ws ++ [Press.back])) = ⟨0, []⟩ :=
      Batch.add_balanced (Balanced.nil.erased hbal) _
    have hall := h _ List.prefix_rfl
    rw [hnone, batch_nil, kept_zero, presses_cons] at hall
    have hready : (l.press (.char b)).readable = l.readable ++ l.pending ++ [b] := by
      refine press_ready hroom ?_
      by_cases hb : b = newline
      · exact .inl hb
      · exact .inr (Nat.not_lt.mp (hne.1 hb))
    have hlen := readable_presses (l := l.press (.char b)) (ws ++ [Press.back])
    rw [← hall, hready] at hlen
    simp only [List.length_append, List.length_singleton] at hlen
    omega
  · -- the first backspace meets a pending byte that was there before
    have hpending := hne.2 hfull
    obtain ⟨us, zs, hus, hfirst⟩ :
        ∃ us zs, ws ++ [Press.back] = us ++ Press.back :: zs ∧ Press.back ∉ us :=
      List.eq_append_cons_of_mem (by simp)
    have hagree := h (Press.char b :: us ++ [Press.back]) ⟨zs, by simp [hus]⟩
    have hfirst' : Press.back ∉ Press.char b :: us := by simpa using hfirst
    obtain ⟨hback, hlen⟩ := Batch.add_chars hfirst (Batch.add ⟨0, []⟩ (.char b))
    have hzero : (reduce (Press.char b :: us ++ [Press.back])).backNum = 0 := by
      have hpos : 0 < (reduce (Press.char b :: us)).c.length := hlen
      rw [reduce_snoc, Batch.add, if_pos hpos]
      exact hback
    rw [hzero, batch_full hfull, presses_append, presses_full hfull hfirst'] at hagree
    have hdrop : l.pending = l.pending.dropLast := congrArg Line.pending hagree
    have hlen := congrArg List.length hdrop
    have hpos := List.length_pos_of_ne_nil hpending
    rw [List.length_dropLast] at hlen
    omega

variable {codes xs ys : List Code} {x y : Code} {cut : List (List Code)} {r : Typing}

theorem Keys.after_append : k.after (xs ++ ys) = (k.after xs).after ys := by
  induction xs generalizing k with
  | nil => rfl
  | cons x xs ih => exact ih

theorem Keys.presses_append :
    k.presses (xs ++ ys) = k.presses xs ++ (k.after xs).presses ys := by
  induction xs generalizing k with
  | nil => rfl
  | cons x xs ih => exact congrArg (_ :: ·) ih

theorem Keys.length_presses : (k.presses codes).length = codes.length := by
  induction codes generalizing k with
  | nil => rfl
  | cons x codes ih => exact congrArg (· + 1) ih

/-- A split of the keys is a split of the codes. -/
theorem Keys.split_presses (h : k.presses codes = us ++ vs) :
    ∃ xs ys, codes = xs ++ ys ∧ k.presses xs = us ∧ (k.after xs).presses ys = vs := by
  induction us generalizing k codes with
  | nil => exact ⟨[], codes, rfl, rfl, h⟩
  | cons a us ih =>
    cases codes with
    | nil => cases h
    | cons x codes =>
      obtain ⟨hx, hrest⟩ := List.cons.inj h
      obtain ⟨xs, ys, rfl, hus, hvs⟩ := ih hrest
      exact ⟨x :: xs, ys, rfl, by rw [← hx, ← hus]; rfl, hvs⟩

theorem Keys.split_press {a : Press} (h : k.presses codes = a :: vs) :
    ∃ x ys, codes = x :: ys ∧ (k.turn x).2 = a ∧ (k.turn x).1.presses ys = vs := by
  cases codes with
  | nil => cases h
  | cons x codes =>
    obtain ⟨hx, hrest⟩ := List.cons.inj h
    exact ⟨x, codes, rfl, hx, hrest⟩

theorem translate_eq :
    translate k p codes = (k.after codes, (k.presses codes).foldl Batch.add p) := by
  induction codes generalizing k p with
  | nil => rfl
  | cons x codes ih => exact ih

theorem handle_keys : (r.handle codes).keys = r.keys.after codes := by
  simp [Typing.handle, translate_eq]

theorem handle_related (h : Related l r.tty) (codes : List Code) :
    Related (l.batch (reduce (r.keys.presses codes)).backNum (reduce (r.keys.presses codes)).c)
      (r.handle codes).tty := by
  unfold Typing.handle
  rw [translate_eq]
  exact handleBatch_related h _ _

theorem handleAll_append (cut cut' : List (List Code)) :
    r.handleAll (cut ++ cut') = (r.handleAll cut).handleAll cut' :=
  List.foldl_append

/-- Drained one at a time the keys are handled one after another. -/
theorem handleEach_related (h : Related l r.tty) (codes : List Code) :
    Related (l.presses (r.keys.presses codes)) (r.handleEach codes).tty ∧
      (r.handleEach codes).keys = r.keys.after codes := by
  induction codes generalizing l r with
  | nil => exact ⟨h, rfl⟩
  | cons x codes ih =>
    have hx := handle_related h [x]
    have hkeys : (r.handle [x]).keys = r.keys.after [x] := handle_keys
    rw [show r.keys.presses [x] = [(r.keys.turn x).2] from rfl, Line.presses_singleton] at hx
    have := ih hx
    rw [hkeys] at this
    exact this

/-- Batches of any sizes do the same, as long as no backspace takes back, within a batch, what it
could not take back alone. -/
theorem handleAll_related (h : Related l r.tty) (hlen : ∀ batch ∈ cut, batch.length ≤ threadBufSize)
    (hsafe : ∀ us b ws zs,
      r.keys.presses cut.flatten = us ++ Press.char b :: (ws ++ Press.back :: zs) →
      Balanced ws → ws.length + 2 ≤ threadBufSize → (l.presses us).Erasable b) :
    Related (l.presses (r.keys.presses cut.flatten)) (r.handleAll cut).tty := by
  induction cut generalizing l r with
  | nil => exact h
  | cons codes cut ih =>
    rw [List.flatten_cons, Keys.presses_append] at hsafe ⊢
    have hcodes := handle_related h codes
    rw [Line.batch_reduce] at hcodes
    · rw [Line.presses_append, ← handle_keys] at *
      refine ih hcodes (fun b hb => hlen b (List.mem_cons_of_mem _ hb)) ?_
      intro us b ws zs he hbal hws
      have := hsafe (r.keys.presses codes ++ us) b ws zs (by rw [he, List.append_assoc]) hbal hws
      rwa [Line.presses_append] at this
    · intro us b ws zs he hbal
      have hnum := congrArg List.length he
      have hle := hlen codes List.mem_cons_self
      simp only [Keys.length_presses, List.length_append, List.length_cons] at hnum
      refine hsafe us b ws (zs ++ (r.keys.after codes).presses cut.flatten) ?_ hbal (by omega)
      simp [he]

theorem TakenBack.presses (h : TakenBack k xs x ys y b) :
    (k.after xs).presses (x :: (ys ++ [y])) =
      Press.char b :: ((k.after (xs ++ [x])).presses ys ++ [Press.back]) := by
  have hback := h.back
  rw [Keys.after_append] at hback ⊢
  have hpresses : (k.after xs).presses (x :: (ys ++ [y])) =
      ((k.after xs).turn x).2 :: ((k.after xs).turn x).1.presses (ys ++ [y]) := rfl
  rw [hpresses, h.typed, Keys.presses_append]
  exact congrArg (fun a => _ :: (_ ++ [a])) hback

theorem erasable_iff (h : Related l s) : Erasable s b ↔ l.Erasable b := by
  have hlen : s.visible = s.used ↔ l.pending = [] := by
    rw [h.visible, h.used, List.length_append, ← List.length_eq_zero_iff]
    omega
  rw [Erasable, Line.Erasable, hlen, h.used]
  rfl

theorem cut_each (codes : List Code) : Cut codes (codes.map ([·])) where
  flatten := by simp [← List.flatMap_def]
  batch := by
    intro c hc
    obtain ⟨x, -, rfl⟩ := List.mem_map.mp hc
    have hone : 1 ≤ threadBufSize := by decide
    exact ⟨by simp, hone⟩

/-- The cut that drains `xs` one at a time and `ys` at once. -/
theorem cut_last (hy : ys ≠ []) (hlen : ys.length ≤ threadBufSize) :
    Cut (xs ++ ys) (xs.map ([·]) ++ [ys]) where
  flatten := by
    rw [List.flatten_append, (cut_each xs).flatten]
    simp
  batch := by
    intro c hc
    rcases List.mem_append.mp hc with hc | hc
    · exact (cut_each xs).batch c hc
    · obtain rfl := List.mem_singleton.mp hc
      exact ⟨hy, hlen⟩

/-- Two cuts that agree after `xs` and a window: one drains the window at once, the other one by
one. -/
theorem window_agree (h : Related l s) (hy : ys ≠ []) (hlen : ys.length ≤ threadBufSize)
    (hall : ∀ cut cut', Cut (xs ++ ys) cut → Cut (xs ++ ys) cut' →
      Alike (Typing.handleAll ⟨k, s⟩ cut).tty (Typing.handleAll ⟨k, s⟩ cut').tty) :
    (l.presses (k.presses xs)).batch (reduce ((k.after xs).presses ys)).backNum
        (reduce ((k.after xs).presses ys)).c =
      (l.presses (k.presses xs)).presses ((k.after xs).presses ys) := by
  obtain ⟨l', hl', hl''⟩ := hall _ _ (cut_last hy hlen) (cut_each _)
  obtain ⟨hxs, hkeys⟩ := handleEach_related (r := ⟨k, s⟩) h xs
  have htogether := handle_related hxs ys
  obtain ⟨hsingly, -⟩ := handleEach_related (r := ⟨k, s⟩) h (xs ++ ys)
  rw [hkeys] at htogether
  rw [handleAll_append] at hl'
  rw [Keys.presses_append, Line.presses_append] at hsingly
  exact (htogether.unique hl').trans (hl''.unique hsingly)

/-- How the codes typed so far were cut never shows in the buffer if and only if every character
that a backspace of the same batch can take back is one it could have taken back alone. -/
theorem batching_unseen_iff (h : Related l s) (k : Keys) (codes : List Code) :
    (∀ typed, typed <+: codes → ∀ cut cut', Cut typed cut → Cut typed cut' →
      Alike (Typing.handleAll ⟨k, s⟩ cut).tty (Typing.handleAll ⟨k, s⟩ cut').tty) ↔
    ∀ xs x ys y b, xs ++ x :: (ys ++ [y]) <+: codes → TakenBack k xs x ys y b →
      Erasable (Typing.handleEach ⟨k, s⟩ xs).tty b := by
  constructor
  · intro hall xs x ys y b hprefix htaken
    obtain ⟨hxs, -⟩ := handleEach_related (r := ⟨k, s⟩) h xs
    rw [erasable_iff hxs]
    have hsize : (l.presses (k.presses xs)).size ≤ readBufSize := hxs.used.symm.trans_le hxs.used_le
    refine Line.erasable_of_agree hsize htaken.balanced ?_
    intro vs ⟨zs, hvs⟩
    rw [← htaken.presses] at hvs
    obtain ⟨w, w', hw, rfl, -⟩ := Keys.split_presses hvs.symm
    by_cases hnil : w = []
    · simp [hnil, Keys.presses, reduce]
    · have hlen := congrArg List.length hw
      have hnear := htaken.near
      simp only [List.length_append, List.length_cons, List.length_nil] at hlen
      refine window_agree h hnil (by omega) (hall _ ?_)
      rw [hw, ← List.append_assoc] at hprefix
      exact (List.prefix_append _ _).trans hprefix
  · intro hsafe typed htyped cut cut' hcut hcut'
    have hline {cut : List (List Code)} (hcut : Cut typed cut) :
        Related (l.presses (k.presses typed)) (Typing.handleAll ⟨k, s⟩ cut).tty := by
      rw [← hcut.flatten]
      refine handleAll_related (r := ⟨k, s⟩) h (fun c hc => (hcut.batch c hc).2) ?_
      intro us b ws zs he hbal hlen
      rw [hcut.flatten] at he
      obtain ⟨xs, rest, hxs, rfl, hrest⟩ := Keys.split_presses he
      obtain ⟨x, rest', rfl, hx, hrest'⟩ := Keys.split_press hrest
      obtain ⟨ys, rest'', rfl, rfl, hys⟩ := Keys.split_presses hrest'
      obtain ⟨y, zs', rfl, hy, -⟩ := Keys.split_press hys
      rw [← erasable_iff (handleEach_related (r := ⟨k, s⟩) h xs).1]
      refine hsafe xs x ys y b ?_ ⟨hx, ?_, ?_, ?_⟩
      · rw [hxs] at htyped
        exact List.IsPrefix.trans ⟨zs', by simp⟩ htyped
      · rwa [Keys.after_append]
      · rwa [Keys.after_append]
      · rwa [Keys.length_presses] at hlen
    exact ⟨_, hline hcut, hline hcut'⟩

/-- `a` and a backspace. -/
theorem batching_unseen_iff_sample :
    Alike (Typing.handleAll ⟨⟨fun _ => false, false⟩, defaultTty⟩ [[3, 145]]).tty
      (Typing.handleAll ⟨⟨fun _ => false, false⟩, defaultTty⟩ [[3], [145]]).tty := by
  refine (batching_unseen_iff related_default ⟨fun _ => false, false⟩ [3, 145]).mpr ?_
    [3, 145] List.prefix_rfl _ _ ⟨rfl, by simp [threadBufSize]⟩ ⟨rfl, by simp [threadBufSize]⟩
  intro xs x ys y b hprefix htaken
  have hlen := hprefix.length_le
  simp only [List.length_append, List.length_cons, List.length_nil] at hlen
  obtain rfl : xs = [] := List.eq_nil_of_length_eq_zero (by omega)
  obtain rfl : ys = [] := List.eq_nil_of_length_eq_zero (by omega)
  obtain ⟨rest, hrest⟩ := hprefix
  obtain rfl : x = 3 := (List.cons.inj hrest).1
  have hb : Press.char 97 = .char b := htaken.typed
  obtain rfl : 97 = b := Press.char.inj hb
  exact .inl (by decide)

/-- `a`, enter and a backspace: drained together the backspace takes the newline back, drained
one by one it comes too late. -/
theorem newline_taken_back : ∃ cut cut', Cut [3, 161, 145] cut ∧ Cut [3, 161, 145] cut' ∧
    ¬Alike (Typing.handleAll ⟨⟨fun _ => false, false⟩, defaultTty⟩ cut).tty
      (Typing.handleAll ⟨⟨fun _ => false, false⟩, defaultTty⟩ cut').tty := by
  refine ⟨[[3, 161, 145]], [[3], [161], [145]], ⟨rfl, by simp [threadBufSize]⟩,
    ⟨rfl, by simp [threadBufSize]⟩, ?_⟩
  rintro ⟨l, h, h'⟩
  have hv := h.visible.trans h'.visible.symm
  revert hv
  decide

end MyosIo.Tty
