import MyosIo.Tty.Model

/-! The abstract buffer is two byte strings: what a read may take, and what is still being edited.
-/
namespace MyosIo.Tty

open Function

structure Line where
  readable : List UInt8
  pending : List UInt8

/-- Splits `xs` over buffers of the given lengths. -/
def scatter {α : Type*} : List ℕ → List α → List (List α)
  | [], _ => []
  | n :: ns, xs => xs.take n :: scatter ns (xs.drop n)

namespace Line

/-- The pending bytes `backNum` backspaces leave. -/
def kept (l : Line) (backNum : ℕ) : List UInt8 :=
  l.pending.rdrop (min backNum l.pending.length)

/-- The longest prefix of `c` that fits. -/
def fitting (l : Line) (backNum : ℕ) (c : List UInt8) : List UInt8 :=
  c.take (readBufSize - (l.readable ++ l.kept backNum).length)

/-- What a batch makes readable. -/
def ready (l : Line) (backNum : ℕ) (c : List UInt8) : List UInt8 :=
  let new := l.fitting backNum c
  if new ≠ [] ∧ readBufVisibleThreshold ≤ (l.readable ++ l.kept backNum ++ new).length then
    l.kept backNum ++ new
  else if newline ∈ new then l.kept backNum ++ new.rdropWhile (· ≠ newline)
  else []

def batch (l : Line) (backNum : ℕ) (c : List UInt8) : Line where
  readable := l.readable ++ l.ready backNum c
  pending := (l.kept backNum ++ l.fitting backNum c).drop (l.ready backNum c).length

inductive Step (l : Line) : Op → Line → Prop
  | batch (backNum : ℕ) (c : List UInt8) : Step l (.batch backNum c) (l.batch backNum c)
  | read {size : ℕ} (h : size = 0 ∨ l.readable ≠ []) :
      Step l (.read size (l.readable.take size)) ⟨l.readable.drop size, l.pending⟩
  | einval {iov : List ℕ} {iovcnt : ℤ} (h : iovcnt < 0) : Step l (.readv iov iovcnt .einval) l
  | readv {iov : List ℕ} {iovcnt : ℕ} (h : (iov.take iovcnt).sum = 0 ∨ l.readable ≠ []) :
      Step l (.readv iov iovcnt (.done (scatter (iov.take iovcnt) l.readable)))
        ⟨l.readable.drop (iov.take iovcnt).sum, l.pending⟩

end Line

/-- The concrete buffer holds the readable bytes and then the pending ones. -/
structure Related (l : Line) (s : TTY) : Prop where
  visible : s.visible = l.readable.length
  used : s.used = (l.readable ++ l.pending).length
  oi : s.oi < readBufSize
  ii : s.ii = (s.oi + s.used) % readBufSize
  bytes : Circular readBufSize s.readBuf s.oi (l.readable ++ l.pending)

variable {l : Line} {s t : TTY} {xs : List Op}

theorem readBufSize_pos : 0 < readBufSize := by decide

namespace Related

theorem used_le (h : Related l s) : s.used ≤ readBufSize := h.used ▸ h.bytes.fits

theorem ii_lt (h : Related l s) : s.ii < readBufSize := h.ii ▸ Nat.mod_lt _ readBufSize_pos

theorem pending_length (h : Related l s) : s.used - s.visible = l.pending.length := by
  rw [h.used, h.visible, List.length_append, Nat.add_sub_cancel_left]

/-- The buffer determines the line it holds. -/
theorem unique {l' : Line} (h : Related l s) (h' : Related l' s) : l = l' := by
  obtain ⟨r, p⟩ := l
  obtain ⟨r', p'⟩ := l'
  have hv : r.length = r'.length := h.visible.symm.trans h'.visible
  obtain ⟨rfl, rfl⟩ :=
    List.append_inj (h.bytes.unique h'.bytes (h.used.symm.trans h'.used)) hv
  rfl

end Related

theorem related_default : Related ⟨[], []⟩ defaultTty where
  visible := rfl
  used := rfl
  oi := readBufSize_pos
  ii := (Nat.zero_mod _).symm
  bytes := Circular.nil _ _

theorem stepBack_lt {ii back : ℕ} (h : ii < readBufSize) : stepBack ii back < readBufSize := by
  unfold stepBack
  split
  · split <;> omega
  · exact h

/-- Backspace moves the input index back along the ring. -/
theorem stepBack_mod {oi used back : ℕ} (hb : back ≤ used) (hu : used ≤ readBufSize) :
    stepBack ((oi + used) % readBufSize) back = (oi + (used - back)) % readBufSize := by
  obtain ⟨rest, rfl⟩ := Nat.exists_eq_add_of_le' hb
  have hlt := Nat.mod_lt (oi + (rest + back)) readBufSize_pos
  have hmod : (oi + (rest + back)) % readBufSize ≡ oi + rest + back [MOD readBufSize] := by
    rw [Nat.add_assoc]
    exact Nat.mod_modEq _ _
  generalize (oi + (rest + back)) % readBufSize = i at hlt hmod
  rw [Nat.add_sub_cancel, ← Nat.mod_eq_of_lt (stepBack_lt hlt)]
  apply Nat.ModEq.add_right_cancel' back
  unfold stepBack
  split
  · split
    · rw [Nat.sub_add_cancel ‹_›]
      exact hmod
    · have he : readBufSize - (back - i) + back = i + readBufSize := by omega
      rw [he]
      exact Nat.add_modEq_right.trans hmod
  · obtain rfl : back = 0 := by omega
    exact hmod

theorem saveLoop_snoc (used : ℕ) (c : List UInt8) (b : UInt8) (st : Saving) :
    saveLoop used (c ++ [b]) st = (saveLoop used c st).put (used + c.length) b := by
  induction c generalizing used st with
  | nil => rfl
  | cons a c ih =>
    have he : used + (a :: c).length = used + 1 + c.length := by
      rw [List.length_cons]
      omega
    rw [he]
    exact ih (used + 1) (st.put used a)

/-- The readable length the newlines of a saved batch ask for. -/
def lineEnd (used : ℕ) (c : List UInt8) : ℕ :=
  if newline ∈ c then used + (c.rdropWhile (· ≠ newline)).length else 0

theorem lineEnd_snoc (used : ℕ) (c : List UInt8) (b : UInt8) :
    lineEnd used (c ++ [b]) = if b = newline then used + c.length + 1 else lineEnd used c := by
  unfold lineEnd
  by_cases hb : b = newline
  · simp [hb, Nat.add_assoc]
  · have hb' : newline ≠ b := fun h => hb h.symm
    simp [hb, hb']

theorem lineEnd_le (used : ℕ) (c : List UInt8) : lineEnd used c ≤ used + c.length := by
  unfold lineEnd
  split
  · exact Nat.add_le_add_left (List.rdropWhile_prefix _ _).length_le _
  · exact Nat.zero_le _

/-- The saving loop appends the batch to the ring and finds its last newline. -/
theorem saveLoop_spec {xs c : List UInt8} {lo : ℕ} {st : Saving}
    (hb : Circular readBufSize st.readBuf lo xs) (hi : st.ii = (lo + xs.length) % readBufSize)
    (hf : xs.length + c.length ≤ readBufSize) :
    Circular readBufSize (saveLoop xs.length c st).readBuf lo (xs ++ c) ∧
      (saveLoop xs.length c st).ii = (lo + (xs.length + c.length)) % readBufSize ∧
      (saveLoop xs.length c st).newVisible = max st.newVisible (lineEnd xs.length c) := by
  induction c using List.reverseRecOn with
  | nil =>
    refine ⟨?_, hi, ?_⟩
    · rw [List.append_nil]
      exact hb
    · simp [saveLoop, lineEnd]
  | append_singleton c b ih =>
    rw [List.length_append, List.length_singleton] at hf
    obtain ⟨hbytes, hii, hvis⟩ := ih (by omega)
    rw [saveLoop_snoc]
    generalize saveLoop xs.length c st = st' at hbytes hii hvis
    refine ⟨?_, ?_, ?_⟩
    · rw [← List.append_assoc]
      have := hbytes.push (by rw [List.length_append]; omega) b
      rwa [List.length_append, ← hii] at this
    · rw [List.length_append, List.length_singleton]
      change (st'.ii + 1) % readBufSize = _
      rw [hii, Nat.mod_add_mod]
      congr 1
    · have := lineEnd_le xs.length c
      rw [lineEnd_snoc]
      unfold Saving.put
      by_cases hn : b = newline
      · simp only [hn, true_and, if_true]
        split <;> omega
      · simpa only [hn, false_and, if_false] using hvis

namespace Line

variable (l : Line) (back : ℕ) (c : List UInt8)

theorem kept_append :
    ∃ erased, l.pending = l.kept back ++ erased ∧ erased.length = min back l.pending.length := by
  refine ⟨l.pending.drop (l.pending.length - min back l.pending.length), ?_, ?_⟩
  · exact (List.take_append_drop _ _).symm
  · rw [List.length_drop]
    omega

theorem ready_prefix : l.ready back c <+: l.kept back ++ l.fitting back c := by
  unfold ready
  dsimp only
  split
  · exact List.prefix_rfl
  · split
    · exact (List.prefix_append_right_inj _).mpr (List.rdropWhile_prefix _ _)
    · exact List.nil_prefix

/-- A batch moves the border between readable and pending, and only appends to the rest. -/
theorem batch_contents :
    (l.batch back c).readable ++ (l.batch back c).pending =
      l.readable ++ l.kept back ++ l.fitting back c := by
  have := List.prefix_iff_eq_append.mp (l.ready_prefix back c)
  unfold batch
  rw [List.append_assoc, this, List.append_assoc]

/-- The readable length the code computes for a batch that saved something. -/
def newVisible : ℕ :=
  max
    (if readBufVisibleThreshold ≤ (l.readable ++ l.kept back ++ l.fitting back c).length then
      (l.readable ++ l.kept back ++ l.fitting back c).length else 0)
    (lineEnd (l.readable ++ l.kept back).length (l.fitting back c))

theorem newVisible_spec (hn : l.fitting back c ≠ []) :
    (l.newVisible back c = 0 → l.ready back c = []) ∧
      (0 < l.newVisible back c →
        l.newVisible back c = (l.readable ++ l.ready back c).length) := by
  have hle := lineEnd_le (l.readable ++ l.kept back).length (l.fitting back c)
  unfold newVisible ready
  by_cases ht : readBufVisibleThreshold ≤
      (l.readable ++ l.kept back ++ l.fitting back c).length
  · have hpos := List.length_pos_of_ne_nil hn
    rw [if_pos ht, if_pos ⟨hn, ht⟩]
    simp only [List.length_append] at hle ⊢
    omega
  · rw [if_neg ht, if_neg fun h => ht h.2, Nat.zero_max, lineEnd]
    split
    · simp only [List.length_append, ← List.length_eq_zero_iff]
      omega
    · simp

end Line

/-- Taking back `k` pending bytes leaves the readable bytes and the kept ones. -/
theorem Related.erase (h : Related l s) {back k : ℕ} (hk : k = min back l.pending.length) :
    s.used - k = (l.readable ++ l.kept back).length ∧
      stepBack s.ii k = (s.oi + (l.readable ++ l.kept back).length) % readBufSize ∧
      Circular readBufSize s.readBuf s.oi (l.readable ++ l.kept back) := by
  obtain ⟨erased, herased, hlen⟩ := l.kept_append back
  have hbytes := h.bytes
  have hused := h.used
  rw [herased, ← List.append_assoc] at hbytes hused
  rw [List.length_append, hlen, ← hk] at hused
  have hused' : s.used - k = (l.readable ++ l.kept back).length := by
    rw [hused, Nat.add_sub_cancel]
  refine ⟨hused', ?_, hbytes.left⟩
  rw [h.ii, stepBack_mod (by omega) h.used_le, hused']

theorem saveBatch_related (h : Related l s) {back : ℕ} (c : List UInt8) {k : ℕ}
    (hk : k = min back l.pending.length) : Related (l.batch back c) (saveBatch s k c).1 := by
  obtain ⟨hused, hii, hbytes⟩ := h.erase hk
  have hcontents := l.batch_contents back c
  have hspec := l.newVisible_spec back c
  have hfits := hbytes.fits
  have hnew : l.fitting back c = c.take (readBufSize - (l.readable ++ l.kept back).length) := rfl
  have hvisible : l.newVisible back c = max _ _ := rfl
  unfold saveBatch
  dsimp only
  rw [hused, hii]
  generalize l.readable ++ l.kept back = xs at hbytes hcontents hfits hnew hvisible ⊢
  have hlength : (if c.length > readBufSize - xs.length then readBufSize - xs.length
      else c.length) = (l.fitting back c).length := by
    rw [hnew, List.length_take]
    split <;> omega
  have htake : c.take (l.fitting back c).length = l.fitting back c := by
    rw [hnew, List.length_take]
    exact (List.take_eq_take_min ..).symm
  have hroom : (l.fitting back c).length ≤ readBufSize - xs.length :=
    hnew ▸ List.length_take_le _ _
  rw [hlength, htake]
  rw [List.length_append] at hvisible
  have hcount := congrArg List.length hcontents
  rw [@List.length_append _ xs] at hcount
  split
  next hne =>
    obtain ⟨hzero, hpos⟩ := hspec fun he => hne (by rw [he]; rfl)
    generalize hst : Saving.mk _ _ _ = st₀
    have hbytes₀ : Circular readBufSize st₀.readBuf s.oi xs := by
      rw [← hst]
      exact hbytes
    have hii₀ : st₀.ii = (s.oi + xs.length) % readBufSize := by rw [← hst]
    have hvis₀ : max st₀.newVisible (lineEnd xs.length (l.fitting back c)) =
        l.newVisible back c := by
      rw [← hst, hvisible]
    have hfit : xs.length + (l.fitting back c).length ≤ readBufSize := by omega
    obtain ⟨hbytes', hii', hvis⟩ := saveLoop_spec hbytes₀ hii₀ hfit
    rw [hvis₀] at hvis
    generalize saveLoop xs.length (l.fitting back c) st₀ = st at hbytes' hii' hvis ⊢
    split
    next hp =>
      refine ⟨?_, hcount.symm, h.oi, hii', hcontents ▸ hbytes'⟩
      exact hvis.trans (hpos (hvis ▸ hp))
    next hp =>
      refine ⟨?_, hcount.symm, h.oi, hii', hcontents ▸ hbytes'⟩
      rw [h.visible, Line.batch, hzero (by omega), List.append_nil]
  next hz =>
    have hnil : l.fitting back c = [] := List.eq_nil_of_length_eq_zero (by omega)
    have hr : l.ready back c = [] := by simp [Line.ready, hnil]
    rw [hnil, List.append_nil] at hcontents
    refine ⟨?_, hcount.symm, h.oi, ?_, hcontents ▸ hbytes⟩
    · rw [Line.batch, hr, List.append_nil]
      exact h.visible
    · rw [hnil]
      rfl

theorem handleBatch_related (h : Related l s) (back : ℕ) (c : List UInt8) :
    Related (l.batch back c) (handleBatch s back c).tty := by
  have hk : (if s.used - s.visible < back then s.used - s.visible else back) =
      min back l.pending.length := by
    rw [h.pending_length]
    split <;> omega
  have hs := saveBatch_related h c hk
  unfold handleBatch
  dsimp only
  generalize (if s.used - s.visible < back then s.used - s.visible else back) = k at hk hs ⊢
  split
  next hnone =>
    obtain ⟨rfl, rfl⟩ := hnone
    have hkept : l.kept back = l.pending := by rw [Line.kept, ← hk, List.rdrop_zero]
    have : l.batch back [] = l := by
      simp [Line.batch, Line.ready, Line.fitting, hkept]
    rw [this]
    exact h
  next => exact hs

/-- Readers waiting for something to read are woken by the batch that brings it. -/
theorem handleBatch_broadcast (s : TTY) (back : ℕ) (c : List UInt8) :
    (handleBatch s back c).broadcast = true ↔
      s.visible = 0 ∧ (handleBatch s back c).tty.visible ≠ 0 := by
  have hsave (k : ℕ) :
      (saveBatch s k c).2 = true ↔ s.visible = 0 ∧ (saveBatch s k c).1.visible ≠ 0 := by
    unfold saveBatch
    dsimp only
    generalize (if c.length > readBufSize - (s.used - k) then _ else c.length) = num
    generalize saveLoop _ _ _ = st
    split
    · split
      next hp => simp [Nat.ne_of_gt hp]
      next => simp
    · simp
  unfold handleBatch
  dsimp only
  generalize (if s.used - s.visible < back then _ else back) = k
  split
  · simp
  · exact hsave k

theorem copyOut_oi (s : TTY) {size : ℕ} (hs : size ≤ readBufSize) (ho : s.oi < readBufSize) :
    (copyOut s size).1.oi = (s.oi + size) % readBufSize := by
  unfold copyOut
  split
  · exact (Nat.mod_eq_of_lt (show s.oi + size < readBufSize by omega)).symm
  · split
    · have he : s.oi + size = readBufSize := by omega
      rw [he, Nat.mod_self]
    · have he : s.oi + size = size - (readBufSize - s.oi) + readBufSize := by omega
      rw [he, Nat.add_mod_right, Nat.mod_eq_of_lt (by omega)]

theorem copyOut_bytes {ys : List UInt8} (hb : Circular readBufSize s.readBuf s.oi ys)
    (ho : s.oi < readBufSize) {size : ℕ} (hs : size ≤ ys.length) :
    (copyOut s size).2 = ys.take size := by
  have := hb.fits
  unfold copyOut
  split
  · exact hb.slice_low hs (by omega)
  · split
    · exact hb.slice_low hs (by omega)
    · exact hb.slice_wrap hs (by omega) (by omega)

theorem copyOut_frame (s : TTY) (size : ℕ) :
    (copyOut s size).1.readBuf = s.readBuf ∧ (copyOut s size).1.ii = s.ii ∧
      (copyOut s size).1.used = s.used - size ∧
      (copyOut s size).1.visible = s.visible - size := by
  unfold copyOut
  split
  · exact ⟨rfl, rfl, rfl, rfl⟩
  · split <;> exact ⟨rfl, rfl, rfl, rfl⟩

/-- Copying out is taking bytes off the front of what is readable. -/
theorem copyOut_related (h : Related l s) {size : ℕ} (hs : size ≤ l.readable.length) :
    (copyOut s size).2 = l.readable.take size ∧
      Related ⟨l.readable.drop size, l.pending⟩ (copyOut s size).1 := by
  have hfits := h.bytes.fits
  have hused := h.used
  rw [List.length_append] at hfits hused
  obtain ⟨hbuf, hii, hu, hv⟩ := copyOut_frame s size
  have hsize : size ≤ readBufSize := by omega
  have hoi := copyOut_oi s hsize h.oi
  have hcut : l.readable.take size ++ (l.readable.drop size ++ l.pending) =
      l.readable ++ l.pending := by
    rw [← List.append_assoc, List.take_append_drop]
  have hrest := (hcut ▸ h.bytes : Circular readBufSize s.readBuf s.oi _).right
  rw [List.length_take, Nat.min_eq_left hs] at hrest
  refine ⟨copyOut_bytes h.bytes.left h.oi hs, ?_, ?_, ?_, ?_, ?_⟩
  · rw [hv, h.visible, List.length_drop]
  · rw [hu, hused, List.length_append, List.length_drop]
    dsimp only
    omega
  · rw [hoi]
    exact Nat.mod_lt _ readBufSize_pos
  · rw [hoi, hu, hii, h.ii, Nat.mod_add_mod]
    congr 1
    omega
  · rw [hoi, hbuf]
    exact hrest.mod

theorem readable_le (h : Related l s) : l.readable.length ≤ ssizeMax := by
  have := h.bytes.left.fits
  exact this.trans (by decide)

/-- How far a read of `n` bytes goes. -/
theorem clamp_eq (n m : ℕ) : (if n > m then m else n) = min n m := by
  split <;> omega

theorem clamp_take (h : Related l s) (n : ℕ) :
    l.readable.take (if n > s.visible then s.visible else n) = l.readable.take n ∧
      l.readable.drop (if n > s.visible then s.visible else n) = l.readable.drop n := by
  split
  next hgt =>
    rw [h.visible] at hgt ⊢
    rw [List.take_length, List.drop_length, List.take_of_length_le hgt.le,
      List.drop_of_length_le hgt.le]
    exact ⟨rfl, rfl⟩
  next => exact ⟨rfl, rfl⟩

theorem ttyRead_related (h : Related l s) (n : ℕ) :
    ∃ t, ttyRead s n = some (t, l.readable.take n, min n l.readable.length) ∧
      Related ⟨l.readable.drop n, l.pending⟩ t := by
  obtain ⟨htake, hdrop⟩ := clamp_take h n
  have hmin : (if n > s.visible then s.visible else n) = min n l.readable.length :=
    (clamp_eq n s.visible).trans (by rw [h.visible])
  have hle : (if n > s.visible then s.visible else n) ≤ l.readable.length :=
    hmin ▸ Nat.min_le_right _ _
  unfold ttyRead
  dsimp only
  generalize (if n > s.visible then s.visible else n) = size at htake hdrop hle hmin ⊢
  obtain ⟨hbytes, hrel⟩ := copyOut_related h hle
  split
  next hz => exact ⟨s, by rw [hz, Nat.zero_min]; rfl, by rw [hz]; exact h⟩
  next =>
    rw [if_pos (hle.trans (readable_le h)), ← hmin]
    rw [htake] at hbytes
    rw [hdrop] at hrel
    exact ⟨_, by rw [← hbytes], hrel⟩

theorem scatter_nil {α : Type*} (iov : List ℕ) :
    scatter iov ([] : List α) = List.replicate iov.length [] := by
  induction iov with
  | nil => rfl
  | cons n iov ih => simp [scatter, ih, List.replicate_succ]

/-- The loop fills the buffers in turn; `ret` counts the bytes already copied. -/
theorem readvLoop_related (h : Related l s) (ret : ℕ) (iov : List ℕ)
    (hr : ret + l.readable.length ≤ ssizeMax) :
    ∃ t, readvLoop s ret iov =
        some (t, scatter iov l.readable, ret + min iov.sum l.readable.length) ∧
      Related ⟨l.readable.drop iov.sum, l.pending⟩ t := by
  induction iov generalizing s l ret with
  | nil => exact ⟨s, by simp [readvLoop, scatter], h⟩
  | cons n iov ih =>
    obtain ⟨htake, hdrop⟩ := clamp_take h n
    have hmin : (if n > s.visible then s.visible else n) = min n l.readable.length :=
      (clamp_eq n s.visible).trans (by rw [h.visible])
    have hle : (if n > s.visible then s.visible else n) ≤ l.readable.length :=
      hmin ▸ Nat.min_le_right _ _
    unfold readvLoop
    dsimp only
    generalize (if n > s.visible then s.visible else n) = size at htake hdrop hle hmin ⊢
    obtain ⟨hbytes, hrel⟩ := copyOut_related h hle
    rw [htake] at hbytes
    rw [if_pos (by omega), List.sum_cons, ← List.drop_drop]
    have hlen : (l.readable.drop size).length = l.readable.length - size := List.length_drop
    split
    next hv =>
      have hnil : l.readable.drop size = [] := by
        rw [hrel.visible] at hv
        exact List.eq_nil_of_length_eq_zero hv
      rw [hnil] at hlen
      have hcount : size = min (n + iov.sum) l.readable.length := by
        rw [List.length_nil] at hlen
        omega
      refine ⟨_, by rw [hbytes, scatter, ← hdrop, hnil, scatter_nil, ← hcount], ?_⟩
      rw [← hdrop, hnil, List.drop_nil, ← hnil]
      exact hrel
    next hv =>
      obtain ⟨t, ht, hrel'⟩ := ih hrel (ret + size) (by dsimp only; omega)
      have hcount : ret + size + min iov.sum (l.readable.drop size).length =
          ret + min (n + iov.sum) l.readable.length := by
        omega
      rw [hcount] at ht
      refine ⟨t, by rw [ht, hbytes, scatter, ← hdrop]; rfl, ?_⟩
      rw [← hdrop]
      exact hrel'

theorem scatter_zeros {α : Type*} (zs iov : List ℕ) (hz : ∀ n ∈ zs, n = 0) (ys : List α) :
    scatter (zs ++ iov) ys = zs.map (fun _ => []) ++ scatter iov ys := by
  induction zs with
  | nil => rfl
  | cons n zs ih =>
    obtain rfl := hz n List.mem_cons_self
    simp [scatter, ih fun m hm => hz m (List.mem_cons_of_mem _ hm)]

/-- `tty_readv` skips the empty buffers at the head of the list. -/
theorem scatter_dropWhile {α : Type*} (iov : List ℕ) (ys : List α) :
    scatter iov ys = (iov.takeWhile (· = 0)).map (fun _ => []) ++
      scatter (iov.dropWhile (· = 0)) ys := by
  rw [← scatter_zeros _ _ fun n hn => by simpa using List.mem_takeWhile_imp hn,
    List.takeWhile_append_dropWhile]

theorem sum_dropWhile (iov : List ℕ) : (iov.dropWhile (· = 0)).sum = iov.sum := by
  induction iov with
  | nil => rfl
  | cons n iov ih =>
    by_cases hn : n = 0
    · rw [List.dropWhile_cons_of_pos (by simpa using hn), ih, List.sum_cons, hn, Nat.zero_add]
    · rw [List.dropWhile_cons_of_neg (by simpa using hn)]

theorem ttyReadv_related (h : Related l s) (iov : List ℕ) (iovcnt : ℕ) :
    ∃ t, ttyReadv s iov iovcnt = some (t, .done (scatter (iov.take iovcnt) l.readable),
        ↑(min (iov.take iovcnt).sum l.readable.length)) ∧
      Related ⟨l.readable.drop (iov.take iovcnt).sum, l.pending⟩ t := by
  unfold ttyReadv
  rw [if_neg (by omega), Int.toNat_natCast]
  generalize iov.take iovcnt = iov
  rw [scatter_dropWhile, ← sum_dropWhile iov]
  dsimp only
  generalize iov.takeWhile (· = 0) = zs
  generalize iov.dropWhile (· = 0) = rest
  obtain ⟨t, ht, hrel⟩ := readvLoop_related h 0 rest (by rw [Nat.zero_add]; exact readable_le h)
  cases rest with
  | nil => exact ⟨s, by simp [scatter], h⟩
  | cons n rest =>
    refine ⟨t, ?_, hrel⟩
    change Option.map _ (readvLoop s 0 (n :: rest)) = _
    rw [ht, Nat.zero_add]
    rfl

theorem step_related (h : Related l s) {op : Op} (ht : Step s op t) :
    ∃ l', Line.Step l op l' ∧ Related l' t := by
  cases ht with
  | batch back c => exact ⟨_, .batch back c, handleBatch_related h back c⟩
  | read hw hr =>
    obtain ⟨t', ht', hrel⟩ := ttyRead_related h _
    rw [hr] at ht'
    cases ht'
    refine ⟨_, .read (hw.imp_right fun hv he => hv ?_), hrel⟩
    rw [h.visible, he, List.length_nil]
  | @readv iov iovcnt _ _ _ hw hr =>
    by_cases hneg : iovcnt < 0
    · rw [ttyReadv, if_pos hneg] at hr
      cases hr
      exact ⟨l, .einval hneg, h⟩
    · obtain ⟨cnt, rfl⟩ := Int.eq_ofNat_of_zero_le (not_lt.mp hneg)
      obtain ⟨t', ht', hrel⟩ := ttyReadv_related h iov cnt
      rw [hr] at ht'
      cases ht'
      refine ⟨_, .readv ?_, hrel⟩
      obtain (hlt | hz) | hv := hw
      · exact absurd hlt hneg
      · exact .inl (List.sum_eq_zero_iff_forall_eq_nat.mpr hz)
      · exact .inr fun he => hv (by rw [h.visible, he, List.length_nil])

/-- Every run of the buffer is a run of the line discipline with the same calls and results,
and neither a batch nor a read of something readable ever fails. -/
theorem tty_refines_line (h : Run Step defaultTty xs s) :
    ∃ l, Run Line.Step ⟨[], []⟩ xs l ∧ Related l s ∧
      s.used ≤ readBufSize ∧ s.ii < readBufSize ∧
      (∀ back c, ∃ t, Step s (.batch back c) t) ∧
      (l.readable ≠ [] →
        (∀ n, ∃ t, Step s (.read n (l.readable.take n)) t) ∧
          ∀ iov (cnt : ℕ),
            ∃ t, Step s (.readv iov cnt (.done (scatter (iov.take cnt) l.readable))) t) := by
  have hsim : ∃ l, Run Line.Step ⟨[], []⟩ xs l ∧ Related l s := by
    induction h with
    | refl => exact ⟨_, .refl, related_default⟩
    | step _ hs ih =>
      obtain ⟨l, hrun, hrel⟩ := ih
      obtain ⟨l', hstep, hrel'⟩ := step_related hrel hs
      exact ⟨l', hrun.step hstep, hrel'⟩
  obtain ⟨l, hrun, hrel⟩ := hsim
  refine ⟨l, hrun, hrel, hrel.used_le, hrel.ii_lt, fun back c => ⟨_, .batch back c⟩, ?_⟩
  intro hne
  have hv : s.visible ≠ 0 := fun hz => hne (List.eq_nil_of_length_eq_zero (hrel.visible ▸ hz))
  constructor
  · intro n
    obtain ⟨t, ht, -⟩ := ttyRead_related hrel n
    exact ⟨t, .read (.inr hv) ht⟩
  · intro iov cnt
    obtain ⟨t, ht, -⟩ := ttyReadv_related hrel iov cnt
    exact ⟨t, .readv (.inr hv) ht⟩

/-- `"ho"`, a backspace, `"i\n"`, and a read of what is there. -/
theorem tty_refines_line_sample : ∃ t, ∃ l,
    Run Line.Step ⟨[], []⟩ [.batch 0 [104, 111], .batch 1 [105, 10], .read 5 [104, 105, 10]] l ∧
      Related l t := by
  have h₁ := Run.step (.refl : Run Step defaultTty [] defaultTty) (.batch 0 [104, 111])
  have h₂ := Run.step h₁ (.batch 1 [105, 10])
  obtain ⟨t, ht⟩ : ∃ t, ttyRead (handleBatch (handleBatch defaultTty 0 [104, 111]).tty 1
      [105, 10]).tty 5 = some (t, [104, 105, 10], 3) := ⟨_, rfl⟩
  have h₃ := Run.step h₂ (.read (.inr (by decide)) ht)
  obtain ⟨l, hrun, hrel, -⟩ := tty_refines_line h₃
  exact ⟨t, l, hrun, hrel⟩

end MyosIo.Tty
