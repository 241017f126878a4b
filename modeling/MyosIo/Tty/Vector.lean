import MyosIo.Tty.Line

/-! `tty_readv` is `tty_read` of the whole length. -/
namespace MyosIo.Tty

variable {l : Line} {s : TTY} {iov : List ℕ}

/-- A buffer after `chunk` was copied to its start. -/
def fill (buf chunk : List UInt8) : List UInt8 := chunk ++ buf.drop chunk.length

/-- The buffer after `n` of its bytes were read. -/
def TTY.advance (s : TTY) (n : ℕ) : TTY where
  readBuf := s.readBuf
  ii := s.ii
  oi := (s.oi + n) % readBufSize
  used := s.used - n
  visible := s.visible - n

theorem TTY.advance_zero (ho : s.oi < readBufSize) : s.advance 0 = s := by
  unfold advance
  rw [Nat.add_zero, Nat.mod_eq_of_lt ho]
  rfl

theorem TTY.advance_add (s : TTY) (m n : ℕ) : (s.advance m).advance n = s.advance (m + n) := by
  unfold advance
  rw [Nat.mod_add_mod, Nat.add_assoc, Nat.sub_sub, Nat.sub_sub]

theorem copyOut_advance (h : Related l s) {size : ℕ} (hs : size ≤ l.readable.length) :
    copyOut s size = (s.advance size, l.readable.take size) := by
  obtain ⟨hbytes, -⟩ := copyOut_related h hs
  obtain ⟨hbuf, hii, hused, hvisible⟩ := copyOut_frame s size
  have hle := h.bytes.left.fits
  have hoi := copyOut_oi s (hs.trans hle) h.oi
  generalize copyOut s size = r at *
  obtain ⟨⟨_, _, _, _, _⟩, _⟩ := r
  simp only at hbuf hii hused hvisible hoi hbytes
  subst hbuf hii hused hvisible hoi hbytes
  rfl

theorem ttyRead_advance (h : Related l s) (n : ℕ) :
    ttyRead s n =
      some (s.advance (min n s.visible), l.readable.take n, min n s.visible) := by
  have hle : min n s.visible ≤ l.readable.length := h.visible ▸ Nat.min_le_right _ _
  have htake : l.readable.take (min n s.visible) = l.readable.take n := by
    rw [h.visible, ← List.take_eq_take_min]
  unfold ttyRead
  dsimp only
  rw [clamp_eq]
  split
  next hz =>
    rw [hz, Nat.zero_min, TTY.advance_zero h.oi]
    rfl
  next => rw [if_pos (hle.trans (readable_le h)), copyOut_advance h hle, htake]

/-- The loop moves the buffer on by all it copied; `ret` counts the bytes before it. -/
theorem readvLoop_advance (h : Related l s) (ret : ℕ) (iov : List ℕ)
    (hr : ret + l.readable.length ≤ ssizeMax) :
    readvLoop s ret iov = some (s.advance (min iov.sum s.visible), scatter iov l.readable,
      ret + min iov.sum s.visible) := by
  induction iov generalizing s l ret with
  | nil =>
    rw [List.sum_nil, Nat.zero_min, TTY.advance_zero h.oi]
    rfl
  | cons n iov ih =>
    have hle : min n s.visible ≤ l.readable.length := h.visible ▸ Nat.min_le_right _ _
    have hvisible := h.visible
    obtain ⟨-, hrel⟩ := copyOut_related h hle
    have htake : l.readable.take (min n s.visible) = l.readable.take n := by
      rw [hvisible, ← List.take_eq_take_min]
    have hdrop : l.readable.drop (min n s.visible) = l.readable.drop n := by
      rw [← clamp_eq]
      exact (clamp_take h n).2
    unfold readvLoop
    dsimp only
    rw [clamp_eq, if_pos (by omega), copyOut_advance h hle, List.sum_cons, scatter, htake,
      ← hdrop]
    rw [copyOut_advance h hle] at hrel
    change Related _ (s.advance (min n s.visible)) at hrel
    change (if s.visible - min n s.visible = 0 then _ else _) = _
    have hlen : (l.readable.drop (min n s.visible)).length =
        l.readable.length - min n s.visible := List.length_drop
    split
    next hv =>
      have hnil : l.readable.drop (min n s.visible) = [] :=
        List.eq_nil_of_length_eq_zero (by omega)
      have hmin : min (n + iov.sum) s.visible = min n s.visible := by omega
      rw [hnil, scatter_nil, hmin]
    next hv =>
      have hloop := ih hrel (ret + min n s.visible) (by dsimp only; omega)
      have hmin : min n s.visible + min iov.sum (s.visible - min n s.visible) =
          min (n + iov.sum) s.visible := by omega
      rw [hloop]
      have hret : ret + min n s.visible + min iov.sum (s.visible - min n s.visible) =
          ret + min (n + iov.sum) s.visible := by rw [Nat.add_assoc, hmin]
      change some ((s.advance _).advance (min iov.sum (s.visible - min n s.visible)), _,
        ret + min n s.visible + min iov.sum (s.visible - min n s.visible)) = _
      rw [TTY.advance_add, hmin, hret]

theorem ttyReadv_advance (h : Related l s) (iov : List ℕ) :
    ttyReadv s iov iov.length = some (s.advance (min iov.sum s.visible),
      .done (scatter iov l.readable), ↑(min iov.sum s.visible)) := by
  unfold ttyReadv
  rw [if_neg (by omega), Int.toNat_natCast, List.take_length]
  rw [scatter_dropWhile, ← sum_dropWhile iov]
  dsimp only
  generalize iov.takeWhile (· = 0) = zs
  generalize iov.dropWhile (· = 0) = rest
  cases rest with
  | nil =>
    rw [List.sum_nil, Nat.zero_min, TTY.advance_zero h.oi]
    simp [scatter]
  | cons n rest =>
    have hloop := readvLoop_advance h 0 (n :: rest) (by
      rw [Nat.zero_add]
      exact readable_le h)
    change Option.map _ (readvLoop s 0 (n :: rest)) = _
    rw [hloop, Nat.zero_add]
    rfl

/-- The buffers hold the bytes in order, and what they held where no byte went. -/
theorem fill_scatter (bufs : List (List UInt8)) (xs : List UInt8) :
    (List.zipWith fill bufs (scatter (bufs.map List.length) xs)).flatten =
        xs.take bufs.flatten.length ++ bufs.flatten.drop xs.length ∧
      (List.zipWith fill bufs (scatter (bufs.map List.length) xs)).map List.length =
        bufs.map List.length := by
  induction bufs generalizing xs with
  | nil => simp [scatter]
  | cons b bufs ih =>
    obtain ⟨hflat, hlen⟩ := ih (xs.drop b.length)
    rw [List.length_drop] at hflat
    simp only [List.map_cons, scatter, List.zipWith_cons_cons, List.flatten_cons, hflat, hlen, fill,
      List.length_append, List.length_take, List.length_drop, List.drop_append, List.take_add,
      List.append_assoc]
    refine ⟨?_, ?_⟩
    · congr 1
      rcases Nat.le_total xs.length b.length with hle | hle
      · rw [List.drop_eq_nil_of_le hle, Nat.min_eq_right hle]
        simp
      · rw [Nat.min_eq_left hle, List.drop_length, List.drop_eq_nil_of_le hle]
        simp
    · congr 1
      omega

/-- For buffers `bufs`, `tty_readv` delivers what `tty_read` of their whole length would, in order
and nowhere else, and returns and leaves the same; with nothing asked for nothing changes. -/
theorem readv_eq_read (h : Related l s) (bufs : List (List UInt8)) :
    ∃ t bytes chunks, ttyRead s (bufs.map List.length).sum = some (t, bytes, bytes.length) ∧
      ttyReadv s (bufs.map List.length) bufs.length =
        some (t, .done chunks, ↑bytes.length) ∧
      (List.zipWith fill bufs chunks).map List.length = bufs.map List.length ∧
      (List.zipWith fill bufs chunks).flatten = bytes ++ bufs.flatten.drop bytes.length ∧
      ((∀ buf ∈ bufs, buf = []) → t = s ∧ bytes = []) ∧
      (0 < s.visible → (∃ buf ∈ bufs, buf ≠ []) → bytes ≠ []) := by
  have hlen : bufs.length = (bufs.map List.length).length := (List.length_map ..).symm
  have htotal : (bufs.map List.length).sum = bufs.flatten.length := List.length_flatten.symm
  have hbytes : min (bufs.map List.length).sum s.visible =
      (l.readable.take (bufs.map List.length).sum).length := by
    rw [h.visible, List.length_take]
  have hread := ttyRead_advance h (bufs.map List.length).sum
  have hreadv := ttyReadv_advance h (bufs.map List.length)
  obtain ⟨hflat, hsizes⟩ := fill_scatter bufs l.readable
  rw [hbytes] at hread hreadv
  refine ⟨_, _, _, hread, hlen ▸ hreadv, hsizes, ?_, ?_, ?_⟩
  · rw [hflat, htotal, List.length_take]
    congr 1
    rcases Nat.le_total l.readable.length bufs.flatten.length with hle | hle
    · rw [Nat.min_eq_right hle]
    · rw [Nat.min_eq_left hle, List.drop_length, List.drop_eq_nil_of_le hle]
  · intro hall
    have hzero : (bufs.map List.length).sum = 0 := by
      rw [htotal, List.flatten_eq_nil_iff.mpr hall, List.length_nil]
    rw [hzero, List.take_zero, List.length_nil, TTY.advance_zero h.oi]
    exact ⟨rfl, rfl⟩
  · rintro hv ⟨buf, hmem, hne⟩ hnil
    have hpos : 0 < bufs.flatten.length := by
      rw [List.length_pos_iff]
      exact fun he => hne (List.flatten_eq_nil_iff.mp he buf hmem)
    rw [hnil, htotal, List.length_nil] at hbytes
    omega

/-- Three buffers, one of them empty. -/
theorem readv_eq_read_sample : ∃ t bytes chunks,
    ttyRead (handleBatch defaultTty 0 [104, 105, 10]).tty 3 = some (t, bytes, bytes.length) ∧
      ttyReadv (handleBatch defaultTty 0 [104, 105, 10]).tty [1, 0, 2] 3 =
        some (t, .done chunks, ↑bytes.length) := by
  have hrel := handleBatch_related related_default 0 [104, 105, 10]
  obtain ⟨t, bytes, chunks, hread, hreadv, -⟩ := readv_eq_read hrel [[1], [], [2, 3]]
  exact ⟨t, bytes, chunks, hread, hreadv⟩

end MyosIo.Tty
