import MyosIo.AlList.Steps

/-! The atomic list is a linearizable FIFO queue: every run of it is a run of `Fifo`. -/
namespace MyosIo.AlList

open Function

variable {K P N W : Type*} [DecidableEq K] [DecidableEq W]
  {f : Fifo K N W} {pend : Cell K N → Option (P × N)} {loc : N → Loc K W}
  {s t : State K P N W} {e : Event K P N W} {xs : List (Event K P N W)} {k : K} {w : W} {h : N}

omit [DecidableEq W] in
/-- The load of `head` that finds the list non-empty, in either removal. -/
theorem Inv.loadHead {c : Consumer N} (hI : Inv f pend loc s) (hf : front (s.cons k) = [])
    (hr : removing (s.cons k) = none) (hm : s.mem (.head k) = some h) (hf' : front c = [h])
    (hr' : removing c = none) (hs : ∀ q, Stage s.mem k (h :: q) (s.cons k) → Stage s.mem k q c) :
    Inv f pend loc (s.setCons k c) := by
  obtain ⟨rest, hl⟩ := hI.list k
  refine hI.setCons (hl.loadHead hf hm hf' fun q hq => hs q ?_) (hr'.trans hr.symm)
  simpa [← hq] using hl.stage

omit [DecidableEq W] in
/-- The call moves on with what it has in hand. -/
theorem Inv.advance {c : Consumer N} (hI : Inv f pend loc s) (hf : front c = front (s.cons k))
    (hr : removing c = removing (s.cons k))
    (hs : ∀ rest, ListSplit loc s.mem pend k (f.queue k) (s.cons k) rest →
      Stage s.mem k rest c) : Inv f pend loc (s.setCons k c) := by
  obtain ⟨rest, hl⟩ := hI.list k
  exact hI.setCons ⟨rest, hl.advance hf (hs rest hl)⟩ hr

omit [DecidableEq W] in
/-- The store of `NULL` to `head` with the first node in hand. -/
theorem Inv.storeNull [DecidableEq N] {c : Consumer N} (hI : Inv f pend loc s)
    (hf : front (s.cons k) = [h])
    (hf' : front c = [h]) (hr : removing (s.cons k) = none) (hr' : removing c = none)
    (hs : ∀ rest, Stage (update s.mem (.head k) none) k rest c) :
    Inv f pend loc { s.setCons k c with mem := update s.mem (.head k) none } := by
  obtain ⟨rest, hl⟩ := hI.list k
  exact hI.setHead ⟨rest, hl.storeNull hf hf' (hs rest)⟩ hr' hr

theorem Kept.silent (hI : Inv f pend loc t) : Kept f .silent t :=
  ⟨f, pend, loc, .silent, hI⟩

theorem Inv.empty (hI : Inv f pend loc s) (hf : front (s.cons k) = [])
    (hr : removing (s.cons k) = none) (he : s.last k = none) :
    Kept f (.empty k) (s.setCons k .idle) := by
  have hq : f.queue k = [] := by simpa [hI.last k] using he
  exact ⟨f, pend, loc, .empty hq, hI.advance hf.symm hr.symm fun _ _ => trivial⟩

omit [DecidableEq K] [DecidableEq W] in
theorem Inv.nonempty {e : N} {rest : List N} (hI : Inv f pend loc s) (he : s.last k = some e)
    (hf : front (s.cons k) = [])
    (hl : ListSplit loc s.mem pend k (f.queue k) (s.cons k) rest) : e ∈ rest := by
  have hq := hl.split
  rw [hf, List.nil_append] at hq
  rw [hI.last k, hq] at he
  exact List.mem_of_getLast? he

omit [DecidableEq K] [DecidableEq W] in
theorem Inv.more {rest : List N} (hI : Inv f pend loc s) (he : s.last k ≠ some h)
    (hf : front (s.cons k) = [h])
    (hl : ListSplit loc s.mem pend k (f.queue k) (s.cons k) rest) : rest ≠ [] :=
  fun hr => he (by rw [hI.last k]; exact (hl.last_iff hf).mpr hr)

theorem Inv.step [DecidableEq N] [DecidableEq P] (hI : Inv f pend loc s) (hs : Step s e t) :
    Kept f e t := by
  cases hs with
  | exchange hp hn hm => exact hI.exchange hp hn hm
  | link hp hr => exact hI.link hp _
  | callDelete hc | callForce hc | callClear hc =>
    exact .silent (hI.advance (by simp [hc, front]) (by simp [hc, removing])
      fun _ _ => trivial)
  | deleteEmpty hc he | clearEmpty hc he =>
    exact hI.empty (by simp [hc, front]) (by simp [hc, removing]) he
  | deleteEnd hc he =>
    exact .silent (hI.advance (by simp [hc, front]) (by simp [hc, removing])
      fun _ hl => hI.nonempty he (by simp [hc, front]) hl)
  | @deleteHead k e h hc hm =>
    refine .silent (hI.loadHead (by simp [hc, front]) (by simp [hc, removing]) hm ?_ ?_ ?_)
    · split <;> rfl
    · split <;> rfl
    · intro q hq
      by_cases heq : h = e
      · simp [heq, Stage]
      · have hmem : e ∈ h :: q := by simpa [hc, Stage] using hq
        have hmem : e ∈ q := by simpa [Ne.symm heq] using hmem
        simpa [heq, Stage] using List.ne_nil_of_mem hmem
  | forceHead hc hm =>
    exact .silent (hI.loadHead (by simp [hc, front]) (by simp [hc, removing]) hm rfl rfl
      fun _ _ => trivial)
  | @forceEnd k h hc =>
    refine .silent (hI.advance ?_ ?_ fun rest hl => ?_)
    · rw [hc]; split <;> rfl
    · rw [hc]; split <;> rfl
    · by_cases he : s.last k = some h
      · simp [he, Stage]
      · simpa [he, Stage] using hI.more he (by simp [hc, front]) hl
  | storeNull hc | clearStoreNull hc =>
    exact .silent (hI.storeNull (by simp [hc, front]) rfl (by simp [hc, removing]) rfl
      fun _ => by simp [Stage])
  | casOk hc he => exact hI.casOk hc he
  | casFail hc he =>
    exact .silent (hI.advance (by simp [hc, front]) (by simp [hc, removing])
      fun _ hl => hI.more he (by simp [hc, front]) hl)
  | checkNext hc hm =>
    exact .silent (hI.advance (by simp [hc, front]) (by simp [hc, removing]) fun _ _ => hm)
  | loadNext hc hm =>
    exact .silent (hI.advance (by simp [hc, front]) (by simp [hc, removing]) fun _ _ => hm)
  | storeHead hc => exact hI.storeHead hc
  | ret hc => exact hI.ret hc
  | clearEnd hc he =>
    exact .silent (hI.advance (by simp [hc, front]) (by simp [hc, removing])
      fun _ hl => List.ne_nil_of_mem (hI.nonempty he (by simp [hc, front]) hl))
  | clearHead hc hm =>
    exact .silent (hI.loadHead (by simp [hc, front]) (by simp [hc, removing]) hm rfl rfl
      fun _ _ => trivial)
  | clearExchange hc hw => exact hI.clearExchange hc hw
  | takeLast hw => exact hI.takeLast hw
  | take hw hne hm => exact hI.take hw hm
  | client hn => exact hI.client hn

/-- Every run is a run of the FIFO queues, and ends in a state the invariant describes. -/
theorem run_inv [DecidableEq N] [DecidableEq P] (h : Run Step (initial K P N W) xs s) :
    ∃ f pend loc, Run Fifo.Step (Fifo.empty K N W) xs f ∧ Inv f pend loc s := by
  induction h with
  | refl => exact ⟨_, _, _, .refl, inv_initial⟩
  | step _ hs ih =>
    obtain ⟨f, pend, loc, hf, hI⟩ := ih
    obtain ⟨f', pend', loc', hf', hI'⟩ := hI.step hs
    exact ⟨f', pend', loc', hf.step hf', hI'⟩

omit [DecidableEq W] in
theorem appended_snoc (k : K) (xs : List (Event K P N W)) (e : Event K P N W) :
    appended k (xs ++ [e]) = appended k xs ++ appended k [e] := by
  induction xs with
  | nil => rfl
  | cons x xs ih =>
    cases x with
    | append k' p n =>
      by_cases hk : k' = k <;> simp [appended, hk, ih]
    | _ => simpa [appended] using ih

/-- What left a queue and what is still in it are what was appended, in order. -/
theorem fifo_order (h : Run Fifo.Step (Fifo.empty K N W) xs f) (k : K) :
    f.out k ++ f.queue k = appended k xs := by
  induction h with
  | refl => rfl
  | step _ hs ih =>
    rw [appended_snoc, ← ih]
    cases hs with
    | @append k' _ n =>
      by_cases hk : k' = k
      · subst hk
        simp [appended]
      · simp [appended, hk, update_of_ne (Ne.symm hk)]
    | @remove k' n q hq hh =>
      by_cases hk : k = k'
      · subst hk
        simp [appended, hq]
      · simp [appended, update_of_ne hk]
    | @clear k' w hq hw =>
      by_cases hk : k = k'
      · subst hk
        simp [appended]
      · simp [appended, update_of_ne hk]
    | _ => simp [appended]

/-- The pair of a cleared chain, and its links, up to stores that producers still owe. -/
def ChainLinked (s : State K P N W) (w : W) (chain : List N) : Prop :=
  (s.walk w).map Prod.fst = chain.head? ∧ (s.walk w).map Prod.snd = chain.getLast? ∧
    ∀ l x y r, chain = l ++ x :: y :: r → s.mem (.node x) = some y ∨
      (s.mem (.node x) = none ∧ ∃ p, s.prod p = .store y (.node x))

omit [DecidableEq K] [DecidableEq W] in
theorem Inv.chainLinked (hI : Inv f pend loc s) (w : W) : ChainLinked s w (f.chain w) := by
  have hw := hI.walk w
  unfold ChainLinked
  cases hc : s.walk w with
  | none =>
    have hf : f.chain w = [] := by simpa [hc, WalkInv] using hw
    simp [hf]
  | some x =>
    obtain ⟨n, e⟩ := x
    rw [hc] at hw
    obtain ⟨rest, hq, hs, hlast⟩ := hw
    rw [hq]
    refine ⟨rfl, ?_, ?_⟩
    · rcases List.eq_nil_or_concat rest with rfl | ⟨q, m, rfl⟩
      · obtain rfl : n = e := by simpa using hlast
        rfl
      · obtain rfl : m = e := by simpa using hlast
        simp [List.getLast?_cons]
    · intro l x y r he
      rcases (links K N).chain_between hs.chain he with hm | ⟨hm, p, hp⟩
      · exact Or.inl hm
      · exact Or.inr ⟨hm, p, (hI.owes p y _).mp hp⟩

/-- Every interleaving of producers and lock holders is a run of the FIFO queues: nodes leave
a list in the order of the exchanges on `end`, a cleared chain is what was in the list at the
exchange of `al_clear`, and a removed last node has no link. -/
theorem al_list_fifo [DecidableEq N] [DecidableEq P] (h : Run Step (initial K P N W) xs s) :
    ∃ f, Run Fifo.Step (Fifo.empty K N W) xs f ∧
      (∀ k, f.out k ++ f.queue k = appended k xs) ∧
      (∀ w, ChainLinked s w (f.chain w)) ∧
      (∀ k n, s.cons k = .checkNext n → s.mem (.node n) = none) ∧
      ∀ k n, s.cons k = .ret n none → s.mem (.node n) = none := by
  obtain ⟨f, pend, loc, hf, hI⟩ := run_inv h
  refine ⟨f, hf, fifo_order hf, hI.chainLinked, ?_, ?_⟩
  · intro k n hc
    obtain ⟨rest, hl⟩ := hI.list k
    simpa [hc, Stage] using hl.stage
  · intro k n hc
    obtain ⟨rest, hl⟩ := hI.list k
    simpa [hc, Stage] using hl.stage

/-- A node is appended while the first one is being removed, after `end` has been read: the
compare-exchange fails, and the removal waits for the link. -/
theorem al_list_fifo_two : ∃ f, Run Fifo.Step (Fifo.empty Unit Bool Unit)
      [.append () false false, .link false false false, .silent, .silent, .silent, .silent,
        .append () true true, .silent, .link true true true, .silent, .remove () false,
        .ret () false (some true)] f ∧
    f.out () ++ f.queue () = [false, true] := by
  have h : Run Step (initial Unit Bool Bool Unit) [] _ := .refl
  have h := (h.step (.exchange (k := ()) (p := false) (n := false) rfl rfl rfl)).step
    (.link (p := false) rfl rfl)
  have h := ((h.step (.callDelete (k := ()) rfl)).step (.deleteEnd (k := ()) rfl rfl)).step
    (.deleteHead (k := ()) rfl rfl)
  have h := (h.step (.storeNull (k := ()) rfl)).step
    (.exchange (k := ()) (p := true) (n := true) rfl rfl rfl)
  have h := (h.step (.casFail (k := ()) rfl (by decide))).step (.link (p := true) rfl rfl)
  have h := ((h.step (.loadNext (k := ()) rfl rfl)).step (.storeHead (k := ()) rfl)).step
    (.ret (k := ()) rfl)
  obtain ⟨f, hf, ho, -⟩ := al_list_fifo h
  exact ⟨f, hf, ho ()⟩

end MyosIo.AlList
