import MyosIo.AlList.Chains
import MyosIo.AlList.Linearizable
import MyosIo.Sched.Memory

/-! `schedulable_threads` is a list of `AlList` whose consumer is the core that has the lock. -/
namespace MyosIo.Sched.Memory

open Function AlList

variable {C T : Type*}

/-- A list in memory, with the producers and the consumer `k`, that holds the threads `queue`. A
second producer beside the cores is never seen. -/
structure Lists (f : Fifo Unit T Empty) (s : AlList.State Unit (Option C) T Empty)
    (mem : Cell Unit T → Option T) (last : Option T) (prod : C → Producer Unit T) (k : Consumer T)
    (queue : List T) : Prop where
  inv : ∃ pend loc, Inv f pend loc s
  linked : ∀ x, s.linked x = true → x ∈ queue ∨ removing k = some x
  mem : s.mem = mem
  last : s.last () = last
  prod : ∀ c, s.prod (some c) = prod c
  spare : s.prod none = .idle
  cons : s.cons () = k
  queue : f.queue () = queue

def Listed (mem : Cell Unit T → Option T) (last : Option T) (prod : C → Producer Unit T)
    (k : Consumer T) (queue : List T) : Prop :=
  ∃ f s, Lists f s mem last prod k queue

variable {mem : Cell Unit T → Option T} {last : Option T} {prod : C → Producer Unit T}
  {k k' : Consumer T} {queue ts : List T} {c : C} {t h n : T} {d : Cell Unit T} {v next : Option T}

theorem listed_boot : Listed (fun _ => none) none (fun _ : C => .idle) .idle ([] : List T) :=
  ⟨Fifo.empty _ _ _, initial _ _ _ _, ⟨_, _, inv_initial⟩, nofun, rfl, rfl, fun _ => rfl, rfl,
    rfl, rfl⟩

variable [DecidableEq C] [DecidableEq T]

/-- The consumer goes on. -/
theorem Listed.advance (hi : Listed mem last prod k queue) (hr : removing k' = removing k)
    (hs : ∀ s : AlList.State Unit (Option C) T Empty, s.mem = mem → s.last () = last →
      s.cons () = k → AlList.Step s .silent (s.setCons () k')) :
    Listed mem last prod k' queue := by
  obtain ⟨f, s, h⟩ := hi
  obtain ⟨pend, loc, hI⟩ := h.inv
  obtain ⟨f', pend', loc', hf, hI'⟩ := hI.step (hs s h.mem h.last h.cons)
  cases hf
  exact ⟨f, _, ⟨pend', loc', hI'⟩, fun x hx => by rw [hr]; exact h.linked x hx, h.mem, h.last,
    h.prod, h.spare, rfl, h.queue⟩

theorem Listed.client (hi : Listed mem last prod k queue) (ht : t ∉ queue)
    (hk : removing k ≠ some t) (v : Option T) :
    Listed (update mem (.node t) v) last prod k queue := by
  obtain ⟨f, s, h⟩ := hi
  obtain ⟨pend, loc, hI⟩ := h.inv
  have hfree : s.linked t = false := by
    by_contra hl
    exact (h.linked t (by simpa using hl)).elim ht hk
  obtain ⟨f', pend', loc', hf, hI'⟩ := hI.step (.client (v := v) hfree)
  cases hf
  exact ⟨f, _, ⟨pend', loc', hI'⟩, h.linked,
    congrArg (fun m => update m (Cell.node t) v) h.mem, h.last, h.prod, h.spare, h.cons, h.queue⟩

theorem Listed.append (hi : Listed mem last prod k queue) (hp : prod c = .idle)
    (hnd : (t :: ts).Nodup) (ht : ∀ u ∈ t :: ts, u ∉ queue ∧ removing k ≠ some u)
    (hlinks : (links Unit T).Stored mem (.node t) ts) :
    Listed mem (some ((t :: ts).getLast (List.cons_ne_nil t ts)))
      (update prod c (.store t (linkCell () last))) k (queue ++ t :: ts) := by
  obtain ⟨f, s, h⟩ := hi
  obtain ⟨pend, loc, hI⟩ := h.inv
  have hfree : ∀ u ∈ t :: ts, s.linked u = false := fun u hu => by
    by_contra hl
    exact (h.linked u (by simpa using hl)).elim (ht u hu).1 (ht u hu).2
  obtain ⟨f', pend', loc', hq, hI'⟩ := hI.appendChain (k := ()) (p := some c) (r := none)
    (l := fun x => decide (x ∈ t :: ts) || s.linked x) ((h.prod c).trans hp) h.spare nofun hnd
    hfree (by rw [h.mem]; exact hlinks) (fun x hx => by
      rw [Bool.or_eq_false_iff, decide_eq_false_iff_not] at hx
      exact ⟨hx.2, hx.1⟩)
  refine ⟨f', _, ⟨pend', loc', hI'⟩, fun x hx => ?_, h.mem, rfl, fun c' => ?_, h.spare,
    h.cons, ?_⟩
  · rw [Bool.or_eq_true, decide_eq_true_iff] at hx
    rw [List.mem_append]
    obtain hx | hx := hx
    · exact .inl (.inr hx)
    · exact (h.linked x hx).imp_left .inl
  · rcases eq_or_ne c' c with rfl | hne
    · simp [h.last]
    · have hsome : some c' ≠ some c := fun he => hne (Option.some.inj he)
      exact (update_of_ne hsome _ _).trans ((h.prod c').trans (update_of_ne hne _ _).symm)
  · rw [hq, update_self, h.queue]

theorem Listed.link (hi : Listed mem last prod k queue) (hp : prod c = .store t d) :
    Listed (update mem d (some t)) last (update prod c .idle) k queue := by
  obtain ⟨f, s, h⟩ := hi
  obtain ⟨pend, loc, hI⟩ := h.inv
  obtain ⟨f', pend', loc', hf, hI'⟩ := hI.step (.link ((h.prod c).trans hp) rfl)
  cases hf
  refine ⟨f, _, ⟨pend', loc', hI'⟩, h.linked, congrArg (fun m => update m d (some t)) h.mem, h.last,
    fun c' => ?_, h.spare, h.cons, h.queue⟩
  rcases eq_or_ne c' c with rfl | hne
  · simp
  · have hsome : some c' ≠ some c := fun he => hne (Option.some.inj he)
    exact (update_of_ne hsome _ _).trans ((h.prod c').trans (update_of_ne hne _ _).symm)

theorem Listed.storeNull (hi : Listed mem last prod (.storeNull h) queue) :
    Listed (update mem (.head ()) none) last prod (.casEnd h) queue := by
  obtain ⟨f, s, hs⟩ := hi
  obtain ⟨pend, loc, hI⟩ := hs.inv
  obtain ⟨f', pend', loc', hf, hI'⟩ := hI.step (.storeNull hs.cons)
  cases hf
  refine ⟨f, _, ⟨pend', loc', hI'⟩, fun x hx => ?_,
    congrArg (fun m => update m (Cell.head ()) none) hs.mem, hs.last, hs.prod, hs.spare, rfl,
    hs.queue⟩
  exact (hs.linked x hx).imp_right nofun

/-- What has been removed goes back to its owner. -/
theorem Listed.ret (hi : Listed mem last prod (.ret h next) queue) :
    Listed mem last prod .idle queue := by
  obtain ⟨f, s, hs⟩ := hi
  obtain ⟨pend, loc, hI⟩ := hs.inv
  obtain ⟨f', pend', loc', hf, hI'⟩ := hI.step (.ret hs.cons)
  cases hf
  refine ⟨_, _, ⟨pend', loc', hI'⟩, fun x hx => .inl ?_, hs.mem, hs.last, hs.prod, hs.spare,
    rfl, hs.queue⟩
  have hne : x ≠ h := by
    rintro rfl
    simp at hx
  have hx : s.linked x = true := by simpa [hne] using hx
  exact (hs.linked x hx).resolve_right fun he => hne (Option.some.inj he).symm

omit [DecidableEq C] [DecidableEq T] in
theorem Listed.ret_none (hi : Listed mem last prod (.ret h none) queue) : mem (.node h) = none := by
  obtain ⟨f, s, hs⟩ := hi
  obtain ⟨pend, loc, hI⟩ := hs.inv
  obtain ⟨rest, hsplit⟩ := hI.list ()
  rw [hs.cons] at hsplit
  rw [← hs.mem]
  exact hsplit.stage

/-- The last thread is removed. -/
theorem Listed.casOk (hi : Listed mem last prod (.casEnd h) queue) (hl : last = some h) :
    queue = [h] ∧ Listed mem none prod (.ret h none) [] := by
  obtain ⟨f, s, hs⟩ := hi
  obtain ⟨pend, loc, hI⟩ := hs.inv
  obtain ⟨rest, hsplit⟩ := hI.list ()
  rw [hs.cons, hs.queue] at hsplit
  obtain rfl : rest = [] := (hsplit.last_iff rfl).mp (by
    rw [← hs.queue, ← hI.last (), hs.last, hl])
  have hqueue : queue = [h] := hsplit.split
  obtain ⟨f', pend', loc', hf, hI'⟩ := hI.step (.casOk hs.cons (hs.last.trans hl))
  have hnull : s.mem (.node h) = none := by
    obtain ⟨rest, hr⟩ := hI'.list ()
    exact hr.stage
  obtain ⟨f'', pend'', loc'', hf', hI''⟩ := hI'.step (.checkNext (k := ()) (h := h) rfl hnull)
  cases hf'
  cases hf with
  | @remove _ _ q hq hh =>
    rw [hs.queue, hqueue] at hq
    obtain ⟨-, rfl⟩ := List.cons.inj hq
    refine ⟨hqueue, _, _, ⟨pend'', loc'', hI''⟩, fun x hx => ?_, hs.mem, rfl, hs.prod, hs.spare,
      rfl, rfl⟩
    have hx := hs.linked x hx
    rw [hqueue] at hx
    exact .inr (hx.elim (fun hx => by rw [List.mem_singleton.mp hx]; rfl) nofun)

/-- Another thread than the last one is removed. -/
theorem Listed.storeHead (hi : Listed mem last prod (.storeHead h n) queue) :
    ∃ q, queue = h :: n :: q ∧ mem (.node h) = some n ∧
      Listed (update mem (.head ()) (some n)) last prod (.ret h (some n)) (n :: q) := by
  obtain ⟨f, s, hs⟩ := hi
  obtain ⟨pend, loc, hI⟩ := hs.inv
  obtain ⟨rest, hsplit⟩ := hI.list ()
  rw [hs.cons, hs.queue] at hsplit
  obtain ⟨q, rfl, -⟩ := (links Unit T).chain_head hsplit.segment.chain hsplit.stage
  have hqueue : queue = h :: n :: q := hsplit.split
  obtain ⟨f', pend', loc', hf, hI'⟩ := hI.step (.storeHead hs.cons)
  cases hf with
  | @remove _ _ q' hq hh =>
    rw [hs.queue, hqueue] at hq
    obtain ⟨-, rfl⟩ := List.cons.inj hq
    refine ⟨q, hqueue, hs.mem ▸ hsplit.stage, _, _, ⟨pend', loc', hI'⟩, fun x hx => ?_,
      congrArg (fun m => update m (Cell.head ()) (some n)) hs.mem, hs.last, hs.prod, hs.spare,
      rfl, rfl⟩
    have hx := hs.linked x hx
    rw [hqueue, List.mem_cons] at hx
    obtain (rfl | hx) | hx := hx
    · exact .inr rfl
    · exact .inl hx
    · cases hx

omit [DecidableEq C] [DecidableEq T] in
/-- A core links behind a thread that is in the list. -/
theorem Listed.owed_cell {x : T} (hi : Listed mem last prod k queue)
    (hp : prod c = .store t (.node x)) : x ∈ queue := by
  obtain ⟨f, s, hs⟩ := hi
  obtain ⟨pend, loc, hI⟩ := hs.inv
  have hpend : pend (.node x) = some (some c, t) :=
    (hI.owes (some c) t _).mpr ((hs.prod c).trans hp)
  have hlinked : s.linked x = true := by
    by_contra hx
    cases (hI.free x (by simpa using hx)).2.symm.trans hpend
  refine (hs.linked x hlinked).resolve_right fun hx => ?_
  rw [← hs.cons] at hx
  cases (hI.leaving () x hx).2.symm.trans hpend

omit [DecidableEq C] [DecidableEq T] in
/-- What a core still has to link stands behind the thread that is being removed. -/
theorem Listed.owed (hi : Listed mem last prod k queue) (hk : front k = [h])
    (hp : prod c = .store t d) : ∃ rest, queue = h :: rest ∧ t ∈ rest ∧
      (mem (.node h) ≠ none → ∀ n q, rest = n :: q → t ∈ q) := by
  have hin : ∀ x, d = .node x → x ∈ queue := fun x hx => hi.owed_cell (hx ▸ hp)
  obtain ⟨f, s, hs⟩ := hi
  obtain ⟨pend, loc, hI⟩ := hs.inv
  obtain ⟨rest, hl⟩ := hI.list ()
  rw [hs.cons, hs.queue] at hl
  have hqueue : queue = h :: rest := by rw [hl.split, hk]; rfl
  have hpend : pend d = some (some c, t) := (hI.owes (some c) t d).mpr ((hs.prod c).trans hp)
  have hchain := hl.segment.chain
  rw [startCell, hk] at hchain
  have hcell : d ∈ (links Unit T).cells (.node h) rest := by
    cases d with
    | head =>
      cases (hl.headFree (by rw [hk]; exact List.cons_ne_nil h [])).symm.trans hpend
    | node x =>
      have hx := hin x rfl
      rw [hqueue] at hx
      obtain rfl | hx := List.mem_cons.mp hx
      · exact List.mem_cons_self
      · exact List.mem_cons_of_mem _ (List.mem_map_of_mem hx)
  refine ⟨rest, hqueue, (links Unit T).chain_mem_of_owed hchain hcell hpend, ?_⟩
  rintro hm n q rfl
  rw [hs.mem] at hchain
  obtain ⟨⟨hn, hnone⟩ | ⟨hn, -⟩, hrest⟩ := hchain
  · have hd : d ≠ .node h := by
      rintro rfl
      cases hnone.symm.trans hpend
    exact (links Unit T).chain_mem_of_owed hrest (List.mem_of_ne_of_mem hd hcell) hpend
  · exact absurd hn hm

omit [DecidableEq C] [DecidableEq T] in
/-- When nobody is in a call the list can be followed from its head to its end. -/
theorem Listed.quiet (hi : Listed mem last prod .idle queue) (hp : ∀ c, prod c = .idle) :
    (links Unit T).Stored mem (.head ()) queue ∧ last = queue.getLast? := by
  obtain ⟨f, s, hs⟩ := hi
  obtain ⟨pend, loc, hI⟩ := hs.inv
  obtain ⟨rest, hl⟩ := hI.list ()
  rw [hs.cons, hs.queue] at hl
  obtain rfl : queue = rest := hl.split
  have hchain := hl.segment.chain
  rw [hs.mem] at hchain
  have hpend : ∀ d, pend d = none := by
    intro d
    by_contra hd
    obtain ⟨⟨p, n⟩, hd⟩ := Option.ne_none_iff_exists'.mp hd
    have hstore := (hI.owes p n d).mp hd
    cases p with
    | none => cases hs.spare.symm.trans hstore
    | some c => cases ((hs.prod c).trans (hp c)).symm.trans hstore
  exact ⟨hchain.stored _ hpend, by rw [← hs.last, hI.last (), hs.queue]⟩

end MyosIo.Sched.Memory
