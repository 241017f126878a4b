import MyosIo.Sched.Listed
import MyosIo.Sched.Member

/-! As long as the cores enter the lock in order, its nodes and those of the list say who has the
lock and which threads are in the list, and every step is one of `Sched.Step` or none. -/
namespace MyosIo.Sched.Memory

open Function AlList

variable {C T P : Type*} {s t : State C T P} {c d : C} {l l' : FifoLock C (Node C T)}
  {e : Event C T} {u : T} {m : Node C T}

/-- What a core still has to link. -/
def Owes (p : Producer Unit T) (q : Pc T) : Prop :=
  match q.owes with
  | some t => ∃ d, p = .store t d
  | none => p = .idle

/-- Where a core is in `al_delete_front_force`. -/
def Deletes (k : Consumer T) : Pc T → Prop
  | .pop _ => removing k = none ∧ k ≠ .idle
  | .unlock _ t => ∃ next, k = .ret t next
  | _ => k = .idle

/-- The consumer of the list is the core that has the lock. -/
def State.consumer (s : State C T P) (l : FifoLock C (Node C T)) : Consumer T :=
  match l.holder with
  | none => .idle
  | some x => s.cons x.1

/-- A thread in the hands of a core has no link, unless it has just been removed. -/
def Words (s : State C T P) : Prop :=
  ∀ c u, s.sched.hand c = some u → (∃ cur, s.sched.pc c = .unlock cur u) ∨
    (∃ cur, s.sched.pc c = .clear cur u ∧ s.got c ≠ none) ∨ s.mem (.node u) = none

variable [DecidableEq C] [DecidableEq T] [Fintype C]

/-- What memory says, with `l` for the lock. -/
structure Inv (l : FifoLock C (Node C T)) (s : State C T P) : Prop where
  tokens : Tokens s.sched
  placed : Placed s.sched
  locked : Locked s.sched
  behind : Behind s.sched
  alone : Alone s.sched
  lock : Spinlock.Inv l s.mtx
  order : l.queue.map Prod.fst = s.sched.lock
  member : ∀ c, AtLock c (s.mtx.pc c) (s.sched.running c) (s.sched.pc c)
  owes : ∀ c, Owes (s.prod c) (s.sched.pc c)
  deletes : ∀ c, Deletes (s.cons c) (s.sched.pc c)
  list : Listed s.mem s.last s.prod (s.consumer l) s.sched.queue
  words : Words s

theorem Inv.consumer_eq (hi : Inv l s) (hc : (s.sched.pc c).serving) :
    (∃ m w, l = ⟨some (c, m), w⟩) ∧ s.consumer l = s.cons c := by
  obtain ⟨m, w, rfl⟩ := (hi.member c).holder hc hi.lock
  exact ⟨⟨m, w, rfl⟩, rfl⟩

/-- A core that is in `al_delete_front_force` has the lock. -/
theorem Inv.popping (hi : Inv l s) (hc : s.cons c ≠ .idle) (hr : removing (s.cons c) = none) :
    ∃ cur, s.sched.pc c = .pop cur := by
  have h := hi.deletes c
  cases hp : s.sched.pc c with
  | pop cur => exact ⟨cur, rfl⟩
  | unlock cur t =>
    rw [hp] at h
    obtain ⟨next, hk⟩ := h
    rw [hk] at hr
    cases hr
  | _ =>
    rw [hp] at h
    exact absurd h hc

/-- Nobody else uses a member below a thread that is in the hands of a core. -/
theorem Inv.unused (hi : Inv l s) (hc : s.sched.hand c = some u) (hd : d ≠ c) (sp : ℕ) :
    (s.mtx.pc d).member ≠ some (.below u sp) := by
  intro hm
  obtain hm | ⟨me, sp', hm, hs | hh⟩ := (hi.member d).member hm
  · cases hm
  · cases hm
    exact hd (hi.behind.not_taken hi.placed hs hc).symm
  · cases hm
    exact hd (hi.placed.hand_unique hh hc)

theorem Inv.owes_iff (hi : Inv l s) (h : (s.sched.pc c).owes = some u) :
    ∃ d, s.prod c = .store u d := by
  have howes := hi.owes c
  rw [Owes, h] at howes
  exact howes

/-- The threads in front are linked. -/
theorem Inv.linked (hi : Inv l s) {h : T} (hf : front (s.consumer l) = [h]) :
    s.sched.linked h ∧ (s.mem (.node h) ≠ none →
      ∀ n q, s.sched.queue = h :: n :: q → s.sched.linked n) := by
  have hnd := hi.placed.queue_nodup
  refine ⟨fun c hc => ?_, fun hm n q hq c hc => ?_⟩
  · obtain ⟨d, hd⟩ := hi.owes_iff hc
    obtain ⟨rest, hrest, hmem, -⟩ := hi.list.owed hf hd
    rw [hrest] at hnd
    exact (List.nodup_cons.mp hnd).1 hmem
  · obtain ⟨d, hd⟩ := hi.owes_iff hc
    obtain ⟨rest, hrest, hmem, hnext⟩ := hi.list.owed hf hd
    rw [hq] at hrest hnd
    obtain ⟨-, rfl⟩ := List.cons.inj hrest
    exact (List.nodup_cons.mp (List.nodup_cons.mp hnd).2).1 (hnext hm n q rfl)

/-- The core that may take the lock is the first one in it. -/
theorem Inv.head (hi : Inv l s) (hg : Spinlock.Granted s.mtx m (s.mtx.pc c)) :
    s.sched.lock.head? = some c := by
  obtain ⟨w, rfl, -⟩ := hi.lock.granted hg
  rw [← hi.order]
  rfl

omit [Fintype C] in
theorem sim_removed {cur next : Option T} {h : T} {q : List T} {s' : State C T P}
    (hp : s.sched.pc c = .pop cur) (hq : s.sched.queue = h :: q)
    (hl : ∀ u ∈ s.sched.queue.take 2, s.sched.linked u) (hs' : s'.sched = s.sched) :
    Sched.Step s.sched (.remove c h) (s'.removed c cur h next).sched := by
  have herase : s.sched.queue.erase h = q := by rw [hq, List.erase_cons_head]
  have hstep : Sched.Step s.sched (.remove c h)
      { s.sched.setPc c (.unlock cur h) with queue := q } := .remove hp hq hl
  rw [← herase] at hstep
  simp only [State.removed, State.setCons, hs']
  exact hstep

theorem Inv.sim_released {cur next : Option T} {h : T} {s' : State C T P} (hi : Inv l s)
    (hp : s.sched.pc c = .unlock cur h) (hs' : s'.sched = s.sched) :
    Sched.Step s.sched .silent (s'.released c cur h next).sched := by
  obtain ⟨q, hq, hc⟩ := hi.locked.cons (c := c) (by rw [hp]; rfl)
  have herase : s.sched.lock.erase c = s.sched.lock.tail := by
    rw [hq, List.erase_cons_head, List.tail_cons]
  have hstep : Sched.Step s.sched .silent
      { s.sched.setPc c (.clear cur h) with lock := s.sched.lock.tail } := .unlock hp
  rw [← herase] at hstep
  rw [State.released, hs']
  exact hstep

/-- Every step in memory is a step of the scheduler, or none. -/
theorem Inv.sim (hi : Inv l s) (hs : Step s e t) :
    t.sched = s.sched ∧ e.base = .silent ∨ Sched.Step s.sched e.base t.sched := by
  cases hs with
  | aside hs => exact .inr hs
  | append he hp hnd hb =>
    obtain rfl | ⟨rfl, rfl⟩ := he
    · exact .inr (.append hp (List.cons_ne_nil _ _) hnd hb)
    · exact .inr (.keyboardBusy hp (hb _ List.mem_cons_self))
  | link hp => exact .inr (.link hp)
  | tickAppend hp => exact .inr (.tickAppend hp)
  | tickLink hp => exact .inr (.tickLink hp)
  | exchange hp => exact .inr (.lock hp)
  | fast hp hm => exact .inr (.grant hp (hi.head (.inl hm)))
  | spin hp hm hl => exact .inr (.grant hp (hi.head (.inr ⟨hm, hl⟩)))
  | @casOk c cur h hp hc he =>
    obtain ⟨⟨m, w, rfl⟩, hcons⟩ := hi.consumer_eq (c := c) (by rw [hp]; rfl)
    rw [hc] at hcons
    have hlist := hi.list
    rw [hcons] at hlist
    obtain ⟨hq, -⟩ := hlist.casOk he
    refine .inr (sim_removed hp hq ?_ rfl)
    rw [hq]
    intro u hu
    obtain rfl := List.mem_singleton.mp hu
    exact (hi.linked (by rw [hcons]; rfl)).1
  | @storeHead c cur h n hp hc =>
    obtain ⟨⟨m, w, rfl⟩, hcons⟩ := hi.consumer_eq (c := c) (by rw [hp]; rfl)
    rw [hc] at hcons
    have hlist := hi.list
    rw [hcons] at hlist
    obtain ⟨q, hq, hmem, -⟩ := hlist.storeHead
    obtain ⟨hfirst, hsecond⟩ := hi.linked (h := h) (by rw [hcons]; rfl)
    refine .inr (sim_removed hp hq ?_ rfl)
    rw [hq]
    intro u hu
    obtain rfl | hu := List.mem_cons.mp hu
    · exact hfirst
    · obtain rfl := List.mem_singleton.mp hu
      exact hsecond (by rw [hmem]; exact Option.some_ne_none _) _ q hq
  | cas hp => exact .inr (hi.sim_released hp rfl)
  | grant hp => exact .inr (hi.sim_released hp rfl)
  | @clear c cur t hp => cases cur <;> exact .inr (.clear hp)
  | _ => exact .inl ⟨rfl, rfl⟩

end MyosIo.Sched.Memory
