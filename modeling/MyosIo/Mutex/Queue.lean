import MyosIo.Mutex.Words

/-! At most one agent at a time works at the front of the queue. What it has read tells where the
chain of the waiting threads starts: at `waiters`, or at the `temp0` of the thread at the front. -/
namespace MyosIo.Mutex

open Function

variable {A N : Type*}

/-- What an agent knows of the queue: who holds the mutex, who waits before the chain, and the
cell the chain starts from. -/
structure View (N : Type*) where
  holder : Option N
  front : List N
  start : Cell N

/-- No agent is at work. -/
def View.quiet (h : Option N) : View N := ⟨h, [], .waiters⟩

@[simp] theorem View.quiet_holder (h : Option N) : (View.quiet h).holder = h := rfl

@[simp] theorem View.quiet_front (h : Option N) : (View.quiet h).front = [] := rfl

@[simp] theorem View.quiet_start (h : Option N) : (View.quiet h).start = .waiters := rfl

def View.free (v : View N) : Prop := v.holder = none ∧ v.front = []

def Op.view : Op N → Option (View N)
  | .enter _ n .own => some ⟨none, [n], .waiters⟩
  | .enter _ n .casNode | .enter _ n .ownFollow => some ⟨none, [n], .temp0 n⟩
  | .enter _ n .copyLoad | .enter _ n (.copyStore _) => some ⟨some n, [], .temp0 n⟩
  | .release h .loadWaiters | .release h .loadEnd | .release h .clearOwner
  | .release h .casFree | .release h (.spinWaiters _) => some (.quiet (some h))
  | .release h (.loadNext w) | .release h (.loadEndNext w) | .release h (.clearWaiters w)
  | .release h (.casLast w) | .release h (.spinNext w) | .release h (.storeWaiters w _) =>
    some ⟨some h, [w], .temp0 w⟩
  | .release _ (.storeOwner w) => some ⟨none, [w], .waiters⟩
  | _ => none

/-- The thread that is about to enter. -/
def Op.node : Op N → Option N
  | .fastEnd n | .fastCas n => some n
  | .enter _ n .null | .enter _ n .loadEnd | .enter _ n .cas | .enter _ n .exchange => some n
  | _ => none

/-- The same once its `temp0` is cleared. -/
def Op.nulled : Op N → Option N
  | .enter false n .loadEnd | .enter false n .cas | .enter _ n .exchange => some n
  | _ => none

def Op.owes : Op N → Option (Cell N × N)
  | .enter _ n (.link c) => some (c, n)
  | _ => none

/-- What the agent at the front knows of the words; `rest` are the threads in the chain. -/
def Stage (mem : Cell N → Word N) (owner : Option N) (rest : List N) : Op N → Prop
  | .enter _ _ .own => owner = none
  | .enter _ _ .casNode => owner = none ∧ mem .waiters = .null
  | .enter _ _ .ownFollow => owner = none ∧ rest ≠ []
  | .enter _ n .copyLoad => owner = some n ∧ rest ≠ []
  | .enter _ n (.copyStore v) => owner = some n ∧ mem (.temp0 n) = v ∧ v ≠ .null
  | .release h .loadWaiters | .release h .loadEnd | .release h .clearOwner => owner = some h
  | .release _ .casFree => owner = none
  | .release h (.spinWaiters e) =>
    (owner = some h ∨ owner = none) ∧ rest ≠ [] ∧ ∀ n ∈ e, n ∈ rest
  | .release h (.loadNext _) | .release h (.loadEndNext _) | .release h (.clearWaiters _)
  | .release h (.storeOwner _) => owner = some h ∨ owner = none
  | .release h (.casLast _) => (owner = some h ∨ owner = none) ∧ mem .waiters = .null
  | .release h (.spinNext _) => (owner = some h ∨ owner = none) ∧ rest ≠ []
  | .release h (.storeWaiters w v) =>
    (owner = some h ∨ owner = none) ∧ mem (.temp0 w) = v ∧ v ≠ .null
  | _ => True

/-- What stands behind the words: the view of the agent at work, the chain, and the links
that are still owed, each with the agent that owes it. -/
structure Queue (A N : Type*) where
  view : View N
  agent : Option A
  rest : List N
  pend : Cell N → Option (A × N)

def Queue.waiting (q : Queue A N) : List N := q.view.front ++ q.rest

/-- The mutex as its users see it. -/
def Queue.fair (q : Queue A N) : Option N × List N := (q.view.holder, q.waiting)

/-- What the words hold for an agent. -/
structure Here (q : Queue A N) (s : Core A N) (a : A) : Prop where
  busy : ∀ v, (s.op a).view = some v → q.agent = some a ∧ q.view = v
  agent : q.agent = some a → (s.op a).view = some q.view
  stage : Stage s.mem s.owner q.rest (s.op a)
  owes : ∀ c n, q.pend c = some (a, n) ↔ (s.op a).owes = some (c, n)
  fresh : ∀ n, (s.op a).node = some n → n ∉ q.waiting ∧ q.view.start ≠ .temp0 n
  null : ∀ n, (s.op a).nulled = some n → s.mem (.temp0 n) = .null
  reachable : s.op a ≠ .unreachable

/-- The words and the chain. -/
structure Chained (q : Queue A N) (s : Core A N) : Prop where
  chain : (links N).Chain s.mem q.pend q.view.start q.rest
  nodup : ((links N).cells q.view.start q.rest).Nodup
  front : ∀ n ∈ q.view.front, n ∉ q.rest
  free : q.view.free → s.waitEnd = none ∧ q.rest = []
  waitEnd : ¬ q.view.free → s.waitEnd = some ((links N).lastCell q.view.start q.rest)
  quiet : q.agent = none → q.view = .quiet s.owner
  inside : ∀ c, q.pend c ≠ none → c ∈ (links N).cells q.view.start q.rest

structure Core.Inv (q : Queue A N) (s : Core A N) : Prop extends Chained q s where
  apart : ∀ a b n, (s.op a).node = some n → (s.op b).node = some n → a = b
  here : ∀ a, Here q s a

variable {q q' : Queue A N} {s t : Core A N} {a b : A} {n h w : N} {o : Op N} {c : Cell N}

theorem node_of_nulled (h : o.nulled = some n) : o.node = some n := by
  unfold Op.nulled at h
  split at h <;> simp_all [Op.node]

theorem stage_of_view (mem : Cell N → Word N) (owner : Option N) (rest : List N)
    (h : o.view = none) : Stage mem owner rest o := by
  unfold Op.view at h
  unfold Stage
  split at h <;> simp_all

theorem node_of_view (h : o.view ≠ none) : o.node = none := by
  unfold Op.view at h
  split at h <;> simp_all [Op.node]

theorem owes_of_view (h : o.view ≠ none) : o.owes = none := by
  unfold Op.view at h
  split at h <;> simp_all [Op.owes]

theorem owes_of_node (h : o.node = some n) : o.owes = none := by
  unfold Op.node at h
  split at h <;> simp_all [Op.owes]

/-- The view changes and the chain does not. -/
theorem Chained.turn (hc : Chained q s) {v : View N} {a : Option A} (hm : t.mem = s.mem)
    (he : t.waitEnd = s.waitEnd) (hs : v.start = q.view.start) (hf : ∀ n ∈ v.front, n ∉ q.rest)
    (hq : ¬ q.view.free) (hv : ¬ v.free) (hquiet : a = none → v = .quiet t.owner) :
    Chained { q with view := v, agent := a } t where
  chain := by rw [hm, hs]; exact hc.chain
  nodup := by rw [hs]; exact hc.nodup
  front := hf
  free h := absurd h hv
  waitEnd _ := by rw [he, hs]; exact hc.waitEnd hq
  quiet := hquiet
  inside c h := by rw [hs]; exact hc.inside c h

namespace Core.Inv

theorem passive (hI : Inv q s) (ha : q.agent ≠ some a) : (s.op a).view = none := by
  by_contra hv
  obtain ⟨v, hv⟩ := Option.ne_none_iff_exists'.mp hv
  exact ha ((hI.here a).busy v hv).1

theorem agent_eq (hI : Inv q s) {v : View N} (hv : (s.op a).view = some v) :
    q.agent = some a ∧ q.view = v :=
  (hI.here a).busy v hv

/-- An agent that is not at the front, before and after a step of another one. -/
theorem others (hI : Inv q s) (hop : t.op b = s.op b) (hq : q.agent ≠ some b)
    (hq' : q'.agent ≠ some b)
    (howes : ∀ c n, q'.pend c = some (b, n) ↔ q.pend c = some (b, n))
    (hfresh : ∀ n, (s.op b).node = some n → n ∉ q'.waiting ∧ q'.view.start ≠ .temp0 n)
    (hmem : ∀ n, (s.op b).node = some n → t.mem (.temp0 n) = s.mem (.temp0 n)) :
    Here q' t b where
  busy v hv := by simp [hop, hI.passive hq] at hv
  agent hb := absurd hb hq'
  stage := stage_of_view _ _ _ (by rw [hop]; exact hI.passive hq)
  owes c n := by rw [howes, hop]; exact (hI.here b).owes c n
  fresh n hn := hfresh n (by rwa [← hop])
  null n hn := by
    rw [hop] at hn
    rw [hmem n (node_of_nulled hn)]
    exact (hI.here b).null n hn
  reachable := by rw [hop]; exact (hI.here b).reachable

end Core.Inv
end MyosIo.Mutex
