import MyosIo.AlList.Model

/-! While a consumer is inside a call the list may start at the node it is about to remove instead
of at `head`. `front` names that node; from its cell (or from `head`) on the list is a chain in
the sense of `Links`. -/
namespace MyosIo.AlList

open Function

variable {K P N W : Type*}

/-- The node a call has read from `head` and not yet unlinked. -/
def front : Consumer N → List N
  | .forceLoadEnd h | .storeNull h | .casEnd h | .loadNext h | .storeHead h _
  | .clearStoreNull h | .clearExchange h => [h]
  | _ => []

/-- The cell from which the list can be followed. -/
def startCell (k : K) (pc : Consumer N) : Cell K N :=
  match front pc with
  | h :: _ => .node h
  | [] => .head k

/-- The node a call has unlinked and not yet returned. -/
def removing : Consumer N → Option N
  | .checkNext h | .ret h _ => some h
  | _ => none

/-- Where a node is: with its owner, in a list, in a cleared chain, or held by the call that
is about to return it. -/
inductive Loc (K W : Type*)
  | free
  | queue (k : K)
  | chain (w : W)
  | leaving (k : K)

def cellLoc (loc : N → Loc K W) : Cell K N → Loc K W
  | .head k => .queue k
  | .node n => loc n

@[simp] theorem cellLoc_head (loc : N → Loc K W) (k : K) :
    cellLoc loc (.head k) = .queue k := rfl

@[simp] theorem cellLoc_node (loc : N → Loc K W) (n : N) : cellLoc loc (.node n) = loc n := rfl

@[simp] theorem links_cell (n : N) : (links K N).cell n = .node n := rfl

@[simp] theorem links_ptr (n : N) : (links K N).ptr n = some n := rfl

@[simp] theorem links_null : (links K N).null = none := rfl

variable {loc loc' : N → Loc K W} {mem mem' : Cell K N → Option N}
  {pend pend' : Cell K N → Option (P × N)} {k : K} {w : W} {h n : N} {e : Option N}
  {Q rest : List N} {pc : Consumer N} {f : Fifo K N W} {s t : State K P N W}

/-- What the locals of a call say about its list, `rest` being what follows `front`. -/
def Stage (mem : Cell K N → Option N) (k : K) (rest : List N) : Consumer N → Prop
  | .deleteLoadHead e => e ∈ rest
  | .clearLoadHead | .loadNext _ => rest ≠ []
  | .casEnd _ | .clearExchange _ => mem (.head k) = none
  | .storeHead h n => mem (.node h) = some n
  | .checkNext h | .ret h none => mem (.node h) = none
  | _ => True

/-- `rest` is the list without the node a call is about to remove. -/
structure ListSplit (loc : N → Loc K W) (mem : Cell K N → Option N)
    (pend : Cell K N → Option (P × N)) (k : K) (Q : List N) (pc : Consumer N)
    (rest : List N) : Prop where
  split : Q = front pc ++ rest
  segment : (links K N).Segment (cellLoc loc) mem pend (.queue k) (startCell k pc) rest
  stage : Stage mem k rest pc
  frontLoc : ∀ h ∈ front pc, loc h = .queue k
  headFree : front pc ≠ [] → pend (.head k) = none

def WalkInv (loc : N → Loc K W) (mem : Cell K N → Option N)
    (pend : Cell K N → Option (P × N)) (w : W) (chain : List N) : Option (N × N) → Prop
  | none => chain = []
  | some (n, e) => ∃ rest, chain = n :: rest ∧
      (links K N).Segment (cellLoc loc) mem pend (.chain w) (.node n) rest ∧
      (links K N).lastCell (.node n) rest = .node e

structure Inv (f : Fifo K N W) (pend : Cell K N → Option (P × N)) (loc : N → Loc K W)
    (s : State K P N W) : Prop where
  last : ∀ k, s.last k = (f.queue k).getLast?
  list : ∀ k, ∃ rest, ListSplit loc s.mem pend k (f.queue k) (s.cons k) rest
  walk : ∀ w, WalkInv loc s.mem pend w (f.chain w) (s.walk w)
  owes : ∀ p n c, pend c = some (p, n) ↔ s.prod p = .store n c
  held : ∀ k, f.held k = removing (s.cons k)
  leaving : ∀ k h, removing (s.cons k) = some h →
    loc h = .leaving k ∧ pend (.node h) = none
  free : ∀ n, s.linked n = false → loc n = .free ∧ pend (.node n) = none

theorem inv_initial : Inv (Fifo.empty K N W) (fun _ => none) (fun _ => .free)
    (initial K P N W) where
  last _ := rfl
  list k := ⟨[], rfl, .empty rfl rfl rfl, trivial, by simp [initial, front],
    by simp [initial, front]⟩
  walk _ := rfl
  owes := by simp [initial]
  held _ := rfl
  leaving := by simp [initial, removing]
  free := by simp

theorem lastCell_head (k : K) (Q : List N) :
    (links K N).lastCell (.head k) Q = linkCell k Q.getLast? := by
  rcases List.eq_nil_or_concat Q with rfl | ⟨Q, n, rfl⟩
  · rfl
  · simp [linkCell]

theorem ListSplit.lastCell (h : ListSplit loc mem pend k Q pc rest) :
    (links K N).lastCell (startCell k pc) rest = linkCell k Q.getLast? := by
  rw [← lastCell_head, h.split]
  unfold startCell
  cases pc <;> rfl

theorem lastCell_node {h e : N} {q : List N} (he : (h :: q).getLast? = some e) :
    (links K N).lastCell (.node h) q = .node e := by
  obtain ⟨r, hr⟩ := List.getLast?_eq_some_iff.mp he
  cases r with
  | nil =>
    obtain ⟨rfl, rfl⟩ : h = e ∧ q = [] := by simpa using hr
    rfl
  | cons m r =>
    obtain ⟨rfl, rfl⟩ : h = m ∧ q = r ++ [e] := by simpa using hr
    simp

/-- The node just read is the only one exactly when it is also the last one. -/
theorem ListSplit.last_iff (hl : ListSplit loc mem pend k Q pc rest) (hf : front pc = [h]) :
    Q.getLast? = some h ↔ rest = [] := by
  have hs := hl.segment
  simp only [startCell, hf] at hs
  constructor
  · intro he
    rw [hl.split, hf] at he
    have := lastCell_node (K := K) (by simpa using he)
    exact ((links K N).lastCell_eq_head hs.nodup).mp this
  · intro he
    simp [hl.split, hf, he]

theorem stage_frame (hs : Stage mem k rest pc)
    (hh : front pc ≠ [] → mem' (.head k) = mem (.head k))
    (hn : ∀ h, (∃ n, pc = .storeHead h n) ∨ removing pc = some h →
      mem' (.node h) = mem (.node h)) :
    Stage mem' k rest pc := by
  cases pc with
  | casEnd h | clearExchange h => exact (hh (List.cons_ne_nil _ _)).trans hs
  | storeHead h n => exact (hn h (Or.inl ⟨n, rfl⟩)).trans hs
  | checkNext h => exact (hn h (Or.inr rfl)).trans hs
  | ret h next =>
    cases next with
    | none => exact (hn h (Or.inr rfl)).trans hs
    | some n => trivial
  | _ => exact hs

theorem stage_snoc (hs : Stage mem k rest pc) : Stage mem k (rest ++ [n]) pc := by
  cases pc with
  | ret h next => cases next <;> exact hs
  | _ => simp_all [Stage]

/-- A step that leaves the cells of list `k` and the node its call is returning alone. -/
theorem ListSplit.frame (hl : ListSplit loc mem pend k Q pc rest)
    (hloc : ∀ d, cellLoc loc d = .queue k → cellLoc loc' d = .queue k)
    (he : ∀ d, cellLoc loc d = .queue k → mem' d = mem d ∧ pend' d = pend d)
    (hn : ∀ h, removing pc = some h → mem' (.node h) = mem (.node h)) :
    ListSplit loc' mem' pend' k Q pc rest where
  split := hl.split
  segment := hl.segment.frame hloc he
  stage := by
    refine stage_frame hl.stage (fun _ => (he (.head k) rfl).1) ?_
    rintro h (⟨n, rfl⟩ | hr)
    · exact (he (.node h) (hl.frontLoc h (by simp [front]))).1
    · exact hn h hr
  frontLoc h hh := hloc (.node h) (hl.frontLoc h hh)
  headFree hf := (he (.head k) rfl).2.trans (hl.headFree hf)

theorem WalkInv.frame {c : Option (N × N)} {q : List N} (hw : WalkInv loc mem pend w q c)
    (hloc : ∀ d, cellLoc loc d = .chain w → cellLoc loc' d = .chain w)
    (he : ∀ d, cellLoc loc d = .chain w → mem' d = mem d ∧ pend' d = pend d) :
    WalkInv loc' mem' pend' w q c := by
  cases c with
  | none => exact hw
  | some c =>
    obtain ⟨rest, hq, hs, hlast⟩ := hw
    exact ⟨rest, hq, hs.frame hloc he, hlast⟩

variable [DecidableEq K] [DecidableEq P] [DecidableEq N] [DecidableEq W]

omit [DecidableEq W] in
theorem cellLoc_update (loc : N → Loc K W) (n : N) (l : Loc K W) :
    cellLoc (update loc n l) = update (cellLoc loc) (.node n) l := by
  funext d
  cases d with
  | head k => simp
  | node m => by_cases hm : m = n <;> simp [hm]

omit [DecidableEq K] [DecidableEq W] in
/-- Moving one node disturbs no place but the one it comes from. -/
theorem cellLoc_move {l l' : Loc K W} (hn : loc n ≠ l) (d : Cell K N)
    (hd : cellLoc loc d = l) : cellLoc (update loc n l') d = l := by
  cases d with
  | head k => exact hd
  | node m =>
    have hne : m ≠ n := fun h => hn (h ▸ hd)
    simpa [update_of_ne hne] using hd

omit [DecidableEq P] [DecidableEq N] [DecidableEq W] in
/-- A step that only moves the call on list `k` forward. -/
theorem Inv.setCons (hI : Inv f pend loc s) {c : Consumer N}
    (hl : ∃ rest, ListSplit loc s.mem pend k (f.queue k) c rest)
    (hr : removing c = removing (s.cons k)) : Inv f pend loc (s.setCons k c) where
  last := hI.last
  list k' := by
    by_cases hk : k' = k
    · subst hk
      simpa [State.setCons] using hl
    · simpa [State.setCons, update_of_ne hk] using hI.list k'
  walk := hI.walk
  owes := hI.owes
  held k' := by
    by_cases hk : k' = k
    · subst hk
      simpa [State.setCons, hr] using hI.held k'
    · simpa [State.setCons, update_of_ne hk] using hI.held k'
  leaving k' h hh := by
    by_cases hk : k' = k
    · subst hk
      exact hI.leaving k' h (by simpa [State.setCons, hr] using hh)
    · exact hI.leaving k' h (by simpa [State.setCons, update_of_ne hk] using hh)
  free := hI.free

omit [DecidableEq P] [DecidableEq W] in
/-- A step that moves the call forward and stores to `head`. -/
theorem Inv.setHead (hI : Inv f pend loc s) {c : Consumer N} {v : Option N}
    (hl : ∃ rest, ListSplit loc (update s.mem (.head k) v) pend k (f.queue k) c rest)
    (hr : removing c = none) (hr' : removing (s.cons k) = none) :
    Inv f pend loc { s.setCons k c with mem := update s.mem (.head k) v } where
  last := hI.last
  list k' := by
    by_cases hk : k' = k
    · subst hk
      simpa [State.setCons] using hl
    · obtain ⟨rest, hr'⟩ := hI.list k'
      refine ⟨rest, ?_⟩
      simp only [State.setCons, update_of_ne hk]
      refine hr'.frame (fun _ hd => hd) (fun d hd => ⟨update_of_ne ?_ _ _, rfl⟩) (by simp)
      rintro rfl
      exact hk (by simpa using hd.symm)
  walk w := by
    refine (hI.walk w).frame (fun _ hd => hd) (fun d hd => ⟨update_of_ne ?_ _ _, rfl⟩)
    rintro rfl
    simp at hd
  owes := hI.owes
  held k' := by
    by_cases hk : k' = k
    · subst hk
      simpa [State.setCons, hr, hr'] using hI.held k'
    · simpa [State.setCons, update_of_ne hk] using hI.held k'
  leaving k' h hh := by
    by_cases hk : k' = k
    · subst hk
      simp [State.setCons, hr] at hh
    · exact hI.leaving k' h (by simpa [State.setCons, update_of_ne hk] using hh)
  free := hI.free

end MyosIo.AlList
