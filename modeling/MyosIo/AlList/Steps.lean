import MyosIo.AlList.Invariant

/-! Every atomic step of the list keeps its invariant and is a step of the FIFO queue. -/
namespace MyosIo.AlList

open Function

variable {K P N W : Type*} [DecidableEq K] [DecidableEq N] [DecidableEq W]
  {f : Fifo K N W} {pend : Cell K N → Option (P × N)} {loc : N → Loc K W}
  {s t : State K P N W} {e : Event K P N W} {k : K} {p : P} {n h m : N} {w : W} {c : Cell K N}

/-- Both ends of a step: the FIFO step taken, and the invariant after it. -/
def Kept (f : Fifo K N W) (e : Event K P N W) (t : State K P N W) : Prop :=
  ∃ f' pend' loc', Fifo.Step f e f' ∧ Inv f' pend' loc' t

/-- The exchange of `al_append_inline`: the node is last and its link is owed. -/
theorem Inv.exchange [DecidableEq P] (hI : Inv f pend loc s) (hp : s.prod p = .idle)
    (hn : s.linked n = false) (hm : s.mem (.node n) = none) : Kept f (.append k p n)
      { s with
        last := update s.last k (some n)
        prod := update s.prod p (.store n (linkCell k (s.last k)))
        linked := update s.linked n true } := by
  obtain ⟨hfree, hpn⟩ := hI.free n hn
  obtain ⟨rest, hl⟩ := hI.list k
  have hlast : (links K N).lastCell (startCell k (s.cons k)) rest = linkCell k (s.last k) := by
    rw [hI.last k]
    exact hl.lastCell
  have hplace : cellLoc loc (linkCell k (s.last k)) = .queue k := hlast ▸ hl.segment.last_place
  have hpnone : pend (linkCell k (s.last k)) = none := by
    rw [← hlast]
    exact ((links K N).chain_last hl.segment.chain).2
  have hother : ∀ l, l ≠ .queue k → ∀ d, cellLoc loc d = l →
      update pend (linkCell k (s.last k)) (some (p, n)) d = pend d := by
    intro l hne d hd
    refine update_of_ne ?_ _ _
    rintro rfl
    exact hne (hd.symm.trans hplace)
  refine ⟨_, update pend (linkCell k (s.last k)) (some (p, n)), update loc n (.queue k),
    .append, ?_⟩
  constructor
  · intro k'
    by_cases hk : k' = k
    · subst hk
      simp
    · simpa [update_of_ne hk] using hI.last k'
  · intro k'
    by_cases hk : k' = k
    · subst hk
      refine ⟨rest ++ [n], ?_, ?_, stage_snoc hl.stage, ?_, ?_⟩
      · simp [hl.split]
      · rw [cellLoc_update, ← hlast]
        exact hl.segment.enqueue (by simp [hfree]) hm hpn p
      · intro h hh
        exact cellLoc_move (by simp [hfree]) (.node h) (hl.frontLoc h hh)
      · intro hf
        have hne : Cell.head k' ≠ linkCell k' (s.last k') := by
          rw [hI.last k', hl.split]
          obtain ⟨h, hh⟩ : ∃ h, front (s.cons k') = [h] := by
            cases hc : s.cons k' <;> simp_all [front]
          obtain ⟨x, hx⟩ : ∃ x, ([h] ++ rest).getLast? = some x :=
            Option.isSome_iff_exists.mp (by simp)
          rw [hh, hx]
          simp [linkCell]
        simpa [update_of_ne hne] using hl.headFree hf
    · obtain ⟨r, hr⟩ := hI.list k'
      refine ⟨r, ?_⟩
      simp only [update_of_ne hk]
      exact hr.frame (cellLoc_move (by simp [hfree]))
        (fun d hd => ⟨rfl, hother _ (by simpa using hk) d hd⟩) (fun _ _ => rfl)
  · intro w
    exact (hI.walk w).frame (cellLoc_move (by simp [hfree]))
      (fun d hd => ⟨rfl, hother _ (by simp) d hd⟩)
  · intro p' n' c
    have ho := hI.owes p' n' c
    by_cases hc : c = linkCell k (s.last k)
    · subst hc
      by_cases hpp : p' = p
      · subst hpp
        simp
      · simp only [update_self, update_of_ne hpp]
        simp only [hpnone] at ho
        simpa [Ne.symm hpp] using ho
    · by_cases hpp : p' = p
      · subst hpp
        simp only [update_of_ne hc, update_self]
        rw [ho, hp]
        simp [Ne.symm hc]
      · simpa [update_of_ne hc, update_of_ne hpp] using ho
  · exact hI.held
  · intro k' h hh
    obtain ⟨h1, h2⟩ := hI.leaving k' h hh
    refine ⟨cellLoc_move (by simp [hfree]) (.node h) h1, ?_⟩
    exact (hother (.leaving k') (by simp) (.node h) h1).trans h2
  · intro x hx
    have hne : x ≠ n := by
      rintro rfl
      simp at hx
    obtain ⟨h1, h2⟩ := hI.free x (by simpa [update_of_ne hne] using hx)
    refine ⟨by simpa [update_of_ne hne] using h1, ?_⟩
    exact (hother .free (by simp) (.node x) h1).trans h2

/-- The store that pays the link. -/
theorem Inv.link [DecidableEq P] (hI : Inv f pend loc s) (hp : s.prod p = .store n c) (ret : Bool) :
    Kept f (.link p n ret)
      { s with mem := update s.mem c (some n), prod := update s.prod p .idle } := by
  have hc : pend c = some (p, n) := (hI.owes p n c).mpr hp
  have hne : ∀ d, pend d = none → d ≠ c := by
    rintro d hd rfl
    simp [hc] at hd
  refine ⟨f, update pend c none, loc, .link, hI.last, ?_, ?_, ?_, hI.held, ?_, ?_⟩
  · intro k
    obtain ⟨rest, hl⟩ := hI.list k
    refine ⟨rest, hl.split, hl.segment.link hc, ?_, hl.frontLoc, ?_⟩
    · refine stage_frame hl.stage (fun hf => update_of_ne (hne _ (hl.headFree hf)) _ _) ?_
      rintro h (⟨m, hpc⟩ | hr)
      · have hpc : s.cons k = .storeHead h m := hpc
        have hs : s.mem (.node h) = some m := by simpa [hpc, Stage] using hl.stage
        have hseg := hl.segment
        simp only [hpc, startCell, front] at hseg
        obtain ⟨_, _, hpn⟩ := (links K N).chain_head hseg.chain hs
        exact update_of_ne (hne _ hpn) _ _
      · exact update_of_ne (hne _ (hI.leaving k h hr).2) _ _
    · intro hf
      simpa [update_of_ne (hne _ (hl.headFree hf))] using hl.headFree hf
  · intro w
    have hw := hI.walk w
    cases hx : s.walk w with
    | none => exact (by simpa [hx] using hw : WalkInv loc s.mem pend w (f.chain w) none)
    | some x =>
      rw [hx] at hw
      obtain ⟨rest, hq, hs, hlast⟩ := hw
      exact ⟨rest, hq, hs.link hc, hlast⟩
  · intro p' n' d
    have ho := hI.owes p' n' d
    by_cases hd : d = c
    · subst hd
      by_cases hpp : p' = p
      · subst hpp
        simp
      · rw [hc] at ho
        simpa [update_of_ne hpp, Ne.symm hpp] using ho
    · by_cases hpp : p' = p
      · subst hpp
        rw [hp] at ho
        simpa [update_of_ne hd, Ne.symm hd] using ho
      · simpa [update_of_ne hd, update_of_ne hpp] using ho
  · intro k h hh
    obtain ⟨h1, h2⟩ := hI.leaving k h hh
    exact ⟨h1, by simpa [update_of_ne (hne _ h2)] using h2⟩
  · intro x hx
    obtain ⟨h1, h2⟩ := hI.free x hx
    exact ⟨h1, by simpa [update_of_ne (hne _ h2)] using h2⟩

omit [DecidableEq K] [DecidableEq N] [DecidableEq W] in
/-- Forward with the same node in hand. -/
theorem ListSplit.advance {pc pc' : Consumer N} {Q rest : List N} {mem : Cell K N → Option N}
    (hl : ListSplit loc mem pend k Q pc rest) (hf : front pc' = front pc)
    (hs : Stage mem k rest pc') : ListSplit loc mem pend k Q pc' rest where
  split := by rw [hf, hl.split]
  segment := by simpa [startCell, hf] using hl.segment
  stage := hs
  frontLoc := by simpa [hf] using hl.frontLoc
  headFree := by simpa [hf] using hl.headFree

omit [DecidableEq K] [DecidableEq N] [DecidableEq W] in
/-- The load of a non-null `head`: the call now has the first node in hand. -/
theorem ListSplit.loadHead {pc pc' : Consumer N} {Q rest : List N} {mem : Cell K N → Option N}
    (hl : ListSplit loc mem pend k Q pc rest) (hf : front pc = []) (hm : mem (.head k) = some h)
    (hf' : front pc' = [h]) (hs : ∀ q, rest = h :: q → Stage mem k q pc') :
    ∃ q, ListSplit loc mem pend k Q pc' q := by
  have hseg := hl.segment
  simp only [startCell, hf] at hseg
  obtain ⟨q, rfl, hp⟩ := (links K N).chain_head hseg.chain hm
  refine ⟨q, ?_, ?_, hs q rfl, ?_, fun _ => hp⟩
  · simp [hl.split, hf, hf']
  · simpa [startCell, hf'] using hseg.tail
  · intro x hx
    obtain rfl : x = h := by simpa [hf'] using hx
    simpa using hseg.node_place (n := x) (by simp)

omit [DecidableEq W] in
/-- A store to `head` while the first node is in hand. -/
theorem ListSplit.storeNull {pc pc' : Consumer N} {Q rest : List N} {mem : Cell K N → Option N}
    (hl : ListSplit loc mem pend k Q pc rest) (hf : front pc = [h]) (hf' : front pc' = [h])
    (hs : Stage (update mem (.head k) none) k rest pc') :
    ListSplit loc (update mem (.head k) none) pend k Q pc' rest where
  split := by rw [hf', ← hf, hl.split]
  segment := by
    have hseg := hl.segment
    simp only [startCell, hf] at hseg
    simpa [startCell, hf'] using hseg.write (by simp [Links.cells]) none
  stage := hs
  frontLoc := by simpa [hf, hf'] using hl.frontLoc
  headFree := by simpa [hf, hf'] using hl.headFree

/-- The step that takes the first node out of the list. -/
theorem Inv.unlink {q : List N} {v l : Option N} {c : Consumer N} (hI : Inv f pend loc s)
    (hq : f.queue k = h :: q) (hh : loc h = .queue k) (hp : pend (.node h) = none)
    (hl : ListSplit (update loc h (.leaving k)) (update s.mem (.head k) v) pend k q c q)
    (hlast : l = q.getLast?) (hr : removing c = some h) (hr' : removing (s.cons k) = none) :
    Kept f (.remove k h)
      { s.setCons k c with mem := update s.mem (.head k) v, last := update s.last k l } := by
  have hmem : ∀ l, l ≠ .queue k → ∀ d, cellLoc loc d = l →
      update s.mem (.head k) v d = s.mem d ∧ pend d = pend d := by
    intro l hne d hd
    refine ⟨update_of_ne ?_ _ _, rfl⟩
    rintro rfl
    exact hne hd.symm
  have hloc : ∀ l : Loc K W, l ≠ .queue k → ∀ d, cellLoc loc d = l →
      cellLoc (update loc h (.leaving k)) d = l := fun l hne =>
    cellLoc_move fun he => hne (he.symm.trans hh)
  refine ⟨_, pend, update loc h (.leaving k), .remove hq ((hI.held k).trans hr'),
    ?_, ?_, ?_, hI.owes, ?_, ?_, ?_⟩
  · intro k'
    by_cases hk : k' = k
    · subst hk
      simp [hlast]
    · simpa [State.setCons, update_of_ne hk] using hI.last k'
  · intro k'
    by_cases hk : k' = k
    · subst hk
      exact ⟨q, by simpa [State.setCons] using hl⟩
    · obtain ⟨r, hr'⟩ := hI.list k'
      refine ⟨r, ?_⟩
      simp only [State.setCons, update_of_ne hk]
      have hne : Loc.queue (W := W) k' ≠ .queue k := by simpa using hk
      refine hr'.frame (hloc _ hne) (hmem _ hne) fun x hx => ?_
      exact update_of_ne (by simp) _ _
  · intro w
    exact (hI.walk w).frame (hloc _ (by simp)) (hmem _ (by simp))
  · intro k'
    by_cases hk : k' = k
    · subst hk
      simp [State.setCons, hr]
    · simpa [State.setCons, update_of_ne hk] using hI.held k'
  · intro k' x hx
    by_cases hk : k' = k
    · subst hk
      obtain rfl : h = x := by simpa [State.setCons, hr] using hx
      exact ⟨by simp, hp⟩
    · obtain ⟨h1, h2⟩ := hI.leaving k' x (by simpa [State.setCons, update_of_ne hk] using hx)
      exact ⟨hloc _ (by simp) (.node x) h1, h2⟩
  · intro x hx
    obtain ⟨h1, h2⟩ := hI.free x hx
    exact ⟨hloc _ (by simp) (.node x) h1, h2⟩

/-- The compare-exchange of `end` succeeds: the list was down to the node in hand. -/
theorem Inv.casOk (hI : Inv f pend loc s) (hc : s.cons k = .casEnd h)
    (he : s.last k = some h) :
    Kept f (.remove k h)
      { s.setCons k (.checkNext h) with last := update s.last k none } := by
  obtain ⟨rest, hl⟩ := hI.list k
  rw [hc] at hl
  obtain rfl : rest = [] := (hl.last_iff rfl).mp (by rw [← hI.last k, he])
  have hm : s.mem (.head k) = none := hl.stage
  have hh : loc h = .queue k := hl.frontLoc h (by simp [front])
  obtain ⟨hmn, hpn⟩ := (links K N).chain_nil.mp hl.segment.chain
  have hk := hI.unlink (v := none) (l := none) (c := .checkNext h) (q := [])
    (by simpa [front] using hl.split) hh hpn ?_ rfl rfl (by simp [hc, removing])
  · simpa [State.setCons, ← hm] using hk
  · have hmem : update s.mem (.head k) none = s.mem := by simp [← hm]
    rw [hmem]
    exact ⟨rfl, .empty hm (hl.headFree (by simp [front])) rfl, hmn, by simp [front],
      by simp [front]⟩

/-- `head` is moved to the second node. -/
theorem Inv.storeHead (hI : Inv f pend loc s) (hc : s.cons k = .storeHead h n) :
    Kept f (.remove k h)
      { s.setCons k (.ret h (some n)) with mem := update s.mem (.head k) (some n) } := by
  obtain ⟨rest, hl⟩ := hI.list k
  rw [hc] at hl
  have hm : s.mem (.node h) = some n := hl.stage
  have hseg := hl.segment
  simp only [startCell, front] at hseg
  obtain ⟨q, rfl, hp⟩ := (links K N).chain_head hseg.chain hm
  have hh : loc h = .queue k := hl.frontLoc h (by simp [front])
  have hq : f.queue k = h :: n :: q := by simpa [front] using hl.split
  have hk := hI.unlink (v := some n) (l := s.last k) (c := .ret h (some n)) (q := n :: q)
    hq hh hp ?_ (by rw [hI.last k, hq]; simp) rfl (by simp [hc, removing])
  · simpa [State.setCons] using hk
  · refine ⟨rfl, ?_, trivial, by simp [front], by simp [front]⟩
    rw [cellLoc_update]
    exact hseg.pop (m := h) rfl (by simp [Links.cells]) (hl.headFree (by simp [front])) _

/-- The node a call unlinked goes back to its owner. -/
theorem Inv.ret {x : Option N} (hI : Inv f pend loc s) (hc : s.cons k = .ret h x) :
    Kept f (.ret k h x) { s.setCons k .idle with linked := update s.linked h false } := by
  obtain ⟨hh, hp⟩ := hI.leaving k h (by simp [hc, removing])
  have hloc : ∀ l : Loc K W, l ≠ .leaving k → ∀ d, cellLoc loc d = l →
      cellLoc (update loc h .free) d = l := fun l hne =>
    cellLoc_move fun he => hne (he.symm.trans hh)
  refine ⟨_, pend, update loc h .free, .ret (by rw [hI.held k, hc]; rfl), hI.last, ?_, ?_, hI.owes,
    ?_, ?_, ?_⟩
  · intro k'
    obtain ⟨rest, hl⟩ := hI.list k'
    have hl' := hl.frame (hloc _ (by simp)) (fun _ _ => ⟨rfl, rfl⟩) (fun _ _ => rfl)
    by_cases hk : k' = k
    · subst hk
      rw [hc] at hl'
      have hl'' : ListSplit _ _ _ _ _ .idle rest := hl'.advance rfl trivial
      exact ⟨rest, by simpa [State.setCons] using hl''⟩
    · exact ⟨rest, by simpa [State.setCons, update_of_ne hk] using hl'⟩
  · intro w
    exact (hI.walk w).frame (hloc _ (by simp)) (fun _ _ => ⟨rfl, rfl⟩)
  · intro k'
    by_cases hk : k' = k
    · subst hk
      simp [State.setCons, removing]
    · simpa [State.setCons, update_of_ne hk] using hI.held k'
  · intro k' y hy
    by_cases hk : k' = k
    · subst hk
      simp [State.setCons, removing] at hy
    · obtain ⟨h1, h2⟩ := hI.leaving k' y (by simpa [State.setCons, update_of_ne hk] using hy)
      exact ⟨hloc _ (by simpa using hk) (.node y) h1, h2⟩
  · intro y hy
    by_cases hyh : y = h
    · subst hyh
      exact ⟨by simp, hp⟩
    · obtain ⟨h1, h2⟩ := hI.free y (by simpa [update_of_ne hyh] using hy)
      exact ⟨hloc _ (by simp) (.node y) h1, h2⟩

/-- The exchange of `al_clear`: the whole list becomes the chain of walker `w`. -/
theorem Inv.clearExchange (hI : Inv f pend loc s) (hc : s.cons k = .clearExchange h)
    (hw : s.walk w = none) :
    Kept f (.clear k w)
      { s.setCons k .idle with
        last := update s.last k none
        walk := update s.walk w ((s.last k).map fun e => (h, e)) } := by
  obtain ⟨rest, hl⟩ := hI.list k
  rw [hc] at hl
  have hq : f.queue k = h :: rest := by simpa [front] using hl.split
  have hm : s.mem (.head k) = none := hl.stage
  have hwf : f.chain w = [] := by simpa [hw, WalkInv] using hI.walk w
  have hseg := hl.segment
  simp only [startCell, front] at hseg
  have hin : ∀ n ∈ f.queue k, loc n = .queue k := by
    intro n hn
    rw [hq] at hn
    rcases List.mem_cons.mp hn with rfl | hn
    · exact hseg.head_place
    · exact hseg.node_place hn
  let loc' : N → Loc K W := fun n => if n ∈ f.queue k then .chain w else loc n
  have hloc : ∀ l : Loc K W, l ≠ .queue k → ∀ d, cellLoc loc d = l → cellLoc loc' d = l := by
    intro l hne d hd
    cases d with
    | head k' => exact hd
    | node n =>
      have hn : n ∉ f.queue k := fun hn => hne (hd.symm.trans (hin n hn))
      simpa [loc', hn] using hd
  obtain ⟨e, he⟩ : ∃ e, (h :: rest).getLast? = some e :=
    Option.isSome_iff_exists.mp (by simp)
  have hlast : s.last k = some e := by rw [hI.last k, hq, he]
  refine ⟨_, pend, loc', .clear (by simp [hq]) hwf, ?_, ?_, ?_, hI.owes, ?_, ?_, ?_⟩
  · intro k'
    by_cases hk : k' = k
    · subst hk
      simp
    · simpa [update_of_ne hk] using hI.last k'
  · intro k'
    by_cases hk : k' = k
    · subst hk
      refine ⟨[], ?_⟩
      simp only [State.setCons, update_self]
      exact ⟨rfl, .empty hm (hl.headFree (by simp [front])) rfl, trivial, by simp [front],
        by simp [front]⟩
    · obtain ⟨r, hr⟩ := hI.list k'
      refine ⟨r, ?_⟩
      simp only [State.setCons, update_of_ne hk]
      exact hr.frame (hloc _ (by simpa using hk)) (fun _ _ => ⟨rfl, rfl⟩) (fun _ _ => rfl)
  · intro w'
    by_cases hww : w' = w
    · subst hww
      simp only [update_self, hlast, Option.map_some]
      refine ⟨rest, hq, ⟨hseg.chain, hseg.nodup, ?_⟩, lastCell_node he⟩
      intro d hd
      obtain ⟨n, rfl, hn⟩ : ∃ n, d = .node n ∧ n ∈ f.queue k := by
        rcases ((links K N).mem_cells).mp hd with rfl | ⟨n, hn, rfl⟩
        · exact ⟨h, rfl, by simp [hq]⟩
        · exact ⟨n, rfl, by simp [hq, hn]⟩
      simp [loc', hn]
    · simp only [update_of_ne hww]
      exact (hI.walk w').frame (hloc _ (by simp)) (fun _ _ => ⟨rfl, rfl⟩)
  · intro k'
    by_cases hk : k' = k
    · subst hk
      simpa [State.setCons, hc, removing] using hI.held k'
    · simpa [State.setCons, update_of_ne hk] using hI.held k'
  · intro k' x hx
    by_cases hk : k' = k
    · subst hk
      simp [State.setCons, removing] at hx
    · obtain ⟨h1, h2⟩ := hI.leaving k' x (by simpa [State.setCons, update_of_ne hk] using hx)
      exact ⟨hloc _ (by simp) (.node x) h1, h2⟩
  · intro x hx
    obtain ⟨h1, h2⟩ := hI.free x hx
    exact ⟨hloc _ (by simp) (.node x) h1, h2⟩

/-- The walker hands out the first node of its chain and goes on with `q`. -/
theorem Inv.walkOn {q : List N} {c : Option (N × N)} (hI : Inv f pend loc s)
    (hq : f.chain w = n :: q) (hn : loc n = .chain w) (hp : pend (.node n) = none)
    (hc : WalkInv (update loc n .free) s.mem pend w q c) :
    Kept f (.take w n)
      { s with walk := update s.walk w c, linked := update s.linked n false } := by
  have hloc : ∀ l : Loc K W, l ≠ .chain w → ∀ d, cellLoc loc d = l →
      cellLoc (update loc n .free) d = l := fun l hne =>
    cellLoc_move fun he => hne (he.symm.trans hn)
  refine ⟨_, pend, update loc n .free, .take hq, hI.last, ?_, ?_, hI.owes, hI.held, ?_, ?_⟩
  · intro k
    obtain ⟨rest, hl⟩ := hI.list k
    exact ⟨rest, hl.frame (hloc _ (by simp)) (fun _ _ => ⟨rfl, rfl⟩) (fun _ _ => rfl)⟩
  · intro w'
    by_cases hw : w' = w
    · subst hw
      simpa using hc
    · simp only [update_of_ne hw]
      exact (hI.walk w').frame (hloc _ (by simpa using hw)) (fun _ _ => ⟨rfl, rfl⟩)
  · intro k x hx
    obtain ⟨h1, h2⟩ := hI.leaving k x hx
    exact ⟨hloc _ (by simp) (.node x) h1, h2⟩
  · intro x hx
    by_cases hxn : x = n
    · subst hxn
      exact ⟨by simp, hp⟩
    · obtain ⟨h1, h2⟩ := hI.free x (by simpa [update_of_ne hxn] using hx)
      exact ⟨hloc _ (by simp) (.node x) h1, h2⟩

theorem Inv.takeLast (hI : Inv f pend loc s) (hw : s.walk w = some (n, n)) :
    Kept f (.take w n)
      { s with walk := update s.walk w none, linked := update s.linked n false } := by
  have hwi := hI.walk w
  rw [hw] at hwi
  obtain ⟨rest, hq, hs, hlast⟩ := hwi
  obtain rfl : rest = [] := ((links K N).lastCell_eq_head hs.nodup).mp hlast
  exact hI.walkOn hq hs.head_place ((links K N).chain_nil.mp hs.chain).2 rfl

theorem Inv.take {e m : N} (hI : Inv f pend loc s) (hw : s.walk w = some (n, e))
    (hm : s.mem (.node n) = some m) :
    Kept f (.take w n)
      { s with walk := update s.walk w (some (m, e)), linked := update s.linked n false } := by
  have hwi := hI.walk w
  rw [hw] at hwi
  obtain ⟨rest, hq, hs, hlast⟩ := hwi
  obtain ⟨q, rfl, hp⟩ := (links K N).chain_head hs.chain hm
  refine hI.walkOn hq hs.head_place hp ⟨q, rfl, ?_, hlast⟩
  rw [cellLoc_update]
  refine hs.tail.move ?_ _
  simpa [Links.cells] using hs.not_head

/-- A node outside every list may be written by its owner. -/
theorem Inv.client {v : Option N} (hI : Inv f pend loc s) (hn : s.linked n = false) :
    Kept f .silent { s with mem := update s.mem (.node n) v } := by
  have hfree := (hI.free n hn).1
  have hmem : ∀ l : Loc K W, l ≠ .free → ∀ d, cellLoc loc d = l →
      update s.mem (.node n) v d = s.mem d ∧ pend d = pend d := by
    intro l hne d hd
    refine ⟨update_of_ne ?_ _ _, rfl⟩
    rintro rfl
    exact hne (hd.symm.trans hfree)
  refine ⟨f, pend, loc, .silent, hI.last, ?_, ?_, hI.owes, hI.held, hI.leaving, hI.free⟩
  · intro k
    obtain ⟨rest, hl⟩ := hI.list k
    refine ⟨rest, hl.frame (fun _ hd => hd) (hmem _ (by simp)) fun x hx => ?_⟩
    exact (hmem _ (by simp) (.node x) (hI.leaving k x hx).1).1
  · intro w
    exact (hI.walk w).frame (fun _ hd => hd) (hmem _ (by simp))

end MyosIo.AlList
