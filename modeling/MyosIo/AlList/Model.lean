import MyosIo.Lib.Run
import MyosIo.Lib.Links

/-! `al_list.h` with every load, store, exchange and compare-exchange one step. Any number of
producers append to any number of lists; the consumers of one list hold its lock, so at most one
of them is inside a call. A chain that `al_clear` returned is walked by its new owner, which
follows the links the way `cnd_broadcast` does. -/
namespace MyosIo.AlList

variable {K P N W : Type*}

/-- A word that holds a node pointer: `head` of index `k`, or the word of node `n`. -/
inductive Cell (K N : Type*)
  | head (k : K)
  | node (n : N)
  deriving DecidableEq

/-- `NULL` is `none`; the word of a node is its own cell. -/
def links (K N : Type*) : Links (Cell K N) N (Option N) where
  null := none
  ptr := some
  cell := .node
  ptr_ne_null _ := Option.some_ne_none _
  ptr_injective _ _ h := Option.some.inj h
  cell_injective _ _ h := Cell.node.inj h

/-- `al_append_inline`: idle, or past its exchange and owing the store to `cell`. -/
inductive Producer (K N : Type*)
  | idle
  | store (n : N) (cell : Cell K N)

/-- Where the lock holder stands in `al_delete_front`, `al_delete_front_force` or
`al_clear`; the arguments are the locals already read. -/
inductive Consumer (N : Type*)
  | idle
  | deleteLoadEnd
  | deleteLoadHead (last : N)
  | forceLoadHead
  | forceLoadEnd (head : N)
  | storeNull (head : N)
  | casEnd (head : N)
  | checkNext (head : N)
  | loadNext (head : N)
  | storeHead (head next : N)
  | ret (head : N) (next : Option N)
  | clearLoadEnd
  | clearLoadHead
  | clearStoreNull (head : N)
  | clearExchange (head : N)

/-- `walk w` is the `(node, end)` pair of the chain that walker `w` still has to go through.
`linked n` says that `n` has been appended and no call has given it back yet. -/
structure State (K P N W : Type*) where
  mem : Cell K N → Option N
  last : K → Option N
  prod : P → Producer K N
  cons : K → Consumer N
  walk : W → Option (N × N)
  linked : N → Bool

inductive Event (K P N W : Type*)
  | append (k : K) (p : P) (n : N)
  | link (p : P) (n : N) (ret : Bool)
  | remove (k : K) (n : N)
  | empty (k : K)
  | ret (k : K) (n : N) (next : Option N)
  | clear (k : K) (w : W)
  | take (w : W) (n : N)
  | silent

/-- `al_index_init` on every list and `al_node_init` on every node. -/
def initial (K P N W : Type*) : State K P N W where
  mem _ := none
  last _ := none
  prod _ := .idle
  cons _ := .idle
  walk _ := none
  linked _ := false

open Function

variable [DecidableEq K] [DecidableEq P] [DecidableEq N] [DecidableEq W]

def State.setCons (s : State K P N W) (k : K) (c : Consumer N) : State K P N W :=
  { s with cons := update s.cons k c }

/-- The cell the producer has to store to after its exchange returned `old`. -/
def linkCell (k : K) : Option N → Cell K N
  | none => .head k
  | some o => .node o

/-- The atomic steps. A spin that reads `NULL` changes nothing and is no step. -/
inductive Step : State K P N W → Event K P N W → State K P N W → Prop
  -- al_append_inline
  | exchange {s : State K P N W} {k : K} {p : P} {n : N} (hp : s.prod p = .idle)
      (hn : s.linked n = false) (hm : s.mem (.node n) = none) :
      Step s (.append k p n)
        { s with
          last := update s.last k (some n)
          prod := update s.prod p (.store n (linkCell k (s.last k)))
          linked := update s.linked n true }
  | link {s : State K P N W} {p : P} {n : N} {c : Cell K N} {ret : Bool}
      (hp : s.prod p = .store n c) (hr : ret = match c with | .head _ => false | .node _ => true) :
      Step s (.link p n ret)
        { s with mem := update s.mem c (some n), prod := update s.prod p .idle }
  -- al_delete_front
  | callDelete {s : State K P N W} {k : K} (hc : s.cons k = .idle) :
      Step s .silent (s.setCons k .deleteLoadEnd)
  | deleteEmpty {s : State K P N W} {k : K} (hc : s.cons k = .deleteLoadEnd)
      (he : s.last k = none) :
      Step s (.empty k) (s.setCons k .idle)
  | deleteEnd {s : State K P N W} {k : K} {e : N} (hc : s.cons k = .deleteLoadEnd)
      (he : s.last k = some e) :
      Step s .silent (s.setCons k (.deleteLoadHead e))
  | deleteHead {s : State K P N W} {k : K} {e h : N} (hc : s.cons k = .deleteLoadHead e)
      (hm : s.mem (.head k) = some h) :
      Step s .silent (s.setCons k (if h = e then .storeNull h else .loadNext h))
  -- al_delete_front_force
  | callForce {s : State K P N W} {k : K} (hc : s.cons k = .idle) :
      Step s .silent (s.setCons k .forceLoadHead)
  | forceHead {s : State K P N W} {k : K} {h : N} (hc : s.cons k = .forceLoadHead)
      (hm : s.mem (.head k) = some h) :
      Step s .silent (s.setCons k (.forceLoadEnd h))
  | forceEnd {s : State K P N W} {k : K} {h : N} (hc : s.cons k = .forceLoadEnd h) :
      Step s .silent (s.setCons k (if s.last k = some h then .storeNull h else .loadNext h))
  -- the single-element path of both, and the fall through to `label2`
  | storeNull {s : State K P N W} {k : K} {h : N} (hc : s.cons k = .storeNull h) :
      Step s .silent { s.setCons k (.casEnd h) with mem := update s.mem (.head k) none }
  | casOk {s : State K P N W} {k : K} {h : N} (hc : s.cons k = .casEnd h)
      (he : s.last k = some h) :
      Step s (.remove k h) { s.setCons k (.checkNext h) with last := update s.last k none }
  | casFail {s : State K P N W} {k : K} {h : N} (hc : s.cons k = .casEnd h)
      (he : s.last k ≠ some h) :
      Step s .silent (s.setCons k (.loadNext h))
  | checkNext {s : State K P N W} {k : K} {h : N} (hc : s.cons k = .checkNext h)
      (hm : s.mem (.node h) = none) :
      Step s .silent (s.setCons k (.ret h none))
  -- the multi-element path
  | loadNext {s : State K P N W} {k : K} {h n : N} (hc : s.cons k = .loadNext h)
      (hm : s.mem (.node h) = some n) :
      Step s .silent (s.setCons k (.storeHead h n))
  | storeHead {s : State K P N W} {k : K} {h n : N} (hc : s.cons k = .storeHead h n) :
      Step s (.remove k h)
        { s.setCons k (.ret h (some n)) with mem := update s.mem (.head k) (some n) }
  | ret {s : State K P N W} {k : K} {h : N} {next : Option N} (hc : s.cons k = .ret h next) :
      Step s (.ret k h next) { s.setCons k .idle with linked := update s.linked h false }
  -- al_clear
  | callClear {s : State K P N W} {k : K} (hc : s.cons k = .idle) :
      Step s .silent (s.setCons k .clearLoadEnd)
  | clearEmpty {s : State K P N W} {k : K} (hc : s.cons k = .clearLoadEnd)
      (he : s.last k = none) :
      Step s (.empty k) (s.setCons k .idle)
  | clearEnd {s : State K P N W} {k : K} {e : N} (hc : s.cons k = .clearLoadEnd)
      (he : s.last k = some e) :
      Step s .silent (s.setCons k .clearLoadHead)
  | clearHead {s : State K P N W} {k : K} {h : N} (hc : s.cons k = .clearLoadHead)
      (hm : s.mem (.head k) = some h) :
      Step s .silent (s.setCons k (.clearStoreNull h))
  | clearStoreNull {s : State K P N W} {k : K} {h : N} (hc : s.cons k = .clearStoreNull h) :
      Step s .silent { s.setCons k (.clearExchange h) with mem := update s.mem (.head k) none }
  | clearExchange {s : State K P N W} {k : K} {h : N} {w : W}
      (hc : s.cons k = .clearExchange h) (hw : s.walk w = none) :
      Step s (.clear k w)
        { s.setCons k .idle with
          last := update s.last k none
          walk := update s.walk w ((s.last k).map fun e => (h, e)) }
  -- the owner of a cleared chain: `node == ret.end` ends the walk, else it waits for the link
  | takeLast {s : State K P N W} {w : W} {n : N} (hw : s.walk w = some (n, n)) :
      Step s (.take w n)
        { s with walk := update s.walk w none, linked := update s.linked n false }
  | take {s : State K P N W} {w : W} {n e m : N} (hw : s.walk w = some (n, e)) (hne : n ≠ e)
      (hm : s.mem (.node n) = some m) :
      Step s (.take w n)
        { s with walk := update s.walk w (some (m, e)), linked := update s.linked n false }
  -- whoever got a node back may write its word
  | client {s : State K P N W} {n : N} {v : Option N} (hn : s.linked n = false) :
      Step s .silent { s with mem := update s.mem (.node n) v }

/-- What the lists are for: FIFO queues, the node a call has removed and not yet returned,
the chains cleared out of the queues, and everything that ever left queue `k`, in the order
it left. -/
structure Fifo (K N W : Type*) where
  queue : K → List N
  held : K → Option N
  chain : W → List N
  out : K → List N

def Fifo.empty (K N W : Type*) : Fifo K N W :=
  ⟨fun _ => [], fun _ => none, fun _ => [], fun _ => []⟩

inductive Fifo.Step : Fifo K N W → Event K P N W → Fifo K N W → Prop
  | append {f : Fifo K N W} {k : K} {p : P} {n : N} :
      Fifo.Step f (.append k p n) { f with queue := update f.queue k (f.queue k ++ [n]) }
  | remove {f : Fifo K N W} {k : K} {n : N} {q : List N} (hq : f.queue k = n :: q)
      (hh : f.held k = none) :
      Fifo.Step f (.remove k n)
        { f with
          queue := update f.queue k q
          held := update f.held k (some n)
          out := update f.out k (f.out k ++ [n]) }
  | empty {f : Fifo K N W} {k : K} (hq : f.queue k = []) : Fifo.Step f (.empty k) f
  | clear {f : Fifo K N W} {k : K} {w : W} (hq : f.queue k ≠ []) (hw : f.chain w = []) :
      Fifo.Step f (.clear k w)
        { f with
          queue := update f.queue k []
          chain := update f.chain w (f.queue k)
          out := update f.out k (f.out k ++ f.queue k) }
  | take {f : Fifo K N W} {w : W} {n : N} {q : List N} (hw : f.chain w = n :: q) :
      Fifo.Step f (.take w n) { f with chain := update f.chain w q }
  | link {f : Fifo K N W} {p : P} {n : N} {ret : Bool} : Fifo.Step f (.link p n ret) f
  | ret {f : Fifo K N W} {k : K} {n : N} {next : Option N} (hh : f.held k = some n) :
      Fifo.Step f (.ret k n next) { f with held := update f.held k none }
  | silent {f : Fifo K N W} : Fifo.Step f .silent f

/-- The nodes appended to list `k`, in the order of the exchanges on its `end`. -/
def appended (k : K) : List (Event K P N W) → List N
  | [] => []
  | .append k' _ n :: xs => if k' = k then n :: appended k xs else appended k xs
  | _ :: xs => appended k xs

end MyosIo.AlList
