import MyosIo.Tty.Batching

/-! As long as the buffer stays below its threshold, a reader gets the lines of an editor without
any bounds: nothing is lost, nothing is read twice, and the reads do not matter. -/
namespace MyosIo.Tty

/-- What a call returns to its reader. -/
def Op.bytes : Op → List UInt8
  | .read _ bytes => bytes
  | .readv _ _ (.done chunks) => chunks.flatten
  | _ => []

/-- What all readers have got, in the order of their critical sections. -/
def received (ops : List Op) : List UInt8 := ops.flatMap Op.bytes

def Op.typed : Op → Option Batch
  | .batch backNum c => some ⟨backNum, c⟩
  | _ => none

def typed (ops : List Op) : List Batch := ops.filterMap Op.typed

/-- A batch at an editor without bounds: a line is readable when its newline is there. -/
def Line.edit (l : Line) (p : Batch) : Line :=
  let text := l.pending.rdrop p.backNum ++ p.c
  ⟨l.readable ++ text.rdropWhile (· ≠ newline), text.rtakeWhile (· ≠ newline)⟩

def edited (ps : List Batch) : Line := ps.foldl Line.edit ⟨[], []⟩

/-- The characters of the batches. -/
def written (ps : List Batch) : ℕ := (ps.map fun p => p.c.length).sum

variable {l : Line} {p : Batch} {ps qs : List Batch} {ops : List Op}

@[simp] theorem edited_snoc : edited (ps ++ [p]) = (edited ps).edit p := by
  simp [edited]

@[simp] theorem written_append : written (ps ++ qs) = written ps + written qs := by
  simp [written]

@[simp] theorem received_snoc (op : Op) : received (ops ++ [op]) = received ops ++ op.bytes := by
  simp [received]

@[simp] theorem typed_snoc (op : Op) : typed (ops ++ [op]) = typed ops ++ op.typed.toList := by
  cases op <;> simp [typed, Op.typed]

theorem rdropWhile_append {α : Type*} {q : α → Bool} {xs ys : List α} (h : ∃ y ∈ ys, ¬q y) :
    (xs ++ ys).rdropWhile q = xs ++ ys.rdropWhile q := by
  unfold List.rdropWhile
  rw [List.reverse_append, List.dropWhile_append, if_neg (by simpa using h), List.reverse_append,
    List.reverse_reverse]

namespace Line

theorem edit_contents (l : Line) (p : Batch) : (l.edit p).readable ++ (l.edit p).pending =
    l.readable ++ (l.pending.rdrop p.backNum ++ p.c) := by
  unfold edit
  rw [List.append_assoc, List.rdropWhile_append_rtakeWhile]

/-- The pending bytes are no line. -/
theorem edit_pending (l : Line) (p : Batch) : newline ∉ (l.edit p).pending := fun h => by
  simpa using List.mem_rtakeWhile_imp h

theorem edit_size (l : Line) (p : Batch) : (l.edit p).size ≤ l.size + p.c.length := by
  have hdrop : (l.pending.rdrop p.backNum).length ≤ l.pending.length :=
    (List.take_sublist ..).length_le
  unfold size
  rw [edit_contents]
  simp only [List.length_append]
  omega

/-- What the readers have taken already is out of the editor's reach. -/
theorem edit_append (bytes : List UInt8) (l : Line) (p : Batch) :
    edit ⟨bytes ++ l.readable, l.pending⟩ p =
      ⟨bytes ++ (l.edit p).readable, (l.edit p).pending⟩ := by
  simp only [edit, List.append_assoc]

theorem kept_eq (l : Line) (backNum : ℕ) : l.kept backNum = l.pending.rdrop backNum := by
  unfold kept List.rdrop
  congr 1
  omega

/-- Below the threshold the buffer is the editor. -/
theorem batch_edit (hp : newline ∉ l.pending)
    (hs : l.size + p.c.length < readBufVisibleThreshold) : l.batch p.backNum p.c = l.edit p := by
  have hle : readBufVisibleThreshold ≤ readBufSize := by decide
  have hkept : (l.readable ++ l.kept p.backNum).length ≤ l.size := by
    have : (l.kept p.backNum).length ≤ l.pending.length := (List.take_sublist ..).length_le
    unfold size
    simp only [List.length_append]
    omega
  have hfit : l.fitting p.backNum p.c = p.c := List.take_of_length_le (by omega)
  have hfree : ∀ b ∈ l.kept p.backNum, decide (b ≠ newline) = true := fun b hb =>
    decide_eq_true fun h => hp (h ▸ List.mem_of_mem_take hb)
  have hready : l.ready p.backNum p.c =
      (l.pending.rdrop p.backNum ++ p.c).rdropWhile (· ≠ newline) := by
    rw [l.ready_lines p.backNum p.c (by rw [hfit, List.length_append]; omega), hfit, ← kept_eq]
    split
    next hn => rw [rdropWhile_append (by simpa using hn)]
    next hn =>
      refine (List.rdropWhile_eq_nil_iff.mpr fun b hb => ?_).symm
      obtain hb | hb := List.mem_append.mp hb
      · exact hfree b hb
      · exact decide_eq_true fun h => hn (h ▸ hb)
  refine eq_of_contents ?_ ?_
  · change l.readable ++ l.ready p.backNum p.c = _
    rw [hready]
    rfl
  · rw [batch_contents, edit_contents, hfit, kept_eq, List.append_assoc]

end Line

theorem edited_pending (ps : List Batch) : newline ∉ (edited ps).pending := by
  rcases List.eq_nil_or_concat' ps with rfl | ⟨ps, p, rfl⟩
  · simp [edited]
  · rw [edited_snoc]
    exact (edited ps).edit_pending p

theorem edited_size (ps : List Batch) : (edited ps).size ≤ written ps := by
  induction ps using List.reverseRecOn with
  | nil => exact Nat.le_refl 0
  | append_singleton ps p ih =>
    have := (edited ps).edit_size p
    rw [edited_snoc, written_append]
    simp only [written, List.map_cons, List.map_nil, List.sum_singleton] at ih ⊢
    omega

theorem flatten_scatter {α : Type*} (ns : List ℕ) (xs : List α) :
    (scatter ns xs).flatten = xs.take ns.sum := by
  induction ns generalizing xs with
  | nil => simp [scatter]
  | cons n ns ih => rw [scatter, List.flatten_cons, ih, List.sum_cons, List.take_add]

/-- Whatever is read when, what is read and what is left to read are the lines of the editor. -/
theorem run_edited (h : Run Line.Step ⟨[], []⟩ ops l)
    (hfit : written (typed ops) < readBufVisibleThreshold) :
    (⟨received ops ++ l.readable, l.pending⟩ : Line) = edited (typed ops) := by
  induction h with
  | refl => rfl
  | @step ops l l' op h hs ih =>
    rw [typed_snoc, written_append] at hfit
    have hall := ih (by omega)
    have hread (n : ℕ) : received ops ++ l.readable.take n ++ l.readable.drop n =
        received ops ++ l.readable := by
      rw [List.append_assoc, List.take_append_drop]
    rw [received_snoc, typed_snoc]
    cases hs with
    | batch n c =>
      have hpending : newline ∉ l.pending := by
        have := edited_pending (typed ops)
        rwa [← hall] at this
      have hsize : l.size ≤ written (typed ops) := by
        have := edited_size (typed ops)
        rw [← hall] at this
        simp only [Line.size, List.length_append] at this ⊢
        omega
      have hc : written (Op.batch n c).typed.toList = c.length := by simp [written, Op.typed]
      have hroom : l.size + c.length < readBufVisibleThreshold := by omega
      rw [show l.batch n c = l.edit ⟨n, c⟩ from @Line.batch_edit l ⟨n, c⟩ hpending hroom]
      rw [show (Op.batch n c).bytes = [] from rfl, List.append_nil,
        show (Op.batch n c).typed.toList = [⟨n, c⟩] from rfl, edited_snoc, ← hall,
        Line.edit_append]
    | read => simpa [Op.typed, Op.bytes, hread] using hall
    | einval => simpa [Op.typed, Op.bytes] using hall
    | readv => simpa [Op.typed, Op.bytes, flatten_scatter, hread] using hall

end MyosIo.Tty
