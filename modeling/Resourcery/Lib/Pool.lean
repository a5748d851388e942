import Mathlib.Algebra.BigOperators.Group.Finset.Basic
import Mathlib.Algebra.BigOperators.Intervals
import Mathlib.Algebra.Order.BigOperators.Group.Finset

/-!
# Threads over a shared memory

A `Pool M P` is a shared memory `M` and a growing family of threads, each at a program point in
`P`. One atomic step of a thread is a `Move`: the new memory, the thread's next program point,
and possibly a thread it starts. A thread that `joins` the one it starts takes no further step
before that one has ended (a frame of its own call stack, for instance a destructor).

`Pool.advance` performs a move; `forall_pc_advance` is the rule by which a property of every
thread survives one: the moving thread establishes it anew, the others keep it under the change
of memory. `total_advance` is its counterpart for a quantity summed over all threads.
-/

namespace Interleaving

variable {M P : Type*}

/-- What one atomic step of a thread does. -/
structure Move (M P : Type*) where
  mem : M
  pc : P
  child : Option P := none
  joins : Bool := false

/-- A thread: its program point and the thread whose end it awaits, if any. -/
structure Thread (P : Type*) where
  pc : P
  awaits : Option Nat := none

/-- A shared memory and the threads that work on it; those numbered from `size` on have not been
started. -/
structure Pool (M P : Type*) where
  mem : M
  thread : Nat → Thread P
  size : Nat

namespace Pool

/-- The program point of thread `t`. -/
def pc (s : Pool M P) (t : Nat) : P := (s.thread t).pc

/-- No thread has been started; each stands at `idle`. -/
def initial (mem : M) (idle : P) : Pool M P := ⟨mem, fun _ => ⟨idle, none⟩, 0⟩

/-- Replaces the memory. -/
def setMem (s : Pool M P) (mem : M) : Pool M P := { s with mem := mem }

/-- Puts thread `t` at `p`. -/
def setPc (s : Pool M P) (t : Nat) (p : P) : Pool M P :=
  { s with thread := fun u => if u = t then { s.thread t with pc := p } else s.thread u }

/-- Starts a thread at `p`, when there is one to start. -/
def fork (s : Pool M P) : Option P → Pool M P
  | none => s
  | some p =>
    { s with
      thread := fun u => if u = s.size then ⟨p, none⟩ else s.thread u
      size := s.size + 1 }

/-- Lets thread `t` await the thread numbered `c`. -/
def await (s : Pool M P) (t : Nat) (c : Option Nat) : Pool M P :=
  { s with thread := fun u => if u = t then { s.thread t with awaits := c } else s.thread u }

/-- Thread `t` makes the move `mv`. -/
def advance (s : Pool M P) (t : Nat) (mv : Move M P) : Pool M P :=
  (((s.setMem mv.mem).setPc t mv.pc).await t (if mv.joins then some s.size else none)).fork
    mv.child

/-- Threads that have not been started stand at `idle`. -/
def Fresh (idle : P) (s : Pool M P) : Prop := ∀ u, s.size ≤ u → s.pc u = idle

/-! ## What the operations change -/

@[simp] theorem setMem_mem (s : Pool M P) (m : M) : (s.setMem m).mem = m := rfl
@[simp] theorem setMem_pc (s : Pool M P) (m : M) (u : Nat) : (s.setMem m).pc u = s.pc u := rfl
@[simp] theorem setMem_size (s : Pool M P) (m : M) : (s.setMem m).size = s.size := rfl
@[simp] theorem setPc_mem (s : Pool M P) (t : Nat) (p : P) : (s.setPc t p).mem = s.mem := rfl
@[simp] theorem setPc_size (s : Pool M P) (t : Nat) (p : P) : (s.setPc t p).size = s.size := rfl

@[simp] theorem setPc_pc (s : Pool M P) (t : Nat) (p : P) (u : Nat) :
    (s.setPc t p).pc u = if u = t then p else s.pc u := by
  unfold setPc pc
  by_cases h : u = t <;> simp [h]

@[simp] theorem await_mem (s : Pool M P) (t : Nat) (c : Option Nat) :
    (s.await t c).mem = s.mem := rfl
@[simp] theorem await_size (s : Pool M P) (t : Nat) (c : Option Nat) :
    (s.await t c).size = s.size := rfl

@[simp] theorem await_pc (s : Pool M P) (t : Nat) (c : Option Nat) (u : Nat) :
    (s.await t c).pc u = s.pc u := by
  unfold await pc
  by_cases h : u = t <;> simp [h]

@[simp] theorem fork_mem (s : Pool M P) (c : Option P) : (s.fork c).mem = s.mem := by
  cases c <;> rfl

@[simp] theorem fork_none (s : Pool M P) : s.fork none = s := rfl

@[simp] theorem fork_some_pc (s : Pool M P) (p : P) (u : Nat) :
    (s.fork (some p)).pc u = if u = s.size then p else s.pc u := by
  unfold fork pc
  by_cases h : u = s.size <;> simp [h]

@[simp] theorem fork_some_size (s : Pool M P) (p : P) : (s.fork (some p)).size = s.size + 1 := rfl

@[simp] theorem advance_mem (s : Pool M P) (t : Nat) (mv : Move M P) :
    (s.advance t mv).mem = mv.mem := by
  simp [advance]

theorem le_fork_size (s : Pool M P) (c : Option P) : s.size ≤ (s.fork c).size := by
  cases c <;> simp [fork]

theorem fork_pc_of_lt {s : Pool M P} {u : Nat} (h : u < s.size) (c : Option P) :
    (s.fork c).pc u = s.pc u := by
  cases c with
  | none => rfl
  | some p =>
    rw [fork_some_pc, if_neg (by omega)]

theorem advance_pc_self {s : Pool M P} {t : Nat} (ht : t < s.size) (mv : Move M P) :
    (s.advance t mv).pc t = mv.pc := by
  unfold advance
  rw [fork_pc_of_lt (by simpa using ht)]
  simp

theorem le_advance_size (s : Pool M P) (t : Nat) (mv : Move M P) :
    s.size ≤ (s.advance t mv).size := by
  exact le_fork_size (((s.setMem mv.mem).setPc t mv.pc).await t _) mv.child

theorem advance_size_of_childless {s : Pool M P} {t : Nat} {mv : Move M P}
    (hc : mv.child = none) : (s.advance t mv).size = s.size := by
  unfold advance
  rw [hc]
  rfl

/-- A move changes only the moving thread and the one it starts. -/
theorem advance_thread_of_ne {s : Pool M P} {t u : Nat} {mv : Move M P} (hne : u ≠ t)
    (hu : mv.child = none ∨ u ≠ s.size) : (s.advance t mv).thread u = s.thread u := by
  unfold advance
  rcases hu with hc | hu
  · rw [hc]
    simp [await, setPc, setMem, hne]
  · cases mv.child with
    | none => simp [await, setPc, setMem, hne]
    | some c => simp [fork, await, setPc, setMem, hne, hu]

/-! ## Awaited threads -/

/-- A thread that has just been started awaits none. -/
theorem awaits_of_fork {s : Pool M P} {c : Option P} {u d : Nat}
    (h : ((s.fork c).thread u).awaits = some d) :
    (s.thread u).awaits = some d ∧ (s.fork c).pc u = s.pc u := by
  cases c with
  | none => exact ⟨h, rfl⟩
  | some p =>
    rw [fork_some_pc]
    by_cases hu : u = s.size
    · simp [fork, hu] at h
    · simp only [fork, if_neg hu] at h
      exact ⟨h, if_neg hu⟩

/-- After a move the moving thread awaits the one it has started, or none. -/
theorem advance_awaits {s : Pool M P} {t : Nat} (ht : t < s.size) (mv : Move M P) :
    ((s.advance t mv).thread t).awaits = if mv.joins then some s.size else none := by
  have hne : t ≠ s.size := Nat.ne_of_lt ht
  unfold advance
  cases mv.child with
  | none => simp [await]
  | some c => simp [fork, await, hne]

theorem advance_pc_child {s : Pool M P} {t : Nat} {mv : Move M P} {c : P}
    (h : mv.child = some c) : (s.advance t mv).pc s.size = c := by
  unfold advance
  rw [h, fork_some_pc]
  exact if_pos rfl

/-- Who awaits a thread after a move: the moving thread the one it has started, the others what
they did before. -/
theorem awaits_of_advance {s : Pool M P} {t u d : Nat} {mv : Move M P}
    (h : ((s.advance t mv).thread u).awaits = some d) :
    u = t ∧ mv.joins = true ∨
      u ≠ t ∧ (s.thread u).awaits = some d ∧ (s.advance t mv).pc u = s.pc u := by
  obtain ⟨h, hpc⟩ := awaits_of_fork h
  by_cases hu : u = t
  · refine .inl ⟨hu, ?_⟩
    simp only [await, if_pos hu] at h
    by_contra hj
    rw [if_neg hj] at h
    cases h
  · refine .inr ⟨hu, ?_, ?_⟩
    · simpa only [await, setPc, setMem, if_neg hu] using h
    · rw [advance, hpc, await_pc, setPc_pc, if_neg hu, setMem_pc]

/-! ## Rules -/

/-- **Rule for one move.** A property of every thread holds after a move of thread `t` when the
moving thread has it at its next point, every other thread has it still, and the thread that is
started has it from the start. -/
theorem forall_pc_advance {A : Nat → P → Prop} {s : Pool M P} {t : Nat} {mv : Move M P}
    (hself : A t mv.pc) (hother : ∀ u, u ≠ t → A u (s.pc u))
    (hchild : ∀ c, mv.child = some c → A s.size c) (u : Nat) : A u ((s.advance t mv).pc u) := by
  unfold advance
  cases hc : mv.child with
  | none =>
    simp only [fork_none, await_pc, setPc_pc, setMem_pc]
    by_cases h : u = t
    · rw [if_pos h, h]; exact hself
    · rw [if_neg h]; exact hother u h
  | some c =>
    simp only [fork_some_pc, await_pc, await_size, setPc_pc, setPc_size, setMem_pc, setMem_size]
    by_cases hs : u = s.size
    · rw [if_pos hs, hs]; exact hchild c hc
    · rw [if_neg hs]
      by_cases h : u = t
      · rw [if_pos h, h]; exact hself
      · rw [if_neg h]; exact hother u h

/-- The rule for starting a thread. -/
theorem forall_pc_fork {A : Nat → P → Prop} {s : Pool M P} {c : Option P}
    (hother : ∀ u, A u (s.pc u)) (hchild : ∀ p, c = some p → A s.size p) (u : Nat) :
    A u ((s.fork c).pc u) := by
  cases c with
  | none => exact hother u
  | some p =>
    rw [fork_some_pc]
    by_cases h : u = s.size
    · rw [if_pos h, h]; exact hchild p rfl
    · rw [if_neg h]; exact hother u

/-- The rule for putting a thread at another point. -/
theorem forall_pc_setPc {A : Nat → P → Prop} {s : Pool M P} {t : Nat} {p : P}
    (hself : A t p) (hother : ∀ u, u ≠ t → A u (s.pc u)) (u : Nat) :
    A u ((s.setPc t p).pc u) := by
  rw [setPc_pc]
  by_cases h : u = t
  · rw [if_pos h, h]; exact hself
  · rw [if_neg h]; exact hother u h

theorem fresh_fork {idle : P} {s : Pool M P} (h : Fresh idle s) (c : Option P) :
    Fresh idle (s.fork c) := by
  intro u hu
  cases c with
  | none => exact h u hu
  | some p =>
    rw [fork_some_size] at hu
    rw [fork_some_pc, if_neg (by omega)]
    exact h u (by omega)

theorem fresh_setPc {idle : P} {s : Pool M P} (h : Fresh idle s) {t : Nat} (ht : t < s.size)
    (p : P) : Fresh idle (s.setPc t p) := by
  intro u hu
  rw [setPc_size] at hu
  rw [setPc_pc, if_neg (by omega)]
  exact h u hu

theorem fresh_advance {idle : P} {s : Pool M P} (h : Fresh idle s) {t : Nat} (ht : t < s.size)
    (mv : Move M P) : Fresh idle (s.advance t mv) := by
  unfold advance
  refine fresh_fork (fun u hu => ?_) _
  rw [await_size] at hu
  rw [await_pc]
  have hm : Fresh idle (s.setMem mv.mem) := h
  exact fresh_setPc hm ht _ u hu

/-! ## Quantities summed over the threads -/

/-- The sum of `f` over the program points of all started threads. -/
def total (s : Pool M P) (f : P → Nat) : Nat := ∑ t ∈ Finset.range s.size, f (s.pc t)

theorem total_congr {s s' : Pool M P} {f : P → Nat} (hsize : s'.size = s.size)
    (hpc : ∀ u, s'.pc u = s.pc u) : s'.total f = s.total f := by
  unfold total
  rw [hsize]
  exact Finset.sum_congr rfl fun u _ => by rw [hpc]

theorem le_total {s : Pool M P} (f : P → Nat) {t : Nat} (ht : t < s.size) :
    f (s.pc t) ≤ s.total f := by
  have hpos : ∀ u ∈ Finset.range s.size, 0 ≤ (fun u => f (s.pc u)) u := fun _ _ => Nat.zero_le _
  exact Finset.single_le_sum hpos (Finset.mem_range.mpr ht)

theorem add_le_total {s : Pool M P} (f : P → Nat) {t u : Nat} (ht : t < s.size) (hu : u < s.size)
    (hne : t ≠ u) : f (s.pc t) + f (s.pc u) ≤ s.total f := by
  have hsplit := Finset.sum_erase_add (Finset.range s.size) (fun u => f (s.pc u))
    (Finset.mem_range.mpr ht)
  have hpos : ∀ v ∈ (Finset.range s.size).erase t, 0 ≤ (fun v => f (s.pc v)) v :=
    fun _ _ => Nat.zero_le _
  have hmem : u ∈ (Finset.range s.size).erase t :=
    Finset.mem_erase.mpr ⟨hne.symm, Finset.mem_range.mpr hu⟩
  have hle := Finset.single_le_sum hpos hmem
  unfold total
  omega

theorem total_le_total {s : Pool M P} {f f' : P → Nat} (h : ∀ u, f (s.pc u) ≤ f' (s.pc u)) :
    s.total f ≤ s.total f' :=
  Finset.sum_le_sum fun u _ => h u

/-- A sum changes by no more than one thread does, when no other counts for more and new ones count
for nothing. -/
theorem total_add_le {s s' : Pool M P} {f : P → Nat} {t : Nat} (hsize : s.size ≤ s'.size)
    (ht : t < s.size) (hle : ∀ u, u ≠ t → u < s.size → f (s'.pc u) ≤ f (s.pc u))
    (hnew : ∀ u, s.size ≤ u → f (s'.pc u) = 0) :
    s'.total f + f (s.pc t) ≤ s.total f + f (s'.pc t) := by
  have hsub : Finset.range s.size ⊆ Finset.range s'.size := Finset.range_subset_range.mpr hsize
  have hsum : s'.total f = ∑ u ∈ Finset.range s.size, f (s'.pc u) := by
    refine (Finset.sum_subset hsub fun u _ hu => hnew u ?_).symm
    exact Nat.le_of_not_lt fun h => hu (Finset.mem_range.mpr h)
  have hmem : t ∈ Finset.range s.size := Finset.mem_range.mpr ht
  have hold := Finset.sum_erase_add (Finset.range s.size) (fun u => f (s.pc u)) hmem
  have hnow := Finset.sum_erase_add (Finset.range s.size) (fun u => f (s'.pc u)) hmem
  have hrest : ∑ u ∈ (Finset.range s.size).erase t, f (s'.pc u) ≤
      ∑ u ∈ (Finset.range s.size).erase t, f (s.pc u) :=
    Finset.sum_le_sum fun u hu => hle u (Finset.ne_of_mem_erase hu)
      (Finset.mem_range.mp (Finset.mem_of_mem_erase hu))
  rw [hsum]
  unfold total
  omega

/-- Where a sum is positive some thread counts. -/
theorem exists_of_total_pos {s : Pool M P} {f : P → Nat} (h : 0 < s.total f) :
    ∃ t, t < s.size ∧ 0 < f (s.pc t) := by
  obtain ⟨t, ht, hf⟩ := Finset.exists_ne_zero_of_sum_ne_zero h.ne'
  exact ⟨t, Finset.mem_range.mp ht, Nat.pos_of_ne_zero hf⟩

theorem total_fork (s : Pool M P) (f : P → Nat) (c : Option P) :
    (s.fork c).total f = s.total f + (c.map f).getD 0 := by
  cases c with
  | none => rfl
  | some p =>
    unfold total
    rw [fork_some_size, Finset.sum_range_succ, fork_some_pc, if_pos rfl]
    refine congrArg (· + f p) (Finset.sum_congr rfl fun u hu => ?_)
    rw [fork_pc_of_lt (Finset.mem_range.mp hu)]

theorem total_setPc {s : Pool M P} (f : P → Nat) {t : Nat} (ht : t < s.size) (p : P) :
    (s.setPc t p).total f + f (s.pc t) = s.total f + f p := by
  have hmem : t ∈ Finset.range s.size := Finset.mem_range.mpr ht
  have hold := Finset.sum_erase_add (Finset.range s.size) (fun u => f (s.pc u)) hmem
  have hnew := Finset.sum_erase_add (Finset.range s.size) (fun u => f ((s.setPc t p).pc u)) hmem
  have hrest : ∑ u ∈ (Finset.range s.size).erase t, f ((s.setPc t p).pc u) =
      ∑ u ∈ (Finset.range s.size).erase t, f (s.pc u) :=
    Finset.sum_congr rfl fun u hu => by rw [setPc_pc, if_neg (Finset.ne_of_mem_erase hu)]
  have hself : f ((s.setPc t p).pc t) = f p := by rw [setPc_pc, if_pos rfl]
  unfold total
  rw [setPc_size]
  omega

/-- **Sums over one move.** Only the moving thread and the one it starts count. -/
theorem total_advance {s : Pool M P} (f : P → Nat) {t : Nat} (ht : t < s.size) (mv : Move M P) :
    (s.advance t mv).total f + f (s.pc t) = s.total f + f mv.pc + (mv.child.map f).getD 0 := by
  unfold advance
  rw [total_fork]
  have ht' : t < (s.setMem mv.mem).size := ht
  have hset := total_setPc f ht' mv.pc
  have hawait : (((s.setMem mv.mem).setPc t mv.pc).await t
      (if mv.joins then some s.size else none)).total f =
      ((s.setMem mv.mem).setPc t mv.pc).total f :=
    total_congr rfl fun u => await_pc _ _ _ _
  have hmem : (s.setMem mv.mem).total f = s.total f := rfl
  rw [setMem_pc, hmem] at hset
  rw [hawait]
  omega

end Pool

end Interleaving
