import Mathlib.Tactic.CasesM
import Resourcery.Logic.Points

/-!
# What becomes of one thread

A thread works on one call, destructor or supervising future from its start to its end (`Pc.work`).
In a step it stays where it is, takes its next step, jumps, or is started (`thread_cases`).
-/

namespace Resourcery

open Interleaving Function Transition ResourceContext

variable {R K E : Type}

/-- What a thread works on. -/
inductive Work (R K : Type)
  | nothing
  | acquire (q : Request R K)
  | discover (q : Query) (i : Ident R K)
  | all (r : R)
  | upgrade (g : GenId)
  | cancel
  | shutdown
  | terminate
  | wait (g : GenId)
  | drop (g : GenId)
  | supervise (i : Ident R K) (g : GenId) (id : ℕ) (site : Option Site)

/-- What the thread at this point works on. -/
def Pc.work : Pc R K E → Work R K
  | .idle => .nothing
  | .acquire q _ => .acquire q
  | .discover q i _ => .discover q i
  | .all r _ => .all r
  | .upgrade g _ => .upgrade g
  | .cancel _ | .cancelled => .cancel
  | .shutdown _ => .shutdown
  | .terminate _ => .terminate
  | .wait g _ => .wait g
  | .drop g _ => .drop g
  | .supervise i g id site _ => .supervise i g id site

/-- The points at which threads start. -/
def Pc.Initial : Pc R K E → Prop
  | .acquire _ p => p = .accepting ∨ p = .create none .accepting
  | .discover _ _ p => p = .slot
  | .all _ p => p = .iter
  | .upgrade _ p => p = .entry
  | .cancel p => p = .lock
  | .shutdown p => p = .cancel .lock
  | .terminate p => p = .cancel .lock
  | .wait _ p => p = .borrow 0
  | .drop _ p => p = .cancel .load
  | .supervise _ _ _ _ p => p = .unpolled
  | .idle | .cancelled => False

variable {cfg : Config R K} {t u : Tid} {m : Memory R K E} {p p' : Pc R K E}
  {s s' : State R K E} {a : Action R K E}

theorem CallCases.initial {c : Call R K} {m' : Memory R K E} (h : CallCases cfg m c m' p) :
    p.Initial := by
  cases h
  case acquire => exact .inl rfl
  case spawn => exact .inr rfl
  all_goals exact rfl

theorem HoldCases.initial {m' : Memory R K E} {c : Pc R K E} (h : HoldCases m a m' (some c)) :
    c.Initial := by
  cases h
  exact rfl

theorem Jump.work (h : Jump a t p p') : p'.work = p.work := by
  cases h <;> rfl

variable [DecidableEq R] [DecidableEq K]

/-- A thread goes on with what it works on. -/
theorem wp_work (p : Pc R K E) : p.code.wp cfg t m fun _ p' c =>
    p'.work = p.work ∧ ForSome Pc.Initial c := by
  cases p using Pc.points
  case acquire_guard_remove_entry | supervise_cleanup_entry =>
    refine ⟨⟨rfl, trivial⟩, fun _ => ⟨fun _ _ => ?_, fun _ => ⟨rfl, trivial⟩⟩⟩
    dsimp only
    split <;> exact ⟨rfl, trivial⟩
  all_goals
    repeat' first
      | exact trivial
      | exact rfl
      | apply And.intro
      | intro _

/-- What becomes of a thread in a step. -/
theorem thread_cases (h : step cfg s a = some s') (hf : Pool.Fresh .idle s) (u : Tid) :
    s'.pc u = s.pc u ∨
      (∃ ch mv, a = .run u ch ∧ s.Ready u ∧ execute cfg u ch s.mem (s.pc u).code = some mv ∧
        s'.mem = mv.mem ∧ s'.pc u = mv.pc) ∨
      (Jump a u (s.pc u) (s'.pc u) ∧ s'.mem = s.mem) ∨
      s.pc u = .idle ∧ (s'.pc u).Initial := by
  have forked {m : Memory R K E} {c : Option (Pc R K E)} (hc : ForSome Pc.Initial c) :
      (((s.setMem m).fork c).pc u = s.pc u) ∨
        s.pc u = .idle ∧ (((s.setMem m).fork c).pc u).Initial := by
    cases c with
    | none => exact .inl rfl
    | some c =>
      rw [Pool.fork_some_pc, Pool.setMem_size, Pool.setMem_pc]
      by_cases hu : u = s.size
      · rw [if_pos hu]
        exact .inr ⟨hf u (Nat.le_of_eq hu.symm), hc⟩
      · rw [if_neg hu]
        exact .inl rfl
  cases step_cases h with
  | @call _ _ p hb =>
    exact (forked (c := some p) (call_cases hb).initial).imp_right fun h => .inr (.inr h)
  | @run t ch mv hr he =>
    by_cases ht : u = t
    · subst ht
      exact .inr (.inl ⟨ch, mv, rfl, hr, he, Pool.advance_mem _ _ _, Pool.advance_pc_self hr.1 _⟩)
    · have hc := ((wp_work (s.pc t)).sound he).2
      unfold Pool.advance
      cases hch : mv.child with
      | none => exact .inl (by simp [ht])
      | some c =>
        rw [hch] at hc
        simp only [Pool.fork_some_pc, Pool.await_pc, Pool.await_size, Pool.setPc_pc,
          Pool.setPc_size, Pool.setMem_pc, Pool.setMem_size, if_neg ht]
        by_cases hu : u = s.size
        · rw [if_pos hu]
          exact .inr (.inr (.inr ⟨hf u (Nat.le_of_eq hu.symm), hc⟩))
        · rw [if_neg hu]
          exact .inl rfl
  | @jump a t p hr hj =>
    by_cases ht : u = t
    · subst ht
      refine .inr (.inr (.inl ⟨?_, rfl⟩))
      rw [Pool.setPc_pc, if_pos rfl]
      exact hj
    · exact .inl (by rw [Pool.setPc_pc, if_neg ht])
  | task => exact .inl rfl
  | @hold _ m c hh =>
    refine (forked ?_).imp_right fun h => .inr (.inr h)
    cases c with
    | none => trivial
    | some c => exact (hold_cases hh).initial

/-- A thread that has been started goes on with what it works on. -/
theorem work_step (h : step cfg s a = some s') (hf : Pool.Fresh .idle s) (hu : s.pc u ≠ .idle) :
    (s'.pc u).work = (s.pc u).work := by
  rcases thread_cases h hf u with he | ⟨ch, mv, -, -, he, -, hp⟩ | ⟨hj, -⟩ | ⟨hi, -⟩
  · rw [he]
  · rw [hp]
    exact ((wp_work _).sound he).1
  · exact hj.work
  · exact absurd hi hu

/-- No thread changes its work. -/
theorem work_of_reach {ok ok' : State R K E → Action R K E → Prop}
    (hs : Reach (step cfg) ok State.new s) (hr : Reach (step cfg) ok' s s')
    (hu : (s.pc u).work ≠ .nothing) : (s'.pc u).work = (s.pc u).work := by
  have hinv : Pool.Fresh .idle s' ∧ (s'.pc u).work = (s.pc u).work := by
    refine hr.invariant (fun v => Pool.Fresh .idle v ∧ (v.pc u).work = (s.pc u).work)
      ⟨fresh_of_reach hs, rfl⟩ ?_
    rintro v a v' ⟨hf, hw⟩ - h
    refine ⟨fresh_step h hf, (work_step h hf fun e => hu ?_).trans hw⟩
    rw [← hw, e]
    rfl
  exact hinv.2

/-! ## Awaited destructors -/

/-- A step after which a thread awaits the one it starts drops the last strong reference to an
entry. -/
theorem joins_cases {ch : Choice} {ins : Instr R K E (Pc R K E)}
    {mv : Move (Memory R K E) (Pc R K E)} (h : execute cfg t ch m ins = some mv)
    (hj : mv.joins = true) :
    ∃ g destructor, ins = .dropStrong g destructor mv.pc ∧ m.strong g = 1 := by
  cases ins
  case dropStrong g destructor k =>
    simp only [execute] at h
    split_ifs at h with hs
    · cases h
      exact ⟨g, destructor, rfl, hs⟩
    · cases h
      cases hj
  all_goals
    exfalso
    simp only [execute, goOn] at h
    repeat' first
      | cases h; done
      | cases h; cases hj
      | split at h
      | obtain ⟨_, _, h⟩ := Option.bind_eq_some_iff.mp h

/-- The thread another one awaits: it has done so before, staying where it is or jumping when the
destructor has ended; or it has just dropped the last strong reference to an entry. -/
theorem awaits_cases (h : step cfg s a = some s') {c : Tid} (hc : (s'.thread u).awaits = some c) :
    (s.thread u).awaits = some c ∧ (s'.pc u = s.pc u ∨ (s.pc c).destroyed = true) ∨
      ∃ g destructor, (s.pc u).code = .dropStrong g destructor (s'.pc u) ∧ s.mem.strong g = 1 ∧
        ∃ ch, a = .run u ch := by
  cases step_cases h with
  | call hb =>
    obtain ⟨h1, h2⟩ := Pool.awaits_of_fork hc
    exact .inl ⟨h1, .inl h2⟩
  | @run t ch mv hr he =>
    rcases Pool.awaits_of_advance hc with ⟨rfl, hj⟩ | ⟨-, h1, h2⟩
    · obtain ⟨g, destructor, hcode, hs⟩ := joins_cases he hj
      refine .inr ⟨g, destructor, ?_, hs, ch, rfl⟩
      rw [Pool.advance_pc_self hr.1]
      exact hcode
    · exact .inl ⟨h1, .inl h2⟩
  | @jump a t p hr hj =>
    simp only [Pool.setPc] at hc
    by_cases ht : u = t
    · subst ht
      rw [if_pos rfl] at hc
      exact .inl ⟨hc, .inr (hr.2 c hc)⟩
    · rw [if_neg ht] at hc
      exact .inl ⟨hc, .inl (by rw [Pool.setPc_pc, if_neg ht])⟩
  | task => exact .inl ⟨hc, .inl rfl⟩
  | hold =>
    obtain ⟨h1, h2⟩ := Pool.awaits_of_fork hc
    exact .inl ⟨h1, .inl h2⟩

/-- A destructor that has ended has ended for good. -/
theorem destroyed_step (h : step cfg s a = some s') (hf : Pool.Fresh .idle s)
    (hu : (s.pc u).destroyed = true) : (s'.pc u).destroyed = true := by
  unfold Pc.destroyed at hu
  split at hu
  · rename_i g hp
    rcases thread_cases h hf u with he | ⟨ch, mv, -, -, he, -⟩ | ⟨hj, -⟩ | ⟨hi, -⟩
    · rw [he, hp]
      rfl
    · rw [hp] at he
      exact nomatch he
    · rw [hp] at hj
      generalize s'.pc u = p at hj
      cases hj
    · exact nomatch hi.symm.trans hp
  · cases hu

end Resourcery
