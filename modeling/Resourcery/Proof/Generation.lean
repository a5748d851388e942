import Resourcery.Proof.Charge
import Resourcery.Proof.Growth
import Resourcery.Proof.Leases

/-!
# What the threads know of a generation

The thread in charge of a generation knows its identity, its site and its id in the supervisor
table (`Pc.Known`); nobody else changes them. `Tables` says what the table of supervised
generations and the numbers handed out have in common.
-/

namespace Resourcery

open Interleaving Function Transition ResourceContext

variable {R K E : Type}

/-! ## Numbers and tables -/

/-- Nothing has happened to `g`, which does not exist yet. -/
def Untouched (m : Memory R K E) (g : GenId) : Prop :=
  m.taskId g = none ∧ m.control g = .starting ∧ m.cancels g = 0 ∧ m.start g = .pending ∧
    m.task g = .unspawned ∧ m.aborted g = false

/-- The supervisor table holds generations under the ids they were given, and no id twice. -/
structure Tables (m : Memory R K E) : Prop where
  fresh : ∀ g, m.nextGen ≤ g → Untouched m g
  entry : ∀ e ∈ m.tasks, m.taskId e.2 = some e.1
  bound : ∀ g id, m.taskId g = some id → id < m.nextTask
  inj : ∀ g g' id, m.taskId g = some id → m.taskId g' = some id → g = g'

variable {cfg : Config R K} {t : Tid} {m m' : Memory R K E} {p : Pc R K E} {g : GenId}

/-- A registered generation exists. -/
theorem Tables.lt_nextGen (h : Tables m) (hg : m.taskId g ≠ none) : g < m.nextGen := by
  by_contra hn
  exact hg (h.fresh g (Nat.le_of_not_lt hn)).1

/-- A registered generation has not been registered before, and a generation that is written to
exists. -/
def Instr.Touching {α : Type} (m : Memory R K E) : Instr R K E α → Prop
  | .insertTask g _ => g < m.nextGen ∧ m.taskId g = none
  | .exchangeActive g _ | .exchangeCancelling g _ _ | .storeFinished g _ | .cancelToken g _
  | .spawnTask g _ | .sendStart g _ | .dropStart g _ | .abort g _ => g < m.nextGen
  | _ => True

theorem eq_of_update {f : GenId → Option ℕ} {x : GenId} {n id : ℕ}
    (h : update f x (some n) g = some id) : g = x ∧ id = n ∨ f g = some id := by
  by_cases hx : g = x
  · rw [hx, update_self] at h
    exact .inl ⟨hx, (Option.some.inj h).symm⟩
  · rw [update_of_ne hx] at h
    exact .inr h

variable [DecidableEq R] [DecidableEq K]

theorem wp_tables {α : Type} {ins : Instr R K E α} (hi : ins.Touching m) (h : Tables m) :
    ins.wp cfg t m fun m' _ _ => Tables m' := by
  obtain ⟨h1, h2, h3, h4⟩ := h
  have other {x g : GenId} (hx : x < m.nextGen) (hg : m.nextGen ≤ g) : g ≠ x :=
    fun e => absurd hx (Nat.not_lt.mpr (e ▸ hg))
  cases ins
  case insertTask x k =>
    refine ⟨fun g hg => ?_, fun e he => ?_, fun g id hg => ?_, fun g g' id hg hg' => ?_⟩
    · have hne := update_of_ne (other hi.1 hg) (some m.nextTask) m.taskId
      exact ⟨hne.trans (h1 g hg).1, (h1 g hg).2⟩
    · rcases List.mem_cons.mp he with rfl | he
      · exact update_self _ _ _
      · have hne : e.2 ≠ x := fun e' => by
          have := h2 e he
          rw [e', hi.2] at this
          cases this
        exact (update_of_ne hne _ _).trans (h2 e he)
    · rcases eq_of_update hg with ⟨-, rfl⟩ | hg
      · exact Nat.lt_succ_self _
      · exact (h3 g id hg).trans (Nat.lt_succ_self _)
    · have hlt {y : GenId} (hy : m.taskId y = some m.nextTask) : False :=
        Nat.lt_irrefl _ (h3 y _ hy)
      rcases eq_of_update hg with ⟨rfl, rfl⟩ | ho <;> rcases eq_of_update hg' with ⟨rfl, he⟩ | ho'
      · rfl
      · exact (hlt ho').elim
      · exact (hlt (he ▸ ho)).elim
      · exact h4 g g' id ho ho'
  case removeTask id k => exact ⟨h1, fun e he => h2 e (List.mem_filter.mp he).1, h3, h4⟩
  case newEntry i site k => exact ⟨fun g hg => h1 g (Nat.le_of_succ_le hg), h2, h3, h4⟩
  case exchangeActive x k =>
    refine ⟨fun _ => ⟨fun g hg => ?_, h2, h3, h4⟩, fun _ => ⟨h1, h2, h3, h4⟩⟩
    obtain ⟨a1, a2, a3⟩ := h1 g hg
    exact ⟨a1, (update_of_ne (other hi hg) _ _).trans a2, a3⟩
  case exchangeCancelling x current k =>
    refine ⟨fun _ => ⟨fun g hg => ?_, h2, h3, h4⟩, fun _ => ⟨h1, h2, h3, h4⟩,
      fun _ => ⟨h1, h2, h3, h4⟩, fun _ => ⟨h1, h2, h3, h4⟩, fun _ => ⟨h1, h2, h3, h4⟩⟩
    obtain ⟨a1, a2, a3⟩ := h1 g hg
    exact ⟨a1, (update_of_ne (other hi hg) _ _).trans a2, a3⟩
  case storeFinished x k =>
    refine ⟨fun g hg => ?_, h2, h3, h4⟩
    obtain ⟨a1, a2, a3⟩ := h1 g hg
    exact ⟨a1, (update_of_ne (other hi hg) _ _).trans a2, a3⟩
  case cancelToken x k =>
    refine ⟨fun g hg => ?_, h2, h3, h4⟩
    obtain ⟨a1, a2, a3, a4⟩ := h1 g hg
    exact ⟨a1, a2, (update_of_ne (other hi hg) _ _).trans a3, a4⟩
  case sendStart x k | dropStart x k =>
    refine ⟨fun g hg => ?_, h2, h3, h4⟩
    obtain ⟨a1, a2, a3, a4, a5⟩ := h1 g hg
    exact ⟨a1, a2, a3, (update_of_ne (other hi hg) _ _).trans a4, a5⟩
  case spawnTask x k =>
    refine ⟨fun g hg => ?_, h2, h3, h4⟩
    obtain ⟨a1, a2, a3, a4, a5, a6⟩ := h1 g hg
    exact ⟨a1, a2, a3, a4, (update_of_ne (other hi hg) _ _).trans a5, a6⟩
  case abort x k =>
    refine ⟨fun g hg => ?_, h2, h3, h4⟩
    obtain ⟨a1, a2, a3, a4, a5, a6⟩ := h1 g hg
    exact ⟨a1, a2, a3, a4, a5, (update_of_ne (other hi hg) _ _).trans a6⟩
  all_goals
    repeat' first
      | exact trivial
      | exact ⟨h1, h2, h3, h4⟩
      | apply And.intro
      | intro _

/-! ## What only the thread in charge does -/

/-- The generation an instruction registers, activates, finishes or publishes for. -/
def Instr.charged? {α : Type} : Instr R K E α → Option GenId
  | .insertTask g _ | .exchangeActive g _ | .spawnTask g _ | .storeFinished g _ | .send g _ _
  | .dropSender g _ => some g
  | _ => none

/-- What another thread leaves to the one in charge of `g`. -/
structure Own (g : GenId) (m m' : Memory R K E) : Prop where
  taskId : m'.taskId g = m.taskId g
  unspawned : m.task g = .unspawned → m'.task g = .unspawned
  active : m'.control g = .active → m.control g = .active
  finished : m'.control g = .finished → m.control g = .finished
  outcome : m'.outcome g = m.outcome g
  closed : m'.closed g = m.closed g

omit [DecidableEq R] [DecidableEq K] in
theorem charge_of_code (h : p.code.charged? = some g) : 0 < p.charge g := by
  revert h
  cases p using Pc.points
  all_goals
    intro h
    cases h
  all_goals
    exact isGen_pos g

omit [DecidableEq R] [DecidableEq K] in
theorem Own.refl (m : Memory R K E) : Own g m m := ⟨rfl, id, id, id, rfl, rfl⟩

theorem wp_own {α : Type} {ins : Instr R K E α} (h : ins.charged? ≠ some g) :
    ins.wp cfg t m fun m' _ _ => Own g m m' := by
  have ne {x : GenId} (hx : some x ≠ some g) : g ≠ x := fun e => hx (congrArg some e.symm)
  cases ins
  case insertTask x k => exact ⟨update_of_ne (ne h) _ _, id, id, id, rfl, rfl⟩
  case exchangeActive x k =>
    have hx : update m.control x .active g = m.control g := update_of_ne (ne h) _ _
    exact ⟨fun _ => ⟨rfl, id, (hx ▸ ·), (hx ▸ ·), rfl, rfl⟩, fun _ => .refl m⟩
  case exchangeCancelling x current k =>
    have hx {ph : Phase} (hph : ph ≠ .cancelling) (he : update m.control x .cancelling g = ph) :
        m.control g = ph := by
      by_cases hgx : g = x
      · rw [hgx, update_self] at he
        exact absurd he.symm hph
      · rwa [update_of_ne hgx] at he
    exact ⟨fun _ => ⟨rfl, id, hx (by decide), hx (by decide), rfl, rfl⟩, fun _ => .refl m,
      fun _ => .refl m, fun _ => .refl m, fun _ => .refl m⟩
  case storeFinished x k =>
    have hx : update m.control x .finished g = m.control g := update_of_ne (ne h) _ _
    exact ⟨rfl, id, (hx ▸ ·), (hx ▸ ·), rfl, rfl⟩
  case spawnTask x k =>
    exact ⟨rfl, (update_of_ne (ne h) _ m.task).trans, id, id, rfl, rfl⟩
  case send x outcome k =>
    exact ⟨fun _ => .refl m, fun _ => ⟨rfl, id, id, id, update_of_ne (ne h) _ _, rfl⟩⟩
  case dropSender x k => exact ⟨rfl, id, id, id, rfl, update_of_ne (ne h) _ _⟩
  all_goals
    repeat' first
      | exact trivial
      | exact ⟨rfl, id, id, id, rfl, rfl⟩
      | apply And.intro
      | intro _

/-- Other threads leave a generation to the thread in charge of it. -/
theorem own_step {s s' : State R K E} {a : Action R K E} {u : Tid} (h : step cfg s a = some s')
    (hx : Exclusive Pc.charge s) (hu : u < s.size) (hc : 0 < (s.pc u).charge g)
    (ha : a.actor ≠ some u) : Own g s.mem s'.mem := by
  refine mem_step (Own g s.mem) h (.refl _) ?_ ?_ ?_ ?_
  · rintro t p hat rfl hr
    refine wp_own fun hg => ha ?_
    rw [hat, hx.eq hr.1 hu (charge_of_code hg) hc]
  · rintro c m p - hc
    cases hc <;> exact ⟨rfl, id, id, id, rfl, rfl⟩
  · rintro x st ht
    refine ⟨rfl, fun hun => ?_, id, id, rfl, rfl⟩
    by_cases hgx : g = x
    · subst hgx
      cases ht <;> simp_all
    · exact (update_of_ne hgx _ _).trans hun
  · rintro m c hh
    cases hh <;> exact ⟨rfl, id, id, id, rfl, rfl⟩

end Resourcery
