import Mathlib.Tactic.CasesM
import Resourcery.Logic.Points

/-!
# Proof rules for acquisitions

A thread that acquires has done so from its call on, for one request, and no thread it starts
acquires. So a property of acquisitions survives every step when the steps of acquisitions keep it
and those of others leave it alone. What happens in an acquisition is an event of its thread.
-/

namespace Resourcery

open Interleaving Function Transition ResourceContext

variable {R K E : Type}

/-- `A` of the acquisition of a thread, if it is one. -/
def Pc.OfAcquire (A : Request R K → AcquirePc → Prop) : Pc R K E → Prop
  | .acquire q p => A q p
  | _ => True

/-- The thread acquires. -/
def Pc.isAcquiring : Pc R K E → Bool
  | .acquire .. => true
  | _ => false

theorem Pc.OfAcquire.free {A : Request R K → AcquirePc → Prop} {p : Pc R K E}
    (h : p.isAcquiring = false) : p.OfAcquire A := by
  cases p <;> trivial

theorem Pc.OfAcquire.imp {A A' : Request R K → AcquirePc → Prop} {p : Pc R K E}
    (h : p.OfAcquire A) (hA : ∀ q p, A q p → A' q p) : p.OfAcquire A' := by
  cases p with
  | acquire q p => exact hA q p h
  | _ => trivial

/-- What holds of all acquisitions holds of one that is given by its point. -/
theorem Pc.OfAcquire.at {A : Request R K → AcquirePc → Prop} {p : Pc R K E} (h : p.OfAcquire A)
    {q : Request R K} {p' : AcquirePc} (hp : p = .acquire q p') : A q p' := by
  rw [hp] at h
  exact h

/-! ## Events -/

/-- An event: an action with the state in which it is taken. -/
abbrev Event (R K E : Type) := State R K E × Action R K E

/-- Thread `u` takes a step at a point with `P`. -/
def Takes (u : Tid) (P : Memory R K E → Pc R K E → Prop) (e : Event R K E) : Prop :=
  u ∈ e.2.runner? ∧ P e.1.mem (e.1.pc u)

/-- The acquisition is about to make `g` of what it has built. -/
def Pc.Makes (g : GenId) (m : Memory R K E) : Pc R K E → Prop
  | .acquire _ (.create _ .newEntry) => g = m.nextGen
  | _ => False

theorem takes_run {P : Memory R K E → Pc R K E → Prop} {s : State R K E} {t : Tid} {ch : Choice} :
    Takes t P (s, .run t ch) ↔ P s.mem (s.pc t) :=
  ⟨fun h => h.2, fun h => ⟨rfl, h⟩⟩

theorem not_takes {P : Memory R K E → Pc R K E → Prop} {s : State R K E} {a : Action R K E}
    {u : Tid} (ha : ∀ ch, a ≠ .run u ch) : ¬ Takes u P (s, a) := by
  rintro ⟨h, -⟩
  obtain ⟨ch, rfl⟩ := run_of_runner h
  exact ha ch rfl

/-! ## Steps -/

/-- Where the future of an acquisition goes when it is dropped. -/
inductive AcquireJump : AcquirePc → AcquirePc → Prop
  | listener (n seen) : AcquireJump (.listener n seen) (.returned .dropped)
  | build (n generation) : AcquireJump (.create (some ⟨n, generation⟩) .build)
      (.guard n generation .dropped (.remove .entry))
  | buildUnique : AcquireJump (.create none .build) (.returned .dropped)

variable [DecidableEq R] [DecidableEq K] {cfg : Config R K} {t : Tid} {m : Memory R K E}

/-- A thread that acquires starts none that does. -/
theorem wp_acquires (q : Request R K) (p : AcquirePc) :
    (Pc.acquire q p : Pc R K E).code.wp cfg t m fun _ _ c =>
      ForSome (fun c => c.isAcquiring = false) c := by
  cases q, p using AcquirePc.points
  all_goals
    repeat' first
      | exact trivial
      | exact rfl
      | apply And.intro
      | intro _

/-- A thread that does not acquire goes on so. -/
theorem wp_not_acquiring {p : Pc R K E} (h : p.isAcquiring = false) :
    p.code.wp cfg t m fun _ p' c =>
      p'.isAcquiring = false ∧ ForSome (fun c => c.isAcquiring = false) c := by
  cases p using Pc.points
  all_goals try (cases h; done)
  case supervise_cleanup_entry =>
    refine ⟨⟨rfl, trivial⟩, fun _ => ⟨fun _ _ => ?_, fun _ => ⟨rfl, trivial⟩⟩⟩
    dsimp only
    split <;> exact ⟨rfl, trivial⟩
  all_goals
    repeat' first
      | exact trivial
      | exact rfl
      | apply And.intro
      | intro _

variable {s s' : State R K E} {a : Action R K E}

/-- **Rule for acquisitions**, with the choice of the step. -/
theorem forall_acquire_exec (A : Memory R K E → Tid → Request R K → AcquirePc → Prop)
    (h : step cfg s a = some s')
    (hstable : ∀ u q p, a.actor ≠ some u → s.pc u = .acquire q p → A s'.mem u q p)
    (hrun : ∀ t ch mv q p, a = .run t ch → s.Ready t → s.pc t = .acquire q p →
      execute cfg t ch s.mem (Pc.acquire q p).code = some mv → mv.pc.OfAcquire (A mv.mem t))
    (hjump : ∀ t q p p', a = .dropFuture t → s.pc t = .acquire q p → AcquireJump p p' →
      A s.mem t q p')
    (hcall : ∀ q, a = .call (.acquire q) → A s.mem s.size q .accepting ∧
      A s.mem s.size q (.create none .accepting)) (u : Tid) : (s'.pc u).OfAcquire (A s'.mem u) := by
  refine forall_pc_exec (fun m u p => p.OfAcquire (A m u)) h (fun u hu => ?_) ?_ ?_ ?_ ?_ u
  · cases hp : s.pc u
    case acquire q p => exact hstable u q p hu hp
    all_goals trivial
  · rintro t ch mv rfl hr he
    cases hp : s.pc t
    case acquire q p =>
      rw [hp] at he
      refine ⟨hrun t ch mv q p rfl hr hp he, ?_⟩
      have hc := (wp_acquires q p).sound he
      cases hch : mv.child with
      | none => trivial
      | some c =>
        rw [hch] at hc
        exact .free hc
    all_goals
      rw [hp] at he
      obtain ⟨h1, h2⟩ := (wp_not_acquiring rfl).sound he
      refine ⟨.free h1, ?_⟩
      cases hch : mv.child with
      | none => trivial
      | some c =>
        rw [hch] at h2
        exact .free h2
  · rintro t p p' hj hp -
    cases hj
    case listener => exact hjump _ _ _ _ rfl hp (.listener _ _)
    case build => exact hjump _ _ _ _ rfl hp (.build _ _)
    case buildUnique => exact hjump _ _ _ _ rfl hp .buildUnique
    all_goals trivial
  · rintro c m p rfl hc
    cases hc
    case acquire => exact (hcall _ rfl).1
    case spawn => exact (hcall _ rfl).2
    all_goals trivial
  · rintro m c hh
    cases hh
    trivial

/-- **Rule for acquisitions**, with the step as a weakest precondition. -/
theorem forall_acquire_step (A : Memory R K E → Tid → Request R K → AcquirePc → Prop)
    (h : step cfg s a = some s') (hA : ∀ u, (s.pc u).OfAcquire (A s.mem u))
    (hstable : ∀ u q p, a.actor ≠ some u → s.pc u = .acquire q p → A s'.mem u q p)
    (hrun : ∀ t q p, a.actor = some t → s.pc t = .acquire q p → A s.mem t q p →
      (Pc.acquire q p).code.wp cfg t s.mem fun m p' _ => p'.OfAcquire (A m t))
    (hjump : ∀ t q p p', a = .dropFuture t → s.pc t = .acquire q p → AcquireJump p p' →
      A s.mem t q p → A s.mem t q p')
    (hcall : ∀ q, a = .call (.acquire q) → A s.mem s.size q .accepting ∧
      A s.mem s.size q (.create none .accepting)) (u : Tid) : (s'.pc u).OfAcquire (A s'.mem u) := by
  have at_ {t : Tid} {q : Request R K} {p : AcquirePc} (hp : s.pc t = .acquire q p) :
      A s.mem t q p := by
    have := hA t
    rw [hp] at this
    exact this
  refine forall_acquire_exec A h hstable ?_ ?_ hcall u
  · rintro t ch mv q p rfl hr hp he
    exact (hrun t q p rfl hp (at_ hp)).sound he
  · exact fun t q p p' ha hp hj => hjump t q p p' ha hp hj (at_ hp)

end Resourcery
