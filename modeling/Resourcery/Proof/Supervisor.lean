import Resourcery.Proof.Growth
import Resourcery.Proof.Locks

/-!
# The phase and the supervisor table

Phase, table and token of a domain agree whenever the supervisor lock is free. `Agrees` says, for
each point at which a thread holds the lock, what it knows of the three; the thread that releases
the lock has restored the agreement.
-/

namespace Resourcery

open Interleaving Function Transition ResourceContext

variable {R K E : Type}

namespace Memory

/-- What phase, table and shutdown token say about each other while nobody holds the lock. -/
def Agree (m : Memory R K E) : Prop :=
  match m.phase with
  | .running => True
  | .shuttingDown => m.tasks ≠ [] ∧ m.shutdown = true
  | .terminated => m.tasks = [] ∧ m.shutdown = true

/-- Shutdown has begun, and the domain is not terminated with tasks left. -/
def Closing (m : Memory R K E) : Prop :=
  m.shutdown = true ∧ m.phase ≠ .running ∧ (m.phase = .terminated → m.tasks = [])

/-- Every supervised generation is among `gs`. -/
def Snapshot (m : Memory R K E) (gs : List GenId) : Prop := ∀ e ∈ m.tasks, e.2 ∈ gs

variable {m m' : Memory R K E}

theorem Accepting.agree (h : m.Accepting) : m.Agree := by
  unfold Agree
  rw [show m.phase = .running from h]
  trivial

theorem Agree.closing (h : m.Agree) (hp : m.phase ≠ .running) : m.Closing := by
  unfold Agree at h
  unfold Closing
  cases hm : m.phase <;> simp_all

theorem Agree.tasks_eq_nil (h : m.Agree) (ht : m.phase = .terminated) : m.tasks = [] := by
  unfold Agree at h
  rw [ht] at h
  exact h.1

theorem snapshot_of_nil (h : m.tasks = []) (gs : List GenId) : m.Snapshot gs := by
  simp [Snapshot, h]

theorem snapshot_of_eq {tasks : List (ℕ × GenId)} (h : m.tasks = tasks) :
    m.Snapshot (tasks.map Prod.snd) := by
  intro e he
  rw [h] at he
  exact List.mem_map_of_mem he

theorem Closing.agree (h : m.Closing) (ht : m.phase = .terminated ∨ m.tasks ≠ []) :
    m.Agree := by
  obtain ⟨h1, h2, h3⟩ := h
  unfold Agree
  cases hm : m.phase <;> simp_all

end Memory

/-! ## What the holder of the lock knows -/

namespace Domain

def RegisterPc.Agrees (m : Memory R K E) : RegisterPc → Prop
  | .accepting | .lock => True
  | .acceptingLocked | .dropSupervisor _ => m.Agree
  | .activate | .insert => m.Accepting

def FinishedPc.Agrees (m : Memory R K E) : FinishedPc → Prop
  | .lock | .notify => True
  | .remove | .dropSupervisor _ => m.Agree
  | .accepting => m.Accepting ∨ m.Closing
  | .isEmpty => m.Closing
  | .storeTerminated => m.Closing ∧ m.tasks = []

def CancelPc.Agrees (m : Memory R K E) : CancelPc → Prop
  | .lock | .next _ | .control .. => True
  | .exchange => m.Agree
  | .token => m.phase = .shuttingDown
  | .loadPhase => m.Closing
  | .collect => m.Closing ∧ m.phase = .shuttingDown
  | .storeTerminated => m.Closing ∧ m.tasks = []
  | .notify => m.Agree ∧ m.phase = .terminated
  | .dropSupervisor controls => m.Agree ∧ m.Snapshot controls

def ShutdownPc.Agrees (m : Memory R K E) : ShutdownPc → Prop
  | .cancel p => p.Agrees m
  | _ => True

def TerminatePc.Agrees (m : Memory R K E) : TerminatePc → Prop
  | .cancel p => p.Agrees m
  | .collect => m.Agree
  | .dropSupervisor aborts => m.Agree ∧ m.Snapshot aborts
  | .shutdown p => p.Agrees m
  | _ => True

end Domain

/-- What a thread that holds the supervisor lock knows at its program point. -/
def Pc.Agrees (m : Memory R K E) : Pc R K E → Prop
  | .acquire _ (.create _ (.register _ p)) => p.Agrees m
  | .supervise _ _ _ _ (.finalize _ p) => p.Agrees m
  | .cancel p => p.Agrees m
  | .shutdown p => p.Agrees m
  | .terminate p => p.Agrees m
  | _ => True

/-- The lock is free only when phase, table and token agree. -/
def Memory.Settled (m : Memory R K E) : Prop := m.supervisor = none → m.Agree

variable {cfg : Config R K} {t : Tid} {m m' : Memory R K E} {p : Pc R K E}

section Stable

variable (h1 : m'.phase = m.phase) (h2 : m'.tasks = m.tasks) (h3 : m'.shutdown = m.shutdown)
include h1 h2 h3

theorem Memory.Agree.congr (h : m.Agree) : m'.Agree := by
  unfold Memory.Agree at *
  rw [h1, h2, h3]
  exact h

theorem Memory.Closing.congr (h : m.Closing) : m'.Closing := by
  unfold Memory.Closing at *
  rw [h1, h2, h3]
  exact h

omit h1 h3 in
theorem Memory.Snapshot.congr {gs : List GenId} (h : m.Snapshot gs) : m'.Snapshot gs := by
  unfold Memory.Snapshot
  rw [h2]
  exact h

theorem Domain.CancelPc.Agrees.congr {p : CancelPc} (h : p.Agrees m) : p.Agrees m' := by
  cases p
  case exchange => exact Memory.Agree.congr h1 h2 h3 h
  case notify => exact ⟨h.1.congr h1 h2 h3, h1.trans h.2⟩
  case dropSupervisor => exact ⟨h.1.congr h1 h2 h3, h.2.congr h2⟩
  case token => exact h1.trans h
  case loadPhase => exact Memory.Closing.congr h1 h2 h3 h
  case collect => exact ⟨h.1.congr h1 h2 h3, h1.trans h.2⟩
  case storeTerminated => exact ⟨h.1.congr h1 h2 h3, h2.trans h.2⟩
  all_goals trivial

theorem Domain.ShutdownPc.Agrees.congr {p : ShutdownPc} (h : p.Agrees m) : p.Agrees m' := by
  cases p
  case cancel p => exact CancelPc.Agrees.congr h1 h2 h3 h
  all_goals trivial

theorem Pc.Agrees.congr (h : p.Agrees m) : p.Agrees m' := by
  unfold Pc.Agrees at *
  split <;> simp only at h
  case h_1 p =>
    cases p
    case acceptingLocked | dropSupervisor => exact Memory.Agree.congr h1 h2 h3 h
    case activate | insert => exact h1.trans h
    all_goals trivial
  case h_2 p =>
    cases p
    case remove | dropSupervisor => exact Memory.Agree.congr h1 h2 h3 h
    case accepting => exact h.imp (h1.trans ·) (Memory.Closing.congr h1 h2 h3)
    case isEmpty => exact Memory.Closing.congr h1 h2 h3 h
    case storeTerminated => exact ⟨h.1.congr h1 h2 h3, h2.trans h.2⟩
    all_goals trivial
  case h_3 p => exact Domain.CancelPc.Agrees.congr h1 h2 h3 h
  case h_4 p => exact Domain.ShutdownPc.Agrees.congr h1 h2 h3 h
  case h_5 p =>
    cases p
    case cancel p => exact Domain.CancelPc.Agrees.congr h1 h2 h3 h
    case collect => exact Memory.Agree.congr h1 h2 h3 h
    case dropSupervisor => exact ⟨h.1.congr h1 h2 h3, h.2.congr h2⟩
    case shutdown p => exact Domain.ShutdownPc.Agrees.congr h1 h2 h3 h
    all_goals trivial
  case h_6 => trivial

end Stable

theorem Pc.agrees_of_not_supervises (h : p.supervises = false) : p.Agrees m := by
  unfold Pc.supervises at h
  unfold Pc.Agrees
  split <;> simp only at h
  case h_1 p => cases p <;> trivial
  case h_2 p => cases p <;> trivial
  case h_3 p => cases p <;> trivial
  case h_4 p =>
    cases p
    case cancel p => cases p <;> trivial
    all_goals trivial
  case h_5 p =>
    cases p
    case cancel p => cases p <;> trivial
    case shutdown p =>
      cases p
      case cancel p => cases p <;> trivial
      all_goals trivial
    all_goals trivial
  case h_6 => trivial

/-- Nobody else touches phase, table and token while a thread holds the lock. -/
theorem Pc.Agrees.stable {u : Tid} (h : p.Agrees m) (hl : Locked cfg m u p)
    (hk : Keeps cfg u m m') : p.Agrees m' := by
  cases hs : p.supervises with
  | false => exact agrees_of_not_supervises hs
  | true =>
    obtain ⟨-, h1, h2, h3⟩ := hk.supervisor (hl.supervisor hs)
    exact h.congr h1 h2 h3

/-! ## The operations restore the agreement -/

variable [DecidableEq R] [DecidableEq K]

section Operations

variable {α : Type} {Q : Memory R K E → α → Option α → Prop} {ret : α}

omit [DecidableEq R] [DecidableEq K] in
theorem held_settled (h : m.supervisor = some t) : m.Settled := fun h' => by
  rw [h] at h'; cases h'

theorem Domain.wp_cancel_agrees {goto : CancelPc → α} {p : CancelPc}
    (hl : p.locked = true → m.supervisor = some t) (hp : p.Agrees m) (hm : m.Settled)
    (hgoto : ∀ m' p', p'.Agrees m' → m'.Settled → Q m' (goto p') none)
    (hret : ∀ m', m'.Settled → Q m' ret none) : (cancel goto ret p).wp cfg t m Q := by
  cases p
  case lock => exact fun hs => hgoto _ _ (hm hs) (held_settled rfl)
  case exchange =>
    exact ⟨fun _ => hgoto _ _ rfl (held_settled (hl rfl)), fun hr => hgoto _ _ (hp.closing hr) hm⟩
  case token =>
    have hph : m.phase = .shuttingDown := hp
    refine hgoto _ _ ⟨rfl, ?_, ?_⟩ (held_settled (hl rfl))
    · simp [hph]
    · simp [hph]
  case loadPhase =>
    exact ⟨fun h => absurd h hp.2.1, fun h => hgoto _ _ ⟨hp, h⟩ hm,
      fun h => hgoto _ _ ⟨hp.agree (.inl h), Memory.snapshot_of_nil (hp.2.2 h) _⟩ hm⟩
  case collect =>
    refine ⟨fun h => hgoto _ _ ⟨hp.1, h⟩ hm, fun e es h => hgoto _ _ ?_ hm⟩
    exact ⟨hp.1.agree (.inr (by simp [h])), Memory.snapshot_of_eq h⟩
  case storeTerminated => exact hgoto _ _ ⟨⟨hp.2, hp.1.1⟩, rfl⟩ (held_settled (hl rfl))
  case notify =>
    exact hgoto _ _ ⟨hp.1, Memory.snapshot_of_nil (hp.1.tasks_eq_nil hp.2) _⟩
      (held_settled (hl rfl))
  case dropSupervisor controls => exact hgoto _ _ trivial fun _ => hp.1
  case next controls => exact ⟨fun _ => hret _ hm, fun _ _ _ => hgoto _ _ trivial hm⟩
  case control g rest p =>
    exact Control.wp_cancel (fun _ _ _ => hgoto _ _ trivial hm) fun _ _ => hgoto _ _ trivial hm

theorem Domain.wp_shutdown_agrees {goto : ShutdownPc → α} {p : ShutdownPc}
    (hl : p.locked = true → m.supervisor = some t) (hp : p.Agrees m) (hm : m.Settled)
    (hgoto : ∀ m' p', p'.Agrees m' → m'.Settled → Q m' (goto p') none) :
    (shutdown goto p).wp cfg t m Q := by
  cases p
  case cancel p =>
    exact wp_cancel_agrees hl hp hm (fun m' p' => hgoto m' (.cancel p'))
      fun m' h => hgoto m' .notified trivial h
  case notified => exact hgoto _ _ trivial hm
  case loadPhase seen =>
    exact ⟨fun _ => hgoto _ _ trivial hm, fun _ => hgoto _ _ trivial hm,
      fun _ => hgoto _ _ trivial hm⟩
  case wait seen => exact fun _ => hgoto _ _ trivial hm
  all_goals trivial

theorem Domain.wp_register_agrees {g : GenId} {goto : RegisterPc → α} {ret : Option ℕ → α}
    {p : RegisterPc} (hl : p.locked = true → m.supervisor = some t) (hp : p.Agrees m)
    (hm : m.Settled) (hgoto : ∀ m' p', p'.Agrees m' → m'.Settled → Q m' (goto p') none)
    (hret : ∀ m' id, m'.Settled → Q m' (ret id) none) : (register g goto ret p).wp cfg t m Q := by
  cases p
  case accepting => exact ⟨fun _ => hgoto _ _ trivial hm, fun _ => hret _ _ hm⟩
  case lock => exact fun hs => hgoto _ _ (hm hs) (held_settled rfl)
  case acceptingLocked => exact ⟨fun h => hgoto _ _ h hm, fun _ => hgoto _ _ hp hm⟩
  case activate =>
    exact ⟨fun _ => hgoto _ _ hp (held_settled (hl rfl)),
      fun _ => hgoto _ _ (Memory.Accepting.agree hp) hm⟩
  case insert => exact hgoto _ _ (Memory.Accepting.agree hp) (held_settled (hl rfl))
  case dropSupervisor id => exact hret _ _ fun _ => hp

theorem Domain.wp_taskFinished_agrees {id : ℕ} {goto : FinishedPc → α} {p : FinishedPc}
    (hl : p.locked = true → m.supervisor = some t) (hp : p.Agrees m) (hm : m.Settled)
    (hgoto : ∀ m' p', p'.Agrees m' → m'.Settled → Q m' (goto p') none)
    (hret : ∀ m', m'.Settled → Q m' ret none) : (taskFinished id goto ret p).wp cfg t m Q := by
  cases p
  case lock => exact fun hs => hgoto _ _ (hm hs) (held_settled rfl)
  case remove =>
    refine hgoto _ _ ?_ (held_settled (hl rfl))
    by_cases hr : m.phase = .running
    · exact .inl hr
    · obtain ⟨h1, h2, h3⟩ := hp.closing hr
      exact .inr ⟨h1, h2, fun ht => by simp [h3 ht]⟩
  case accepting =>
    exact ⟨fun h => hgoto _ _ (Memory.Accepting.agree h) hm,
      fun h => hgoto _ _ (hp.resolve_left h) hm⟩
  case isEmpty =>
    refine ⟨fun h => hgoto _ _ ⟨hp, h⟩ hm, fun e es h => hgoto _ _ ?_ hm⟩
    exact hp.agree (.inr (by simp [h]))
  case storeTerminated => exact hgoto _ _ ⟨hp.2, hp.1.1⟩ (held_settled (hl rfl))
  case dropSupervisor notify =>
    cases notify
    · exact hret _ fun _ => hp
    · exact hgoto _ _ trivial fun _ => hp
  case notify => exact hret _ hm

end Operations

/-- Every instruction outside these operations leaves phase, table and token alone. -/
theorem agrees_run (hl : Locked cfg m t p) (hp : p.Agrees m) (hm : m.Settled) :
    p.code.wp cfg t m fun m' p' c =>
      (m'.Settled ∧ p'.Agrees m') ∧ ForSome (Pc.Agrees m') c := by
  cases p using Pc.operations
  case' acquire q p => cases q, p using AcquirePc.points
  case' supervise i g id site p => cases site, p using SupervisePc.points
  case cancel p =>
    exact Domain.wp_cancel_agrees hl.supervisor hp hm (fun _ _ h h' => ⟨⟨h', h⟩, trivial⟩)
      fun _ h => ⟨⟨h, trivial⟩, trivial⟩
  case shutdown p =>
    exact Domain.wp_shutdown_agrees hl.supervisor hp hm fun _ _ h h' => ⟨⟨h', h⟩, trivial⟩
  case terminate_cancel p =>
    rw [Pc.code_terminateCancel]
    exact Domain.wp_cancel_agrees hl.supervisor hp hm (fun _ _ h h' => ⟨⟨h', h⟩, trivial⟩)
      fun _ h => ⟨⟨h, trivial⟩, trivial⟩
  case terminate_lock => exact fun hs => ⟨⟨held_settled rfl, hm hs⟩, trivial⟩
  case terminate_collect =>
    exact ⟨fun h => ⟨⟨hm, hp, Memory.snapshot_of_eq h⟩, trivial⟩,
      fun _ _ h => ⟨⟨hm, hp, Memory.snapshot_of_eq h⟩, trivial⟩⟩
  case terminate_dropSupervisor => exact ⟨⟨fun _ => hp.1, trivial⟩, trivial⟩
  case terminate_abort =>
    exact ⟨fun _ => ⟨⟨hm, trivial⟩, trivial⟩, fun _ _ _ => ⟨⟨hm, trivial⟩, trivial⟩⟩
  case terminate_abortOne => exact ⟨⟨hm, trivial⟩, trivial⟩
  case terminate_shutdown p =>
    rw [Pc.code_terminateShutdown]
    exact Domain.wp_shutdown_agrees hl.supervisor hp hm fun _ _ h h' => ⟨⟨h', h⟩, trivial⟩
  case acquire.create_register_accepting | acquire.create_register_lock
      | acquire.create_register_acceptingLocked | acquire.create_register_activate
      | acquire.create_register_insert | acquire.create_register_dropSupervisor_none
      | acquire.create_register_dropSupervisor_some =>
    rw [Pc.code_register]
    refine Domain.wp_register_agrees hl.supervisor hp hm (fun _ _ h h' => ⟨⟨h', h⟩, trivial⟩) ?_
    rintro m' (_ | id) h <;> exact ⟨⟨h, trivial⟩, trivial⟩
  case supervise.finalize_lock | supervise.finalize_remove | supervise.finalize_accepting
      | supervise.finalize_isEmpty | supervise.finalize_storeTerminated
      | supervise.finalize_dropSupervisor_false | supervise.finalize_dropSupervisor_true
      | supervise.finalize_notify =>
    rw [Pc.code_finalize]
    exact Domain.wp_taskFinished_agrees hl.supervisor hp hm (fun _ _ h h' => ⟨⟨h', h⟩, trivial⟩)
      fun _ h => ⟨⟨h, trivial⟩, trivial⟩
  all_goals
    repeat' first
      | exact hm
      | exact trivial
      | apply And.intro
      | refine iteInduction (fun _ => ?_) (fun _ => ?_)
      | intro _

theorem agrees_of_reach {ok : State R K E → Action R K E → Prop} {s : State R K E}
    (hr : Reach (step cfg) ok State.new s) : s.mem.Settled ∧ ∀ u, (s.pc u).Agrees s.mem := by
  refine hr.invariant_of_reach (fun s => s.mem.Settled ∧ ∀ u, (s.pc u).Agrees s.mem) ?_ ?_
  · exact ⟨fun _ => trivial, fun _ => trivial⟩
  · intro s a s' hs ⟨hm, ih⟩ _ h
    have hl := locked_of_reach hs
    refine inv_step Memory.Settled (fun m _ p => p.Agrees m) h hm ih
      (fun _ u hu => (ih u).stable (hl u) (keeps_step h hl hu)) ?_ ?_ ?_ ?_ ?_
    · rintro t p - rfl - hp
      exact agrees_run (hl t) hp hm
    · rintro t p p' hj - - hp
      cases hj <;> trivial
    · rintro c m p rfl hc
      cases hc <;> exact ⟨hm, trivial⟩
    · exact fun _ _ _ => hm
    · rintro m c hh
      cases hh <;> exact ⟨hm, trivial⟩

/-! ## Registration ends with the acceptance -/

/-- A task is inserted while the domain accepts. -/
def Instr.Timely {α : Type} (m : Memory R K E) : Instr R K E α → Prop
  | .insertTask .. => m.Accepting
  | _ => True

omit [DecidableEq R] [DecidableEq K] in
theorem timely_of_agrees (h : p.Agrees m) : p.code.Timely m := by
  cases p using Pc.points
  case acquire_create_register_insert => exact h
  all_goals trivial

/-- A step of a domain that no longer accepts adds nothing to the table. -/
theorem wp_tasks {α : Type} {ins : Instr R K E α} (ht : ins.Timely m) (hm : ¬ m.Accepting) :
    ins.wp cfg t m fun m' _ _ => ∀ e ∈ m'.tasks, e ∈ m.tasks := by
  cases ins
  case insertTask => exact absurd ht hm
  case removeTask => exact fun e he => (List.mem_filter.mp he).1
  all_goals
    repeat' first
      | exact trivial
      | exact fun _ h => h
      | apply And.intro
      | intro _

theorem tasks_step {s s' : State R K E} {a : Action R K E} (h : step cfg s a = some s')
    (hA : ∀ u, (s.pc u).Agrees s.mem) (hm : ¬ s.mem.Accepting) :
    ∀ e ∈ s'.mem.tasks, e ∈ s.mem.tasks := by
  refine mem_step (fun m => ∀ e ∈ m.tasks, e ∈ s.mem.tasks) h (fun _ he => he) ?_ ?_ ?_ ?_
  · rintro t p - rfl -
    exact wp_tasks (timely_of_agrees (hA t)) hm
  · rintro c m p - hc
    cases hc <;> exact fun _ he => he
  · exact fun _ _ _ _ he => he
  · rintro m c hh
    cases hh <;> exact fun _ he => he

/-- **The table only shrinks** once the domain has stopped accepting. -/
theorem tasks_of_reach {ok : State R K E → Action R K E → Prop} {s s' : State R K E}
    (hs : Reach (step cfg) ok State.new s) (hr : Reach (step cfg) ok s s')
    (hm : ¬ s.mem.Accepting) : ∀ e ∈ s'.mem.tasks, e ∈ s.mem.tasks := by
  refine (hr.invariant_of_reach (fun u => ¬ u.mem.Accepting ∧ ∀ e ∈ u.mem.tasks, e ∈ s.mem.tasks)
    ⟨hm, fun _ he => he⟩ ?_).2
  rintro u a u' hu ⟨hm, ih⟩ - h
  have hA := (agrees_of_reach (hs.trans hu)).2
  exact ⟨fun ha => hm ((grows_step h).accepting ha), fun e he => ih e (tasks_step h hA hm e he)⟩

end Resourcery
