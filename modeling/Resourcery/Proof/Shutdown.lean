import Resourcery.Proof.Supervisor

/-!
# The way to termination

What a thread knows of the phase without the lock: phases do not go back, so what `cancel` or a
load has established holds for good. From it follow that the notification of quiescence comes
after termination and that nobody waits for one that has passed.
-/

namespace Resourcery

open Interleaving Function Transition ResourceContext

variable {R K E : Type}

/-- The domain has stopped accepting and cancelled its token. -/
def Memory.Stopped (m : Memory R K E) : Prop := ¬ m.Accepting ∧ m.shutdown = true

namespace Domain

def FinishedPc.Past (m : Memory R K E) : FinishedPc → Prop
  | .isEmpty | .storeTerminated => ¬ m.Accepting
  | .dropSupervisor true | .notify => m.phase = .terminated
  | _ => True

def CancelPc.Past (m : Memory R K E) : CancelPc → Prop
  | .lock | .exchange => True
  | .token => ¬ m.Accepting
  | .notify => m.Stopped ∧ m.phase = .terminated
  | _ => m.Stopped

def ShutdownPc.Past (m : Memory R K E) : ShutdownPc → Prop
  | .cancel p => p.Past m
  | .notified | .dropped => m.Stopped
  | .loadPhase seen => m.Stopped ∧ (0 < seen → m.phase = .terminated)
  | .wait seen => m.Stopped ∧ seen = 0
  | .returned => m.Stopped ∧ m.phase = .terminated

def TerminatePc.Past (m : Memory R K E) : TerminatePc → Prop
  | .cancel p => p.Past m
  | .shutdown p => p.Past m
  | _ => m.Stopped

end Domain

/-- What a thread knows of the phase for good. -/
def Pc.Past (m : Memory R K E) : Pc R K E → Prop
  | .supervise _ _ _ _ (.finalize _ p) => p.Past m
  | .cancel p => p.Past m
  | .cancelled => m.Stopped
  | .shutdown p => p.Past m
  | .terminate p => p.Past m
  | _ => True

/-- The notification of quiescence comes after termination. -/
def Memory.Quiet (m : Memory R K E) : Prop := 0 < m.quiescent → m.phase = .terminated

variable {cfg : Config R K} {t : Tid} {m m' : Memory R K E} {p : Pc R K E}

theorem not_accepting_of_terminated (h : m.phase = .terminated) : ¬ m.Accepting := by
  unfold Memory.Accepting
  rw [h]
  decide

theorem not_accepting_of_shuttingDown (h : m.phase = .shuttingDown) : ¬ m.Accepting := by
  unfold Memory.Accepting
  rw [h]
  decide

theorem Memory.Stopped.mono (h : m.Stopped) (hg : Grows m m') : m'.Stopped :=
  ⟨fun ha => h.1 (hg.accepting ha), hg.shutdown h.2⟩

theorem Domain.CancelPc.Past.mono {p : CancelPc} (h : p.Past m) (hg : Grows m m') :
    p.Past m' := by
  cases p
  case lock | exchange => trivial
  case token => exact fun ha => h (hg.accepting ha)
  case notify => exact ⟨h.1.mono hg, hg.terminated h.2⟩
  all_goals exact Memory.Stopped.mono h hg

theorem Domain.ShutdownPc.Past.mono {p : ShutdownPc} (h : p.Past m) (hg : Grows m m') :
    p.Past m' := by
  cases p
  case cancel p => exact CancelPc.Past.mono h hg
  case notified | dropped => exact Memory.Stopped.mono h hg
  case loadPhase => exact ⟨h.1.mono hg, fun hs => hg.terminated (h.2 hs)⟩
  case wait => exact ⟨h.1.mono hg, h.2⟩
  case returned => exact ⟨h.1.mono hg, hg.terminated h.2⟩

/-- What is known of the phase stays known. -/
theorem Pc.Past.mono (h : p.Past m) (hg : Grows m m') : p.Past m' := by
  cases p
  case supervise p =>
    cases p
    case finalize p =>
      cases p
      case isEmpty | storeTerminated => exact fun ha => h (hg.accepting ha)
      case dropSupervisor notify =>
        cases notify
        · trivial
        · exact hg.terminated h
      case notify => exact hg.terminated h
      all_goals trivial
    all_goals trivial
  case cancel p => exact Domain.CancelPc.Past.mono h hg
  case cancelled => exact Memory.Stopped.mono h hg
  case shutdown p => exact Domain.ShutdownPc.Past.mono h hg
  case terminate p =>
    cases p
    case cancel p => exact Domain.CancelPc.Past.mono h hg
    case shutdown p => exact Domain.ShutdownPc.Past.mono h hg
    all_goals exact Memory.Stopped.mono h hg
  all_goals trivial

variable [DecidableEq R] [DecidableEq K]

section Operations

variable {α : Type} {Q : Memory R K E → α → Option α → Prop} {ret : α}

theorem Domain.wp_cancel_past {goto : CancelPc → α} {p : CancelPc} (hp : p.Past m)
    (ha : p.Agrees m) (hm : m.Quiet)
    (hgoto : ∀ m' p', p'.Past m' → m'.Quiet → Q m' (goto p') none)
    (hret : ∀ m', m'.Stopped → m'.Quiet → Q m' ret none) :
    (cancel goto ret p).wp cfg t m Q := by
  cases p
  case lock => exact fun _ => hgoto _ _ trivial hm
  case exchange =>
    refine ⟨fun h => hgoto _ _ (not_accepting_of_shuttingDown rfl) fun hq => ?_,
      fun h => hgoto _ _ ⟨h, (Memory.Agree.closing ha h).1⟩ hm⟩
    exact absurd h (not_accepting_of_terminated (hm hq))
  case token => exact hgoto _ _ ⟨hp, rfl⟩ hm
  case loadPhase =>
    exact ⟨fun _ => hgoto _ _ hp hm, fun _ => hgoto _ _ hp hm, fun _ => hgoto _ _ hp hm⟩
  case collect => exact ⟨fun _ => hgoto _ _ hp hm, fun _ _ _ => hgoto _ _ hp hm⟩
  case storeTerminated =>
    exact hgoto _ _ ⟨⟨not_accepting_of_terminated rfl, hp.2⟩, rfl⟩ fun _ => rfl
  case notify => exact hgoto _ _ hp.1 fun _ => hp.2
  case dropSupervisor controls => exact hgoto _ _ hp hm
  case next controls => exact ⟨fun _ => hret _ hp hm, fun _ _ _ => hgoto _ _ hp hm⟩
  case control g rest p =>
    exact Control.wp_cancel (fun _ _ _ => hgoto _ _ hp hm) fun _ _ => hgoto _ _ hp hm

theorem Domain.wp_shutdown_past {goto : ShutdownPc → α} {p : ShutdownPc} (hp : p.Past m)
    (ha : p.Agrees m) (hm : m.Quiet)
    (hgoto : ∀ m' p', p'.Past m' → m'.Quiet → Q m' (goto p') none) :
    (shutdown goto p).wp cfg t m Q := by
  cases p
  case cancel p =>
    exact wp_cancel_past hp ha hm (fun m' p' => hgoto m' (.cancel p')) fun m' => hgoto m' .notified
  case notified => exact hgoto _ _ ⟨hp, hm⟩ hm
  case loadPhase seen =>
    -- a notification that has passed was that of a terminated domain
    have hseen (h : m.phase ≠ .terminated) : seen = 0 :=
      Nat.eq_zero_of_not_pos fun hs => h (hp.2 hs)
    refine ⟨fun h => absurd h hp.1.1, fun h => hgoto _ _ ⟨hp.1, hseen ?_⟩ hm,
      fun h => hgoto _ _ ⟨hp.1, h⟩ hm⟩
    rw [h]
    decide
  case wait seen => exact fun _ => hgoto _ _ hp.1 hm
  all_goals trivial

theorem Domain.wp_taskFinished_past {id : ℕ} {goto : FinishedPc → α} {p : FinishedPc}
    (hp : p.Past m) (hm : m.Quiet)
    (hgoto : ∀ m' p', p'.Past m' → m'.Quiet → Q m' (goto p') none)
    (hret : ∀ m', m'.Quiet → Q m' ret none) : (taskFinished id goto ret p).wp cfg t m Q := by
  cases p
  case lock => exact fun _ => hgoto _ _ trivial hm
  case remove => exact hgoto _ _ trivial hm
  case accepting => exact ⟨fun _ => hgoto _ _ trivial hm, fun h => hgoto _ _ h hm⟩
  case isEmpty => exact ⟨fun _ => hgoto _ _ hp hm, fun _ _ _ => hgoto _ _ trivial hm⟩
  case storeTerminated => exact hgoto _ _ rfl fun _ => rfl
  case dropSupervisor notify =>
    cases notify
    · exact hret _ hm
    · exact hgoto _ _ hp hm
  case notify => exact hret _ fun _ => hp

end Operations

theorem past_run (hp : p.Past m) (ha : p.Agrees m) (hm : m.Quiet) :
    p.code.wp cfg t m fun m' p' c => (m'.Quiet ∧ p'.Past m') ∧ ForSome (Pc.Past m') c := by
  cases p using Pc.operations
  case' acquire q p => cases q, p using AcquirePc.points
  case' supervise i g id site p => cases site, p using SupervisePc.points
  case cancel p =>
    exact Domain.wp_cancel_past hp ha hm (fun _ _ h h' => ⟨⟨h', h⟩, trivial⟩)
      fun _ h h' => ⟨⟨h', h⟩, trivial⟩
  case shutdown p =>
    exact Domain.wp_shutdown_past hp ha hm fun _ _ h h' => ⟨⟨h', h⟩, trivial⟩
  case terminate_cancel p =>
    rw [Pc.code_terminateCancel]
    exact Domain.wp_cancel_past hp ha hm (fun _ _ h h' => ⟨⟨h', h⟩, trivial⟩)
      fun _ h h' => ⟨⟨h', h⟩, trivial⟩
  case terminate_lock => exact fun _ => ⟨⟨hm, hp⟩, trivial⟩
  case terminate_collect =>
    exact ⟨fun _ => ⟨⟨hm, hp⟩, trivial⟩, fun _ _ _ => ⟨⟨hm, hp⟩, trivial⟩⟩
  case terminate_dropSupervisor => exact ⟨⟨hm, hp⟩, trivial⟩
  case terminate_abort =>
    exact ⟨fun _ => ⟨⟨hm, trivial⟩, trivial⟩, fun _ _ _ => ⟨⟨hm, hp⟩, trivial⟩⟩
  case terminate_abortOne => exact ⟨⟨hm, hp⟩, trivial⟩
  case terminate_shutdown p =>
    rw [Pc.code_terminateShutdown]
    exact Domain.wp_shutdown_past hp ha hm fun _ _ h h' => ⟨⟨h', h⟩, trivial⟩
  case supervise.finalize_lock | supervise.finalize_remove | supervise.finalize_accepting
      | supervise.finalize_isEmpty | supervise.finalize_storeTerminated
      | supervise.finalize_dropSupervisor_false | supervise.finalize_dropSupervisor_true
      | supervise.finalize_notify =>
    rw [Pc.code_finalize]
    exact Domain.wp_taskFinished_past hp hm (fun _ _ h h' => ⟨⟨h', h⟩, trivial⟩)
      fun _ h => ⟨⟨h, trivial⟩, trivial⟩
  all_goals
    repeat' first
      | exact hm
      | exact trivial
      | apply And.intro
      | refine iteInduction (fun _ => ?_) (fun _ => ?_)
      | intro _

theorem past_of_reach {ok : State R K E → Action R K E → Prop} {s : State R K E}
    (hr : Reach (step cfg) ok State.new s) : s.mem.Quiet ∧ ∀ u, (s.pc u).Past s.mem := by
  refine hr.invariant_of_reach (fun s => s.mem.Quiet ∧ ∀ u, (s.pc u).Past s.mem) ?_ ?_
  · exact ⟨fun h => absurd h (Nat.lt_irrefl 0), fun _ => trivial⟩
  · intro s a s' hs ⟨hm, ih⟩ _ h
    have hA := (agrees_of_reach hs).2
    refine inv_step Memory.Quiet (fun m _ p => p.Past m) h hm ih
      (fun _ u _ => (ih u).mono (grows_step h)) ?_ ?_ ?_ ?_ ?_
    · rintro t p - rfl - hp
      exact past_run hp (hA t) hm
    · rintro t p p' hj - - hp
      cases hj
      case shutdown | terminate => exact hp.1
      all_goals trivial
    · rintro c m p rfl hc
      cases hc <;> exact ⟨hm, trivial⟩
    · exact fun _ _ _ => hm
    · rintro m c hh
      cases hh <;> exact ⟨hm, trivial⟩

/-! ## Phase and supervisor -/

/-- The three states of a domain that nobody is working on. -/
def Memory.Describes (m : Memory R K E) : DomainPhase → Prop
  | .running => m.phase = .running
  | .shuttingDown => m.phase = .shuttingDown ∧ m.tasks ≠ [] ∧ m.shutdown = true
  | .terminated => m.phase = .terminated ∧ m.tasks = [] ∧ m.shutdown = true

omit [DecidableEq R] [DecidableEq K] in
theorem Memory.Agree.describes (h : m.Agree) : ∃! ph, m.Describes ph := by
  refine ⟨m.phase, ?_, ?_⟩
  · unfold Memory.Agree at h
    cases hm : m.phase <;> rw [hm] at h <;> first | exact hm | exact ⟨hm, h⟩
  · rintro (_ | _ | _) hph
    · exact Eq.symm hph
    · exact hph.1.symm
    · exact hph.1.symm

/-- The point of `shutdown` at which it waits for quiescence. -/
def Pc.awaitsQuiescence : Pc R K E → Option ℕ
  | .shutdown (.wait seen) | .terminate (.shutdown (.wait seen)) => some seen
  | _ => none

theorem notified_of_reach {ok : State R K E → Action R K E → Prop} {s : State R K E}
    (hr : Reach (step cfg) ok State.new s) (hq : 0 < s.mem.quiescent) {seen : ℕ}
    (hw : (s.pc t).awaitsQuiescence = some seen) : seen < s.mem.quiescent := by
  have hp := (past_of_reach hr).2 t
  unfold Pc.awaitsQuiescence at hw
  split at hw <;> cases hw
  all_goals
    rename_i heq
    rw [heq] at hp
    obtain ⟨-, rfl⟩ := hp
    exact hq

theorem snapshot_of_reach {ok : State R K E → Action R K E → Prop} {s s' : State R K E}
    (hs : Reach (step cfg) ok State.new s) (hr : Reach (step cfg) ok s s') {aborts : List GenId}
    (hp : s.pc t = .terminate (.dropSupervisor aborts)) : s'.mem.Snapshot aborts := by
  have hpast := (past_of_reach hs).2 t
  have hagrees := (agrees_of_reach hs).2 t
  rw [hp] at hpast hagrees
  exact fun e he => hagrees.2 e (tasks_of_reach hs hr hpast.1 e he)

/-- **The phase and the supervisor agree.** While the supervisor lock is free exactly one of the
three descriptions fits; the phase does not go back; once the domain has left `Running` its table
only shrinks, and so stays within the snapshot `terminate` takes; and once the notification of
quiescence has run nobody waits for one that is not coming. -/
theorem phase_agrees_with_supervisor {ok : State R K E → Action R K E → Prop}
    {s s' : State R K E} (hs : Reach (step cfg) ok State.new s)
    (hr : Reach (step cfg) ok s s') :
    (s.mem.supervisor = none → ∃! ph, s.mem.Describes ph) ∧
      s.mem.phase.rank ≤ s'.mem.phase.rank ∧
      (s.mem.phase ≠ .running → ∀ e ∈ s'.mem.tasks, e ∈ s.mem.tasks) ∧
      (∀ t aborts, s.pc t = .terminate (.dropSupervisor aborts) →
        ∀ e ∈ s'.mem.tasks, e.2 ∈ aborts) ∧
      (s.mem.phase = .terminated → 0 < s.mem.quiescent →
        ∀ t seen, (s.pc t).awaitsQuiescence = some seen → seen < s.mem.quiescent) :=
  ⟨fun h => ((agrees_of_reach hs).1 h).describes, (grows_of_reach hr).phase,
    fun h => tasks_of_reach hs hr h, fun _ _ hp => snapshot_of_reach hs hr hp,
    fun _ hq _ _ hw => notified_of_reach hs hq hw⟩

/-- A task is running when a `shutdown` begins, which comes to wait for it. -/
def awaitedRun : List (Action Unit Unit Unit) :=
  .call (.acquire ⟨.spawn, ⟨(), ()⟩⟩) :: List.replicate 14 (.run 0 .go) ++
    .call .shutdown :: List.replicate 6 (.run 2 .go) ++ .run 2 (.pick 0) ::
      List.replicate 6 (.run 2 .go)

def awaited : State Unit Unit Unit := (afterwards false awaitedRun).get (by decide +kernel)

/-- The task ends, and its supervising future finishes. -/
def quietRun : List (Action Unit Unit Unit) :=
  [.poll 0, .gate 0, .finish 0 .ok] ++ List.replicate 13 (.run 1 .go)

def quiet : State Unit Unit Unit :=
  (Transition.exec (step (.single false)) awaited quietRun).get (by decide +kernel)

theorem quiet_agrees :
    (∃! ph, awaited.mem.Describes ph) ∧ (∃! ph, quiet.mem.Describes ph) ∧
      awaited.mem.phase.rank ≤ quiet.mem.phase.rank ∧
      (∀ e ∈ quiet.mem.tasks, e ∈ awaited.mem.tasks) ∧
      (quiet.pc 2).awaitsQuiescence = some 0 ∧ 0 < quiet.mem.quiescent := by
  have hs : Reach (step (.single false)) (fun _ _ => True) State.new awaited :=
    reach_afterwards (fun _ => True) (fun _ _ => trivial) _
  have hr : Reach (step (.single false)) (fun _ _ => True) awaited quiet :=
    reach_exec (P := fun _ => True) (fun _ _ _ => trivial) (fun _ _ => trivial) _
  obtain ⟨hph, hrank, htasks, -, -⟩ := phase_agrees_with_supervisor hs hr
  obtain ⟨hph', -, -, -, hwait⟩ := phase_agrees_with_supervisor (hs.trans hr) .refl
  have hseen : (quiet.pc 2).awaitsQuiescence = some 0 := by decide +kernel
  exact ⟨hph (by decide +kernel), hph' (by decide +kernel), hrank, htasks (by decide +kernel),
    hseen, hwait (by decide +kernel) (by decide +kernel) 2 0 hseen⟩

end Resourcery
