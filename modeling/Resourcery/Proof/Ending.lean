import Resourcery.Proof.Cancellation

/-!
# How a task ends

As long as the executor drops no task, the task of a generation whose gate is shut ends only after
it has been aborted, and only a domain that has stopped accepting aborts one. The supervising
future goes on from the task's end.
-/

namespace Resourcery

open Interleaving Function Transition ResourceContext

variable {R K E : Type}

/-- A task behind its gate: it has not begun, unless it has been aborted. -/
def TaskState.Behind (st : TaskState E) (aborted : Bool) : Prop :=
  match st with
  | .unspawned | .gated | .polling => True
  | .running | .suspended => False
  | .ended _ => aborted = true

/-- Tasks whose gate is shut are behind it. -/
def Memory.Shut (m : Memory R K E) : Prop :=
  ∀ g, m.start g = .pending → (m.task g).Behind (m.aborted g)

/-- Only a domain that has stopped accepting aborts a task. -/
def Memory.Lasting (m : Memory R K E) : Prop := ∀ g, m.aborted g = true → ¬ m.Accepting

/-- The supervising future goes on when the task has ended, and cleans up when it has finished the
control. -/
def Pc.Joined (m : Memory R K E) : Pc R K E → Prop
  | .supervise _ _ _ _ .unpolled | .supervise _ _ _ _ .join => True
  | .supervise _ g _ _ (.finish _) => (m.task g).hasEnded = true
  | .supervise _ g _ _ (.cleanup ..) | .supervise _ g _ _ (.publish ..)
  | .supervise _ g _ _ .removeLive | .supervise _ g _ _ (.finalize .ran _)
  | .supervise _ g _ _ (.dropSender .ran) | .supervise _ g _ _ (.ended .ran) =>
    (m.task g).hasEnded = true ∧ m.control g = .finished
  | _ => True

variable {cfg : Config R K} {t : Tid} {m m' : Memory R K E} {p : Pc R K E} {g : GenId}

theorem TaskState.Behind.abort {st : TaskState E} {aborted : Bool} (h : st.Behind aborted) :
    st.Behind true := by
  cases st <;> trivial

theorem Memory.Shut.aborted (h : m.Shut) (hs : m.start g = .pending)
    (he : (m.task g).hasEnded = true) : m.aborted g = true := by
  have := h g hs
  revert this he
  cases m.task g
  case ended => exact fun _ h => h
  all_goals exact fun he => nomatch he

variable [DecidableEq R] [DecidableEq K]

/-! ## The gate -/

theorem wp_shut {α : Type} {ins : Instr R K E α} (h : m.Shut) :
    ins.wp cfg t m fun m' _ _ => m'.Shut := by
  cases ins
  case spawnTask x k =>
    intro g hg
    by_cases hgx : g = x
    · show (update m.task x .gated g).Behind _
      rw [hgx, update_self]
      trivial
    · show (update m.task x .gated g).Behind _
      rw [update_of_ne hgx]
      exact h g hg
  case sendStart x k | dropStart x k =>
    intro g hg
    by_cases hgx : g = x
    · have hg' : update m.start x _ g = .pending := hg
      rw [hgx, update_self] at hg'
      cases hg'
    · have hg' : update m.start x _ g = .pending := hg
      rw [update_of_ne hgx] at hg'
      exact h g hg'
  case abort x k =>
    intro g hg
    show (m.task g).Behind (update m.aborted x true g)
    by_cases hgx : g = x
    · rw [hgx, update_self]
      exact (h x (hgx ▸ hg)).abort
    · rw [update_of_ne hgx]
      exact h g hg
  all_goals
    repeat' first
      | exact trivial
      | exact h
      | apply And.intro
      | intro _

omit [DecidableEq R] [DecidableEq K] in
theorem TaskCases.shut {a : Action R K E} {st : TaskState E} (h : TaskCases m g a st)
    (ha : a.KeepsTask) (hm : m.Shut) : (m.setTask g st).Shut := by
  intro x hx
  show (update m.task g st x).Behind (m.aborted x)
  by_cases hxg : x = g
  · subst hxg
    rw [update_self]
    have hb := hm x hx
    cases h
    case start ho => exact absurd hx ho
    case resume hs _ | yield hs | finish hs =>
      rw [hs] at hb
      exact hb.elim
    case reap _ hr => exact hr
    case dropTask => cases ha
    all_goals trivial
  · rw [update_of_ne hxg]
    exact hm x hx

theorem shut_of_reach {ok : State R K E → Action R K E → Prop} {s : State R K E}
    (hok : ∀ s a, ok s a → a.KeepsTask) (hr : Reach (step cfg) ok State.new s) : s.mem.Shut := by
  refine hr.invariant (fun s => s.mem.Shut) (fun _ _ => trivial) ?_
  intro s a s' hm ha h
  refine mem_step Memory.Shut h hm (fun _ _ _ _ _ => wp_shut hm) ?_ ?_ ?_
  · rintro c m p - hc
    cases hc <;> exact hm
  · exact fun g st ht => ht.shut (hok _ _ ha) hm
  · rintro m c hh
    cases hh <;> exact hm

/-! ## Aborts -/

/-- A task is aborted by a domain that has stopped accepting. -/
def Instr.Aborting {α : Type} (m : Memory R K E) : Instr R K E α → Prop
  | .abort .. => ¬ m.Accepting
  | _ => True

omit [DecidableEq R] [DecidableEq K] in
theorem aborting_of_past (hp : p.Past m) (hs : p.Starts m) : p.code.Aborting m := by
  cases p using Pc.points
  case acquire_create_abort => exact hs
  case terminate_abortOne => exact hp.1
  all_goals trivial

theorem wp_aborted {α : Type} {ins : Instr R K E α} (hi : ins.Aborting m) (hm : m.Lasting) :
    ins.wp cfg t m fun m' _ _ => ∀ g, m'.aborted g = true → ¬ m.Accepting := by
  cases ins
  case abort x k => exact fun _ _ => hi
  all_goals
    repeat' first
      | exact trivial
      | exact hm
      | apply And.intro
      | intro _

theorem lasting_of_reach {ok : State R K E → Action R K E → Prop} {s : State R K E}
    (hr : Reach (step cfg) ok State.new s) : s.mem.Lasting := by
  refine hr.invariant_of_reach (fun s => s.mem.Lasting) (fun _ h => nomatch h) ?_
  intro s a s' hs hm _ h g hg ha
  refine mem_step (fun m => ∀ g, m.aborted g = true → ¬ s.mem.Accepting) h hm ?_ ?_ ?_ ?_ g hg
    ((grows_step h).accepting ha)
  · rintro t p - rfl -
    exact wp_aborted (aborting_of_past ((past_of_reach hs).2 t) (starts_of_reach hs t)) hm
  · rintro c m p - hc
    cases hc <;> exact hm
  · exact fun _ _ _ => hm
  · rintro m c hh
    cases hh <;> exact hm

/-! ## The supervising future -/

/-- A task is spawned once. -/
def Instr.Spawning {α : Type} (m : Memory R K E) : Instr R K E α → Prop
  | .spawnTask g _ => m.task g = .unspawned
  | _ => True

omit [DecidableEq R] [DecidableEq K] in
theorem spawning_of_known (hk : p.Known m) : p.code.Spawning m := by
  cases p using Pc.points
  case acquire_create_spawnTask => exact hk.2.2
  all_goals trivial

theorem wp_ended {α : Type} {ins : Instr R K E α} (hi : ins.Spawning m)
    (he : (m.task g).hasEnded = true) :
    ins.wp cfg t m fun m' _ _ => (m'.task g).hasEnded = true := by
  cases ins
  case spawnTask x k =>
    have hne : g ≠ x := by
      rintro rfl
      rw [hi] at he
      cases he
    show (update m.task x .gated g).hasEnded = true
    rw [update_of_ne hne]
    exact he
  all_goals
    repeat' first
      | exact trivial
      | exact he
      | apply And.intro
      | intro _

omit [DecidableEq R] [DecidableEq K] in
/-- What happens to a task happens before its end. -/
theorem TaskCases.not_ended {a : Action R K E} {st : TaskState E} (h : TaskCases m g a st) :
    (m.task g).hasEnded = false := by
  cases h
  case reap hi _ | dropTask hi => rcases hi with hi | hi <;> rw [hi] <;> rfl
  case poll hi _ | resume hi _ | wait hi _ | start hi _ | yield hi | finish hi =>
    rw [hi]
    rfl

/-- A task that has ended is not started again. -/
theorem ended_step {s s' : State R K E} {a : Action R K E} (h : step cfg s a = some s')
    (hk : ∀ u, (s.pc u).Known s.mem) (he : (s.mem.task g).hasEnded = true) :
    (s'.mem.task g).hasEnded = true := by
  refine mem_step (fun m => (m.task g).hasEnded = true) h he ?_ ?_ ?_ ?_
  · rintro t p - rfl -
    exact wp_ended (spawning_of_known (hk t)) he
  · rintro c m p - hc
    cases hc <;> exact he
  · intro x st ht
    have hne : g ≠ x := by
      rintro rfl
      rw [ht.not_ended] at he
      cases he
    show (update s.mem.task x st g).hasEnded = true
    rw [update_of_ne hne]
    exact he
  · rintro m c hh
    cases hh <;> exact he

omit [DecidableEq R] [DecidableEq K] in
theorem Pc.Joined.stable (h : p.Joined m) (hg : Grows m m')
    (he : ∀ g, (m.task g).hasEnded = true → (m'.task g).hasEnded = true) : p.Joined m' := by
  unfold Pc.Joined at *
  split <;> simp only at h
  case h_3 => exact he _ h
  case h_4 | h_5 | h_6 | h_7 | h_8 | h_9 => exact ⟨he _ h.1, hg.finished h.2⟩
  all_goals trivial

theorem joined_run (hp : p.Joined m) :
    p.code.wp cfg t m fun m' p' c => p'.Joined m' ∧ ForSome (Pc.Joined m') c := by
  cases p using Pc.points
  case' supervise_finalize_lock exit | supervise_finalize_remove exit
    | supervise_finalize_accepting exit | supervise_finalize_isEmpty exit
    | supervise_finalize_storeTerminated exit | supervise_finalize_dropSupervisor_false exit
    | supervise_finalize_dropSupervisor_true exit | supervise_finalize_notify exit
    | supervise_dropSender exit => cases exit
  case supervise_join g _ _ =>
    intro result hr
    refine ⟨?_, trivial⟩
    show (m.task g).hasEnded = true
    rw [hr]
    rfl
  case supervise_finish_none | supervise_finish_some =>
    exact ⟨⟨hp, update_self _ _ _⟩, trivial⟩
  case acquire_guard_remove_entry | supervise_cleanup_entry =>
    refine ⟨⟨hp, trivial⟩, fun _ => ⟨fun _ _ => ?_, fun _ => ⟨hp, trivial⟩⟩⟩
    dsimp only
    split <;> exact ⟨hp, trivial⟩
  all_goals
    repeat' first
      | exact trivial
      | exact hp
      | apply And.intro
      | intro _

theorem joined_of_reach {ok : State R K E → Action R K E → Prop} {s : State R K E}
    (hr : Reach (step cfg) ok State.new s) (u : Tid) : (s.pc u).Joined s.mem := by
  revert u
  refine hr.invariant_of_reach (fun s => ∀ u, (s.pc u).Joined s.mem) (fun _ => trivial) ?_
  intro s a s' hs ih _ h
  have hk := (known_of_reach hs).2
  refine forall_pc_step (fun m _ p => p.Joined m) h ih
    (fun u _ => (ih u).stable (grows_step h) fun g => ended_step h hk) ?_ ?_ ?_ ?_
  · exact fun t p _ _ _ hp => joined_run hp
  · rintro t p p' hj - - -
    cases hj <;> trivial
  · rintro c m p rfl hc
    cases hc <;> trivial
  · rintro m c hh
    cases hh
    trivial

omit [DecidableEq R] [DecidableEq K] in
/-- While the domain accepts, a gate that is shut keeps the task from its end. -/
theorem not_ended_of_shut (hm : m.Shut) (hl : m.Lasting) (ha : m.Accepting)
    (hs : m.start g = .pending) : (m.task g).hasEnded = false := by
  rw [← Bool.not_eq_true]
  exact fun he => hl g (hm.aborted hs he) ha

/-- A control is finished after the end of the task. -/
def Memory.Late (m : Memory R K E) : Prop :=
  ∀ g, m.control g = .finished → (m.task g).hasEnded = true

/-- An instruction finishes the control of a task that has ended. -/
def Instr.Late {α : Type} (m : Memory R K E) : Instr R K E α → Prop
  | .storeFinished g _ => (m.task g).hasEnded = true
  | _ => True

omit [DecidableEq R] [DecidableEq K] in
theorem late_of_joined (hj : p.Joined m) : p.code.Late m := by
  cases p using Pc.points
  case supervise_finish_none | supervise_finish_some => exact hj
  all_goals trivial

theorem wp_finished {α : Type} {ins : Instr R K E α} (hi : ins.Late m) (hm : m.Late) :
    ins.wp cfg t m fun m' _ _ => ∀ g, m'.control g = .finished → (m.task g).hasEnded = true := by
  have other {x : GenId} {ph : Phase} (hph : ph ≠ .finished) (g : GenId)
      (h : update m.control x ph g = .finished) : (m.task g).hasEnded = true := by
    by_cases hg : g = x
    · rw [hg, update_self] at h
      exact absurd h hph
    · rw [update_of_ne hg] at h
      exact hm g h
  cases ins
  case storeFinished x k =>
    intro g h
    have h' : update m.control x .finished g = .finished := h
    by_cases hg : g = x
    · exact hg ▸ hi
    · rw [update_of_ne hg] at h'
      exact hm g h'
  case exchangeActive x k => exact ⟨fun _ => other (by decide), fun _ => hm⟩
  case exchangeCancelling x current k =>
    exact ⟨fun _ => other (by decide), fun _ => hm, fun _ => hm, fun _ => hm, fun _ => hm⟩
  all_goals
    repeat' first
      | exact trivial
      | exact hm
      | apply And.intro
      | intro _

theorem late_of_reach {ok : State R K E → Action R K E → Prop} {s : State R K E}
    (hr : Reach (step cfg) ok State.new s) : s.mem.Late := by
  refine hr.invariant_of_reach (fun s => s.mem.Late) (fun _ h => nomatch h) ?_
  intro s a s' hs hm _ h g hg
  refine ended_step h (known_of_reach hs).2 ?_
  refine mem_step (fun m => ∀ g, m.control g = .finished → (s.mem.task g).hasEnded = true) h hm
    ?_ ?_ ?_ ?_ g hg
  · rintro t p - rfl -
    exact wp_finished (late_of_joined (joined_of_reach hs t)) hm
  · rintro c m p - hc
    cases hc <;> exact hm
  · exact fun _ _ _ => hm
  · rintro m c hh
    cases hh <;> exact hm

/-! ## The sender of the gate -/

/-- The gate an instruction opens. -/
def Instr.opens? {α : Type} : Instr R K E α → Option GenId
  | .sendStart g _ | .dropStart g _ => some g
  | _ => none

omit [DecidableEq R] [DecidableEq K] in
theorem gate_of_code (h : p.code.opens? = some g) : 0 < p.gate g := by
  revert h
  cases p using Pc.points
  all_goals
    intro h
    cases h
  all_goals
    exact isGen_pos g

theorem wp_start {α : Type} {ins : Instr R K E α} (h : ins.opens? ≠ some g) :
    ins.wp cfg t m fun m' _ _ => m'.start g = m.start g := by
  have ne {x : GenId} (hx : some x ≠ some g) : g ≠ x := fun e => hx (congrArg some e.symm)
  cases ins
  case sendStart x k | dropStart x k => exact update_of_ne (ne h) _ _
  all_goals
    repeat' first
      | exact trivial
      | exact rfl
      | apply And.intro
      | intro _

/-- The sender of a gate that a thread holds has not been used. -/
def Pc.Guards (m : Memory R K E) (p : Pc R K E) : Prop :=
  ∀ g, 0 < p.gate g → m.start g = .pending

theorem guards_run (hm : Tables m) (hp : p.Guards m) :
    p.code.wp cfg t m fun m' p' c => p'.Guards m' ∧ ForSome (Pc.Guards m') c := by
  have none {m' : Memory R K E} {p' : Pc R K E} (h : ∀ g, p'.gate g = 0) : p'.Guards m' :=
    fun g hg => absurd (h g ▸ hg) (Nat.lt_irrefl 0)
  cases p using Pc.points
  case acquire_create_newEntry =>
    refine ⟨fun g hg => ?_, trivial⟩
    obtain rfl := eq_of_isGen hg
    exact (hm.fresh _ (Nat.le_refl _)).2.2.2.1
  case acquire_guard_remove_entry | supervise_cleanup_entry =>
    refine ⟨⟨none fun _ => rfl, trivial⟩,
      fun _ => ⟨fun _ _ => ?_, fun _ => ⟨none fun _ => rfl, trivial⟩⟩⟩
    dsimp only
    split <;> exact ⟨none fun _ => rfl, trivial⟩
  all_goals
    repeat' first
      | exact trivial
      | exact hp
      | exact none fun _ => rfl
      | apply And.intro
      | intro _

theorem guards_of_reach {ok : State R K E → Action R K E → Prop} {s : State R K E}
    (hr : Reach (step cfg) ok State.new s) (u : Tid) : (s.pc u).Guards s.mem := by
  revert u
  refine hr.invariant_of_reach (fun s => ∀ u, (s.pc u).Guards s.mem)
    (fun _ _ h => absurd h (Nat.lt_irrefl 0)) ?_
  intro s a s' hs ih _ h
  have hgate := gate_of_reach hs
  refine forall_pc_step (fun m _ p => p.Guards m) h ih (fun u hu g hg => ?_) ?_ ?_ ?_ ?_
  · have hsize : u < s.size :=
      lt_size_of_ne_idle (fresh_of_reach hs) fun e => by rw [e] at hg; exact Nat.lt_irrefl _ hg
    have hsame : s'.mem.start g = s.mem.start g := by
      refine mem_step (fun m => m.start g = s.mem.start g) h rfl ?_ ?_ ?_ ?_
      · rintro t p hat rfl hr
        exact wp_start fun hc => hu (by rw [hat, hgate.eq hr.1 hsize (gate_of_code hc) hg])
      · rintro c m p - hc
        cases hc <;> rfl
      · exact fun _ _ _ => rfl
      · rintro m c hh
        cases hh <;> rfl
    exact hsame.trans (ih u g hg)
  · exact fun t p _ _ _ hp => guards_run (known_of_reach hs).1 hp
  · rintro t p p' hj - - hp
    cases hj <;> exact hp
  · rintro c m p rfl hc
    cases hc <;> exact fun g hg => absurd hg (Nat.lt_irrefl 0)
  · rintro m c hh
    cases hh
    exact fun g hg => absurd hg (Nat.lt_irrefl 0)

end Resourcery
